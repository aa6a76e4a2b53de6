import Mathlib.Data.Int.Range
import FactCore.Lib.Loop
import FactCore.Lib.NestedDict

/-! # The release date statistics

`statistic/time_stats.py`: the numbers of firmware releases for each month, as the
database counts them, become the bars of a histogram. Months without a release
between the first and the last one get a bar of height zero.
-/

namespace FactCore.TimeStats

/-- What the functions of this module raise. -/
inductive TimeError where
  | valueError (message : String)
deriving DecidableEq

/-- A month as `(year, month)`. -/
abbrev Month := ℤ × ℤ

/-- The release date statistics: `(year, month, count)`. -/
abbrev DateStats := List (ℤ × ℤ × ℤ)

/-- `dict[int, dict[int, int]]`: the counts by year and by month. -/
abbrev TimeDict := Dict ℤ (Dict ℤ ℤ)

def monthNames : List String :=
  ["January", "February", "March", "April", "May", "June", "July", "August", "September",
    "October", "November", "December"]

/-- `_get_month_name`. -/
def getMonthName (monthInt : ℤ) : Except TimeError String :=
  if 1 ≤ monthInt ∧ monthInt ≤ 12 then .ok (monthNames.getD (monthInt - 1).toNat "")
  else .error (.valueError "month must be in 1..12")

/-! ## Filling the gaps -/

/-- One pass of the loop over the years in `_fill_in_time_gaps`. -/
def fillYear (start stop : Month) (timeDict : TimeDict) (year : ℤ) : TimeDict :=
  let minMonth := if year = start.1 then start.2 else 1
  let maxMonth := if year = stop.1 then stop.2 else 12
  (Int.range minMonth (maxMonth + 1)).foldl (fun timeDict month => timeDict.setDefaultAt year month 0)
    (timeDict.setDefault year ∅)

/-- `min(d)` raises an exception if there are no keys. -/
def minKey {ν : Type} (d : Dict ℤ ν) : Except TimeError ℤ :=
  match d.keys.min? with
  | some key => .ok key
  | none => .error (.valueError "min() arg is an empty sequence")

/-- `max(d)`. -/
def maxKey {ν : Type} (d : Dict ℤ ν) : Except TimeError ℤ :=
  match d.keys.max? with
  | some key => .ok key
  | none => .error (.valueError "max() arg is an empty sequence")

/-- `_fill_in_time_gaps`. The years that are looked up are keys of the dictionary. -/
def fillInTimeGaps (timeDict : TimeDict) : Except TimeError TimeDict :=
  if timeDict.items = [] then .ok timeDict
  else do
    let startYear ← minKey timeDict
    let startMonth ← minKey ((timeDict.get? startYear).getD ∅)
    let endYear ← maxKey timeDict
    let endMonth ← maxKey ((timeDict.get? endYear).getD ∅)
    return (Int.range startYear (endYear + 1)).foldl
      (fillYear (startYear, startMonth) (endYear, endMonth)) timeDict

/-! ## The histogram -/

/-- One pass of the loop in `_build_time_dict`. -/
def addEntry (result : TimeDict) (entry : ℤ × ℤ × ℤ) : TimeDict :=
  if 1970 < entry.1 then result.setAt entry.1 entry.2.1 entry.2.2 else result

/-- `_build_time_dict`. -/
def buildTimeDict (releaseDateStats : DateStats) : Except TimeError TimeDict :=
  let result := releaseDateStats.foldl addEntry ∅
  if result.items = [] then .ok result else fillInTimeGaps result

/-- The label and the count of a bar. -/
def statsRow (entry : Month × ℤ) : Except TimeError (String × ℤ) := do
  let name ← getMonthName entry.1.2
  return (name ++ " " ++ toString entry.1.1, entry.2)

/-- `build_stats_entry_from_date_query`. -/
def buildStatsEntryFromDateQuery (releaseDateStats : DateStats) :
    Except TimeError (List (String × ℤ)) := do
  let timeDict ← buildTimeDict releaseDateStats
  timeDict.sortedEntries.mapM statsRow

/-! ## The dictionary before the gaps are filled -/

variable {stats : DateStats} {start stop : Month} {timeDict : TimeDict}

/-- The entries that count: years up to 1970 stand for unknown dates. -/
def recent (stats : DateStats) : DateStats := stats.filter fun entry => 1970 < entry.1

/-- The months are between January and December. -/
def MonthsOk (stats : DateStats) : Prop := ∀ entry ∈ stats, 1 ≤ entry.2.1 ∧ entry.2.1 ≤ 12

instance instDecidableMonthsOk (stats : DateStats) : Decidable (MonthsOk stats) :=
  inferInstanceAs (Decidable (∀ _ ∈ _, _))

/-- The month of an entry. -/
def monthOf (entry : ℤ × ℤ × ℤ) : Month := (entry.1, entry.2.1)

/-- The count that the list gives for a month, if it gives one. -/
def givenCount (stats : DateStats) (month : Month) : Option ℤ :=
  (stats.find? fun entry => monthOf entry = month).map fun entry => entry.2.2

theorem filled_addEntry {entry : ℤ × ℤ × ℤ} (h : timeDict.Filled) : (addEntry timeDict entry).Filled := by
  unfold addEntry
  split
  next => exact h.setAt
  next => exact h

theorem at?_addEntry {entry : ℤ × ℤ × ℤ} {month : Month} :
    (addEntry timeDict entry).at? month.1 month.2 =
      if 1970 < entry.1 ∧ monthOf entry = month then some entry.2.2
      else timeDict.at? month.1 month.2 := by
  unfold addEntry
  split
  next hyear =>
    rw [Dict.at?_setAt]
    simp only [hyear, true_and, monthOf, Prod.ext_iff, eq_comm]
  next hyear => simp [hyear]

theorem filled_foldl_addEntry (h : timeDict.Filled) : (stats.foldl addEntry timeDict).Filled := by
  induction stats generalizing timeDict with
  | nil => exact h
  | cons entry stats ih => exact ih (filled_addEntry h)

/-- An entry that no later one overwrites is found in the dictionary. -/
theorem at?_foldl_addEntry (hdistinct : (stats.map monthOf).Nodup) (month : Month) :
    (stats.foldl addEntry timeDict).at? month.1 month.2 =
      (givenCount (recent stats) month).or (timeDict.at? month.1 month.2) := by
  induction stats generalizing timeDict with
  | nil => rfl
  | cons entry stats ih =>
      rw [List.map_cons, List.nodup_cons] at hdistinct
      rw [List.foldl_cons, ih hdistinct.2, at?_addEntry]
      by_cases hyear : 1970 < entry.1
      · by_cases hmonth : monthOf entry = month
        · have hnone : givenCount (recent stats) month = none := by
            rw [givenCount, Option.map_eq_none_iff, List.find?_eq_none]
            intro other hother
            have hmem : monthOf other ∈ stats.map monthOf :=
              List.mem_map_of_mem (List.mem_of_mem_filter hother)
            simp only [decide_eq_true_eq]
            rintro rfl
            exact hdistinct.1 (hmonth ▸ hmem)
          rw [hnone, if_pos ⟨hyear, hmonth⟩]
          simp [givenCount, recent, hyear, hmonth]
        · simp [givenCount, recent, hyear, hmonth]
      · simp [givenCount, recent, hyear]

/-! ## The dictionary after the gaps are filled -/

/-- The months between two months. -/
def InSpan (start stop month : Month) : Prop :=
  (1 ≤ month.2 ∧ month.2 ≤ 12) ∧ toLex start ≤ toLex month ∧ toLex month ≤ toLex stop

instance instDecidableInSpan (start stop month : Month) : Decidable (InSpan start stop month) :=
  inferInstanceAs (Decidable (_ ∧ _))

/-- The loops reach the months between the two bounds and no others. -/
theorem mem_range_iff_inSpan {month : Month} (hstart : 1 ≤ start.2 ∧ start.2 ≤ 12)
    (hstop : 1 ≤ stop.2 ∧ stop.2 ≤ 12) :
    (month.1 ∈ Int.range start.1 (stop.1 + 1) ∧
      month.2 ∈ Int.range (if month.1 = start.1 then start.2 else 1)
        ((if month.1 = stop.1 then stop.2 else 12) + 1)) ↔ InSpan start stop month := by
  rw [InSpan, Prod.Lex.toLex_le_toLex, Prod.Lex.toLex_le_toLex, Int.mem_range_iff, Int.mem_range_iff]
  -- the first and the last year begin and end with the bound, the years between are whole
  split <;> split <;> omega

theorem at?_fillYear {year : ℤ} {month : Month} :
    (fillYear start stop timeDict year).at? month.1 month.2 =
      if month.1 = year ∧ month.2 ∈ Int.range (if month.1 = start.1 then start.2 else 1)
        ((if month.1 = stop.1 then stop.2 else 12) + 1)
      then some ((timeDict.at? month.1 month.2).getD 0) else timeDict.at? month.1 month.2 := by
  rw [fillYear, Dict.at?_foldl_setDefaultAt, Dict.at?_setDefault_empty, Dict.at?_setDefault_empty]
  by_cases hyear : month.1 = year
  · subst hyear
    rfl
  · simp [hyear]

theorem at?_foldl_fillYear {years : List ℤ} {month : Month} :
    (years.foldl (fillYear start stop) timeDict).at? month.1 month.2 =
      if month.1 ∈ years ∧ month.2 ∈ Int.range (if month.1 = start.1 then start.2 else 1)
        ((if month.1 = stop.1 then stop.2 else 12) + 1)
      then some ((timeDict.at? month.1 month.2).getD 0) else timeDict.at? month.1 month.2 := by
  induction years generalizing timeDict with
  | nil => simp
  | cons year years ih =>
      rw [List.foldl_cons, ih, at?_fillYear]
      simp only [List.mem_cons]
      by_cases hrange : month.2 ∈ Int.range (if month.1 = start.1 then start.2 else 1)
          ((if month.1 = stop.1 then stop.2 else 12) + 1)
      · by_cases hyear : month.1 = year
        · subst hyear
          by_cases hmem : month.1 ∈ years <;> simp [hrange, hmem]
        · simp [hrange, hyear]
      · simp [hrange]

theorem minKey_ok {ν : Type} {d : Dict ℤ ν} {key : ℤ} (h : d.keys.min? = some key) :
    minKey d = .ok key := by
  rw [minKey, h]

theorem maxKey_ok {ν : Type} {d : Dict ℤ ν} {key : ℤ} (h : d.keys.max? = some key) :
    maxKey d = .ok key := by
  rw [maxKey, h]

/-- The bounds are the first and the last month of the dictionary. -/
theorem fillInTimeGaps_ok (hfilled : timeDict.Filled) (hne : timeDict.items ≠ []) :
    ∃ start stop : Month,
      ((∃ c, timeDict.at? start.1 start.2 = some c) ∧
        ∀ month : Month, ∀ c, timeDict.at? month.1 month.2 = some c → toLex start ≤ toLex month) ∧
      ((∃ c, timeDict.at? stop.1 stop.2 = some c) ∧
        ∀ month : Month, ∀ c, timeDict.at? month.1 month.2 = some c → toLex month ≤ toLex stop) ∧
      fillInTimeGaps timeDict =
        .ok ((Int.range start.1 (stop.1 + 1)).foldl (fillYear start stop) timeDict) := by
  have hkeys : timeDict.keys ≠ [] := fun h => hne (List.map_eq_nil_iff.1 h)
  rcases Option.ne_none_iff_exists'.1 (mt List.min?_eq_none_iff.1 hkeys) with ⟨startYear, hstartYear⟩
  rcases Option.ne_none_iff_exists'.1 (mt List.max?_eq_none_iff.1 hkeys) with ⟨endYear, hendYear⟩
  rcases Dict.mem_iff.1 (Dict.mem_keys.1 (List.min?_mem hstartYear)) with ⟨first, hfirst⟩
  rcases Dict.mem_iff.1 (Dict.mem_keys.1 (List.max?_mem hendYear)) with ⟨last, hlast⟩
  have hinner : ∀ {year inner}, timeDict.get? year = some inner → inner.keys ≠ [] := by
    intro year inner hget h
    rcases hfilled year inner hget with ⟨month, hmonth⟩
    rw [← Dict.mem_keys, h] at hmonth
    exact List.not_mem_nil hmonth
  rcases Option.ne_none_iff_exists'.1 (mt List.min?_eq_none_iff.1 (hinner hfirst)) with
    ⟨startMonth, hstartMonth⟩
  rcases Option.ne_none_iff_exists'.1 (mt List.max?_eq_none_iff.1 (hinner hlast)) with
    ⟨endMonth, hendMonth⟩
  have hmin := Dict.first_entry hstartYear hfirst hstartMonth
  have hmax := Dict.last_entry hendYear hlast hendMonth
  refine ⟨(startYear, startMonth), (endYear, endMonth), ⟨hmin.1, fun month c => hmin.2 month.1 month.2 c⟩,
    ⟨hmax.1, fun month c => hmax.2 month.1 month.2 c⟩, ?_⟩
  simp only [fillInTimeGaps, if_neg hne, bind, Except.bind, minKey_ok hstartYear, maxKey_ok hendYear,
    hfirst, hlast, Option.getD_some, minKey_ok hstartMonth, maxKey_ok hendMonth, pure, Except.pure]

/-! ## The histogram and the releases -/

theorem givenCount_eq_none {month : Month} :
    givenCount stats month = none ↔ ∀ entry ∈ stats, monthOf entry ≠ month := by
  rw [givenCount, Option.map_eq_none_iff, List.find?_eq_none]
  simp only [decide_eq_true_eq, ne_eq]

theorem exists_of_givenCount {month : Month} {c : ℤ} (h : givenCount stats month = some c) :
    ∃ entry ∈ stats, monthOf entry = month := by
  rcases Option.map_eq_some_iff.1 h with ⟨entry, hfind, -⟩
  exact ⟨entry, List.mem_of_find?_eq_some hfind, by simpa using List.find?_some hfind⟩

theorem givenCount_of_mem {entry : ℤ × ℤ × ℤ} (h : entry ∈ stats) :
    ∃ c, givenCount stats (monthOf entry) = some c := by
  rw [← Option.ne_none_iff_exists']
  exact fun hnone => givenCount_eq_none.1 hnone entry h rfl

/-- The year decides whether the entries of a month count. -/
theorem givenCount_recent {month : Month} (h : 1970 < month.1) :
    givenCount (recent stats) month = givenCount stats month := by
  rw [givenCount, givenCount, recent, List.find?_filter]
  congr 2
  funext entry
  by_cases hmonth : monthOf entry = month
  · have hyear : 1970 < entry.1 := by
      rw [← hmonth] at h
      exact h
    simp [hmonth, hyear]
  · simp [hmonth]

/-- A month between two recent ones is recent. -/
theorem year_of_inSpan {month : Month} {entry : ℤ × ℤ × ℤ} (hentry : entry ∈ recent stats)
    (h : toLex (monthOf entry) ≤ toLex month) : 1970 < month.1 := by
  have hyear : 1970 < entry.1 := by simpa using List.of_mem_filter hentry
  rw [Prod.Lex.toLex_le_toLex] at h
  simp only [monthOf] at h
  omega

/-- The span from the first to the last entry is what lies between entries. -/
theorem inSpan_iff {first last : ℤ × ℤ × ℤ} (hfirst : first ∈ recent stats) (hlast : last ∈ recent stats)
    (hbounds : ∀ entry ∈ recent stats, toLex (monthOf first) ≤ toLex (monthOf entry) ∧
      toLex (monthOf entry) ≤ toLex (monthOf last)) {month : Month} :
    InSpan (monthOf first) (monthOf last) month ↔
      ((1 ≤ month.2 ∧ month.2 ≤ 12) ∧ (∃ entry ∈ recent stats, toLex (monthOf entry) ≤ toLex month) ∧
        ∃ entry ∈ recent stats, toLex month ≤ toLex (monthOf entry)) := by
  refine and_congr_right fun _ => and_congr ?_ ?_
  · refine ⟨fun h => ⟨first, hfirst, h⟩, ?_⟩
    rintro ⟨entry, hentry, h⟩
    exact (hbounds entry hentry).1.trans h
  · refine ⟨fun h => ⟨last, hlast, h⟩, ?_⟩
    rintro ⟨entry, hentry, h⟩
    exact h.trans (hbounds entry hentry).2

/-- What the dictionary holds when the loops are done: the counts that are given, and
zero for the other months between the first and the last entry. -/
theorem buildTimeDict_ok (hmonths : MonthsOk stats) (hdistinct : (stats.map monthOf).Nodup) :
    ∃ timeDict, buildTimeDict stats = .ok timeDict ∧ ∀ (month : Month) (c : ℤ),
      timeDict.at? month.1 month.2 = some c ↔
        (((1 ≤ month.2 ∧ month.2 ≤ 12) ∧ (∃ entry ∈ recent stats, toLex (monthOf entry) ≤ toLex month) ∧
          ∃ entry ∈ recent stats, toLex month ≤ toLex (monthOf entry)) ∧
        c = (givenCount stats month).getD 0) := by
  have hat : ∀ month : Month, (stats.foldl addEntry ∅).at? month.1 month.2 =
      givenCount (recent stats) month := fun month => by
    rw [at?_foldl_addEntry hdistinct, Dict.at?_empty, Option.or_none]
  unfold buildTimeDict
  by_cases hitems : (stats.foldl addEntry ∅).items = []
  · refine ⟨_, if_pos hitems, fun month c => ?_⟩
    have hempty : ∀ month : Month, givenCount (recent stats) month = none := fun month => by
      rw [← hat, Dict.at?, Dict.get?, hitems]
      rfl
    rw [hat, hempty]
    constructor
    · intro h
      cases h
    · rintro ⟨⟨-, ⟨entry, hentry, -⟩, -⟩, -⟩
      exact absurd rfl (givenCount_eq_none.1 (hempty (monthOf entry)) entry hentry)
  · rcases fillInTimeGaps_ok (filled_foldl_addEntry Dict.filled_empty) hitems with
      ⟨start, stop, ⟨⟨cstart, hstart⟩, hmin⟩, ⟨⟨cstop, hstop⟩, hmax⟩, hfill⟩
    rw [hat] at hstart hstop
    rcases exists_of_givenCount hstart with ⟨first, hfirst, rfl⟩
    rcases exists_of_givenCount hstop with ⟨last, hlast, rfl⟩
    have hbounds : ∀ entry ∈ recent stats, toLex (monthOf first) ≤ toLex (monthOf entry) ∧
        toLex (monthOf entry) ≤ toLex (monthOf last) := by
      intro entry hentry
      rcases givenCount_of_mem hentry with ⟨c, hc⟩
      rw [← hat] at hc
      exact ⟨hmin (monthOf entry) c hc, hmax (monthOf entry) c hc⟩
    refine ⟨_, (if_neg hitems).trans hfill, fun month c => ?_⟩
    rw [at?_foldl_fillYear, hat, if_congr (mem_range_iff_inSpan
      (hmonths first (List.mem_of_mem_filter hfirst)) (hmonths last (List.mem_of_mem_filter hlast)))
      rfl rfl, ← inSpan_iff hfirst hlast hbounds]
    split
    next hin =>
      rw [givenCount_recent (year_of_inSpan hfirst hin.2.1), Option.some_inj, eq_comm]
      exact (and_iff_right hin).symm
    next hout =>
      refine iff_of_false (fun h => ?_) fun h => hout h.1
      -- an entry of the list lies between the bounds
      rcases exists_of_givenCount h with ⟨entry, hentry, rfl⟩
      exact hout ⟨hmonths entry (List.mem_of_mem_filter hentry), hbounds entry hentry⟩

theorem statsRow_ok {entry : Month × ℤ} (h : 1 ≤ entry.1.2 ∧ entry.1.2 ≤ 12) :
    statsRow entry =
      .ok (monthNames.getD (entry.1.2 - 1).toNat "" ++ " " ++ toString entry.1.1, entry.2) := by
  simp only [statsRow, getMonthName, if_pos h]
  rfl

/-- The label of a month. -/
def monthLabel (month : Month) : String :=
  monthNames.getD (month.2 - 1).toNat "" ++ " " ++ toString month.1

/-- The bars are the months from the first to the last recent entry, in chronological
order and each of them once. -/
theorem build_stats_entry_from_date_query (hmonths : MonthsOk stats)
    (hdistinct : (stats.map monthOf).Nodup) :
    ∃ months : List Month,
      buildStatsEntryFromDateQuery stats =
        .ok (months.map fun month => (monthLabel month, (givenCount stats month).getD 0)) ∧
      (months.Pairwise fun month month' => toLex month < toLex month') ∧
      (∀ month, month ∈ months ↔ (1 ≤ month.2 ∧ month.2 ≤ 12) ∧
        (∃ entry ∈ recent stats, toLex (monthOf entry) ≤ toLex month) ∧
        ∃ entry ∈ recent stats, toLex month ≤ toLex (monthOf entry)) ∧
      (recent stats = [] → months = []) := by
  rcases buildTimeDict_ok hmonths hdistinct with ⟨timeDict, hbuild, hat⟩
  have hmem : ∀ month, month ∈ timeDict.sortedEntries.map Prod.fst ↔ (1 ≤ month.2 ∧ month.2 ≤ 12) ∧
      (∃ entry ∈ recent stats, toLex (monthOf entry) ≤ toLex month) ∧
      ∃ entry ∈ recent stats, toLex month ≤ toLex (monthOf entry) := by
    intro month
    rw [List.mem_map]
    constructor
    · rintro ⟨e, he, rfl⟩
      exact ((hat e.1 e.2).1 (Dict.mem_sortedEntries.1 he)).1
    · intro h
      exact ⟨(month, _), Dict.mem_sortedEntries.2 ((hat month _).2 ⟨h, rfl⟩), rfl⟩
  refine ⟨timeDict.sortedEntries.map Prod.fst, ?_, ?_, hmem, ?_⟩
  · have hrows : timeDict.sortedEntries.mapM statsRow = .ok ((timeDict.sortedEntries.map Prod.fst).map
        fun month => (monthLabel month, (givenCount stats month).getD 0)) := by
      rw [Loop.mapM_ok_iff, List.map_map, List.map_map]
      refine List.map_congr_left fun e he => ?_
      rcases (hat e.1 e.2).1 (Dict.mem_sortedEntries.1 he) with ⟨⟨hmonth, -⟩, hcount⟩
      rw [statsRow_ok hmonth, hcount]
      rfl
    rw [buildStatsEntryFromDateQuery, hbuild]
    exact hrows
  · rw [List.pairwise_map]
    exact Dict.pairwise_sortedEntries timeDict
  · intro hnone
    refine List.eq_nil_iff_forall_not_mem.2 fun month h => ?_
    rcases (hmem month).1 h with ⟨-, ⟨entry, hentry, -⟩, -⟩
    rw [hnone] at hentry
    exact List.not_mem_nil hentry

theorem build_stats_entry_from_date_query_sample :
    ∃ months : List Month,
      buildStatsEntryFromDateQuery [(2000, 11, 3), (1970, 1, 7), (2001, 1, 2)] =
        .ok (months.map fun month => (monthLabel month,
          (givenCount [(2000, 11, 3), (1970, 1, 7), (2001, 1, 2)] month).getD 0)) ∧
      (months.Pairwise fun month month' => toLex month < toLex month') ∧
      (∀ month, month ∈ months ↔ (1 ≤ month.2 ∧ month.2 ≤ 12) ∧
        (∃ entry ∈ recent [(2000, 11, 3), (1970, 1, 7), (2001, 1, 2)],
          toLex (monthOf entry) ≤ toLex month) ∧
        ∃ entry ∈ recent [(2000, 11, 3), (1970, 1, 7), (2001, 1, 2)],
          toLex month ≤ toLex (monthOf entry)) ∧
      (recent [(2000, 11, 3), (1970, 1, 7), (2001, 1, 2)] = [] → months = []) :=
  build_stats_entry_from_date_query (by decide) (by decide)

end FactCore.TimeStats
