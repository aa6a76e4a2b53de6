import Mathlib.Algebra.BigOperators.Group.List.Basic
import Mathlib.Data.List.Basic

/-! # The charts of the statistic page

`data_to_chart_with_value_percentage_pairs` and `set_limit_for_data_to_chart` of
`web_interface/filter.py` with the colours of `helperFunctions/web_interface.py`. A
chart consists of series, and position `i` of each of them belongs to bar `i`.

The labels and the values are cut at the limit and get a bar for the rest; the
percentages and the links stay as they are, and the colours end at the limit. The
series fit together if and only if the limit is not exceeded.
-/

namespace FactCore.Charts

variable {ν π : Type} {limit : ℕ}

/-- A tuple of the statistics; the last component is optional. -/
structure Entry (ν π : Type) where
  label : String
  value : ν
  percentage : π
  link : Option String
deriving DecidableEq

/-- The dict that the template gets. A missing list of links is the text `null`. -/
structure Chart (ν π : Type) where
  labels : List String
  data : List ν
  percentage : List π
  backgroundColor : List String
  borderWidth : ℕ
  links : Option (List String)
deriving DecidableEq

/-! ## The colours -/

/-- `range(start, stop, step)`. -/
def range (start stop step : ℕ) : List ℕ := List.range' start ((stop - start + step - 1) / step) step

/-- `get_color_list`; `rainbow` is the colour map, as hex values. -/
def getColorList (rainbow : ℕ → String) (number limit : ℕ) : List String :=
  ((range 32 256 ((256 - 32) / limit)).map rainbow).take (min number limit)

/-- `get_alternating_color_list`. The list of the colours has eight elements. -/
def getAlternatingColorList (rainbow : ℕ → String) (number limit : ℕ) : List String :=
  let colorList := getColorList rainbow 8 10
  let alternatingColorList :=
    (List.replicate (limit / 2 + 1) [colorList.getD 0 "", colorList.getD 7 ""]).flatten
  alternatingColorList.take (min number limit)

/-! ## The chart -/

/-- `set_limit_for_data_to_chart`. -/
def setLimitForDataToChart [AddMonoid ν] (labelList : List String) (limit : ℕ) (valueList : List ν) :
    List String × List ν :=
  if limit ≠ 0 ∧ limit < labelList.length then
    (labelList.take limit ++ ["rest"], valueList.take limit ++ [(valueList.drop limit).sum])
  else (labelList, valueList)

/-- The fourth column of `zip(*data)`, which there is if every tuple has four components. -/
def linkColumn (data : List (Entry ν π)) : Option (List String) := data.mapM Entry.link

/-- `data_to_chart_with_value_percentage_pairs`. There are no columns if there are no tuples. -/
def dataToChartWithValuePercentagePairs [AddMonoid ν] (rainbow : ℕ → String) (data : List (Entry ν π))
    (limit : ℕ) : Option (Chart ν π) :=
  if data = [] then none
  else
    let limited := setLimitForDataToChart (data.map Entry.label) limit (data.map Entry.value)
    some
      { labels := limited.1
        data := limited.2
        percentage := data.map Entry.percentage
        backgroundColor := getAlternatingColorList rainbow limited.2.length limit
        borderWidth := 0
        links := linkColumn data }

/-! ## What a chart should show -/

/-- The bars: the entries themselves, or some of them and the rest. -/
inductive Bars [AddMonoid ν] [AddMonoid π] (data : List (Entry ν π)) : List (Entry ν π) → Prop
  | all : Bars data data
  | rest (shown : ℕ) (link : Option String) :
      Bars data (data.take shown ++
        [⟨"rest", ((data.drop shown).map Entry.value).sum,
          ((data.drop shown).map Entry.percentage).sum, link⟩])

/-- Every series has one position for each bar, and the values add up to the total. -/
def Aligned [AddMonoid ν] [AddMonoid π] (data : List (Entry ν π)) (chart : Chart ν π) : Prop :=
  ∃ bars, Bars data bars ∧
    chart.labels = bars.map Entry.label ∧
    chart.data = bars.map Entry.value ∧
    chart.percentage = bars.map Entry.percentage ∧
    chart.backgroundColor.length = bars.length ∧
    (∀ links, chart.links = some links → links.map some = bars.map Entry.link) ∧
    chart.data.sum = (data.map Entry.value).sum

/-! ## The lengths of the series -/

/-- There are never more colours than the limit allows. -/
theorem length_getAlternatingColorList (rainbow : ℕ → String) (number : ℕ) :
    (getAlternatingColorList rainbow number limit).length = min number limit := by
  simp only [getAlternatingColorList, List.length_take, List.length_flatten, List.map_replicate,
    List.sum_replicate_nat, List.length_cons, List.length_nil]
  omega

variable {data : List (Entry ν π)}

section

variable [AddMonoid ν] {labels : List String} {values : List ν}

theorem setLimitForDataToChart_of_le (h : labels.length ≤ limit) :
    setLimitForDataToChart labels limit values = (labels, values) :=
  if_neg fun hcut => Nat.not_lt.2 h hcut.2

theorem setLimitForDataToChart_of_lt (hlimit : 1 ≤ limit) (h : limit < labels.length) :
    setLimitForDataToChart labels limit values =
      (labels.take limit ++ ["rest"], values.take limit ++ [(values.drop limit).sum]) :=
  if_pos ⟨Nat.one_le_iff_ne_zero.1 hlimit, h⟩

/-- The rest takes over what is cut off. -/
theorem sum_setLimitForDataToChart :
    (setLimitForDataToChart labels limit values).2.sum = values.sum := by
  unfold setLimitForDataToChart
  split
  next => rw [List.sum_append, List.sum_singleton, List.sum_take_add_sum_drop]
  next => rfl

/-- The values of a chart add up to the total, with and without a rest. -/
theorem sum_data {rainbow : ℕ → String} {chart : Chart ν π}
    (h : dataToChartWithValuePercentagePairs rainbow data limit = some chart) :
    chart.data.sum = (data.map Entry.value).sum := by
  unfold dataToChartWithValuePercentagePairs at h
  split at h
  next => cases h
  next =>
    obtain rfl := Option.some_inj.1 h
    exact sum_setLimitForDataToChart

end

theorem map_some_of_linkColumn {links : List String} (h : linkColumn data = some links) :
    links.map some = data.map Entry.link := by
  induction data generalizing links with
  | nil =>
      obtain rfl : [] = links := Option.some_inj.1 h
      rfl
  | cons entry data ih =>
      rw [linkColumn, List.mapM_cons] at h
      rcases Option.bind_eq_some_iff.1 h with ⟨link, hlink, h⟩
      rcases Option.bind_eq_some_iff.1 h with ⟨rest, hrest, h⟩
      obtain rfl : link :: rest = links := Option.some_inj.1 h
      rw [List.map_cons, List.map_cons, ih hrest, hlink]

/-- The series of a chart fit together if and only if no entry is cut off. -/
theorem data_to_chart_with_value_percentage_pairs_iff [AddMonoid ν] [AddMonoid π]
    (rainbow : ℕ → String) (hdata : data ≠ []) (hlimit : 1 ≤ limit) :
    (∃ chart, dataToChartWithValuePercentagePairs rainbow data limit = some chart ∧ Aligned data chart) ↔
      data.length ≤ limit := by
  constructor
  · rintro ⟨chart, hreturn, bars, -, hlabels, -, -, hcolors, -, -⟩
    obtain rfl := Option.some_inj.1 ((if_neg hdata).symm.trans hreturn)
    by_contra hcut
    -- one more label than colours
    have hlength : limit < (data.map Entry.label).length := by
      rw [List.length_map]
      omega
    have hcount := congrArg List.length hlabels
    simp only [length_getAlternatingColorList, setLimitForDataToChart_of_lt hlimit hlength,
      List.length_append, List.length_take, List.length_map, List.length_singleton] at hcount hcolors
    omega
  · intro hle
    refine ⟨_, if_neg hdata, data, .all, ?_⟩
    have hlength : (data.map Entry.label).length ≤ limit := by rwa [List.length_map]
    rw [setLimitForDataToChart_of_le hlength]
    refine ⟨rfl, rfl, rfl, ?_, fun links => map_some_of_linkColumn, rfl⟩
    rw [length_getAlternatingColorList, List.length_map, Nat.min_eq_left hle]

theorem data_to_chart_with_value_percentage_pairs_sample :
    (∃ chart, dataToChartWithValuePercentagePairs (fun _ => "#4062fa")
        [(⟨"NX", 3, 75, none⟩ : Entry ℕ ℕ), ⟨"PIE", 1, 25, none⟩] 2 = some chart ∧
      Aligned [(⟨"NX", 3, 75, none⟩ : Entry ℕ ℕ), ⟨"PIE", 1, 25, none⟩] chart) ↔
      [(⟨"NX", 3, 75, none⟩ : Entry ℕ ℕ), ⟨"PIE", 1, 25, none⟩].length ≤ 2 :=
  data_to_chart_with_value_percentage_pairs_iff _ (List.cons_ne_nil _ _) (by decide)

/-- Two entries and a limit of one: there are two labels, but only one colour. -/
theorem data_to_chart_with_value_percentage_pairs_cut :
    ¬ ∃ chart, dataToChartWithValuePercentagePairs (fun _ => "#4062fa")
        [(⟨"NX", 3, 75, none⟩ : Entry ℕ ℕ), ⟨"PIE", 1, 25, none⟩] 1 = some chart ∧
      Aligned [(⟨"NX", 3, 75, none⟩ : Entry ℕ ℕ), ⟨"PIE", 1, 25, none⟩] chart := by
  rintro ⟨chart, hreturn, bars, -, hlabels, -, -, hcolors, -⟩
  obtain rfl := Option.some_inj.1 hreturn
  have hcount := congrArg List.length hlabels
  rw [List.length_map, ← hcolors] at hcount
  exact absurd hcount (by decide)

end FactCore.Charts
