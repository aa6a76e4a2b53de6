import Mathlib.Data.List.Lex
import Mathlib.Data.Prod.Lex
import Mathlib.Data.String.Basic
import FactCore.Lib.ComparisonSort

/-! # Sorting the statistics

`_sort_tuples` of `storage/db_interface_stats.py`: rows with a value and its count are
sorted by count. Rows with the same count are compared by their values, unless the
value is a dict. The values of the IP statistics may be texts, lists (with the location,
from an old version of the plugin) or dicts, and a text cannot be compared with a list.

The sort is any comparison sort, so that it does not count which pairs it compares.
-/

namespace FactCore.StatsSort

/-- A value of the statistics. -/
inductive Value where
  | text (s : String)
  | list (items : List String)
  | dict (items : List (String × String))
deriving DecidableEq

/-- A row with a value and its count. -/
abbrev Row := Value × ℤ

/-- The comparison of two values fails. -/
inductive Exc where
  | typeError (message : String)
deriving DecidableEq

/-- The name of the type in error messages. -/
def Value.typeName : Value → String
  | text _ => "str"
  | list _ => "list"
  | dict _ => "dict"

/-- `v < v'`. -/
def lessValue : Value → Value → Except Exc Bool
  | .text s, .text s' => .ok (decide (s < s'))
  | .list items, .list items' => .ok (decide (items < items'))
  | v, v' => .error (.typeError ("'<' not supported between instances of '" ++ v.typeName ++
      "' and '" ++ v'.typeName ++ "'"))

/-- The sort key: `(count, value)`, or `(count,)` if the value is a dict. -/
def sortKey (e : Row) : ℤ × Option Value :=
  match e.1 with
  | .dict _ => (e.2, none)
  | v => (e.2, some v)

/-- `key < key'`: tuples are compared at the first position where they differ, and a
tuple that ends there is the less one. -/
def lessKey (key key' : ℤ × Option Value) : Except Exc Bool :=
  if key.1 = key'.1 then
    match key.2, key'.2 with
    | none, none => .ok false
    | none, some _ => .ok true
    | some _, none => .ok false
    | some v, some v' => if v = v' then .ok false else lessValue v v'
  else .ok (decide (key.1 < key'.1))

/-- The comparison of two rows by their keys. -/
def lessRow (e e' : Row) : Except Exc Bool := lessKey (sortKey e) (sortKey e')

/-- `_sort_tuples`. The rows of the database have been converted to tuples. -/
def sortTuples (s : ComparisonSort) (queryResult : List Row) : Except Exc (List Row) :=
  s.sorted lessRow queryResult

/-- The items of `Counter(result_list)`, in the order of the first occurrences. -/
def counterItems (resultList : List String) : List (String × ℤ) :=
  (resultList.reverse.dedup.reverse).map fun result => (result, (resultList.count result : ℤ))

/-- `count_occurrences`. -/
def countOccurrences (s : ComparisonSort) (resultList : List String) : Except Exc (List Row) :=
  sortTuples s ((counterItems resultList).map fun item => (.text item.1, item.2))

/-! ## Two orders of the rows -/

def Value.isText : Value → Bool
  | text _ => true
  | _ => false

def Value.isList : Value → Bool
  | list _ => true
  | _ => false

/-- A place for each kind of values, and the value itself. -/
def valueRank (textPlace listPlace : ℕ) : Value → ℕ × List String
  | .dict _ => (0, [])
  | .text s => (textPlace, [s])
  | .list items => (listPlace, items)

/-- The order of the rows in which, for each count, the texts and the lists have their
places. -/
def rank (textPlace listPlace : ℕ) (e : Row) : Lex (ℤ × Lex (ℕ × List String)) :=
  toLex (e.2, toLex (valueRank textPlace listPlace e.1))

variable {textPlace listPlace : ℕ} {e e' : Row} {rows : List Row} {s : ComparisonSort}

theorem rank_lt_of_count (h : e.2 < e'.2) : rank textPlace listPlace e < rank textPlace listPlace e' :=
  Prod.Lex.toLex_lt_toLex.2 (.inl h)

theorem rank_lt_iff (h : e.2 = e'.2) : rank textPlace listPlace e < rank textPlace listPlace e' ↔
    (valueRank textPlace listPlace e.1).1 < (valueRank textPlace listPlace e'.1).1 ∨
      (valueRank textPlace listPlace e.1).1 = (valueRank textPlace listPlace e'.1).1 ∧
        (valueRank textPlace listPlace e.1).2 < (valueRank textPlace listPlace e'.1).2 := by
  rw [rank, rank, Prod.Lex.toLex_lt_toLex]
  simp [h, Prod.Lex.toLex_lt_toLex]

theorem rank_lt_of_place (h : e.2 = e'.2)
    (hplace : (valueRank textPlace listPlace e.1).1 < (valueRank textPlace listPlace e'.1).1) :
    rank textPlace listPlace e < rank textPlace listPlace e' :=
  (rank_lt_iff h).2 (.inl hplace)

/-- Equal values are not compared; the answer is the same. -/
theorem lessRow_text (t t' : String) (c : ℤ) :
    lessRow (.text t, c) (.text t', c) = .ok (decide (t < t')) := by
  by_cases heq : t = t' <;> simp [lessRow, sortKey, lessKey, lessValue, heq]

theorem lessRow_list (items items' : List String) (c : ℤ) :
    lessRow (.list items, c) (.list items', c) = .ok (decide (items < items')) := by
  by_cases heq : items = items' <;> simp [lessRow, sortKey, lessKey, lessValue, heq]

theorem sortKey_fst (e : Row) : (sortKey e).1 = e.2 := by
  rcases e with ⟨v, c⟩
  cases v <;> rfl

theorem lessRow_of_count_ne (h : e.2 ≠ e'.2) : lessRow e e' = .ok (decide (e.2 < e'.2)) := by
  have hkeys : (sortKey e).1 ≠ (sortKey e').1 := by rwa [sortKey_fst, sortKey_fst]
  rw [lessRow, lessKey, if_neg hkeys, sortKey_fst, sortKey_fst]

/-- A dict comes before the other values of its count. -/
theorem lessRow_dict (items : List (String × String)) (v : Value) (c : ℤ) :
    lessRow (.dict items, c) (v, c) = .ok (v.isText || v.isList) := by
  cases v <;> simp [lessRow, sortKey, lessKey, Value.isText, Value.isList]

theorem lessRow_not_dict (items : List (String × String)) (v : Value) (c : ℤ) :
    lessRow (v, c) (.dict items, c) = .ok false := by
  cases v <;> simp [lessRow, sortKey, lessKey]

theorem singleton_lt_singleton {a b : String} : [a] < [b] ↔ a < b := by
  simp [List.cons_lt_cons_iff]

/-- The comparison agrees with the order wherever it is defined. -/
theorem agrees_rank (htext : 0 < textPlace) (hlist : 0 < listPlace) :
    ComparisonSort.Agrees lessRow rows (rank textPlace listPlace) := by
  rintro ⟨v, c⟩ - ⟨v', c'⟩ - x hx
  rw [Bool.eq_iff_iff, decide_eq_true_iff]
  -- the counts come first, and the kinds of the values decide among equal counts
  by_cases hcount : c = c'
  · subst hcount
    rw [rank_lt_iff (show ((v, c) : Row).2 = ((v', c) : Row).2 from rfl)]
    cases v with
    | text t =>
        cases v' with
        | text t' =>
            rw [lessRow_text] at hx
            obtain rfl := Except.ok.inj hx
            simp [valueRank, singleton_lt_singleton]
        -- a text and a list are not compared
        | list items' => simp [lessRow, sortKey, lessKey, lessValue] at hx
        | dict items' =>
            rw [lessRow_not_dict] at hx
            obtain rfl := Except.ok.inj hx
            simp [valueRank, htext.ne']
    | list items =>
        cases v' with
        | text t' => simp [lessRow, sortKey, lessKey, lessValue] at hx
        | list items' =>
            rw [lessRow_list] at hx
            obtain rfl := Except.ok.inj hx
            simp [valueRank]
        | dict items' =>
            rw [lessRow_not_dict] at hx
            obtain rfl := Except.ok.inj hx
            simp [valueRank, hlist.ne']
    | dict items =>
        rw [lessRow_dict] at hx
        obtain rfl := Except.ok.inj hx
        cases v' <;> simp [valueRank, Value.isText, Value.isList, htext, hlist]
  · rw [lessRow_of_count_ne hcount] at hx
    obtain rfl := Except.ok.inj hx
    rw [decide_eq_true_iff]
    constructor
    · exact fun hlt => rank_lt_of_count hlt
    · intro hlt
      rcases Prod.Lex.toLex_lt_toLex.1 hlt with hc | ⟨hc, -⟩
      · exact hc
      · exact absurd hc hcount

/-! ## When the sort returns -/

/-- No text has the same count as a list. -/
def Comparable (rows : List Row) : Prop :=
  ∀ e ∈ rows, ∀ e' ∈ rows, e.2 = e'.2 → e.1.isText = true → e'.1.isList = false

instance instDecidableComparable (rows : List Row) : Decidable (Comparable rows) :=
  inferInstanceAs (Decidable (∀ _ ∈ _, ∀ _ ∈ _, _))

theorem exists_lessRow (h : Comparable rows) : ∀ e ∈ rows, ∀ e' ∈ rows, ∃ x, lessRow e e' = .ok x := by
  rintro ⟨v, c⟩ he ⟨v', c'⟩ he'
  by_cases hcount : c = c'
  · subst hcount
    cases v with
    | text t =>
        cases v' with
        | text t' => exact ⟨_, lessRow_text t t' c⟩
        | list items' => cases h _ he _ he' rfl rfl
        | dict items' => exact ⟨_, lessRow_not_dict items' _ c⟩
    | list items =>
        cases v' with
        | text t' => cases h _ he' _ he rfl rfl
        | list items' => exact ⟨_, lessRow_list items items' c⟩
        | dict items' => exact ⟨_, lessRow_not_dict items' _ c⟩
    | dict items => exact ⟨_, lessRow_dict items v' c⟩
  · exact ⟨_, lessRow_of_count_ne hcount⟩

/-- A list that is sorted by an order of the rows is sorted by count. -/
theorem count_le_of_rank_le (h : rank textPlace listPlace e ≤ rank textPlace listPlace e') : e.2 ≤ e'.2 := by
  rcases Prod.Lex.toLex_le_toLex.1 h with hlt | ⟨heq, -⟩
  · exact hlt.le
  · exact heq.le

theorem comparable_of_sortTuples {r : List Row} (h : sortTuples s rows = .ok r) : Comparable rows := by
  rintro ⟨v, c⟩ he ⟨v', c'⟩ he' hcount htext
  obtain rfl : c = c' := hcount
  cases v with
  | list items => cases htext
  | dict items => cases htext
  | text t =>
      cases v' with
      | text t' => rfl
      | dict items' => rfl
      | list items' =>
          -- both orders agree with the comparison, but not on this text and this list
          exfalso
          have hagree : ComparisonSort.Agrees lessRow rows (rank 1 2) := agrees_rank Nat.one_pos Nat.two_pos
          have hagree' : ComparisonSort.Agrees lessRow rows (rank 2 1) := agrees_rank Nat.two_pos Nat.one_pos
          refine ComparisonSort.not_reversed_of_sorted h hagree hagree' he he' ?_ ?_
          · exact rank_lt_of_place rfl Nat.one_lt_two
          · exact rank_lt_of_place rfl Nat.one_lt_two

theorem sortTuples_ok (s : ComparisonSort) (h : Comparable rows) :
    ∃ r, sortTuples s rows = .ok r ∧ r.Perm rows ∧ r.Pairwise fun e e' => e.2 ≤ e'.2 := by
  rcases ComparisonSort.exists_sorted (s := s) (exists_lessRow h) with ⟨r, hr⟩
  have hagree : ComparisonSort.Agrees lessRow rows (rank 1 2) := agrees_rank Nat.one_pos Nat.two_pos
  rcases ComparisonSort.perm_and_pairwise_of_sorted hr hagree with ⟨hperm, hsorted⟩
  exact ⟨r, hr, hperm, hsorted.imp count_le_of_rank_le⟩

/-- The sort returns the rows in the order of their counts if and only if no text has the
same count as a list. -/
theorem sort_tuples_iff (s : ComparisonSort) (rows : List Row) :
    (∃ r, sortTuples s rows = .ok r ∧ r.Perm rows ∧ r.Pairwise fun e e' => e.2 ≤ e'.2) ↔
      Comparable rows := by
  constructor
  · rintro ⟨r, hr, -⟩
    exact comparable_of_sortTuples hr
  · exact sortTuples_ok s

/-- A text and a list that occur once each. -/
theorem sort_tuples_mixed :
    ¬ ∃ r, sortTuples ComparisonSort.insertionSort
        [(.text "8.8.8.8", 1), (.list ["1.1.1.1", "-33.49, 143.21"], 1)] = .ok r ∧
      r.Perm [(.text "8.8.8.8", 1), (.list ["1.1.1.1", "-33.49, 143.21"], 1)] ∧
      r.Pairwise fun e e' => e.2 ≤ e'.2 := by
  rintro ⟨r, hr, -⟩
  exact absurd (comparable_of_sortTuples hr) (by decide)

/-- Counting texts never fails. -/
theorem countOccurrences_ok (s : ComparisonSort) (resultList : List String) :
    ∃ r, countOccurrences s resultList = .ok r ∧ r.Pairwise fun e e' => e.2 ≤ e'.2 := by
  have hcomparable : Comparable ((counterItems resultList).map fun item => (.text item.1, item.2)) := by
    rintro e - e' he' - -
    rcases List.mem_map.1 he' with ⟨item, -, rfl⟩
    rfl
  rcases sortTuples_ok s hcomparable with ⟨r, hr, -, hsorted⟩
  exact ⟨r, hr, hsorted⟩

end FactCore.StatsSort
