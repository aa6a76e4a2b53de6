import Mathlib.Data.List.Dedup

/-! # Joins of relations

A table is the list of its rows. The inner join of two tables pairs every row of
the left one with every row of the right one that matches it; the left outer
join also keeps a row without a match, paired with nothing.
-/

namespace Relation

variable {α β : Type*}

/-- The rows of `r` that match `a`. -/
def matching (on : α → β → Bool) (r : List β) (a : α) : List β := r.filter (on a)

/-- The inner join. -/
def join (on : α → β → Bool) (l : List α) (r : List β) : List (α × β) :=
  l.flatMap fun a => (matching on r a).map fun b => (a, b)

/-- The left outer join. -/
def outerJoin (on : α → β → Bool) (l : List α) (r : List β) : List (α × Option β) :=
  l.flatMap fun a =>
    if matching on r a = [] then [(a, none)] else (matching on r a).map fun b => (a, some b)

variable {on : α → β → Bool} {l : List α} {r : List β} {a : α} {b : β}

theorem mem_matching : b ∈ matching on r a ↔ b ∈ r ∧ on a b = true := by
  simp [matching]

theorem mem_join : (a, b) ∈ join on l r ↔ a ∈ l ∧ b ∈ r ∧ on a b = true := by
  simp only [join, List.mem_flatMap, List.mem_map, mem_matching, Prod.mk.injEq]
  constructor
  · rintro ⟨a', ha', b', hb', rfl, rfl⟩
    exact ⟨ha', hb'⟩
  · rintro ⟨ha, hb⟩
    exact ⟨a, ha, b, hb, rfl, rfl⟩

theorem mem_outerJoin_some : (a, some b) ∈ outerJoin on l r ↔ a ∈ l ∧ b ∈ r ∧ on a b = true := by
  simp only [outerJoin, List.mem_flatMap]
  constructor
  · rintro ⟨a', ha', hmem⟩
    split at hmem
    · simp at hmem
    · rcases List.mem_map.1 hmem with ⟨b', hb', heq⟩
      obtain ⟨rfl, rfl⟩ : a' = a ∧ b' = b := by simpa using heq
      exact ⟨ha', mem_matching.1 hb'⟩
  · rintro ⟨ha, hb⟩
    have hmem : b ∈ matching on r a := mem_matching.2 hb
    refine ⟨a, ha, ?_⟩
    rw [if_neg (List.ne_nil_of_mem hmem)]
    exact List.mem_map.2 ⟨b, hmem, rfl⟩

theorem mem_outerJoin_none :
    (a, (none : Option β)) ∈ outerJoin on l r ↔ a ∈ l ∧ ∀ b ∈ r, on a b = false := by
  have hnil : matching on r a = [] ↔ ∀ b ∈ r, on a b = false := by
    simp [matching, List.filter_eq_nil_iff]
  simp only [outerJoin, List.mem_flatMap]
  constructor
  · rintro ⟨a', ha', hmem⟩
    split at hmem
    · rename_i hmatch
      obtain rfl : a = a' := by simpa using hmem
      exact ⟨ha', hnil.1 hmatch⟩
    · simp at hmem
  · rintro ⟨ha, hno⟩
    refine ⟨a, ha, ?_⟩
    rw [if_pos (hnil.2 hno)]
    exact List.mem_singleton_self _

/-! ## Groups -/

section

variable {γ κ : Type*} [DecidableEq κ] {key : α → κ} {value : α → γ} {rows : List α} {k : κ}

/-- `GROUP BY key` with `array_agg(value)`: a row for each key that occurs, with the
values of all rows that have it. -/
def groupBy (key : α → κ) (value : α → γ) (rows : List α) : List (κ × List γ) :=
  (rows.map key).dedup.map fun k => (k, (rows.filter fun row => key row = k).map value)

theorem mem_groupBy {values : List γ} : (k, values) ∈ groupBy key value rows ↔
    (∃ row ∈ rows, key row = k) ∧ values = (rows.filter fun row => key row = k).map value := by
  rw [groupBy, List.mem_map]
  constructor
  · rintro ⟨k', hk', heq⟩
    obtain ⟨rfl, rfl⟩ := Prod.mk.inj heq
    exact ⟨List.mem_map.1 (List.mem_dedup.1 hk'), rfl⟩
  · rintro ⟨hk, rfl⟩
    exact ⟨k, List.mem_dedup.2 (List.mem_map.2 hk), rfl⟩

/-- There is one group for each key. -/
theorem nodup_groupBy : ((groupBy key value rows).map Prod.fst).Nodup := by
  have hkeys : (groupBy key value rows).map Prod.fst = (rows.map key).dedup := by
    rw [groupBy, List.map_map]
    exact List.map_id _
  rw [hkeys]
  exact List.nodup_dedup _

end

/-! ## The first row of each key -/

section

variable {κ : Type*} {key : α → κ} [DecidableEq κ] {rows : List α} {kept : List α} {a : α} {k : κ}

/-- Keep a row unless its key is taken. -/
def addNew (key : α → κ) (kept : List α) (a : α) : List α :=
  if key a ∈ kept.map key then kept else kept ++ [a]

/-- The rows whose key no row before has. -/
def firstRows (key : α → κ) (rows : List α) : List α := rows.foldl (addNew key) []

theorem find?_foldl_addNew :
    (rows.foldl (addNew key) kept).find? (fun a => key a = k) =
      (kept.find? fun a => key a = k).or (rows.find? fun a => key a = k) := by
  induction rows generalizing kept with
  | nil => simp
  | cons a rows ih =>
      rw [List.foldl_cons, ih]
      unfold addNew
      split
      · rename_i htaken
        obtain ⟨b, hb, hkey⟩ := List.mem_map.1 htaken
        by_cases ha : key a = k
        · -- the key is taken, so the row that has it is found before
          have hsome : (kept.find? fun a => key a = k).isSome = true :=
            List.find?_isSome.2 ⟨b, hb, by simp [hkey, ha]⟩
          obtain ⟨c, hc⟩ := Option.isSome_iff_exists.1 hsome
          rw [hc, Option.some_or, Option.some_or]
        · rw [List.find?_cons_of_neg (by simpa using ha)]
      · rw [List.find?_append, Option.or_assoc]
        by_cases ha : key a = k
        · simp [ha]
        · simp [ha]

theorem find?_firstRows :
    (firstRows key rows).find? (fun a => key a = k) = rows.find? fun a => key a = k := by
  rw [firstRows, find?_foldl_addNew, List.find?_nil, Option.none_or]

theorem nodup_foldl_addNew (h : (kept.map key).Nodup) :
    ((rows.foldl (addNew key) kept).map key).Nodup := by
  induction rows generalizing kept with
  | nil => exact h
  | cons a rows ih =>
      apply ih
      unfold addNew
      split
      · exact h
      · rename_i hnew
        rw [List.map_append, List.map_singleton]
        exact List.nodup_append'.2 ⟨h, List.nodup_singleton _, by simpa using hnew⟩

theorem nodup_firstRows : ((firstRows key rows).map key).Nodup := nodup_foldl_addNew List.nodup_nil

theorem mem_firstRows : a ∈ firstRows key rows ↔ rows.find? (fun b => key b = key a) = some a := by
  rw [← find?_firstRows]
  constructor
  · intro ha
    have hsome : ((firstRows key rows).find? fun b => key b = key a).isSome = true :=
      List.find?_isSome.2 ⟨a, ha, by simp⟩
    obtain ⟨b, hb⟩ := Option.isSome_iff_exists.1 hsome
    have hkey : key b = key a := by simpa using List.find?_some hb
    rw [hb, List.inj_on_of_nodup_map nodup_firstRows (List.mem_of_find?_eq_some hb) ha hkey]
  · intro h
    exact List.mem_of_find?_eq_some h

end

end Relation
