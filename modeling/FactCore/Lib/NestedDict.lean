import Mathlib.Data.List.Sort
import Mathlib.Data.Prod.Lex
import FactCore.Lib.Dict

/-! # Dictionaries in sorted order, and dictionaries of dictionaries

The entries of a dictionary whose values are dictionaries have an outer and an
inner key. Read in sorted order on both levels, they come in the lexicographic
order of the two keys, each of them once.
-/

universe u v w

namespace Dict

section

variable {κ : Type u} {ν : Type v} [DecidableEq κ]

/-- `d.setdefault(k, x)`, as a statement. -/
def setDefault (d : Dict κ ν) (k : κ) (x : ν) : Dict κ ν := if k ∈ d then d else d.set k x

@[simp]
theorem get?_setDefault (d : Dict κ ν) (k k' : κ) (x : ν) :
    (d.setDefault k x).get? k' = if k' = k then some ((d.get? k).getD x) else d.get? k' := by
  unfold setDefault
  split
  next hmem =>
    rcases mem_iff.1 hmem with ⟨y, hy⟩
    split
    next heq => simp [heq, hy]
    next => rfl
  next hmem =>
    rw [get?_set, notMem_iff.1 hmem]
    rfl

end

section Sorted

variable {κ : Type u} {ν : Type v} [LinearOrder κ] [LinearOrder ν] {d : Dict κ ν}

/-- `sorted(d)`. -/
def sortedKeys (d : Dict κ ν) : List κ := d.keys.insertionSort (· ≤ ·)

/-- `sorted(d.items())`; the items are compared as tuples. -/
def sortedItems (d : Dict κ ν) : List (κ × ν) :=
  ((d.items.map toLex).insertionSort (· ≤ ·)).map ofLex

omit [LinearOrder ν] in
@[simp]
theorem mem_sortedKeys {k : κ} : k ∈ d.sortedKeys ↔ k ∈ d := by
  rw [sortedKeys, List.mem_insertionSort, mem_keys]

omit [LinearOrder ν] in
theorem pairwise_sortedKeys (d : Dict κ ν) : d.sortedKeys.Pairwise (· < ·) := by
  have hnodup : d.sortedKeys.Nodup := (List.perm_insertionSort _ _).nodup_iff.2 d.nodup
  have hle : d.sortedKeys.Pairwise (· ≤ ·) := List.pairwise_insertionSort _ _
  exact hle.imp₂ (fun _ _ => lt_of_le_of_ne) hnodup

@[simp]
theorem mem_sortedItems {p : κ × ν} : p ∈ d.sortedItems ↔ d.get? p.1 = some p.2 := by
  rw [get?_eq_some_iff, sortedItems, List.mem_map]
  constructor
  · rintro ⟨q, hq, rfl⟩
    rw [List.mem_insertionSort, List.mem_map] at hq
    rcases hq with ⟨q', hq', rfl⟩
    exact hq'
  · intro hp
    exact ⟨toLex p, (List.mem_insertionSort _).2 (List.mem_map_of_mem hp), rfl⟩

/-- No two items have the same key, so the order of the values does not count. -/
theorem pairwise_sortedItems (d : Dict κ ν) : d.sortedItems.Pairwise fun p q => p.1 < q.1 := by
  have hle : d.sortedItems.Pairwise fun p q => toLex p ≤ toLex q := by
    rw [sortedItems, List.pairwise_map]
    exact List.pairwise_insertionSort _ _
  have hperm : d.sortedItems.Perm d.items := by
    have hsort := (List.perm_insertionSort (· ≤ ·) (d.items.map toLex)).map ofLex
    rwa [List.map_map, show ofLex ∘ toLex = (id : κ × ν → κ × ν) from rfl, List.map_id] at hsort
  -- the keys of the sorted items are those of the dictionary, once each
  have hne : d.sortedItems.Pairwise fun p q => p.1 ≠ q.1 :=
    List.pairwise_map.1 ((hperm.map Prod.fst).nodup_iff.2 d.nodup)
  refine hle.imp₂ (fun p q hpq hkeys => ?_) hne
  rcases Prod.Lex.toLex_le_toLex.1 hpq with hlt | ⟨heq, -⟩
  · exact hlt
  · exact absurd heq hkeys

end Sorted

/-! ## Two levels -/

section Nested

variable {α : Type u} {β : Type v} {γ : Type w}

section

variable [DecidableEq α] [DecidableEq β] {d : Dict α (Dict β γ)} {a a' : α} {b b' : β} {c : γ}

/-- `d[a][b]`, if there is such an entry. -/
def at? (d : Dict α (Dict β γ)) (a : α) (b : β) : Option γ := (d.get? a).bind (·.get? b)

/-- `d[a][b] = c` below a key that exists or is made. -/
def setAt (d : Dict α (Dict β γ)) (a : α) (b : β) (c : γ) : Dict α (Dict β γ) :=
  d.set a (((d.get? a).getD ∅).set b c)

/-- `d[a].setdefault(b, c)` below a key that exists or is made. -/
def setDefaultAt (d : Dict α (Dict β γ)) (a : α) (b : β) (c : γ) : Dict α (Dict β γ) :=
  d.set a (((d.get? a).getD ∅).setDefault b c)

@[simp]
theorem at?_empty : (∅ : Dict α (Dict β γ)).at? a b = none := rfl

/-- A missing dictionary and an empty one have the same entries. -/
theorem at?_eq : d.at? a b = ((d.get? a).getD ∅).get? b := by
  rw [at?]
  cases d.get? a with
  | none => rfl
  | some inner => rfl

@[simp]
theorem at?_setDefault_empty : (d.setDefault a ∅).at? a' b = d.at? a' b := by
  rw [at?_eq, at?_eq, get?_setDefault]
  split
  next heq => rw [heq]; rfl
  next => rfl

@[simp]
theorem at?_setAt : (d.setAt a b c).at? a' b' = if a' = a ∧ b' = b then some c else d.at? a' b' := by
  rw [setAt, at?_eq, get?_set]
  by_cases ha : a' = a
  · subst ha
    simp [at?_eq, get?_set]
  · simp [ha, at?_eq]

@[simp]
theorem at?_setDefaultAt : (d.setDefaultAt a b c).at? a' b' =
    if a' = a ∧ b' = b then some ((d.at? a b).getD c) else d.at? a' b' := by
  rw [setDefaultAt, at?_eq, get?_set]
  by_cases ha : a' = a
  · subst ha
    simp [at?_eq]
  · simp [ha, at?_eq]

/-- The inner keys of a list get a default one after the other. -/
theorem at?_foldl_setDefaultAt (l : List β) (d : Dict α (Dict β γ)) :
    (l.foldl (fun d b => d.setDefaultAt a b c) d).at? a' b' =
      if a' = a ∧ b' ∈ l then some ((d.at? a b').getD c) else d.at? a' b' := by
  induction l generalizing d with
  | nil => simp
  | cons b l ih =>
      rw [List.foldl_cons, ih]
      by_cases ha : a' = a
      · subst ha
        by_cases hb : b' = b
        · subst hb
          by_cases hmem : b' ∈ l <;> simp [hmem]
        · simp [hb]
      · simp [ha]

/-- Every outer key has an entry. -/
def Filled (d : Dict α (Dict β γ)) : Prop := ∀ a inner, d.get? a = some inner → ∃ b, b ∈ inner

theorem filled_empty : Filled (∅ : Dict α (Dict β γ)) := by
  intro a inner h
  exact absurd (mem_of_get? h) (notMem_empty a)

theorem Filled.setAt (h : Filled d) : Filled (d.setAt a b c) := by
  intro a' inner hinner
  rw [Dict.setAt, get?_set] at hinner
  split at hinner
  next =>
    cases hinner
    exact ⟨b, mem_iff.2 ⟨c, by rw [get?_set, if_pos rfl]⟩⟩
  next => exact h a' inner hinner

theorem mem_of_at? (h : d.at? a b = some c) : a ∈ d := by
  rw [at?] at h
  rcases Option.bind_eq_some_iff.1 h with ⟨inner, hinner, -⟩
  exact mem_of_get? hinner

end

section

variable [LinearOrder α] [LinearOrder β] [LinearOrder γ] {d : Dict α (Dict β γ)}

/-- The entries, the outer keys in sorted order and below each its sorted items. -/
def sortedEntries (d : Dict α (Dict β γ)) : List ((α × β) × γ) :=
  d.sortedKeys.flatMap fun a => ((d.get? a).getD ∅).sortedItems.map fun p => ((a, p.1), p.2)

theorem mem_sortedEntries {e : (α × β) × γ} : e ∈ d.sortedEntries ↔ d.at? e.1.1 e.1.2 = some e.2 := by
  rcases e with ⟨⟨a, b⟩, c⟩
  simp only [sortedEntries, List.mem_flatMap, List.mem_map, mem_sortedKeys, mem_sortedItems]
  constructor
  · rintro ⟨a', -, p, hp, heq⟩
    cases heq
    rw [at?_eq, hp]
  · intro h
    exact ⟨a, mem_of_at? h, (b, c), by rw [← at?_eq, h], rfl⟩

theorem pairwise_sortedEntries (d : Dict α (Dict β γ)) :
    d.sortedEntries.Pairwise fun e e' => toLex e.1 < toLex e'.1 := by
  rw [sortedEntries, List.pairwise_flatMap]
  -- within one outer key the inner ones are sorted, and between them the outer ones
  constructor
  · intro a _
    rw [List.pairwise_map]
    refine (pairwise_sortedItems ((d.get? a).getD ∅)).imp fun {p q} hlt => ?_
    exact Prod.Lex.toLex_lt_toLex.2 (.inr ⟨rfl, hlt⟩)
  · refine (pairwise_sortedKeys d).imp fun hlt e he e' he' => ?_
    rcases List.mem_map.1 he with ⟨p, -, rfl⟩
    rcases List.mem_map.1 he' with ⟨q, -, rfl⟩
    exact Prod.Lex.toLex_lt_toLex.2 (.inl hlt)

omit [LinearOrder γ] in
/-- The least inner key below the least outer key belongs to the first entry. -/
theorem first_entry {a : α} {b : β} {inner : Dict β γ} (ha : d.keys.min? = some a)
    (hinner : d.get? a = some inner) (hb : inner.keys.min? = some b) :
    (∃ c, d.at? a b = some c) ∧
      ∀ a' b' c, d.at? a' b' = some c → toLex (a, b) ≤ toLex (a', b') := by
  rw [List.min?_eq_some_iff] at ha hb
  constructor
  · rcases mem_iff.1 (mem_keys.1 hb.1) with ⟨c, hc⟩
    exact ⟨c, by rw [at?, hinner, Option.bind_some, hc]⟩
  · intro a' b' c h
    rcases lt_or_eq_of_le (ha.2 a' (mem_keys.2 (mem_of_at? h))) with hlt | heq
    · exact Prod.Lex.toLex_le_toLex.2 (.inl hlt)
    · subst heq
      rw [at?, hinner, Option.bind_some] at h
      exact Prod.Lex.toLex_le_toLex.2 (.inr ⟨rfl, hb.2 b' (mem_keys.2 (mem_of_get? h))⟩)

omit [LinearOrder γ] in
/-- The greatest inner key below the greatest outer key belongs to the last entry. -/
theorem last_entry {a : α} {b : β} {inner : Dict β γ} (ha : d.keys.max? = some a)
    (hinner : d.get? a = some inner) (hb : inner.keys.max? = some b) :
    (∃ c, d.at? a b = some c) ∧
      ∀ a' b' c, d.at? a' b' = some c → toLex (a', b') ≤ toLex (a, b) := by
  rw [List.max?_eq_some_iff] at ha hb
  constructor
  · rcases mem_iff.1 (mem_keys.1 hb.1) with ⟨c, hc⟩
    exact ⟨c, by rw [at?, hinner, Option.bind_some, hc]⟩
  · intro a' b' c h
    rcases lt_or_eq_of_le (ha.2 a' (mem_keys.2 (mem_of_at? h))) with hlt | heq
    · exact Prod.Lex.toLex_le_toLex.2 (.inl hlt)
    · subst heq
      rw [at?, hinner, Option.bind_some] at h
      exact Prod.Lex.toLex_le_toLex.2 (.inr ⟨rfl, hb.2 b' (mem_keys.2 (mem_of_get? h))⟩)

end

end Nested

end Dict
