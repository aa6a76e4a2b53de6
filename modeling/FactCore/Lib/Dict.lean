import Mathlib.Algebra.BigOperators.Group.List.Basic
import Mathlib.Data.Finset.Card
import Mathlib.Data.Finset.Sort
import Mathlib.Data.List.Nodup

/-! # Insertion-ordered dictionaries and sets

The dictionaries of a scripting language: a list of key-value pairs in
insertion order in which no key occurs twice. Assigning to a key that is
present keeps its position, a new key goes to the end, and removing a key
keeps the order of the others.

The uniqueness of the keys is a field of the structure, so no operation can
build a dictionary that violates it and no later proof has to re-prove it.
-/

universe u v w

/-- A dictionary: its items in insertion order, with pairwise distinct keys. -/
structure Dict (κ : Type u) (ν : Type v) where
  items : List (κ × ν)
  nodup : (items.map Prod.fst).Nodup

namespace Dict

variable {κ : Type u} {ν : Type v} [DecidableEq κ]

/-! ## Assignment and removal on the list of items -/

/-- Assign to a key: in place if it is present, at the end otherwise. -/
def setItem (k : κ) (x : ν) : List (κ × ν) → List (κ × ν)
  | [] => [(k, x)]
  | (k', x') :: rest => if k' = k then (k, x) :: rest else (k', x') :: setItem k x rest

/-- Remove the item of a key. -/
def eraseItem (k : κ) (items : List (κ × ν)) : List (κ × ν) :=
  items.filter fun p => p.1 ≠ k

@[simp] theorem eraseItem_nil (k : κ) : eraseItem k ([] : List (κ × ν)) = [] := rfl

theorem eraseItem_cons (k : κ) (p : κ × ν) (rest : List (κ × ν)) :
    eraseItem k (p :: rest) = if p.1 = k then eraseItem k rest else p :: eraseItem k rest := by
  by_cases h : p.1 = k <;> simp [eraseItem, h]

omit [DecidableEq κ] in
theorem fst_mem_keys {items : List (κ × ν)} {k : κ} {x : ν} (h : (k, x) ∈ items) :
    k ∈ items.map Prod.fst :=
  List.mem_map.2 ⟨(k, x), h, rfl⟩

theorem mem_keys_setItem {k : κ} {x : ν} {items : List (κ × ν)} {k' : κ} :
    k' ∈ (setItem k x items).map Prod.fst ↔ k' = k ∨ k' ∈ items.map Prod.fst := by
  induction items with
  | nil => simp [setItem]
  | cons p rest ih =>
      obtain ⟨k₀, x₀⟩ := p
      by_cases h : k₀ = k
      · simp [setItem, h]
      · simp only [setItem, if_neg h, List.map_cons, List.mem_cons, ih]
        tauto

theorem nodup_setItem {k : κ} {x : ν} {items : List (κ × ν)}
    (h : (items.map Prod.fst).Nodup) : ((setItem k x items).map Prod.fst).Nodup := by
  induction items with
  | nil => simp [setItem]
  | cons p rest ih =>
      obtain ⟨k₀, x₀⟩ := p
      rw [List.map_cons, List.nodup_cons] at h
      by_cases hk : k₀ = k
      · simpa [setItem, hk] using ⟨by simpa [hk] using h.1, h.2⟩
      · rw [setItem, if_neg hk, List.map_cons, List.nodup_cons, mem_keys_setItem]
        exact ⟨fun hmem => hmem.elim hk h.1, ih h.2⟩

theorem nodup_eraseItem {k : κ} {items : List (κ × ν)}
    (h : (items.map Prod.fst).Nodup) : ((eraseItem k items).map Prod.fst).Nodup :=
  h.sublist (List.filter_sublist.map Prod.fst)

/-! ## The operations -/

/-- The empty dictionary. -/
def empty : Dict κ ν := ⟨[], List.nodup_nil⟩

instance : EmptyCollection (Dict κ ν) := ⟨empty⟩

/-- `d.get(k)`: the value of a key, if it is present. -/
def get? (d : Dict κ ν) (k : κ) : Option ν := d.items.lookup k

/-- `d[k] = x`. -/
def set (d : Dict κ ν) (k : κ) (x : ν) : Dict κ ν := ⟨setItem k x d.items, nodup_setItem d.nodup⟩

/-- `d.pop(k, None)`: the dictionary without the key. -/
def erase (d : Dict κ ν) (k : κ) : Dict κ ν := ⟨eraseItem k d.items, nodup_eraseItem d.nodup⟩

/-- The keys in insertion order. -/
def keys (d : Dict κ ν) : List κ := d.items.map Prod.fst

/-- The values in insertion order. -/
def values (d : Dict κ ν) : List ν := d.items.map Prod.snd

instance : Membership κ (Dict κ ν) := ⟨fun d k => (d.get? k).isSome⟩

instance (d : Dict κ ν) (k : κ) : Decidable (k ∈ d) :=
  inferInstanceAs (Decidable ((d.get? k).isSome = true))

theorem mem_iff_isSome {d : Dict κ ν} {k : κ} : k ∈ d ↔ (d.get? k).isSome = true := Iff.rfl

theorem mem_iff {d : Dict κ ν} {k : κ} : k ∈ d ↔ ∃ x, d.get? k = some x := by
  rw [mem_iff_isSome, Option.isSome_iff_exists]

theorem notMem_iff {d : Dict κ ν} {k : κ} : k ∉ d ↔ d.get? k = none := by
  rw [mem_iff_isSome, Bool.not_eq_true, Option.isSome_eq_false_iff, Option.isNone_iff_eq_none]

theorem mem_of_get? {d : Dict κ ν} {k : κ} {x : ν} (h : d.get? k = some x) : k ∈ d :=
  mem_iff.2 ⟨x, h⟩

/-! ## Lookup after assignment and removal -/

@[simp] theorem get?_empty (k : κ) : (∅ : Dict κ ν).get? k = none := rfl

theorem lookup_setItem (k k' : κ) (x : ν) (items : List (κ × ν)) :
    (setItem k x items).lookup k' = if k' = k then some x else items.lookup k' := by
  induction items with
  | nil =>
      by_cases h : k' = k
      · simp [setItem, h]
      · simp [setItem, h, List.lookup_cons, beq_eq_false_iff_ne.2 h]
  | cons p rest ih =>
      obtain ⟨k₀, x₀⟩ := p
      by_cases h₀ : k₀ = k
      · subst h₀
        by_cases h : k' = k₀
        · simp [setItem, h]
        · simp [setItem, h, List.lookup_cons, beq_eq_false_iff_ne.2 h]
      · simp only [setItem, if_neg h₀, List.lookup_cons, ih]
        by_cases h : k' = k₀
        · subst h
          simp [h₀]
        · simp [beq_eq_false_iff_ne.2 h]

theorem lookup_eraseItem (k k' : κ) (items : List (κ × ν)) :
    (eraseItem k items).lookup k' = if k' = k then none else items.lookup k' := by
  induction items with
  | nil => simp
  | cons p rest ih =>
      obtain ⟨k₀, x₀⟩ := p
      rw [eraseItem_cons, List.lookup_cons]
      by_cases h₀ : k₀ = k
      · subst h₀
        rw [if_pos rfl, ih]
        by_cases h : k' = k₀
        · simp [h]
        · simp [h, beq_eq_false_iff_ne.2 h]
      · rw [if_neg h₀, List.lookup_cons, ih]
        by_cases h : k' = k₀
        · subst h
          simp [h₀]
        · simp [beq_eq_false_iff_ne.2 h]

theorem get?_set (d : Dict κ ν) (k k' : κ) (x : ν) :
    (d.set k x).get? k' = if k' = k then some x else d.get? k' :=
  lookup_setItem k k' x d.items

theorem get?_erase (d : Dict κ ν) (k k' : κ) :
    (d.erase k).get? k' = if k' = k then none else d.get? k' :=
  lookup_eraseItem k k' d.items

@[simp] theorem get?_set_self (d : Dict κ ν) (k : κ) (x : ν) : (d.set k x).get? k = some x := by
  simp [get?_set]

@[simp] theorem get?_erase_self (d : Dict κ ν) (k : κ) : (d.erase k).get? k = none := by
  simp [get?_erase]

theorem notMem_empty (k : κ) : k ∉ (∅ : Dict κ ν) := by
  simp [mem_iff_isSome]

theorem get?_set_ne (d : Dict κ ν) {k k' : κ} (x : ν) (h : k' ≠ k) :
    (d.set k x).get? k' = d.get? k' := by
  simp [get?_set, h]

theorem get?_erase_ne (d : Dict κ ν) {k k' : κ} (h : k' ≠ k) :
    (d.erase k).get? k' = d.get? k' := by
  simp [get?_erase, h]

@[simp] theorem mem_set {d : Dict κ ν} {k k' : κ} {x : ν} :
    k' ∈ d.set k x ↔ k' = k ∨ k' ∈ d := by
  by_cases h : k' = k <;> simp [mem_iff_isSome, get?_set, h]

@[simp] theorem mem_erase {d : Dict κ ν} {k k' : κ} : k' ∈ d.erase k ↔ k' ≠ k ∧ k' ∈ d := by
  by_cases h : k' = k <;> simp [mem_iff_isSome, get?_erase, h]

/-! ## Items, keys and values -/

theorem lookup_eq_some_iff {items : List (κ × ν)} (h : (items.map Prod.fst).Nodup) {k : κ} {x : ν} :
    items.lookup k = some x ↔ (k, x) ∈ items := by
  induction items with
  | nil => simp
  | cons p rest ih =>
      obtain ⟨k₀, x₀⟩ := p
      rw [List.map_cons, List.nodup_cons] at h
      by_cases hk : k = k₀
      · subst hk
        have hnot : (k, x) ∉ rest := fun hmem => h.1 (fst_mem_keys hmem)
        simp [hnot, eq_comm]
      · simp [List.lookup_cons, beq_eq_false_iff_ne.2 hk, ih h.2, hk]

theorem get?_eq_some_iff {d : Dict κ ν} {k : κ} {x : ν} : d.get? k = some x ↔ (k, x) ∈ d.items :=
  lookup_eq_some_iff d.nodup

/-- Looking up a key in a list of items that is not packed as a dictionary. -/
def getItem (k : κ) (items : List (κ × ν)) : Option ν := items.lookup k

theorem getItem_setItem (k k' : κ) (x : ν) (items : List (κ × ν)) :
    getItem k' (setItem k x items) = if k' = k then some x else getItem k' items :=
  lookup_setItem k k' x items

theorem getItem_eraseItem (k k' : κ) (items : List (κ × ν)) :
    getItem k' (eraseItem k items) = if k' = k then none else getItem k' items :=
  lookup_eraseItem k k' items

theorem getItem_cons (k : κ) (p : κ × ν) (rest : List (κ × ν)) :
    getItem k (p :: rest) = if k = p.1 then some p.2 else getItem k rest := by
  obtain ⟨k₀, x₀⟩ := p
  by_cases h : k = k₀
  · simp [getItem, h]
  · simp [getItem, h, List.lookup_cons, beq_eq_false_iff_ne.2 h]

theorem getItem_eq_some_iff {items : List (κ × ν)} (h : (items.map Prod.fst).Nodup) {k : κ} {x : ν} :
    getItem k items = some x ↔ (k, x) ∈ items :=
  lookup_eq_some_iff h

theorem getItem_eq_none {items : List (κ × ν)} {k : κ} (h : k ∉ items.map Prod.fst) :
    getItem k items = none := by
  induction items with
  | nil => rfl
  | cons p rest ih =>
      rw [List.map_cons, List.mem_cons, not_or] at h
      rw [getItem_cons, if_neg h.1, ih h.2]

/-- Assigning what a key holds already changes nothing. -/
theorem setItem_of_getItem {items : List (κ × ν)} {k : κ} {x : ν} (h : getItem k items = some x) :
    setItem k x items = items := by
  induction items with
  | nil => cases h
  | cons p rest ih =>
      obtain ⟨k₀, x₀⟩ := p
      rw [getItem_cons] at h
      by_cases hk : k = k₀
      · rw [if_pos hk] at h
        obtain rfl := Option.some.inj h
        rw [setItem, if_pos hk.symm, hk]
      · rw [if_neg hk] at h
        rw [setItem, if_neg (Ne.symm hk), ih h]

/-- A new key goes to the end. -/
theorem setItem_of_notMem {items : List (κ × ν)} {k : κ} (x : ν) (h : k ∉ items.map Prod.fst) :
    setItem k x items = items ++ [(k, x)] := by
  induction items with
  | nil => rfl
  | cons p rest ih =>
      rw [List.map_cons, List.mem_cons, not_or] at h
      rw [setItem, if_neg (Ne.symm h.1), ih h.2, List.cons_append]

/-- The value of a present key is replaced where it stands. -/
theorem setItem_of_mem {items : List (κ × ν)} {k : κ} {y : ν} (x : ν) (h : getItem k items = some y) :
    ∃ before behind, items = before ++ (k, y) :: behind ∧
      setItem k x items = before ++ (k, x) :: behind := by
  induction items with
  | nil => cases h
  | cons p rest ih =>
      obtain ⟨k₀, x₀⟩ := p
      rw [getItem_cons] at h
      by_cases hk : k = k₀
      · rw [if_pos hk] at h
        obtain rfl := Option.some.inj h
        subst hk
        exact ⟨[], rest, rfl, by rw [setItem, if_pos rfl]; rfl⟩
      · rw [if_neg hk] at h
        obtain ⟨before, behind, hitems, hset⟩ := ih h
        refine ⟨(k₀, x₀) :: before, behind, ?_, ?_⟩
        · rw [hitems, List.cons_append]
        · rw [setItem, if_neg (Ne.symm hk), hset, List.cons_append]

theorem mem_keys {d : Dict κ ν} {k : κ} : k ∈ d.keys ↔ k ∈ d := by
  rw [mem_iff, keys, List.mem_map]
  constructor
  · rintro ⟨⟨k', x⟩, hmem, rfl⟩
    exact ⟨x, get?_eq_some_iff.2 hmem⟩
  · rintro ⟨x, hx⟩
    exact ⟨(k, x), get?_eq_some_iff.1 hx, rfl⟩

theorem items_set_of_notMem {d : Dict κ ν} {k : κ} (x : ν) (h : k ∉ d) :
    (d.set k x).items = d.items ++ [(k, x)] :=
  setItem_of_notMem x fun hmem => h (mem_keys.1 hmem)

theorem items_set_of_get? {d : Dict κ ν} {k : κ} {y : ν} (x : ν) (h : d.get? k = some y) :
    ∃ before behind, d.items = before ++ (k, y) :: behind ∧ (d.set k x).items = before ++ (k, x) :: behind :=
  setItem_of_mem x h

theorem set_self {d : Dict κ ν} {k : κ} {x : ν} (h : d.get? k = some x) : d.set k x = d := by
  cases d with
  | mk items nodup =>
      simp only [set, Dict.mk.injEq]
      exact setItem_of_getItem h

theorem mem_values {d : Dict κ ν} {x : ν} : x ∈ d.values ↔ ∃ k, d.get? k = some x := by
  rw [values, List.mem_map]
  constructor
  · rintro ⟨⟨k, x'⟩, hmem, rfl⟩
    exact ⟨k, get?_eq_some_iff.2 hmem⟩
  · rintro ⟨k, hk⟩
    exact ⟨(k, x), get?_eq_some_iff.1 hk, rfl⟩

/-- The dictionary without a set of keys. -/
def eraseAll (d : Dict κ ν) (gone : Finset κ) : Dict κ ν where
  items := d.items.filter fun p => p.1 ∉ gone
  nodup := d.nodup.sublist (List.filter_sublist.map Prod.fst)

theorem get?_eraseAll (d : Dict κ ν) (gone : Finset κ) (k : κ) :
    (d.eraseAll gone).get? k = if k ∈ gone then none else d.get? k := by
  apply Option.ext
  intro x
  rw [get?_eq_some_iff]
  by_cases h : k ∈ gone
  · simp [eraseAll, h]
  · simp [eraseAll, h, get?_eq_some_iff]

@[simp] theorem mem_eraseAll {d : Dict κ ν} {gone : Finset κ} {k : κ} :
    k ∈ d.eraseAll gone ↔ k ∈ d ∧ k ∉ gone := by
  by_cases h : k ∈ gone <;> simp [mem_iff_isSome, get?_eraseAll, h]

/-- The dictionary with each value replaced by one made of key and value. -/
def map {μ : Type w} (f : κ → ν → μ) (d : Dict κ ν) : Dict κ μ where
  items := d.items.map fun p => (p.1, f p.1 p.2)
  nodup := by
    rw [List.map_map]
    exact d.nodup

theorem get?_map {μ : Type w} (f : κ → ν → μ) (d : Dict κ ν) (k : κ) :
    (d.map f).get? k = (d.get? k).map (f k) := by
  apply Option.ext
  intro y
  rw [get?_eq_some_iff, Option.map_eq_some_iff]
  simp only [map, List.mem_map, Prod.mk.injEq, Prod.exists]
  constructor
  · rintro ⟨k', x, hmem, rfl, rfl⟩
    exact ⟨x, get?_eq_some_iff.2 hmem, rfl⟩
  · rintro ⟨x, hget, rfl⟩
    exact ⟨k, x, get?_eq_some_iff.1 hget, rfl, rfl⟩

/-- The dictionary of the items whose value passes a test. -/
def filter (p : ν → Bool) (d : Dict κ ν) : Dict κ ν where
  items := d.items.filter fun item => p item.2
  nodup := d.nodup.sublist (List.filter_sublist.map Prod.fst)

theorem get?_filter {d : Dict κ ν} {p : ν → Bool} {k : κ} {x : ν} :
    (d.filter p).get? k = some x ↔ d.get? k = some x ∧ p x = true := by
  rw [get?_eq_some_iff, get?_eq_some_iff]
  exact List.mem_filter

/-! ## Sums over the values

A quantity that is summed over the values (how many tokens the entries hold,
say) changes with an assignment only by what the assigned key contributes. -/

variable {M : Type w} [AddCommMonoid M]

/-- The sum of a quantity over the values. -/
def sum (d : Dict κ ν) (f : ν → M) : M := (d.items.map fun p => f p.2).sum

omit [DecidableEq κ] in
@[simp] theorem sum_empty (f : ν → M) : (empty : Dict κ ν).sum f = 0 := rfl

theorem eraseItem_of_notMem {k : κ} {items : List (κ × ν)} (h : k ∉ items.map Prod.fst) :
    eraseItem k items = items := by
  rw [eraseItem, List.filter_eq_self]
  intro p hp
  simpa using fun hpk : p.1 = k => h (hpk ▸ fst_mem_keys hp)

theorem sum_setItem (f : ν → M) (k : κ) (x : ν) {items : List (κ × ν)}
    (h : (items.map Prod.fst).Nodup) :
    ((setItem k x items).map fun p => f p.2).sum =
      f x + ((eraseItem k items).map fun p => f p.2).sum := by
  induction items with
  | nil => simp [setItem, eraseItem]
  | cons p rest ih =>
      obtain ⟨k₀, x₀⟩ := p
      rw [List.map_cons, List.nodup_cons] at h
      by_cases hk : k₀ = k
      · subst hk
        have herase : eraseItem k₀ ((k₀, x₀) :: rest) = rest := by
          rw [eraseItem_cons, if_pos rfl, eraseItem_of_notMem h.1]
        simp [setItem, herase]
      · have herase : eraseItem k ((k₀, x₀) :: rest) = (k₀, x₀) :: eraseItem k rest := by
          rw [eraseItem_cons, if_neg hk]
        rw [setItem, if_neg hk, herase, List.map_cons, List.sum_cons, ih h.2, List.map_cons,
          List.sum_cons, add_left_comm]

theorem sum_eraseItem (f : ν → M) {k : κ} {x : ν} {items : List (κ × ν)}
    (h : (items.map Prod.fst).Nodup) (hmem : (k, x) ∈ items) :
    (items.map fun p => f p.2).sum = f x + ((eraseItem k items).map fun p => f p.2).sum := by
  induction items with
  | nil => simp at hmem
  | cons p rest ih =>
      obtain ⟨k₀, x₀⟩ := p
      rw [List.map_cons, List.nodup_cons] at h
      rcases List.mem_cons.1 hmem with heq | hrest
      · obtain ⟨rfl, rfl⟩ := Prod.mk.inj heq
        have herase : eraseItem k ((k, x) :: rest) = rest := by
          rw [eraseItem_cons, if_pos rfl, eraseItem_of_notMem h.1]
        rw [herase, List.map_cons, List.sum_cons]
      · have hk : k₀ ≠ k := fun hk => h.1 (hk ▸ fst_mem_keys hrest)
        have herase : eraseItem k ((k₀, x₀) :: rest) = (k₀, x₀) :: eraseItem k rest := by
          rw [eraseItem_cons, if_neg hk]
        rw [herase, List.map_cons, List.sum_cons, ih h.2 hrest, List.map_cons, List.sum_cons,
          add_left_comm]

theorem sum_set (d : Dict κ ν) (f : ν → M) (k : κ) (x : ν) :
    (d.set k x).sum f = f x + (d.erase k).sum f :=
  sum_setItem f k x d.nodup

/-- A present key contributes its value; the rest is the dictionary without it. -/
theorem sum_eq_add_erase {d : Dict κ ν} (f : ν → M) {k : κ} {x : ν} (h : d.get? k = some x) :
    d.sum f = f x + (d.erase k).sum f :=
  sum_eraseItem f d.nodup (get?_eq_some_iff.1 h)

theorem erase_of_notMem {d : Dict κ ν} {k : κ} (h : k ∉ d) : d.erase k = d := by
  cases d with
  | mk items nodup =>
      simp only [erase, Dict.mk.injEq]
      exact eraseItem_of_notMem (fun hmem => h (mem_keys.1 hmem))

theorem erase_set (d : Dict κ ν) (k : κ) (x : ν) : (d.set k x).erase k = d.erase k := by
  cases d with
  | mk items nodup =>
      simp only [erase, set, Dict.mk.injEq]
      clear nodup
      induction items with
      | nil => simp [setItem, eraseItem_cons]
      | cons p rest ih =>
          obtain ⟨k₀, x₀⟩ := p
          by_cases hk : k₀ = k
          · simp [setItem, hk, eraseItem_cons]
          · simp [setItem, hk, eraseItem_cons, ih]

/-- The keys of a list are assigned one after the other. -/
theorem get?_foldl_set (f : κ → ν) (l : List κ) (d : Dict κ ν) (k : κ) :
    (l.foldl (fun d a => d.set a (f a)) d).get? k = if k ∈ l then some (f k) else d.get? k := by
  induction l generalizing d with
  | nil => rfl
  | cons a l ih =>
      rw [List.foldl_cons, ih, get?_set]
      by_cases hmem : k ∈ l
      · simp [hmem]
      · by_cases heq : k = a
        · simp [heq]
        · simp [hmem, heq]

/-! ## One assignment for each element of a list -/

section

variable {ι : Type*} {key : ι → κ} {value : ι → ν} {l : List ι} {d : Dict κ ν}

/-- The last element of a kind is one behind which there is no other. -/
theorem getLast?_filter_eq_some_iff {p : ι → Bool} {l : List ι} {x : ι} :
    (l.filter p).getLast? = some x ↔
      ∃ front back, l = front ++ x :: back ∧ p x = true ∧ ∀ y ∈ back, ¬ p y = true := by
  rw [List.getLast?_eq_some_iff]
  constructor
  · rintro ⟨found, hfilter⟩
    rcases List.filter_eq_append_iff.1 hfilter with ⟨a, b, rfl, -, hb⟩
    rcases List.filter_eq_cons_iff.1 hb with ⟨c, d, rfl, -, hx, hd⟩
    exact ⟨a ++ c, d, by simp, hx, List.filter_eq_nil_iff.1 hd⟩
  · rintro ⟨front, back, rfl, hx, hback⟩
    refine ⟨front.filter p, ?_⟩
    rw [List.filter_append, List.filter_cons, if_pos hx, List.filter_eq_nil_iff.2 hback]

/-- Of assignments one after the other the last one of each key counts. -/
theorem get?_foldl_assign (key : ι → κ) (value : ι → ν) (l : List ι) (d : Dict κ ν) (k : κ) :
    (l.foldl (fun d x => d.set (key x) (value x)) d).get? k =
      (((l.filter fun x => key x = k).getLast?).map value).or (d.get? k) := by
  induction l using List.reverseRecOn with
  | nil => rfl
  | append_singleton l x ih =>
      rw [List.foldl_append, List.foldl_cons, List.foldl_nil, get?_set, ih, List.filter_append]
      by_cases hkey : key x = k
      · rw [if_pos hkey.symm, List.filter_cons, if_pos (decide_eq_true hkey), List.filter_nil,
          List.getLast?_concat]
        rfl
      · rw [if_neg fun h => hkey h.symm, List.filter_cons, if_neg (by simpa using hkey), List.filter_nil,
          List.append_nil]

theorem get?_foldl_assign_of_notMem {k : κ} (h : k ∉ l.map key) :
    (l.foldl (fun d x => d.set (key x) (value x)) d).get? k = d.get? k := by
  induction l generalizing d with
  | nil => rfl
  | cons x rest ih =>
      rw [List.map_cons, List.mem_cons, not_or] at h
      rw [List.foldl_cons, ih h.2, get?_set_ne _ _ h.1]

/-- With distinct keys no assignment is overwritten. -/
theorem get?_foldl_assign_of_mem (hkeys : (l.map key).Nodup) {x : ι} (hx : x ∈ l) :
    (l.foldl (fun d x => d.set (key x) (value x)) d).get? (key x) = some (value x) := by
  induction l generalizing d with
  | nil => cases hx
  | cons y rest ih =>
      rw [List.map_cons, List.nodup_cons] at hkeys
      rw [List.foldl_cons]
      rcases List.mem_cons.1 hx with rfl | hx
      · rw [get?_foldl_assign_of_notMem hkeys.1, get?_set_self]
      · exact ih hkeys.2 hx

/-- Assigning one value to all keys. -/
theorem get?_foldl_assign_const {x : ν} {k : κ} (hk : k ∈ l.map key) :
    (l.foldl (fun d a => d.set (key a) x) d).get? k = some x := by
  induction l generalizing d with
  | nil => cases hk
  | cons a rest ih =>
      rw [List.foldl_cons]
      by_cases hrest : k ∈ rest.map key
      · exact ih hrest
      · rw [get?_foldl_assign_of_notMem hrest]
        obtain rfl := (List.mem_cons.1 hk).resolve_right hrest
        exact get?_set_self _ _ _

theorem mem_foldl_assign {k : κ} :
    k ∈ l.foldl (fun d x => d.set (key x) (value x)) d ↔ k ∈ l.map key ∨ k ∈ d := by
  induction l generalizing d with
  | nil => simp
  | cons x rest ih =>
      rw [List.foldl_cons, ih, mem_set, List.map_cons, List.mem_cons]
      tauto

theorem mem_keys_foldl_assign {k : κ} :
    k ∈ (l.foldl (fun d x => d.set (key x) (value x)) (∅ : Dict κ ν)).keys ↔ k ∈ l.map key := by
  rw [mem_keys, mem_foldl_assign, or_iff_left]
  simp [mem_iff_isSome]

theorem keys_foldl_assign_perm (h : (l.map key).Nodup) :
    (l.foldl (fun d x => d.set (key x) (value x)) (∅ : Dict κ ν)).keys.Perm (l.map key) :=
  (List.perm_ext_iff_of_nodup (Dict.nodup _) h).2 fun _ => mem_keys_foldl_assign

/-- Only distinct keys give one key for each element. -/
theorem nodup_of_length_keys
    (h : (l.foldl (fun d x => d.set (key x) (value x)) (∅ : Dict κ ν)).keys.length = l.length) :
    (l.map key).Nodup := by
  have hsub : (l.foldl (fun d x => d.set (key x) (value x)) (∅ : Dict κ ν)).keys.Subperm (l.map key) :=
    List.Nodup.subperm (Dict.nodup _) fun _ => mem_keys_foldl_assign.1
  have hperm := hsub.perm_of_length_le (by rw [h, List.length_map])
  exact hperm.nodup_iff.1 (Dict.nodup _)

end

/-! ## Values that carry their keys -/

section

variable {d : Dict κ ν} {key : ν → κ}

theorem map_values (hkey : ∀ k x, d.get? k = some x → key x = k) : d.values.map key = d.keys := by
  rw [values, keys, List.map_map]
  refine List.map_congr_left fun p hp => ?_
  exact hkey p.1 p.2 (get?_eq_some_iff.2 hp)

/-- The values that are selected, under their keys again. -/
theorem get?_select (hkey : ∀ k x, d.get? k = some x → key x = k) {p : ν → Bool} {k : κ} {x : ν} :
    ((d.values.filter p).foldl (fun (d : Dict κ ν) x => d.set (key x) x) ∅).get? k = some x ↔
      d.get? k = some x ∧ p x = true := by
  have hnodup : ((d.values.filter p).map key).Nodup := by
    refine List.Nodup.sublist (List.filter_sublist.map key) ?_
    rw [map_values hkey]
    exact d.nodup
  constructor
  · intro hget
    rw [get?_foldl_assign key (fun x => x)] at hget
    simp only [get?_empty, Option.or_none, Option.map_id'] at hget
    have hmem := List.mem_of_getLast? hget
    rw [List.mem_filter, List.mem_filter, decide_eq_true_eq] at hmem
    obtain ⟨k', hk'⟩ := mem_values.1 hmem.1.1
    obtain rfl : k' = k := (hkey k' x hk').symm.trans hmem.2
    exact ⟨hk', hmem.1.2⟩
  · rintro ⟨hget, hp⟩
    have hmem : x ∈ d.values.filter p := List.mem_filter.2 ⟨mem_values.2 ⟨k, hget⟩, hp⟩
    rw [← hkey k x hget]
    exact get?_foldl_assign_of_mem hnodup hmem

end

/-! ## Lists under keys -/

section

variable {α β : Type*}

/-- `d.setdefault(k, []).extend(l)`. -/
def extend (d : Dict κ (List β)) (k : κ) (l : List β) : Dict κ (List β) :=
  d.set k ((d.get? k).getD [] ++ l)

/-- The lists that are collected under each key. -/
theorem get?_foldl_extend (key : α → κ) (f : α → List β) (l : List α) (d : Dict κ (List β))
    (k : κ) : (l.foldl (fun d a => d.extend (key a) (f a)) d).get? k =
      if ∃ a ∈ l, key a = k then
        some ((d.get? k).getD [] ++ (l.filter fun a => key a = k).flatMap f)
      else d.get? k := by
  induction l generalizing d with
  | nil => simp
  | cons a l ih =>
      rw [List.foldl_cons, ih]
      by_cases ha : key a = k
      · subst ha
        by_cases hl : ∃ b ∈ l, key b = key a
        · simp [hl, extend]
        · have hnone : l.filter (fun b => key b = key a) = [] := by
            rw [List.filter_eq_nil_iff]
            intro b hb heq
            exact hl ⟨b, hb, of_decide_eq_true heq⟩
          simp [hl, extend, hnone]
      · have hget : (d.extend (key a) (f a)).get? k = d.get? k := get?_set_ne d _ (Ne.symm ha)
        simp [hget, ha]

end

end Dict

/-! ## Sets

A set of the language is a finite set together with an order of iteration that
the language leaves open. -/

/-- An order in which each set is iterated. -/
structure IterOrder (α : Type u) where
  list : Finset α → List α
  nodup : ∀ s, (list s).Nodup
  mem : ∀ s a, a ∈ list s ↔ a ∈ s

namespace IterOrder

/-- The order of the elements. -/
def sorted (α : Type u) [LinearOrder α] : IterOrder α where
  list := fun s => s.sort (· ≤ ·)
  nodup := fun s => s.sort_nodup (· ≤ ·)
  mem := fun _ _ => Finset.mem_sort (· ≤ ·)

/-- The order of what the elements stand for. -/
def ofEquiv {α : Type u} {β : Type v} (e : α ≃ β) (order : IterOrder β) : IterOrder α where
  list := fun s => (order.list (s.map e.toEmbedding)).map e.symm
  nodup := fun s => (order.nodup _).map e.symm.injective
  mem := by
    intro s a
    rw [List.mem_map]
    constructor
    · rintro ⟨b, hb, rfl⟩
      exact (Finset.mem_map_equiv).1 ((order.mem _ _).1 hb)
    · intro ha
      exact ⟨e a, (order.mem _ _).2 (Finset.mem_map_of_mem e.toEmbedding ha), e.symm_apply_apply a⟩

variable {α : Type u} (order : IterOrder α)

theorem toFinset_list [DecidableEq α] (s : Finset α) : (order.list s).toFinset = s := by
  ext a
  rw [List.mem_toFinset, order.mem]

theorem length_list (s : Finset α) : (order.list s).length = s.card := by
  classical
  rw [← List.toFinset_card_of_nodup (order.nodup s), order.toFinset_list]

end IterOrder
