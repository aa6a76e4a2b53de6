import FactCore.Lib.Dict

/-! # Coverage of a family of sets

Several objects have a finite set of names each. A name is in common if every
object has it, exclusive to an object if no other object has it, and shared if
it is neither. This file computes the three classes with intersections and
differences of several sets and says what they are in terms of the number of
objects that have the name.
-/

namespace Coverage

variable {ι κ α : Type*} [DecidableEq κ] [DecidableEq α]

/-! ## Intersections and differences of several sets -/

/-- `set.intersection(*sets)`, for at least one set. -/
def intersection : List (Finset α) → Finset α
  | [] => ∅
  | s :: rest => rest.foldl (· ∩ ·) s

/-- `set.difference(s, *others)`. -/
def difference (s : Finset α) (others : List (Finset α)) : Finset α := others.foldl (· \ ·) s

/-- Each element with the list of the elements different from it. -/
def elementAndRest [DecidableEq ι] (objects : List ι) : List (ι × List ι) :=
  objects.map fun x => (x, objects.filter fun y => y ≠ x)

variable {s : Finset α} {sets others : List (Finset α)} {a : α}

theorem mem_foldl_inter : a ∈ sets.foldl (· ∩ ·) s ↔ a ∈ s ∧ ∀ t ∈ sets, a ∈ t := by
  induction sets generalizing s with
  | nil => simp
  | cons t rest ih =>
      rw [List.foldl_cons, ih, Finset.mem_inter, List.forall_mem_cons, and_assoc]

theorem mem_intersection (hne : sets ≠ []) : a ∈ intersection sets ↔ ∀ t ∈ sets, a ∈ t := by
  cases sets with
  | nil => exact absurd rfl hne
  | cons s rest => rw [intersection, mem_foldl_inter, List.forall_mem_cons]

theorem mem_difference : a ∈ difference s others ↔ a ∈ s ∧ ∀ t ∈ others, a ∉ t := by
  unfold difference
  induction others generalizing s with
  | nil => simp
  | cons t rest ih =>
      rw [List.foldl_cons, ih, Finset.mem_sdiff, List.forall_mem_cons, and_assoc]

/-! ## The three classes -/

/-- The classes: the names in common, and for each object its exclusive ones and,
if they are asked for, the shared ones. -/
structure Classes (κ α : Type*) where
  common : List α
  exclusive : Dict κ (List α)
  shared : Option (Dict κ (List α))

section

variable (order : IterOrder α) (key : ι → κ) (names : ι → Finset α) (objects : List ι)

/-- A dictionary with an entry for each object. -/
def collect {ν : Type*} (key : ι → κ) (value : ι → ν) (objects : List ι) : Dict κ ν :=
  objects.foldl (fun result x => result.set (key x) (value x)) ∅

/-- The names that every object has. -/
def commonNames : List α := order.list (intersection (objects.map names))

/-- The names of each object that none of the others has. -/
def exclusiveNames [DecidableEq ι] : Dict κ (List α) :=
  (elementAndRest objects).foldl (fun result p =>
    result.set (key p.1) (order.list (difference (names p.1) (p.2.map names)))) ∅

/-- The names of each object that are in neither of the other two classes. -/
def sharedNames (common : List α) (exclusive : Dict κ (List α)) : Dict κ (List α) :=
  collect key (fun x => order.list (difference (names x)
    [common.toFinset, ((exclusive.get? (key x)).getD []).toFinset])) objects

/-- The classification; the third class is left out for two objects. -/
def classify [DecidableEq ι] : Classes κ α where
  common := commonNames order names objects
  exclusive := exclusiveNames order key names objects
  shared :=
    if 2 < objects.length then
      some (sharedNames order key names objects (commonNames order names objects)
        (exclusiveNames order key names objects))
    else none

end

/-- How many of the objects have a name. -/
def count (names : ι → Finset α) (objects : List ι) (a : α) : Nat :=
  (objects.filter fun x => a ∈ names x).length

/-- What a classification has to be: the lists are without repetition; a name is
in common iff all objects have it, exclusive to an object iff only that one has
it, and shared iff at least two but not all have it; and the names of each object
are the disjoint union of the classes. -/
structure Right (key : ι → κ) (names : ι → Finset α) (objects : List ι) (classes : Classes κ α) :
    Prop where
  common : ∀ a, a ∈ classes.common ↔ count names objects a = objects.length
  exclusive : ∀ x ∈ objects, ∃ l, classes.exclusive.get? (key x) = some l ∧
    ∀ a, a ∈ l ↔ a ∈ names x ∧ count names objects a = 1
  shared : ∀ d, classes.shared = some d → ∀ x ∈ objects, ∃ l, d.get? (key x) = some l ∧
    ∀ a, a ∈ l ↔ a ∈ names x ∧ 2 ≤ count names objects a ∧ count names objects a < objects.length
  asked : classes.shared.isSome = true ↔ 2 < objects.length
  union : ∀ x ∈ objects, ∃ exclusive shared, classes.exclusive.get? (key x) = some exclusive ∧
    (classes.shared.bind fun d => d.get? (key x)).getD [] = shared ∧
    (classes.common ++ exclusive ++ shared).Nodup ∧
    ∀ a, a ∈ names x ↔ a ∈ classes.common ++ exclusive ++ shared

/-! ## The classification is right -/

section

variable {order : IterOrder α} {key : ι → κ} {names : ι → Finset α} {objects : List ι} {x : ι}

theorem get?_collect {ν : Type*} {value : ι → ν} (hkeys : (objects.map key).Nodup)
    (hx : x ∈ objects) : (collect key value objects).get? (key x) = some (value x) :=
  Dict.get?_foldl_assign_of_mem hkeys hx

theorem count_le : count names objects a ≤ objects.length := List.length_filter_le _ _

theorem count_eq_length : count names objects a = objects.length ↔ ∀ x ∈ objects, a ∈ names x := by
  rw [count, List.length_filter_eq_length_iff]
  simp

theorem count_pos (hx : x ∈ objects) (ha : a ∈ names x) : 0 < count names objects a := by
  apply List.length_pos_iff.2
  exact List.ne_nil_of_mem (List.mem_filter.2 ⟨hx, by simpa using ha⟩)

/-- Only one object has the name iff none of the others does. -/
theorem count_eq_one (hnodup : objects.Nodup) (hx : x ∈ objects) (ha : a ∈ names x) :
    count names objects a = 1 ↔ ∀ y ∈ objects, y ≠ x → a ∉ names y := by
  have hmem : x ∈ objects.filter fun y => a ∈ names y := List.mem_filter.2 ⟨hx, by simpa using ha⟩
  constructor
  · intro hone y hy hne hay
    obtain ⟨z, hz⟩ := List.length_eq_one_iff.1 hone
    have hmem' : y ∈ objects.filter fun y => a ∈ names y :=
      List.mem_filter.2 ⟨hy, by simpa using hay⟩
    rw [hz, List.mem_singleton] at hmem hmem'
    exact hne (hmem'.trans hmem.symm)
  · intro hnone
    have hle : (objects.filter fun y => a ∈ names y).Subperm [x] := by
      refine (hnodup.filter _).subperm fun y hy => ?_
      obtain ⟨hy, hay⟩ := List.mem_filter.1 hy
      by_contra hne
      exact hnone y hy (fun h => hne (by simp [h])) (by simpa using hay)
    have hlen := hle.length_le
    have hpos := count_pos hx ha
    rw [List.length_singleton] at hlen
    unfold count at hpos ⊢
    omega

theorem mem_commonNames (hne : objects ≠ []) :
    a ∈ commonNames order names objects ↔ count names objects a = objects.length := by
  have hmap : objects.map names ≠ [] := by simpa using hne
  rw [commonNames, order.mem, mem_intersection hmap, count_eq_length]
  simp

variable [DecidableEq ι]

theorem get?_exclusiveNames (order : IterOrder α) (names : ι → Finset α) (hkeys : (objects.map key).Nodup) (hx : x ∈ objects) :
    ∃ l, (exclusiveNames order key names objects).get? (key x) = some l ∧ l.Nodup ∧
      ∀ a, a ∈ l ↔ a ∈ names x ∧ count names objects a = 1 := by
  have heq : exclusiveNames order key names objects = collect key
      (fun x => order.list (difference (names x) ((objects.filter fun y => y ≠ x).map names)))
      objects := by
    rw [exclusiveNames, elementAndRest, List.foldl_map]
    rfl
  refine ⟨_, heq ▸ get?_collect hkeys hx, order.nodup _, fun a => ?_⟩
  rw [order.mem, mem_difference]
  refine and_congr_right fun ha => ?_
  rw [count_eq_one hkeys.of_map hx ha]
  simp only [List.forall_mem_map, List.mem_filter, decide_eq_true_eq, and_imp]

theorem get?_sharedNames (order : IterOrder α) (names : ι → Finset α) (hkeys : (objects.map key).Nodup) (hx : x ∈ objects) :
    ∃ l, (sharedNames order key names objects (commonNames order names objects)
        (exclusiveNames order key names objects)).get? (key x) = some l ∧ l.Nodup ∧
      ∀ a, a ∈ l ↔ a ∈ names x ∧ 2 ≤ count names objects a ∧ count names objects a < objects.length := by
  obtain ⟨exclusive, hget, -, hexclusive⟩ := get?_exclusiveNames order names hkeys hx
  refine ⟨_, get?_collect hkeys hx, order.nodup _, fun a => ?_⟩
  rw [order.mem, mem_difference, hget]
  refine and_congr_right fun ha => ?_
  have hpos := count_pos hx ha
  have hle : count names objects a ≤ objects.length := count_le
  have hcommon : a ∈ commonNames order names objects ↔ count names objects a = objects.length :=
    mem_commonNames (List.ne_nil_of_mem hx)
  have hone := hexclusive a
  simp only [List.mem_cons, List.not_mem_nil, or_false, forall_eq_or_imp, forall_eq,
    List.mem_toFinset, Option.getD_some, hcommon, hone, ha, true_and]
  omega

/-- With two objects nothing would be shared. -/
theorem get?_sharedNames_two (order : IterOrder α) (names : ι → Finset α)
    (hkeys : (objects.map key).Nodup) (htwo : objects.length = 2) (hx : x ∈ objects) :
    (sharedNames order key names objects (commonNames order names objects)
      (exclusiveNames order key names objects)).get? (key x) = some [] := by
  obtain ⟨l, hget, -, hl⟩ := get?_sharedNames order names hkeys hx
  have hnil : l = [] := by
    refine List.eq_nil_iff_forall_not_mem.2 fun a ha => ?_
    have h := ((hl a).1 ha).2
    omega
  rw [hget, hnil]

/-- The classification of two or more objects with distinct keys is right. -/
theorem classify_right (hkeys : (objects.map key).Nodup) (htwo : 2 ≤ objects.length) :
    Right key names objects (classify order key names objects) := by
  have hne : objects ≠ [] := by
    rintro rfl
    simp at htwo
  have hcommon : ∀ a, a ∈ commonNames order names objects ↔ count names objects a = objects.length :=
    fun a => mem_commonNames hne
  constructor
  · exact hcommon
  · intro x hx
    obtain ⟨l, hget, -, hl⟩ := get?_exclusiveNames order names hkeys hx
    exact ⟨l, hget, hl⟩
  · intro d hd x hx
    obtain ⟨l, hget, -, hl⟩ := get?_sharedNames order names hkeys hx
    by_cases hmore : 2 < objects.length
    · have hshared : (classify order key names objects).shared = some _ := if_pos hmore
      obtain rfl := Option.some.inj (hshared.symm.trans hd)
      exact ⟨l, hget, hl⟩
    · have hshared : (classify order key names objects).shared = none := if_neg hmore
      rw [hshared] at hd
      cases hd
  · by_cases hmore : 2 < objects.length
    · simp [classify, hmore]
    · simp [classify, hmore]
  · intro x hx
    obtain ⟨exclusive, hget, hnodup, hexclusive⟩ :=
      get?_exclusiveNames order names hkeys hx
    obtain ⟨l, hgetShared, hnodupShared, hl⟩ :=
      get?_sharedNames order names hkeys hx
    have hshared : ∃ shared, ((classify order key names objects).shared.bind
        fun d => d.get? (key x)).getD [] = shared ∧ shared.Nodup ∧
        ∀ a, a ∈ shared ↔ a ∈ names x ∧ 2 ≤ count names objects a ∧
          count names objects a < objects.length := by
      by_cases hmore : 2 < objects.length
      · refine ⟨l, ?_, hnodupShared, hl⟩
        simp [classify, hmore, hgetShared]
      · refine ⟨[], by simp [classify, hmore], List.nodup_nil, fun a => ?_⟩
        simp only [List.not_mem_nil, false_iff]
        omega
    obtain ⟨shared, heq, hnodupShared, hshared⟩ := hshared
    refine ⟨exclusive, shared, hget, heq, ?_, fun a => ?_⟩
    · refine List.nodup_append.2 ⟨List.nodup_append.2 ⟨order.nodup _, hnodup, ?_⟩, hnodupShared, ?_⟩
      · rintro a ha b hb rfl
        have h₁ := (hcommon a).1 ha
        have h₂ := ((hexclusive a).1 hb).2
        omega
      · rintro a ha b hb rfl
        have h₃ := ((hshared a).1 hb).2
        rcases List.mem_append.1 ha with ha | ha
        · have h₁ := (hcommon a).1 ha
          omega
        · have h₂ := ((hexclusive a).1 ha).2
          omega
    · show a ∈ names x ↔ a ∈ commonNames order names objects ++ exclusive ++ shared
      rw [List.mem_append, List.mem_append, hcommon a, hexclusive a, hshared a]
      have hle : count names objects a ≤ objects.length := count_le
      constructor
      · intro ha
        have hpos := count_pos hx ha
        simp only [ha, true_and]
        omega
      · rintro ((hall | h) | h)
        · exact count_eq_length.1 hall x hx
        · exact h.1
        · exact h.1

end

end Coverage
