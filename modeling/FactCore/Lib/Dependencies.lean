import Mathlib.Data.Set.Finite.Basic
import Mathlib.Logic.Relation
import Mathlib.Order.WellFounded

/-! # Dependencies

A relation `R` says what depends on what. `Needed R start` are the elements
that `start` needs directly or indirectly; the smallest set that contains
`start` and is closed. A list that is worked off from its end is `Ordered` if
every element comes after all it depends on. Without cycles, any elements that
remain include one that depends on none of the others.
-/

universe u

namespace Dependencies

variable {α : Type u} {R : α → α → Prop}

/-! ## What is needed -/

/-- Some element of `start` depends on `a`, directly, indirectly, or by being it. -/
def Needed (R : α → α → Prop) (start : α → Prop) (a : α) : Prop :=
  ∃ b, start b ∧ Relation.ReflTransGen R b a

/-- Nothing that a set depends on lies outside of it. -/
def Closed (R : α → α → Prop) (S : α → Prop) : Prop := ∀ a b, S a → R a b → S b

theorem needed_of_start {start : α → Prop} {a : α} (h : start a) : Needed R start a :=
  ⟨a, h, Relation.ReflTransGen.refl⟩

theorem needed_closed (start : α → Prop) : Closed R (Needed R start) := by
  rintro a b ⟨c, hc, hca⟩ hab
  exact ⟨c, hc, hca.tail hab⟩

/-- A closed set that contains the start contains all that is needed. -/
theorem Needed.mem {start S : α → Prop} {a : α} (hclosed : Closed R S) (hstart : ∀ b, start b → S b)
    (h : Needed R start a) : S a := by
  rcases h with ⟨b, hb, hba⟩
  induction hba with
  | refl => exact hstart b hb
  | tail _ hcd ih => exact hclosed _ _ ih hcd

/-- The start may be replaced by what it needs. -/
theorem Needed.mono {start start' : α → Prop} {a : α} (hstart : ∀ b, start b → Needed R start' b)
    (h : Needed R start a) : Needed R start' a :=
  h.mem (needed_closed start') hstart

/-! ## Cycles -/

/-- Nothing depends on itself, directly or indirectly. -/
def Acyclic (R : α → α → Prop) : Prop := ∀ a, ¬ Relation.TransGen R a a

/-- Nothing depends on itself if everything depends on lower ranks only. -/
theorem acyclic_of_rank (rank : α → Nat) (h : ∀ a b, R a b → rank b < rank a) : Acyclic R := by
  have hlt : ∀ a b, Relation.TransGen R a b → rank b < rank a := by
    intro a b hab
    induction hab with
    | single hab => exact h _ _ hab
    | tail _ hbc ih => exact Nat.lt_trans (h _ _ hbc) ih
  intro a haa
  exact Nat.lt_irrefl _ (hlt a a haa)

/-- Among finitely many elements, one depends on none of the others. -/
theorem Acyclic.exists_ready (h : Acyclic R) {l : List α} (hne : l ≠ []) :
    ∃ a ∈ l, ∀ b, R a b → b ∉ l := by
  let S := {x // x ∈ l}
  let below : S → S → Prop := fun b a => Relation.TransGen R a.1 b.1
  have htrans : IsTrans S below := ⟨fun _ _ _ hab hbc => hbc.trans hab⟩
  have hirrefl : Std.Irrefl below := ⟨fun a haa => h a.1 haa⟩
  have hfinite : Finite S := (List.finite_toSet l).to_subtype
  have hwf : WellFounded below := Finite.wellFounded_of_trans_of_irrefl below
  obtain ⟨x, hx⟩ := List.exists_mem_of_ne_nil l hne
  obtain ⟨a, -, hmin⟩ := hwf.has_min Set.univ ⟨⟨x, hx⟩, trivial⟩
  refine ⟨a.1, a.2, ?_⟩
  intro b hab hb
  exact hmin ⟨b, hb⟩ trivial (Relation.TransGen.single hab)

/-! ## Order -/

/-- Worked off from the end, everything comes after all it depends on. -/
def Ordered (R : α → α → Prop) : List α → Prop
  | [] => True
  | a :: popped => (∀ b, R a b → b ∈ popped) ∧ Ordered R popped

/-- When an element is taken from the end, all it depends on has been taken. -/
theorem Ordered.split {rest popped : List α} {a : α} (h : Ordered R (rest ++ a :: popped)) :
    ∀ b, R a b → b ∈ popped := by
  induction rest with
  | nil => exact h.1
  | cons c rest ih => exact ih h.2

/-- What has been taken is ordered. -/
theorem Ordered.popped {rest popped : List α} (h : Ordered R (rest ++ popped)) :
    Ordered R popped := by
  induction rest with
  | nil => exact h
  | cons c rest ih => exact ih h.2

/-- An ordered list contains all that its elements depend on. -/
theorem Ordered.closed {l : List α} (h : Ordered R l) : Closed R (· ∈ l) := by
  induction l with
  | nil =>
      intro a b ha
      cases ha
  | cons c l ih =>
      intro a b ha hab
      rcases List.mem_cons.1 ha with rfl | ha
      · exact List.mem_cons_of_mem _ (h.1 b hab)
      · exact List.mem_cons_of_mem _ (ih h.2 a b ha hab)

/-- What an ordered list without repetition contains lies on no cycle. -/
theorem Ordered.acyclic {l : List α} (h : Ordered R l) (hnodup : l.Nodup) :
    ∀ a ∈ l, ¬ Relation.TransGen R a a := by
  induction l with
  | nil =>
      intro a ha
      cases ha
  | cons c l ih =>
      rcases List.nodup_cons.1 hnodup with ⟨hc, hnodup⟩
      have hclosed : ∀ a b, Relation.TransGen R a b → a ∈ l → b ∈ l := by
        intro a b hab ha
        induction hab with
        | single hab => exact h.2.closed _ _ ha hab
        | tail _ hbc ihb => exact h.2.closed _ _ ihb hbc
      intro a ha hcycle
      rcases List.mem_cons.1 ha with rfl | ha
      · obtain ⟨b, hab, hba⟩ := Relation.TransGen.head'_iff.1 hcycle
        rcases Relation.reflTransGen_iff_eq_or_transGen.1 hba with heq | hba
        · exact hc (heq ▸ h.1 b hab)
        · exact hc (hclosed b a hba (h.1 b hab))
      · exact ih h.2 hnodup a ha hcycle

/-- What depends only on a list may be put in front of it, in any order. -/
theorem Ordered.append {layer l : List α} (h : Ordered R l)
    (hlayer : ∀ a ∈ layer, ∀ b, R a b → b ∈ l) : Ordered R (layer ++ l) := by
  induction layer with
  | nil => exact h
  | cons a layer ih =>
      refine ⟨?_, ih fun c hc => hlayer c (List.mem_cons_of_mem _ hc)⟩
      intro b hab
      exact List.mem_append_right _ (hlayer a List.mem_cons_self b hab)

/-- What depends on nothing may be taken first as well. -/
theorem Ordered.concat {l : List α} {x : α} (h : Ordered R l) (hx : ∀ b, ¬ R x b) :
    Ordered R (l ++ [x]) := by
  induction l with
  | nil => exact ⟨fun b hb => absurd hb (hx b), trivial⟩
  | cons a l ih => exact ⟨fun b hab => List.mem_append_left _ (h.1 b hab), ih h.2⟩

/-- What depends on nothing may be moved to the end. -/
theorem Ordered.move_last [DecidableEq α] {l : List α} {x : α} (h : Ordered R l)
    (hx : ∀ b, ¬ R x b) : Ordered R (l.erase x ++ [x]) := by
  induction l with
  | nil => exact ⟨fun b hb => absurd hb (hx b), trivial⟩
  | cons a l ih =>
      rcases h with ⟨ha, hl⟩
      by_cases hax : a = x
      · subst hax
        rw [List.erase_cons_head]
        exact hl.concat hx
      · rw [List.erase_cons_tail (by simpa using hax)]
        refine ⟨?_, ih hl⟩
        intro b hab
        have hb := ha b hab
        by_cases hbx : b = x
        · exact List.mem_append_right _ (by simp [hbx])
        · exact List.mem_append_left _ ((List.mem_erase_of_ne hbx).2 hb)

/-- The last element of an ordered list depends on nothing. -/
theorem Ordered.last_free {l : List α} {x : α} (h : Ordered R (l ++ [x])) : ∀ b, ¬ R x b :=
  fun b hb => absurd (h.split b hb) List.not_mem_nil

/-! ## What can be resolved

An element can be resolved if all that it needs is available and lies on no
cycle. -/

/-- All that an element needs, itself included, is available and on no cycle. -/
def Resolvable (R : α → α → Prop) (available : α → Prop) (a : α) : Prop :=
  ∀ b, Relation.ReflTransGen R a b → available b ∧ ¬ Relation.TransGen R b b

variable {available : α → Prop}

theorem Resolvable.dependency {a b : α} (h : Resolvable R available a) (hab : R a b) :
    Resolvable R available b :=
  fun c hbc => h c (Relation.ReflTransGen.head hab hbc)

/-- What an ordered list of available elements contains can be resolved. -/
theorem Ordered.resolvable {l : List α} (h : Ordered R l) (hnodup : l.Nodup)
    (hl : ∀ a ∈ l, available a) : ∀ a ∈ l, Resolvable R available a := by
  intro a ha b hab
  have hb : b ∈ l := by
    induction hab with
    | refl => exact ha
    | tail _ hcd ih => exact h.closed _ _ ih hcd
  exact ⟨hl b hb, h.acyclic hnodup b hb⟩

/-- Among finitely many elements that can be resolved, one depends on none of the
others. -/
theorem exists_ready_of_resolvable {l : List α} (hl : ∀ a ∈ l, Resolvable R available a)
    (hne : l ≠ []) : ∃ a ∈ l, ∀ b, R a b → b ∉ l := by
  -- the dependencies of what can be resolved have no cycles
  let R' : α → α → Prop := fun a b => R a b ∧ Resolvable R available a
  have hacyclic : Acyclic R' := by
    intro a hcycle
    obtain ⟨-, ⟨-, hresolvable⟩, -⟩ := Relation.TransGen.head'_iff.1 hcycle
    have hcycle : Relation.TransGen R a a := hcycle.lift id fun _ _ h => h.1
    exact (hresolvable a Relation.ReflTransGen.refl).2 hcycle
  obtain ⟨a, ha, hready⟩ := hacyclic.exists_ready hne
  exact ⟨a, ha, fun b hab => hready b ⟨hab, hl a ha⟩⟩

/-- A list to which nothing can be added any more contains all that can be
resolved. -/
theorem mem_of_saturated {l done : List α}
    (hclosed : ∀ a ∈ l, Resolvable R available a → ∀ b, R a b → b ∈ l)
    (hsaturated : ∀ a ∈ l, (∀ b, R a b → b ∈ done) → a ∈ done) :
    ∀ a ∈ l, Resolvable R available a → a ∈ done := by
  classical
  intro a ha hresolvable
  by_contra hnot
  let rest := l.filter fun a => Resolvable R available a ∧ a ∉ done
  have hrest : ∀ b, b ∈ rest ↔ b ∈ l ∧ Resolvable R available b ∧ b ∉ done := by
    intro b
    simp [rest]
  have hne : rest ≠ [] := List.ne_nil_of_mem ((hrest a).2 ⟨ha, hresolvable, hnot⟩)
  obtain ⟨b, hb, hready⟩ := exists_ready_of_resolvable
    (fun b hb => ((hrest b).1 hb).2.1) hne
  obtain ⟨hbl, hbres, hbnot⟩ := (hrest b).1 hb
  refine hbnot (hsaturated b hbl fun c hbc => ?_)
  by_contra hc
  exact hready c hbc ((hrest c).2 ⟨hclosed b hbl hbres c hbc, hbres.dependency hbc, hc⟩)

end Dependencies
