import Mathlib.Logic.Relation

/-! # Forests

Nodes are numbered so that a parent has a smaller number than its children. So there is
at most one way from a node down to another one, and what is below different children
of a node is apart.
-/

/-- A forest of numbered nodes. -/
structure Forest where
  parent : Nat → Option Nat
  older : ∀ i p, parent i = some p → p < i

namespace Forest

variable (F : Forest) {p q x c c' : Nat}

/-- `x` is `p` or in a branch below it. -/
def Below (p x : Nat) : Prop :=
  Relation.ReflTransGen (fun a b => F.parent b = some a) p x

variable {F}

theorem Below.refl (p : Nat) : F.Below p p := Relation.ReflTransGen.refl

theorem Below.trans (h : F.Below p q) (h' : F.Below q x) : F.Below p x :=
  Relation.ReflTransGen.trans h h'

theorem below_child (h : F.parent c = some p) : F.Below p c := Relation.ReflTransGen.single h

theorem Below.le (h : F.Below p x) : p ≤ x := by
  induction h with
  | refl => exact Nat.le_refl p
  | tail _ hlast ih => exact Nat.le_of_lt (Nat.lt_of_le_of_lt ih (F.older _ _ hlast))

/-- The child under which a node is. -/
theorem Below.exists_child (h : F.Below p x) (hne : x ≠ p) :
    ∃ c, F.parent c = some p ∧ F.Below c x := by
  rcases Relation.ReflTransGen.cases_head h with heq | ⟨c, hc, hrest⟩
  · exact absurd heq.symm hne
  · exact ⟨c, hc, hrest⟩

/-- A parent is not below its child. -/
theorem not_below_child (h : F.parent c = some p) : ¬ F.Below c p := fun hbelow =>
  absurd hbelow.le (Nat.not_le.2 (F.older c p h))

/-- Two nodes above the same node are one above the other. -/
theorem Below.total (h : F.Below p x) (h' : F.Below q x) : F.Below p q ∨ F.Below q p := by
  induction h with
  | refl => exact .inr h'
  | tail hfront hlast ih =>
      rcases Relation.ReflTransGen.cases_tail h' with heq | ⟨b, hb, hb'⟩
      · subst heq
        exact .inl (Relation.ReflTransGen.tail hfront hlast)
      · obtain rfl : b = _ := Option.some.inj (hb'.symm.trans hlast)
        exact ih hb

/-- What is below different children of a node is apart. -/
theorem below_apart (hc : F.parent c = some p) (hc' : F.parent c' = some p) (hne : c ≠ c')
    (h : F.Below c x) : ¬ F.Below c' x := by
  -- if `a` is strictly above its sibling `b`, it is above the parent of both
  have hsibling : ∀ {a b}, F.parent a = some p → F.parent b = some p → a ≠ b →
      ¬ F.Below a b := by
    intro a b ha hb hab hbelow
    rcases Relation.ReflTransGen.cases_tail hbelow with heq | ⟨d, hd, hd'⟩
    · exact hab heq.symm
    · obtain rfl : d = p := Option.some.inj (hd'.symm.trans hb)
      exact not_below_child ha hd
  intro h'
  rcases h.total h' with hbelow | hbelow
  · exact hsibling hc hc' hne hbelow
  · exact hsibling hc' hc hne.symm hbelow

end Forest
