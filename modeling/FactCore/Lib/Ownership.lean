import Mathlib.Data.List.Nodup
import Mathlib.Logic.Function.Basic

/-! # Exclusive ownership

Keys are handed out to owners. Ownership is exclusive when no owner holds a key
twice and no two owners hold the same one. The rules say which changes of one
owner, or of two, keep it so.
-/

universe u v

variable {ι : Type u} {κ : Type v}

/-- No key has two owners, and no owner has a key twice. -/
structure Exclusive (owned : ι → List κ) : Prop where
  nodup : ∀ i, (owned i).Nodup
  disjoint : ∀ i j, i ≠ j → (owned i).Disjoint (owned j)

namespace Exclusive

variable {owned : ι → List κ}

theorem empty : Exclusive fun _ : ι => ([] : List κ) where
  nodup := fun _ => List.nodup_nil
  disjoint := fun _ _ _ => by simp

/-- The owner of a key is determined. -/
theorem owner_eq (h : Exclusive owned) {i j : ι} {k : κ} (hi : k ∈ owned i) (hj : k ∈ owned j) :
    i = j := by
  by_contra hne
  exact h.disjoint i j hne hi hj

variable [DecidableEq ι]

/-- One owner changes to keys that no other owner holds. -/
theorem update (h : Exclusive owned) {i : ι} {new : List κ} (hnodup : new.Nodup)
    (hfree : ∀ k ∈ new, ∀ j, j ≠ i → k ∉ owned j) : Exclusive (Function.update owned i new) where
  nodup := by
    intro j
    by_cases hj : j = i
    · subst hj
      simpa using hnodup
    · rw [Function.update_of_ne hj]
      exact h.nodup j
  disjoint := by
    intro j j' hne k hk hk'
    by_cases hj : j = i
    · subst hj
      rw [Function.update_self] at hk
      rw [Function.update_of_ne hne.symm] at hk'
      exact hfree k hk j' hne.symm hk'
    · rw [Function.update_of_ne hj] at hk
      by_cases hj' : j' = i
      · subst hj'
        rw [Function.update_self] at hk'
        exact hfree k hk' j hj hk
      · rw [Function.update_of_ne hj'] at hk'
        exact h.disjoint j j' hne hk hk'

/-- Two owners exchange keys and take new ones that no other owner holds. -/
theorem exchange (h : Exclusive owned) {i j : ι} (hij : i ≠ j) {xs ys : List κ}
    (hnodup : (xs ++ ys).Nodup)
    (hfree : ∀ k ∈ xs ++ ys, ∀ o, o ≠ i → o ≠ j → k ∉ owned o) :
    Exclusive (Function.update (Function.update owned i xs) j ys) := by
  obtain ⟨hxs, hys, hapart⟩ := List.nodup_append.1 hnodup
  -- `j` gives up its keys first, so that `i` can take from them
  have hgive : Exclusive (Function.update owned j []) := h.update List.nodup_nil (by simp)
  have htake : Exclusive (Function.update (Function.update owned j []) i xs) := by
    refine hgive.update hxs fun k hk o ho => ?_
    by_cases hoj : o = j
    · subst hoj
      simp
    · rw [Function.update_of_ne hoj]
      exact hfree k (List.mem_append_left _ hk) o ho hoj
  have hlast : Exclusive
      (Function.update (Function.update (Function.update owned j []) i xs) j ys) := by
    refine htake.update hys fun k hk o ho => ?_
    by_cases hoi : o = i
    · subst hoi
      rw [Function.update_self]
      exact fun hin => hapart k hin k hk rfl
    · rw [Function.update_of_ne hoi, Function.update_of_ne ho]
      exact hfree k (List.mem_append_right _ hk) o hoi ho
  rwa [Function.update_comm hij, Function.update_idem, Function.update_comm hij.symm] at hlast

/-- Two owners exchange keys among themselves. -/
theorem trade (h : Exclusive owned) {i j : ι} (hij : i ≠ j) {owned' : ι → List κ}
    (hrest : ∀ o, o ≠ i → o ≠ j → owned' o = owned o)
    (hperm : (owned' i ++ owned' j).Perm (owned i ++ owned j)) : Exclusive owned' := by
  have hnodup : (owned i ++ owned j).Nodup :=
    (h.nodup i).append (h.nodup j) (h.disjoint i j hij)
  have hexchange :
      Exclusive (Function.update (Function.update owned i (owned' i)) j (owned' j)) := by
    refine h.exchange hij (hperm.nodup_iff.2 hnodup) fun k hk o hoi hoj hin => ?_
    rcases List.mem_append.1 (hperm.mem_iff.1 hk) with hk | hk
    · exact h.disjoint o i hoi hin hk
    · exact h.disjoint o j hoj hin hk
  have heq : owned' = Function.update (Function.update owned i (owned' i)) j (owned' j) := by
    funext o
    by_cases hoj : o = j
    · rw [hoj, Function.update_self]
    · rw [Function.update_of_ne hoj]
      by_cases hoi : o = i
      · rw [hoi, Function.update_self]
      · rw [Function.update_of_ne hoi, hrest o hoi hoj]
  rwa [← heq] at hexchange

end Exclusive

/-- An exchange among two owners changes nothing about which keys are owned. -/
theorem exists_owner_trade {owned owned' : ι → List κ} {i j : ι}
    (hrest : ∀ o, o ≠ i → o ≠ j → owned' o = owned o)
    (hperm : (owned' i ++ owned' j).Perm (owned i ++ owned j)) (k : κ) :
    (∃ o, k ∈ owned' o) ↔ ∃ o, k ∈ owned o := by
  have hpair : (k ∈ owned' i ∨ k ∈ owned' j) ↔ k ∈ owned i ∨ k ∈ owned j := by
    simpa only [List.mem_append] using hperm.mem_iff (a := k)
  -- an owner in the pair may change, any other stays
  have hmove : ∀ {f g : ι → List κ}, (∀ o, o ≠ i → o ≠ j → g o = f o) →
      (k ∈ f i ∨ k ∈ f j → k ∈ g i ∨ k ∈ g j) → (∃ o, k ∈ f o) → ∃ o, k ∈ g o := by
    rintro f g hsame hpair ⟨o, ho⟩
    by_cases hoi : o = i
    · exact (hpair (.inl (hoi ▸ ho))).elim (fun h => ⟨i, h⟩) fun h => ⟨j, h⟩
    · by_cases hoj : o = j
      · exact (hpair (.inr (hoj ▸ ho))).elim (fun h => ⟨i, h⟩) fun h => ⟨j, h⟩
      · exact ⟨o, by rwa [hsame o hoi hoj]⟩
  exact ⟨hmove (fun o hi hj => (hrest o hi hj).symm) hpair.1, hmove hrest hpair.2⟩
