import Mathlib.Data.List.Chain
import Mathlib.Tactic.Common

/-! # Loops that remove elements from the list they iterate over

A loop over a list keeps an index. If its body removes the element at the index,
the next element moves to this place, the index moves on, and the loop does not see
that element. So the loop finds all elements of a kind if and only if no two of them
are neighbours.
-/

universe u

namespace SkippingLoop

variable {α : Type u} (p : α → Bool)

/-- The elements that the loop removes: those that satisfy `p` and that it sees. The
flag says that the next element is skipped. -/
def removed : Bool → List α → List α
  | _, [] => []
  | true, _ :: l => removed false l
  | false, a :: l => if p a then a :: removed true l else removed false l

/-- The elements that the loop leaves in the list. -/
def left : Bool → List α → List α
  | _, [] => []
  | true, a :: l => a :: left false l
  | false, a :: l => if p a then left true l else a :: left false l

/-- No two neighbours satisfy `p`. -/
def Apart (l : List α) : Prop := l.IsChain fun a b => ¬ (p a = true ∧ p b = true)

instance instDecidableApart (l : List α) : Decidable (Apart p l) :=
  inferInstanceAs (Decidable (l.IsChain _))

variable {p} {skip : Bool} {a : α} {l : List α}

/-- What is removed satisfies `p`. -/
theorem removed_sublist : (removed p skip l).Sublist (l.filter p) := by
  induction l generalizing skip with
  | nil => cases skip <;> exact .slnil
  | cons a l ih =>
      by_cases ha : p a = true
      · rw [List.filter_cons_of_pos ha]
        cases skip with
        | true => exact ih.cons a
        | false =>
            rw [removed, if_pos ha]
            exact ih.cons_cons a
      · rw [List.filter_cons_of_neg ha]
        cases skip with
        | true => exact ih
        | false =>
            rw [removed, if_neg ha]
            exact ih

/-- Everything is found if and only if there are no neighbours, and the element that is
skipped is none of those that are looked for. -/
theorem removed_eq_filter_iff : removed p skip l = l.filter p ↔
    Apart p l ∧ (skip = true → ∀ a ∈ l.head?, p a = false) := by
  induction l generalizing skip with
  | nil => cases skip <;> simp [removed, Apart]
  | cons a l ih =>
      have hapart : Apart p (a :: l) ↔ (p a = true → ∀ b ∈ l.head?, p b = false) ∧ Apart p l := by
        rw [Apart, List.isChain_cons]
        refine and_congr_left fun _ => ?_
        by_cases ha : p a = true <;> simp [ha]
      by_cases ha : p a = true
      · rw [List.filter_cons_of_pos ha, hapart]
        cases skip with
        | true =>
            refine iff_of_false (fun h => ?_) fun h => ?_
            · have hlength : (removed p false l).length ≤ (l.filter p).length := removed_sublist.length_le
              have hcons := congrArg List.length h
              rw [List.length_cons, removed] at hcons
              omega
            · have hhead := h.2 rfl a rfl
              rw [ha] at hhead
              cases hhead
        | false =>
            rw [removed, if_pos ha, List.cons.injEq, ih]
            simp [ha, and_comm]
      · rw [List.filter_cons_of_neg ha, hapart]
        cases skip with
        | true =>
            rw [removed, ih]
            simp [ha]
        | false =>
            rw [removed, if_neg ha, ih]
            simp [ha]

/-- If everything is found, the others are left. -/
theorem left_eq_filter (h : Apart p l) (hskip : skip = true → ∀ a ∈ l.head?, p a = false) :
    left p skip l = l.filter fun a => !p a := by
  induction l generalizing skip with
  | nil => cases skip <;> rfl
  | cons a l ih =>
      rw [Apart, List.isChain_cons] at h
      cases skip with
      | true =>
          have ha : p a = false := hskip rfl a rfl
          rw [left, List.filter_cons_of_pos (by simp [ha]), ih h.2 (fun hfalse => by cases hfalse)]
      | false =>
          by_cases ha : p a = true
          · rw [left, if_pos ha, List.filter_cons_of_neg (by simp [ha]), ih h.2]
            exact fun _ b hb => Bool.eq_false_iff.2 fun hpb => h.1 b hb ⟨ha, hpb⟩
          · rw [left, if_neg ha, List.filter_cons_of_pos (by simp [ha]),
              ih h.2 (fun hfalse => by cases hfalse)]

end SkippingLoop
