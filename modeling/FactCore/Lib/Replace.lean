import Mathlib.Data.List.Infix
import Mathlib.Tactic.Common

/-! # Replacing the occurrences of a text

All occurrences of a text are replaced from left to right, and a replacement is not
searched again. A character that is not in the text separates what is replaced
before it from what is replaced after it.
-/

universe u

namespace Replace

variable {α : Type u} [DecidableEq α]

/-- Replace the occurrences after some characters were skipped. -/
def replaceFrom (old new : List α) : Nat → List α → List α
  | _, [] => []
  | skip + 1, _ :: t => replaceFrom old new skip t
  | 0, c :: t =>
      if old <+: c :: t then new ++ replaceFrom old new (old.length - 1) t
      else c :: replaceFrom old new 0 t

/-- Replace all occurrences of a text. -/
def replaceAll (old new t : List α) : List α := replaceFrom old new 0 t

variable {old new a b t target : List α} {sep : α}

/-! ## One occurrence -/

theorem replaceFrom_skip (l t : List α) :
    replaceFrom old new l.length (l ++ t) = replaceAll old new t := by
  induction l with
  | nil => cases t <;> rfl
  | cons c l ih => exact ih

theorem replaceAll_occurrence (hne : old ≠ []) (t : List α) :
    replaceAll old new (old ++ t) = new ++ replaceAll old new t := by
  cases old with
  | nil => exact absurd rfl hne
  | cons c old =>
      have hstarts : c :: old <+: c :: (old ++ t) := List.prefix_append (c :: old) t
      show replaceFrom (c :: old) new 0 (c :: (old ++ t)) = _
      rw [replaceFrom, if_pos hstarts]
      congr 1
      exact replaceFrom_skip old t

theorem replaceAll_cons {c : α} (h : ¬old <+: c :: t) :
    replaceAll old new (c :: t) = c :: replaceAll old new t := by
  rw [replaceAll, replaceFrom, if_neg h, replaceAll]

/-- The text does not occur, or else there is a first replacement. -/
theorem replaceAll_first (hne : old ≠ []) (new t : List α) : ¬old <:+: t ∧ replaceAll old new t = t ∨
    ∃ p x, t = p ++ old ++ x ∧ replaceAll old new t = p ++ new ++ replaceAll old new x := by
  induction t with
  | nil => exact Or.inl ⟨fun h => hne (List.infix_nil.1 h), rfl⟩
  | cons c t ih =>
      by_cases hstarts : old <+: c :: t
      · obtain ⟨x, hx⟩ := hstarts
        right
        refine ⟨[], x, hx.symm, ?_⟩
        rw [← hx, replaceAll_occurrence hne, List.nil_append]
      · rw [replaceAll_cons hstarts]
        rcases ih with ⟨hoccurs, heq⟩ | ⟨p, x, rfl, heq⟩
        · left
          refine ⟨fun h => ?_, by rw [heq]⟩
          rcases List.infix_cons_iff.1 h with h | h
          · exact hstarts h
          · exact hoccurs h
        · exact Or.inr ⟨c :: p, x, rfl, by rw [heq]; rfl⟩

theorem replaceAll_of_absent (hne : old ≠ []) (h : ¬old <:+: t) : replaceAll old new t = t := by
  rcases replaceAll_first hne new t with ⟨-, heq⟩ | ⟨p, x, heq, -⟩
  · exact heq
  · exact absurd ⟨p, x, heq.symm⟩ h

/-! ## Separators -/

omit [DecidableEq α] in
/-- What starts before a separator ends before it. -/
theorem prefix_of_prefix_append_sep (hsep : sep ∉ old) (h : old <+: a ++ sep :: b) : old <+: a := by
  rcases List.prefix_or_prefix_of_prefix h (List.prefix_append a (sep :: b)) with hold | hold
  · exact hold
  · obtain ⟨r, rfl⟩ := hold
    cases r with
    | nil => rw [List.append_nil]
    | cons c r =>
        have hr := (List.prefix_append_right_inj a).1 h
        obtain rfl : c = sep := (List.cons_prefix_cons.1 hr).1
        exact absurd (List.mem_append_right a List.mem_cons_self) hsep

omit [DecidableEq α] in
/-- What stands before the first separator is determined by the text. -/
theorem append_sep_inj {a' b' : List α} (ha : sep ∉ a) (ha' : sep ∉ a')
    (h : a ++ sep :: b = a' ++ sep :: b') : a = a' ∧ b = b' := by
  induction a generalizing a' with
  | nil =>
      cases a' with
      | nil => exact ⟨rfl, (List.cons.inj h).2⟩
      | cons c a' =>
          obtain rfl : sep = c := (List.cons.inj h).1
          exact absurd List.mem_cons_self ha'
  | cons c a ih =>
      cases a' with
      | nil =>
          obtain rfl : c = sep := (List.cons.inj h).1
          exact absurd List.mem_cons_self ha
      | cons c' a' =>
          obtain ⟨hc, hrest⟩ := List.cons.inj h
          obtain ⟨heq, hb⟩ := ih (fun hm => ha (List.mem_cons_of_mem _ hm))
            (fun hm => ha' (List.mem_cons_of_mem _ hm)) hrest
          exact ⟨by rw [hc, heq], hb⟩

theorem replaceAll_append_sep (hne : old ≠ []) (hsep : sep ∉ old) (a b : List α) :
    replaceAll old new (a ++ sep :: b) = replaceAll old new a ++ sep :: replaceAll old new b := by
  -- an occurrence at the beginning of the text makes it shorter by more than one character
  induction hlen : a.length using Nat.strong_induction_on generalizing a with
  | _ n ih =>
      cases a with
      | nil =>
          have hstarts : ¬old <+: sep :: b := by
            intro h
            have hnil := prefix_of_prefix_append_sep (a := []) hsep h
            exact hne (List.prefix_nil.1 hnil)
          rw [List.nil_append, replaceAll_cons hstarts]
          rfl
      | cons c a =>
          by_cases hstarts : old <+: c :: a
          · obtain ⟨r, hr⟩ := hstarts
            have hpos := List.length_pos_iff.2 hne
            have hrlen : r.length < n := by
              have hsum := congrArg List.length hr
              rw [List.length_append] at hsum
              omega
            rw [← hr, List.append_assoc, replaceAll_occurrence hne, replaceAll_occurrence hne,
              ih r.length hrlen r rfl, List.append_assoc]
          · have hstarts' : ¬old <+: c :: (a ++ sep :: b) :=
              fun h => hstarts (prefix_of_prefix_append_sep (a := c :: a) hsep h)
            have halen : a.length < n := by
              rw [← hlen, List.length_cons]
              omega
            rw [List.cons_append, replaceAll_cons hstarts', replaceAll_cons hstarts,
              ih a.length halen a rfl, List.cons_append]

/-- A piece without occurrences before a separator stays as it is. -/
theorem replaceAll_append_sep_of_absent (hne : old ≠ []) (hsep : sep ∉ old) (ha : ¬old <:+: a)
    (b : List α) : replaceAll old new (a ++ sep :: b) = a ++ sep :: replaceAll old new b := by
  rw [replaceAll_append_sep hne hsep, replaceAll_of_absent hne ha]

/-! ## Texts that begin to differ with a separator -/

/-- A text begins to differ from another one with a separator. -/
def Diverges (sep : α) (t target : List α) : Prop :=
  ∃ p x c y, t = p ++ sep :: x ∧ target = p ++ c :: y ∧ c ≠ sep

omit [DecidableEq α] in
theorem Diverges.append_ne (h : Diverges sep t target) (r s : List α) : t ++ r ≠ target ++ s := by
  obtain ⟨p, x, c, y, rfl, rfl, hc⟩ := h
  intro heq
  rw [List.append_assoc, List.append_assoc] at heq
  exact hc (List.cons.inj (List.append_cancel_left heq)).1.symm

omit [DecidableEq α] in
theorem Diverges.ne (h : Diverges sep t target) : t ≠ target := by
  intro heq
  apply h.append_ne [] []
  rw [heq]

/-- A replacement that begins with a separator lets the text diverge. -/
theorem replaceAll_cases (hne : old ≠ []) (hsep : sep ∉ old) (new t : List α) :
    ¬old <:+: t ∧ replaceAll old (sep :: new) t = t ∨ Diverges sep (replaceAll old (sep :: new) t) t := by
  rcases replaceAll_first hne (sep :: new) t with heq | ⟨p, x, ht, heq⟩
  · exact Or.inl heq
  · right
    cases old with
    | nil => exact absurd rfl hne
    | cons c old =>
        refine ⟨p, new ++ replaceAll (c :: old) (sep :: new) x, c, old ++ x, ?_, ?_, ?_⟩
        · rw [heq, List.append_assoc, List.cons_append]
        · rw [ht, List.append_assoc, List.cons_append]
        · rintro rfl
          exact hsep List.mem_cons_self

/-- Replacing does not undo a divergence. -/
theorem Diverges.replaceAll (h : Diverges sep t target) (hne : old ≠ []) (hsep : sep ∉ old)
    (new : List α) : Diverges sep (replaceAll old (sep :: new) t) target := by
  obtain ⟨p, x, c, y, rfl, rfl, hc⟩ := h
  rw [replaceAll_append_sep hne hsep]
  rcases replaceAll_cases hne hsep new p with ⟨-, heq⟩ | ⟨q, x', c', y', heq, hp, hc'⟩
  · rw [heq]
    exact ⟨p, _, c, y, rfl, rfl, hc⟩
  · refine ⟨q, x' ++ sep :: Replace.replaceAll old (sep :: new) x, c', y' ++ c :: y, ?_, ?_, hc'⟩
    · rw [heq, List.append_assoc, List.cons_append]
    · rw [hp, List.append_assoc, List.cons_append]

theorem replaceAll_eq_self_iff (hne : old ≠ []) (hsep : sep ∉ old) (new t : List α) :
    Replace.replaceAll old (sep :: new) t = t ↔ ¬old <:+: t := by
  constructor
  · intro heq
    rcases replaceAll_cases hne hsep new t with ⟨h, -⟩ | h
    · exact h
    · exact absurd heq h.ne
  · exact replaceAll_of_absent hne

end Replace
