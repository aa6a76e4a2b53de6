import Mathlib.Tactic.Common

/-! # Searching a text

A pattern is tried at each position of a text from left to right, and the first
position at which it matches gives the result. At a position the pattern sees
what stands before it, at most one character, and the text from there on.
-/

universe u v

namespace Search

variable {α : Type u} {β : Type v}

/-- The first match, with the character that stands before the text. -/
def searchFrom (matchAt : Option α → List α → Option β) : Option α → List α → Option β
  | before, [] => matchAt before []
  | before, c :: rest => (matchAt before (c :: rest)).or (searchFrom matchAt (some c) rest)

/-- The first match in a text. -/
def search (matchAt : Option α → List α → Option β) (s : List α) : Option β :=
  searchFrom matchAt none s

variable {matchAt : Option α → List α → Option β} {s : List α} {x : β}

theorem searchFrom_eq_none (l : List α) : searchFrom matchAt l.getLast? s = none ↔
    ∀ a b, s = a ++ b → matchAt (l ++ a).getLast? b = none := by
  induction s generalizing l with
  | nil =>
      constructor
      · intro h a b heq
        obtain ⟨rfl, rfl⟩ := List.append_eq_nil_iff.1 heq.symm
        rwa [List.append_nil]
      · intro h
        have hnil := h [] [] rfl
        rwa [List.append_nil] at hnil
  | cons c rest ih =>
      have hrest := ih (l ++ [c])
      rw [List.getLast?_concat] at hrest
      rw [searchFrom, Option.or_eq_none_iff, hrest]
      constructor
      · rintro ⟨hhere, hlater⟩ a b heq
        cases a with
        | nil =>
            rw [List.append_nil, ← show c :: rest = b from heq]
            exact hhere
        | cons d a =>
            obtain ⟨rfl, hsplit⟩ := List.cons.inj heq
            have hmatch := hlater a b hsplit
            rwa [List.append_assoc, List.singleton_append] at hmatch
      · intro h
        constructor
        · have hnil := h [] (c :: rest) rfl
          rwa [List.append_nil] at hnil
        · intro a b heq
          rw [List.append_assoc, List.singleton_append]
          exact h (c :: a) b (by rw [heq]; rfl)

/-- Nothing is found if and only if the pattern matches nowhere. -/
theorem search_eq_none : search matchAt s = none ↔ ∀ a b, s = a ++ b → matchAt a.getLast? b = none :=
  searchFrom_eq_none []

theorem searchFrom_eq_some (l : List α) (h : searchFrom matchAt l.getLast? s = some x) :
    ∃ a b, s = a ++ b ∧ matchAt (l ++ a).getLast? b = some x ∧
      ∀ a' b', s = a' ++ b' → matchAt (l ++ a').getLast? b' ≠ none → a.length ≤ a'.length := by
  induction s generalizing l with
  | nil =>
      refine ⟨[], [], rfl, by rw [List.append_nil]; exact h, ?_⟩
      intro a' b' _ _
      exact Nat.zero_le _
  | cons c rest ih =>
      rw [searchFrom, Option.or_eq_some_iff] at h
      rcases h with hhere | ⟨hnone, hlater⟩
      · refine ⟨[], c :: rest, rfl, by rw [List.append_nil]; exact hhere, ?_⟩
        intro a' b' _ _
        exact Nat.zero_le _
      · rw [← List.getLast?_concat (l := l)] at hlater
        obtain ⟨a, b, rfl, hmatch, hfirst⟩ := ih (l ++ [c]) hlater
        rw [List.append_assoc, List.singleton_append] at hmatch
        refine ⟨c :: a, b, rfl, hmatch, ?_⟩
        intro a' b' heq hne
        cases a' with
        | nil =>
            rw [List.append_nil, ← show c :: (a ++ b) = b' from heq] at hne
            exact absurd hnone hne
        | cons d a' =>
            obtain ⟨rfl, hsplit⟩ := List.cons.inj heq
            have hle := hfirst a' b' hsplit (by rwa [List.append_assoc, List.singleton_append])
            simp only [List.length_cons]
            omega

/-- What is found is a match, and there is none before it. -/
theorem search_eq_some (h : search matchAt s = some x) :
    ∃ a b, s = a ++ b ∧ matchAt a.getLast? b = some x ∧
      ∀ a' b', s = a' ++ b' → matchAt a'.getLast? b' ≠ none → a.length ≤ a'.length :=
  searchFrom_eq_some [] h

end Search
