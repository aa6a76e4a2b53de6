import Mathlib.Data.List.FinRange
import Mathlib.Data.List.Sort
import Mathlib.Order.Basic

/-! # Sorting with a comparison that may fail

A sorting algorithm asks which of two positions holds the less element and decides by
the answers what to ask next, so it is a tree. Nothing is assumed about its shape but
that it sorts for every linear order. If a comparison fails, the sort fails.

When the comparison is undefined for some pairs, the sort may still avoid them. The
rule `not_reversed_of_sorted` says when it cannot: if two orders agree with the
comparison wherever it is defined, then a sort that returns has put the elements into
the order of both of them.
-/

universe u v

namespace ComparisonSort

variable {n : ℕ} {ε : Type u} {α : Type v} {β : Type}

/-- The questions of an algorithm about `n` positions, and the order that it returns. -/
inductive Tree (n : ℕ) where
  | done (order : List (Fin n))
  | ask (i j : Fin n) (less notLess : Tree n)

namespace Tree

/-- The answers come from a comparison that may fail. -/
def run (lt : Fin n → Fin n → Except ε Bool) : Tree n → Except ε (List (Fin n))
  | done order => .ok order
  | ask i j less notLess =>
      match lt i j with
      | .error e => .error e
      | .ok true => run lt less
      | .ok false => run lt notLess

/-- The answers come from a comparison that does not fail. -/
def outcome (lt : Fin n → Fin n → Bool) : Tree n → List (Fin n)
  | done order => order
  | ask i j less notLess => if lt i j then outcome lt less else outcome lt notLess

/-- The algorithm sorts for every linear order. -/
def Sorts (t : Tree n) : Prop :=
  ∀ (β : Type) [LinearOrder β] (rank : Fin n → β),
    (t.outcome fun i j => rank i < rank j).Perm (List.finRange n) ∧
      (t.outcome fun i j => rank i < rank j).Pairwise fun i j => rank i ≤ rank j

variable {lt : Fin n → Fin n → Except ε Bool} {lt' : Fin n → Fin n → Bool} {t : Tree n} {order : List (Fin n)}

/-- A run that returns takes the way of every comparison that agrees with its answers. -/
theorem outcome_of_run (h : t.run lt = .ok order) (hagree : ∀ i j x, lt i j = .ok x → x = lt' i j) :
    t.outcome lt' = order := by
  induction t with
  | done order' => exact Except.ok.inj h
  | ask i j less notLess ihLess ihNotLess =>
      cases hanswer : lt i j with
      | error e =>
          rw [run, hanswer] at h
          cases h
      | ok x =>
          have hx := hagree i j x hanswer
          cases x with
          | true =>
              rw [run, hanswer] at h
              rw [outcome, if_pos hx.symm]
              exact ihLess h
          | false =>
              rw [run, hanswer] at h
              rw [outcome, if_neg (by rw [← hx]; exact Bool.false_ne_true)]
              exact ihNotLess h

theorem exists_run (h : ∀ i j, ∃ x, lt i j = .ok x) : ∃ order, t.run lt = .ok order := by
  induction t with
  | done order => exact ⟨order, rfl⟩
  | ask i j less notLess ihLess ihNotLess =>
      rcases h i j with ⟨x, hx⟩
      cases x with
      | true => exact ihLess.imp fun _ h => by rw [run, hx]; exact h
      | false => exact ihNotLess.imp fun _ h => by rw [run, hx]; exact h

end Tree

end ComparisonSort

/-- A sorting algorithm for lists of every length. -/
structure ComparisonSort where
  tree : (n : ℕ) → ComparisonSort.Tree n
  sorts : ∀ n, (tree n).Sorts

namespace ComparisonSort

variable (s : ComparisonSort) {ε : Type u} {α : Type v} {β γ : Type} [LinearOrder β] [LinearOrder γ]

/-- Sort a list. -/
def sorted (lt : α → α → Except ε Bool) (l : List α) : Except ε (List α) :=
  ((s.tree l.length).run fun i j => lt (l.get i) (l.get j)).map fun order => order.map l.get

variable {s} {lt : α → α → Except ε Bool} {l r : List α} {key : α → β} {key' : α → γ}

/-- The order agrees with the comparison on the list, wherever that is defined. -/
def Agrees (lt : α → α → Except ε Bool) (l : List α) (key : α → β) : Prop :=
  ∀ a ∈ l, ∀ b ∈ l, ∀ x, lt a b = .ok x → x = decide (key a < key b)

/-- A sort that returns has sorted by every order that agrees with the comparison. -/
theorem perm_and_pairwise_of_sorted (h : s.sorted lt l = .ok r) (hagree : Agrees lt l key) :
    r.Perm l ∧ r.Pairwise fun a b => key a ≤ key b := by
  unfold sorted at h
  cases hrun : (s.tree l.length).run fun i j => lt (l.get i) (l.get j) with
  | error e =>
      rw [hrun] at h
      cases h
  | ok order =>
      rw [hrun] at h
      obtain rfl := Except.ok.inj h
      have houtcome : (s.tree l.length).outcome (fun i j => decide (key (l.get i) < key (l.get j))) = order :=
        Tree.outcome_of_run hrun fun i j => hagree _ (l.get_mem i) _ (l.get_mem j)
      have hsorts := s.sorts l.length β fun i => key (l.get i)
      rw [houtcome] at hsorts
      constructor
      · have hperm := hsorts.1.map l.get
        rwa [List.map_get_finRange] at hperm
      · exact List.pairwise_map.2 hsorts.2

theorem exists_sorted (h : ∀ a ∈ l, ∀ b ∈ l, ∃ x, lt a b = .ok x) : ∃ r, s.sorted lt l = .ok r := by
  have hrun : ∃ order, (s.tree l.length).run (fun i j => lt (l.get i) (l.get j)) = .ok order :=
    Tree.exists_run fun i j => h _ (l.get_mem i) _ (l.get_mem j)
  rcases hrun with ⟨order, horder⟩
  exact ⟨order.map l.get, by rw [sorted, horder]; rfl⟩

/-- If the sort returns, then no two orders that agree with the comparison have two
elements of the list the other way round. -/
theorem not_reversed_of_sorted (h : s.sorted lt l = .ok r) (hagree : Agrees lt l key)
    (hagree' : Agrees lt l key') {a b : α} (ha : a ∈ l) (hb : b ∈ l) (hlt : key a < key b) :
    ¬ key' b < key' a := by
  rcases perm_and_pairwise_of_sorted h hagree with ⟨hperm, hsorted⟩
  have hsorted' := (perm_and_pairwise_of_sorted h hagree').2
  -- in the result, both orders agree on any two elements, whichever comes first
  have hboth : r.Pairwise fun a b => (key a ≤ key b ∧ key' a ≤ key' b) ∨ (key b ≤ key a ∧ key' b ≤ key' a) :=
    (hsorted.and hsorted').imp fun hab => .inl hab
  have hall := hboth.forall_of_forall_of_flip (fun _ _ => .inl ⟨le_rfl, le_rfl⟩) (hboth.imp Or.symm)
  rcases hall (hperm.mem_iff.2 ha) (hperm.mem_iff.2 hb) with hab | hba
  · exact not_lt.2 hab.2
  · exact absurd hlt (not_lt.2 hba.1)

/-! ## Insertion -/

variable {n : ℕ}

/-- Insert a position into a sorted list of positions, and go on. -/
def insertTree (i : Fin n) : List (Fin n) → (List (Fin n) → Tree n) → Tree n
  | [], next => next [i]
  | j :: js, next => .ask i j (next (i :: j :: js)) (insertTree i js fun order => next (j :: order))

/-- Insert one position after the other. -/
def insertAll : List (Fin n) → List (Fin n) → Tree n
  | [], order => .done order
  | i :: is, order => insertTree i order (insertAll is)

theorem outcome_insertTree (lt : Fin n → Fin n → Bool) (i : Fin n) (js : List (Fin n))
    (next : List (Fin n) → Tree n) : (insertTree i js next).outcome lt =
      (next (js.orderedInsert (fun i j => lt i j = true) i)).outcome lt := by
  induction js generalizing next with
  | nil => rfl
  | cons j js ih =>
      rw [insertTree, Tree.outcome, List.orderedInsert_cons, ih]
      split <;> rfl

theorem pairwise_orderedInsert {rank : Fin n → β} {i : Fin n} {order : List (Fin n)}
    (h : order.Pairwise fun i j => rank i ≤ rank j) :
    (order.orderedInsert (fun i j => decide (rank i < rank j) = true) i).Pairwise
      fun i j => rank i ≤ rank j := by
  induction order with
  | nil => exact List.pairwise_singleton _ _
  | cons j js ih =>
      rw [List.pairwise_cons] at h
      rw [List.orderedInsert_cons]
      split
      next hlt =>
        have hle : rank i ≤ rank j := (of_decide_eq_true hlt).le
        refine List.pairwise_cons.2 ⟨fun k hk => ?_, List.pairwise_cons.2 h⟩
        rcases List.mem_cons.1 hk with rfl | hk
        · exact hle
        · exact hle.trans (h.1 k hk)
      next hnot =>
        -- the position goes behind the first one, and that stays the least
        have hle : rank j ≤ rank i := not_lt.1 fun hlt => hnot (decide_eq_true hlt)
        refine List.pairwise_cons.2 ⟨fun k hk => ?_, ih h.2⟩
        rcases (List.mem_orderedInsert _).1 hk with rfl | hk
        · exact hle
        · exact h.1 k hk

theorem outcome_insertAll (rank : Fin n → β) (is order : List (Fin n))
    (h : order.Pairwise fun i j => rank i ≤ rank j) :
    ((insertAll is order).outcome fun i j => rank i < rank j).Perm (is ++ order) ∧
      ((insertAll is order).outcome fun i j => rank i < rank j).Pairwise fun i j => rank i ≤ rank j := by
  induction is generalizing order with
  | nil => exact ⟨.refl _, h⟩
  | cons i is ih =>
      rw [insertAll, outcome_insertTree]
      rcases ih _ (pairwise_orderedInsert (i := i) h) with ⟨hperm, hsorted⟩
      refine ⟨hperm.trans ?_, hsorted⟩
      exact ((List.perm_orderedInsert _ i order).append_left is).trans List.perm_middle

/-- Sorting by insertion. -/
def insertionSort : ComparisonSort where
  tree := fun n => insertAll (List.finRange n) []
  sorts := fun n _ _ rank => by
    have h := outcome_insertAll rank (List.finRange n) [] List.Pairwise.nil
    rwa [List.append_nil] at h

end ComparisonSort
