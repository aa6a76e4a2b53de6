import Mathlib.Data.List.Basic
import Mathlib.Tactic.Common

/-! # Guarded machines, runs and invariants

A machine has initial states and one executable partial step for each label:
`step a s = none` says that the action `a` is not enabled in `s`. A run is a
list of labels. Since any enabled label may come next, the runs of a machine
whose labels name the steps of several processes are the interleavings of
these processes.

Runs are relativised to a *step condition* `ok`, a relation between the state
before a step and its label: `Steps ok` only takes steps that meet it. The
unrestricted runs are those under `anyStep`.
-/

universe u v w x

namespace Tla

/-- A guarded machine over states `σ` with labels `α`. -/
structure Machine (σ : Type u) (α : Type v) where
  Init : σ → Prop
  step : α → σ → Option σ

namespace Machine

variable {σ : Type u} {α : Type v} (M : Machine σ α)

/-- The step condition that every step meets. -/
def anyStep : σ → α → Prop := fun _ _ => True

instance (s : σ) (a : α) : Decidable (anyStep s a) := inferInstanceAs (Decidable True)

/-! ## Runs -/

/-- `M.Steps ok s as s'`: the labels `as` lead from `s` to `s'` by steps that
all meet `ok`. -/
inductive Steps (ok : σ → α → Prop) : σ → List α → σ → Prop
  | nil (s : σ) : Steps ok s [] s
  | snoc {s s' s'' : σ} {as : List α} {a : α} (h : Steps ok s as s') (hok : ok s' a)
      (hstep : M.step a s' = some s'') : Steps ok s (as ++ [a]) s''

/-- The states that runs from an initial state reach by steps meeting `ok`. -/
def Reach (ok : σ → α → Prop) (s : σ) : Prop :=
  ∃ s₀ as, M.Init s₀ ∧ M.Steps ok s₀ as s

/-- Execute a list of labels; `none` if one is not enabled or not allowed. -/
def run (ok : σ → α → Prop) [∀ s a, Decidable (ok s a)] : List α → σ → Option σ
  | [], s => some s
  | a :: as, s => if ok s a then (M.step a s).bind (run ok as) else none

variable {M} {ok : σ → α → Prop}

theorem Steps.cons {s s' s'' : σ} {a : α} {as : List α} (hok : ok s a)
    (hstep : M.step a s = some s') (h : M.Steps ok s' as s'') : M.Steps ok s (a :: as) s'' := by
  induction h with
  | nil => exact Steps.snoc (Steps.nil s) hok hstep
  | snoc _ hok' hstep' ih =>
      rw [← List.cons_append]
      exact Steps.snoc ih hok' hstep'

theorem Steps.append {s s' s'' : σ} {as bs : List α} (h : M.Steps ok s as s')
    (h' : M.Steps ok s' bs s'') : M.Steps ok s (as ++ bs) s'' := by
  induction h' with
  | nil => simpa using h
  | snoc _ hok hstep ih =>
      rw [← List.append_assoc]
      exact Steps.snoc ih hok hstep

/-- A weaker condition allows more runs. -/
theorem Steps.mono {ok' : σ → α → Prop} (hok : ∀ s a, ok s a → ok' s a) {s s' : σ} {as : List α}
    (h : M.Steps ok s as s') : M.Steps ok' s as s' := by
  induction h with
  | nil => exact Steps.nil _
  | snoc _ ho hstep ih => exact Steps.snoc ih (hok _ _ ho) hstep

theorem Steps.single {s s' : σ} {a : α} (hok : ok s a) (hstep : M.step a s = some s') :
    M.Steps ok s [a] s' :=
  Steps.cons hok hstep (Steps.nil s')

/-- An execution is a run. -/
theorem steps_of_run [∀ s a, Decidable (ok s a)] {as : List α} {s s' : σ}
    (h : M.run ok as s = some s') : M.Steps ok s as s' := by
  induction as generalizing s with
  | nil =>
      obtain rfl : s = s' := by simpa [run] using h
      exact Steps.nil s
  | cons a as ih =>
      by_cases hok : ok s a
      · rw [run, if_pos hok] at h
        obtain ⟨t, ht, hrun⟩ := Option.bind_eq_some_iff.1 h
        exact Steps.cons hok ht (ih hrun)
      · simp [run, hok] at h

theorem reach_of_run [∀ s a, Decidable (ok s a)] {s₀ s : σ} (hinit : M.Init s₀) {as : List α}
    (h : M.run ok as s₀ = some s) : M.Reach ok s :=
  ⟨s₀, as, hinit, steps_of_run h⟩

/-- The state at the end of an execution that goes through. -/
theorem reach_get [∀ s a, Decidable (ok s a)] {s₀ : σ} (hinit : M.Init s₀) {as : List α}
    (h : (M.run ok as s₀).isSome = true) : M.Reach ok ((M.run ok as s₀).get h) :=
  reach_of_run hinit (Option.some_get h).symm

/-- An execution that ends as it should leads to such a state. -/
theorem exists_reach [∀ s a, Decidable (ok s a)] {s₀ : σ} (hinit : M.Init s₀) (as : List α)
    {P : σ → Prop} [DecidablePred P] (h : (M.run ok as s₀).any (fun s => decide (P s)) = true) :
    ∃ s, M.Reach ok s ∧ P s := by
  rcases (Option.any_eq_true _ _).1 h with ⟨s, hrun, hs⟩
  exact ⟨s, reach_of_run hinit hrun, of_decide_eq_true hs⟩

theorem Reach.steps {s s' : σ} {as : List α} (h : M.Reach ok s) (hs : M.Steps ok s as s') :
    M.Reach ok s' := by
  obtain ⟨s₀, bs, hinit, h₀⟩ := h
  exact ⟨s₀, bs ++ as, hinit, h₀.append hs⟩

theorem Reach.step {s s' : σ} {a : α} (h : M.Reach ok s) (hok : ok s a)
    (hstep : M.step a s = some s') : M.Reach ok s' :=
  h.steps (Steps.single hok hstep)

/-! ## Invariants -/

/-- What every step preserves holds at the end of a run if it holds at its start. -/
theorem Steps.invariant {Inv : σ → Prop}
    (hstep : ∀ s a s', ok s a → M.step a s = some s' → Inv s → Inv s')
    {s s' : σ} {as : List α} (h : M.Steps ok s as s') (hs : Inv s) : Inv s' := by
  induction h with
  | nil => exact hs
  | snoc _ hok hst ih => exact hstep _ _ _ hok hst ih

/-- An invariant of the state together with the labels of the run so far. -/
theorem Steps.invariant_trace {Inv : List α → σ → Prop} {s₀ : σ} (hinit : Inv [] s₀)
    (hstep : ∀ as s a s', ok s a → M.step a s = some s' → Inv as s → Inv (as ++ [a]) s')
    {s : σ} {as : List α} (h : M.Steps ok s₀ as s) : Inv as s := by
  induction h with
  | nil => exact hinit
  | snoc _ hok hst ih => exact hstep _ _ _ _ hok hst ih

/-- Invariant induction. -/
theorem reach_invariant {Inv : σ → Prop} (hinit : ∀ s, M.Init s → Inv s)
    (hstep : ∀ s a s', ok s a → M.step a s = some s' → Inv s → Inv s')
    {s : σ} (h : M.Reach ok s) : Inv s := by
  obtain ⟨s₀, as, h₀, hs⟩ := h
  exact hs.invariant hstep (hinit s₀ h₀)

/-- Invariant induction that may use an invariant `J` established before. -/
theorem reach_invariant_with {J Inv : σ → Prop} (hJ : ∀ s, M.Reach ok s → J s)
    (hinit : ∀ s, M.Init s → Inv s)
    (hstep : ∀ s a s', ok s a → M.step a s = some s' → J s → Inv s → Inv s')
    {s : σ} (h : M.Reach ok s) : Inv s := by
  obtain ⟨s₀, as, h₀, hs⟩ := h
  induction hs with
  | nil => exact hinit _ h₀
  | snoc hst hok hstep' ih => exact hstep _ _ _ hok hstep' (hJ _ ⟨_, _, h₀, hst⟩) ih

/-! ## History -/

/-- The machine that also keeps what `observe` makes of every step. The machine
itself does not see this history. -/
def withHistory (M : Machine σ α) {η : Type w} (start : η) (observe : α → σ → η → η) :
    Machine (σ × η) α where
  Init := fun p => M.Init p.1 ∧ p.2 = start
  step := fun a p => (M.step a p.1).map fun s => (s, observe a p.1 p.2)

theorem step_withHistory {η : Type w} {start : η} {observe : α → σ → η → η} {a : α} {p p' : σ × η}
    (h : (M.withHistory start observe).step a p = some p') :
    M.step a p.1 = some p'.1 ∧ p'.2 = observe a p.1 p.2 := by
  rcases Option.map_eq_some_iff.1 h with ⟨s, hs, rfl⟩
  exact ⟨hs, rfl⟩

/-- Forgetting the history. -/
theorem Reach.forget {η : Type w} {start : η} {observe : α → σ → η → η} {p : σ × η}
    (h : (M.withHistory start observe).Reach (fun q => ok q.1) p) : M.Reach ok p.1 := by
  obtain ⟨p₀, as, hinit, hsteps⟩ := h
  induction hsteps with
  | nil => exact ⟨p₀.1, [], hinit.1, Steps.nil _⟩
  | snoc _ hok hstep ih => exact ih.step hok (step_withHistory hstep).1

/-! ## Simulation -/

variable {τ : Type w} {β : Type x} {A : Machine τ β} {okA : τ → β → Prop}

/-- Forward simulation: if every step of `M` is matched by a run of `A` (the
empty one for a step that `A` does not see), then every reachable state of `M`
is related to a reachable state of `A`. -/
theorem reach_simulation {R : σ → τ → Prop}
    (hinit : ∀ s, M.Init s → ∃ t, A.Init t ∧ R s t)
    (hstep : ∀ s a s' t, ok s a → M.step a s = some s' → R s t →
      ∃ bs t', A.Steps okA t bs t' ∧ R s' t')
    {s : σ} (h : M.Reach ok s) : ∃ t, A.Reach okA t ∧ R s t := by
  obtain ⟨s₀, as, h₀, hs⟩ := h
  induction hs with
  | nil =>
      obtain ⟨t, ht, hR⟩ := hinit _ h₀
      exact ⟨t, ⟨t, [], ht, Steps.nil t⟩, hR⟩
  | snoc _ hok hst ih =>
      obtain ⟨t, ht, hR⟩ := ih
      obtain ⟨bs, t', hbs, hR'⟩ := hstep _ _ _ _ hok hst hR
      exact ⟨t', ht.steps hbs, hR'⟩

end Machine

end Tla
