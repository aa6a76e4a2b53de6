import FactCore.Lib.Machine
import FactCore.Lib.RingBuffer

/-! # The duration statistics of a plugin

`Worker._update_duration_stats` of `scheduler/analysis/plugin.py` and
`get_plugin_stats` of `statistic/analysis_stats.py`. The workers of a plugin
runner share an array of durations, the index of the entry that is written next
and the number of entries. The statements of an update are steps of their own;
the lock of the array keeps the workers from interleaving them.
-/

namespace FactCore.DurationStats

open Tla

variable {ω δ φ : Type}

/-- `ANALYSIS_STATS_LIMIT`. -/
def analysisStatsLimit : ℕ := 1000

/-- The values that the workers of a plugin runner share. -/
structure SharedStats (φ : Type) where
  stats : List φ
  statsIdx : ℕ
  statsCount : ℕ

/-- The values that `PluginRunner.__init__` makes; the array is filled with zeros. -/
def SharedStats.init (zero : φ) : SharedStats φ := ⟨List.replicate analysisStatsLimit zero, 0, 0⟩

/-! ## The statements of `_update_duration_stats` -/

inductive Statement where
  | store
  | advance
  | wrap
  | increment
deriving DecidableEq

/-- `self._stats[self._stats_idx.value] = duration`; `none` stands for an `IndexError`. -/
def store (duration : φ) (shared : SharedStats φ) : Option (SharedStats φ) :=
  if shared.statsIdx < shared.stats.length then
    some { shared with stats := shared.stats.set shared.statsIdx duration }
  else none

/-- `self._stats_idx.value += 1`. -/
def advance (shared : SharedStats φ) : SharedStats φ :=
  { shared with statsIdx := shared.statsIdx + 1 }

/-- If the array is full, the oldest result is overwritten next. -/
def wrap (shared : SharedStats φ) : SharedStats φ :=
  if analysisStatsLimit ≤ shared.statsIdx then { shared with statsIdx := 0 } else shared

/-- `self._stats_count.value += 1` up to the limit. -/
def increment (shared : SharedStats φ) : SharedStats φ :=
  if shared.statsCount < analysisStatsLimit then { shared with statsCount := shared.statsCount + 1 }
  else shared

/-- `_update_duration_stats`. -/
def updateDurationStats (duration : φ) (shared : SharedStats φ) : Option (SharedStats φ) :=
  (store duration shared).map fun shared => increment (wrap (advance shared))

/-! ## The statistics -/

/-- The functions of numpy, with the format of the numbers; they get an array with
at least one entry. -/
structure Numpy (φ : Type) where
  min : List φ → String
  max : List φ → String
  mean : List φ → String
  median : List φ → String
  std : List φ → String

structure PluginStats where
  min : String
  max : String
  mean : String
  median : String
  stdDev : String
  count : String
deriving DecidableEq

/-- The entries that `get_plugin_stats` evaluates. -/
def evaluatedEntries (stats : List φ) (statsCount : ℕ) : List φ :=
  if statsCount < analysisStatsLimit then stats.take statsCount else stats

/-- `get_plugin_stats`. The minimum of an empty array is a `ValueError`. -/
def getPluginStats (np : Numpy φ) (stats : List φ) (statsCount : ℕ) : Option PluginStats :=
  let array := evaluatedEntries stats statsCount
  if array = [] then none
  else some
    { min := np.min array
      max := np.max array
      mean := np.mean array
      median := np.median array
      stdDev := np.std array
      count := toString statsCount }

/-! ## The workers -/

/-- The worker that holds the lock, its duration and the statement that it comes to. -/
structure Holder (ω δ : Type) where
  worker : ω
  duration : δ
  next : Statement

structure State (ω δ φ : Type) where
  shared : SharedStats φ
  lock : Option (Holder ω δ)

inductive Action (ω δ : Type) where
  | enter (worker : ω) (duration : δ)
  | run (worker : ω)

/-- The holder of the lock executes its next statement. The lock is released behind
the last one, and by an exception. The array stores a duration as a C float. -/
def execute (cFloat : δ → φ) (s : State ω δ φ) (holder : Holder ω δ) : State ω δ φ :=
  match holder.next with
  | .store =>
      match store (cFloat holder.duration) s.shared with
      | some shared => ⟨shared, some { holder with next := .advance }⟩
      | none => { s with lock := none }
  | .advance => ⟨advance s.shared, some { holder with next := .wrap }⟩
  | .wrap => ⟨wrap s.shared, some { holder with next := .increment }⟩
  | .increment => ⟨increment s.shared, none⟩

/-- A worker enters if no other one holds the lock. -/
def step [DecidableEq ω] (cFloat : δ → φ) (a : Action ω δ) (s : State ω δ φ) : Option (State ω δ φ) :=
  match a, s.lock with
  | .enter worker duration, none => some { s with lock := some ⟨worker, duration, .store⟩ }
  | .enter _ _, some _ => none
  | .run worker, some holder => if holder.worker = worker then some (execute cFloat s holder) else none
  | .run _, none => none

def machine [DecidableEq ω] (zero : φ) (cFloat : δ → φ) : Machine (State ω δ φ) (Action ω δ) where
  Init := fun s => s = ⟨.init zero, none⟩
  step := step cFloat

/-- The durations of the calls that are done, in the order in which they ended. -/
def observe (a : Action ω δ) (s : State ω δ φ) (recorded : List δ) : List δ :=
  match a, s.lock with
  | .run _, some ⟨_, duration, .increment⟩ => recorded ++ [duration]
  | _, _ => recorded

/-! ## The buffer behind the shared values -/

variable {shared shared' : SharedStats φ} {start l : List φ} {duration : φ}

def SharedStats.ring (shared : SharedStats φ) : RingBuffer.Ring φ :=
  ⟨shared.stats, shared.statsIdx, shared.statsCount⟩

theorem evaluatedEntries_eq :
    evaluatedEntries shared.stats shared.statsCount = RingBuffer.written analysisStatsLimit shared.ring := rfl

theorem holds_init (zero : φ) : RingBuffer.Holds analysisStatsLimit
    (List.replicate analysisStatsLimit zero) [] (SharedStats.init zero).ring :=
  RingBuffer.holds_start (by decide) List.length_replicate

theorem store_ok (h : RingBuffer.Holds analysisStatsLimit start l shared.ring) :
    store duration shared = some { shared with stats := shared.stats.set shared.statsIdx duration } := by
  have hidx : shared.statsIdx < shared.stats.length := by
    have hlt := h.idx_lt
    rwa [← h.length_cells] at hlt
  rw [store, if_pos hidx]

theorem updateDurationStats_ok (h : RingBuffer.Holds analysisStatsLimit start l shared.ring) :
    ∃ shared', updateDurationStats duration shared = some shared' ∧
      shared'.ring = RingBuffer.push analysisStatsLimit duration shared.ring := by
  refine ⟨_, by rw [updateDurationStats, store_ok h, Option.map_some], ?_⟩
  by_cases hwrap : analysisStatsLimit ≤ shared.statsIdx + 1 <;>
    by_cases hcount : shared.statsCount < analysisStatsLimit <;>
    simp [RingBuffer.push, SharedStats.ring, increment, wrap, advance, hwrap, hcount]

/-- A call that returns has written one entry. -/
theorem holds_update (h : RingBuffer.Holds analysisStatsLimit start l shared.ring)
    (hupdate : updateDurationStats duration shared = some shared') :
    RingBuffer.Holds analysisStatsLimit start (l ++ [duration]) shared'.ring := by
  rcases updateDurationStats_ok h with ⟨shared'', hok, hring⟩
  obtain rfl : shared'' = shared' := Option.some_inj.1 (hok.symm.trans hupdate)
  rw [hring]
  exact h.push

/-! ## Every run of the workers -/

/-- What an update has done when it comes to a statement. -/
def progress (duration : φ) (shared : SharedStats φ) : Statement → Option (SharedStats φ)
  | .store => some shared
  | .advance => store duration shared
  | .wrap => (store duration shared).map advance
  | .increment => (store duration shared).map fun shared => wrap (advance shared)

/-- Between the calls the buffer holds the recorded durations; within a call it is
the progress of this call that the shared values show. -/
def Inv (zero : φ) (cFloat : δ → φ) (p : State ω δ φ × List δ) : Prop :=
  ∃ before : SharedStats φ,
    RingBuffer.Holds analysisStatsLimit (List.replicate analysisStatsLimit zero)
      (p.2.map cFloat) before.ring ∧
    match p.1.lock with
    | none => p.1.shared = before
    | some holder => progress (cFloat holder.duration) before holder.next = some p.1.shared

theorem inv_init (zero : φ) (cFloat : δ → φ) :
    Inv zero cFloat ((⟨.init zero, none⟩, []) : State ω δ φ × List δ) :=
  ⟨.init zero, holds_init zero, rfl⟩

theorem inv_step [DecidableEq ω] {zero : φ} {cFloat : δ → φ} {a : Action ω δ} {s s' : State ω δ φ}
    {recorded : List δ} (hstep : step cFloat a s = some s') (h : Inv zero cFloat (s, recorded)) :
    Inv zero cFloat (s', observe a s recorded) := by
  rcases s with ⟨shared, lock⟩
  rcases h with ⟨before, hholds, hlock⟩
  cases a with
  | enter worker d =>
      cases lock with
      | some holder => cases hstep
      | none =>
          -- the lock is free: the worker has it now and has not done anything
          cases hstep
          exact ⟨before, hholds, congrArg some hlock.symm⟩
  | run worker =>
      cases lock with
      | none => cases hstep
      | some holder =>
          rcases holder with ⟨owner, d, next⟩
          simp only [step] at hstep
          split at hstep
          next =>
            obtain rfl := Option.some_inj.1 hstep
            -- one statement more of the call that the holder began at `before`
            cases next with
            | store =>
                obtain rfl : before = shared := Option.some_inj.1 hlock
                refine ⟨before, hholds, ?_⟩
                simp only [execute, store_ok hholds, progress]
            | advance =>
                refine ⟨before, hholds, ?_⟩
                have hstore : store (cFloat d) before = some shared := hlock
                simp only [execute, progress, hstore, Option.map_some]
            | wrap =>
                rcases Option.map_eq_some_iff.1 hlock with ⟨stored, hstore, rfl⟩
                refine ⟨before, hholds, ?_⟩
                simp only [execute, progress, hstore, Option.map_some]
            | increment =>
                rcases Option.map_eq_some_iff.1 hlock with ⟨stored, hstore, rfl⟩
                -- the last statement: the call is done and recorded
                have hupdate : updateDurationStats (cFloat d) before =
                    some (increment (wrap (advance stored))) := by
                  rw [updateDurationStats, hstore, Option.map_some]
                refine ⟨increment (wrap (advance stored)), ?_, rfl⟩
                have hrecorded := holds_update hholds hupdate
                rwa [← List.map_singleton, ← List.map_append] at hrecorded
          next => cases hstep

theorem inv_of_reach [DecidableEq ω] {zero : φ} {cFloat : δ → φ} {p : State ω δ φ × List δ}
    (h : ((machine zero cFloat).withHistory [] observe).Reach Machine.anyStep p) :
    Inv zero cFloat p := by
  refine Machine.reach_invariant ?_ ?_ h
  · rintro ⟨s, recorded⟩ ⟨hs, hrecorded⟩
    obtain rfl : s = _ := hs
    obtain rfl : recorded = [] := hrecorded
    exact inv_init zero cFloat
  · rintro ⟨s, recorded⟩ a ⟨s', recorded'⟩ - hstep hinv
    rcases Machine.step_withHistory hstep with ⟨hstep, rfl⟩
    exact inv_step hstep hinv

/-- A statement that writes the array finds its index inside. Between the calls the
index is inside, the counter is the number of calls up to the limit, and the entries
that are evaluated are the last durations. -/
theorem duration_stats [DecidableEq ω] {zero : φ} {cFloat : δ → φ} {s : State ω δ φ} {recorded : List δ}
    (h : ((machine zero cFloat).withHistory [] observe).Reach Machine.anyStep (s, recorded)) :
    (∀ holder, s.lock = some holder → holder.next = .store → s.shared.statsIdx < s.shared.stats.length) ∧
    (s.lock = none →
      s.shared.statsIdx < s.shared.stats.length ∧
      s.shared.statsCount = min recorded.length analysisStatsLimit ∧
      (evaluatedEntries s.shared.stats s.shared.statsCount).Perm
        ((recorded.drop (recorded.length - analysisStatsLimit)).map cFloat)) := by
  rcases inv_of_reach h with ⟨before, hholds, hlock⟩
  have hidx : before.statsIdx < before.stats.length := by
    have hlt := hholds.idx_lt
    rwa [← hholds.length_cells] at hlt
  constructor
  · intro holder hholder hnext
    rw [hholder] at hlock
    simp only [hnext, progress, Option.some_inj] at hlock
    rw [← hlock]
    exact hidx
  · intro hfree
    -- nobody is within a call, so the buffer is as the last call left it
    rw [hfree] at hlock
    obtain rfl : s.shared = before := hlock
    refine ⟨hidx, ?_, ?_⟩
    · have hcount := hholds.count_eq
      rwa [List.length_map] at hcount
    · have hperm := hholds.written_perm
      rw [List.length_map, ← List.map_drop] at hperm
      rwa [evaluatedEntries_eq]

/-- A run in which a second worker waits until the first one has left. -/
theorem duration_stats_sample :
    ∃ p : State ℕ ℕ ℕ × List ℕ, ((machine 0 id).withHistory [] observe).Reach Machine.anyStep p ∧
      (p.1.lock.isNone = true ∧ p.2 = [5, 7]) ∧
      ((∀ holder, p.1.lock = some holder → holder.next = .store →
          p.1.shared.statsIdx < p.1.shared.stats.length) ∧
        (p.1.lock = none →
          p.1.shared.statsIdx < p.1.shared.stats.length ∧
          p.1.shared.statsCount = min p.2.length analysisStatsLimit ∧
          (evaluatedEntries p.1.shared.stats p.1.shared.statsCount).Perm
            ((p.2.drop (p.2.length - analysisStatsLimit)).map id))) := by
  have hinit : ((machine (0 : ℕ) (id : ℕ → ℕ)).withHistory [] observe).Init
      ((⟨.init 0, none⟩ : State ℕ ℕ ℕ), []) := ⟨rfl, rfl⟩
  have hreach : ∃ p, ((machine (0 : ℕ) (id : ℕ → ℕ)).withHistory [] observe).Reach Machine.anyStep p ∧
      (p.1.lock.isNone = true ∧ p.2 = [5, 7]) :=
    Machine.exists_reach hinit
      [.enter 1 5, .run 1, .run 1, .run 1, .run 1, .enter 2 7, .run 2, .run 2, .run 2, .run 2]
      (by decide +kernel)
  rcases hreach with ⟨p, hp, hend⟩
  exact ⟨p, hp, hend, duration_stats hp⟩

end FactCore.DurationStats
