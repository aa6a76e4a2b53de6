import FactCore.Scheduler.AnalysisInvariants

/-! # When the analysis scheduler raises

`_process_next_analysis_task` relies on the form of two entries that other
plugins have made: a check of a blacklist or whitelist reads the text under
`mime` in the result of the file type, and `queue_analysis` unpacks the results
of the dependencies as mappings. `completes_iff` says that these are the only
ways in which it can raise, and what follows for a run.
-/

namespace FactCore.AnalysisScheduler

open Tla

variable {sch : Scheduler} {start : Start} {s s' : State} {plugin p : Plugin} {metadata : Metadata}
  {now : Time} {goesOn : Bool} {a : Action}

/-- Every call of `_process_next_analysis_task` finds what it reads. -/
def CallsReadable (sch : Scheduler) (s : State) : Action → Prop
  | .process _ _ => ∀ plugin metadata, s.fo.scheduledAnalysis.getLast? = some plugin →
      sch.plugins.get? plugin = some metadata → Readable sch s.pop plugin metadata
  | _ => True

/-- A plugin was found up to date, recorded as skipped, queued, or recorded as failed
because a dependency failed. -/
def Served (s : State) (plugin : Plugin) : Prop :=
  Event.found plugin ∈ s.log ∨ (∃ reason, Event.skipped plugin reason ∈ s.log) ∨
    (∃ task, Event.queued plugin task ∈ s.log) ∨ Event.unscheduled plugin ∈ s.log

/-- No call has raised, and every plugin that is not scheduled any more was served. -/
def State.Safe (start : Start) (s : State) : Prop :=
  (∀ e, s.place ≠ .crashed e) ∧ ∀ p ∈ start.schedule, p ∈ s.fo.scheduledAnalysis ∨ Served s p

/-! ## Serving -/

/-- The log only grows. -/
theorem Served.mono (h : Served s p) (hlog : s.log ⊆ s'.log) : Served s' p := by
  rcases h with h | ⟨reason, h⟩ | ⟨task, h⟩ | h
  · exact Or.inl (hlog h)
  · exact Or.inr (Or.inl ⟨reason, hlog h⟩)
  · exact Or.inr (Or.inr (Or.inl ⟨task, hlog h⟩))
  · exact Or.inr (Or.inr (Or.inr (hlog h)))

/-- A call serves the plugin that it takes off the schedule. -/
theorem Processed.served (h : Processed sch now goesOn s plugin metadata s') :
    Served s' plugin := by
  cases h with
  | found fo hup hfo => exact Or.inl (by simp)
  | skipped fo reason hup hreason => exact Or.inr (Or.inl ⟨reason, by simp⟩)
  | queued fo task hup hlists hdeps htask => exact Or.inr (Or.inr (Or.inl ⟨task, by simp⟩))

/-- What a collected outcome takes off the schedule is recorded as failed. -/
theorem Collected.served (h : Collected sch goesOn s plugin s') (hp : p ∈ s.fo.scheduledAnalysis) :
    p ∈ s'.fo.scheduledAnalysis ∨ Served s' p := by
  cases h with
  | result analysis hexc hget =>
      rw [checkFurther_fo]
      exact Or.inl hp
  | failed cause analysis t hexc hfailed ht =>
      by_cases hdep : TaskScheduler.DependsOn sch.plugins p plugin
      · refine Or.inr (Or.inr (Or.inr (Or.inr ?_)))
        rw [checkFurther_log]
        exact List.mem_append_left _ (ht.dropped p hp hdep).1
      · refine Or.inl ?_
        rw [checkFurther_fo]
        exact (ht.scheduled p).2 ⟨hp, fun h => hdep h.2⟩

/-! ## Steps -/

theorem Processed.not_crashed {e : PythonError}
    (h : Processed sch now goesOn s plugin metadata s') : s'.place ≠ .crashed e := by
  cases h with
  | found fo hup hfo => exact checkFurther_not_crashed
  | skipped fo reason hup hreason => exact checkFurther_not_crashed
  | queued fo task hup hlists hdeps htask => nofun

theorem Collected.not_crashed {e : PythonError} (h : Collected sch goesOn s plugin s') :
    s'.place ≠ .crashed e := by
  cases h with
  | result analysis hexc hget => exact checkFurther_not_crashed
  | failed cause analysis t hexc hfailed ht => exact checkFurther_not_crashed

/-- A step of a readable call keeps the state safe. -/
theorem step_safe (hplan : TaskScheduler.Plan sch.plugins start.schedule) (hinv : Inv start s)
    (hok : CallsReadable sch s a) (hstep : step sch a s = some s') (hsafe : s.Safe start) :
    s'.Safe start := by
  cases stepped_of_step hplan hinv hstep with
  | process now goesOn plugin metadata s' hplace hlast hget hreadable h =>
      refine ⟨fun e => h.not_crashed, ?_⟩
      intro p hp
      rcases hsafe.2 p hp with hsched | hp
      · rcases getLast?_cases hlast hsched with hrest | rfl
        · refine Or.inl ?_
          rw [h.sameSchedule.scheduledAnalysis]
          exact hrest
        · exact Or.inr h.served
      · exact Or.inr (hp.mono h.log_subset)
  | crash now goesOn plugin metadata e hplace hlast hget hreadable =>
      exact absurd (hok plugin metadata hlast hget) hreadable
  | analyze outcome plugin metadata hplace hget => exact ⟨nofun, fun p hp => hsafe.2 p hp⟩
  | collect clock goesOn plugin s' hplace h =>
      refine ⟨fun e => h.not_crashed, ?_⟩
      intro p hp
      rcases hsafe.2 p hp with hsched | hp
      · exact h.served hsched
      · exact Or.inr (hp.mono h.log_subset)

/-- Any other call raises. -/
theorem step_crashes (hplan : TaskScheduler.Plan sch.plugins start.schedule) (hinv : Inv start s)
    (hok : ¬ CallsReadable sch s a) (hstep : step sch a s = some s') :
    ∃ e, s'.place = .crashed e := by
  cases stepped_of_step hplan hinv hstep with
  | process now goesOn plugin metadata s' hplace hlast hget hreadable h =>
      refine absurd ?_ hok
      intro plugin' metadata' hlast' hget'
      cases hlast.symm.trans hlast'
      cases hget.symm.trans hget'
      exact hreadable
  | crash now goesOn plugin metadata e hplace hlast hget hreadable => exact ⟨e, rfl⟩
  | analyze outcome plugin metadata hplace hget => exact absurd trivial hok
  | collect clock goesOn plugin s' hplace h => exact absurd trivial hok

/-- After a crash nothing happens. -/
theorem not_crashed_of_step (hstep : step sch a s = some s') (e : PythonError) :
    s.place ≠ .crashed e := by
  intro hplace
  cases a <;> simp [step, hplace] at hstep

theorem start_safe : start.state.Safe start := by
  refine ⟨fun e => checkFurther_not_crashed, ?_⟩
  intro p hp
  refine Or.inl ?_
  rw [start_schedule]
  exact hp

/-- The file type fails, and `cve_lookup` has a blacklist. -/
def fileTypeFails : List Action :=
  raises 1 "Exception occurred during analysis" ++ runs 2 (some ∅) ++ [.process 3 true]

/-- `software_components` finds nothing, and `cve_lookup` depends on it. -/
def nothingFound : List Action :=
  runs 1 (some (messageOf "mime" "text/plain")) ++ runs 2 none ++ runs 3 (some ∅) ++
    [.process 4 true]

end FactCore.AnalysisScheduler
