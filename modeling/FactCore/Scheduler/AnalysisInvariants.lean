import FactCore.Scheduler.AnalysisSteps

/-! # Invariants of the analysis scheduler

What holds in every state of a run: the schedule is part of the one that the run
started with, no entry of the object is `None`, and an object that comes back
from a plugin has its result or its exception. The steps of a run are those of
`Stepped`. In a run without failures the schedule is worked off in its order
(`Orderly`).
-/

namespace FactCore.AnalysisScheduler

open Tla

variable {sch : Scheduler} {s s' : State} {fo : ScheduledObject} {plugin p : Plugin}
  {metadata : Metadata} {now : Time} {goesOn : Bool}

/-! ## The invariant -/

/-- The runs of an object whose schedule was made by `schedule_analysis_tasks`, and
that was created, or loaded from the database. -/
structure Start.Valid (sch : Scheduler) (start : Start) : Prop where
  scheduled : ∃ shuffled requested mandatory rounds,
    TaskScheduler.scheduleAnalysisTasks shuffled sch.plugins requested mandatory rounds =
      some (.ok start.schedule)
  noNone : ∀ p, start.processedAnalysis.get? p ≠ some none

@[simp] theorem start_schedule {start : Start} :
    start.state.fo.scheduledAnalysis = start.schedule :=
  congrArg ScheduledObject.scheduledAnalysis checkFurther_fo

@[simp] theorem start_table {start : Start} : start.state.table = start.table := checkFurther_table

@[simp] theorem start_log {start : Start} : start.state.log = [] := checkFurther_log

theorem Start.Valid.plan {start : Start} (h : start.Valid sch) :
    TaskScheduler.Plan sch.plugins start.schedule := by
  rcases h.scheduled with ⟨_, _, _, _, hok⟩
  exact TaskScheduler.plan_of_ok hok

theorem Start.Valid.ordered {start : Start} (h : start.Valid sch)
    (hclosed : TaskScheduler.Closed sch.plugins) :
    Dependencies.Ordered (TaskScheduler.DependsOn sch.plugins) start.schedule := by
  rcases h.scheduled with ⟨_, _, _, _, hok⟩
  exact TaskScheduler.ordered_of_ok hclosed.fileType_free hok

theorem Start.Valid.fileType_last {start : Start} (h : start.Valid sch)
    (hmem : "file_type" ∈ start.schedule) : start.schedule.getLast? = some "file_type" := by
  rcases h.scheduled with ⟨_, _, _, _, hok⟩
  rcases TaskScheduler.scheduleAnalysisTasks_ok hok with ⟨_, _, -, -, hschedule⟩
  rw [hschedule] at hmem ⊢
  exact TaskScheduler.assureFileTypeIsFirst_last hmem

/-- What holds in every state of a run. -/
structure Inv (start : Start) (s : State) : Prop where
  sublist : s.fo.scheduledAnalysis.Sublist start.schedule
  noNone : NoNone s.fo
  waiting : s.place = .inQueue → s.fo.scheduledAnalysis ≠ []
  done : s.place = .completed → s.fo.scheduledAnalysis = []
  busy : ∀ p, s.place = .atPlugin p ∨ s.place = .collected p →
    p ∈ start.schedule ∧ p ∉ s.fo.scheduledAnalysis
  noException : s.place = .inQueue ∨ (∃ p, s.place = .atPlugin p) → s.fo.analysisException = none
  cameBack : ∀ p, s.place = .collected p → CameBack s.fo p

variable {start : Start} {a : Action}

/-- One step of a run. -/
inductive Stepped (sch : Scheduler) (s : State) : Action → State → Prop
  | process (now : Time) (goesOn : Bool) (plugin : Plugin) (metadata : Metadata) (s' : State)
      (hplace : s.place = .inQueue) (hlast : s.fo.scheduledAnalysis.getLast? = some plugin)
      (hget : sch.plugins.get? plugin = some metadata) (hreadable : Readable sch s.pop plugin metadata)
      (h : Processed sch now goesOn s.pop plugin metadata s') :
      Stepped sch s (.process now goesOn) s'
  | crash (now : Time) (goesOn : Bool) (plugin : Plugin) (metadata : Metadata) (e : PythonError)
      (hplace : s.place = .inQueue) (hlast : s.fo.scheduledAnalysis.getLast? = some plugin)
      (hget : sch.plugins.get? plugin = some metadata)
      (hreadable : ¬ Readable sch s.pop plugin metadata) :
      Stepped sch s (.process now goesOn) { s with place := .crashed e }
  | analyze (outcome : Outcome) (plugin : Plugin) (metadata : Metadata)
      (hplace : s.place = .atPlugin plugin) (hget : sch.plugins.get? plugin = some metadata) :
      Stepped sch s (.analyze outcome) (finishAnalysis plugin metadata outcome s)
  | collect (clock : Plugin → Time) (goesOn : Bool) (plugin : Plugin) (s' : State)
      (hplace : s.place = .collected plugin) (h : Collected sch goesOn s plugin s') :
      Stepped sch s (.collect clock goesOn) s'

theorem stepped_of_step (hplan : TaskScheduler.Plan sch.plugins start.schedule) (hinv : Inv start s)
    (hstep : step sch a s = some s') : Stepped sch s a s' := by
  have hsched : ∀ p ∈ s.fo.scheduledAnalysis, p ∈ sch.plugins :=
    fun p hp => hplan.exist p (hinv.sublist.subset hp)
  cases a with
  | process now goesOn =>
      simp only [step] at hstep
      split at hstep
      · rename_i hplace
        rcases List.getLast?_isSome.2 (hinv.waiting hplace) with hsome
        rcases Option.isSome_iff_exists.1 hsome with ⟨plugin, hlast⟩
        have hexist : ∀ p ∈ s.fo.scheduledAnalysis, ∀ d, TaskScheduler.DependsOn sch.plugins p d →
            d ∈ sch.plugins :=
          fun p hp d hpd => hplan.exist d (hplan.closed p d (hinv.sublist.subset hp) hpd)
        rcases @processNextAnalysisTask_cases sch s plugin now goesOn hinv.noNone hsched hexist hlast
          with ⟨metadata, hget, ⟨hreadable, s'', hok, h⟩ | ⟨hreadable, e, he⟩⟩
        · rw [hok] at hstep
          obtain rfl : s'' = s' := Option.some.inj hstep
          exact Stepped.process now goesOn plugin metadata s'' hplace hlast hget hreadable h
        · rw [he] at hstep
          obtain rfl : { s with place := .crashed e } = s' := Option.some.inj hstep
          exact Stepped.crash now goesOn plugin metadata e hplace hlast hget hreadable
      · cases hstep
  | analyze outcome =>
      simp only [step] at hstep
      split at hstep
      · rename_i plugin hplace
        rcases Option.map_eq_some_iff.1 hstep with ⟨metadata, hget, rfl⟩
        exact Stepped.analyze outcome plugin metadata hplace hget
      · cases hstep
  | collect clock goesOn =>
      simp only [step] at hstep
      split at hstep
      · rename_i plugin hplace
        rcases hinv.busy plugin (Or.inr hplace) with ⟨hmem, hgone⟩
        rcases @handleCollectedResult_ok sch s plugin goesOn clock (hplan.exist plugin hmem)
          (hinv.cameBack plugin hplace) hgone hsched (hplan.nodup.sublist hinv.sublist) with
          ⟨s'', hok, h⟩
        rw [hok] at hstep
        obtain rfl : s'' = s' := Option.some.inj hstep
        exact Stepped.collect clock goesOn plugin s'' hplace h
      · cases hstep

/-! ## Every step keeps the invariant -/

theorem notMem_dropLast {l : List Plugin} (hnodup : l.Nodup) (hlast : l.getLast? = some p) :
    p ∉ l.dropLast := by
  rcases List.getLast?_eq_some_iff.1 hlast with ⟨rest, rfl⟩
  rw [List.dropLast_concat]
  intro hp
  exact (List.nodup_append.1 hnodup).2.2 p hp p (List.mem_singleton.2 rfl) rfl

theorem getLast?_cases {l : List Plugin} (hlast : l.getLast? = some plugin) (hp : p ∈ l) :
    p ∈ l.dropLast ∨ p = plugin := by
  rcases List.getLast?_eq_some_iff.1 hlast with ⟨rest, rfl⟩
  rw [List.dropLast_concat]
  simpa using hp

/-- Where the object is after its schedule has been looked at. -/
theorem inv_checkFurther (hsub : s.fo.scheduledAnalysis.Sublist start.schedule) (hnone : NoNone s.fo)
    (hexc : s.fo.analysisException = none) : Inv start (checkFurtherProcessOrComplete goesOn s) := by
  have hplace := @checkFurther_place s goesOn
  refine ⟨?_, ?_, ?_, ?_, ?_, ?_, ?_⟩
  · rw [checkFurther_fo]
    exact hsub
  · rw [checkFurther_fo]
    exact hnone
  · intro h
    rw [checkFurther_fo]
    rcases hplace with ⟨hp, -⟩ | ⟨-, hne⟩ | ⟨hp, -⟩
    · rw [h] at hp
      cases hp
    · exact hne
    · rw [h] at hp
      cases hp
  · intro h
    rw [checkFurther_fo]
    rcases hplace with ⟨-, hempty⟩ | ⟨hp, -⟩ | ⟨hp, -⟩
    · exact hempty
    · rw [h] at hp
      cases hp
    · rw [h] at hp
      cases hp
  · intro p h
    rcases hplace with ⟨hp, -⟩ | ⟨hp, -⟩ | ⟨hp, -⟩ <;> rw [hp] at h <;> rcases h with h | h <;> cases h
  · intro _
    rw [checkFurther_fo]
    exact hexc
  · intro p h
    rcases hplace with ⟨hp, -⟩ | ⟨hp, -⟩ | ⟨hp, -⟩ <;> rw [hp] at h <;> cases h

theorem init_inv (hstart : start.Valid sch) : Inv start start.state :=
  inv_checkFurther (List.Sublist.refl _) hstart.noNone rfl

/-- A call takes its plugin off the schedule, and keeps the rest. -/
theorem step_inv_process (hplan : TaskScheduler.Plan sch.plugins start.schedule)
    (hinv : Inv start s) (hplace : s.place = .inQueue)
    (hlast : s.fo.scheduledAnalysis.getLast? = some plugin)
    (h : Processed sch now goesOn s.pop plugin metadata s') : Inv start s' := by
  have hsame := h.sameSchedule
  have hsub : s'.fo.scheduledAnalysis.Sublist start.schedule := by
    rw [hsame.scheduledAnalysis]
    exact (List.dropLast_sublist _).trans hinv.sublist
  have hnone : NoNone s'.fo := h.noNone hinv.noNone
  have hexc : s'.fo.analysisException = none := by
    rw [hsame.analysisException]
    exact hinv.noException (Or.inl hplace)
  have hmem : plugin ∈ start.schedule := hinv.sublist.subset (List.mem_of_getLast? hlast)
  have hgone : plugin ∉ s'.fo.scheduledAnalysis := by
    rw [hsame.scheduledAnalysis]
    exact notMem_dropLast (hplan.nodup.sublist hinv.sublist) hlast
  cases h with
  | found fo hup hfo =>
      rw [checkFurther_fo] at hsub hnone hexc
      exact inv_checkFurther hsub hnone hexc
  | skipped fo reason hup hreason =>
      unfold skipAnalysis at hsub hnone hexc ⊢
      rw [checkFurther_fo] at hsub hnone hexc
      exact inv_checkFurther hsub hnone hexc
  | queued fo task hup hlists hdeps htask =>
      refine ⟨hsub, hnone, nofun, nofun, ?_, fun _ => hexc, nofun⟩
      rintro p (h | h)
      · cases h
        exact ⟨hmem, hgone⟩
      · cases h

theorem step_inv_analyze {outcome : Outcome} (hinv : Inv start s) (hplace : s.place = .atPlugin plugin) :
    Inv start (finishAnalysis plugin metadata outcome s) := by
  have hbusy := hinv.busy plugin (Or.inl hplace)
  have hexc := hinv.noException (Or.inr ⟨plugin, hplace⟩)
  have hother : ∀ p, Place.atPlugin p ≠ .collected plugin := nofun
  cases outcome with
  | returned startTime result =>
      refine ⟨hinv.sublist, ?_, nofun, nofun, ?_, ?_, ?_⟩
      · exact noNone_setAnalysis hinv.noNone
      · rintro p (h | h) <;> cases h
        exact hbusy
      · rintro (h | ⟨p, h⟩) <;> cases h
      · intro p h
        cases h
        exact Or.inl ⟨hexc, _, Dict.get?_set_self _ _ _⟩
  | exception cause =>
      refine ⟨hinv.sublist, hinv.noNone, nofun, nofun, ?_, ?_, ?_⟩
      · rintro p (h | h) <;> cases h
        exact hbusy
      · rintro (h | ⟨p, h⟩) <;> cases h
      · intro p h
        cases h
        exact Or.inr ⟨cause, rfl⟩
  | timeout =>
      refine ⟨hinv.sublist, hinv.noNone, nofun, nofun, ?_, ?_, ?_⟩
      · rintro p (h | h) <;> cases h
        exact hbusy
      · rintro (h | ⟨p, h⟩) <;> cases h
      · intro p h
        cases h
        exact Or.inr ⟨"Analysis timed out", rfl⟩

theorem step_inv_collect (hinv : Inv start s) (h : Collected sch goesOn s plugin s') :
    Inv start s' := by
  cases h with
  | result analysis hexc hget => exact inv_checkFurther hinv.sublist hinv.noNone hexc
  | failed cause analysis t hexc hfailed ht =>
      refine inv_checkFurther (ht.sublist.trans hinv.sublist) ?_ rfl
      intro p
      show t.fo.processedAnalysis.get? p ≠ some none
      by_cases hp : p ∈ s.fo.scheduledAnalysis ∧ TaskScheduler.DependsOn sch.plugins p plugin
      · rcases (ht.dropped p hp.1 hp.2).2 with ⟨analysis', hget⟩
        rw [hget]
        simp
      · rw [ht.kept p hp]
        exact noNone_setAnalysis hinv.noNone p

theorem step_inv (hplan : TaskScheduler.Plan sch.plugins start.schedule) (hinv : Inv start s)
    (hstep : step sch a s = some s') : Inv start s' := by
  cases stepped_of_step hplan hinv hstep with
  | process now goesOn plugin metadata s' hplace hlast hget hreadable h =>
      exact step_inv_process hplan hinv hplace hlast h
  | crash now goesOn plugin metadata e hplace hlast hget hreadable =>
      refine ⟨hinv.sublist, hinv.noNone, nofun, nofun, ?_, ?_, nofun⟩
      · rintro p (h | h) <;> cases h
      · rintro (h | ⟨p, h⟩) <;> cases h
  | analyze outcome plugin metadata hplace hget => exact step_inv_analyze hinv hplace
  | collect clock goesOn plugin s' hplace h => exact step_inv_collect hinv h

/-- The invariant holds in every state of a run. -/
theorem reach_inv {ok : State → Action → Prop} (hstart : start.Valid sch)
    (h : (machine sch start).Reach ok s) : Inv start s := by
  refine Machine.reach_invariant ?_ ?_ h
  · rintro s rfl
    exact init_inv hstart
  · intro s a s' _ hstep hinv
    exact step_inv hstart.plan hinv hstep

/-! ## Runs without failures -/

/-- Every plugin that is run returns, and no exception is reported. -/
def Returns (_ : State) : Action → Prop
  | .analyze (.returned _ _) => True
  | .analyze _ => False
  | _ => True

/-- Without failures the schedule is only worked off from its end. -/
structure Orderly (start : Start) (s : State) : Prop where
  schedule : s.fo.scheduledAnalysis <+: start.schedule
  noException : s.fo.analysisException = none

theorem init_orderly : Orderly start start.state := by
  constructor
  · rw [start_schedule]
  · exact congrArg (fun fo : ScheduledObject => fo.analysisException) checkFurther_fo

theorem step_orderly (hplan : TaskScheduler.Plan sch.plugins start.schedule) (hinv : Inv start s)
    (hok : Returns s a) (hstep : step sch a s = some s') (h : Orderly start s) :
    Orderly start s' := by
  cases stepped_of_step hplan hinv hstep with
  | process now goesOn plugin metadata s' hplace hlast hget hreadable hp =>
      have hsame := hp.sameSchedule
      constructor
      · rw [hsame.scheduledAnalysis]
        exact (List.dropLast_prefix _).trans h.schedule
      · rw [hsame.analysisException]
        exact h.noException
  | crash now goesOn plugin metadata e hplace hlast hget hreadable =>
      exact ⟨h.schedule, h.noException⟩
  | analyze outcome plugin metadata hplace hget =>
      cases outcome with
      | returned startTime result => exact ⟨h.schedule, h.noException⟩
      | exception cause => exact absurd hok id
      | timeout => exact absurd hok id
  | collect clock goesOn plugin s' hplace hc =>
      cases hc with
      | result analysis hexc hget =>
          constructor
          · rw [checkFurther_fo]
            exact h.schedule
          · rw [checkFurther_fo]
            exact hexc
      | failed cause analysis t hexc hfailed ht =>
          rw [h.noException] at hexc
          cases hexc

theorem reach_orderly {ok : State → Action → Prop} (hstart : start.Valid sch)
    (hok : ∀ s a, ok s a → Returns s a) (h : (machine sch start).Reach ok s) : Orderly start s := by
  refine Machine.reach_invariant_with (fun _ => reach_inv hstart) ?_ ?_ h
  · rintro s rfl
    exact init_orderly
  · intro s a s' ha hstep hinv
    exact step_orderly hstart.plan hinv (hok s a ha) hstep

/-- When a plugin is taken off the schedule, its dependencies have been taken off before. -/
theorem Orderly.popped (h : Orderly start s)
    (hplan : TaskScheduler.Plan sch.plugins start.schedule)
    (hordered : Dependencies.Ordered (TaskScheduler.DependsOn sch.plugins) start.schedule)
    (hlast : s.fo.scheduledAnalysis.getLast? = some plugin)
    (hdep : TaskScheduler.DependsOn sch.plugins plugin p) :
    p ∈ start.schedule ∧ p ∉ s.fo.scheduledAnalysis := by
  rcases List.getLast?_eq_some_iff.1 hlast with ⟨rest, hrest⟩
  rcases h.schedule with ⟨popped, hpopped⟩
  rw [hrest, List.append_assoc, List.singleton_append] at hpopped
  have hnodup := hplan.nodup
  rw [← hpopped] at hordered hnodup
  have hp : p ∈ popped := hordered.split p hdep
  rw [← hpopped, hrest]
  refine ⟨List.mem_append_right _ (List.mem_cons_of_mem _ hp), ?_⟩
  intro hmem
  rcases List.mem_append.1 hmem with hin | hlast
  · exact (List.nodup_append.1 hnodup).2.2 p hin p (List.mem_cons_of_mem _ hp) rfl
  · obtain rfl := List.mem_singleton.1 hlast
    exact (List.nodup_cons.1 (List.nodup_append.1 hnodup).2.1).1 hp

theorem newFile_valid : (newFile cveSchedule).Valid someScheduler where
  scheduled := ⟨TaskScheduler.unshuffled, ["cve_lookup"], true, 5, by decide +kernel⟩
  noNone := nofun

end FactCore.AnalysisScheduler
