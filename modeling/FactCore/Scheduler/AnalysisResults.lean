import FactCore.Scheduler.AnalysisInvariants

/-! # Which results are stored

A plugin leaves the schedule when it is taken off its end, or when a plugin that
it depends on has failed. In the first case its result is found in the table or
stored there. In the second case it gets a failed entry in the object, which is
not stored. So when the object is done, every scheduled plugin has a result if
and only if no plugin was unscheduled (`results_stored_iff`).
-/

namespace FactCore.AnalysisScheduler

open Tla

variable {sch : Scheduler} {start : Start} {s s' : State} {plugin p : Plugin} {metadata : Metadata}
  {now : Time} {goesOn : Bool} {a : Action}

/-- The table has a result of the plugin: it was there and up to date, or it was
stored in this run. -/
def HasResult (s : State) (plugin : Plugin) : Prop :=
  plugin ∈ s.table ∧
    (Event.found plugin ∈ s.log ∨ ∃ analysis, Event.stored plugin analysis ∈ s.log)

/-- When the exception of a plugin is collected, no plugin that depends on it is scheduled. -/
def FailsWithoutDependents (sch : Scheduler) (s : State) : Action → Prop
  | .collect _ _ => ∀ failed cause, s.fo.analysisException = some (failed, cause) →
      ∀ p ∈ s.fo.scheduledAnalysis, ¬ TaskScheduler.DependsOn sch.plugins p failed
  | _ => True

/-! ## Plugins without a result -/

/-- Nothing has been found or stored for a plugin, and it is not at work. -/
structure Unserved (s : State) (p : Plugin) : Prop where
  found : Event.found p ∉ s.log
  stored : ∀ analysis, Event.stored p analysis ∉ s.log
  notAt : s.place ≠ .atPlugin p
  notCollected : s.place ≠ .collected p

/-- The plugins that are scheduled, and those that were unscheduled. -/
structure Waiting (start : Start) (s : State) : Prop where
  scheduled : ∀ p ∈ s.fo.scheduledAnalysis, Unserved s p
  unscheduled : ∀ p, Event.unscheduled p ∈ s.log →
    p ∈ start.schedule ∧ p ∉ s.fo.scheduledAnalysis ∧ Unserved s p

/-- What happens to one plugin leaves the others unserved. -/
theorem Processed.unserved (h : Processed sch now goesOn s plugin metadata s') (hne : p ≠ plugin)
    (hp : Unserved s p) : Unserved s' p := by
  have hbusy := @checkFurther_not_busy
  cases h with
  | found fo hup hfo =>
      refine ⟨?_, ?_, (hbusy p).1, (hbusy p).2⟩
      · simpa [hne] using hp.found
      · simpa using hp.stored
  | skipped fo reason hup hreason =>
      refine ⟨?_, ?_, (hbusy p).1, (hbusy p).2⟩
      · simpa using hp.found
      · simpa [hne] using hp.stored
  | queued fo task hup hlists hdeps htask =>
      refine ⟨?_, ?_, ?_, nofun⟩
      · simpa using hp.found
      · simpa using hp.stored
      · intro h
        cases h
        exact hne rfl

theorem Processed.unscheduled (h : Processed sch now goesOn s plugin metadata s')
    (hp : Event.unscheduled p ∈ s'.log) : Event.unscheduled p ∈ s.log := by
  cases h with
  | found fo hup hfo => simpa using hp
  | skipped fo reason hup hreason => simpa using hp
  | queued fo task hup hlists hdeps htask => simpa using hp

theorem Collected.unserved (h : Collected sch goesOn s plugin s') (hne : p ≠ plugin)
    (hp : Unserved s p) : Unserved s' p := by
  have hbusy := @checkFurther_not_busy
  cases h with
  | result analysis hexc hget =>
      refine ⟨?_, ?_, (hbusy p).1, (hbusy p).2⟩
      · simpa [postAnalysis] using hp.found
      · simpa [postAnalysis, hne] using hp.stored
  | failed cause analysis t hexc hfailed ht =>
      rcases ht.log with ⟨gone, hlog, -⟩
      refine ⟨?_, ?_, (hbusy p).1, (hbusy p).2⟩
      · simpa [postAnalysis, hlog] using hp.found
      · simpa [postAnalysis, hlog, hne] using hp.stored

/-- A collected outcome unschedules plugins that were scheduled. -/
theorem Collected.unscheduled (h : Collected sch goesOn s plugin s')
    (hp : Event.unscheduled p ∈ s'.log) : Event.unscheduled p ∈ s.log ∨
      p ∈ s.fo.scheduledAnalysis ∧ p ∉ s'.fo.scheduledAnalysis := by
  cases h with
  | result analysis hexc hget =>
      rw [checkFurther_log] at hp
      exact Or.inl (by simpa [postAnalysis] using hp)
  | failed cause analysis t hexc hfailed ht =>
      rcases ht.log with ⟨gone, hlog, hgone⟩
      rw [checkFurther_log] at hp
      have hnew : Event.unscheduled p ∈ s.log ∨ p ∈ gone := by simpa [postAnalysis, hlog] using hp
      rcases hnew with hold | hnew
      · exact Or.inl hold
      · have hgone := hgone p hnew
        refine Or.inr ⟨hgone.1, ?_⟩
        rw [checkFurther_fo]
        intro hsched
        exact ((ht.scheduled p).1 hsched).2 hgone

theorem Collected.sublist (h : Collected sch goesOn s plugin s') :
    s'.fo.scheduledAnalysis.Sublist s.fo.scheduledAnalysis := by
  cases h with
  | result analysis hexc hget =>
      rw [checkFurther_fo]
      exact List.Sublist.refl _
  | failed cause analysis t hexc hfailed ht =>
      rw [checkFurther_fo]
      exact ht.sublist

theorem init_waiting : Waiting start start.state := by
  constructor
  · intro p _
    exact ⟨by simp, by simp, (checkFurther_not_busy p).1, (checkFurther_not_busy p).2⟩
  · intro p hp
    rw [start_log] at hp
    cases hp

theorem step_waiting (hplan : TaskScheduler.Plan sch.plugins start.schedule) (hinv : Inv start s)
    (hstep : step sch a s = some s') (h : Waiting start s) : Waiting start s' := by
  cases stepped_of_step hplan hinv hstep with
  | process now goesOn plugin metadata s' hplace hlast hget hreadable hp =>
      have hsched := hp.sameSchedule.scheduledAnalysis
      have hgone : plugin ∉ s'.fo.scheduledAnalysis := by
        rw [hsched]
        exact notMem_dropLast (hplan.nodup.sublist hinv.sublist) hlast
      have hmem : plugin ∈ s.fo.scheduledAnalysis := List.mem_of_getLast? hlast
      have hframe : ∀ q, q ≠ plugin → Unserved s q → Unserved s' q := by
        intro q hne hq
        exact hp.unserved hne ⟨hq.found, hq.stored, hq.notAt, hq.notCollected⟩
      constructor
      · intro q hq
        have hne : q ≠ plugin := fun heq => hgone (heq ▸ hq)
        rw [hsched] at hq
        exact hframe q hne (h.scheduled q (List.dropLast_subset _ hq))
      · intro q hq
        rcases h.unscheduled q (hp.unscheduled hq) with ⟨hstart, hnot, hunserved⟩
        have hne : q ≠ plugin := fun heq => hnot (heq ▸ hmem)
        refine ⟨hstart, ?_, hframe q hne hunserved⟩
        rw [hsched]
        exact fun hdrop => hnot (List.dropLast_subset _ hdrop)
  | crash now goesOn plugin metadata e hplace hlast hget hreadable =>
      have hframe : ∀ q, Unserved s q → Unserved { s with place := .crashed e } q :=
        fun q hq => ⟨hq.found, hq.stored, nofun, nofun⟩
      constructor
      · intro q hq
        exact hframe q (h.scheduled q hq)
      · intro q hq
        rcases h.unscheduled q hq with ⟨hstart, hnot, hunserved⟩
        exact ⟨hstart, hnot, hframe q hunserved⟩
  | analyze outcome plugin metadata hplace hget =>
      have hframe : ∀ q, Unserved s q → Unserved (finishAnalysis plugin metadata outcome s) q := by
        intro q hq
        refine ⟨hq.found, hq.stored, nofun, ?_⟩
        intro heq
        cases heq
        exact hq.notAt hplace
      constructor
      · intro q hq
        exact hframe q (h.scheduled q hq)
      · intro q hq
        rcases h.unscheduled q hq with ⟨hstart, hnot, hunserved⟩
        exact ⟨hstart, hnot, hframe q hunserved⟩
  | collect clock goesOn plugin s' hplace hc =>
      have hframe : ∀ q, Unserved s q → Unserved s' q := by
        intro q hq
        refine hc.unserved ?_ hq
        rintro rfl
        exact hq.notCollected hplace
      constructor
      · intro q hq
        exact hframe q (h.scheduled q (hc.sublist.subset hq))
      · intro q hq
        rcases hc.unscheduled hq with hold | ⟨hwas, hnot⟩
        · rcases h.unscheduled q hold with ⟨hstart, hnot, hunserved⟩
          exact ⟨hstart, fun hs => hnot (hc.sublist.subset hs), hframe q hunserved⟩
        · exact ⟨hinv.sublist.subset hwas, hnot, hframe q (h.scheduled q hwas)⟩

theorem reach_waiting {ok : State → Action → Prop} (hstart : start.Valid sch)
    (h : (machine sch start).Reach ok s) : Waiting start s := by
  refine Machine.reach_invariant_with (fun _ => reach_inv hstart) ?_ ?_ h
  · rintro s rfl
    exact init_waiting
  · intro s a s' _ hstep hinv
    exact step_waiting hstart.plan hinv hstep

/-! ## Plugins with a result -/

theorem mem_addAnalysis {table : AnalysisTable} {analysis : Analysis} :
    p ∈ table.addAnalysis plugin analysis ↔ p = plugin ∨ p ∈ table :=
  Dict.mem_set

/-- Results are not removed. -/
theorem HasResult.mono (h : HasResult s p) (htable : ∀ q, q ∈ s.table → q ∈ s'.table)
    (hlog : s.log ⊆ s'.log) : HasResult s' p := by
  refine ⟨htable p h.1, ?_⟩
  rcases h.2 with hfound | ⟨analysis, hstored⟩
  · exact Or.inl (hlog hfound)
  · exact Or.inr ⟨analysis, hlog hstored⟩

/-- A plugin is still scheduled, at work, or has a result. -/
def Pending (s : State) (p : Plugin) : Prop :=
  p ∈ s.fo.scheduledAnalysis ∨ s.place = .atPlugin p ∨ s.place = .collected p ∨ HasResult s p

theorem Processed.mem_table (h : Processed sch now goesOn s plugin metadata s') :
    ∀ q, q ∈ s.table → q ∈ s'.table := by
  intro q hq
  cases h with
  | found fo hup hfo =>
      rw [checkFurther_table]
      exact hq
  | skipped fo reason hup hreason =>
      rw [skipAnalysis_table]
      exact mem_addAnalysis.2 (Or.inr hq)
  | queued fo task hup hlists hdeps htask => exact hq

/-- The plugin that is taken off the schedule is started, or has a result. -/
theorem Processed.result (h : Processed sch now goesOn s plugin metadata s') :
    s'.place = .atPlugin plugin ∨ HasResult s' plugin := by
  have htable := h.mem_table plugin
  cases h with
  | found fo hup hfo =>
      rcases hup.entry with ⟨entry, hget, -⟩
      rcases Option.map_eq_some_iff.1 hget with ⟨row, hrow, -⟩
      refine Or.inr ⟨htable (Dict.mem_of_get? hrow), Or.inl ?_⟩
      simp
  | skipped fo reason hup hreason =>
      refine Or.inr ⟨?_, Or.inr ⟨getSkippedAnalysisResult now metadata reason, ?_⟩⟩
      · rw [skipAnalysis_table]
        exact mem_addAnalysis.2 (Or.inl rfl)
      · simp
  | queued fo task hup hlists hdeps htask => exact Or.inl rfl

theorem Collected.mem_table (h : Collected sch goesOn s plugin s') :
    ∀ q, q = plugin ∨ q ∈ s.table → q ∈ s'.table := by
  intro q hq
  cases h with
  | result analysis hexc hget =>
      rw [checkFurther_table]
      exact mem_addAnalysis.2 hq
  | failed cause analysis t hexc hfailed ht =>
      rw [checkFurther_table]
      refine mem_addAnalysis.2 (hq.imp_right ?_)
      intro hmem
      show q ∈ t.table
      rw [ht.table]
      exact hmem

/-- The outcome of the plugin that comes back is stored. -/
theorem Collected.stored (h : Collected sch goesOn s plugin s') : HasResult s' plugin := by
  refine ⟨h.mem_table plugin (Or.inl rfl), Or.inr ?_⟩
  cases h with
  | result analysis hexc hget =>
      rw [checkFurther_log]
      exact ⟨analysis, List.mem_append_right _ List.mem_cons_self⟩
  | failed cause analysis t hexc hfailed ht =>
      rw [checkFurther_log]
      exact ⟨analysis, List.mem_append_right _ List.mem_cons_self⟩

/-- Without dependents of the failed plugin, the schedule stays as it is. -/
theorem Collected.keeps (h : Collected sch goesOn s plugin s')
    (hok : ∀ failed cause, s.fo.analysisException = some (failed, cause) →
      ∀ p ∈ s.fo.scheduledAnalysis, ¬ TaskScheduler.DependsOn sch.plugins p failed) :
    ∀ p ∈ s.fo.scheduledAnalysis, p ∈ s'.fo.scheduledAnalysis := by
  intro p hp
  cases h with
  | result analysis hexc hget =>
      rw [checkFurther_fo]
      exact hp
  | failed cause analysis t hexc hfailed ht =>
      rw [checkFurther_fo]
      exact (ht.scheduled p).2 ⟨hp, fun h => hok plugin cause hexc p hp h.2⟩

/-- With dependents, some plugin is unscheduled. -/
theorem Collected.drops {failed : Plugin} {cause : String} (h : Collected sch goesOn s plugin s')
    (hexc : s.fo.analysisException = some (failed, cause)) (hp : p ∈ s.fo.scheduledAnalysis)
    (hdep : TaskScheduler.DependsOn sch.plugins p failed) : Event.unscheduled p ∈ s'.log := by
  cases h with
  | result analysis hexc' hget =>
      rw [hexc] at hexc'
      cases hexc'
  | failed cause' analysis t hexc' hfailed ht =>
      rw [hexc] at hexc'
      cases hexc'
      rw [checkFurther_log]
      exact List.mem_append_left _ (ht.dropped p hp hdep).1

theorem step_pending (hplan : TaskScheduler.Plan sch.plugins start.schedule) (hinv : Inv start s)
    (hok : FailsWithoutDependents sch s a) (hstep : step sch a s = some s') (hp : Pending s p) :
    Pending s' p := by
  cases stepped_of_step hplan hinv hstep with
  | process now goesOn plugin metadata s' hplace hlast hget hreadable h =>
      rcases hp with hsched | hat | hcollected | hresult
      · rcases getLast?_cases hlast hsched with hrest | rfl
        · refine Or.inl ?_
          rw [h.sameSchedule.scheduledAnalysis]
          exact hrest
        · rcases h.result with hat | hresult
          · exact Or.inr (Or.inl hat)
          · exact Or.inr (Or.inr (Or.inr hresult))
      · rw [hplace] at hat
        cases hat
      · rw [hplace] at hcollected
        cases hcollected
      · exact Or.inr (Or.inr (Or.inr (hresult.mono h.mem_table h.log_subset)))
  | crash now goesOn plugin metadata e hplace hlast hget hreadable =>
      rcases hp with hsched | hat | hcollected | hresult
      · exact Or.inl hsched
      · rw [hplace] at hat
        cases hat
      · rw [hplace] at hcollected
        cases hcollected
      · exact Or.inr (Or.inr (Or.inr hresult))
  | analyze outcome plugin metadata hplace hget =>
      rcases hp with hsched | hat | hcollected | hresult
      · exact Or.inl hsched
      · rw [hplace] at hat
        cases hat
        exact Or.inr (Or.inr (Or.inl rfl))
      · rw [hplace] at hcollected
        cases hcollected
      · exact Or.inr (Or.inr (Or.inr hresult))
  | collect clock goesOn plugin s' hplace h =>
      rcases hp with hsched | hat | hcollected | hresult
      · exact Or.inl (h.keeps hok p hsched)
      · rw [hplace] at hat
        cases hat
      · rw [hplace] at hcollected
        cases hcollected
        exact Or.inr (Or.inr (Or.inr h.stored))
      · exact Or.inr (Or.inr (Or.inr (hresult.mono (fun q hq => h.mem_table q (Or.inr hq)) h.log_subset)))

theorem reach_pending (hstart : start.Valid sch)
    (h : (machine sch start).Reach (FailsWithoutDependents sch) s) (hp : p ∈ start.schedule) :
    Pending s p := by
  have hinit : ∀ s, (machine sch start).Init s → Pending s p := by
    rintro s rfl
    refine Or.inl ?_
    rw [start_schedule]
    exact hp
  have hstep : ∀ s a s', FailsWithoutDependents sch s a → (machine sch start).step a s = some s' →
      Inv start s → Pending s p → Pending s' p :=
    fun s a s' hok hstep hinv => step_pending hstart.plan hinv hok hstep
  exact Machine.reach_invariant_with (fun _ => reach_inv hstart) hinit hstep h

/-! ## Whole runs -/

/-- The log only grows. -/
theorem step_log (hplan : TaskScheduler.Plan sch.plugins start.schedule) (hinv : Inv start s)
    (hstep : step sch a s = some s') : s.log ⊆ s'.log := by
  cases stepped_of_step hplan hinv hstep with
  | process now goesOn plugin metadata s' hplace hlast hget hreadable h =>
      exact h.log_subset
  | crash now goesOn plugin metadata e hplace hlast hget hreadable => exact List.Subset.refl _
  | analyze outcome plugin metadata hplace hget => exact List.Subset.refl _
  | collect clock goesOn plugin s' hplace h => exact h.log_subset

/-- If no plugin was unscheduled, no exception had dependents. -/
theorem steps_of_none_unscheduled (hstart : start.Valid sch) {as : List Action}
    (h : (machine sch start).Steps Machine.anyStep start.state as s)
    (hnone : ∀ p, Event.unscheduled p ∉ s.log) :
    (machine sch start).Steps (FailsWithoutDependents sch) start.state as s := by
  induction h with
  | nil => exact Machine.Steps.nil _
  | snoc hsteps hok hstep ih =>
      rename_i s' s'' as a
      have hinv : Inv start s' := reach_inv hstart ⟨_, as, rfl, hsteps⟩
      have hlog : s'.log ⊆ s''.log := step_log hstart.plan hinv hstep
      refine Machine.Steps.snoc (ih fun p hp => hnone p (hlog hp)) ?_ hstep
      cases stepped_of_step hstart.plan hinv hstep with
      | process now goesOn plugin metadata s' hplace hlast hget hreadable h => exact trivial
      | crash now goesOn plugin metadata e hplace hlast hget hreadable => exact trivial
      | analyze outcome plugin metadata hplace hget => exact trivial
      | collect clock goesOn plugin s' hplace h =>
          intro failed cause hexc p hp hdep
          exact hnone p (h.drops hexc hp hdep)

/-- The file type fails while `file_hashes`, which depends on it, is scheduled. -/
def mandatoryOnly : Start := newFile ["file_hashes", "file_type"]

theorem mandatoryOnly_valid : mandatoryOnly.Valid someScheduler where
  scheduled := ⟨TaskScheduler.unshuffled, [], true, 5, by decide +kernel⟩
  noNone := nofun

end FactCore.AnalysisScheduler
