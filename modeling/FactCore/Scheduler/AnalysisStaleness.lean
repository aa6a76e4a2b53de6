import FactCore.Scheduler.AnalysisConsistency

/-! # What an update executes

A plugin is executed if its entry is missing, failed, made by an older version, or
older than the entry of a dependency, and skipped if lists or dependencies forbid
it. So what is executed makes everything stale that depends on it, up to where a
plugin is skipped; and a run leaves entries which are up to date, or whose
plugins would be skipped again (`update_idempotent`).
-/

namespace FactCore.AnalysisScheduler

open Tla

variable {sch : Scheduler} {start again : Start} {s s' : State} {fo : ScheduledObject}
  {table : AnalysisTable} {plugin p d : Plugin} {metadata : Metadata} {now : Time}
  {goesOn : Bool} {a : Action} {log : List Event}

/-! ## The conditions -/

/-- A plugin was put into the queue of its runner. -/
def Executed (log : List Event) (plugin : Plugin) : Prop := ∃ task, Event.queued plugin task ∈ log

/-- A plugin was recorded as skipped. -/
def Skipped (log : List Event) (plugin : Plugin) : Prop :=
  ∃ reason, Event.skipped plugin reason ∈ log

/-- A time is later than the dates of all entries. -/
def LaterThanAll (table : AnalysisTable) (time : Time) : Prop :=
  ∀ row ∈ table.items, row.2.analysisDate < time

/-- Every plugin that is run succeeds: it is started later than everything that was
stored before, and what it returns is not taken for a failure. -/
def Succeeds (s : State) : Action → Prop
  | .analyze (.returned startTime result) =>
      LaterThanAll s.table startTime ∧ "failed" ∉ result.getD ∅
  | .analyze _ => False
  | _ => True

instance (table : AnalysisTable) (time : Time) : Decidable (LaterThanAll table time) :=
  inferInstanceAs (Decidable (∀ row ∈ table.items, row.2.analysisDate < time))

instance succeedsDecidable (s : State) : (a : Action) → Decidable (Succeeds s a)
  | .process _ _ => isTrue trivial
  | .analyze (.returned startTime result) =>
      inferInstanceAs (Decidable (LaterThanAll s.table startTime ∧ "failed" ∉ result.getD ∅))
  | .analyze (.exception _) => isFalse id
  | .analyze .timeout => isFalse id
  | .collect _ _ => isTrue trivial

theorem Succeeds.returns (h : Succeeds s a) : Returns s a := by
  cases a with
  | process now goesOn => trivial
  | analyze outcome =>
      cases outcome with
      | returned startTime result => trivial
      | exception cause => exact h
      | timeout => exact h
  | collect clock goesOn => trivial

theorem LaterThanAll.lt {time : Time} {entry : Analysis} (h : LaterThanAll table time)
    (hget : table.getAnalysis p = some entry) : entry.analysisDate < time := by
  rcases Option.map_eq_some_iff.1 hget with ⟨row, hrow, rfl⟩
  exact h (p, row) (Dict.get?_eq_some_iff.1 hrow)

/-! ## A run that succeeds -/

theorem executed_append {new : List Event} :
    Executed (log ++ new) p ↔ Executed log p ∨ Executed new p := by
  simp [Executed, exists_or]

theorem Executed.of_append {new : List Event} (h : Executed (log ++ new) p)
    (hnew : ∀ task, Event.queued p task ∉ new) : Executed log p := by
  refine (executed_append.1 h).resolve_right ?_
  rintro ⟨task, htask⟩
  exact hnew task htask

theorem Skipped.append (h : Skipped log p) (new : List Event) : Skipped (log ++ new) p := by
  rcases h with ⟨reason, h⟩
  exact ⟨reason, List.mem_append_left _ h⟩

/-- The invariant: what is scheduled was not executed; what is done is up to date or
would be skipped again; results are newer than the entries of scheduled plugins;
nothing that was left as it is depends on a plugin that was executed; and a plugin
at work will have a result that is newer than all entries. -/
structure Updated (sch : Scheduler) (start : Start) (s : State) : Prop where
  fresh : ∀ p ∈ s.fo.scheduledAnalysis, ¬ Executed s.log p
  resolved : ∀ p metadata, sch.plugins.get? p = some metadata → Done start s p →
    Resolved sch s.table p metadata
  newer : ∀ d, Done start s d → Executed s.log d → ∀ p ∈ s.fo.scheduledAnalysis,
    ∀ entry dependencyEntry, s.table.getAnalysis p = some entry →
      s.table.getAnalysis d = some dependencyEntry →
      entry.analysisDate < dependencyEntry.analysisDate
  stale : ∀ p ∈ start.schedule, p ∉ s.fo.scheduledAnalysis →
    ∀ d, TaskScheduler.DependsOn sch.plugins p d → Executed s.log d →
      Executed s.log p ∨ Skipped s.log p
  inputs : ∀ p, s.place = .atPlugin p ∨ s.place = .collected p →
    ∀ d, TaskScheduler.DependsOn sch.plugins p d → ∃ entry, s.table.getAnalysis d = some entry
  result : ∀ p, s.place = .collected p → ∃ metadata startTime result,
    sch.plugins.get? p = some metadata ∧ LaterThanAll s.table startTime ∧ "failed" ∉ result.getD ∅ ∧
    s.fo.processedAnalysis.get? p = some (some (newAnalysis metadata startTime result))

theorem init_updated : Updated sch start start.state := by
  refine ⟨?_, ?_, ?_, ?_, ?_, ?_⟩
  · intro p _
    rw [start_log]
    rintro ⟨task, htask⟩
    cases htask
  · intro p metadata _ hdone
    have hgone := hdone.gone
    rw [start_schedule] at hgone
    exact absurd hdone.mem hgone
  · intro d _ hexecuted
    rw [start_log] at hexecuted
    rcases hexecuted with ⟨task, htask⟩
    cases htask
  · intro p hp hgone
    rw [start_schedule] at hgone
    exact absurd hp hgone
  · rintro p (hat | hcollected)
    · exact absurd hat (checkFurther_not_busy p).1
    · exact absurd hcollected (checkFurther_not_busy p).2
  · intro p hcollected
    exact absurd hcollected (checkFurther_not_busy p).2

section

variable (hclosed : TaskScheduler.Closed sch.plugins)
  (hplan : TaskScheduler.Plan sch.plugins start.schedule)
  (hordered : Dependencies.Ordered (TaskScheduler.DependsOn sch.plugins) start.schedule)
include hclosed hplan hordered

/-- A plugin is found up to date only if none of its dependencies was executed. -/
theorem Updated.not_executed (h : Updated sch start s) (hconsistent : Consistent sch start s)
    (hplace : s.place = .inQueue) (hlast : s.fo.scheduledAnalysis.getLast? = some plugin)
    (hget : sch.plugins.get? plugin = some metadata) (hup : UpToDate sch s.pop plugin metadata)
    (hd : d ∈ metadata.dependencies) : ¬ Executed s.log d := by
  intro hexecuted
  rcases hconsistent.dependency hclosed hplan hordered hplace hlast ⟨metadata, hget, hd⟩ with
    ⟨hdone, -, -⟩
  rcases dependency_of_upToDate hup.2 hd with ⟨entry, dependencyEntry, hentry, hdep, hnot⟩
  exact hnot (h.newer d hdone hexecuted plugin (List.mem_of_getLast? hlast) entry dependencyEntry
    hentry hdep)

/-- What all calls have in common: they change the entry of their plugin only, and of
the events that they log none queues another plugin. -/
theorem updated_call {new : List Event} (h : Updated sch start s)
    (hconsistent : Consistent sch start s) (hinv : Inv start s) (hplace : s.place = .inQueue)
    (hlast : s.fo.scheduledAnalysis.getLast? = some plugin)
    (hget : sch.plugins.get? plugin = some metadata)
    (hsched : s'.fo.scheduledAnalysis = s.fo.scheduledAnalysis.dropLast)
    (hlog : s'.log = s.log ++ new) (hnew : ∀ p task, Event.queued p task ∈ new → p = plugin)
    (htable : ∀ p, p ≠ plugin → s'.table.getAnalysis p = s.table.getAnalysis p)
    (hfileType : s'.table.getAnalysis "file_type" = s.table.getAnalysis "file_type")
    (hresolved : Done start s' plugin → Resolved sch s'.table plugin metadata)
    (hexecuted : Done start s' plugin → ¬ Executed s'.log plugin)
    (hstale : ∀ d ∈ metadata.dependencies, Executed s.log d →
      Executed s'.log plugin ∨ Skipped s'.log plugin)
    (hinputs : ∀ p, s'.place = .atPlugin p → p = plugin ∧
      ∀ d ∈ metadata.dependencies, ∃ entry, s'.table.getAnalysis d = some entry)
    (hcollected : ∀ p, s'.place ≠ .collected p) : Updated sch start s' := by
  have hmem : plugin ∈ s.fo.scheduledAnalysis := List.mem_of_getLast? hlast
  have hgone : plugin ∉ s'.fo.scheduledAnalysis := by
    rw [hsched]
    exact notMem_dropLast (hplan.nodup.sublist hinv.sublist) hlast
  have hsub : ∀ p ∈ s'.fo.scheduledAnalysis, p ∈ s.fo.scheduledAnalysis := by
    intro p hp
    rw [hsched] at hp
    exact List.dropLast_subset _ hp
  have hold : ∀ p, p ≠ plugin → Executed s'.log p → Executed s.log p := by
    intro p hne hp
    rw [hlog] at hp
    exact hp.of_append fun task htask => hne (hnew p task htask)
  have hne : ∀ d, Done start s d → d ≠ plugin := by
    rintro d hdone rfl
    exact hdone.gone hmem
  refine ⟨?_, ?_, ?_, ?_, ?_, fun p hp => absurd hp (hcollected p)⟩
  · intro p hp hlog'
    have hpne : p ≠ plugin := fun heq => hgone (heq ▸ hp)
    exact h.fresh p (hsub p hp) (hold p hpne hlog')
  · intro p metadata' hget' hdone
    rcases hdone.before_call hplace hlast hsched with rfl | hbefore
    · cases hget.symm.trans hget'
      exact hresolved hdone
    · refine (h.resolved p metadata' hget' hbefore).congr (htable p (hne p hbefore)) hfileType ?_
      intro d hd
      exact htable d (hne d (hconsistent.done_closed hplan.nodup hordered hbefore ⟨metadata', hget', hd⟩))
  · intro d hdone hlog' p hp
    have hpne : p ≠ plugin := fun heq => hgone (heq ▸ hp)
    rcases hdone.before_call hplace hlast hsched with rfl | hbefore
    · exact absurd hlog' (hexecuted hdone)
    · rw [htable p hpne, htable d (hne d hbefore)]
      exact h.newer d hbefore (hold d (hne d hbefore) hlog') p (hsub p hp)
  · intro p hp hpgone d hdep hlog'
    by_cases hin : p ∈ s.fo.scheduledAnalysis
    · have hrest : p ∉ s.fo.scheduledAnalysis.dropLast := hsched ▸ hpgone
      obtain rfl : p = plugin := (getLast?_cases hlast hin).resolve_left hrest
      have hd := (hconsistent.dependency hclosed hplan hordered hplace hlast hdep).1
      rcases hdep with ⟨metadata', hget', hmem'⟩
      cases hget.symm.trans hget'
      exact hstale d hmem' (hold d (hne d hd) hlog')
    · have hdone : Done start s p := ⟨hp, hin, by simp [hplace], by simp [hplace]⟩
      have hd := hconsistent.done_closed hplan.nodup hordered hdone hdep
      rw [hlog]
      rcases h.stale p hp hin d hdep (hold d (hne d hd) hlog') with hqueued | hskipped
      · exact Or.inl (executed_append.2 (Or.inl hqueued))
      · exact Or.inr (hskipped.append _)
  · rintro p (hat | hp) d ⟨metadata', hget', hd⟩
    · rcases hinputs p hat with ⟨rfl, hentries⟩
      cases hget.symm.trans hget'
      exact hentries d hd
    · exact absurd hp (hcollected p)

theorem updated_found (h : Updated sch start s) (hconsistent : Consistent sch start s)
    (hinv : Inv start s) (hplace : s.place = .inQueue)
    (hlast : s.fo.scheduledAnalysis.getLast? = some plugin)
    (hget : sch.plugins.get? plugin = some metadata) (hup : UpToDate sch s.pop plugin metadata)
    (hsched : fo.scheduledAnalysis = s.fo.scheduledAnalysis.dropLast) :
    Updated sch start (checkFurtherProcessOrComplete goesOn { s.pop with
      fo := fo, log := s.pop.log ++ [.found plugin] }) := by
  have htable : (checkFurtherProcessOrComplete goesOn { s.pop with
      fo := fo, log := s.pop.log ++ [.found plugin] }).table = s.table := checkFurther_table
  have hlog : (checkFurtherProcessOrComplete goesOn { s.pop with
      fo := fo, log := s.pop.log ++ [.found plugin] }).log = s.log ++ [.found plugin] :=
    checkFurther_log
  refine updated_call hclosed hplan hordered h hconsistent hinv hplace hlast hget
    (by rw [checkFurther_fo]; exact hsched) hlog (by simp) (by simp) (by rw [htable])
    ?_ ?_ ?_ ?_ fun p => (checkFurther_not_busy p).2
  · intro _
    rw [htable]
    exact Or.inl hup.2
  · intro _ hexecuted
    rw [hlog] at hexecuted
    exact h.fresh plugin (List.mem_of_getLast? hlast) (hexecuted.of_append (by simp))
  · intro d hd hexecuted
    exact absurd hexecuted
      (h.not_executed hclosed hplan hordered hconsistent hplace hlast hget hup hd)
  · intro p hat
    exact absurd hat (checkFurther_not_busy p).1

theorem updated_skipped {reason : String} (h : Updated sch start s)
    (hconsistent : Consistent sch start s) (hinv : Inv start s) (hplace : s.place = .inQueue)
    (hlast : s.fo.scheduledAnalysis.getLast? = some plugin)
    (hget : sch.plugins.get? plugin = some metadata)
    (hreason : SkipReason sch s.pop plugin metadata fo reason) :
    Updated sch start (skipAnalysis now goesOn plugin metadata reason { s.pop with fo := fo }) := by
  rcases hreason.checked with ⟨b, hlists⟩
  have hsched := (sameSchedule_isBlacklisted hlists).scheduledAnalysis
  have hwont := hreason.wontRun hclosed hplan hordered hconsistent hinv.noNone hplace hlast hget
  have hne : "file_type" ≠ plugin := (hwont.ne_fileType hclosed hget).symm
  have htable : ∀ p, p ≠ plugin → (skipAnalysis now goesOn plugin metadata reason
      { s.pop with fo := fo }).table.getAnalysis p = s.table.getAnalysis p := by
    intro p hp
    rw [skipAnalysis_table]
    exact AnalysisTable.getAnalysis_addAnalysis_ne hp
  refine updated_call hclosed hplan hordered h hconsistent hinv hplace hlast hget
    (by rw [skipAnalysis_fo]; exact hsched) skipAnalysis_log (by simp) htable
    (htable "file_type" hne) ?_ ?_ ?_ ?_ fun p => (checkFurther_not_busy p).2
  · intro _
    refine Or.inr (hwont.congr (htable "file_type" hne) ?_)
    intro d hd
    have hdone := (hconsistent.dependency hclosed hplan hordered hplace hlast
      ⟨metadata, hget, hd⟩).1
    refine htable d ?_
    rintro rfl
    exact hdone.gone (List.mem_of_getLast? hlast)
  · intro _ hexecuted
    rw [skipAnalysis_log] at hexecuted
    exact h.fresh plugin (List.mem_of_getLast? hlast) (hexecuted.of_append (by simp))
  · intro d _ _
    rw [skipAnalysis_log]
    exact Or.inr ⟨reason, by simp⟩
  · intro p hat
    exact absurd hat (checkFurther_not_busy p).1

theorem updated_queued {task : Task} (h : Updated sch start s) (hconsistent : Consistent sch start s)
    (hinv : Inv start s) (hplace : s.place = .inQueue)
    (hlast : s.fo.scheduledAnalysis.getLast? = some plugin)
    (hget : sch.plugins.get? plugin = some metadata)
    (hlists : isBlacklisted sch plugin metadata s.pop = .ok (false, fo))
    (hdeps : ∀ d ∈ metadata.dependencies, Fulfilled fo d) :
    Updated sch start { s.pop with
      fo := fo, place := .atPlugin plugin, log := s.pop.log ++ [.queued plugin task] } := by
  have hsched := (sameSchedule_isBlacklisted hlists).scheduledAnalysis
  refine updated_call hclosed hplan hordered h hconsistent hinv hplace hlast hget hsched rfl ?_
    (fun _ _ => rfl) rfl ?_ ?_ ?_ ?_ nofun
  · intro p task' htask
    simp only [List.mem_singleton, Event.queued.injEq] at htask
    exact htask.1
  · intro hdone
    exact absurd rfl hdone.notAt
  · intro hdone
    exact absurd rfl hdone.notAt
  · intro d _ _
    exact Or.inl ⟨task, List.mem_append_right _ List.mem_cons_self⟩
  · intro p hat
    cases hat
    refine ⟨rfl, ?_⟩
    intro d hd
    rcases hdeps d hd with ⟨analysis, hanalysis, -⟩
    have hagrees : Agrees s.pop.table s.pop.fo d :=
      (hconsistent.dependency hclosed hplan hordered hplace hlast ⟨metadata, hget, hd⟩).2.1
    rcases hagrees.checked hlists analysis hanalysis with ⟨entry, hentry, -⟩
    exact ⟨entry, hentry⟩

omit hclosed hplan hordered in
/-- A plugin succeeds. -/
theorem updated_returned {startTime : Time} {result : Option Mapping} (h : Updated sch start s)
    (hplace : s.place = .atPlugin plugin) (hget : sch.plugins.get? plugin = some metadata)
    (hlater : LaterThanAll s.table startTime) (hfailed : "failed" ∉ result.getD ∅) :
    Updated sch start (finishAnalysis plugin metadata (.returned startTime result) s) := by
  have hbefore : ∀ p, Done start (finishAnalysis plugin metadata (.returned startTime result) s) p →
      Done start s p := by
    intro p hdone
    refine ⟨hdone.mem, hdone.gone, ?_, by simp [hplace]⟩
    rw [hplace]
    intro heq
    exact hdone.notCollected (congrArg Place.collected (Place.atPlugin.inj heq))
  refine ⟨h.fresh, ?_, ?_, h.stale, ?_, ?_⟩
  · intro p metadata' hget' hdone
    exact h.resolved p metadata' hget' (hbefore p hdone)
  · intro d hdone
    exact h.newer d (hbefore d hdone)
  · rintro p (hat | hcollected)
    · cases hat
    · cases hcollected
      exact h.inputs plugin (Or.inl hplace)
  · intro p hcollected
    cases hcollected
    exact ⟨metadata, startTime, result, hget, hlater, hfailed, Dict.get?_set_self _ _ _⟩

omit hclosed in
/-- The result of a plugin is stored. -/
theorem updated_collected (hversions : VersionsValid sch)
    (hlast : "file_type" ∈ start.schedule → start.schedule.getLast? = some "file_type")
    {analysis : Analysis} (h : Updated sch start s) (hconsistent : Consistent sch start s)
    (hinv : Inv start s) (hplace : s.place = .collected plugin)
    (hanalysis : s.fo.processedAnalysis.get? plugin = some (some analysis)) :
    Updated sch start (checkFurtherProcessOrComplete goesOn (postAnalysis plugin analysis s)) := by
  rcases h.result plugin hplace with ⟨metadata, startTime, result, hget, hlater, hfailed, hnew⟩
  obtain rfl : newAnalysis metadata startTime result = analysis := by simpa [hnew] using hanalysis
  rcases hinv.busy plugin (Or.inr hplace) with ⟨hmem, hgone⟩
  let t := checkFurtherProcessOrComplete goesOn
    (postAnalysis plugin (newAnalysis metadata startTime result) s)
  have hfo : t.fo = s.fo := checkFurther_fo
  have hlog : t.log = s.log ++ [.stored plugin (newAnalysis metadata startTime result)] :=
    checkFurther_log
  have htable : t.table = s.table.addAnalysis plugin (newAnalysis metadata startTime result) :=
    checkFurther_table
  have hother : ∀ p, p ≠ plugin → t.table.getAnalysis p = s.table.getAnalysis p := by
    intro p hp
    rw [htable, AnalysisTable.getAnalysis_addAnalysis_ne hp]
  have hself : t.table.getAnalysis plugin =
      some (newAnalysis metadata startTime result).entryToDict := by
    rw [htable, AnalysisTable.getAnalysis_addAnalysis_self]
  have hexecuted : ∀ p, Executed t.log p → Executed s.log p := by
    intro p hp
    rw [hlog] at hp
    exact hp.of_append (by simp)
  -- the other plugins were done before, and only their entries are untouched
  have hbefore : ∀ p, p ≠ plugin → Done start t p → Done start s p := by
    intro p hne hdone
    refine ⟨hdone.mem, hfo ▸ hdone.gone, by simp [hplace], ?_⟩
    rw [hplace]
    exact fun heq => hne (Place.collected.inj heq).symm
  have hne : ∀ p, Done start s p → p ≠ plugin := by
    rintro p hdone rfl
    exact hdone.notCollected hplace
  refine ⟨?_, ?_, ?_, ?_, ?_, ?_⟩
  · intro p hp hp'
    rw [checkFurther_fo] at hp
    exact h.fresh p hp (hexecuted p hp')
  · intro p metadata' hget' hdone
    by_cases hp : p = plugin
    · subst hp
      cases hget.symm.trans hget'
      refine Or.inl (upToDate_of_newAnalysis hversions hget hself ?_ rfl rfl ?_)
      · simpa [Analysis.hasKey, Analysis.entryToDict, newAnalysis] using hfailed
      · intro d hd
        rcases h.inputs p (Or.inr hplace) d ⟨metadata, hget, hd⟩ with ⟨entry, hentry⟩
        -- a plugin does not depend on itself: its dependencies are popped before it
        have hd' : d ≠ p := by
          rcases hconsistent.atWork p (Or.inr hplace) with ⟨popped, hsched⟩
          have hordered' := hordered
          have hnodup := hplan.nodup
          rw [hsched] at hordered' hnodup
          rintro rfl
          exact (List.nodup_cons.1 (List.nodup_append.1 hnodup).2.1).1
            (hordered'.split d ⟨metadata, hget, hd⟩)
        exact ⟨entry, (hother d hd').trans hentry, hlater.lt hentry⟩
    · have hdone' := hbefore p hp hdone
      refine (h.resolved p metadata' hget' hdone').congr (hother p hp) ?_ ?_
      · refine hother _ ?_
        rintro rfl
        exact hne _ (hconsistent.done_fileType hplan.nodup hlast hdone' hmem) rfl
      · intro d hd
        exact hother d (hne d (hconsistent.done_closed hplan.nodup hordered hdone' ⟨metadata', hget', hd⟩))
  · intro d hdone hlog' p hp entry dependencyEntry hentry hdep
    rw [checkFurther_fo] at hp
    have hp' : p ≠ plugin := fun heq => hgone (heq ▸ hp)
    have hentry' := (hother p hp').symm.trans hentry
    by_cases hd : d = plugin
    · subst hd
      cases hself.symm.trans hdep
      exact hlater.lt hentry'
    · exact h.newer d (hbefore d hd hdone) (hexecuted d hlog') p hp entry dependencyEntry hentry'
        ((hother d hd).symm.trans hdep)
  · intro p hp hpgone d hdep hlog'
    rw [checkFurther_fo] at hpgone
    have hboth := h.stale p hp hpgone d hdep (hexecuted d hlog')
    show Executed t.log p ∨ Skipped t.log p
    rw [hlog]
    rcases hboth with hqueued | hskipped
    · exact Or.inl (executed_append.2 (Or.inl hqueued))
    · exact Or.inr (hskipped.append _)
  · rintro p (hat | hcollected)
    · exact absurd hat (checkFurther_not_busy p).1
    · exact absurd hcollected (checkFurther_not_busy p).2
  · intro p hcollected
    exact absurd hcollected (checkFurther_not_busy p).2

theorem step_updated (hversions : VersionsValid sch)
    (hfileType : "file_type" ∈ start.schedule → start.schedule.getLast? = some "file_type")
    (hinv : Inv start s) (hconsistent : Consistent sch start s) (hok : Succeeds s a)
    (hstep : step sch a s = some s') (h : Updated sch start s) : Updated sch start s' := by
  cases stepped_of_step hplan hinv hstep with
  | process now goesOn plugin metadata s' hplace hlast hget hreadable hp =>
      have hsched := hp.sameSchedule.scheduledAnalysis
      cases hp with
      | found fo hup hfo =>
          rw [checkFurther_fo] at hsched
          exact updated_found hclosed hplan hordered h hconsistent hinv hplace hlast hget hup hsched
      | skipped fo reason hup hreason =>
          exact updated_skipped hclosed hplan hordered h hconsistent hinv hplace hlast hget hreason
      | queued fo task hup hlists hdeps htask =>
          exact updated_queued hclosed hplan hordered h hconsistent hinv hplace hlast hget hlists hdeps
  | crash now goesOn plugin metadata e hplace hlast hget hreadable =>
      have hbefore : ∀ p, Done start { s with place := .crashed e } p → Done start s p :=
        fun p hdone => ⟨hdone.mem, hdone.gone, by simp [hplace], by simp [hplace]⟩
      refine ⟨h.fresh, ?_, ?_, h.stale, by simp, nofun⟩
      · intro p metadata' hget' hdone
        exact h.resolved p metadata' hget' (hbefore p hdone)
      · intro d hdone
        exact h.newer d (hbefore d hdone)
  | analyze outcome plugin metadata hplace hget =>
      cases outcome with
      | returned startTime result => exact updated_returned h hplace hget hok.1 hok.2
      | exception cause => exact absurd hok id
      | timeout => exact absurd hok id
  | collect clock goesOn plugin s' hplace hc =>
      cases hc with
      | result analysis hexc hget =>
          exact updated_collected hplan hordered hversions hfileType h hconsistent hinv hplace hget
      | failed cause analysis t hexc hfailed ht =>
          rw [hconsistent.orderly.noException] at hexc
          cases hexc

end

theorem reach_consistent {ok : State → Action → Prop} (hstart : start.Valid sch)
    (hloaded : start.Loaded sch) (hok : ∀ s a, ok s a → Returns s a)
    (h : (machine sch start).Reach ok s) : Consistent sch start s := by
  refine Machine.reach_invariant_with (fun _ => reach_inv hstart) ?_ ?_ h
  · rintro s rfl
    exact init_consistent hloaded
  · intro s a s' ha hstep hinv
    exact step_consistent hstart.plan hinv (hok s a ha) hstep

theorem reach_updated (hclosed : TaskScheduler.Closed sch.plugins) (hversions : VersionsValid sch)
    (hstart : start.Valid sch) (hloaded : start.Loaded sch)
    (h : (machine sch start).Reach Succeeds s) : Updated sch start s := by
  have hbasic : ∀ s, (machine sch start).Reach Succeeds s → Inv start s ∧ Consistent sch start s :=
    fun s hs => ⟨reach_inv hstart hs,
      reach_consistent hstart hloaded (fun _ _ hok => hok.returns) hs⟩
  refine Machine.reach_invariant_with hbasic ?_ ?_ h
  · rintro s rfl
    exact init_updated
  · rintro s a s' hok hstep ⟨hinv, hconsistent⟩
    exact step_updated hclosed hstart.plan (hstart.ordered hclosed) hversions hstart.fileType_last hinv
      hconsistent hok hstep

/-- Executing a plugin makes all that needs it stale, up to where a plugin is skipped. -/
theorem Updated.stale_transitive (h : Updated sch start s)
    (hplan : TaskScheduler.Plan sch.plugins start.schedule) (hempty : s.fo.scheduledAnalysis = [])
    (hp : p ∈ start.schedule) (hneeds : Relation.TransGen (TaskScheduler.DependsOn sch.plugins) p d)
    (hexecuted : Executed s.log d) : Executed s.log p ∨
      ∃ q, Relation.ReflTransGen (TaskScheduler.DependsOn sch.plugins) p q ∧ Skipped s.log q := by
  have hstale : ∀ p ∈ start.schedule, ∀ d, TaskScheduler.DependsOn sch.plugins p d →
      Executed s.log d → Executed s.log p ∨ Skipped s.log p :=
    fun p hp => h.stale p hp (by simp [hempty])
  induction hneeds using Relation.TransGen.head_induction_on with
  | single hdep => exact (hstale _ hp d hdep hexecuted).imp_right fun hskipped => ⟨_, .refl, hskipped⟩
  | head hdep hrest ih =>
      rename_i p c
      rcases ih (hplan.closed p c hp hdep) with hc | ⟨q, hq, hskipped⟩
      · exact (hstale p hp c hdep hc).imp_right fun hskipped => ⟨p, .refl, hskipped⟩
      · exact Or.inr ⟨q, .head hdep hq, hskipped⟩

/-! ## The next run -/

/-- An unforced update that is run on what a run has left: its schedule is part of the
schedule of that run, and the table is as it was then. -/
structure Start.Repeats (sch : Scheduler) (again start : Start) (s : State) : Prop where
  valid : again.Valid sch
  loaded : again.Loaded sch
  unforced : again.forceUpdate = false
  schedule : again.schedule ⊆ start.schedule
  table : again.table = s.table

/-- The invariant: no plugin was started, and entries have changed only where a plugin
was skipped. -/
structure Idle (sch : Scheduler) (again : Start) (t : State) : Prop where
  consistent : Consistent sch again t
  unforced : t.fo.forceUpdate = false
  notBusy : ∀ p, t.place ≠ .atPlugin p ∧ t.place ≠ .collected p
  executed : ∀ p, ¬ Executed t.log p
  table : ∀ p, t.table.getAnalysis p = again.table.getAnalysis p ∨
    p ∉ t.fo.scheduledAnalysis ∧ p ≠ "file_type" ∧
      ∃ entry, t.table.getAnalysis p = some entry ∧ Marked entry

theorem init_idle (hloaded : again.Loaded sch) (hforce : again.forceUpdate = false) :
    Idle sch again again.state := by
  refine ⟨init_consistent hloaded, ?_, checkFurther_not_busy, ?_, ?_⟩
  · exact (congrArg ScheduledObject.forceUpdate checkFurther_fo).trans hforce
  · intro p
    rw [start_log]
    rintro ⟨task, htask⟩
    cases htask
  · intro p
    rw [start_table]
    exact Or.inl rfl

/-- A plugin that was up to date, or would have been skipped, is not started, because the
entries of its dependencies are as they were, or those of skipped plugins. -/
theorem Idle.upToDate_or_wontRun {t : State} (h : Idle sch again t)
    (hplugin : plugin ∈ t.fo.scheduledAnalysis)
    (hresolved : Resolved sch again.table plugin metadata) :
    analysisIsAlreadyInDbAndUpToDate sch t.table plugin metadata = true ∨
      WontRun sch t.table plugin metadata := by
  by_cases hmarked : ∃ d ∈ metadata.dependencies, ∃ entry,
      t.table.getAnalysis d = some entry ∧ Marked entry
  · rcases hmarked with ⟨d, hd, entry, hentry, hmarked⟩
    exact Or.inr (Or.inr ⟨d, hd, entry, hentry, Or.inl hmarked⟩)
  · refine hresolved.congr ?_ ?_ ?_
    · exact (h.table plugin).resolve_right fun hchanged => hchanged.1 hplugin
    · exact (h.table "file_type").resolve_right fun hchanged => hchanged.2.1 rfl
    · intro d hd
      exact (h.table d).resolve_right fun hchanged => hmarked ⟨d, hd, hchanged.2.2⟩

theorem step_idle {t t' : State} (hclosed : TaskScheduler.Closed sch.plugins)
    (hagain : again.Valid sch)
    (hresolved : ∀ p ∈ again.schedule, ∀ metadata, sch.plugins.get? p = some metadata →
      Resolved sch again.table p metadata)
    (hinv : Inv again t) (hstep : step sch a t = some t') (h : Idle sch again t) :
    Idle sch again t' := by
  have hplan := hagain.plan
  have hordered := hagain.ordered hclosed
  have hstepped := stepped_of_step hplan hinv hstep
  have hreturns : Returns t a := by
    cases hstepped with
    | process now goesOn plugin metadata s' hplace hlast hget hreadable hp => trivial
    | crash now goesOn plugin metadata e hplace hlast hget hreadable => trivial
    | analyze outcome plugin metadata hplace hget => exact absurd hplace (h.notBusy plugin).1
    | collect clock goesOn plugin s' hplace hc => trivial
  have hconsistent := step_consistent hplan hinv hreturns hstep h.consistent
  cases hstepped with
  | process now goesOn plugin metadata t' hplace hlast hget hreadable hp =>
      have hmem : plugin ∈ t.fo.scheduledAnalysis := List.mem_of_getLast? hlast
      have hforce : t'.fo.forceUpdate = false := hp.sameSchedule.forceUpdate.trans h.unforced
      have hsched : t'.fo.scheduledAnalysis = t.fo.scheduledAnalysis.dropLast :=
        hp.sameSchedule.scheduledAnalysis
      have hgone : plugin ∉ t'.fo.scheduledAnalysis := by
        rw [hsched]
        exact notMem_dropLast (hplan.nodup.sublist hinv.sublist) hlast
      have hdropped : ∀ p, p ∉ t.fo.scheduledAnalysis → p ∉ t'.fo.scheduledAnalysis := by
        intro p hp hp'
        rw [hsched] at hp'
        exact hp (List.dropLast_subset _ hp')
      cases hp with
      | found fo hup hfo =>
          refine ⟨hconsistent, hforce, checkFurther_not_busy, ?_, ?_⟩
          · intro p hexecuted
            rw [checkFurther_log] at hexecuted
            exact h.executed p (hexecuted.of_append (by simp))
          · intro p
            rw [checkFurther_table]
            exact (h.table p).imp_right fun hchanged => ⟨hdropped p hchanged.1, hchanged.2⟩
      | skipped fo reason hup hreason =>
          have hwont := hreason.wontRun hclosed hplan hordered h.consistent hinv.noNone hplace hlast hget
          refine ⟨hconsistent, hforce, checkFurther_not_busy, ?_, ?_⟩
          · intro p hexecuted
            rw [skipAnalysis_log] at hexecuted
            exact h.executed p (hexecuted.of_append (by simp))
          · intro p
            rw [skipAnalysis_table]
            by_cases hne : p = plugin
            · subst hne
              refine Or.inr ⟨hgone, hwont.ne_fileType hclosed hget, _,
                AnalysisTable.getAnalysis_addAnalysis_self, Or.inl rfl⟩
            · rw [AnalysisTable.getAnalysis_addAnalysis_ne hne]
              exact (h.table p).imp_right fun hchanged => ⟨hdropped p hchanged.1, hchanged.2⟩
      | queued fo task hup hlists hdeps htask =>
          have hnot := h.consistent.not_wontRun hclosed hplan hordered hinv.noNone hplace hlast hget
            hlists hdeps htask
          rcases h.upToDate_or_wontRun hmem
            (hresolved plugin (hinv.sublist.subset hmem) metadata hget) with htable | hwont
          · exact absurd ⟨h.unforced, htable⟩ hup
          · exact absurd hwont hnot
  | crash now goesOn plugin metadata e hplace hlast hget hreadable =>
      exact ⟨hconsistent, h.unforced, fun p => ⟨nofun, nofun⟩, h.executed, h.table⟩
  | analyze outcome plugin metadata hplace hget => exact absurd hplace (h.notBusy plugin).1
  | collect clock goesOn plugin s' hplace hc => exact absurd hplace (h.notBusy plugin).2

theorem reach_idle {t : State} (hclosed : TaskScheduler.Closed sch.plugins)
    (hagain : again.Valid sch) (hloaded : again.Loaded sch) (hforce : again.forceUpdate = false)
    (hresolved : ∀ p ∈ again.schedule, ∀ metadata, sch.plugins.get? p = some metadata →
      Resolved sch again.table p metadata)
    (h : (machine sch again).Reach Machine.anyStep t) : Idle sch again t := by
  refine Machine.reach_invariant_with (fun _ => reach_inv hagain) ?_ ?_ h
  · rintro t rfl
    exact init_idle hloaded hforce
  · intro t a t' _ hstep hinv
    exact step_idle hclosed hagain hresolved hinv hstep

instance (log : List Event) (plugin : Plugin) : Decidable (Executed log plugin) :=
  decidable_of_iff ((log.any fun e => match e with
      | .queued p _ => decide (p = plugin)
      | _ => false) = true) (by
    rw [List.any_eq_true]
    constructor
    · rintro ⟨e, he, hmatch⟩
      cases e with
      | queued p task =>
          obtain rfl : p = plugin := by simpa using hmatch
          exact ⟨task, he⟩
      | found p => cases hmatch
      | skipped p reason => cases hmatch
      | unscheduled p => cases hmatch
      | stored p analysis => cases hmatch
    · rintro ⟨task, htask⟩
      exact ⟨_, htask, by simp⟩)

theorem newFile_loaded : (newFile cveSchedule).Loaded someScheduler := nofun

theorem someScheduler_versions : VersionsValid someScheduler := by
  intro plugin metadata _
  exact ⟨congrArg some (decide_eq_false (String.lt_irrefl _)),
    congrArg some (decide_eq_false (String.lt_irrefl _))⟩

/-- An image, for which `cve_lookup` is blacklisted. -/
def imageReturns : List Action :=
  runs 1 (some (messageOf "mime" "image/png")) ++ runs 2 (some (messageOf "name" "BusyBox")) ++
    runs 3 (some ∅) ++ [.process 4 true]

end FactCore.AnalysisScheduler
