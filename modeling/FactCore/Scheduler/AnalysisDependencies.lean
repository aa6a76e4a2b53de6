import FactCore.Scheduler.AnalysisResults

/-! # What a plugin sees of its dependencies

The object carries the results from one plugin to the next. A result that was
computed in the run is in the object; one that was found up to date is loaded
from the table, but only if a plugin that is still scheduled depends on it.
Since a plugin is taken off the schedule after its dependencies, this is enough:
if nothing fails and all results are accepted by their schemas, every plugin that
is started gets the newest results of its dependencies (`dependencies_newest`).
-/

namespace FactCore.AnalysisScheduler

open Tla

variable {sch : Scheduler} {start : Start} {s s' : State} {fo : ScheduledObject} {plugin p d : Plugin}
  {metadata : Metadata} {now : Time} {goesOn : Bool} {a : Action} {log : List Event}

/-! ## The newest result -/

/-- The analyses of a plugin that a log stores, in their order. -/
def storedAnalyses (plugin : Plugin) (log : List Event) : List Analysis :=
  log.filterMap fun e => match e with
    | .stored p analysis => if p = plugin then some analysis else none
    | _ => none

/-- The newest result of a plugin: the last one that was computed in the run, or else
that of the table at its start. -/
def newestResult (table : AnalysisTable) (log : List Event) (plugin : Plugin) : Option Mapping :=
  match (storedAnalyses plugin log).getLast? with
  | some analysis => analysis.result
  | none => (table.getAnalysis plugin).bind Analysis.result

theorem storedAnalyses_append (log new : List Event) :
    storedAnalyses p (log ++ new) = storedAnalyses p log ++ storedAnalyses p new :=
  List.filterMap_append

theorem storedAnalyses_eq_nil {log : List Event} (h : ∀ analysis, Event.stored p analysis ∉ log) :
    storedAnalyses p log = [] := by
  unfold storedAnalyses
  rw [List.filterMap_eq_nil_iff]
  intro e he
  cases e with
  | stored q analysis =>
      have hne : q ≠ p := by
        rintro rfl
        exact h analysis he
      simp [hne]
  | found q => rfl
  | skipped q reason => rfl
  | queued q task => rfl
  | unscheduled q => rfl

/-- Results of other plugins do not count. -/
theorem newestResult_append {table : AnalysisTable} {new : List Event}
    (h : ∀ analysis, Event.stored p analysis ∉ new) :
    newestResult table (log ++ new) p = newestResult table log p := by
  unfold newestResult
  rw [storedAnalyses_append, storedAnalyses_eq_nil h, List.append_nil]

theorem newestResult_stored {table : AnalysisTable} {analysis : Analysis} :
    newestResult table (log ++ [.stored p analysis]) p = analysis.result := by
  have hnew : storedAnalyses p [.stored p analysis] = [analysis] := by simp [storedAnalyses]
  unfold newestResult
  rw [storedAnalyses_append, hnew, List.getLast?_concat]

theorem newestResult_table {table : AnalysisTable} (h : ∀ analysis, Event.stored p analysis ∉ log) :
    newestResult table log p = (table.getAnalysis p).bind Analysis.result := by
  unfold newestResult
  rw [storedAnalyses_eq_nil h]
  rfl

/-! ## The conditions -/

/-- A result that the schema of its plugin accepts, and that is not taken for a skipped
or failed one. -/
structure Accepted (sch : Scheduler) (plugin : Plugin) (mapping : Mapping) : Prop where
  schema : sch.schema plugin mapping = none
  skipped : "skipped" ∉ mapping
  failed : "failed" ∉ mapping

/-- All results in the table are accepted. -/
def AllAccepted (sch : Scheduler) (table : AnalysisTable) : Prop :=
  ∀ p ∈ sch.plugins, ∀ entry mapping, table.getAnalysis p = some entry →
    entry.result = some mapping → Accepted sch p mapping

/-- The next plugin of the schedule is blacklisted. -/
def nextBlacklisted (sch : Scheduler) (s : State) : Bool :=
  match s.fo.scheduledAnalysis.getLast? with
  | none => false
  | some plugin =>
      match sch.plugins.get? plugin with
      | none => false
      | some metadata =>
          match isBlacklisted sch plugin metadata s.pop with
          | .error _ => false
          | .ok (b, _) => b

/-- A result that is accepted from the plugin that works on the object. -/
def AcceptedFrom (sch : Scheduler) (mapping : Mapping) : Place → Prop
  | .atPlugin plugin => Accepted sch plugin mapping
  | _ => True

/-- No plugin is blacklisted, and every plugin that is run returns a result that is
accepted. -/
def ReturnsAccepted (sch : Scheduler) (s : State) : Action → Prop
  | .process _ _ => nextBlacklisted sch s = false
  | .analyze (.returned _ (some mapping)) => AcceptedFrom sch mapping s.place
  | .analyze _ => False
  | .collect _ _ => True

instance (plugin : Plugin) (mapping : Mapping) : Decidable (Accepted sch plugin mapping) :=
  decidable_of_iff
    (sch.schema plugin mapping = none ∧ "skipped" ∉ mapping ∧ "failed" ∉ mapping)
    ⟨fun h => ⟨h.1, h.2.1, h.2.2⟩, fun h => ⟨h.schema, h.skipped, h.failed⟩⟩

instance acceptedFromDecidable (mapping : Mapping) :
    (place : Place) → Decidable (AcceptedFrom sch mapping place)
  | .atPlugin plugin => inferInstanceAs (Decidable (Accepted sch plugin mapping))
  | .inQueue => isTrue trivial
  | .collected _ => isTrue trivial
  | .completed => isTrue trivial
  | .removed => isTrue trivial
  | .crashed _ => isTrue trivial

instance returnsAcceptedDecidable (s : State) : (a : Action) → Decidable (ReturnsAccepted sch s a)
  | .process _ _ => inferInstanceAs (Decidable (nextBlacklisted sch s = false))
  | .analyze (.returned _ (some mapping)) => acceptedFromDecidable mapping s.place
  | .analyze (.returned _ none) => isFalse id
  | .analyze (.exception _) => isFalse id
  | .analyze .timeout => isFalse id
  | .collect _ _ => isTrue trivial

theorem ReturnsAccepted.returns (h : ReturnsAccepted sch s a) : Returns s a := by
  cases a with
  | process now goesOn => trivial
  | analyze outcome =>
      cases outcome with
      | returned startTime result => trivial
      | exception cause => exact h
      | timeout => exact h
  | collect clock goesOn => trivial

/-! ## The invariant -/

/-- The object has an accepted result of a plugin. -/
def HoldsResult (sch : Scheduler) (fo : ScheduledObject) (plugin : Plugin) (mapping : Mapping) :
    Prop :=
  (∃ analysis, fo.processedAnalysis.get? plugin = some (some analysis) ∧
    analysis.result = some mapping) ∧ Accepted sch plugin mapping

/-- The object has the newest result of a plugin. -/
def HoldsNewest (sch : Scheduler) (start : Start) (s : State) (plugin : Plugin) : Prop :=
  ∃ mapping, HoldsResult sch s.fo plugin mapping ∧
    newestResult start.table s.log plugin = some mapping

/-- A plugin was found up to date, or has a result that was computed in the run. -/
def Settled (log : List Event) (plugin : Plugin) : Prop :=
  Event.found plugin ∈ log ∨ ∃ analysis, Event.stored plugin analysis ∈ log

/-- A task was made with the newest results of all dependencies of its plugin. -/
def SeesNewest (sch : Scheduler) (start : Start) (log : List Event) (plugin : Plugin)
    (task : Task) : Prop :=
  ∃ metadata, sch.plugins.get? plugin = some metadata ∧
    task.dependencies.map Prod.fst = metadata.dependencies ∧
    ∀ d mapping, (d, mapping) ∈ task.dependencies →
      Settled log d ∧ newestResult start.table log d = some mapping

/-- A plugin of the schedule is not scheduled any more, and not at work. -/
structure Done (start : Start) (s : State) (p : Plugin) : Prop where
  mem : p ∈ start.schedule
  gone : p ∉ s.fo.scheduledAnalysis
  notAt : s.place ≠ .atPlugin p
  notCollected : s.place ≠ .collected p

/-- A plugin that is done has a result, and the object has the newest one as long as
another plugin waits for it. -/
def Provided (sch : Scheduler) (start : Start) (s : State) (p : Plugin) : Prop :=
  Settled s.log p ∧
    ((∃ q ∈ s.fo.scheduledAnalysis, TaskScheduler.DependsOn sch.plugins q p) →
      HoldsNewest sch start s p)

/-- The invariant: the table has changed only where results were stored; what is done
is provided for those that wait; nothing was skipped, and all tasks were made of the
newest results. -/
structure NewestInv (sch : Scheduler) (start : Start) (s : State) : Prop where
  table : ∀ p, (∀ analysis, Event.stored p analysis ∉ s.log) →
    s.table.getAnalysis p = start.table.getAnalysis p
  provided : ∀ p, Done start s p → Provided sch start s p
  back : ∀ p, s.place = .collected p → ∃ mapping, HoldsResult sch s.fo p mapping
  skipped : ∀ p reason, Event.skipped p reason ∉ s.log
  queued : ∀ before p task after, s.log = before ++ .queued p task :: after →
    SeesNewest sch start before p task

theorem Settled.append (h : Settled log p) (new : List Event) : Settled (log ++ new) p := by
  rcases h with h | ⟨analysis, h⟩
  · exact Or.inl (List.mem_append_left _ h)
  · exact Or.inr ⟨analysis, List.mem_append_left _ h⟩

/-- A result in the object fulfills the dependency. -/
theorem HoldsResult.fulfilled {mapping : Mapping} (h : HoldsResult sch fo p mapping) :
    Fulfilled fo p ∧ resultOf fo p = some mapping := by
  rcases h with ⟨⟨analysis, hget, hresult⟩, haccepted⟩
  refine ⟨⟨analysis, hget, ?_⟩, by simp [resultOf, hget, hresult]⟩
  rintro (hskipped | hfailed)
  · exact haccepted.skipped (by simpa [Analysis.hasKey, hresult] using hskipped)
  · exact haccepted.failed (by simpa [Analysis.hasKey, hresult] using hfailed)

/-- A blacklist check leaves the results in the object alone. -/
theorem HoldsResult.checked {mapping : Mapping} {b : Bool} (h : HoldsResult sch s.fo p mapping)
    (hlists : isBlacklisted sch plugin metadata s = .ok (b, fo)) : HoldsResult sch fo p mapping := by
  rcases isBlacklisted_fo hlists with rfl | ⟨rfl, -⟩
  · exact h
  · rcases h with ⟨⟨analysis, hget, hresult⟩, haccepted⟩
    refine ⟨⟨analysis, ?_, hresult⟩, haccepted⟩
    rw [get?_withFileType]
    by_cases hp : p = "file_type"
    · subst hp
      simp [fileTypeEntry, hget]
    · rw [if_neg hp, hget]

theorem HoldsResult.set {mapping : Mapping} {analysis : Option Analysis}
    (h : HoldsResult sch fo p mapping) (hne : p ≠ plugin) :
    HoldsResult sch (fo.setAnalysis plugin analysis) p mapping := by
  rcases h with ⟨⟨analysis', hget, hresult⟩, haccepted⟩
  refine ⟨⟨analysis', ?_, hresult⟩, haccepted⟩
  rw [setAnalysis_processedAnalysis, Dict.get?_set_ne _ _ hne]
  exact hget

/-- Events other than tasks do not change what was queued. -/
theorem queued_append {new before after : List Event} {task : Task}
    (hnew : ∀ p task, Event.queued p task ∉ new)
    (h : log ++ new = before ++ .queued p task :: after) :
    ∃ after', log = before ++ .queued p task :: after' := by
  rcases List.append_eq_append_iff.1 h with ⟨rest, hbefore, hrest⟩ | ⟨rest, hlog, hrest⟩
  · refine absurd ?_ (hnew p task)
    rw [hrest]
    exact List.mem_append_right _ List.mem_cons_self
  · cases rest with
    | nil =>
        refine absurd ?_ (hnew p task)
        rw [List.nil_append] at hrest
        rw [← hrest]
        exact List.mem_cons_self
    | cons first rest =>
        obtain ⟨rfl, -⟩ := List.cons.inj hrest
        exact ⟨rest, hlog⟩

/-- A task that was queued is the last event, or was queued before it. -/
theorem queued_snoc {before after : List Event} {task t : Task}
    (h : log ++ [.queued plugin task] = before ++ .queued p t :: after) :
    before = log ∧ p = plugin ∧ t = task ∨ ∃ after', log = before ++ .queued p t :: after' := by
  rcases List.eq_nil_or_concat after with rfl | ⟨after', last, rfl⟩
  · rcases List.append_inj' h rfl with ⟨rfl, heq⟩
    obtain ⟨heq, -⟩ := List.cons.inj heq
    cases heq
    exact Or.inl ⟨rfl, rfl, rfl⟩
  · refine Or.inr ⟨after', ?_⟩
    rw [List.concat_eq_append, ← List.cons_append, ← List.append_assoc] at h
    exact (List.append_inj' h rfl).1

/-! ## Steps -/

/-- When a plugin is taken off the schedule, the object has the newest results of all
its dependencies. -/
theorem NewestInv.dependencies (h : NewestInv sch start s) (horderly : Orderly start s)
    (hplan : TaskScheduler.Plan sch.plugins start.schedule)
    (hordered : Dependencies.Ordered (TaskScheduler.DependsOn sch.plugins) start.schedule)
    (hplace : s.place = .inQueue) (hlast : s.fo.scheduledAnalysis.getLast? = some plugin)
    (hdep : TaskScheduler.DependsOn sch.plugins plugin d) :
    Settled s.log d ∧ HoldsNewest sch start s d := by
  rcases horderly.popped hplan hordered hlast hdep with ⟨hmem, hgone⟩
  have hdone : Done start s d := ⟨hmem, hgone, by simp [hplace], by simp [hplace]⟩
  rcases h.provided d hdone with ⟨hsettled, hholds⟩
  exact ⟨hsettled, hholds ⟨plugin, List.mem_of_getLast? hlast, hdep⟩⟩

/-- No plugin is skipped if the object has accepted results of its dependencies. -/
theorem SkipReason.blacklisted_of_held {reason : String}
    (h : SkipReason sch s plugin metadata fo reason)
    (hheld : ∀ d ∈ metadata.dependencies, ∃ mapping, HoldsResult sch s.fo d mapping) :
    isBlacklisted sch plugin metadata s = .ok (true, fo) := by
  cases h with
  | blacklisted hlists => exact hlists
  | dependency d hlists hd hnot =>
      rcases hheld d hd with ⟨mapping, hholds⟩
      exact absurd (hholds.checked hlists).fulfilled.1 hnot
  | validation d mapping error hlists hd hresult hrejects =>
      rcases hheld d hd with ⟨mapping', hholds⟩
      have hresult' := (hholds.checked hlists).fulfilled.2
      cases hresult.symm.trans hresult'
      rw [hholds.2.schema] at hrejects
      cases hrejects

/-- What is done for one plugin leaves the others provided. -/
theorem Provided.frame (h : Provided sch start s p)
    (hsub : s'.fo.scheduledAnalysis ⊆ s.fo.scheduledAnalysis)
    (hfo : ∀ mapping, HoldsResult sch s.fo p mapping → HoldsResult sch s'.fo p mapping)
    {new : List Event} (hlog : s'.log = s.log ++ new)
    (hnew : ∀ analysis, Event.stored p analysis ∉ new) : Provided sch start s' p := by
  refine ⟨?_, ?_⟩
  · rw [hlog]
    exact h.1.append new
  · rintro ⟨q, hq, hqp⟩
    rcases h.2 ⟨q, hsub hq, hqp⟩ with ⟨mapping, hholds, hnewest⟩
    refine ⟨mapping, hfo mapping hholds, ?_⟩
    rw [hlog, newestResult_append hnew]
    exact hnewest

/-- After a call, what is done is the plugin of the call, or was done before. -/
theorem Done.before_call (hplace : s.place = .inQueue)
    (hlast : s.fo.scheduledAnalysis.getLast? = some plugin)
    (hsched : s'.fo.scheduledAnalysis = s.fo.scheduledAnalysis.dropLast) (h : Done start s' p) :
    p = plugin ∨ Done start s p := by
  by_cases hne : p = plugin
  · exact Or.inl hne
  · refine Or.inr ⟨h.mem, ?_, by simp [hplace], by simp [hplace]⟩
    intro hin
    rcases getLast?_cases hlast hin with hrest | heq
    · rw [← hsched] at hrest
      exact h.gone hrest
    · exact hne heq

/-- A plugin that is found up to date: its result is loaded if it is awaited. -/
theorem newestInv_found (h : NewestInv sch start s) (hall : AllAccepted sch start.table)
    (hplan : TaskScheduler.Plan sch.plugins start.schedule) (hinv : Inv start s)
    (hwaiting : Waiting start s) (hplace : s.place = .inQueue)
    (hlast : s.fo.scheduledAnalysis.getLast? = some plugin)
    (hup : UpToDate sch s.pop plugin metadata)
    (hfo : fo = s.pop.fo ∧ ¬ Awaited sch s.pop plugin ∨
      fo = addCompletedAnalysisResultsToFileObject s.table plugin s.pop.fo ∧
        Awaited sch s.pop plugin) :
    NewestInv sch start (checkFurtherProcessOrComplete goesOn { s.pop with
      fo := fo, log := s.log ++ [.found plugin] }) := by
  have hsched : fo.scheduledAnalysis = s.fo.scheduledAnalysis.dropLast := by
    rcases hfo with ⟨rfl, -⟩ | ⟨rfl, -⟩ <;> rfl
  have hunserved : Unserved s plugin := hwaiting.scheduled plugin (List.mem_of_getLast? hlast)
  have hnew : ∀ q analysis, Event.stored q analysis ∉ [Event.found plugin] := by simp
  refine ⟨?_, ?_, ?_, ?_, ?_⟩
  · intro q hq
    rw [checkFurther_table]
    refine h.table q fun analysis hin => hq analysis ?_
    rw [checkFurther_log]
    exact List.mem_append_left _ hin
  · intro q hdone
    by_cases hne : q = plugin
    · subst hne
      refine ⟨?_, ?_⟩
      · rw [checkFurther_log]
        exact Or.inl (List.mem_append_right _ List.mem_cons_self)
      · -- the result of the table is loaded, because a plugin waits for it
        rintro ⟨r, hr, hrq⟩
        rw [checkFurther_fo, hsched] at hr
        have hgone : q ∉ s.fo.scheduledAnalysis.dropLast :=
          notMem_dropLast (hplan.nodup.sublist hinv.sublist) hlast
        obtain rfl := (hfo.resolve_left fun hkept => hkept.2 ⟨⟨r, hr, hrq⟩, hgone⟩).1
        rcases hup.entry with ⟨entry, hget, -⟩
        rcases AnalysisTable.getAnalysis_result hget with ⟨mapping, hresult⟩
        have hstart : start.table.getAnalysis q = some entry := by
          rw [← h.table q hunserved.stored]
          exact hget
        refine ⟨mapping, ⟨⟨entry, ?_, hresult⟩, ?_⟩, ?_⟩
        · rw [checkFurther_fo]
          show (s.fo.processedAnalysis.set q (s.table.getAnalysis q)).get? q = _
          rw [Dict.get?_set_self]
          exact congrArg some hget
        · exact hall q (hplan.exist q hdone.mem) entry mapping hstart hresult
        · rw [checkFurther_log, newestResult_append (hnew q), newestResult_table hunserved.stored,
            hstart]
          exact hresult
    · have hbefore : Done start s q := by
        refine (hdone.before_call hplace hlast ?_).resolve_left hne
        rw [checkFurther_fo]
        exact hsched
      refine (h.provided q hbefore).frame ?_ ?_ checkFurther_log (hnew q)
      · rw [checkFurther_fo, hsched]
        exact List.dropLast_subset _
      · intro mapping hholds
        rw [checkFurther_fo]
        rcases hfo with ⟨rfl, -⟩ | ⟨rfl, -⟩
        · exact hholds
        · exact hholds.set hne
  · intro q hq
    exact absurd hq (checkFurther_not_busy q).2
  · intro q reason
    rw [checkFurther_log]
    simpa using h.skipped q reason
  · intro before q task after hlog
    rw [checkFurther_log] at hlog
    rcases queued_append (by simp) hlog with ⟨after', hlog'⟩
    exact h.queued before q task after' hlog'

/-- A plugin that is started: the task is made of the results in the object. -/
theorem newestInv_queued {task : Task} (h : NewestInv sch start s) (horderly : Orderly start s)
    (hplan : TaskScheduler.Plan sch.plugins start.schedule)
    (hordered : Dependencies.Ordered (TaskScheduler.DependsOn sch.plugins) start.schedule)
    (hplace : s.place = .inQueue) (hlast : s.fo.scheduledAnalysis.getLast? = some plugin)
    (hget : sch.plugins.get? plugin = some metadata)
    (hlists : isBlacklisted sch plugin metadata s.pop = .ok (false, fo))
    (htask : Collects sch fo metadata.dependencies task.dependencies) :
    NewestInv sch start { s.pop with
      fo := fo, place := .atPlugin plugin, log := s.log ++ [.queued plugin task] } := by
  have hsched : fo.scheduledAnalysis = s.fo.scheduledAnalysis.dropLast :=
    (sameSchedule_isBlacklisted hlists).scheduledAnalysis
  refine ⟨?_, ?_, nofun, ?_, ?_⟩
  · intro q hq
    exact h.table q fun analysis hin => hq analysis (List.mem_append_left _ hin)
  · intro q hdone
    have hne : q ≠ plugin := fun heq => hdone.notAt (congrArg Place.atPlugin heq.symm)
    have hbefore : Done start s q := (hdone.before_call hplace hlast hsched).resolve_left hne
    have hnew : ∀ analysis, Event.stored q analysis ∉ [Event.queued plugin task] := by simp
    refine (h.provided q hbefore).frame ?_ ?_ rfl hnew
    · show fo.scheduledAnalysis ⊆ s.fo.scheduledAnalysis
      rw [hsched]
      exact List.dropLast_subset _
    · intro mapping hholds
      have hpop : HoldsResult sch s.pop.fo q mapping := hholds
      exact hpop.checked hlists
  · intro q reason
    simpa using h.skipped q reason
  · intro before q t after hlog
    rcases queued_snoc hlog with ⟨rfl, rfl, rfl⟩ | ⟨after', hlog'⟩
    · refine ⟨metadata, hget, htask.1, ?_⟩
      intro d mapping hmem
      have hd : d ∈ metadata.dependencies := by
        rw [← htask.1]
        exact List.mem_map.2 ⟨(d, mapping), hmem, rfl⟩
      rcases h.dependencies horderly hplan hordered hplace hlast ⟨metadata, hget, hd⟩ with
        ⟨hsettled, mapping', hholds, hnewest⟩
      have hpop : HoldsResult sch s.pop.fo d mapping' := hholds
      have hresult := (htask.2 d mapping hmem).1
      have hresult' := (hpop.checked hlists).fulfilled.2
      cases hresult.symm.trans hresult'
      exact ⟨hsettled, hnewest⟩
    · exact h.queued before q t after' hlog'

/-- A plugin returns an accepted result. -/
theorem newestInv_returned {startTime : Time} {mapping : Mapping} (h : NewestInv sch start s)
    (hplace : s.place = .atPlugin plugin) (haccepted : Accepted sch plugin mapping) :
    NewestInv sch start (finishAnalysis plugin metadata (.returned startTime (some mapping)) s) := by
  refine ⟨h.table, ?_, ?_, h.skipped, h.queued⟩
  · intro q hdone
    have hne : q ≠ plugin := fun heq => hdone.notCollected (congrArg Place.collected heq.symm)
    have hbefore : Done start s q := by
      refine ⟨hdone.mem, hdone.gone, ?_, by simp [hplace]⟩
      rw [hplace]
      exact fun heq => hne (Place.atPlugin.inj heq).symm
    refine (h.provided q hbefore).frame (List.Subset.refl _) ?_ (List.append_nil _).symm (by simp)
    intro mapping' hholds
    exact hholds.set hne
  · intro q hq
    cases hq
    exact ⟨mapping, ⟨⟨_, Dict.get?_set_self _ _ _, rfl⟩, haccepted⟩⟩

/-- The result of a plugin is collected and stored. -/
theorem newestInv_collected {analysis : Analysis} (h : NewestInv sch start s)
    (hplace : s.place = .collected plugin)
    (hget : s.fo.processedAnalysis.get? plugin = some (some analysis)) :
    NewestInv sch start (checkFurtherProcessOrComplete goesOn (postAnalysis plugin analysis s)) := by
  have hlog : (checkFurtherProcessOrComplete goesOn (postAnalysis plugin analysis s)).log =
      s.log ++ [.stored plugin analysis] := checkFurther_log
  have hfo : (checkFurtherProcessOrComplete goesOn (postAnalysis plugin analysis s)).fo = s.fo :=
    checkFurther_fo
  refine ⟨?_, ?_, ?_, ?_, ?_⟩
  · intro q hq
    rw [hlog] at hq
    have hne : q ≠ plugin := by
      rintro rfl
      exact hq analysis (List.mem_append_right _ List.mem_cons_self)
    rw [checkFurther_table]
    refine (AnalysisTable.getAnalysis_addAnalysis_ne hne).trans ?_
    exact h.table q fun analysis' hin => hq analysis' (List.mem_append_left _ hin)
  · intro q hdone
    by_cases hne : q = plugin
    · subst hne
      rcases h.back q hplace with ⟨mapping, ⟨analysis', hget', hresult⟩, haccepted⟩
      obtain rfl : analysis = analysis' := by simpa [hget] using hget'
      refine ⟨?_, ?_⟩
      · rw [hlog]
        exact Or.inr ⟨analysis, List.mem_append_right _ List.mem_cons_self⟩
      · intro _
        refine ⟨mapping, ?_, ?_⟩
        · rw [hfo]
          exact ⟨⟨analysis, hget, hresult⟩, haccepted⟩
        · rw [hlog, newestResult_stored]
          exact hresult
    · have hgone := hdone.gone
      rw [hfo] at hgone
      have hbefore : Done start s q := by
        refine ⟨hdone.mem, hgone, by simp [hplace], ?_⟩
        rw [hplace]
        exact fun heq => hne (Place.collected.inj heq).symm
      refine (h.provided q hbefore).frame ?_ ?_ hlog (by simp [hne])
      · rw [hfo]
        exact List.Subset.refl _
      · intro mapping hholds
        rw [hfo]
        exact hholds
  · intro q hq
    exact absurd hq (checkFurther_not_busy q).2
  · intro q reason
    rw [hlog]
    simpa using h.skipped q reason
  · intro before q task after hsplit
    rw [hlog] at hsplit
    rcases queued_append (by simp) hsplit with ⟨after', hlog'⟩
    exact h.queued before q task after' hlog'

theorem init_newestInv : NewestInv sch start start.state := by
  refine ⟨?_, ?_, ?_, ?_, ?_⟩
  · intro p _
    rw [start_table]
  · intro p hdone
    have hgone := hdone.gone
    rw [start_schedule] at hgone
    exact absurd hdone.mem hgone
  · intro p hp
    exact absurd hp (checkFurther_not_busy p).2
  · intro p reason
    simp
  · intro before p task after hlog
    rw [start_log] at hlog
    cases before <;> cases hlog

theorem step_newestInv (hplan : TaskScheduler.Plan sch.plugins start.schedule)
    (hordered : Dependencies.Ordered (TaskScheduler.DependsOn sch.plugins) start.schedule)
    (hall : AllAccepted sch start.table) (hinv : Inv start s) (hwaiting : Waiting start s)
    (horderly : Orderly start s) (hok : ReturnsAccepted sch s a) (hstep : step sch a s = some s')
    (h : NewestInv sch start s) : NewestInv sch start s' := by
  cases stepped_of_step hplan hinv hstep with
  | process now goesOn plugin metadata s' hplace hlast hget hreadable hp =>
      cases hp with
      | found fo hup hfo => exact newestInv_found h hall hplan hinv hwaiting hplace hlast hup hfo
      | queued fo task hup hlists hdeps htask =>
          exact newestInv_queued h horderly hplan hordered hplace hlast hget hlists htask
      | skipped fo reason hup hreason =>
          have hheld : ∀ d ∈ metadata.dependencies, ∃ mapping, HoldsResult sch s.pop.fo d mapping := by
            intro d hd
            rcases h.dependencies horderly hplan hordered hplace hlast ⟨metadata, hget, hd⟩ with
              ⟨-, mapping, hholds, -⟩
            exact ⟨mapping, hholds⟩
          have hnext : nextBlacklisted sch s = true := by
            simp only [nextBlacklisted, hlast, hget, hreason.blacklisted_of_held hheld]
          exact absurd (hnext.symm.trans hok) Bool.noConfusion
  | crash now goesOn plugin metadata e hplace hlast hget hreadable =>
      refine ⟨h.table, ?_, ?_, h.skipped, h.queued⟩
      · intro q hdone
        exact h.provided q ⟨hdone.mem, hdone.gone, by simp [hplace], by simp [hplace]⟩
      · intro q hq
        cases hq
  | analyze outcome plugin metadata hplace hget =>
      cases outcome with
      | returned startTime result =>
          cases result with
          | none => exact absurd hok id
          | some mapping =>
              have haccepted : AcceptedFrom sch mapping s.place := hok
              rw [hplace] at haccepted
              exact newestInv_returned h hplace haccepted
      | exception cause => exact absurd hok id
      | timeout => exact absurd hok id
  | collect clock goesOn plugin s' hplace hc =>
      cases hc with
      | result analysis hexc hget => exact newestInv_collected h hplace hget
      | failed cause analysis t hexc hfailed ht =>
          rw [horderly.noException] at hexc
          cases hexc

theorem reach_newestInv (hclosed : TaskScheduler.Closed sch.plugins) (hstart : start.Valid sch)
    (hall : AllAccepted sch start.table)
    (h : (machine sch start).Reach (ReturnsAccepted sch) s) : NewestInv sch start s := by
  have hordered := hstart.ordered hclosed
  have hbasic : ∀ s, (machine sch start).Reach (ReturnsAccepted sch) s →
      Inv start s ∧ Waiting start s ∧ Orderly start s := by
    intro s hs
    exact ⟨reach_inv hstart hs, reach_waiting hstart hs,
      reach_orderly hstart (fun _ _ hok => hok.returns) hs⟩
  refine Machine.reach_invariant_with hbasic ?_ ?_ h
  · rintro s rfl
    exact init_newestInv
  · rintro s a s' hok hstep ⟨hinv, hwaiting, horderly⟩ hnewest
    exact step_newestInv hstart.plan hordered hall hinv hwaiting horderly hok hstep hnewest

/-- If nothing fails or is blacklisted and all results are accepted, no plugin is
skipped, and every plugin is started with the newest results of its dependencies. -/
theorem dependencies_newest (hclosed : TaskScheduler.Closed sch.plugins) (hstart : start.Valid sch)
    (hall : AllAccepted sch start.table)
    (h : (machine sch start).Reach (ReturnsAccepted sch) s) :
    (∀ p reason, Event.skipped p reason ∉ s.log) ∧
      ∀ before p task after, s.log = before ++ .queued p task :: after →
        SeesNewest sch start before p task :=
  have hinv := reach_newestInv hclosed hstart hall h
  ⟨hinv.skipped, hinv.queued⟩

/-! ## Two runs -/

/-- The results of a file of which the software is known. -/
def allReturn : List Action :=
  runs 1 (some (messageOf "mime" "text/plain")) ++ runs 2 (some (messageOf "name" "BusyBox")) ++
    runs 3 (some ∅) ++ runs 4 (some ∅)

/-- The theorem for a new file. -/
theorem dependencies_newest_allReturn : ∃ s,
    (machine someScheduler (newFile cveSchedule)).Reach (ReturnsAccepted someScheduler) s ∧
    s.place = .completed ∧ (∀ p reason, Event.skipped p reason ∉ s.log) ∧
      ∀ before p task after, s.log = before ++ .queued p task :: after →
        SeesNewest someScheduler (newFile cveSchedule) before p task := by
  have hrun : ((machine someScheduler (newFile cveSchedule)).run (ReturnsAccepted someScheduler)
      allReturn (newFile cveSchedule).state).map State.place = some .completed := by decide +kernel
  rcases Option.map_eq_some_iff.1 hrun with ⟨s, hs, hplace⟩
  have hreach := Machine.reach_of_run rfl hs
  exact ⟨s, hreach, hplace, dependencies_newest TaskScheduler.somePlugins_closed newFile_valid nofun
    hreach⟩

/-- Plugins of which each depends on the one before. -/
def chainPlugins : Plugins where
  items := [
    ("cpu_architecture", TaskScheduler.basicMetadata ["file_type", "kernel_config"]),
    ("kernel_config", TaskScheduler.basicMetadata ["file_type", "software_components"]),
    ("software_components", TaskScheduler.basicMetadata []),
    ("file_hashes", TaskScheduler.basicMetadata ["file_type"]),
    ("file_type", TaskScheduler.basicMetadata [])]
  nodup := by decide

/-- A scheduler with these plugins. A result of `software_components` has a field. -/
def chainScheduler : Scheduler :=
  { someScheduler with
    plugins := chainPlugins
    schema := fun plugin mapping =>
      if plugin = "software_components" ∧ "software_components" ∉ mapping then some "Field required"
      else none }

/-- An update of a file for which `software_components` has found nothing. -/
def nothingStored : Start where
  uid := "a_1"
  schedule := ["cpu_architecture", "kernel_config", "file_hashes", "software_components", "file_type"]
  forceUpdate := false
  processedAnalysis := ∅
  table := (∅ : AnalysisTable).addAnalysis "software_components" ⟨0, "1.0.0", none, none⟩

/-- The stored result is up to date, but not accepted. So one plugin is skipped, and the
next one is skipped because of a missing dependency. -/
theorem dependency_missing :
    TaskScheduler.scheduleAnalysisTasks TaskScheduler.unshuffled chainPlugins ["cpu_architecture"]
      true 5 = some (.ok nothingStored.schedule) ∧
    (∀ p entry, nothingStored.table.getAnalysis p = some entry → ¬ Marked entry) ∧
    ∃ s, (machine chainScheduler nothingStored).Reach (ReturnsAccepted chainScheduler) s ∧
      ((s.table.getAnalysis "cpu_architecture").bind Analysis.result).bind (Dict.get? · "skipped") =
        some (.text dependencyReason) := by
  refine ⟨by decide +kernel, ?_, ?_⟩
  · intro p entry hget
    unfold nothingStored at hget
    rw [AnalysisTable.getAnalysis_addAnalysis] at hget
    split at hget
    · cases hget
      rintro (h | h) <;> cases h
    · cases hget
  · have hrun : ((machine chainScheduler nothingStored).run (ReturnsAccepted chainScheduler)
        (runs 1 (some (messageOf "mime" "text/plain")) ++ [.process 2 true] ++ runs 3 (some ∅) ++
          [.process 4 true, .process 5 true]) nothingStored.state).map (fun s =>
            ((s.table.getAnalysis "cpu_architecture").bind Analysis.result).bind
              (Dict.get? · "skipped")) = some (some (.text dependencyReason)) := by
      decide +kernel
    rcases Option.map_eq_some_iff.1 hrun with ⟨s, hs, hskipped⟩
    exact ⟨s, Machine.reach_of_run rfl hs, hskipped⟩

end FactCore.AnalysisScheduler
