import FactCore.Scheduler.AnalysisScheduler

/-! # The steps of the analysis scheduler

What the functions of the analysis scheduler do, and when they raise. A call of
`_process_next_analysis_task` finds a plugin up to date, skips it, or hands it to
its runner (`Processed`); a call of `_handle_collected_result` stores a result,
after it has unscheduled what depends on a failed plugin (`Collected`).
-/

namespace FactCore.AnalysisScheduler

open Tla

variable {sch : Scheduler} {s s' : State} {fo fo' : ScheduledObject} {table : AnalysisTable}
  {plugin p : Plugin} {metadata : Metadata} {now : Time} {goesOn : Bool}

/-! ## Fields -/

@[simp] theorem setAnalysis_processedAnalysis {analysis : Option Analysis} :
    (fo.setAnalysis plugin analysis).processedAnalysis = fo.processedAnalysis.set plugin analysis :=
  rfl

@[simp] theorem setAnalysis_scheduledAnalysis {analysis : Option Analysis} :
    (fo.setAnalysis plugin analysis).scheduledAnalysis = fo.scheduledAnalysis := rfl

@[simp] theorem pop_scheduledAnalysis :
    fo.pop.scheduledAnalysis = fo.scheduledAnalysis.dropLast := rfl

@[simp] theorem pop_processedAnalysis : fo.pop.processedAnalysis = fo.processedAnalysis := rfl

@[simp] theorem checkFurther_fo : (checkFurtherProcessOrComplete goesOn s).fo = s.fo := by
  unfold checkFurtherProcessOrComplete
  split <;> rfl

@[simp] theorem checkFurther_table : (checkFurtherProcessOrComplete goesOn s).table = s.table := by
  unfold checkFurtherProcessOrComplete
  split <;> rfl

@[simp] theorem checkFurther_log : (checkFurtherProcessOrComplete goesOn s).log = s.log := by
  unfold checkFurtherProcessOrComplete
  split <;> rfl

/-- The object is done if its schedule is empty; otherwise it goes on or is removed. -/
theorem checkFurther_place : (checkFurtherProcessOrComplete goesOn s).place = .completed ∧
      s.fo.scheduledAnalysis = [] ∨
    (checkFurtherProcessOrComplete goesOn s).place = .inQueue ∧ s.fo.scheduledAnalysis ≠ [] ∨
    (checkFurtherProcessOrComplete goesOn s).place = .removed ∧ goesOn = false := by
  unfold checkFurtherProcessOrComplete
  cases hsched : s.fo.scheduledAnalysis with
  | nil => exact Or.inl ⟨rfl, rfl⟩
  | cons first rest =>
      cases goesOn with
      | true => exact Or.inr (Or.inl ⟨rfl, List.cons_ne_nil _ _⟩)
      | false => exact Or.inr (Or.inr ⟨rfl, rfl⟩)

/-- After its schedule has been looked at, the object is not with a plugin. -/
theorem checkFurther_not_busy (p : Plugin) :
    (checkFurtherProcessOrComplete goesOn s).place ≠ .atPlugin p ∧
      (checkFurtherProcessOrComplete goesOn s).place ≠ .collected p := by
  constructor
  all_goals
    intro h
    rcases @checkFurther_place s goesOn with ⟨hp, -⟩ | ⟨hp, -⟩ | ⟨hp, -⟩ <;> rw [hp] at h <;> cases h

theorem checkFurther_not_crashed {e : PythonError} :
    (checkFurtherProcessOrComplete goesOn s).place ≠ .crashed e := by
  intro he
  rcases @checkFurther_place s goesOn with ⟨hp, -⟩ | ⟨hp, -⟩ | ⟨hp, -⟩ <;> rw [hp] at he <;> cases he

@[simp] theorem skipAnalysis_table {reason : String} :
    (skipAnalysis now goesOn plugin metadata reason s).table =
      s.table.addAnalysis plugin (getSkippedAnalysisResult now metadata reason) := by
  unfold skipAnalysis
  rw [checkFurther_table]
  rfl

@[simp] theorem skipAnalysis_log {reason : String} :
    (skipAnalysis now goesOn plugin metadata reason s).log = s.log ++ [.skipped plugin reason,
      .stored plugin (getSkippedAnalysisResult now metadata reason)] := by
  unfold skipAnalysis
  rw [checkFurther_log]
  simp [postAnalysis]

@[simp] theorem skipAnalysis_fo {reason : String} :
    (skipAnalysis now goesOn plugin metadata reason s).fo =
      s.fo.setAnalysis plugin (some (getSkippedAnalysisResult now metadata reason)) := by
  unfold skipAnalysis
  rw [checkFurther_fo]
  rfl

/-! ## The file type -/

/-- The entry that a blacklist check reads: that of the object, or else of the table. -/
def fileTypeEntry (table : AnalysisTable) (fo : ScheduledObject) : Option Analysis :=
  (fo.processedAnalysis.get? "file_type").getD (table.getAnalysis "file_type")

/-- An entry has a result with a text under `mime`. -/
def HasMime : Option Analysis → Prop
  | none => False
  | some entry => ∃ mapping mime, entry.result = some mapping ∧
      mapping.get? "mime" = some (.text mime)

theorem get?_withFileType : (withFileType table fo).processedAnalysis.get? p =
    if p = "file_type" then some (fileTypeEntry table fo) else fo.processedAnalysis.get? p := by
  unfold withFileType fileTypeEntry
  by_cases hp : p = "file_type"
  · subst hp
    by_cases hmem : "file_type" ∈ fo.processedAnalysis
    · rcases Dict.mem_iff.1 hmem with ⟨entry, hget⟩
      simp [hmem, hget]
    · simp [hmem, addCompletedAnalysisResultsToFileObject, Dict.notMem_iff.1 hmem]
  · by_cases hmem : "file_type" ∈ fo.processedAnalysis
    · simp [hmem, hp]
    · simp [hmem, hp, addCompletedAnalysisResultsToFileObject, Dict.get?_set]

theorem getFileTypeFromObjectOrDb_eq :
    getFileTypeFromObjectOrDb sch table fo = lowerMime sch (fileTypeEntry table fo) := by
  unfold getFileTypeFromObjectOrDb
  rw [get?_withFileType, if_pos rfl]

/-- The file type can be read if there is a text under `mime`. -/
theorem lowerMime_ok_iff {entry : Option Analysis} :
    (∃ mime, lowerMime sch entry = .ok mime) ↔ HasMime entry := by
  cases entry with
  | none => simp [lowerMime, HasMime]
  | some entry =>
      cases hresult : entry.result with
      | none => simp [lowerMime, HasMime, hresult]
      | some mapping =>
          cases hmime : mapping.get? "mime" with
          | none => simp [lowerMime, HasMime, hresult, hmime]
          | some value => cases value <;> simp [lowerMime, HasMime, hresult, hmime]

/-- A check that reads the file type is made for the plugin. -/
def ChecksMime (sch : Scheduler) (plugin : Plugin) (metadata : Metadata) : Prop :=
  plugin ∉ mandatoryPlugins ∧ getBlacklistAndWhitelist sch plugin metadata ≠ ([], [])

/-- What the lists of a plugin say about a file type. -/
def listsExclude (fileType : String) : List String × List String → Bool
  | (blacklist, []) => substringIsInList fileType blacklist
  | (_, whitelist) => !substringIsInList fileType whitelist

theorem isBlacklisted_of_not_checksMime (h : ¬ ChecksMime sch plugin metadata) :
    isBlacklisted sch plugin metadata s = .ok (false, s.fo) := by
  unfold isBlacklisted
  by_cases hmand : plugin ∈ mandatoryPlugins
  · rw [if_pos hmand]
  · have hlists : getBlacklistAndWhitelist sch plugin metadata = ([], []) := by
      by_contra hne
      exact h ⟨hmand, hne⟩
    rw [if_neg hmand, nextAnalysisIsBlacklisted, hlists]

theorem isBlacklisted_of_checksMime (h : ChecksMime sch plugin metadata) :
    isBlacklisted sch plugin metadata s =
      (lowerMime sch (fileTypeEntry s.table s.fo)).map fun fileType =>
        (listsExclude fileType (getBlacklistAndWhitelist sch plugin metadata),
          withFileType s.table s.fo) := by
  unfold isBlacklisted nextAnalysisIsBlacklisted
  rw [if_neg h.1, getFileTypeFromObjectOrDb_eq]
  rcases hlists : getBlacklistAndWhitelist sch plugin metadata with ⟨blacklist, whitelist⟩
  cases whitelist with
  | nil =>
      cases blacklist with
      | nil => exact absurd hlists h.2
      | cons first rest => rfl
  | cons first rest =>
      cases blacklist with
      | nil => rfl
      | cons first' rest' => rfl

/-- The check raises if it reads a file type that is not there. -/
theorem isBlacklisted_ok_iff : (∃ r, isBlacklisted sch plugin metadata s = .ok r) ↔
    (ChecksMime sch plugin metadata → HasMime (fileTypeEntry s.table s.fo)) := by
  by_cases h : ChecksMime sch plugin metadata
  · have hmime := @lowerMime_ok_iff sch (fileTypeEntry s.table s.fo)
    rw [isBlacklisted_of_checksMime h, ← hmime]
    cases lowerMime sch (fileTypeEntry s.table s.fo) <;> simp [Except.map, h]
  · simp [isBlacklisted_of_not_checksMime h, h]

/-- The object after the check: as before, or with an entry for the file type. -/
theorem isBlacklisted_fo {b : Bool} (h : isBlacklisted sch plugin metadata s = .ok (b, fo)) :
    fo = s.fo ∨ fo = withFileType s.table s.fo ∧ HasMime (fileTypeEntry s.table s.fo) := by
  by_cases hcheck : ChecksMime sch plugin metadata
  · have hmime := isBlacklisted_ok_iff.1 ⟨_, h⟩ hcheck
    rw [isBlacklisted_of_checksMime hcheck] at h
    cases hlower : lowerMime sch (fileTypeEntry s.table s.fo) with
    | error e =>
        rw [hlower] at h
        cases h
    | ok fileType =>
        rw [hlower] at h
        cases h
        exact Or.inr ⟨rfl, hmime⟩
  · rw [isBlacklisted_of_not_checksMime hcheck] at h
    cases h
    exact Or.inl rfl

/-! ## Dependencies -/

/-- The object has no entry that is `None`. -/
def NoNone (fo : ScheduledObject) : Prop := ∀ p, fo.processedAnalysis.get? p ≠ some none

/-- An entry that was skipped or failed. -/
def Marked (analysis : Analysis) : Prop :=
  analysis.hasKey "skipped" = true ∨ analysis.hasKey "failed" = true

/-- The object has an entry for the dependency that was neither skipped nor failed. -/
def Fulfilled (fo : ScheduledObject) (dependency : Plugin) : Prop :=
  ∃ analysis, fo.processedAnalysis.get? dependency = some (some analysis) ∧ ¬ Marked analysis

theorem dependenciesAreUnfulfilled_ok (h : NoNone fo) (dependencies : List Plugin) :
    ∃ b, dependenciesAreUnfulfilled fo dependencies = .ok b ∧
      (b = false ↔ ∀ d ∈ dependencies, Fulfilled fo d) := by
  induction dependencies with
  | nil => exact ⟨false, rfl, by simp⟩
  | cons d rest ih =>
      rcases ih with ⟨b, hok, hiff⟩
      cases hget : fo.processedAnalysis.get? d with
      | none =>
          refine ⟨true, by simp [dependenciesAreUnfulfilled, hget], ?_⟩
          simp [Fulfilled, hget]
      | some entry =>
          cases entry with
          | none => exact absurd hget (h d)
          | some analysis =>
              have hfulfilled : Fulfilled fo d ↔ ¬ Marked analysis := by
                constructor
                · rintro ⟨analysis', hget', hnot⟩
                  cases hget.symm.trans hget'
                  exact hnot
                · intro hnot
                  exact ⟨analysis, hget, hnot⟩
              by_cases hmarked : Marked analysis
              · have htrue : (analysis.hasKey "skipped" || analysis.hasKey "failed") = true := by
                  simpa [Marked] using hmarked
                refine ⟨true, by simp only [dependenciesAreUnfulfilled, hget, htrue, if_true], ?_⟩
                simp [hfulfilled, hmarked]
              · have hfalse : (analysis.hasKey "skipped" || analysis.hasKey "failed") = false := by
                  simpa [Marked] using hmarked
                refine ⟨b, by simp [dependenciesAreUnfulfilled, hget, hfalse, hok], ?_⟩
                simp [hfulfilled, hmarked, hiff]

/-- The result of a plugin in the object. -/
def resultOf (fo : ScheduledObject) (plugin : Plugin) : Option Mapping :=
  (fo.processedAnalysis.get? plugin).join.bind Analysis.result

/-- Collecting the dependencies comes across a result that is `None`, and has not
come across one that its schema rejects before. -/
def ReadsNone (sch : Scheduler) (fo : ScheduledObject) : List Plugin → Prop
  | [] => False
  | dependency :: rest =>
      match resultOf fo dependency with
      | none => True
      | some mapping => sch.schema dependency mapping = none ∧ ReadsNone sch fo rest

/-- What is collected: the accepted result of each dependency. -/
def Collects (sch : Scheduler) (fo : ScheduledObject) (dependencies : List Plugin)
    (collected : List (Plugin × Mapping)) : Prop :=
  collected.map Prod.fst = dependencies ∧ ∀ d mapping, (d, mapping) ∈ collected →
    resultOf fo d = some mapping ∧ sch.schema d mapping = none

theorem collectDependencies_cons {dependency : Plugin} {rest : List Plugin}
    (hexist : dependency ∈ sch.plugins) (h : Fulfilled fo dependency) :
    collectDependencies sch fo (dependency :: rest) =
      match resultOf fo dependency with
      | none => .error (.python .typeError)
      | some mapping =>
          match sch.schema dependency mapping with
          | some error => .error (.validation error)
          | none => (collectDependencies sch fo rest).map ((dependency, mapping) :: ·) := by
  rcases h with ⟨analysis, hget, -⟩
  have hresult : resultOf fo dependency = analysis.result := by simp [resultOf, hget]
  cases hmapping : analysis.result with
  | none => simp [collectDependencies, hexist, hget, hresult, hmapping]
  | some mapping =>
      cases hschema : sch.schema dependency mapping <;>
        simp [collectDependencies, hexist, hget, hresult, hmapping, hschema]

/-- The ways in which collecting the dependencies may end. -/
theorem collectDependencies_cases {dependencies : List Plugin}
    (hexist : ∀ d ∈ dependencies, d ∈ sch.plugins) (h : ∀ d ∈ dependencies, Fulfilled fo d) :
    (∃ e, collectDependencies sch fo dependencies = .error (.python e)) ∧
        ReadsNone sch fo dependencies ∨
      ¬ ReadsNone sch fo dependencies ∧
        ((∃ collected, collectDependencies sch fo dependencies = .ok collected ∧
            Collects sch fo dependencies collected) ∨
          ∃ error, collectDependencies sch fo dependencies = .error (.validation error) ∧
            ∃ d ∈ dependencies, ∃ mapping, resultOf fo d = some mapping ∧
              sch.schema d mapping = some error) := by
  induction dependencies with
  | nil => exact Or.inr ⟨id, Or.inl ⟨[], rfl, rfl, fun d m hm => nomatch hm⟩⟩
  | cons d rest ih =>
      rw [collectDependencies_cons (hexist d List.mem_cons_self) (h d List.mem_cons_self), ReadsNone]
      cases hresult : resultOf fo d with
      | none => exact Or.inl ⟨⟨_, rfl⟩, trivial⟩
      | some mapping =>
          cases hschema : sch.schema d mapping with
          | some error =>
              refine Or.inr ⟨by simp [hschema], Or.inr ⟨error, by simp [hschema], ?_⟩⟩
              exact ⟨d, List.mem_cons_self, mapping, hresult, hschema⟩
          | none =>
              have hrest := ih (fun q hq => hexist q (List.mem_cons_of_mem _ hq))
                fun q hq => h q (List.mem_cons_of_mem _ hq)
              rcases hrest with ⟨⟨e, he⟩, hreads⟩ | ⟨hnot, ⟨collected, hok, hkeys, hmem⟩ |
                ⟨error, he, q, hq, hrejects⟩⟩
              · exact Or.inl ⟨⟨e, by simp [hschema, he, Except.map]⟩, hschema, hreads⟩
              · refine Or.inr ⟨fun hreads => hnot hreads.2, Or.inl ⟨(d, mapping) :: collected,
                  by simp [hschema, hok, Except.map], by rw [List.map_cons, hkeys], ?_⟩⟩
                intro q m hqm
                rcases List.mem_cons.1 hqm with heq | hin
                · cases heq
                  exact ⟨hresult, hschema⟩
                · exact hmem q m hin
              · refine Or.inr ⟨fun hreads => hnot hreads.2, Or.inr ⟨error,
                  by simp [hschema, he, Except.map], q, List.mem_cons_of_mem _ hq, hrejects⟩⟩

/-- The ways in which `queue_analysis` may end. -/
theorem queueAnalysis_cases (hnone : NoNone fo) {dependencies : List Plugin}
    (hexist : ∀ d ∈ dependencies, d ∈ sch.plugins) (h : ∀ d ∈ dependencies, Fulfilled fo d) :
    (∃ e, queueAnalysis sch dependencies fo = .error (.python e)) ∧
        ReadsNone sch fo dependencies ∨
      ¬ ReadsNone sch fo dependencies ∧
        ((∃ task, queueAnalysis sch dependencies fo = .ok task ∧
            Collects sch fo dependencies task.dependencies) ∨
          ∃ error, queueAnalysis sch dependencies fo = .error (.validation error) ∧
            ∃ d ∈ dependencies, ∃ mapping, resultOf fo d = some mapping ∧
              sch.schema d mapping = some error) := by
  have hunpacker : ∃ unpacker, unpackerResult fo = .ok unpacker := by
    unfold unpackerResult
    cases hget : fo.processedAnalysis.get? "unpacker" with
    | none => exact ⟨none, rfl⟩
    | some entry =>
        cases entry with
        | none => exact absurd hget (hnone "unpacker")
        | some analysis => exact ⟨analysis.result, rfl⟩
  rcases hunpacker with ⟨unpacker, hunpacker⟩
  unfold queueAnalysis
  rcases collectDependencies_cases hexist h with ⟨⟨e, he⟩, hreads⟩ | ⟨hnot, ⟨collected, hok, hcollects⟩ |
    ⟨error, he, hrejects⟩⟩
  · exact Or.inl ⟨⟨e, by rw [he]⟩, hreads⟩
  · exact Or.inr ⟨hnot, Or.inl ⟨⟨collected, unpacker, fo⟩, by simp [hok, hunpacker], hcollects⟩⟩
  · exact Or.inr ⟨hnot, Or.inr ⟨error, by rw [he], hrejects⟩⟩

theorem noNone_withFileType (h : NoNone fo) (hmime : HasMime (fileTypeEntry table fo)) :
    NoNone (withFileType table fo) := by
  intro p
  rw [get?_withFileType]
  split
  · intro hnone
    rw [Option.some.inj hnone] at hmime
    exact hmime
  · exact h p

theorem noNone_isBlacklisted {b : Bool} (h : NoNone s.fo)
    (hlists : isBlacklisted sch plugin metadata s = .ok (b, fo)) : NoNone fo := by
  rcases isBlacklisted_fo hlists with rfl | ⟨rfl, hmime⟩
  · exact h
  · exact noNone_withFileType h hmime

/-! ## A call of `_process_next_analysis_task` -/

/-- The check for a result that need not be computed again is made, and it succeeds. -/
def UpToDate (sch : Scheduler) (s : State) (plugin : Plugin) (metadata : Metadata) : Prop :=
  s.fo.forceUpdate = false ∧ analysisIsAlreadyInDbAndUpToDate sch s.table plugin metadata = true

/-- A plugin that is still scheduled waits for the result of the plugin. -/
def Awaited (sch : Scheduler) (s : State) (plugin : Plugin) : Prop :=
  (∃ p ∈ s.fo.scheduledAnalysis, TaskScheduler.DependsOn sch.plugins p plugin) ∧
    plugin ∉ s.fo.scheduledAnalysis

/-- The reasons for skipping a plugin. `fo` is the object after the blacklist check. -/
inductive SkipReason (sch : Scheduler) (s : State) (plugin : Plugin) (metadata : Metadata)
    (fo : ScheduledObject) : String → Prop
  | blacklisted (hlists : isBlacklisted sch plugin metadata s = .ok (true, fo)) :
      SkipReason sch s plugin metadata fo blacklistedReason
  | dependency (d : Plugin) (hlists : isBlacklisted sch plugin metadata s = .ok (false, fo))
      (hd : d ∈ metadata.dependencies) (hnot : ¬ Fulfilled fo d) :
      SkipReason sch s plugin metadata fo dependencyReason
  | validation (d : Plugin) (mapping : Mapping) (error : String)
      (hlists : isBlacklisted sch plugin metadata s = .ok (false, fo))
      (hd : d ∈ metadata.dependencies) (hresult : resultOf fo d = some mapping)
      (hrejects : sch.schema d mapping = some error) :
      SkipReason sch s plugin metadata fo (validationReason error)

/-- What a call does with the plugin that it has taken off the schedule of `s`. -/
inductive Processed (sch : Scheduler) (now : Time) (goesOn : Bool) (s : State) (plugin : Plugin)
    (metadata : Metadata) : State → Prop
  | found (fo : ScheduledObject) (hup : UpToDate sch s plugin metadata)
      (hfo : fo = s.fo ∧ ¬ Awaited sch s plugin ∨
        fo = addCompletedAnalysisResultsToFileObject s.table plugin s.fo ∧ Awaited sch s plugin) :
      Processed sch now goesOn s plugin metadata (checkFurtherProcessOrComplete goesOn { s with
        fo := fo, log := s.log ++ [.found plugin] })
  | skipped (fo : ScheduledObject) (reason : String) (hup : ¬ UpToDate sch s plugin metadata)
      (hreason : SkipReason sch s plugin metadata fo reason) :
      Processed sch now goesOn s plugin metadata
        (skipAnalysis now goesOn plugin metadata reason { s with fo := fo })
  | queued (fo : ScheduledObject) (task : Task) (hup : ¬ UpToDate sch s plugin metadata)
      (hlists : isBlacklisted sch plugin metadata s = .ok (false, fo))
      (hdeps : ∀ d ∈ metadata.dependencies, Fulfilled fo d)
      (htask : Collects sch fo metadata.dependencies task.dependencies) :
      Processed sch now goesOn s plugin metadata
        { s with fo := fo, place := .atPlugin plugin, log := s.log ++ [.queued plugin task] }

/-- All that a call reads for a plugin that is not up to date has the form that it
expects: the file type, if a list is checked, and the results of the dependencies,
if the plugin is to be started. -/
def Readable (sch : Scheduler) (s : State) (plugin : Plugin) (metadata : Metadata) : Prop :=
  ¬ UpToDate sch s plugin metadata →
    (ChecksMime sch plugin metadata → HasMime (fileTypeEntry s.table s.fo)) ∧
    ∀ fo, isBlacklisted sch plugin metadata s = .ok (false, fo) →
      (∀ d ∈ metadata.dependencies, Fulfilled fo d) → ¬ ReadsNone sch fo metadata.dependencies

theorem useAnalysisInDb_ok (hexist : ∀ p ∈ s.fo.scheduledAnalysis, p ∈ sch.plugins) :
    ∃ fo, useAnalysisInDb sch goesOn plugin s = .ok (checkFurtherProcessOrComplete goesOn { s with
        fo := fo, log := s.log ++ [.found plugin] }) ∧
      (fo = s.fo ∧ ¬ Awaited sch s plugin ∨
        fo = addCompletedAnalysisResultsToFileObject s.table plugin s.fo ∧ Awaited sch s plugin) := by
  rcases TaskScheduler.getCumulativeRemainingDependencies_ok hexist with ⟨remaining, hok, -, hmem⟩
  have hawaited : plugin ∈ remaining ↔ Awaited sch s plugin := hmem plugin
  unfold useAnalysisInDb
  rw [hok]
  by_cases h : plugin ∈ remaining
  · exact ⟨_, rfl, Or.inr ⟨if_pos h, hawaited.1 h⟩⟩
  · exact ⟨_, rfl, Or.inl ⟨if_neg h, fun ha => h (hawaited.2 ha)⟩⟩

/-- The ways in which the check of the dependencies and the start of a plugin may end. -/
theorem startIfDependenciesAllow_cases (hnone : NoNone s.fo)
    (hexist : ∀ d ∈ metadata.dependencies, d ∈ sch.plugins) :
    (∃ d ∈ metadata.dependencies, ¬ Fulfilled s.fo d) ∧
        startIfDependenciesAllow sch now goesOn plugin metadata s =
          .ok (skipAnalysis now goesOn plugin metadata dependencyReason s) ∨
      (∀ d ∈ metadata.dependencies, Fulfilled s.fo d) ∧
        (ReadsNone sch s.fo metadata.dependencies ∧
            (∃ e, startIfDependenciesAllow sch now goesOn plugin metadata s = .error e) ∨
          ¬ ReadsNone sch s.fo metadata.dependencies ∧
            ((∃ error, startIfDependenciesAllow sch now goesOn plugin metadata s =
                .ok (skipAnalysis now goesOn plugin metadata (validationReason error) s) ∧
                ∃ d ∈ metadata.dependencies, ∃ mapping, resultOf s.fo d = some mapping ∧
                  sch.schema d mapping = some error) ∨
              ∃ task, startIfDependenciesAllow sch now goesOn plugin metadata s = .ok { s with
                  place := .atPlugin plugin, log := s.log ++ [.queued plugin task] } ∧
                Collects sch s.fo metadata.dependencies task.dependencies)) := by
  rcases dependenciesAreUnfulfilled_ok hnone metadata.dependencies with ⟨b, hok, hiff⟩
  unfold startIfDependenciesAllow
  rw [hok]
  cases b with
  | true =>
      refine Or.inl ⟨?_, rfl⟩
      by_contra hall
      push Not at hall
      exact Bool.noConfusion (hiff.2 hall)
  | false =>
      have hall := hiff.1 rfl
      refine Or.inr ⟨hall, ?_⟩
      rcases queueAnalysis_cases hnone hexist hall with ⟨⟨e, he⟩, hreads⟩ |
        ⟨hnot, ⟨task, htask, hcollects⟩ | ⟨error, he, hrejects⟩⟩
      · exact Or.inl ⟨hreads, e, by simp only [he]⟩
      · exact Or.inr ⟨hnot, Or.inr ⟨task, by simp only [htask], hcollects⟩⟩
      · exact Or.inr ⟨hnot, Or.inl ⟨error, by simp only [he], hrejects⟩⟩

theorem startOrSkipAnalysis_of_upToDate (h : UpToDate sch s plugin metadata) :
    startOrSkipAnalysis sch now goesOn plugin metadata s = useAnalysisInDb sch goesOn plugin s :=
  if_pos h

theorem startOrSkipAnalysis_of_not_upToDate (h : ¬ UpToDate sch s plugin metadata) :
    startOrSkipAnalysis sch now goesOn plugin metadata s =
      match isBlacklisted sch plugin metadata s with
      | .error e => .error e
      | .ok (true, fo) =>
          .ok (skipAnalysis now goesOn plugin metadata blacklistedReason { s with fo := fo })
      | .ok (false, fo) =>
          startIfDependenciesAllow sch now goesOn plugin metadata { s with fo := fo } :=
  if_neg h

/-- A call either finds all that it reads, and does one of three things with the
plugin, or it raises. -/
theorem startOrSkipAnalysis_cases (hnone : NoNone s.fo)
    (hsched : ∀ p ∈ s.fo.scheduledAnalysis, p ∈ sch.plugins)
    (hexist : ∀ d ∈ metadata.dependencies, d ∈ sch.plugins) :
    Readable sch s plugin metadata ∧
        (∃ s', startOrSkipAnalysis sch now goesOn plugin metadata s = .ok s' ∧
          Processed sch now goesOn s plugin metadata s') ∨
      ¬ Readable sch s plugin metadata ∧
        ∃ e, startOrSkipAnalysis sch now goesOn plugin metadata s = .error e := by
  by_cases hup : UpToDate sch s plugin metadata
  · rcases @useAnalysisInDb_ok sch s plugin goesOn hsched with ⟨fo, hok, hfo⟩
    rw [startOrSkipAnalysis_of_upToDate hup]
    exact Or.inl ⟨fun hnot => absurd hup hnot, _, hok, Processed.found fo hup hfo⟩
  · rw [startOrSkipAnalysis_of_not_upToDate hup]
    by_cases hmime : ChecksMime sch plugin metadata → HasMime (fileTypeEntry s.table s.fo)
    · rcases isBlacklisted_ok_iff.2 hmime with ⟨⟨b, fo⟩, hlists⟩
      rw [hlists]
      cases b with
      | true =>
          refine Or.inl ⟨fun _ => ⟨hmime, ?_⟩, _, rfl,
            Processed.skipped fo _ hup (SkipReason.blacklisted hlists)⟩
          intro fo' hlists'
          rw [hlists] at hlists'
          cases hlists'
      | false =>
          have hreadable : (Readable sch s plugin metadata ↔
              ((∀ d ∈ metadata.dependencies, Fulfilled fo d) →
                ¬ ReadsNone sch fo metadata.dependencies)) := by
            constructor
            · intro h
              exact (h hup).2 fo hlists
            · intro h _
              refine ⟨hmime, ?_⟩
              intro fo' hlists'
              rw [hlists] at hlists'
              cases hlists'
              exact h
          have hnone' : NoNone fo := noNone_isBlacklisted hnone hlists
          rw [hreadable]
          rcases @startIfDependenciesAllow_cases sch { s with fo := fo } plugin metadata now goesOn
            hnone' hexist with ⟨⟨d, hd, hnot⟩, hok⟩ | ⟨hall, ⟨hreads, he⟩ | ⟨hnot, hrest⟩⟩
          · exact Or.inl ⟨fun hall => absurd (hall d hd) hnot, _, hok,
              Processed.skipped fo _ hup (SkipReason.dependency d hlists hd hnot)⟩
          · exact Or.inr ⟨fun h => h hall hreads, he⟩
          · refine Or.inl ⟨fun _ => hnot, ?_⟩
            rcases hrest with ⟨error, hok, d, hd, mapping, hresult, hrejects⟩ | ⟨task, hok, hcollects⟩
            · exact ⟨_, hok, Processed.skipped fo _ hup
                (SkipReason.validation d mapping error hlists hd hresult hrejects)⟩
            · exact ⟨_, hok, Processed.queued fo task hup hlists hall hcollects⟩
    · have herror : ∃ e, isBlacklisted sch plugin metadata s = .error e := by
        cases hlists : isBlacklisted sch plugin metadata s with
        | error e => exact ⟨e, rfl⟩
        | ok r => exact absurd (isBlacklisted_ok_iff.1 ⟨r, hlists⟩) hmime
      rcases herror with ⟨e, he⟩
      rw [he]
      exact Or.inr ⟨fun h => hmime (h hup).1, e, rfl⟩

/-- The state with the last plugin taken off the schedule. -/
def State.pop (s : State) : State := { s with fo := s.fo.pop }

@[simp] theorem pop_table : s.pop.table = s.table := rfl

@[simp] theorem pop_log : s.pop.log = s.log := rfl

/-- What a call may raise or do, in a state whose schedule is not empty. -/
theorem processNextAnalysisTask_cases (hnone : NoNone s.fo)
    (hsched : ∀ p ∈ s.fo.scheduledAnalysis, p ∈ sch.plugins)
    (hexist : ∀ p ∈ s.fo.scheduledAnalysis, ∀ d, TaskScheduler.DependsOn sch.plugins p d →
      d ∈ sch.plugins)
    (hlast : s.fo.scheduledAnalysis.getLast? = some plugin) :
    ∃ metadata, sch.plugins.get? plugin = some metadata ∧
      (Readable sch s.pop plugin metadata ∧
          (∃ s', processNextAnalysisTask sch now goesOn s = .ok s' ∧
            Processed sch now goesOn s.pop plugin metadata s') ∨
        ¬ Readable sch s.pop plugin metadata ∧
          ∃ e, processNextAnalysisTask sch now goesOn s = .error e) := by
  have hmem : plugin ∈ s.fo.scheduledAnalysis := List.mem_of_getLast? hlast
  rcases Dict.mem_iff.1 (hsched plugin hmem) with ⟨metadata, hget⟩
  refine ⟨metadata, hget, ?_⟩
  have hcall : processNextAnalysisTask sch now goesOn s =
      startOrSkipAnalysis sch now goesOn plugin metadata s.pop := by
    simp only [processNextAnalysisTask, hlast, hget]
    rfl
  rw [hcall]
  refine startOrSkipAnalysis_cases hnone ?_ ?_
  · intro p hp
    exact hsched p (List.dropLast_subset _ hp)
  · intro d hd
    exact hexist plugin hmem d ⟨metadata, hget, hd⟩

/-- Nothing but the entries of an object has changed. -/
structure SameSchedule (fo fo' : ScheduledObject) : Prop where
  scheduledAnalysis : fo'.scheduledAnalysis = fo.scheduledAnalysis
  forceUpdate : fo'.forceUpdate = fo.forceUpdate
  analysisException : fo'.analysisException = fo.analysisException

theorem sameSchedule_refl (fo : ScheduledObject) : SameSchedule fo fo := ⟨rfl, rfl, rfl⟩

theorem sameSchedule_isBlacklisted {b : Bool}
    (h : isBlacklisted sch plugin metadata s = .ok (b, fo)) : SameSchedule s.fo fo := by
  rcases isBlacklisted_fo h with rfl | ⟨rfl, -⟩
  · exact sameSchedule_refl s.fo
  · unfold withFileType
    split
    · exact sameSchedule_refl s.fo
    · exact ⟨rfl, rfl, rfl⟩

/-- A plugin that is skipped has been checked against the lists before. -/
theorem SkipReason.checked {reason : String} (h : SkipReason sch s plugin metadata fo reason) :
    ∃ b, isBlacklisted sch plugin metadata s = .ok (b, fo) := by
  cases h with
  | blacklisted hlists => exact ⟨true, hlists⟩
  | dependency d hlists hd hnot => exact ⟨false, hlists⟩
  | validation d mapping error hlists hd hresult hrejects => exact ⟨false, hlists⟩

/-- What is up to date is in the table, and did not fail. -/
theorem UpToDate.entry (h : UpToDate sch s plugin metadata) :
    ∃ entry, s.table.getAnalysis plugin = some entry ∧ entry.hasKey "failed" = false ∧
      analysisIsUpToDate sch s.table metadata entry = true := by
  rcases h with ⟨-, hdb⟩
  unfold analysisIsAlreadyInDbAndUpToDate at hdb
  cases hget : s.table.getAnalysis plugin with
  | none =>
      rw [hget] at hdb
      cases hdb
  | some entry =>
      rw [hget] at hdb
      cases hfailed : entry.hasKey "failed" with
      | true => simp [hfailed] at hdb
      | false => exact ⟨entry, rfl, hfailed, by simpa [hfailed] using hdb⟩

theorem Processed.sameSchedule (h : Processed sch now goesOn s plugin metadata s') :
    SameSchedule s.fo s'.fo := by
  cases h with
  | found fo hup hfo =>
      rw [checkFurther_fo]
      rcases hfo with ⟨rfl, -⟩ | ⟨rfl, -⟩
      · exact sameSchedule_refl s.fo
      · exact ⟨rfl, rfl, rfl⟩
  | skipped fo reason hup hreason =>
      rcases hreason.checked with ⟨b, hlists⟩
      have hsame := sameSchedule_isBlacklisted hlists
      rw [skipAnalysis_fo]
      exact ⟨hsame.scheduledAnalysis, hsame.forceUpdate, hsame.analysisException⟩
  | queued fo task hup hlists hdeps htask => exact sameSchedule_isBlacklisted hlists

theorem noNone_setAnalysis {analysis : Analysis} (h : NoNone fo) :
    NoNone (fo.setAnalysis plugin (some analysis)) := by
  intro p
  rw [setAnalysis_processedAnalysis, Dict.get?_set]
  split
  · simp
  · exact h p

theorem Processed.noNone (h : Processed sch now goesOn s plugin metadata s') (hnone : NoNone s.fo) :
    NoNone s'.fo := by
  cases h with
  | found fo hup hfo =>
      rw [checkFurther_fo]
      rcases hfo with ⟨rfl, -⟩ | ⟨rfl, -⟩
      · exact hnone
      · rcases hup.entry with ⟨entry, hget, -⟩
        rw [addCompletedAnalysisResultsToFileObject, hget]
        exact noNone_setAnalysis hnone
  | skipped fo reason hup hreason =>
      rcases hreason.checked with ⟨b, hlists⟩
      rw [skipAnalysis_fo]
      exact noNone_setAnalysis (noNone_isBlacklisted hnone hlists)
  | queued fo task hup hlists hdeps htask => exact noNone_isBlacklisted hnone hlists

theorem Processed.log_subset (h : Processed sch now goesOn s plugin metadata s') :
    s.log ⊆ s'.log := by
  cases h with
  | found fo hup hfo =>
      rw [checkFurther_log]
      exact List.subset_append_left _ _
  | skipped fo reason hup hreason =>
      rw [skipAnalysis_log]
      exact List.subset_append_left _ _
  | queued fo task hup hlists hdeps htask => exact List.subset_append_left _ _

/-! ## A call of `_handle_collected_result` -/

/-- What the loop over the plugins `l` has done: those that depend on the failed
plugin are not scheduled any more, and have a failed entry. -/
structure Unscheduled (plugins : Plugins) (failed : Plugin) (l : List Plugin) (s s' : State) :
    Prop where
  sublist : s'.fo.scheduledAnalysis.Sublist s.fo.scheduledAnalysis
  scheduled : ∀ p, p ∈ s'.fo.scheduledAnalysis ↔
    p ∈ s.fo.scheduledAnalysis ∧ ¬ (p ∈ l ∧ TaskScheduler.DependsOn plugins p failed)
  kept : ∀ p, ¬ (p ∈ l ∧ TaskScheduler.DependsOn plugins p failed) →
    s'.fo.processedAnalysis.get? p = s.fo.processedAnalysis.get? p
  dropped : ∀ p ∈ l, TaskScheduler.DependsOn plugins p failed → Event.unscheduled p ∈ s'.log ∧
    ∃ analysis, s'.fo.processedAnalysis.get? p = some (some analysis)
  log : ∃ gone : List Plugin, s'.log = s.log ++ gone.map Event.unscheduled ∧
    ∀ p ∈ gone, p ∈ l ∧ TaskScheduler.DependsOn plugins p failed
  table : s'.table = s.table
  forceUpdate : s'.fo.forceUpdate = s.fo.forceUpdate

theorem unscheduleDependents_ok {plugins : Plugins} {clock : Plugin → Time} {failed : Plugin}
    {l : List Plugin} (hexist : ∀ p ∈ l, p ∈ plugins) (hnodup : s.fo.scheduledAnalysis.Nodup) :
    ∃ s', unscheduleDependents plugins clock failed l s = .ok s' ∧
      Unscheduled plugins failed l s s' := by
  induction l generalizing s with
  | nil =>
      refine ⟨s, rfl, List.Sublist.refl _, ?_, ?_, ?_, ⟨[], by simp⟩, rfl, rfl⟩
      · intro p
        simp
      · intro p _
        rfl
      · intro p hp
        cases hp
  | cons q rest ih =>
      rcases Dict.mem_iff.1 (hexist q List.mem_cons_self) with ⟨metadata, hget⟩
      have hexist' : ∀ p ∈ rest, p ∈ plugins := fun p hp => hexist p (List.mem_cons_of_mem _ hp)
      have hdep : failed ∈ metadata.dependencies ↔ TaskScheduler.DependsOn plugins q failed := by
        constructor
        · intro hmem
          exact ⟨metadata, hget, hmem⟩
        · rintro ⟨metadata', hget', hmem⟩
          cases hget.symm.trans hget'
          exact hmem
      unfold unscheduleDependents
      simp only [hget]
      by_cases hfailed : failed ∈ metadata.dependencies
      · -- the first plugin is unscheduled, and the rest of the loop sees it gone
        rw [if_pos hfailed]
        have hrest := @ih { s with
          fo := (s.fo.unschedule q).setAnalysis q (some (getFailedAnalysisResult (clock q) metadata
            ("Analysis of dependency " ++ failed ++ " failed")))
          log := s.log ++ [.unscheduled q] } hexist' (hnodup.erase q)
        rcases hrest with ⟨s', hok, hs'⟩
        have hsched : ∀ p, p ∈ (s.fo.scheduledAnalysis.erase q) ↔
            p ≠ q ∧ p ∈ s.fo.scheduledAnalysis := fun p => hnodup.mem_erase_iff
        refine ⟨s', hok, hs'.sublist.trans List.erase_sublist, ?_, ?_, ?_, ?_, hs'.table,
          hs'.forceUpdate⟩
        · intro p
          rw [hs'.scheduled p]
          simp only [setAnalysis_scheduledAnalysis, ScheduledObject.unschedule, hsched, List.mem_cons]
          by_cases hpq : p = q
          · subst hpq
            simp [hdep.1 hfailed]
          · simp [hpq]
        · intro p hp
          have hpq : p ≠ q := by
            rintro rfl
            exact hp ⟨List.mem_cons_self, hdep.1 hfailed⟩
          rw [hs'.kept p fun h => hp ⟨List.mem_cons_of_mem _ h.1, h.2⟩]
          exact Dict.get?_set_ne _ _ hpq
        · intro p hp hpd
          rcases hs'.log with ⟨gone, hlog, -⟩
          by_cases hrest : p ∈ rest
          · exact hs'.dropped p hrest hpd
          · obtain rfl : p = q := (List.mem_cons.1 hp).resolve_right hrest
            refine ⟨by simp [hlog], ?_⟩
            rw [hs'.kept p fun h => hrest h.1]
            exact ⟨_, Dict.get?_set_self _ _ _⟩
        · rcases hs'.log with ⟨gone, hlog, hgone⟩
          refine ⟨q :: gone, by simp [hlog], ?_⟩
          intro p hp
          rcases List.mem_cons.1 hp with rfl | hp
          · exact ⟨List.mem_cons_self, hdep.1 hfailed⟩
          · exact ⟨List.mem_cons_of_mem _ (hgone p hp).1, (hgone p hp).2⟩
      · -- the first plugin is none of the dependents
        rw [if_neg hfailed]
        rcases ih hexist' hnodup with ⟨s', hok, hs'⟩
        have hmem : ∀ p, (p ∈ q :: rest ∧ TaskScheduler.DependsOn plugins p failed) ↔
            (p ∈ rest ∧ TaskScheduler.DependsOn plugins p failed) := by
          intro p
          constructor
          · rintro ⟨hp, hpd⟩
            rcases List.mem_cons.1 hp with rfl | hp
            · exact absurd (hdep.2 hpd) hfailed
            · exact ⟨hp, hpd⟩
          · rintro ⟨hp, hpd⟩
            exact ⟨List.mem_cons_of_mem _ hp, hpd⟩
        refine ⟨s', hok, hs'.sublist, ?_, ?_, ?_, ?_, hs'.table, hs'.forceUpdate⟩
        · intro p
          rw [hs'.scheduled p, hmem p]
        · intro p hp
          exact hs'.kept p fun h => hp ((hmem p).2 h)
        · intro p hp hpd
          exact hs'.dropped p ((hmem p).1 ⟨hp, hpd⟩).1 hpd
        · rcases hs'.log with ⟨gone, hlog, hgone⟩
          exact ⟨gone, hlog, fun p hp => (hmem p).2 (hgone p hp)⟩

/-- What a call does with the outcome of a plugin: it stores the result, or it stores
that the plugin failed, after its dependents have been unscheduled. -/
inductive Collected (sch : Scheduler) (goesOn : Bool) (s : State) (plugin : Plugin) : State → Prop
  | result (analysis : Analysis) (hexc : s.fo.analysisException = none)
      (hget : s.fo.processedAnalysis.get? plugin = some (some analysis)) :
      Collected sch goesOn s plugin
        (checkFurtherProcessOrComplete goesOn (postAnalysis plugin analysis s))
  | failed (cause : String) (analysis : Analysis) (t : State)
      (hexc : s.fo.analysisException = some (plugin, cause))
      (hfailed : analysis.hasKey "failed" = true)
      (ht : Unscheduled sch.plugins plugin s.fo.scheduledAnalysis
        { s with fo := s.fo.setAnalysis plugin (some analysis) } t) :
      Collected sch goesOn s plugin
        (checkFurtherProcessOrComplete goesOn (postAnalysis plugin analysis
          { t with fo := { t.fo with analysisException := none } }))

theorem Collected.log_subset (h : Collected sch goesOn s plugin s') : s.log ⊆ s'.log := by
  cases h with
  | result analysis hexc hget =>
      rw [checkFurther_log]
      exact List.subset_append_left _ _
  | failed cause analysis t hexc hfailed ht =>
      rcases ht.log with ⟨gone, hlog, -⟩
      rw [checkFurther_log]
      intro e he
      simp [postAnalysis, hlog, he]

/-- The object comes back with a result, or with the exception of the plugin. -/
def CameBack (fo : ScheduledObject) (plugin : Plugin) : Prop :=
  fo.analysisException = none ∧
      (∃ analysis, fo.processedAnalysis.get? plugin = some (some analysis)) ∨
    ∃ cause, fo.analysisException = some (plugin, cause)

theorem handleCollectedResult_ok {clock : Plugin → Time} (hplugin : plugin ∈ sch.plugins)
    (hback : CameBack s.fo plugin) (hgone : plugin ∉ s.fo.scheduledAnalysis)
    (hsched : ∀ p ∈ s.fo.scheduledAnalysis, p ∈ sch.plugins)
    (hnodup : s.fo.scheduledAnalysis.Nodup) :
    ∃ s', handleCollectedResult sch clock goesOn plugin s = .ok s' ∧
      Collected sch goesOn s plugin s' := by
  rcases hback with ⟨hexc, analysis, hget⟩ | ⟨cause, hexc⟩
  · refine ⟨_, ?_, Collected.result analysis hexc hget⟩
    simp only [handleCollectedResult, rescheduleFailedAnalysisTask, hexc, hget]
  · rcases Dict.mem_iff.1 hplugin with ⟨metadata, hmetadata⟩
    let analysis := getFailedAnalysisResult (clock plugin) metadata cause
    rcases @unscheduleDependents_ok { s with fo := s.fo.setAnalysis plugin (some analysis) }
      sch.plugins clock plugin s.fo.scheduledAnalysis hsched hnodup with ⟨t, hok, ht⟩
    have hget : t.fo.processedAnalysis.get? plugin = some (some analysis) := by
      rw [ht.kept plugin fun h => hgone h.1]
      exact Dict.get?_set_self _ _ _
    refine ⟨_, ?_, Collected.failed cause analysis t hexc ?_ ht⟩
    · simp only [handleCollectedResult, rescheduleFailedAnalysisTask, hexc, hmetadata]
      rw [hok]
      simp only [Except.map, hget]
    · rfl

end FactCore.AnalysisScheduler
