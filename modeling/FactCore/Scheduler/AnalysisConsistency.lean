import FactCore.Scheduler.AnalysisDependencies

/-! # The object and the table

The scheduler decides by the table whether a plugin is up to date, and by the
entries of the object whether it is skipped. In runs without failures the two
agree (`Consistent`): a plugin that is skipped would be skipped by the entries
of the table, and a plugin that is started would not.
-/

namespace FactCore.AnalysisScheduler

open Tla

variable {sch : Scheduler} {start : Start} {s s' : State} {fo : ScheduledObject}
  {table table' : AnalysisTable} {plugin p d : Plugin} {metadata : Metadata} {now : Time}
  {goesOn : Bool} {a : Action} {log : List Event}

/-! ## What the table says -/

/-- The versions of all plugins can be parsed, and none is newer than itself. -/
def VersionsValid (sch : Scheduler) : Prop :=
  ∀ plugin metadata, sch.plugins.get? plugin = some metadata →
    sch.semverNewer metadata.version metadata.version = some false ∧
    sch.packagingNewer (fixSystemVersion metadata.systemVersion)
      (fixSystemVersion metadata.systemVersion) = some false

/-- A plugin that depends on this one is skipped: the entry was skipped or failed, or
has a result that the schema rejects. -/
def Unusable (sch : Scheduler) (table : AnalysisTable) (d : Plugin) : Prop :=
  ∃ entry, table.getAnalysis d = some entry ∧
    (Marked entry ∨ ∃ mapping error, entry.result = some mapping ∧ sch.schema d mapping = some error)

/-- The lists of a plugin exclude the file type of the table. -/
def Excluded (sch : Scheduler) (table : AnalysisTable) (plugin : Plugin) (metadata : Metadata) :
    Prop :=
  ChecksMime sch plugin metadata ∧ ∃ fileType,
    lowerMime sch (table.getAnalysis "file_type") = .ok fileType ∧
    listsExclude fileType (getBlacklistAndWhitelist sch plugin metadata) = true

/-- By the entries of the table, a plugin that is not up to date is skipped. -/
def WontRun (sch : Scheduler) (table : AnalysisTable) (plugin : Plugin) (metadata : Metadata) : Prop :=
  Excluded sch table plugin metadata ∨ ∃ d ∈ metadata.dependencies, Unusable sch table d

/-- By the entries of the table, a plugin is up to date or skipped. -/
def Resolved (sch : Scheduler) (table : AnalysisTable) (plugin : Plugin) (metadata : Metadata) :
    Prop :=
  analysisIsAlreadyInDbAndUpToDate sch table plugin metadata = true ∨ WontRun sch table plugin metadata

theorem Unusable.congr (h : Unusable sch table d) (hd : table'.getAnalysis d = table.getAnalysis d) :
    Unusable sch table' d := by
  rcases h with ⟨entry, hget, hentry⟩
  exact ⟨entry, hd.trans hget, hentry⟩

/-- Only the entries of the dependencies and of the file type matter for skipping. -/
theorem WontRun.congr (h : WontRun sch table plugin metadata)
    (hfileType : table'.getAnalysis "file_type" = table.getAnalysis "file_type")
    (hdeps : ∀ d ∈ metadata.dependencies, table'.getAnalysis d = table.getAnalysis d) :
    WontRun sch table' plugin metadata := by
  rcases h with ⟨hcheck, fileType, hlower, hlists⟩ | ⟨d, hd, hunusable⟩
  · refine Or.inl ⟨hcheck, fileType, ?_, hlists⟩
    rw [hfileType]
    exact hlower
  · exact Or.inr ⟨d, hd, hunusable.congr (hdeps d hd)⟩

/-- Only the entries of the plugin and of its dependencies matter for its being up to date. -/
theorem upToDate_congr (hplugin : table'.getAnalysis plugin = table.getAnalysis plugin)
    (hdeps : ∀ d ∈ metadata.dependencies, table'.getAnalysis d = table.getAnalysis d) :
    analysisIsAlreadyInDbAndUpToDate sch table' plugin metadata =
      analysisIsAlreadyInDbAndUpToDate sch table plugin metadata := by
  have hdates : ∀ entry, dependenciesAreUpToDate table' entry metadata.dependencies =
      dependenciesAreUpToDate table entry metadata.dependencies := by
    intro entry
    unfold dependenciesAreUpToDate
    rw [Bool.eq_iff_iff, List.all_eq_true, List.all_eq_true]
    constructor
    · intro h d hd
      rw [← hdeps d hd]
      exact h d hd
    · intro h d hd
      rw [hdeps d hd]
      exact h d hd
  unfold analysisIsAlreadyInDbAndUpToDate analysisIsUpToDate
  rw [hplugin]
  simp only [hdates]

theorem Resolved.congr (h : Resolved sch table plugin metadata)
    (hplugin : table'.getAnalysis plugin = table.getAnalysis plugin)
    (hfileType : table'.getAnalysis "file_type" = table.getAnalysis "file_type")
    (hdeps : ∀ d ∈ metadata.dependencies, table'.getAnalysis d = table.getAnalysis d) :
    Resolved sch table' plugin metadata := by
  rcases h with hup | hwont
  · exact Or.inl ((upToDate_congr hplugin hdeps).trans hup)
  · exact Or.inr (hwont.congr hfileType hdeps)

/-- What is up to date is not older than its dependencies, which have entries. -/
theorem dependency_of_upToDate
    (h : analysisIsAlreadyInDbAndUpToDate sch table plugin metadata = true)
    (hd : d ∈ metadata.dependencies) : ∃ entry dependencyEntry,
      table.getAnalysis plugin = some entry ∧ table.getAnalysis d = some dependencyEntry ∧
      ¬ entry.analysisDate < dependencyEntry.analysisDate := by
  unfold analysisIsAlreadyInDbAndUpToDate at h
  cases hget : table.getAnalysis plugin with
  | none => simp [hget] at h
  | some entry =>
      have hup : analysisIsUpToDate sch table metadata entry = true := by
        simp only [hget] at h
        split at h
        · cases h
        · exact h
      have hdates : dependenciesAreUpToDate table entry metadata.dependencies = true := by
        unfold analysisIsUpToDate at hup
        split at hup
        · cases hup
        · cases hup
        · exact hup
      have hdate := List.all_eq_true.1 hdates d hd
      cases hdep : table.getAnalysis d with
      | none => simp [hdep] at hdate
      | some dependencyEntry => exact ⟨entry, dependencyEntry, rfl, rfl, by simpa [hdep] using hdate⟩

/-- A result that was stored after those of its dependencies is up to date. -/
theorem upToDate_of_newAnalysis (hversions : VersionsValid sch)
    (hget : sch.plugins.get? plugin = some metadata) {entry : Analysis}
    (hentry : table.getAnalysis plugin = some entry) (hfailed : entry.hasKey "failed" = false)
    (hversion : entry.pluginVersion = metadata.version)
    (hsystem : entry.systemVersion = metadata.systemVersion)
    (hdates : ∀ d ∈ metadata.dependencies, ∃ dependencyEntry,
      table.getAnalysis d = some dependencyEntry ∧
      dependencyEntry.analysisDate < entry.analysisDate) :
    analysisIsAlreadyInDbAndUpToDate sch table plugin metadata = true := by
  rcases hversions plugin metadata hget with ⟨hsemver, hpackaging⟩
  have hnewer : currentVersionIsNewer sch metadata entry = some false := by
    simp [currentVersionIsNewer, hversion, hsystem, hsemver, hpackaging]
  have hdeps : dependenciesAreUpToDate table entry metadata.dependencies = true := by
    refine List.all_eq_true.2 ?_
    intro d hd
    rcases hdates d hd with ⟨dependencyEntry, hdep, hlt⟩
    simp only [hdep, Bool.not_eq_true', decide_eq_false_iff_not]
    exact Int.not_lt.2 (Int.le_of_lt hlt)
  simp [analysisIsAlreadyInDbAndUpToDate, hentry, hfailed, analysisIsUpToDate, hnewer, hdeps]

/-! ## The object and the table -/

/-- The result of a plugin in the object is that of the table. -/
def Agrees (table : AnalysisTable) (fo : ScheduledObject) (p : Plugin) : Prop :=
  ∀ analysis, fo.processedAnalysis.get? p = some (some analysis) →
    ∃ entry, table.getAnalysis p = some entry ∧ entry.result = some (analysis.result.getD ∅)

/-- The object has an entry of a plugin. -/
def Holds (fo : ScheduledObject) (p : Plugin) : Prop :=
  ∃ analysis, fo.processedAnalysis.get? p = some (some analysis)

theorem agrees_of_eq (h : fo.processedAnalysis.get? p = some (table.getAnalysis p)) :
    Agrees table fo p := by
  intro analysis hget
  rw [h] at hget
  have hentry := Option.some.inj hget
  rcases AnalysisTable.getAnalysis_result hentry with ⟨mapping, hresult⟩
  exact ⟨analysis, hentry, by simp [hresult]⟩

theorem agrees_stored {analysis : Analysis}
    (h : fo.processedAnalysis.get? plugin = some (some analysis)) :
    Agrees (table.addAnalysis plugin analysis) fo plugin := by
  intro analysis' hget
  cases h.symm.trans hget
  exact ⟨_, AnalysisTable.getAnalysis_addAnalysis_self, rfl⟩

theorem Agrees.set {analysis : Option Analysis} (h : Agrees table fo p) (hne : p ≠ plugin) :
    Agrees table (fo.setAnalysis plugin analysis) p := by
  intro analysis' hget
  rw [setAnalysis_processedAnalysis, Dict.get?_set_ne _ _ hne] at hget
  exact h analysis' hget

theorem Agrees.addAnalysis {analysis : Analysis} (h : Agrees table fo p) (hne : p ≠ plugin) :
    Agrees (table.addAnalysis plugin analysis) fo p := by
  intro analysis' hget
  rw [AnalysisTable.getAnalysis_addAnalysis_ne hne]
  exact h analysis' hget

theorem Agrees.checked {b : Bool} (h : Agrees s.table s.fo p)
    (hlists : isBlacklisted sch plugin metadata s = .ok (b, fo)) : Agrees s.table fo p := by
  rcases isBlacklisted_fo hlists with rfl | ⟨rfl, -⟩
  · exact h
  · by_cases hp : p = "file_type"
    · subst hp
      cases hget : s.fo.processedAnalysis.get? "file_type" with
      | none => exact agrees_of_eq (by simp [get?_withFileType, fileTypeEntry, hget])
      | some entry =>
          intro analysis hanalysis
          rw [get?_withFileType, if_pos rfl, fileTypeEntry, hget] at hanalysis
          exact h analysis (hget.trans hanalysis)
    · intro analysis hanalysis
      rw [get?_withFileType, if_neg hp] at hanalysis
      exact h analysis hanalysis

theorem Holds.set {analysis : Analysis} (h : Holds fo p) :
    Holds (fo.setAnalysis plugin (some analysis)) p := by
  rcases h with ⟨analysis', hget⟩
  unfold Holds
  rw [setAnalysis_processedAnalysis, Dict.get?_set]
  split
  · exact ⟨analysis, rfl⟩
  · exact ⟨analysis', hget⟩

theorem Holds.checked {b : Bool} (h : Holds s.fo p)
    (hlists : isBlacklisted sch plugin metadata s = .ok (b, fo)) : Holds fo p := by
  rcases isBlacklisted_fo hlists with rfl | ⟨rfl, -⟩
  · exact h
  · rcases h with ⟨analysis, hget⟩
    refine ⟨analysis, ?_⟩
    rw [get?_withFileType]
    split
    · rename_i hp
      subst hp
      simp [fileTypeEntry, hget]
    · exact hget

/-- The object was loaded: the entries of plugins that it has are those of the table. -/
def Start.Loaded (sch : Scheduler) (start : Start) : Prop :=
  ∀ p ∈ sch.plugins, ∀ entry, start.processedAnalysis.get? p = some entry →
    entry = start.table.getAnalysis p

/-- What holds in runs without failures: the schedule is worked off from its end; the
results of the object are those of the table, but for the one that comes back from
its plugin; and the object has the entries that scheduled plugins wait for. -/
structure Consistent (sch : Scheduler) (start : Start) (s : State) : Prop where
  orderly : Orderly start s
  atWork : ∀ p, s.place = .atPlugin p ∨ s.place = .collected p →
    ∃ popped, start.schedule = s.fo.scheduledAnalysis ++ p :: popped
  agrees : ∀ p ∈ sch.plugins, s.place ≠ .collected p → Agrees s.table s.fo p
  holds : ∀ p, Done start s p →
    (∃ q ∈ s.fo.scheduledAnalysis, TaskScheduler.DependsOn sch.plugins q p) → Holds s.fo p

/-- What is done was taken off the end of the schedule. -/
theorem Consistent.done_iff (h : Consistent sch start s) (hnodup : start.schedule.Nodup) :
    ∃ popped, popped <:+ start.schedule ∧ ∀ q, Done start s q ↔ q ∈ popped := by
  by_cases hwork : ∃ p, s.place = .atPlugin p ∨ s.place = .collected p
  · rcases hwork with ⟨p, hp⟩
    rcases h.atWork p hp with ⟨popped, hsched⟩
    rw [hsched] at hnodup
    have hrest := (List.nodup_append.1 hnodup).2
    refine ⟨popped, ⟨s.fo.scheduledAnalysis ++ [p], by simp [hsched]⟩, ?_⟩
    intro q
    constructor
    · intro hdone
      have hmem : q ∈ s.fo.scheduledAnalysis ++ p :: popped := hsched ▸ hdone.mem
      have hne : q ≠ p := by
        rintro rfl
        exact hp.elim hdone.notAt hdone.notCollected
      exact (List.mem_cons.1 ((List.mem_append.1 hmem).resolve_left hdone.gone)).resolve_left hne
    · intro hin
      have hne : q ≠ p := by
        rintro rfl
        exact (List.nodup_cons.1 hrest.1).1 hin
      refine ⟨?_, fun hq => hrest.2 q hq q (List.mem_cons_of_mem _ hin) rfl, ?_, ?_⟩
      · rw [hsched]
        exact List.mem_append_right _ (List.mem_cons_of_mem _ hin)
      · intro hat
        rcases hp with hp | hp <;> rw [hp] at hat <;> cases hat
        exact hne rfl
      · intro hcollected
        rcases hp with hp | hp <;> rw [hp] at hcollected <;> cases hcollected
        exact hne rfl
  · rcases h.orderly.schedule with ⟨popped, hsched⟩
    rw [← hsched] at hnodup
    have hdisjoint := (List.nodup_append.1 hnodup).2.2
    refine ⟨popped, ⟨s.fo.scheduledAnalysis, hsched⟩, ?_⟩
    intro q
    constructor
    · intro hdone
      have hmem : q ∈ s.fo.scheduledAnalysis ++ popped := hsched.symm ▸ hdone.mem
      exact (List.mem_append.1 hmem).resolve_left hdone.gone
    · intro hin
      refine ⟨?_, fun hq => hdisjoint q hq q hin rfl, fun hat => hwork ⟨q, Or.inl hat⟩,
        fun hcollected => hwork ⟨q, Or.inr hcollected⟩⟩
      rw [← hsched]
      exact List.mem_append_right _ hin

/-- What is done has been done after its dependencies. -/
theorem Consistent.done_closed (h : Consistent sch start s) (hnodup : start.schedule.Nodup)
    (hordered : Dependencies.Ordered (TaskScheduler.DependsOn sch.plugins) start.schedule)
    (hp : Done start s p) (hdep : TaskScheduler.DependsOn sch.plugins p d) : Done start s d := by
  rcases h.done_iff hnodup with ⟨popped, ⟨rest, hsched⟩, hdone⟩
  rw [← hsched] at hordered
  exact (hdone d).2 (hordered.popped.closed p d ((hdone p).1 hp) hdep)

/-- What is done has been done after the file type. -/
theorem Consistent.done_fileType (h : Consistent sch start s) (hnodup : start.schedule.Nodup)
    (hlast : "file_type" ∈ start.schedule → start.schedule.getLast? = some "file_type")
    (hp : Done start s p) (hmem : "file_type" ∈ start.schedule) : Done start s "file_type" := by
  rcases h.done_iff hnodup with ⟨popped, ⟨rest, hsched⟩, hdone⟩
  have hlast' := hlast hmem
  rw [← hsched, List.getLast?_append] at hlast'
  cases hpopped : popped.getLast? with
  | none =>
      rw [List.getLast?_eq_none_iff] at hpopped
      have hin := (hdone p).1 hp
      rw [hpopped] at hin
      cases hin
  | some last =>
      rw [hpopped] at hlast'
      obtain rfl : last = "file_type" := by simpa using hlast'
      exact (hdone _).2 (List.mem_of_getLast? hpopped)

theorem init_consistent (hloaded : start.Loaded sch) : Consistent sch start start.state := by
  have hfo : start.state.fo.processedAnalysis = start.processedAnalysis :=
    congrArg (fun fo : ScheduledObject => fo.processedAnalysis) checkFurther_fo
  refine ⟨init_orderly, ?_, ?_, ?_⟩
  · rintro p (hat | hcollected)
    · exact absurd hat (checkFurther_not_busy p).1
    · exact absurd hcollected (checkFurther_not_busy p).2
  · intro p hp _ analysis hget
    rw [hfo] at hget
    rw [start_table]
    refine agrees_of_eq ?_ analysis (hfo ▸ hget)
    rw [hfo, hget, ← hloaded p hp _ hget]
  · intro p hdone
    have hgone := hdone.gone
    rw [start_schedule] at hgone
    exact absurd hdone.mem hgone

theorem consistent_found (h : Consistent sch start s) (horderly : Orderly start
      (checkFurtherProcessOrComplete goesOn { s.pop with fo := fo, log := log }))
    (hplace : s.place = .inQueue) (hlast : s.fo.scheduledAnalysis.getLast? = some plugin)
    (hup : UpToDate sch s.pop plugin metadata)
    (hfo : fo = s.pop.fo ∧ ¬ Awaited sch s.pop plugin ∨
      fo = addCompletedAnalysisResultsToFileObject s.table plugin s.pop.fo ∧
        Awaited sch s.pop plugin) :
    Consistent sch start
      (checkFurtherProcessOrComplete goesOn { s.pop with fo := fo, log := log }) := by
  have hsched : fo.scheduledAnalysis = s.fo.scheduledAnalysis.dropLast := by
    rcases hfo with ⟨rfl, -⟩ | ⟨rfl, -⟩ <;> rfl
  have hnot : ∀ q, s.place ≠ .collected q := by simp [hplace]
  refine ⟨horderly, ?_, ?_, ?_⟩
  · rintro p (hat | hcollected)
    · exact absurd hat (checkFurther_not_busy p).1
    · exact absurd hcollected (checkFurther_not_busy p).2
  · intro p hp _
    rw [checkFurther_table, checkFurther_fo]
    show Agrees s.table fo p
    rcases hfo with ⟨rfl, -⟩ | ⟨rfl, -⟩
    · exact h.agrees p hp (hnot p)
    · by_cases hne : p = plugin
      · subst hne
        exact agrees_of_eq (Dict.get?_set_self _ _ _)
      · have hpop : Agrees s.table s.pop.fo p := h.agrees p hp (hnot p)
        exact hpop.set hne
  · rintro p hdone ⟨q, hq, hqp⟩
    have hgone := hdone.gone
    rw [checkFurther_fo] at hq hgone ⊢
    have hq' : q ∈ s.fo.scheduledAnalysis.dropLast := hsched ▸ hq
    have hgone' : p ∉ s.fo.scheduledAnalysis.dropLast := hsched ▸ hgone
    rcases hdone.before_call hplace hlast (by rw [checkFurther_fo]; exact hsched) with rfl | hbefore
    · rcases hfo with ⟨-, hnotAwaited⟩ | ⟨rfl, -⟩
      · exact absurd ⟨⟨q, hq', hqp⟩, hgone'⟩ hnotAwaited
      · rcases hup.entry with ⟨entry, hentry, -⟩
        exact ⟨entry, (Dict.get?_set_self _ _ _).trans (congrArg some hentry)⟩
    · have hholds : Holds s.pop.fo p := h.holds p hbefore ⟨q, List.dropLast_subset _ hq', hqp⟩
      rcases hfo with ⟨rfl, -⟩ | ⟨rfl, -⟩
      · exact hholds
      · rcases hup.entry with ⟨entry, hentry, -⟩
        rw [pop_table] at hentry
        show Holds (s.pop.fo.setAnalysis plugin (s.table.getAnalysis plugin)) p
        rw [hentry]
        exact hholds.set

theorem consistent_skipped {reason : String} {b : Bool} (h : Consistent sch start s)
    (horderly : Orderly start
      (skipAnalysis now goesOn plugin metadata reason { s.pop with fo := fo }))
    (hplace : s.place = .inQueue) (hlast : s.fo.scheduledAnalysis.getLast? = some plugin)
    (hlists : isBlacklisted sch plugin metadata s.pop = .ok (b, fo)) :
    Consistent sch start
      (skipAnalysis now goesOn plugin metadata reason { s.pop with fo := fo }) := by
  have hsched : fo.scheduledAnalysis = s.fo.scheduledAnalysis.dropLast :=
    (sameSchedule_isBlacklisted hlists).scheduledAnalysis
  refine ⟨horderly, ?_, ?_, ?_⟩
  · rintro p (hat | hcollected)
    · exact absurd hat (checkFurther_not_busy p).1
    · exact absurd hcollected (checkFurther_not_busy p).2
  · intro p hp _
    rw [skipAnalysis_table, skipAnalysis_fo]
    by_cases hne : p = plugin
    · subst hne
      exact agrees_stored (Dict.get?_set_self _ _ _)
    · have hpop : Agrees s.pop.table s.pop.fo p := h.agrees p hp (by simp [hplace])
      exact ((hpop.checked hlists).set hne).addAnalysis hne
  · rintro p hdone ⟨q, hq, hqp⟩
    rw [skipAnalysis_fo] at hq ⊢
    have hq' : q ∈ s.fo.scheduledAnalysis.dropLast := hsched ▸ hq
    rcases hdone.before_call hplace hlast (by rw [skipAnalysis_fo]; exact hsched) with rfl | hbefore
    · exact ⟨_, Dict.get?_set_self _ _ _⟩
    · have hholds : Holds s.pop.fo p := h.holds p hbefore ⟨q, List.dropLast_subset _ hq', hqp⟩
      exact (hholds.checked hlists).set

theorem consistent_queued {b : Bool} (h : Consistent sch start s)
    (horderly : Orderly start { s.pop with fo := fo, place := .atPlugin plugin, log := log })
    (hplace : s.place = .inQueue) (hlast : s.fo.scheduledAnalysis.getLast? = some plugin)
    (hlists : isBlacklisted sch plugin metadata s.pop = .ok (b, fo)) :
    Consistent sch start { s.pop with fo := fo, place := .atPlugin plugin, log := log } := by
  have hsched : fo.scheduledAnalysis = s.fo.scheduledAnalysis.dropLast :=
    (sameSchedule_isBlacklisted hlists).scheduledAnalysis
  refine ⟨horderly, ?_, ?_, ?_⟩
  · rintro p (hat | hcollected)
    · cases hat
      rcases h.orderly.schedule with ⟨popped, hpopped⟩
      rcases List.getLast?_eq_some_iff.1 hlast with ⟨rest, hrest⟩
      refine ⟨popped, ?_⟩
      show start.schedule = fo.scheduledAnalysis ++ plugin :: popped
      rw [hsched, ← hpopped, hrest, List.dropLast_concat, List.append_assoc, List.singleton_append]
    · cases hcollected
  · intro p hp _
    have hpop : Agrees s.pop.table s.pop.fo p := h.agrees p hp (by simp [hplace])
    exact hpop.checked hlists
  · rintro p hdone ⟨q, hq, hqp⟩
    have hq' : q ∈ s.fo.scheduledAnalysis.dropLast := hsched ▸ hq
    rcases hdone.before_call hplace hlast hsched with rfl | hbefore
    · exact absurd rfl hdone.notAt
    · have hholds : Holds s.pop.fo p := h.holds p hbefore ⟨q, List.dropLast_subset _ hq', hqp⟩
      exact hholds.checked hlists

theorem consistent_returned {startTime : Time} {result : Option Mapping}
    (h : Consistent sch start s)
    (horderly : Orderly start (finishAnalysis plugin metadata (.returned startTime result) s))
    (hplace : s.place = .atPlugin plugin) :
    Consistent sch start (finishAnalysis plugin metadata (.returned startTime result) s) := by
  refine ⟨horderly, ?_, ?_, ?_⟩
  · rintro p (hat | hcollected)
    · cases hat
    · cases hcollected
      exact h.atWork plugin (Or.inl hplace)
  · intro p hp hnot
    have hne : p ≠ plugin := fun heq => hnot (congrArg Place.collected heq.symm)
    exact (h.agrees p hp (by simp [hplace])).set hne
  · intro p hdone hawaited
    have hne : p ≠ plugin := fun heq => hdone.notCollected (congrArg Place.collected heq.symm)
    have hbefore : Done start s p := by
      refine ⟨hdone.mem, hdone.gone, ?_, by simp [hplace]⟩
      rw [hplace]
      exact fun heq => hne (Place.atPlugin.inj heq).symm
    exact (h.holds p hbefore hawaited).set

theorem consistent_collected {analysis : Analysis} (h : Consistent sch start s)
    (horderly : Orderly start
      (checkFurtherProcessOrComplete goesOn (postAnalysis plugin analysis s)))
    (hplace : s.place = .collected plugin)
    (hget : s.fo.processedAnalysis.get? plugin = some (some analysis)) :
    Consistent sch start
      (checkFurtherProcessOrComplete goesOn (postAnalysis plugin analysis s)) := by
  refine ⟨horderly, ?_, ?_, ?_⟩
  · rintro p (hat | hcollected)
    · exact absurd hat (checkFurther_not_busy p).1
    · exact absurd hcollected (checkFurther_not_busy p).2
  · intro p hp _
    rw [checkFurther_table, checkFurther_fo]
    show Agrees (s.table.addAnalysis plugin analysis) s.fo p
    by_cases hne : p = plugin
    · subst hne
      exact agrees_stored hget
    · refine (h.agrees p hp ?_).addAnalysis hne
      rw [hplace]
      exact fun heq => hne (Place.collected.inj heq).symm
  · intro p hdone hawaited
    have hgone := hdone.gone
    rw [checkFurther_fo] at hgone hawaited ⊢
    show Holds s.fo p
    by_cases hne : p = plugin
    · subst hne
      exact ⟨analysis, hget⟩
    · refine h.holds p ⟨hdone.mem, hgone, by simp [hplace], ?_⟩ hawaited
      rw [hplace]
      exact fun heq => hne (Place.collected.inj heq).symm

theorem step_consistent (hplan : TaskScheduler.Plan sch.plugins start.schedule) (hinv : Inv start s)
    (hok : Returns s a) (hstep : step sch a s = some s') (h : Consistent sch start s) :
    Consistent sch start s' := by
  have horderly := step_orderly hplan hinv hok hstep h.orderly
  cases stepped_of_step hplan hinv hstep with
  | process now goesOn plugin metadata s' hplace hlast hget hreadable hp =>
      cases hp with
      | found fo hup hfo => exact consistent_found h horderly hplace hlast hup hfo
      | skipped fo reason hup hreason =>
          rcases hreason.checked with ⟨b, hlists⟩
          exact consistent_skipped h horderly hplace hlast hlists
      | queued fo task hup hlists hdeps htask =>
          exact consistent_queued h horderly hplace hlast hlists
  | crash now goesOn plugin metadata e hplace hlast hget hreadable =>
      refine ⟨horderly, ?_, ?_, ?_⟩
      · rintro p (hat | hcollected)
        · cases hat
        · cases hcollected
      · intro p hp _
        exact h.agrees p hp (by simp [hplace])
      · intro p hdone
        exact h.holds p ⟨hdone.mem, hdone.gone, by simp [hplace], by simp [hplace]⟩
  | analyze outcome plugin metadata hplace hget =>
      cases outcome with
      | returned startTime result => exact consistent_returned h horderly hplace
      | exception cause => exact absurd hok id
      | timeout => exact absurd hok id
  | collect clock goesOn plugin s' hplace hc =>
      cases hc with
      | result analysis hexc hget => exact consistent_collected h horderly hplace hget
      | failed cause analysis t hexc hfailed ht =>
          rw [h.orderly.noException] at hexc
          cases hexc

/-! ## Skipping and the table -/

theorem hasKey_of_result {entry analysis : Analysis} {key : String}
    (h : entry.result = some (analysis.result.getD ∅)) : entry.hasKey key = analysis.hasKey key := by
  unfold Analysis.hasKey
  rw [h]
  cases analysis.result with
  | none => simp [Dict.mem_iff]
  | some mapping => rfl

theorem marked_of_result {entry analysis : Analysis}
    (h : entry.result = some (analysis.result.getD ∅)) : Marked entry ↔ Marked analysis := by
  unfold Marked
  rw [hasKey_of_result h, hasKey_of_result h]

/-- The file type that a check reads is that of the table. -/
theorem lowerMime_of_agrees {fileType : String} (hnone : NoNone fo)
    (hagrees : Agrees table fo "file_type")
    (h : lowerMime sch (fileTypeEntry table fo) = .ok fileType) :
    lowerMime sch (table.getAnalysis "file_type") = .ok fileType := by
  unfold fileTypeEntry at h
  cases hget : fo.processedAnalysis.get? "file_type" with
  | none => simpa [hget] using h
  | some entry =>
      cases entry with
      | none => exact absurd hget (hnone _)
      | some analysis =>
          rw [hget, Option.getD_some] at h
          rcases hagrees analysis hget with ⟨entry, hentry, hresult⟩
          rcases lowerMime_ok_iff.1 ⟨fileType, h⟩ with ⟨mapping, mime, hmapping, -⟩
          rw [hmapping, Option.getD_some] at hresult
          rw [hentry]
          simpa [lowerMime, hmapping, hresult] using h

/-- A check of the lists has the outcome that the table determines. -/
theorem blacklisted_iff {b : Bool} (hnone : NoNone s.fo) (hagrees : Agrees s.table s.fo "file_type")
    (hlists : isBlacklisted sch plugin metadata s = .ok (b, fo)) :
    b = true ↔ Excluded sch s.table plugin metadata := by
  by_cases hcheck : ChecksMime sch plugin metadata
  · rw [isBlacklisted_of_checksMime hcheck] at hlists
    cases hlower : lowerMime sch (fileTypeEntry s.table s.fo) with
    | error e =>
        rw [hlower] at hlists
        cases hlists
    | ok fileType =>
        rw [hlower] at hlists
        cases hlists
        have htable := lowerMime_of_agrees hnone hagrees hlower
        constructor
        · intro hexclude
          exact ⟨hcheck, fileType, htable, hexclude⟩
        · rintro ⟨-, fileType', htable', hexclude⟩
          cases htable.symm.trans htable'
          exact hexclude
  · rw [isBlacklisted_of_not_checksMime hcheck] at hlists
    cases hlists
    constructor
    · intro h
      cases h
    · intro h
      exact absurd h.1 hcheck

/-- The file type is not skipped. -/
theorem WontRun.ne_fileType (hclosed : TaskScheduler.Closed sch.plugins)
    (hget : sch.plugins.get? plugin = some metadata) (h : WontRun sch table plugin metadata) :
    plugin ≠ "file_type" := by
  rintro rfl
  rcases h with ⟨hcheck, -⟩ | ⟨d, hd, -⟩
  · exact hcheck.1 List.mem_cons_self
  · exact hclosed.fileType_free d ⟨metadata, hget, hd⟩

section

variable (hclosed : TaskScheduler.Closed sch.plugins)
  (hplan : TaskScheduler.Plan sch.plugins start.schedule)
  (hordered : Dependencies.Ordered (TaskScheduler.DependsOn sch.plugins) start.schedule)
include hclosed hplan hordered

/-- When a plugin is taken off the schedule, the object has entries of all its
dependencies, which are those of the table. -/
theorem Consistent.dependency (h : Consistent sch start s) (hplace : s.place = .inQueue)
    (hlast : s.fo.scheduledAnalysis.getLast? = some plugin)
    (hdep : TaskScheduler.DependsOn sch.plugins plugin d) :
    Done start s d ∧ Agrees s.table s.fo d ∧ Holds s.fo d := by
  rcases h.orderly.popped hplan hordered hlast hdep with ⟨hmem, hgone⟩
  have hdone : Done start s d := ⟨hmem, hgone, by simp [hplace], by simp [hplace]⟩
  exact ⟨hdone, h.agrees d (hclosed.dependencies plugin d hdep) (by simp [hplace]),
    h.holds d hdone ⟨plugin, List.mem_of_getLast? hlast, hdep⟩⟩

/-- What is skipped would be skipped by the table. -/
theorem SkipReason.wontRun {reason : String} (hreason : SkipReason sch s.pop plugin metadata fo reason)
    (h : Consistent sch start s) (hnone : NoNone s.fo) (hplace : s.place = .inQueue)
    (hlast : s.fo.scheduledAnalysis.getLast? = some plugin)
    (hget : sch.plugins.get? plugin = some metadata) : WontRun sch s.table plugin metadata := by
  have hfileType : Agrees s.pop.table s.pop.fo "file_type" :=
    h.agrees _ hclosed.fileType (by simp [hplace])
  have hdep : ∀ d ∈ metadata.dependencies, ∀ b,
      isBlacklisted sch plugin metadata s.pop = .ok (b, fo) →
      ∃ analysis entry, fo.processedAnalysis.get? d = some (some analysis) ∧
        s.table.getAnalysis d = some entry ∧ entry.result = some (analysis.result.getD ∅) := by
    intro d hd b hlists
    rcases h.dependency hclosed hplan hordered hplace hlast ⟨metadata, hget, hd⟩ with
      ⟨-, hagrees, hholds⟩
    have hagrees' : Agrees s.pop.table s.pop.fo d := hagrees
    have hholds' : Holds s.pop.fo d := hholds
    rcases hholds'.checked hlists with ⟨analysis, hanalysis⟩
    rcases hagrees'.checked hlists analysis hanalysis with ⟨entry, hentry, hresult⟩
    exact ⟨analysis, entry, hanalysis, hentry, hresult⟩
  cases hreason with
  | blacklisted hlists =>
      have hnone' : NoNone s.pop.fo := hnone
      exact Or.inl ((blacklisted_iff hnone' hfileType hlists).1 rfl)
  | dependency d hlists hd hnot =>
      rcases hdep d hd false hlists with ⟨analysis, entry, hanalysis, hentry, hresult⟩
      refine Or.inr ⟨d, hd, entry, hentry, Or.inl ((marked_of_result hresult).2 ?_)⟩
      by_contra hmarked
      exact hnot ⟨analysis, hanalysis, hmarked⟩
  | validation d mapping error hlists hd hresultOf hrejects =>
      rcases hdep d hd false hlists with ⟨analysis, entry, hanalysis, hentry, hresult⟩
      have hmapping : analysis.result = some mapping := by simpa [resultOf, hanalysis] using hresultOf
      rw [hmapping] at hresult
      exact Or.inr ⟨d, hd, entry, hentry, Or.inr ⟨mapping, error, hresult, hrejects⟩⟩

/-- What is started would not be skipped by the table. -/
theorem Consistent.not_wontRun {collected : List (Plugin × Mapping)} (h : Consistent sch start s)
    (hnone : NoNone s.fo) (hplace : s.place = .inQueue)
    (hlast : s.fo.scheduledAnalysis.getLast? = some plugin)
    (hget : sch.plugins.get? plugin = some metadata)
    (hlists : isBlacklisted sch plugin metadata s.pop = .ok (false, fo))
    (hdeps : ∀ d ∈ metadata.dependencies, Fulfilled fo d)
    (htask : Collects sch fo metadata.dependencies collected) :
    ¬ WontRun sch s.table plugin metadata := by
  have hfileType : Agrees s.pop.table s.pop.fo "file_type" :=
    h.agrees _ hclosed.fileType (by simp [hplace])
  rintro (hexcluded | ⟨d, hd, entry, hentry, hunusable⟩)
  · have hnone' : NoNone s.pop.fo := hnone
    exact Bool.noConfusion ((blacklisted_iff hnone' hfileType hlists).2 hexcluded)
  · rcases h.dependency hclosed hplan hordered hplace hlast ⟨metadata, hget, hd⟩ with ⟨-, hagrees, -⟩
    have hagrees' : Agrees s.pop.table s.pop.fo d := hagrees
    rcases hdeps d hd with ⟨analysis, hanalysis, hmarked⟩
    rcases hagrees'.checked hlists analysis hanalysis with ⟨entry', hentry', hresult⟩
    cases hentry.symm.trans hentry'
    rcases hunusable with hunusable | ⟨mapping, error, hmapping, hrejects⟩
    · exact hmarked ((marked_of_result hresult).1 hunusable)
    · have hin : d ∈ collected.map Prod.fst := htask.1 ▸ hd
      rcases List.mem_map.1 hin with ⟨⟨d', mapping'⟩, hcollected, rfl⟩
      rcases htask.2 _ mapping' hcollected with ⟨hresultOf, haccepts⟩
      have hmapping' : analysis.result = some mapping' := by
        simpa [resultOf, hanalysis] using hresultOf
      rw [hmapping', hmapping] at hresult
      cases hresult
      have hcontra := haccepts.symm.trans hrejects
      cases hcontra

end

end FactCore.AnalysisScheduler
