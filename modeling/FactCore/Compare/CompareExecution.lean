import Mathlib.Data.String.Basic
import FactCore.Compare.ComparePlugins
import FactCore.Lib.Binary

/-! # Running the comparison plugins

`_execute_compare_plugins` of `compare/compare.py` and `CompareBasePlugin.compare` of
`compare/PluginBase.py`. The plugins of the schedule run one after the other, and each
gets the results so far. A plugin is skipped if an analysis it needs is missing or if a
result it depends on is that of a plugin that was skipped, which is read off the keys of
the result.

It is shown which plugins are skipped: those from which a chain of dependencies leads to
a plugin without its analyses, or to one whose own result has such a key.
-/

namespace FactCore

namespace Compare

universe u v

/-- A result: its sections. -/
abbrev PluginResult (V : Type v) := Dict String V

/-- What the comparison plugins bring along, by name: `DEPENDENCIES` and
`compare_function`, which may raise. -/
structure PluginCode (F : Type u) (V : Type v) where
  dependencies : String → List String
  compareFunction : String → List F → Dict String (PluginResult V) →
    Except String (PluginResult V)
  /-- `dep in fo.processed_analysis`. -/
  isProcessed : F → String → Bool
  /-- A section with a text, `{'all': text}`. -/
  all : String → V

variable {F : Type u} {V : Type v} (code : PluginCode F V) (order : IterOrder String)

/-- `k.lower()`, as far as letters of ASCII come out: `A` to `Z`, the Kelvin sign and
the dotted capital I become such letters. -/
def lower (k : List Char) : List Char :=
  k.flatMap fun c =>
    if c = '\u212A' then ['k'] else if c = '\u0130' then ['i', '\u0307'] else [c.toLower]

/-- `'skipped' in k.lower()`. -/
def isSkippedKey (k : String) : Bool :=
  (Binary.find "skipped".toList (lower k.toList)).isSome

/-- `_dependency_was_skipped`. -/
def dependencyWasSkipped (dependency : String) (results : Dict String (PluginResult V)) : Bool :=
  ((results.get? dependency).getD ∅).keys.any isSkippedKey

/-- `_get_missing_comparison_deps`. -/
def getMissingComparisonDeps (plugin : ComparePlugin) (results : Dict String (PluginResult V)) :
    List String :=
  plugin.comparisonDeps.filter fun dependency =>
    decide (dependency ∉ results) || dependencyWasSkipped dependency results

/-- `_get_missing_analysis_deps`. -/
def getMissingAnalysisDeps (name : String) (foList : List F) : Finset String :=
  ((code.dependencies name).filter fun dep =>
    foList.any fun fo => !code.isProcessed fo dep).toFinset

/-- The result of a plugin whose comparison dependencies are missing. -/
def comparisonSkipped (missing : List String) : PluginResult V :=
  (∅ : Dict String V).set "Comparison Skipped"
    (code.all ("Required comparison results are missing: " ++ ", ".intercalate missing))

/-- The result of a plugin whose analysis dependencies are missing. -/
def compareSkipped (missing : Finset String) : PluginResult V :=
  (∅ : Dict String V).set "Compare Skipped"
    (code.all ("Required analyses not present: " ++ ", ".intercalate (order.list missing)))

/-- `CompareBasePlugin.compare`. -/
def compare (plugin : ComparePlugin) (foList : List F) (results : Dict String (PluginResult V)) :
    Except String (PluginResult V) :=
  let missingComparisonDeps := getMissingComparisonDeps plugin results
  if missingComparisonDeps ≠ [] then .ok (comparisonSkipped code missingComparisonDeps)
  else
    let missingAnalysisDeps := getMissingAnalysisDeps code plugin.name foList
    if missingAnalysisDeps ≠ ∅ then .ok (compareSkipped code order missingAnalysisDeps)
    else code.compareFunction plugin.name foList results

/-- The loop of `_execute_compare_plugins`. -/
def executeSchedule (foList : List F) :
    List ComparePlugin → Dict String (PluginResult V) → Except String (Dict String (PluginResult V))
  | [], results => .ok results
  | plugin :: rest, results =>
      match compare code order plugin foList results with
      | .error e => .error e
      | .ok result => executeSchedule foList rest (results.set plugin.name result)

/-- `_execute_compare_plugins`. -/
def executeComparePlugins (plugins : PluginDict) (n : Nat) (foList : List F) :
    Option (Except String (Dict String (PluginResult V))) :=
  (scheduleComparisonPlugins plugins n).map fun schedule =>
    executeSchedule code order foList schedule ∅

/-! ## What a plugin gets -/

variable {code order} {foList : List F}

theorem isSkippedKey_comparisonSkipped : isSkippedKey "Comparison Skipped" = true := by
  decide +kernel

theorem isSkippedKey_compareSkipped : isSkippedKey "Compare Skipped" = true := by
  decide +kernel

theorem keys_singleton (k : String) (x : V) : ((∅ : Dict String V).set k x).keys = [k] := rfl

theorem executeSchedule_nil (results : Dict String (PluginResult V)) :
    executeSchedule code order foList [] results = .ok results := rfl

theorem executeSchedule_cons (plugin : ComparePlugin) (rest : List ComparePlugin)
    (results : Dict String (PluginResult V)) :
    executeSchedule code order foList (plugin :: rest) results =
      match compare code order plugin foList results with
      | .error e => .error e
      | .ok result => executeSchedule code order foList rest (results.set plugin.name result) := rfl

theorem executeSchedule_append {before behind : List ComparePlugin}
    {results results' : Dict String (PluginResult V)} :
    executeSchedule code order foList (before ++ behind) results = .ok results' ↔
      ∃ given, executeSchedule code order foList before results = .ok given ∧
        executeSchedule code order foList behind given = .ok results' := by
  -- the results are general: each plugin is given those of the plugins before it
  induction before generalizing results with
  | nil => simp [executeSchedule_nil]
  | cons p rest ih =>
      rw [List.cons_append, executeSchedule_cons, executeSchedule_cons]
      cases compare code order p foList results with
      | error e => simp
      | ok result => exact ih

/-- Results of other plugins stay. -/
theorem get?_executeSchedule {schedule : List ComparePlugin}
    {results results' : Dict String (PluginResult V)}
    (h : executeSchedule code order foList schedule results = .ok results') {name : String}
    (hname : name ∉ schedule.map ComparePlugin.name) : results'.get? name = results.get? name := by
  induction schedule generalizing results with
  | nil =>
      obtain rfl : results = results' := by simpa [executeSchedule_nil] using h
      rfl
  | cons p rest ih =>
      rw [executeSchedule_cons] at h
      rw [List.map_cons, List.mem_cons, not_or] at hname
      cases hresult : compare code order p foList results with
      | error e => simp [hresult] at h
      | ok result =>
          rw [hresult] at h
          rw [ih h hname.2, Dict.get?_set_ne _ _ hname.1]

/-- Every plugin of the schedule has a result. -/
theorem mem_executeSchedule {schedule : List ComparePlugin}
    {results results' : Dict String (PluginResult V)}
    (h : executeSchedule code order foList schedule results = .ok results') {name : String} :
    name ∈ results' ↔ name ∈ results ∨ name ∈ schedule.map ComparePlugin.name := by
  induction schedule generalizing results with
  | nil =>
      obtain rfl : results = results' := by simpa [executeSchedule_nil] using h
      simp
  | cons p rest ih =>
      rw [executeSchedule_cons] at h
      cases hresult : compare code order p foList results with
      | error e => simp [hresult] at h
      | ok result =>
          rw [hresult] at h
          rw [ih h, Dict.mem_set, List.map_cons, List.mem_cons]
          tauto

/-- What a plugin is given: the results of all plugins before it, as they are in the end. -/
theorem exists_given {before behind : List ComparePlugin} {plugin : ComparePlugin}
    {results : Dict String (PluginResult V)}
    (hnodup : ((before ++ plugin :: behind).map ComparePlugin.name).Nodup)
    (h : executeSchedule code order foList (before ++ plugin :: behind) ∅ = .ok results) :
    ∃ given result, compare code order plugin foList given = .ok result ∧
      results.get? plugin.name = some result ∧
      ∀ p ∈ before, p.name ∈ given ∧ given.get? p.name = results.get? p.name := by
  obtain ⟨given, hbefore, hrest⟩ := executeSchedule_append.1 h
  rw [List.map_append, List.map_cons] at hnodup
  obtain ⟨-, hcons, hapart⟩ := List.nodup_append.1 hnodup
  refine ⟨given, ?_⟩
  -- no plugin runs twice, so nothing behind replaces a result
  have hkept : ∀ p ∈ before, results.get? p.name = given.get? p.name := by
    intro p hp
    refine get?_executeSchedule hrest fun hmem => ?_
    exact hapart p.name (List.mem_map_of_mem hp) p.name hmem rfl
  rw [executeSchedule_cons] at hrest
  cases hresult : compare code order plugin foList given with
  | error e => simp [hresult] at hrest
  | ok result =>
      rw [hresult] at hrest
      refine ⟨result, rfl, ?_, fun p hp => ⟨?_, (hkept p hp).symm⟩⟩
      · rw [get?_executeSchedule hrest (List.nodup_cons.1 hcons).1, Dict.get?_set_self]
      · exact (mem_executeSchedule hbefore).2 (.inr (List.mem_map_of_mem hp))

/-! ## Which plugins are skipped -/

/-- The plugin needs an analysis that some object does not have. -/
def LacksAnalyses (code : PluginCode F V) (foList : List F) (name : String) : Prop :=
  ∃ dep ∈ code.dependencies name, ∃ fo ∈ foList, code.isProcessed fo dep = false

/-- The results were given to the function of the plugin, and it returned the result. -/
def Ran (code : PluginCode F V) (foList : List F) (results : Dict String (PluginResult V))
    (plugin : ComparePlugin) (result : PluginResult V) : Prop :=
  ∃ given, code.compareFunction plugin.name foList given = .ok result ∧
    ∀ dependency ∈ plugin.comparisonDeps,
      (given.get? dependency).isSome = true ∧ given.get? dependency = results.get? dependency

/-- The function of the plugin itself returned a key that reads as skipped. -/
def ReportsSkipped (code : PluginCode F V) (plugins : PluginDict) (foList : List F)
    (results : Dict String (PluginResult V)) (name : String) : Prop :=
  ∃ plugin result, plugins.dict.get? name = some plugin ∧ results.get? name = some result ∧
    Ran code foList results plugin result ∧ result.keys.any isSkippedKey = true

/-- A chain of dependencies leads to a plugin without its analyses, or to a dependency
whose own result reads as skipped. -/
def Blocked (code : PluginCode F V) (plugins : PluginDict) (foList : List F)
    (results : Dict String (PluginResult V)) (name : String) : Prop :=
  (∃ b, Relation.ReflTransGen (DependsOn plugins) name b ∧ LacksAnalyses code foList b) ∨
    ∃ b, Relation.TransGen (DependsOn plugins) name b ∧
      ReportsSkipped code plugins foList results b

theorem getMissingAnalysisDeps_ne_empty {name : String} :
    getMissingAnalysisDeps code name foList ≠ ∅ ↔ LacksAnalyses code foList name := by
  rw [getMissingAnalysisDeps, ← Finset.nonempty_iff_ne_empty]
  constructor
  · rintro ⟨dep, hdep⟩
    obtain ⟨hdep, hany⟩ := List.mem_filter.1 (List.mem_toFinset.1 hdep)
    obtain ⟨fo, hfo, hnot⟩ := List.any_eq_true.1 hany
    exact ⟨dep, hdep, fo, hfo, by simpa using hnot⟩
  · rintro ⟨dep, hdep, fo, hfo, hnot⟩
    refine ⟨dep, List.mem_toFinset.2 (List.mem_filter.2 ⟨hdep, ?_⟩)⟩
    exact List.any_eq_true.2 ⟨fo, hfo, by simp [hnot]⟩

/-- A plugin is blocked by its own analyses, or by a dependency that is blocked or
reports that it skipped something. -/
theorem blocked_iff {plugins : PluginDict} {results : Dict String (PluginResult V)}
    {name : String} : Blocked code plugins foList results name ↔
      LacksAnalyses code foList name ∨ ∃ b, DependsOn plugins name b ∧
        (Blocked code plugins foList results b ∨ ReportsSkipped code plugins foList results b) := by
  constructor
  · rintro (⟨b, hpath, hlacks⟩ | ⟨b, hpath, hreports⟩)
    · rcases Relation.ReflTransGen.cases_head hpath with rfl | ⟨c, hnext, hrest⟩
      · exact .inl hlacks
      · exact .inr ⟨c, hnext, .inl (.inl ⟨b, hrest, hlacks⟩)⟩
    · obtain ⟨c, hnext, hrest⟩ := Relation.TransGen.head'_iff.1 hpath
      rcases Relation.reflTransGen_iff_eq_or_transGen.1 hrest with rfl | hrest
      · exact .inr ⟨b, hnext, .inr hreports⟩
      · exact .inr ⟨c, hnext, .inl (.inr ⟨b, hrest, hreports⟩)⟩
  · rintro (hlacks | ⟨c, hnext, (⟨b, hpath, hlacks⟩ | ⟨b, hpath, hreports⟩) | hreports⟩)
    · exact .inl ⟨name, .refl, hlacks⟩
    · exact .inl ⟨b, .head hnext hpath, hlacks⟩
    · exact .inr ⟨b, .head hnext hpath, hreports⟩
    · exact .inr ⟨c, .single hnext, hreports⟩

/-- What the result of a plugin has to be. -/
def RightResult (code : PluginCode F V) (order : IterOrder String) (foList : List F)
    (results : Dict String (PluginResult V)) (plugin : ComparePlugin) : Prop :=
  ∃ result, results.get? plugin.name = some result ∧
    if getMissingComparisonDeps plugin results ≠ [] then
      result = comparisonSkipped code (getMissingComparisonDeps plugin results)
    else if getMissingAnalysisDeps code plugin.name foList ≠ ∅ then
      result = compareSkipped code order (getMissingAnalysisDeps code plugin.name foList)
    else Ran code foList results plugin result

theorem rightResult_of_given {plugin : ComparePlugin}
    {given results : Dict String (PluginResult V)} {result : PluginResult V}
    (hresult : results.get? plugin.name = some result)
    (hgiven : ∀ dependency ∈ plugin.comparisonDeps,
      dependency ∈ given ∧ given.get? dependency = results.get? dependency)
    (h : compare code order plugin foList given = .ok result) :
    RightResult code order foList results plugin := by
  -- the missing dependencies are the same at the end
  have hmissing : getMissingComparisonDeps plugin given =
      getMissingComparisonDeps plugin results := by
    refine List.filter_congr fun dependency hdep => ?_
    obtain ⟨hmem, heq⟩ := hgiven dependency hdep
    have hmem' : dependency ∈ results := by
      rw [Dict.mem_iff_isSome, ← heq]
      exact hmem
    simp [dependencyWasSkipped, hmem, hmem', heq]
  refine ⟨result, hresult, ?_⟩
  rw [compare, hmissing] at h
  split_ifs with hdeps hanalyses
  · rw [if_pos hdeps] at h
    exact (Except.ok.inj h).symm
  · rw [if_neg hdeps, if_pos hanalyses] at h
    exact (Except.ok.inj h).symm
  · rw [if_neg hdeps, if_neg hanalyses] at h
    exact ⟨given, h, fun dependency hdep =>
      ⟨Dict.mem_iff_isSome.1 (hgiven dependency hdep).1, (hgiven dependency hdep).2⟩⟩

theorem dependencyWasSkipped_eq {results : Dict String (PluginResult V)} {name : String}
    {result : PluginResult V} (h : results.get? name = some result) :
    dependencyWasSkipped name results = result.keys.any isSkippedKey := by
  simp [dependencyWasSkipped, h]

theorem any_comparisonSkipped (missing : List String) :
    (comparisonSkipped code missing).keys.any isSkippedKey = true := by
  rw [comparisonSkipped, keys_singleton]
  simp [isSkippedKey_comparisonSkipped]

theorem any_compareSkipped (missing : Finset String) :
    (compareSkipped code order missing).keys.any isSkippedKey = true := by
  rw [compareSkipped, keys_singleton]
  simp [isSkippedKey_compareSkipped]

section

variable {plugins : PluginDict} {results : Dict String (PluginResult V)}

theorem getMissingComparisonDeps_ne_nil {plugin : ComparePlugin}
    (hmem : ∀ dependency ∈ plugin.comparisonDeps, dependency ∈ results) :
    getMissingComparisonDeps plugin results ≠ [] ↔
      ∃ dependency ∈ plugin.comparisonDeps, dependencyWasSkipped dependency results = true := by
  rw [getMissingComparisonDeps, ne_eq, List.filter_eq_nil_iff]
  push Not
  refine exists_congr fun dependency => and_congr_right fun hdep => ?_
  simp [hmem dependency hdep]

/-- The step of the induction over the schedule: from the dependencies of a plugin to the
plugin. -/
theorem blocked_step {plugin : ComparePlugin}
    (hplugin : plugins.dict.get? plugin.name = some plugin)
    (hright : RightResult code order foList results plugin)
    (hmem : ∀ dependency ∈ plugin.comparisonDeps, dependency ∈ results)
    (ih : ∀ dependency ∈ plugin.comparisonDeps,
      (dependencyWasSkipped dependency results = true ↔
        Blocked code plugins foList results dependency ∨
          ReportsSkipped code plugins foList results dependency)) :
    (Blocked code plugins foList results plugin.name ↔
        getMissingComparisonDeps plugin results ≠ [] ∨ LacksAnalyses code foList plugin.name) ∧
      (dependencyWasSkipped plugin.name results = true ↔
        Blocked code plugins foList results plugin.name ∨
          ReportsSkipped code plugins foList results plugin.name) := by
  have hblocked : Blocked code plugins foList results plugin.name ↔
      getMissingComparisonDeps plugin results ≠ [] ∨ LacksAnalyses code foList plugin.name := by
    rw [blocked_iff, getMissingComparisonDeps_ne_nil hmem, or_comm]
    refine or_congr_left (exists_congr fun dependency => ?_)
    rw [dependsOn_iff hplugin]
    exact and_congr_right fun hdep => (ih dependency hdep).symm
  refine ⟨hblocked, ?_⟩
  obtain ⟨result, hresult, hcase⟩ := hright
  rw [dependencyWasSkipped_eq hresult]
  by_cases hdeps : getMissingComparisonDeps plugin results ≠ []
  · rw [if_pos hdeps] at hcase
    subst hcase
    exact iff_of_true (any_comparisonSkipped _) (.inl (hblocked.2 (.inl hdeps)))
  · rw [if_neg hdeps] at hcase
    by_cases hanalyses : getMissingAnalysisDeps code plugin.name foList ≠ ∅
    · rw [if_pos hanalyses] at hcase
      subst hcase
      exact iff_of_true (any_compareSkipped _)
        (.inl (hblocked.2 (.inr (getMissingAnalysisDeps_ne_empty.1 hanalyses))))
    · rw [if_neg hanalyses] at hcase
      have hfree : ¬ Blocked code plugins foList results plugin.name := by
        rw [hblocked, ← getMissingAnalysisDeps_ne_empty]
        exact fun h => h.elim hdeps hanalyses
      constructor
      · exact fun hany => .inr ⟨plugin, result, hplugin, hresult, hcase, hany⟩
      · rintro (hb | ⟨p, r, hp, hr, -, hany⟩)
        · exact absurd hb hfree
        · rw [hresult] at hr
          cases hr
          exact hany

/-- With the plugins of a right schedule, the skipped ones are those that are blocked. -/
theorem blocked_of_schedule {schedule : List ComparePlugin}
    (hschedule : RightSchedule plugins schedule)
    (h : executeSchedule code order foList schedule ∅ = .ok results) :
    ∀ n, ∀ before plugin behind, before.length = n → schedule = before ++ plugin :: behind →
      RightResult code order foList results plugin ∧
      (Blocked code plugins foList results plugin.name ↔
        getMissingComparisonDeps plugin results ≠ [] ∨ LacksAnalyses code foList plugin.name) ∧
      (dependencyWasSkipped plugin.name results = true ↔
        Blocked code plugins foList results plugin.name ∨
          ReportsSkipped code plugins foList results plugin.name) := by
  intro n
  induction n using Nat.strongRecOn with
  | ind n ih =>
      intro before plugin behind hlength hsplit
      have hnodup := hschedule.nodup
      rw [hsplit] at hnodup h
      obtain ⟨given, result, hcompare, hresult, hgiven⟩ := exists_given hnodup h
      have hafter := hschedule.after before plugin behind hsplit
      have hdeps : ∀ dependency ∈ plugin.comparisonDeps,
          dependency ∈ given ∧ given.get? dependency = results.get? dependency := by
        intro dependency hdep
        obtain ⟨p, hp, rfl⟩ := hafter dependency hdep
        exact hgiven p hp
      have hright := rightResult_of_given hresult hdeps hcompare
      have hplugin : plugins.dict.get? plugin.name = some plugin := by
        refine ((hschedule.mem plugin).1 ?_).1
        rw [hsplit]
        exact List.mem_append_right _ List.mem_cons_self
      refine ⟨hright, blocked_step hplugin hright ?_ ?_⟩
      · intro dependency hdep
        obtain ⟨hmem, heq⟩ := hdeps dependency hdep
        rw [Dict.mem_iff_isSome, ← heq]
        exact hmem
      · intro dependency hdep
        obtain ⟨p, hp, rfl⟩ := hafter dependency hdep
        obtain ⟨front, back, hbefore⟩ := List.append_of_mem hp
        refine (ih front.length ?_ front p (back ++ plugin :: behind) rfl ?_).2.2
        · rw [← hlength, hbefore]
          simp
        · rw [hsplit, hbefore]
          simp

/-- The comparison runs exactly the plugins that can be scheduled. A plugin is skipped,
with the right message, exactly if it is blocked; every other plugin has the result that
its function returned for the results of all of its dependencies, as they are in the end. -/
theorem executeComparePlugins_right {n : Nat} (hn : plugins.dict.keys.length < n)
    (h : executeComparePlugins code order plugins n foList = some (.ok results)) :
    (∀ name, name ∈ results ↔ name ∈ plugins.dict ∧ Schedulable plugins name) ∧
      ∀ plugin, plugins.dict.get? plugin.name = some plugin → plugin.name ∈ results →
        RightResult code order foList results plugin ∧
        (Blocked code plugins foList results plugin.name ↔
          getMissingComparisonDeps plugin results ≠ [] ∨
            LacksAnalyses code foList plugin.name) := by
  have hvalues : ∀ p ∈ plugins.dict.values, plugins.dict.get? p.name = some p := by
    intro p hp
    obtain ⟨name, hname⟩ := Dict.mem_values.1 hp
    exact get?_name hname
  have hstart : Inv plugins ⟨∅, ∅, []⟩ :=
    ⟨by simp, fun name => by simp, List.nodup_nil, trivial,
      fun name hname => absurd hname (Finset.notMem_empty name)⟩
  obtain ⟨s, hs, hinv, -, hall⟩ := visitAll_spec hvalues hstart (by simp) hn
  have hschedule : RightSchedule plugins s.sortedPlugins := by
    refine hinv.right fun name hname hschedulable => ?_
    obtain ⟨p, hp⟩ := Dict.mem_iff.1 hname
    have hvisited := hall p (Dict.mem_values.2 ⟨name, hp⟩)
    rw [plugins.name_eq name p hp] at hvisited
    exact hvisited hschedulable
  have hrun : executeSchedule code order foList s.sortedPlugins ∅ = .ok results := by
    simpa [executeComparePlugins, scheduleComparisonPlugins, hs] using h
  have hmem : ∀ name, name ∈ results ↔ name ∈ plugins.dict ∧ Schedulable plugins name := by
    intro name
    rw [mem_executeSchedule hrun]
    constructor
    · rintro (hempty | hname)
      · exact absurd hempty (Dict.notMem_empty name)
      · obtain ⟨p, hp, rfl⟩ := List.mem_map.1 hname
        obtain ⟨hknown, hschedulable⟩ := (hschedule.mem p).1 hp
        exact ⟨Dict.mem_of_get? hknown, hschedulable⟩
    · rintro ⟨hname, hschedulable⟩
      obtain ⟨p, hp⟩ := Dict.mem_iff.1 hname
      have hpname : p.name = name := plugins.name_eq name p hp
      subst hpname
      exact .inr (List.mem_map_of_mem ((hschedule.mem p).2 ⟨hp, hschedulable⟩))
  refine ⟨hmem, fun plugin hplugin hresult => ?_⟩
  have hin : plugin ∈ s.sortedPlugins :=
    (hschedule.mem plugin).2 ⟨hplugin, ((hmem plugin.name).1 hresult).2⟩
  obtain ⟨before, behind, hsplit⟩ := List.append_of_mem hin
  obtain ⟨hright, hblocked, -⟩ :=
    blocked_of_schedule hschedule hrun before.length before plugin behind rfl hsplit
  exact ⟨hright, hblocked⟩

end

/-! ## A skipped chain -/

/-- `b` needs an analysis that is missing, and `a` needs `b`. -/
def chained : PluginDict := initPlugins [⟨"a", ["b"]⟩, ⟨"b", []⟩, ⟨"c", []⟩]

/-- Their code; every plugin returns one section. -/
def chainedCode : PluginCode Unit String where
  dependencies name := if name = "b" then ["file_hashes"] else []
  compareFunction name _ _ := .ok ((∅ : Dict String String).set "all" name)
  isProcessed _ _ := false
  all text := text

/-- Their results. -/
def chainedResults : Dict String (PluginResult String) :=
  match executeComparePlugins chainedCode (.sorted String) chained 4 [()] with
  | some (.ok results) => results
  | _ => ∅

example : chainedResults.items.map (fun p => (p.1, p.2.items)) =
    [("b", [("Compare Skipped", "Required analyses not present: file_hashes")]),
      ("a", [("Comparison Skipped", "Required comparison results are missing: b")]),
      ("c", [("all", "c")])] := by
  decide +kernel

theorem executeComparePlugins_chained :
    RightResult chainedCode (.sorted String) [()] chainedResults ⟨"a", ["b"]⟩ ∧
      Blocked chainedCode chained [()] chainedResults "a" := by
  have hn : chained.dict.keys.length < 4 := by decide +kernel
  have hrun : executeComparePlugins chainedCode (.sorted String) chained 4 [()] =
      some (.ok chainedResults) := rfl
  have ha : chained.dict.get? "a" = some ⟨"a", ["b"]⟩ := by decide +kernel
  have hin : "a" ∈ chainedResults := by decide +kernel
  obtain ⟨hright, hblocked⟩ := (executeComparePlugins_right hn hrun).2 ⟨"a", ["b"]⟩ ha hin
  exact ⟨hright, hblocked.2 (.inl (by decide +kernel))⟩

end Compare

end FactCore
