import FactCore.Lib.Dependencies
import FactCore.Lib.Loop
import FactCore.Objects.FileObject

/-! # The task scheduler

`AnalysisTaskScheduler` of `scheduler/task_scheduler.py`: the plugins that were
requested are completed by all they depend on, and put into a random order in
which each comes after its dependencies. The schedule is built from front to
back in layers, and worked off from its end.

Python sets are lists without duplicates here. Their order does not matter,
because what is taken out of a set is shuffled.
-/

namespace FactCore

/-- The metadata of an `AnalysisPluginV0` that scheduling depends on. Versions are
the texts of their `semver.Version`s. -/
structure Metadata where
  dependencies : List Plugin
  version : String
  systemVersion : Option String
  mimeBlacklist : List String
  mimeWhitelist : List String

/-- The plugins that were loaded. -/
abbrev Plugins := Dict Plugin Metadata

/-- The exceptions that scheduling may raise. -/
inductive PythonError where
  | keyError (key : String)
  | typeError
  | attributeError
  | indexError
deriving DecidableEq

/-- `MANDATORY_PLUGINS`. -/
def mandatoryPlugins : List Plugin := ["file_type", "file_hashes"]

/-- The outcomes of the calls of `shuffled`, in the order of the calls: each
call returns its argument in another order. -/
structure Shuffled where
  outcome : Nat → List Plugin → List Plugin
  perm : ∀ n plugins, (outcome n plugins).Perm plugins

namespace TaskScheduler

/-- `self.plugins[plugin].metadata.dependencies`. -/
def dependenciesOf (plugins : Plugins) (plugin : Plugin) : Except PythonError (List Plugin) :=
  match plugins.get? plugin with
  | none => .error (.keyError plugin)
  | some metadata => .ok metadata.dependencies

/-- The dependencies of all plugins of a list. -/
def cumulativeDependencies (plugins : Plugins) : List Plugin → Except PythonError (List Plugin)
  | [] => .ok []
  | plugin :: rest =>
      match dependenciesOf plugins plugin with
      | .error e => .error e
      | .ok dependencies => (cumulativeDependencies plugins rest).map (dependencies ++ ·)

/-- `get_cumulative_remaining_dependencies`. -/
def getCumulativeRemainingDependencies (plugins : Plugins) (scheduled : List Plugin) :
    Except PythonError (List Plugin) :=
  (cumulativeDependencies plugins scheduled).map fun dependencies =>
    dependencies.dedup.filter fun dependency => dependency ∉ scheduled

/-- One round of `_add_dependencies_recursively`. -/
def addDependencies (plugins : Plugins) (scheduled : List Plugin) :
    List Plugin ⊕ Except PythonError (List Plugin) :=
  match getCumulativeRemainingDependencies plugins scheduled with
  | .error e => .inr (.error e)
  | .ok [] => .inr (.ok scheduled)
  | .ok (dependency :: dependencies) => .inl (scheduled ++ dependency :: dependencies)

/-- `_add_dependencies_recursively`, with a bound on the number of rounds. -/
def addDependenciesRecursively (plugins : Plugins) (scheduled : List Plugin) (rounds : Nat) :
    Option (Except PythonError (List Plugin)) :=
  Loop.iterate (addDependencies plugins) rounds scheduled.dedup

/-- `_get_plugins_with_met_dependencies`. -/
def getPluginsWithMetDependencies (plugins : Plugins) (scheduled : List Plugin) :
    List Plugin → Except PythonError (List Plugin)
  | [] => .ok []
  | plugin :: remaining =>
      match dependenciesOf plugins plugin with
      | .error e => .error e
      | .ok dependencies =>
          (getPluginsWithMetDependencies plugins scheduled remaining).map fun met =>
            if ∀ dependency ∈ dependencies, dependency ∈ scheduled then plugin :: met else met

/-- The variables of the loop in `_smart_shuffle`, with the number of its round. -/
structure Layers where
  round : Nat
  scheduled : List Plugin
  remaining : List Plugin

/-- One round of `_smart_shuffle`. If no plugin has met dependencies, the rest is
given up. -/
def addLayer (shuffled : Shuffled) (plugins : Plugins) (layers : Layers) :
    Layers ⊕ Except PythonError (List Plugin) :=
  match layers.remaining with
  | [] => .inr (.ok layers.scheduled)
  | _ :: _ =>
      match getPluginsWithMetDependencies plugins layers.scheduled layers.remaining with
      | .error e => .inr (.error e)
      | .ok [] => .inr (.ok layers.scheduled)
      | .ok (plugin :: next) => .inl {
          round := layers.round + 1
          scheduled := shuffled.outcome layers.round (plugin :: next) ++ layers.scheduled
          remaining := layers.remaining.filter fun p => p ∉ plugin :: next }

/-- The end of `_smart_shuffle`: the file type comes first, for the blacklists. -/
def assureFileTypeIsFirst (scheduled : List Plugin) : List Plugin :=
  if "file_type" ∈ scheduled ∧ scheduled.getLast? ≠ some "file_type" then
    scheduled.erase "file_type" ++ ["file_type"]
  else scheduled

/-- `_smart_shuffle`, with a bound on the number of rounds. -/
def smartShuffle (shuffled : Shuffled) (plugins : Plugins) (pluginList : List Plugin)
    (rounds : Nat) : Option (Except PythonError (List Plugin)) :=
  (Loop.iterate (addLayer shuffled plugins) rounds ⟨0, [], pluginList.dedup⟩).map
    (Except.map assureFileTypeIsFirst)

/-- `schedule_analysis_tasks`: the new `scheduled_analysis` of the object, with a
bound on the number of rounds of each loop. -/
def scheduleAnalysisTasks (shuffled : Shuffled) (plugins : Plugins)
    (scheduledAnalysis : List Plugin) (mandatory : Bool) (rounds : Nat) :
    Option (Except PythonError (List Plugin)) :=
  match addDependenciesRecursively plugins scheduledAnalysis rounds with
  | none => none
  | some (.error e) => some (.error e)
  | some (.ok scheduled) =>
      smartShuffle shuffled plugins
        (if mandatory then scheduled ++ mandatoryPlugins else scheduled) rounds

/-! ## The dependency relation -/

/-- A plugin names another one as a dependency. -/
def DependsOn (plugins : Plugins) (plugin dependency : Plugin) : Prop :=
  ∃ metadata, plugins.get? plugin = some metadata ∧ dependency ∈ metadata.dependencies

/-- All dependencies exist; the file type has none, and the file hashes only this one. -/
structure Closed (plugins : Plugins) : Prop where
  dependencies : ∀ plugin dependency, DependsOn plugins plugin dependency → dependency ∈ plugins
  fileType : "file_type" ∈ plugins
  fileType_free : ∀ dependency, ¬ DependsOn plugins "file_type" dependency
  fileHashes : "file_hashes" ∈ plugins
  fileHashes_free : ∀ dependency, DependsOn plugins "file_hashes" dependency → dependency = "file_type"

theorem dependsOn_iff {plugins : Plugins} {plugin dependency : Plugin} :
    DependsOn plugins plugin dependency ↔
      ∃ item ∈ plugins.items, item.1 = plugin ∧ dependency ∈ item.2.dependencies := by
  constructor
  · rintro ⟨metadata, hget, hmem⟩
    exact ⟨(plugin, metadata), Dict.get?_eq_some_iff.1 hget, rfl, hmem⟩
  · rintro ⟨⟨p, metadata⟩, hitem, rfl, hmem⟩
    exact ⟨metadata, Dict.get?_eq_some_iff.2 hitem, hmem⟩

/-- A loop over the plugins decides whether they are closed. -/
theorem closed_of_items {plugins : Plugins}
    (h : ∀ item ∈ plugins.items, ∀ dependency ∈ item.2.dependencies, dependency ∈ plugins ∧
      item.1 ≠ "file_type" ∧ (item.1 = "file_hashes" → dependency = "file_type"))
    (hfileType : "file_type" ∈ plugins) (hfileHashes : "file_hashes" ∈ plugins) : Closed plugins := by
  refine ⟨?_, hfileType, ?_, hfileHashes, ?_⟩
  · intro plugin dependency hdep
    rcases dependsOn_iff.1 hdep with ⟨item, hitem, -, hmem⟩
    exact (h item hitem dependency hmem).1
  · intro dependency hdep
    rcases dependsOn_iff.1 hdep with ⟨item, hitem, heq, hmem⟩
    exact (h item hitem dependency hmem).2.1 heq
  · intro dependency hdep
    rcases dependsOn_iff.1 hdep with ⟨item, hitem, heq, hmem⟩
    exact (h item hitem dependency hmem).2.2 heq

/-- Ranks that decrease along all dependencies exclude cycles. -/
theorem acyclic_of_items {plugins : Plugins} (rank : Plugin → Nat)
    (h : ∀ item ∈ plugins.items, ∀ dependency ∈ item.2.dependencies, rank dependency < rank item.1) :
    Dependencies.Acyclic (DependsOn plugins) := by
  refine Dependencies.acyclic_of_rank rank ?_
  intro plugin dependency hdep
  rcases dependsOn_iff.1 hdep with ⟨item, hitem, rfl, hmem⟩
  exact h item hitem dependency hmem

/-- What is requested: the list, and the mandatory plugins if they are. -/
def Requested (requested : List Plugin) (mandatory : Bool) (plugin : Plugin) : Prop :=
  plugin ∈ requested ∨ mandatory = true ∧ plugin ∈ mandatoryPlugins

/-- A schedule for a request. -/
structure Schedules (plugins : Plugins) (requested : List Plugin) (mandatory : Bool)
    (schedule : List Plugin) : Prop where
  nodup : schedule.Nodup
  mem : ∀ plugin, plugin ∈ schedule ↔
    Dependencies.Needed (DependsOn plugins) (Requested requested mandatory) plugin
  ordered : Dependencies.Ordered (DependsOn plugins) schedule
  fileType : "file_type" ∈ schedule → schedule.getLast? = some "file_type"

variable {plugins : Plugins} {scheduled remaining : List Plugin} {plugin : Plugin}

theorem dependenciesOf_ok (h : plugin ∈ plugins) : ∃ dependencies,
    dependenciesOf plugins plugin = .ok dependencies ∧
      ∀ dependency, dependency ∈ dependencies ↔ DependsOn plugins plugin dependency := by
  rcases Dict.mem_iff.1 h with ⟨metadata, hget⟩
  refine ⟨metadata.dependencies, by simp [dependenciesOf, hget], ?_⟩
  intro dependency
  constructor
  · intro hmem
    exact ⟨metadata, hget, hmem⟩
  · rintro ⟨metadata', hget', hmem⟩
    cases hget.symm.trans hget'
    exact hmem

theorem cumulativeDependencies_ok (h : ∀ p ∈ scheduled, p ∈ plugins) : ∃ dependencies,
    cumulativeDependencies plugins scheduled = .ok dependencies ∧
      ∀ dependency, dependency ∈ dependencies ↔ ∃ p ∈ scheduled, DependsOn plugins p dependency := by
  induction scheduled with
  | nil => exact ⟨[], rfl, by simp⟩
  | cons p rest ih =>
      rcases dependenciesOf_ok (h p List.mem_cons_self) with ⟨own, hown, hmem⟩
      rcases ih fun q hq => h q (List.mem_cons_of_mem _ hq) with ⟨others, hothers, hmem'⟩
      refine ⟨own ++ others, by simp [cumulativeDependencies, hown, hothers, Except.map], ?_⟩
      intro dependency
      simp [hmem, hmem']

/-- The remaining dependencies of plugins that exist. -/
theorem getCumulativeRemainingDependencies_ok (h : ∀ p ∈ scheduled, p ∈ plugins) :
    ∃ dependencies, getCumulativeRemainingDependencies plugins scheduled = .ok dependencies ∧
      dependencies.Nodup ∧ ∀ dependency, dependency ∈ dependencies ↔
        (∃ p ∈ scheduled, DependsOn plugins p dependency) ∧ dependency ∉ scheduled := by
  rcases cumulativeDependencies_ok h with ⟨dependencies, hok, hmem⟩
  refine ⟨_, by simp only [getCumulativeRemainingDependencies, hok]; rfl,
    (List.nodup_dedup _).filter _, ?_⟩
  intro dependency
  simp [hmem]

theorem getPluginsWithMetDependencies_ok (h : ∀ p ∈ remaining, p ∈ plugins) : ∃ met,
    getPluginsWithMetDependencies plugins scheduled remaining = .ok met ∧ met.Sublist remaining ∧
      ∀ p, p ∈ met ↔ p ∈ remaining ∧ ∀ d, DependsOn plugins p d → d ∈ scheduled := by
  induction remaining with
  | nil => exact ⟨[], rfl, List.Sublist.refl _, by simp⟩
  | cons p rest ih =>
      rcases dependenciesOf_ok (h p List.mem_cons_self) with ⟨own, hown, hmem⟩
      rcases ih fun q hq => h q (List.mem_cons_of_mem _ hq) with ⟨met, hmet, hsub, hmem'⟩
      refine ⟨_, by simp only [getPluginsWithMetDependencies, hown, hmet]; rfl, ?_, ?_⟩
      · split
        · exact hsub.cons_cons p
        · exact hsub.cons p
      · intro q
        have hready : (∀ d ∈ own, d ∈ scheduled) ↔ ∀ d, DependsOn plugins p d → d ∈ scheduled := by
          constructor
          · intro hall d hd
            exact hall d ((hmem d).2 hd)
          · intro hall d hd
            exact hall d ((hmem d).1 hd)
        split
        · rename_i hall
          rw [List.mem_cons, List.mem_cons, hmem']
          constructor
          · rintro (rfl | ⟨hq, hdeps⟩)
            · exact ⟨Or.inl rfl, hready.1 hall⟩
            · exact ⟨Or.inr hq, hdeps⟩
          · rintro ⟨rfl | hq, hdeps⟩
            · exact Or.inl rfl
            · exact Or.inr ⟨hq, hdeps⟩
        · rename_i hnot
          rw [List.mem_cons, hmem']
          constructor
          · rintro ⟨hq, hdeps⟩
            exact ⟨Or.inr hq, hdeps⟩
          · rintro ⟨rfl | hq, hdeps⟩
            · exact absurd (hready.2 hdeps) hnot
            · exact ⟨hq, hdeps⟩

theorem getPluginsWithMetDependencies_exist {met : List Plugin}
    (h : getPluginsWithMetDependencies plugins scheduled remaining = .ok met) :
    ∀ p ∈ remaining, p ∈ plugins := by
  induction remaining generalizing met with
  | nil =>
      intro p hp
      cases hp
  | cons q rest ih =>
      unfold getPluginsWithMetDependencies at h
      cases hown : dependenciesOf plugins q with
      | error e =>
          rw [hown] at h
          cases h
      | ok own =>
          rw [hown] at h
          cases hrest : getPluginsWithMetDependencies plugins scheduled rest with
          | error e =>
              rw [hrest] at h
              cases h
          | ok others =>
              intro p hp
              rcases List.mem_cons.1 hp with rfl | hp
              · by_contra hnot
                simp [dependenciesOf, Dict.notMem_iff.1 hnot] at hown
              · exact ih hrest p hp

/-! ## Completing the request -/

/-- What `_add_dependencies_recursively` keeps: plugins that exist, each once,
all of them needed. -/
structure Completing (plugins : Plugins) (requested scheduled : List Plugin) : Prop where
  nodup : scheduled.Nodup
  exist : ∀ p ∈ scheduled, p ∈ plugins
  contains : ∀ p ∈ requested, p ∈ scheduled
  needed : ∀ p ∈ scheduled, Dependencies.Needed (DependsOn plugins) (· ∈ requested) p

/-- The plugins that have not been added yet. -/
def missing (plugins : Plugins) (scheduled : List Plugin) : Nat :=
  (plugins.keys.toFinset \ scheduled.toFinset).card

theorem addDependencies_continues {requested scheduled scheduled' : List Plugin}
    (hneeded : ∀ p, Dependencies.Needed (DependsOn plugins) (· ∈ requested) p → p ∈ plugins)
    (h : Completing plugins requested scheduled)
    (hround : addDependencies plugins scheduled = .inl scheduled') :
    Completing plugins requested scheduled' ∧ missing plugins scheduled' < missing plugins scheduled := by
  rcases getCumulativeRemainingDependencies_ok h.exist with ⟨new, hok, hnodup, hmem⟩
  unfold addDependencies at hround
  rw [hok] at hround
  cases new with
  | nil => cases hround
  | cons dependency others =>
      obtain rfl : scheduled ++ dependency :: others = scheduled' := Sum.inl.inj hround
      have hexist : ∀ d ∈ dependency :: others, d ∈ plugins := by
        intro d hd
        rcases (hmem d).1 hd with ⟨⟨p, hp, hpd⟩, -⟩
        exact hneeded d (Dependencies.needed_closed _ p d (h.needed p hp) hpd)
      refine ⟨⟨?_, ?_, ?_, ?_⟩, ?_⟩
      · refine List.Nodup.append h.nodup hnodup ?_
        intro d hold hd
        exact ((hmem d).1 hd).2 hold
      · intro p hp
        rcases List.mem_append.1 hp with hold | hnew
        · exact h.exist p hold
        · exact hexist p hnew
      · exact fun p hp => List.mem_append_left _ (h.contains p hp)
      · intro p hp
        rcases List.mem_append.1 hp with hold | hnew
        · exact h.needed p hold
        · rcases (hmem p).1 hnew with ⟨⟨q, hq, hqp⟩, -⟩
          exact Dependencies.needed_closed _ q p (h.needed q hq) hqp
      · -- the first new dependency was missing before
        have hself := (hmem dependency).1 List.mem_cons_self
        refine Finset.card_lt_card ?_
        rw [Finset.ssubset_iff_of_subset]
        · refine ⟨dependency, ?_, ?_⟩
          · rw [Finset.mem_sdiff, List.mem_toFinset, List.mem_toFinset, Dict.mem_keys]
            exact ⟨hexist dependency List.mem_cons_self, hself.2⟩
          · simp
        · refine Finset.sdiff_subset_sdiff (Finset.Subset.refl _) ?_
          rw [List.toFinset_append]
          exact Finset.subset_union_left

theorem addDependencies_returns {requested scheduled : List Plugin}
    {result : Except PythonError (List Plugin)} (h : Completing plugins requested scheduled)
    (hround : addDependencies plugins scheduled = .inr result) :
    result = .ok scheduled ∧ Dependencies.Closed (DependsOn plugins) (· ∈ scheduled) := by
  rcases getCumulativeRemainingDependencies_ok h.exist with ⟨new, hok, -, hmem⟩
  unfold addDependencies at hround
  rw [hok] at hround
  cases new with
  | cons dependency others => cases hround
  | nil =>
      refine ⟨(Sum.inr.inj hround).symm, ?_⟩
      intro p d hp hpd
      by_contra hd
      exact absurd ((hmem d).2 ⟨⟨p, hp, hpd⟩, hd⟩) List.not_mem_nil

/-- `_add_dependencies_recursively` terminates with exactly what is needed, if all
of that exists. -/
theorem addDependenciesRecursively_total {requested : List Plugin}
    (hneeded : ∀ p, Dependencies.Needed (DependsOn plugins) (· ∈ requested) p → p ∈ plugins) :
    ∃ result, Loop.Terminates (addDependenciesRecursively plugins requested) result ∧
      ∃ scheduled, result = .ok scheduled ∧ Completing plugins requested scheduled ∧
        Dependencies.Closed (DependsOn plugins) (· ∈ scheduled) := by
  have hstart : Completing plugins requested requested.dedup := by
    refine ⟨List.nodup_dedup _, ?_, ?_, ?_⟩
    · intro p hp
      exact hneeded p (Dependencies.needed_of_start (List.mem_dedup.1 hp))
    · intro p hp
      exact List.mem_dedup.2 hp
    · intro p hp
      exact Dependencies.needed_of_start (List.mem_dedup.1 hp)
  refine Loop.iterate_total (missing plugins)
    (fun _ _ h hround => addDependencies_continues hneeded h hround) ?_ hstart
  intro scheduled result h hround
  rcases addDependencies_returns h hround with ⟨hresult, hdone⟩
  exact ⟨scheduled, hresult, h, hdone⟩

/-! ## Shuffling -/

/-- What `_smart_shuffle` keeps: what is scheduled and what remains make up the
plugin list, and the scheduled plugins are ordered. -/
structure Layered (plugins : Plugins) (pluginList : List Plugin) (layers : Layers) : Prop where
  scheduled : layers.scheduled.Nodup
  remaining : layers.remaining.Nodup
  disjoint : ∀ p ∈ layers.scheduled, p ∉ layers.remaining
  mem : ∀ p, p ∈ pluginList ↔ p ∈ layers.scheduled ∨ p ∈ layers.remaining
  ordered : Dependencies.Ordered (DependsOn plugins) layers.scheduled

theorem layered_start (pluginList : List Plugin) :
    Layered plugins pluginList ⟨0, [], pluginList.dedup⟩ := by
  refine ⟨List.nodup_nil, List.nodup_dedup _, ?_, ?_, trivial⟩
  · intro p hp
    cases hp
  · intro p
    simp

/-- A round of `_smart_shuffle`: it returns when nothing remains, or when no
plugin has met dependencies; otherwise these plugins are scheduled. -/
theorem addLayer_cases (shuffled : Shuffled) {layers : Layers}
    (hexist : ∀ p ∈ layers.remaining, p ∈ plugins) : ∃ met : List Plugin,
    met.Sublist layers.remaining ∧
      (∀ p, p ∈ met ↔ p ∈ layers.remaining ∧ ∀ d, DependsOn plugins p d → d ∈ layers.scheduled) ∧
      ((met = [] ∧ addLayer shuffled plugins layers = .inr (.ok layers.scheduled)) ∨
        (met ≠ [] ∧ addLayer shuffled plugins layers = .inl {
          round := layers.round + 1
          scheduled := shuffled.outcome layers.round met ++ layers.scheduled
          remaining := layers.remaining.filter fun p => p ∉ met })) := by
  have hok := @getPluginsWithMetDependencies_ok plugins layers.scheduled layers.remaining hexist
  rcases hok with ⟨met, hmet, hsub, hmem⟩
  refine ⟨met, hsub, hmem, ?_⟩
  unfold addLayer
  cases hremaining : layers.remaining with
  | nil =>
      rw [hremaining, List.sublist_nil] at hsub
      exact Or.inl ⟨hsub, rfl⟩
  | cons first rest =>
      rw [hremaining] at hmet
      simp only [hmet]
      cases met with
      | nil => exact Or.inl ⟨rfl, rfl⟩
      | cons plugin next => exact Or.inr ⟨List.cons_ne_nil _ _, rfl⟩

/-- A round that goes on has looked up all that remains. -/
theorem addLayer_exist {shuffled : Shuffled} {layers layers' : Layers}
    (hround : addLayer shuffled plugins layers = .inl layers') :
    ∀ p ∈ layers.remaining, p ∈ plugins := by
  unfold addLayer at hround
  split at hround
  · cases hround
  · split at hround
    · cases hround
    · cases hround
    · rename_i hmet
      exact getPluginsWithMetDependencies_exist hmet

theorem addLayer_continues {pluginList : List Plugin} {shuffled : Shuffled} {layers layers' : Layers}
    (h : Layered plugins pluginList layers)
    (hround : addLayer shuffled plugins layers = .inl layers') :
    Layered plugins pluginList layers' ∧ layers'.remaining.length < layers.remaining.length := by
  rcases addLayer_cases shuffled (addLayer_exist hround) with
    ⟨met, hsub, hmem, ⟨-, hreturns⟩ | ⟨hne, hgoes⟩⟩
  · rw [hreturns] at hround
    cases hround
  · rw [hgoes] at hround
    obtain rfl := Sum.inl.inj hround
    have hperm := shuffled.perm layers.round met
    have hnew : ∀ p, p ∈ shuffled.outcome layers.round met ↔ p ∈ met := fun p => hperm.mem_iff
    refine ⟨⟨?_, h.remaining.filter _, ?_, ?_, ?_⟩, ?_⟩
    · refine List.Nodup.append (hperm.nodup_iff.2 (h.remaining.sublist hsub)) h.scheduled ?_
      intro p hp hold
      exact h.disjoint p hold (hsub.subset ((hnew p).1 hp))
    · intro p hp hrest
      rcases List.mem_filter.1 hrest with ⟨hrem, hnot⟩
      rcases List.mem_append.1 hp with hlayer | hold
      · exact absurd ((hnew p).1 hlayer) (by simpa using hnot)
      · exact h.disjoint p hold hrem
    · intro p
      rw [h.mem p, List.mem_append, hnew, List.mem_filter]
      constructor
      · rintro (hold | hrem)
        · exact Or.inl (Or.inr hold)
        · by_cases hp : p ∈ met
          · exact Or.inl (Or.inl hp)
          · exact Or.inr ⟨hrem, by simpa using hp⟩
      · rintro ((hp | hold) | ⟨hrem, -⟩)
        · exact Or.inr (hsub.subset hp)
        · exact Or.inl hold
        · exact Or.inr hrem
    · refine h.ordered.append ?_
      intro p hp d hpd
      exact ((hmem p).1 ((hnew p).1 hp)).2 d hpd
    · rcases List.exists_mem_of_ne_nil met hne with ⟨p, hp⟩
      refine List.length_filter_lt_length_iff_exists.2 ⟨p, hsub.subset hp, ?_⟩
      simpa using hp

/-- Without cycles, the loop goes on until nothing remains of a closed list. -/
theorem addLayer_returns {pluginList : List Plugin} {shuffled : Shuffled} {layers : Layers}
    {result : Except PythonError (List Plugin)} (hacyclic : Dependencies.Acyclic (DependsOn plugins))
    (hclosed : Dependencies.Closed (DependsOn plugins) (· ∈ pluginList))
    (hexist : ∀ p ∈ pluginList, p ∈ plugins) (h : Layered plugins pluginList layers)
    (hround : addLayer shuffled plugins layers = .inr result) :
    result = .ok layers.scheduled ∧ layers.remaining = [] := by
  rcases addLayer_cases shuffled fun p hp => hexist p ((h.mem p).2 (Or.inr hp)) with
    ⟨met, hsub, hmem, ⟨hempty, hreturns⟩ | ⟨hne, hgoes⟩⟩
  · rw [hreturns] at hround
    refine ⟨(Sum.inr.inj hround).symm, ?_⟩
    by_contra hremaining
    rcases hacyclic.exists_ready hremaining with ⟨p, hp, hready⟩
    have hmet : p ∈ met := by
      refine (hmem p).2 ⟨hp, ?_⟩
      intro d hpd
      have hd := hclosed p d ((h.mem p).2 (Or.inr hp)) hpd
      exact ((h.mem d).1 hd).resolve_right (hready d hpd)
    rw [hempty] at hmet
    cases hmet
  · rw [hgoes] at hround
    cases hround

theorem assureFileTypeIsFirst_perm (scheduled : List Plugin) :
    (assureFileTypeIsFirst scheduled).Perm scheduled := by
  unfold assureFileTypeIsFirst
  split
  · rename_i h
    exact (List.perm_append_singleton _ _).trans (List.perm_cons_erase h.1).symm
  · exact List.Perm.refl _

theorem assureFileTypeIsFirst_last (h : "file_type" ∈ assureFileTypeIsFirst scheduled) :
    (assureFileTypeIsFirst scheduled).getLast? = some "file_type" := by
  have hmem : "file_type" ∈ scheduled := (assureFileTypeIsFirst_perm scheduled).mem_iff.1 h
  unfold assureFileTypeIsFirst
  split
  · simp
  · rename_i hnot
    by_contra hlast
    exact hnot ⟨hmem, hlast⟩

theorem assureFileTypeIsFirst_ordered (hfree : ∀ d, ¬ DependsOn plugins "file_type" d)
    (h : Dependencies.Ordered (DependsOn plugins) scheduled) :
    Dependencies.Ordered (DependsOn plugins) (assureFileTypeIsFirst scheduled) := by
  unfold assureFileTypeIsFirst
  split
  · exact h.move_last hfree
  · exact h

/-- `_smart_shuffle` terminates with an order of its list. -/
theorem smartShuffle_total (shuffled : Shuffled) {pluginList : List Plugin}
    (hacyclic : Dependencies.Acyclic (DependsOn plugins))
    (hclosed : Dependencies.Closed (DependsOn plugins) (· ∈ pluginList))
    (hexist : ∀ p ∈ pluginList, p ∈ plugins)
    (hfree : ∀ d, ¬ DependsOn plugins "file_type" d) :
    ∃ schedule, Loop.Terminates (smartShuffle shuffled plugins pluginList) (.ok schedule) ∧
      schedule.Nodup ∧ (∀ p, p ∈ schedule ↔ p ∈ pluginList) ∧
      Dependencies.Ordered (DependsOn plugins) schedule ∧
      ("file_type" ∈ schedule → schedule.getLast? = some "file_type") := by
  have hstart : Layered plugins pluginList ⟨0, [], pluginList.dedup⟩ := layered_start pluginList
  have htotal : ∃ result, Loop.Terminates
      (fun n => Loop.iterate (addLayer shuffled plugins) n ⟨0, [], pluginList.dedup⟩) result ∧
        ∃ layers, Layered plugins pluginList layers ∧ result = .ok layers.scheduled ∧
          layers.remaining = [] :=
    Loop.iterate_total (fun layers => layers.remaining.length)
      (fun _ _ h hround => addLayer_continues h hround)
      (fun layers _ h hround => ⟨layers, h, addLayer_returns hacyclic hclosed hexist h hround⟩)
      hstart
  rcases htotal with ⟨result, hterminates, layers, h, rfl, hempty⟩
  have hperm := assureFileTypeIsFirst_perm layers.scheduled
  refine ⟨assureFileTypeIsFirst layers.scheduled, hterminates.map (Except.map assureFileTypeIsFirst),
    hperm.nodup_iff.2 h.scheduled, ?_, assureFileTypeIsFirst_ordered hfree h.ordered,
    assureFileTypeIsFirst_last⟩
  intro p
  rw [hperm.mem_iff, h.mem p, hempty]
  simp

/-! ## Schedules -/

/-- The mandatory plugins need nothing but each other. -/
theorem closed_mandatory (hclosed : Closed plugins)
    (h : Dependencies.Closed (DependsOn plugins) (· ∈ scheduled)) :
    Dependencies.Closed (DependsOn plugins) (· ∈ scheduled ++ mandatoryPlugins) := by
  intro p d hp hpd
  rcases List.mem_append.1 hp with hold | hmandatory
  · exact List.mem_append_left _ (h p d hold hpd)
  · refine List.mem_append_right _ ?_
    rcases List.mem_cons.1 hmandatory with rfl | hrest
    · exact absurd hpd (hclosed.fileType_free d)
    · rw [List.mem_singleton.1 hrest] at hpd
      rw [hclosed.fileHashes_free d hpd]
      exact List.mem_cons_self

/-- For plugins without cyclic or missing dependencies, any request and any
shuffling, `schedule_analysis_tasks` terminates with a schedule: the plugins
that are needed, each once, each after its dependencies, and the file type
first. -/
theorem scheduleAnalysisTasks_schedules (shuffled : Shuffled)
    (hacyclic : Dependencies.Acyclic (DependsOn plugins)) (hclosed : Closed plugins)
    (requested : List Plugin) (hexist : ∀ p ∈ requested, p ∈ plugins) (mandatory : Bool) :
    ∃ schedule, Loop.Terminates (scheduleAnalysisTasks shuffled plugins requested mandatory)
        (.ok schedule) ∧ Schedules plugins requested mandatory schedule := by
  have hneeded : ∀ p, Dependencies.Needed (DependsOn plugins) (· ∈ requested) p → p ∈ plugins :=
    fun p hp => hp.mem (fun _ d _ hpd => hclosed.dependencies _ d hpd) hexist
  rcases addDependenciesRecursively_total hneeded with
    ⟨_, ⟨n, hn⟩, scheduled, rfl, hcompleting, hdone⟩
  have hlist : ∀ p, p ∈ (if mandatory then scheduled ++ mandatoryPlugins else scheduled) ↔
      p ∈ scheduled ∨ mandatory = true ∧ p ∈ mandatoryPlugins := by
    intro p
    cases mandatory <;> simp
  have hlistClosed : Dependencies.Closed (DependsOn plugins)
      (· ∈ (if mandatory then scheduled ++ mandatoryPlugins else scheduled)) := by
    cases mandatory with
    | true => exact closed_mandatory hclosed hdone
    | false => exact hdone
  have hlistExist : ∀ p ∈ (if mandatory then scheduled ++ mandatoryPlugins else scheduled),
      p ∈ plugins := by
    intro p hp
    rcases (hlist p).1 hp with hold | ⟨-, hmandatory⟩
    · exact hcompleting.exist p hold
    · rcases List.mem_cons.1 hmandatory with rfl | hrest
      · exact hclosed.fileType
      · rw [List.mem_singleton.1 hrest]
        exact hclosed.fileHashes
  rcases smartShuffle_total shuffled hacyclic hlistClosed hlistExist hclosed.fileType_free with
    ⟨schedule, ⟨k, hk⟩, hnodup, hmem, hordered, hfileType⟩
  refine ⟨schedule, ⟨max n k, ?_⟩, hnodup, ?_, hordered, hfileType⟩
  · intro m hle
    simp only [scheduleAnalysisTasks, hn m (by omega)]
    exact hk m (by omega)
  · intro p
    rw [hmem, hlist]
    constructor
    · rintro (hold | hmandatory)
      · exact (hcompleting.needed p hold).mono fun q hq =>
          Dependencies.needed_of_start (Or.inl hq)
      · exact Dependencies.needed_of_start (Or.inr hmandatory)
    · intro hneeded
      rw [← hlist]
      refine hneeded.mem hlistClosed ?_
      rintro q (hq | hmandatory)
      · exact (hlist q).2 (Or.inl (hcompleting.contains q hq))
      · exact (hlist q).2 (Or.inr hmandatory)

/-! ## What any schedule satisfies

The properties of a schedule that was returned, which do not depend on what the
plugins are. -/

/-- A schedule of plugins that exist, each once, together with all they depend on. -/
structure Plan (plugins : Plugins) (schedule : List Plugin) : Prop where
  nodup : schedule.Nodup
  exist : ∀ p ∈ schedule, p ∈ plugins
  closed : Dependencies.Closed (DependsOn plugins) (· ∈ schedule)

/-- A round that goes on schedules plugins that remain. -/
theorem addLayer_scheduled {shuffled : Shuffled} {layers layers' : Layers}
    (hround : addLayer shuffled plugins layers = .inl layers') :
    ∀ p ∈ layers'.scheduled, p ∈ layers.scheduled ∨ p ∈ layers.remaining := by
  rcases addLayer_cases shuffled (addLayer_exist hround) with
    ⟨met, hsub, -, ⟨-, hreturns⟩ | ⟨-, hgoes⟩⟩
  · rw [hreturns] at hround
    cases hround
  · rw [hgoes] at hround
    obtain rfl := Sum.inl.inj hround
    intro p hp
    rcases List.mem_append.1 hp with hlayer | hold
    · exact Or.inr (hsub.subset ((shuffled.perm layers.round met).mem_iff.1 hlayer))
    · exact Or.inl hold

theorem addLayer_ok {shuffled : Shuffled} {layers : Layers} {schedule : List Plugin}
    (hround : addLayer shuffled plugins layers = .inr (.ok schedule)) :
    schedule = layers.scheduled := by
  unfold addLayer at hround
  split at hround
  · exact (Except.ok.inj (Sum.inr.inj hround)).symm
  · split at hround
    · cases hround
    · exact (Except.ok.inj (Sum.inr.inj hround)).symm
    · cases hround

/-- What `_smart_shuffle` returns, with the layers that it was made of. -/
theorem smartShuffle_ok {shuffled : Shuffled} {pluginList schedule : List Plugin} {rounds : Nat}
    (h : smartShuffle shuffled plugins pluginList rounds = some (.ok schedule)) :
    ∃ layers, Layered plugins pluginList layers ∧ (∀ p ∈ layers.scheduled, p ∈ plugins) ∧
      schedule = assureFileTypeIsFirst layers.scheduled := by
  unfold smartShuffle at h
  obtain ⟨result, hresult, hmap⟩ := Option.map_eq_some_iff.1 h
  have hstart : Layered plugins pluginList ⟨0, [], pluginList.dedup⟩ := layered_start pluginList
  let Sound : Layers → Prop := fun layers =>
    Layered plugins pluginList layers ∧ ∀ p ∈ layers.scheduled, p ∈ plugins
  let Post : Except PythonError (List Plugin) → Prop := fun result =>
    ∀ scheduled, result = .ok scheduled → ∃ layers, Sound layers ∧ scheduled = layers.scheduled
  have hsound : Sound ⟨0, [], pluginList.dedup⟩ := ⟨hstart, fun p hp => nomatch hp⟩
  have hpost : Post result := by
    refine Loop.iterate_invariant ?_ ?_ hsound hresult
    · rintro layers layers' ⟨hlayered, hexist⟩ hround
      refine ⟨(addLayer_continues hlayered hround).1, ?_⟩
      intro p hp
      rcases addLayer_scheduled hround p hp with hold | hrest
      · exact hexist p hold
      · exact addLayer_exist hround p hrest
    · rintro layers result ⟨hlayered, hexist⟩ hround scheduled rfl
      exact ⟨layers, ⟨hlayered, hexist⟩, addLayer_ok hround⟩
  cases result with
  | error e => cases hmap
  | ok scheduled =>
      rcases hpost scheduled rfl with ⟨layers, ⟨hlayered, hexist⟩, rfl⟩
      exact ⟨layers, hlayered, hexist, (Except.ok.inj hmap).symm⟩

/-- What `schedule_analysis_tasks` returns. -/
theorem scheduleAnalysisTasks_ok {shuffled : Shuffled} {requested schedule : List Plugin}
    {mandatory : Bool} {rounds : Nat}
    (h : scheduleAnalysisTasks shuffled plugins requested mandatory rounds = some (.ok schedule)) :
    ∃ pluginList layers, Layered plugins pluginList layers ∧
      (∀ p ∈ layers.scheduled, p ∈ plugins) ∧
      schedule = assureFileTypeIsFirst layers.scheduled := by
  unfold scheduleAnalysisTasks at h
  split at h
  · cases h
  · cases h
  · rcases smartShuffle_ok h with ⟨layers, hlayers⟩
    exact ⟨_, layers, hlayers⟩

theorem plan_of_ok {shuffled : Shuffled} {requested schedule : List Plugin} {mandatory : Bool}
    {rounds : Nat}
    (h : scheduleAnalysisTasks shuffled plugins requested mandatory rounds = some (.ok schedule)) :
    Plan plugins schedule := by
  rcases scheduleAnalysisTasks_ok h with ⟨pluginList, layers, hlayered, hexist, rfl⟩
  have hperm := assureFileTypeIsFirst_perm layers.scheduled
  refine ⟨hperm.nodup_iff.2 hlayered.scheduled, ?_, ?_⟩
  · intro p hp
    exact hexist p (hperm.mem_iff.1 hp)
  · intro p d hp hpd
    exact hperm.mem_iff.2 (hlayered.ordered.closed p d (hperm.mem_iff.1 hp) hpd)

/-- If the file type depends on nothing, everything comes after its dependencies. -/
theorem ordered_of_ok {shuffled : Shuffled} {requested schedule : List Plugin} {mandatory : Bool}
    {rounds : Nat} (hfree : ∀ d, ¬ DependsOn plugins "file_type" d)
    (h : scheduleAnalysisTasks shuffled plugins requested mandatory rounds = some (.ok schedule)) :
    Dependencies.Ordered (DependsOn plugins) schedule := by
  rcases scheduleAnalysisTasks_ok h with ⟨pluginList, layers, hlayered, -, rfl⟩
  exact assureFileTypeIsFirst_ordered hfree hlayered.ordered

/-- A round does not return while the file type remains, which depends on nothing. -/
theorem addLayer_fileType {shuffled : Shuffled} {pluginList schedule : List Plugin}
    {layers : Layers} (hfree : ∀ d, ¬ DependsOn plugins "file_type" d)
    (hlayered : Layered plugins pluginList layers) (hlist : "file_type" ∈ pluginList)
    (hround : addLayer shuffled plugins layers = .inr (.ok schedule)) :
    "file_type" ∈ schedule := by
  rw [addLayer_ok hround]
  rcases (hlayered.mem "file_type").1 hlist with hscheduled | hremaining
  · exact hscheduled
  · exfalso
    unfold addLayer at hround
    split at hround
    · rename_i hnil
      rw [hnil] at hremaining
      cases hremaining
    · split at hround
      · cases hround
      · rename_i hmet
        have hexist := getPluginsWithMetDependencies_exist hmet
        rcases @getPluginsWithMetDependencies_ok plugins layers.scheduled layers.remaining hexist
          with ⟨met, hok, -, hmem⟩
        cases Except.ok.inj (hmet.symm.trans hok)
        have hnone : "file_type" ∈ ([] : List Plugin) :=
          (hmem "file_type").2 ⟨hremaining, fun d hd => absurd hd (hfree d)⟩
        cases hnone
      · cases hround

/-- With the mandatory plugins the file type is always scheduled. -/
theorem fileType_scheduled {shuffled : Shuffled} {requested schedule : List Plugin} {rounds : Nat}
    (hfree : ∀ d, ¬ DependsOn plugins "file_type" d)
    (h : scheduleAnalysisTasks shuffled plugins requested true rounds = some (.ok schedule)) :
    "file_type" ∈ schedule := by
  unfold scheduleAnalysisTasks at h
  split at h
  · cases h
  · cases h
  · rename_i scheduled hscheduled
    have hlist : "file_type" ∈ scheduled ++ mandatoryPlugins :=
      List.mem_append_right _ List.mem_cons_self
    unfold smartShuffle at h
    obtain ⟨result, hresult, hmap⟩ := Option.map_eq_some_iff.1 h
    let Post : Except PythonError (List Plugin) → Prop := fun result =>
      ∀ scheduled, result = .ok scheduled → "file_type" ∈ scheduled
    have hpost : Post result := by
      refine Loop.iterate_invariant (fun _ _ hlayered hround =>
        (addLayer_continues hlayered hround).1) ?_ (layered_start (scheduled ++ mandatoryPlugins))
        hresult
      rintro layers result hlayered hround schedule rfl
      exact addLayer_fileType hfree hlayered hlist hround
    cases result with
    | error e => cases hmap
    | ok layered =>
        cases Except.ok.inj hmap
        exact (assureFileTypeIsFirst_perm layered).mem_iff.2 (hpost layered rfl)

/-! ## Some plugins -/

/-- The outcome of shuffling that leaves every list as it is. -/
def unshuffled : Shuffled := ⟨fun _ plugins => plugins, fun _ plugins => List.Perm.refl plugins⟩

/-- Metadata without a system version and without lists. -/
def basicMetadata (dependencies : List Plugin) : Metadata := ⟨dependencies, "1.0.0", none, [], []⟩

/-- Some of the plugins of the repository, with one of their blacklists. -/
def somePlugins : Plugins where
  items := [
    ("kernel_config", basicMetadata ["file_type", "software_components"]),
    ("cve_lookup", { basicMetadata ["software_components"] with mimeBlacklist := ["image/"] }),
    ("software_components", basicMetadata []),
    ("file_hashes", basicMetadata ["file_type"]),
    ("file_type", basicMetadata [])]
  nodup := by decide

theorem somePlugins_closed : Closed somePlugins :=
  closed_of_items (by decide) (by decide) (by decide)

theorem somePlugins_acyclic : Dependencies.Acyclic (DependsOn somePlugins) :=
  acyclic_of_items (fun plugin => if plugin ∈ ["file_type", "software_components"] then 0 else 1)
    (by decide)

/-- The theorem for a request with a repeat. -/
theorem scheduleAnalysisTasks_schedules_twice : ∃ schedule,
    Loop.Terminates (scheduleAnalysisTasks unshuffled somePlugins ["cve_lookup", "cve_lookup"] true)
      (.ok schedule) ∧ Schedules somePlugins ["cve_lookup", "cve_lookup"] true schedule :=
  scheduleAnalysisTasks_schedules unshuffled somePlugins_acyclic somePlugins_closed
    ["cve_lookup", "cve_lookup"] (by decide) true

example : scheduleAnalysisTasks unshuffled somePlugins ["cve_lookup", "cve_lookup"] true 5 =
    some (.ok ["cve_lookup", "file_hashes", "software_components", "file_type"]) := by
  decide

end TaskScheduler

end FactCore
