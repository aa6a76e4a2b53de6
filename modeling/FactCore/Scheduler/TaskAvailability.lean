import FactCore.Scheduler.TaskScheduler

/-! # Scheduling plugins that are not all available

Plugins may be missing, because they could not be loaded, or depend on each
other in a cycle. `_smart_shuffle` gives such plugins up, but before that the
plugins are looked up by their names, which raises for a missing one; and the
file type is moved to the front whatever it depends on. `Complete` says when none
of this happens, and that is exactly when the request is met.
-/

namespace FactCore

namespace TaskScheduler

open Dependencies (Needed Ordered Resolvable)

/-- All that the plugin needs is available and free of cycles. -/
def Schedulable (plugins : Plugins) (plugin : Plugin) : Prop :=
  Resolvable (DependsOn plugins) (· ∈ plugins) plugin

/-- A schedule of exactly those plugins of the request and its dependencies that
can be scheduled, each after its dependencies. -/
structure SchedulesAvailable (plugins : Plugins) (requested : List Plugin) (mandatory : Bool)
    (schedule : List Plugin) : Prop where
  nodup : schedule.Nodup
  mem : ∀ plugin, plugin ∈ schedule ↔
    Needed (DependsOn plugins) (Requested requested mandatory) plugin ∧ Schedulable plugins plugin
  ordered : Ordered (DependsOn plugins) schedule

/-- `schedule_analysis_tasks` does not raise and gives such a schedule. -/
def MeetsRequest (shuffled : Shuffled) (plugins : Plugins) (requested : List Plugin)
    (mandatory : Bool) : Prop :=
  ∃ schedule, Loop.Terminates (scheduleAnalysisTasks shuffled plugins requested mandatory)
    (.ok schedule) ∧ SchedulesAvailable plugins requested mandatory schedule

/-- The request needs no missing plugin; the mandatory plugins, if they are
requested, exist, and what they need and can be scheduled is mandatory or needed
anyway; and the file type depends on nothing, if it is to be scheduled. -/
structure Complete (plugins : Plugins) (requested : List Plugin) (mandatory : Bool) : Prop where
  needed : ∀ plugin, Needed (DependsOn plugins) (· ∈ requested) plugin → plugin ∈ plugins
  mandatoryExist : mandatory = true → ∀ plugin ∈ mandatoryPlugins, plugin ∈ plugins
  mandatoryNeeds : mandatory = true → ∀ plugin,
    Needed (DependsOn plugins) (· ∈ mandatoryPlugins) plugin → Schedulable plugins plugin →
      plugin ∈ mandatoryPlugins ∨ Needed (DependsOn plugins) (· ∈ requested) plugin
  fileType : Needed (DependsOn plugins) (Requested requested mandatory) "file_type" →
    Schedulable plugins "file_type" → ∀ dependency, ¬ DependsOn plugins "file_type" dependency

variable {plugins : Plugins} {requested scheduled pluginList : List Plugin} {mandatory : Bool}
  {shuffled : Shuffled}

/-! ## What is looked up -/

theorem cumulativeDependencies_exist {dependencies : List Plugin}
    (h : cumulativeDependencies plugins scheduled = .ok dependencies) :
    ∀ p ∈ scheduled, p ∈ plugins := by
  induction scheduled generalizing dependencies with
  | nil => exact fun p hp => absurd hp List.not_mem_nil
  | cons q rest ih =>
      unfold cumulativeDependencies at h
      cases hown : dependenciesOf plugins q with
      | error e =>
          rw [hown] at h
          cases h
      | ok own =>
          rw [hown] at h
          cases hrest : cumulativeDependencies plugins rest with
          | error e =>
              rw [hrest] at h
              cases h
          | ok others =>
              intro p hp
              rcases List.mem_cons.1 hp with rfl | hp
              · by_contra hnot
                simp [dependenciesOf, Dict.notMem_iff.1 hnot] at hown
              · exact ih hrest p hp

theorem getCumulativeRemainingDependencies_exist {dependencies : List Plugin}
    (h : getCumulativeRemainingDependencies plugins scheduled = .ok dependencies) :
    ∀ p ∈ scheduled, p ∈ plugins := by
  unfold getCumulativeRemainingDependencies at h
  cases hdeps : cumulativeDependencies plugins scheduled with
  | error e =>
      rw [hdeps] at h
      cases h
  | ok dependencies => exact cumulativeDependencies_exist hdeps

/-- If `_add_dependencies_recursively` does not raise, all that is needed exists. -/
theorem needed_exist {rounds : Nat}
    (h : addDependenciesRecursively plugins requested rounds = some (.ok scheduled)) :
    ∀ p, Needed (DependsOn plugins) (· ∈ requested) p → p ∈ plugins := by
  let Contains : List Plugin → Prop := fun scheduled => ∀ p ∈ requested, p ∈ scheduled
  let Post : Except PythonError (List Plugin) → Prop := fun result => ∀ scheduled,
    result = .ok scheduled → Contains scheduled ∧ (∀ p ∈ scheduled, p ∈ plugins) ∧
      Dependencies.Closed (DependsOn plugins) (· ∈ scheduled)
  have hstart : Contains requested.dedup := fun p hp => List.mem_dedup.2 hp
  have hpost : Post (.ok scheduled) := by
    refine Loop.iterate_invariant ?_ ?_ hstart h
    · intro s s' hcontains hround p hp
      unfold addDependencies at hround
      split at hround
      · cases hround
      · cases hround
      · obtain rfl := Sum.inl.inj hround
        exact List.mem_append_left _ (hcontains p hp)
    · rintro s r hcontains hround scheduled rfl
      have hexist : ∀ p ∈ s, p ∈ plugins := by
        unfold addDependencies at hround
        split at hround
        · cases hround
        · rename_i hget
          exact getCumulativeRemainingDependencies_exist hget
        · cases hround
      obtain ⟨new, hok, -, hmem⟩ := getCumulativeRemainingDependencies_ok hexist
      unfold addDependencies at hround
      rw [hok] at hround
      cases new with
      | cons dependency others => cases hround
      | nil =>
          obtain rfl := Except.ok.inj (Sum.inr.inj hround)
          refine ⟨hcontains, hexist, fun p d hp hpd => ?_⟩
          by_contra hd
          exact absurd ((hmem d).2 ⟨⟨p, hp, hpd⟩, hd⟩) List.not_mem_nil
  obtain ⟨hcontains, hexist, hclosed⟩ := hpost scheduled rfl
  exact fun p hp => hexist p (hp.mem hclosed hcontains)

/-- If `_smart_shuffle` does not raise, its first round has looked up all plugins. -/
theorem pluginList_exist {rounds : Nat} {schedule : List Plugin}
    (h : smartShuffle shuffled plugins pluginList rounds = some (.ok schedule)) :
    ∀ p ∈ pluginList, p ∈ plugins := by
  unfold smartShuffle at h
  obtain ⟨result, hresult, hmap⟩ := Option.map_eq_some_iff.1 h
  cases rounds with
  | zero => cases hresult
  | succ rounds =>
      intro p hp
      have hremaining : p ∈ pluginList.dedup := List.mem_dedup.2 hp
      cases hround : addLayer shuffled plugins ⟨0, [], pluginList.dedup⟩ with
      | inl layers => exact addLayer_exist hround p hremaining
      | inr returned =>
          simp only [Loop.iterate, hround, Option.some.injEq] at hresult
          obtain rfl := hresult
          unfold addLayer at hround
          split at hround
          · rename_i hnil
            simp only at hnil
            rw [hnil] at hremaining
            cases hremaining
          · split at hround
            · obtain rfl := Sum.inr.inj hround
              cases hmap
            · rename_i hget
              exact getPluginsWithMetDependencies_exist hget p hremaining
            · cases hround

/-! ## What is given up -/

/-- For plugins that exist, `_smart_shuffle` ends with layers to which none of the
plugins can be added. -/
theorem smartShuffle_saturated (shuffled : Shuffled) (hexist : ∀ p ∈ pluginList, p ∈ plugins) :
    ∃ layers, Loop.Terminates (smartShuffle shuffled plugins pluginList)
        (.ok (assureFileTypeIsFirst layers.scheduled)) ∧ Layered plugins pluginList layers ∧
      ∀ p ∈ pluginList, (∀ d, DependsOn plugins p d → d ∈ layers.scheduled) →
        p ∈ layers.scheduled := by
  have htotal : ∃ result, Loop.Terminates
      (fun n => Loop.iterate (addLayer shuffled plugins) n ⟨0, [], pluginList.dedup⟩) result ∧
        ∃ layers, Layered plugins pluginList layers ∧ result = .ok layers.scheduled ∧
          ∀ p ∈ pluginList, (∀ d, DependsOn plugins p d → d ∈ layers.scheduled) →
            p ∈ layers.scheduled := by
    refine Loop.iterate_total (fun layers => layers.remaining.length)
      (fun _ _ h hround => addLayer_continues h hround) ?_ (layered_start pluginList)
    intro layers result h hround
    obtain ⟨met, -, hmem, ⟨hempty, hreturns⟩ | ⟨-, hgoes⟩⟩ :=
      addLayer_cases shuffled fun p hp => hexist p ((h.mem p).2 (Or.inr hp))
    · refine ⟨layers, h, (Sum.inr.inj (hreturns.symm.trans hround)).symm, fun p hp hready => ?_⟩
      refine ((h.mem p).1 hp).resolve_right fun hremaining => ?_
      have hmet : p ∈ met := (hmem p).2 ⟨hremaining, hready⟩
      rw [hempty] at hmet
      cases hmet
    · rw [hgoes] at hround
      cases hround
  obtain ⟨result, hterminates, layers, h, rfl, hsaturated⟩ := htotal
  exact ⟨layers, hterminates.map (Except.map assureFileTypeIsFirst), h, hsaturated⟩

/-- What is scheduled are the plugins of the list that can be, if the list
contains what these depend on. -/
theorem mem_scheduled_iff {layers : Layers} (h : Layered plugins pluginList layers)
    (hexist : ∀ p ∈ pluginList, p ∈ plugins)
    (hclosed : ∀ p ∈ pluginList, Schedulable plugins p → ∀ d, DependsOn plugins p d → d ∈ pluginList)
    (hsaturated : ∀ p ∈ pluginList, (∀ d, DependsOn plugins p d → d ∈ layers.scheduled) →
      p ∈ layers.scheduled) (p : Plugin) :
    p ∈ layers.scheduled ↔ p ∈ pluginList ∧ Schedulable plugins p := by
  constructor
  · intro hp
    have hlist : ∀ q ∈ layers.scheduled, q ∈ pluginList := fun q hq => (h.mem q).2 (Or.inl hq)
    exact ⟨hlist p hp, h.ordered.resolvable h.scheduled (fun q hq => hexist q (hlist q hq)) p hp⟩
  · rintro ⟨hp, hschedulable⟩
    exact Dependencies.mem_of_saturated hclosed hsaturated p hp hschedulable

/-! ## The request -/

/-- The plugin list of `_smart_shuffle`. -/
def withMandatory (mandatory : Bool) (scheduled : List Plugin) : List Plugin :=
  if mandatory then scheduled ++ mandatoryPlugins else scheduled

theorem mem_withMandatory {p : Plugin} : p ∈ withMandatory mandatory scheduled ↔
    p ∈ scheduled ∨ mandatory = true ∧ p ∈ mandatoryPlugins := by
  unfold withMandatory
  cases mandatory <;> simp

/-- What is needed by a request is needed by the list or by the mandatory plugins. -/
theorem needed_requested_iff {p : Plugin} :
    Needed (DependsOn plugins) (Requested requested mandatory) p ↔
      Needed (DependsOn plugins) (· ∈ requested) p ∨
        mandatory = true ∧ Needed (DependsOn plugins) (· ∈ mandatoryPlugins) p := by
  constructor
  · rintro ⟨b, hb | ⟨hmandatory, hb⟩, hbp⟩
    · exact Or.inl ⟨b, hb, hbp⟩
    · exact Or.inr ⟨hmandatory, b, hb, hbp⟩
  · rintro (⟨b, hb, hbp⟩ | ⟨hmandatory, b, hb, hbp⟩)
    · exact ⟨b, Or.inl hb, hbp⟩
    · exact ⟨b, Or.inr ⟨hmandatory, hb⟩, hbp⟩

theorem scheduleAnalysisTasks_eq {rounds : Nat}
    (h : addDependenciesRecursively plugins requested rounds = some (.ok scheduled)) :
    scheduleAnalysisTasks shuffled plugins requested mandatory rounds =
      smartShuffle shuffled plugins (withMandatory mandatory scheduled) rounds := by
  simp only [scheduleAnalysisTasks, h]
  rfl

/-- The completed list is what the request needs. -/
theorem exists_completed
    (hneeded : ∀ p, Needed (DependsOn plugins) (· ∈ requested) p → p ∈ plugins) : ∃ scheduled,
    Loop.Terminates (addDependenciesRecursively plugins requested) (.ok scheduled) ∧
      ∀ p, p ∈ scheduled ↔ Needed (DependsOn plugins) (· ∈ requested) p := by
  obtain ⟨_, hterminates, scheduled, rfl, hcompleting, hclosed⟩ :=
    addDependenciesRecursively_total hneeded
  refine ⟨scheduled, hterminates, fun p => ⟨hcompleting.needed p, fun hp => ?_⟩⟩
  exact hp.mem hclosed hcompleting.contains

theorem meetsRequest_of_complete (h : Complete plugins requested mandatory) :
    MeetsRequest shuffled plugins requested mandatory := by
  obtain ⟨scheduled, ⟨n, hn⟩, hscheduled⟩ := exists_completed h.needed
  have hexist : ∀ p ∈ withMandatory mandatory scheduled, p ∈ plugins := by
    intro p hp
    rcases mem_withMandatory.1 hp with hp | ⟨hmandatory, hp⟩
    · exact h.needed p ((hscheduled p).1 hp)
    · exact h.mandatoryExist hmandatory p hp
  -- among the plugins that can be scheduled, the list is what the request needs
  have hlist : ∀ p, Schedulable plugins p → (p ∈ withMandatory mandatory scheduled ↔
      Needed (DependsOn plugins) (Requested requested mandatory) p) := by
    intro p hschedulable
    rw [mem_withMandatory, hscheduled, needed_requested_iff]
    constructor
    · exact Or.imp id fun hp => ⟨hp.1, Dependencies.needed_of_start hp.2⟩
    · rintro (hp | ⟨hmandatory, hp⟩)
      · exact Or.inl hp
      · exact (h.mandatoryNeeds hmandatory p hp hschedulable).symm.imp id fun hp => ⟨hmandatory, hp⟩
  have hclosed : ∀ p ∈ withMandatory mandatory scheduled, Schedulable plugins p →
      ∀ d, DependsOn plugins p d → d ∈ withMandatory mandatory scheduled := by
    intro p hp hschedulable d hpd
    rw [hlist d (hschedulable.dependency hpd)]
    exact Dependencies.needed_closed _ p d ((hlist p hschedulable).1 hp) hpd
  obtain ⟨layers, ⟨k, hk⟩, hlayered, hsaturated⟩ := smartShuffle_saturated shuffled hexist
  have hmem := mem_scheduled_iff hlayered hexist hclosed hsaturated
  have hperm := assureFileTypeIsFirst_perm layers.scheduled
  refine ⟨_, ⟨max n k, fun m hm => ?_⟩, hperm.nodup_iff.2 hlayered.scheduled, fun p => ?_, ?_⟩
  · rw [scheduleAnalysisTasks_eq (hn m (by omega))]
    exact hk m (by omega)
  · rw [hperm.mem_iff, hmem]
    exact and_congr_left (hlist p)
  · by_cases hfileType : "file_type" ∈ layers.scheduled
    · obtain ⟨hneeded, hschedulable⟩ := (hmem _).1 hfileType
      exact assureFileTypeIsFirst_ordered
        (h.fileType ((hlist _ hschedulable).1 hneeded) hschedulable) hlayered.ordered
    · rw [assureFileTypeIsFirst, if_neg fun hnot => hfileType hnot.1]
      exact hlayered.ordered

theorem complete_of_meetsRequest (h : MeetsRequest shuffled plugins requested mandatory) :
    Complete plugins requested mandatory := by
  obtain ⟨schedule, ⟨n, hn⟩, -, hmem, hordered⟩ := h
  have hok := hn n (Nat.le_refl n)
  cases hadd : addDependenciesRecursively plugins requested n with
  | none => simp [scheduleAnalysisTasks, hadd] at hok
  | some result =>
      cases result with
      | error e => simp [scheduleAnalysisTasks, hadd] at hok
      | ok scheduled =>
          have hneeded := needed_exist hadd
          obtain ⟨scheduled', hterminates, hscheduled⟩ := exists_completed hneeded
          have hsame : Except.ok scheduled = Except.ok scheduled' :=
            (Loop.terminates_of_iterate hadd).unique hterminates
          obtain rfl := Except.ok.inj hsame
          rw [scheduleAnalysisTasks_eq hadd] at hok
          obtain ⟨layers, hlayered, -, rfl⟩ := smartShuffle_ok hok
          have hperm := assureFileTypeIsFirst_perm layers.scheduled
          have hexist := pluginList_exist hok
          constructor
          · exact hneeded
          · exact fun hmandatory p hp => hexist p (mem_withMandatory.2 (Or.inr ⟨hmandatory, hp⟩))
          · intro hmandatory p hp hschedulable
            have hin := (hmem p).2 ⟨needed_requested_iff.2 (Or.inr ⟨hmandatory, hp⟩), hschedulable⟩
            have hlist := (hlayered.mem p).2 (Or.inl (hperm.mem_iff.1 hin))
            rcases mem_withMandatory.1 hlist with hscheduledp | ⟨-, hmandatoryp⟩
            · exact Or.inr ((hscheduled p).1 hscheduledp)
            · exact Or.inl hmandatoryp
          · intro hfileType hschedulable
            have hin := (hmem _).2 ⟨hfileType, hschedulable⟩
            obtain ⟨rest, hrest⟩ := List.getLast?_eq_some_iff.1 (assureFileTypeIsFirst_last hin)
            rw [hrest] at hordered
            exact hordered.last_free

/-- The request is met iff it is complete, however the plugins are shuffled. -/
theorem meetsRequest_iff : MeetsRequest shuffled plugins requested mandatory ↔
    Complete plugins requested mandatory :=
  ⟨complete_of_meetsRequest, meetsRequest_of_complete⟩

/-! ## A dependency that could not be loaded -/

/-- A plugin whose dependency is missing. -/
def missingDependency : Plugins where
  items := [("impossible", basicMetadata ["impossible to meet"]), ("file_type", basicMetadata [])]
  nodup := by decide

/-- Scheduling raises a `KeyError` with every bound that is large enough. -/
theorem missingDependency_raises (rounds : Nat) :
    scheduleAnalysisTasks unshuffled missingDependency ["impossible"] false (rounds + 2) =
      some (.error (.keyError "impossible to meet")) := by
  simp only [scheduleAnalysisTasks, addDependenciesRecursively, Loop.iterate]
  rfl

theorem missingDependency_not_met :
    ¬ MeetsRequest unshuffled missingDependency ["impossible"] false := by
  rintro ⟨schedule, ⟨n, hn⟩, -⟩
  have hraises := missingDependency_raises n
  rw [hn (n + 2) (by omega)] at hraises
  cases hraises

end TaskScheduler

end FactCore
