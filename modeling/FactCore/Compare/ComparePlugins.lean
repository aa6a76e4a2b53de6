import FactCore.Lib.Dependencies
import FactCore.Lib.Dict

/-! # Scheduling of the comparison plugins

`compare/compare.py`: `schedule_comparison_plugins` sorts the plugins by a depth-first
search. A plugin that cannot be scheduled raises an exception, which ends the search
for the plugin at which it was started; the temporary marks on the path to the exception
stay. It is shown that they stay on plugins only that cannot be scheduled either.

The recursion has a bound on its depth; one more than there are plugins is enough.
-/

namespace FactCore

namespace Compare

/-- What the schedule reads of a comparison plugin. -/
structure ComparePlugin where
  name : String
  comparisonDeps : List String
deriving DecidableEq, Repr

/-- `compare_plugins`, in which every plugin stands under its name. -/
structure PluginDict where
  dict : Dict String ComparePlugin
  name_eq : ∀ name plugin, dict.get? name = some plugin → plugin.name = name

/-- `self.compare_plugins[plugin.NAME] = plugin`. -/
def PluginDict.add (plugins : PluginDict) (plugin : ComparePlugin) : PluginDict where
  dict := plugins.dict.set plugin.name plugin
  name_eq := by
    intro name p hp
    rw [Dict.get?_set] at hp
    split at hp
    · rename_i hname
      cases hp
      exact hname.symm
    · exact plugins.name_eq name p hp

/-- `_init_plugins`. -/
def initPlugins (discovered : List ComparePlugin) : PluginDict :=
  discovered.foldl PluginDict.add ⟨∅, fun _ _ h => by cases h⟩

/-- The two messages of the `ValueError`. -/
inductive ScheduleError where
  /-- Cyclic dependency or dependency cannot be scheduled -/
  | cyclic
  /-- Unknown dependency -/
  | unknown (dependency : String)
deriving DecidableEq, Repr

/-- The variables around `visit`. -/
structure Marks where
  visited : Finset String
  tempMark : Finset String
  sortedPlugins : List ComparePlugin

/-- A call changes the marks, and it returns or raises. -/
abbrev Visit := Marks × Except ScheduleError Unit

/-- The loop of `visit` over the dependencies of a plugin. -/
def visitDependencies (plugins : PluginDict) (visit : ComparePlugin → Marks → Option Visit) :
    List String → Marks → Option Visit
  | [], s => some (s, .ok ())
  | dependency :: rest, s =>
      match plugins.dict.get? dependency with
      | none => some (s, .error (.unknown dependency))
      | some plugin =>
          match visit plugin s with
          | none => none
          | some (s, .error e) => some (s, .error e)
          | some (s, .ok ()) => visitDependencies plugins visit rest s

/-- `visit`. -/
def visit (plugins : PluginDict) : Nat → ComparePlugin → Marks → Option Visit
  | 0, _, _ => none
  | n + 1, plugin, s =>
      if plugin.name ∈ s.tempMark then some (s, .error .cyclic)
      else if plugin.name ∉ s.visited then
        match visitDependencies plugins (visit plugins n) plugin.comparisonDeps
            { s with tempMark := insert plugin.name s.tempMark } with
        | none => none
        | some (s, .error e) => some (s, .error e)
        | some (s, .ok ()) => some ({
            visited := insert plugin.name s.visited
            tempMark := s.tempMark.erase plugin.name
            sortedPlugins := s.sortedPlugins ++ [plugin] }, .ok ())
      else some (s, .ok ())

/-- The loop over all plugins; an exception is logged. -/
def visitAll (plugins : PluginDict) (n : Nat) : List ComparePlugin → Marks → Option Marks
  | [], s => some s
  | plugin :: rest, s =>
      match visit plugins n plugin s with
      | none => none
      | some (s, _) => visitAll plugins n rest s

/-- `schedule_comparison_plugins`. -/
def scheduleComparisonPlugins (plugins : PluginDict) (n : Nat) : Option (List ComparePlugin) :=
  (visitAll plugins n plugins.dict.values ⟨∅, ∅, []⟩).map Marks.sortedPlugins

variable {plugins : PluginDict} {plugin : ComparePlugin} {s s' : Marks} {name : String} {n : Nat}

-- `a`, `b` and `c` form a cycle, `e` depends on it
example : scheduleComparisonPlugins
    (initPlugins [⟨"a", ["b"]⟩, ⟨"b", ["c"]⟩, ⟨"c", ["a"]⟩, ⟨"d", []⟩, ⟨"e", ["b"]⟩]) 6 =
      some [⟨"d", []⟩] := by decide

/-! ## The dependency graph -/

/-- A plugin of the dictionary depends on a name. -/
def DependsOn (plugins : PluginDict) (a b : String) : Prop :=
  ∃ plugin, plugins.dict.get? a = some plugin ∧ b ∈ plugin.comparisonDeps

/-- All that a plugin needs, itself included, exists and lies on no cycle. -/
def Schedulable (plugins : PluginDict) (name : String) : Prop :=
  Dependencies.Resolvable (DependsOn plugins) (· ∈ plugins.dict) name

theorem get?_name (h : plugins.dict.get? name = some plugin) :
    plugins.dict.get? plugin.name = some plugin := by
  rw [plugins.name_eq name plugin h]
  exact h

theorem dependsOn_iff (h : plugins.dict.get? name = some plugin) {b : String} :
    DependsOn plugins name b ↔ b ∈ plugin.comparisonDeps := by
  constructor
  · rintro ⟨plugin', h', hb⟩
    rw [h] at h'
    cases h'
    exact hb
  · exact fun hb => ⟨plugin, h, hb⟩

/-- What needs itself cannot be scheduled. -/
theorem not_schedulable_of_cycle (h : Relation.TransGen (DependsOn plugins) name name) :
    ¬Schedulable plugins name :=
  fun hname => (hname name Relation.ReflTransGen.refl).2 h

theorem not_schedulable_of_dependency {a b : String} (hab : DependsOn plugins a b)
    (hb : ¬Schedulable plugins b) : ¬Schedulable plugins a :=
  fun ha => hb (ha.dependency hab)

theorem not_schedulable_of_unknown (h : name ∉ plugins.dict) : ¬Schedulable plugins name :=
  fun hname => h (hname name Relation.ReflTransGen.refl).1

/-! ## What a visit keeps -/

/-- The plugins that were sorted are the visited ones, each of them once and behind its
dependencies; none of them has a temporary mark. -/
structure Inv (plugins : PluginDict) (s : Marks) : Prop where
  known : ∀ plugin ∈ s.sortedPlugins, plugins.dict.get? plugin.name = some plugin
  visited : ∀ name, name ∈ s.visited ↔ name ∈ s.sortedPlugins.map ComparePlugin.name
  nodup : (s.sortedPlugins.map ComparePlugin.name).Nodup
  ordered : Dependencies.Ordered (DependsOn plugins) (s.sortedPlugins.map ComparePlugin.name).reverse
  unmarked : ∀ name ∈ s.tempMark, name ∉ s.visited

/-- What a visit leaves: nothing visited is lost, marks are added to plugins only that
cannot be scheduled, and the plugin was visited or cannot be scheduled. -/
structure Step (plugins : PluginDict) (s s' : Marks) (name : String) (result : Except ScheduleError Unit) :
    Prop where
  inv : Inv plugins s'
  visited : s.visited ⊆ s'.visited
  marked : s.tempMark ⊆ s'.tempMark
  stuck : ∀ t ∈ s'.tempMark, t ∈ s.tempMark ∨ ¬Schedulable plugins t
  done : result = .ok () → s'.tempMark = s.tempMark ∧ name ∈ s'.visited
  failed : ∀ e, result = .error e → ¬Schedulable plugins name

/-- The plugins without a temporary mark; their number bounds the depth of the search. -/
def unmarkedPlugins (plugins : PluginDict) (s : Marks) : Finset String :=
  plugins.dict.keys.toFinset \ s.tempMark

theorem unmarkedPlugins_insert (hname : name ∈ plugins.dict) (hmark : name ∉ s.tempMark) :
    (unmarkedPlugins plugins { s with tempMark := insert name s.tempMark }).card + 1 =
      (unmarkedPlugins plugins s).card := by
  have herase : unmarkedPlugins plugins { s with tempMark := insert name s.tempMark } =
      (unmarkedPlugins plugins s).erase name := by
    ext a
    simp only [unmarkedPlugins, Finset.mem_sdiff, Finset.mem_insert, Finset.mem_erase]
    tauto
  have hmem : name ∈ unmarkedPlugins plugins s :=
    Finset.mem_sdiff.2 ⟨List.mem_toFinset.2 (Dict.mem_keys.2 hname), hmark⟩
  rw [herase, Finset.card_erase_add_one hmem]

/-- The temporary marks are on the path to a plugin or on plugins that cannot be scheduled. -/
def OnPath (plugins : PluginDict) (s : Marks) (name : String) : Prop :=
  ∀ t ∈ s.tempMark, Relation.TransGen (DependsOn plugins) t name ∨ ¬Schedulable plugins t

/-- A plugin whose dependencies were all visited is sorted behind them. -/
theorem Inv.push (h : Inv plugins s) (hplugin : plugins.dict.get? plugin.name = some plugin)
    (hmark : plugin.name ∈ s.tempMark) (hdeps : ∀ d ∈ plugin.comparisonDeps, d ∈ s.visited) :
    Inv plugins ⟨insert plugin.name s.visited, s.tempMark.erase plugin.name, s.sortedPlugins ++ [plugin]⟩ where
  known := by
    intro p hp
    rcases List.mem_append.1 hp with hp | hp
    · exact h.known p hp
    · obtain rfl := List.mem_singleton.1 hp
      exact hplugin
  visited := by
    intro name
    rw [Finset.mem_insert, List.map_append, List.mem_append, h.visited, or_comm]
    simp
  nodup := by
    have hnew : plugin.name ∉ s.sortedPlugins.map ComparePlugin.name := by
      rw [← h.visited]
      exact h.unmarked _ hmark
    rw [List.map_append]
    exact h.nodup.append (List.nodup_singleton _) (List.disjoint_singleton.2 hnew)
  ordered := by
    rw [List.map_append, List.reverse_append]
    refine ⟨fun b hb => ?_, h.ordered⟩
    show b ∈ (s.sortedPlugins.map ComparePlugin.name).reverse
    rw [List.mem_reverse, ← h.visited]
    exact hdeps b ((dependsOn_iff hplugin).1 hb)
  unmarked := by
    intro name hname
    obtain ⟨hne, hname⟩ := Finset.mem_erase.1 hname
    rw [Finset.mem_insert, not_or]
    exact ⟨hne, h.unmarked name hname⟩

/-- The loop over some dependencies of a plugin, if the visits with the marks `marks` are
right: all of them are visited, or the plugin cannot be scheduled. -/
theorem visitDependencies_spec {marks : Finset String} (visitOne : ComparePlugin → Marks → Option Visit)
    (deps : List String)
    (hvisit : ∀ d p s, plugins.dict.get? d = some p → Inv plugins s → OnPath plugins s d →
      s.tempMark = marks → ∃ s' r, visitOne p s = some (s', r) ∧ Step plugins s s' d r)
    (hdeps : ∀ d ∈ deps, DependsOn plugins name d) (hinv : Inv plugins s) (hmarks : s.tempMark = marks)
    (hpath : ∀ t ∈ marks, t = name ∨ Relation.TransGen (DependsOn plugins) t name ∨ ¬Schedulable plugins t) :
    ∃ s' r, visitDependencies plugins visitOne deps s = some (s', r) ∧ Inv plugins s' ∧
      s.visited ⊆ s'.visited ∧ s.tempMark ⊆ s'.tempMark ∧
      (∀ t ∈ s'.tempMark, t ∈ s.tempMark ∨ ¬Schedulable plugins t) ∧
      (r = .ok () → s'.tempMark = s.tempMark ∧ ∀ d ∈ deps, d ∈ s'.visited) ∧
      ∀ e, r = .error e → ¬Schedulable plugins name := by
  induction deps generalizing s with
  | nil =>
      refine ⟨s, .ok (), rfl, hinv, Finset.Subset.refl _, Finset.Subset.refl _, fun t ht => Or.inl ht, ?_, ?_⟩
      · exact fun _ => ⟨rfl, fun d hd => absurd hd List.not_mem_nil⟩
      · intro e he
        cases he
  | cons d rest ih =>
      have hd : DependsOn plugins name d := hdeps d List.mem_cons_self
      rw [visitDependencies]
      cases hget : plugins.dict.get? d with
      | none =>
          refine ⟨s, _, rfl, hinv, Finset.Subset.refl _, Finset.Subset.refl _, fun t ht => Or.inl ht, ?_, ?_⟩
          · intro hok
            cases hok
          · intro e _
            exact not_schedulable_of_dependency hd (not_schedulable_of_unknown (Dict.notMem_iff.2 hget))
      | some p =>
          -- every mark is on the path to the dependency, too
          have hpath' : OnPath plugins s d := by
            intro t ht
            rw [hmarks] at ht
            rcases hpath t ht with rfl | hreach | hstuck
            · exact Or.inl (Relation.TransGen.single hd)
            · exact Or.inl (hreach.tail hd)
            · exact Or.inr hstuck
          obtain ⟨s₁, r₁, hone, hstep⟩ := hvisit d p s hget hinv hpath' hmarks
          dsimp only
          rw [hone]
          cases r₁ with
          | error e =>
              refine ⟨s₁, .error e, rfl, hstep.inv, hstep.visited, hstep.marked, hstep.stuck, ?_, ?_⟩
              · intro hok
                cases hok
              · intro _ _
                exact not_schedulable_of_dependency hd (hstep.failed e rfl)
          | ok u =>
              obtain ⟨htemp, hvisited⟩ := hstep.done rfl
              obtain ⟨s₂, r₂, hrest, hinv₂, hvisited₂, hmarked₂, hstuck₂, hdone₂, hfailed₂⟩ :=
                ih (fun d' hd' => hdeps d' (List.mem_cons_of_mem _ hd')) hstep.inv (htemp.trans hmarks)
              rw [htemp] at hmarked₂ hstuck₂ hdone₂
              refine ⟨s₂, r₂, hrest, hinv₂, hstep.visited.trans hvisited₂, hmarked₂, hstuck₂, ?_, hfailed₂⟩
              intro hok
              obtain ⟨htemp₂, hall₂⟩ := hdone₂ hok
              refine ⟨htemp₂, fun d' hd' => ?_⟩
              rcases List.mem_cons.1 hd' with rfl | hd'
              · exact hvisited₂ hvisited
              · exact hall₂ d' hd'

/-- A visit ends, keeps the invariant, and visits the plugin unless it cannot be scheduled. -/
theorem visit_spec (hplugin : plugins.dict.get? plugin.name = some plugin) (hinv : Inv plugins s)
    (hpath : OnPath plugins s plugin.name) (hn : (unmarkedPlugins plugins s).card < n) :
    ∃ s' r, visit plugins n plugin s = some (s', r) ∧ Step plugins s s' plugin.name r := by
  induction n generalizing plugin s with
  | zero => omega
  | succ n ih =>
      rw [visit]
      by_cases hmark : plugin.name ∈ s.tempMark
      · rw [if_pos hmark]
        refine ⟨s, _, rfl, hinv, Finset.Subset.refl _, Finset.Subset.refl _, fun t ht => Or.inl ht, ?_, ?_⟩
        · intro hok
          cases hok
        · intro _ _
          rcases hpath _ hmark with hcycle | hstuck
          · exact not_schedulable_of_cycle hcycle
          · exact hstuck
      rw [if_neg hmark]
      by_cases hvisited : plugin.name ∈ s.visited
      · rw [if_neg (not_not_intro hvisited)]
        refine ⟨s, _, rfl, hinv, Finset.Subset.refl _, Finset.Subset.refl _, fun t ht => Or.inl ht, ?_, ?_⟩
        · exact fun _ => ⟨rfl, hvisited⟩
        · intro e he
          cases he
      rw [if_pos hvisited]
      have hknown : plugin.name ∈ plugins.dict := Dict.mem_of_get? hplugin
      have hcard := unmarkedPlugins_insert (s := s) hknown hmark
      have hinv' : Inv plugins { s with tempMark := insert plugin.name s.tempMark } := by
        refine ⟨hinv.known, hinv.visited, hinv.nodup, hinv.ordered, ?_⟩
        intro t ht
        rcases Finset.mem_insert.1 ht with rfl | ht
        · exact hvisited
        · exact hinv.unmarked t ht
      have hpath' : ∀ t ∈ insert plugin.name s.tempMark, t = plugin.name ∨
          Relation.TransGen (DependsOn plugins) t plugin.name ∨ ¬Schedulable plugins t := by
        intro t ht
        rcases Finset.mem_insert.1 ht with rfl | ht
        · exact Or.inl rfl
        · exact Or.inr (hpath t ht)
      -- deeper visits have the mark of this plugin, so fewer plugins are left without one
      have hdeeper : ∀ d p s₀, plugins.dict.get? d = some p → Inv plugins s₀ → OnPath plugins s₀ d →
          s₀.tempMark = insert plugin.name s.tempMark →
            ∃ s' r, visit plugins n p s₀ = some (s', r) ∧ Step plugins s₀ s' d r := by
        intro d p s₀ hp hinv₀ hpath₀ htemp₀
        have hname : p.name = d := plugins.name_eq d p hp
        have hcard₀ : unmarkedPlugins plugins s₀ =
            unmarkedPlugins plugins { s with tempMark := insert plugin.name s.tempMark } := by
          rw [unmarkedPlugins, unmarkedPlugins, htemp₀]
        rw [← hname] at hp hpath₀ ⊢
        refine ih hp hinv₀ hpath₀ ?_
        rw [hcard₀]
        omega
      obtain ⟨s', r, hdeps, hinv₁, hvisited₁, hmarked₁, hstuck₁, hdone₁, hfailed₁⟩ :=
        visitDependencies_spec (visit plugins n) plugin.comparisonDeps hdeeper
          (fun d hd => (dependsOn_iff hplugin).2 hd) hinv' rfl hpath'
      rw [hdeps]
      cases r with
      | error e =>
          refine ⟨s', .error e, rfl, hinv₁, hvisited₁, ?_, ?_, ?_, hfailed₁⟩
          · exact (Finset.subset_insert _ _).trans hmarked₁
          · intro t ht
            rcases hstuck₁ t ht with hold | hstuck
            · rcases Finset.mem_insert.1 hold with rfl | hold
              · exact Or.inr (hfailed₁ e rfl)
              · exact Or.inl hold
            · exact Or.inr hstuck
          · intro hok
            cases hok
      | ok u =>
          obtain ⟨htemp, hall⟩ := hdone₁ rfl
          have herase : s'.tempMark.erase plugin.name = s.tempMark := by
            rw [htemp]
            exact Finset.erase_insert hmark
          have hpush := hinv₁.push hplugin (by rw [htemp]; exact Finset.mem_insert_self _ _) hall
          refine ⟨_, _, rfl, hpush, ?_, ?_, ?_, ?_, ?_⟩
          · exact hvisited₁.trans (Finset.subset_insert _ _)
          · exact herase.symm.subset
          · exact fun t ht => Or.inl (herase.subset ht)
          · exact fun _ => ⟨herase, Finset.mem_insert_self _ _⟩
          · intro e he
            cases he

/-! ## The bound on the depth -/

theorem visitDependencies_mono {visitOne visitMore : ComparePlugin → Marks → Option Visit}
    (hvisit : ∀ p s v, visitOne p s = some v → visitMore p s = some v) {deps : List String} {v : Visit}
    (h : visitDependencies plugins visitOne deps s = some v) :
    visitDependencies plugins visitMore deps s = some v := by
  induction deps generalizing s with
  | nil => exact h
  | cons d rest ih =>
      rw [visitDependencies] at h ⊢
      cases hget : plugins.dict.get? d with
      | none =>
          rw [hget] at h
          exact h
      | some p =>
          rw [hget] at h
          dsimp only at h ⊢
          cases hone : visitOne p s with
          | none =>
              rw [hone] at h
              cases h
          | some v₁ =>
              obtain ⟨s₁, r⟩ := v₁
              rw [hone] at h
              rw [hvisit p s _ hone]
              cases r with
              | error e => exact h
              | ok u => exact ih h

/-- A larger bound does not change what a visit does. -/
theorem visit_mono {v : Visit} (h : visit plugins n plugin s = some v) :
    visit plugins (n + 1) plugin s = some v := by
  induction n generalizing plugin s v with
  | zero => cases h
  | succ n ih =>
      rw [visit] at h ⊢
      split at h
      · rename_i hmark
        rw [if_pos hmark]
        exact h
      rename_i hmark
      rw [if_neg hmark]
      split at h
      · rename_i hvisited
        rw [if_pos hvisited]
        cases hdeps : visitDependencies plugins (visit plugins n) plugin.comparisonDeps
            { s with tempMark := insert plugin.name s.tempMark } with
        | none =>
            rw [hdeps] at h
            cases h
        | some v₁ =>
            rw [hdeps] at h
            rw [visitDependencies_mono (fun p s v => ih) hdeps]
            exact h
      · rename_i hvisited
        rw [if_neg hvisited]
        exact h

theorem visitAll_mono {l : List ComparePlugin} (h : visitAll plugins n l s = some s') :
    visitAll plugins (n + 1) l s = some s' := by
  induction l generalizing s with
  | nil => exact h
  | cons plugin rest ih =>
      rw [visitAll] at h ⊢
      cases hvisit : visit plugins n plugin s with
      | none =>
          rw [hvisit] at h
          cases h
      | some v =>
          obtain ⟨s₁, r⟩ := v
          rw [hvisit] at h
          rw [visit_mono hvisit]
          exact ih h

/-! ## The schedule -/

/-- All plugins are visited or cannot be scheduled, and the marks that are left are on
plugins that cannot. -/
theorem visitAll_spec {l : List ComparePlugin} (hl : ∀ p ∈ l, plugins.dict.get? p.name = some p)
    (hinv : Inv plugins s) (hstuck : ∀ t ∈ s.tempMark, ¬Schedulable plugins t)
    (hn : plugins.dict.keys.length < n) :
    ∃ s', visitAll plugins n l s = some s' ∧ Inv plugins s' ∧ s.visited ⊆ s'.visited ∧
      ∀ p ∈ l, Schedulable plugins p.name → p.name ∈ s'.visited := by
  induction l generalizing s with
  | nil => exact ⟨s, rfl, hinv, Finset.Subset.refl _, fun p hp => absurd hp List.not_mem_nil⟩
  | cons plugin rest ih =>
      have hcard : (unmarkedPlugins plugins s).card < n := by
        have hle : (unmarkedPlugins plugins s).card ≤ plugins.dict.keys.toFinset.card :=
          Finset.card_le_card Finset.sdiff_subset
        have hkeys := plugins.dict.keys.toFinset_card_le
        omega
      obtain ⟨s₁, r, hvisit, hstep⟩ := visit_spec (hl plugin List.mem_cons_self) hinv
        (fun t ht => Or.inr (hstuck t ht)) hcard
      have hstuck₁ : ∀ t ∈ s₁.tempMark, ¬Schedulable plugins t := by
        intro t ht
        rcases hstep.stuck t ht with hold | hnew
        · exact hstuck t hold
        · exact hnew
      obtain ⟨s₂, hrest, hinv₂, hvisited₂, hall₂⟩ :=
        ih (fun p hp => hl p (List.mem_cons_of_mem _ hp)) hstep.inv hstuck₁
      refine ⟨s₂, ?_, hinv₂, hstep.visited.trans hvisited₂, ?_⟩
      · rw [visitAll, hvisit]
        exact hrest
      · intro p hp hschedulable
        rcases List.mem_cons.1 hp with rfl | hp
        · cases r with
          | ok u => exact hvisited₂ (hstep.done rfl).2
          | error e => exact absurd hschedulable (hstep.failed e rfl)
        · exact hall₂ p hp hschedulable

/-- A schedule of comparison plugins is right if it lists exactly the plugins that can be
scheduled, each of them once and after all of its dependencies. -/
structure RightSchedule (plugins : PluginDict) (schedule : List ComparePlugin) : Prop where
  nodup : (schedule.map ComparePlugin.name).Nodup
  mem : ∀ plugin, plugin ∈ schedule ↔
    plugins.dict.get? plugin.name = some plugin ∧ Schedulable plugins plugin.name
  after : ∀ before plugin behind, schedule = before ++ plugin :: behind →
    ∀ dependency ∈ plugin.comparisonDeps, ∃ p ∈ before, p.name = dependency

/-- What the invariant says about a search that has visited everything it can. -/
theorem Inv.right (h : Inv plugins s)
    (hall : ∀ name ∈ plugins.dict, Schedulable plugins name → name ∈ s.visited) :
    RightSchedule plugins s.sortedPlugins where
  nodup := h.nodup
  mem := by
    intro plugin
    constructor
    · intro hplugin
      refine ⟨h.known plugin hplugin, ?_⟩
      refine h.ordered.resolvable (List.nodup_reverse.2 h.nodup) ?_ plugin.name ?_
      · intro a ha
        obtain ⟨p, hp, rfl⟩ := List.mem_map.1 (List.mem_reverse.1 ha)
        exact Dict.mem_of_get? (h.known p hp)
      · exact List.mem_reverse.2 (List.mem_map_of_mem hplugin)
    · rintro ⟨hknown, hschedulable⟩
      have hvisited := hall plugin.name (Dict.mem_of_get? hknown) hschedulable
      obtain ⟨p, hp, hname⟩ := List.mem_map.1 ((h.visited plugin.name).1 hvisited)
      have hp' := h.known p hp
      rw [hname, hknown] at hp'
      cases hp'
      exact hp
  after := by
    intro before plugin behind hsplit dependency hdependency
    have hplugin : plugin ∈ s.sortedPlugins := by
      rw [hsplit]
      exact List.mem_append_right _ List.mem_cons_self
    have hordered := h.ordered
    rw [hsplit, List.map_append, List.map_cons, List.reverse_append, List.reverse_cons,
      List.append_assoc] at hordered
    have hbefore : dependency ∈ (before.map ComparePlugin.name).reverse :=
      hordered.split dependency ((dependsOn_iff (h.known plugin hplugin)).2 hdependency)
    exact List.mem_map.1 (List.mem_reverse.1 hbefore)

/-- The search ends with the right schedule, in whatever order the dictionary is. -/
theorem scheduleComparisonPlugins_right (plugins : PluginDict) :
    ∃ schedule, RightSchedule plugins schedule ∧
      ∀ n, plugins.dict.keys.length < n → scheduleComparisonPlugins plugins n = some schedule := by
  have hvalues : ∀ p ∈ plugins.dict.values, plugins.dict.get? p.name = some p := by
    intro p hp
    obtain ⟨name, hname⟩ := Dict.mem_values.1 hp
    exact get?_name hname
  have hstart : Inv plugins ⟨∅, ∅, []⟩ := by
    refine ⟨fun p hp => absurd hp List.not_mem_nil, fun name => ?_, List.nodup_nil, trivial, ?_⟩
    · simp
    · exact fun name hname => absurd hname (Finset.notMem_empty name)
  obtain ⟨s, hs, hinv, -, hall⟩ := visitAll_spec hvalues hstart
    (fun t ht => absurd ht (Finset.notMem_empty t)) (Nat.lt_succ_self plugins.dict.keys.length)
  refine ⟨s.sortedPlugins, hinv.right fun name hname hschedulable => ?_, fun n hn => ?_⟩
  · obtain ⟨p, hp⟩ := Dict.mem_iff.1 hname
    have hvisited := hall p (Dict.mem_values.2 ⟨name, hp⟩)
    rw [plugins.name_eq name p hp] at hvisited
    exact hvisited hschedulable
  · have hmono : visitAll plugins n plugins.dict.values ⟨∅, ∅, []⟩ = some s := by
      induction hn with
      | refl => exact hs
      | step _ ih => exact visitAll_mono ih
    rw [scheduleComparisonPlugins, hmono]
    rfl

end Compare

end FactCore
