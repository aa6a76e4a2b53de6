import FactCore.Unpacker.Unpack

/-! # The bookkeeping of the unpacking scheduler

The entry of a firmware in `currently_extracted` and what
`_update_currently_unpacked` and `_update_extracted_objects` of
`scheduler/unpacking_scheduler.py` make of it when a file was unpacked. The
calls to the database that they issue on the way are returned in their order;
none of them has an influence on the bookkeeping.

A found file is handled in one of three ways: it is being unpacked already, and
its new paths are delayed until it is in the database; it is new, and kept to be
unpacked; or it is done, and its new paths are written at once. `Delays` and
`Carries` say where a relation between two files is at any time, and
`updateExtractedObjects_carries` that none gets lost.
-/

namespace FactCore.Unpacking

/-- The entry of a firmware in `currently_extracted`. -/
structure CurrentlyUnpacked where
  remaining : Finset Uid
  done : Finset Uid
  /-- For a file that is being unpacked, its paths in the parents that found it. -/
  delayedVfpUpdate : Dict Uid (Dict Uid (List VPath))

/-- The entry that `_init_currently_unpacked` creates. -/
def CurrentlyUnpacked.new (uid : Uid) : CurrentlyUnpacked := ⟨{uid}, ∅, ∅⟩

/-- A call of a worker to its database interface. -/
inductive DbCall where
  | addVfp (parent child : Uid) (paths : List VPath)
  | addChildToParent (parent child : Uid)

/-- The two calls that record where a file was found. -/
def recordCalls (parent child : Uid) (paths : List VPath) : List DbCall :=
  [.addVfp parent child paths, .addChildToParent parent child]

/-- `delayed_vfp_update.setdefault(child, {})[parent] = paths`. -/
def CurrentlyUnpacked.delay (cu : CurrentlyUnpacked) (parent child : Uid) (paths : List VPath) :
    CurrentlyUnpacked :=
  { cu with
    delayedVfpUpdate := cu.delayedVfpUpdate.set child
      (((cu.delayedVfpUpdate.get? child).getD ∅).set parent paths) }

/-- The new entry, the extracted objects that are kept to be unpacked, and the
calls to the database. -/
structure Update where
  entry : CurrentlyUnpacked
  kept : List FileObject
  calls : List DbCall

/-- `_update_extracted_objects`. -/
def updateExtractedObjects (current : Uid) : List FileObject → CurrentlyUnpacked → Update
  | [], cu => ⟨cu, [], []⟩
  | fo :: rest, cu =>
      if fo.uid ∈ cu.remaining then
        updateExtractedObjects current rest (cu.delay current fo.uid (fo.pathsIn current))
      else if fo.uid ∉ cu.done then
        let u := updateExtractedObjects current rest
          { cu with remaining := insert fo.uid cu.remaining }
        { u with kept := fo :: u.kept }
      else
        let u := updateExtractedObjects current rest cu
        { u with calls := recordCalls current fo.uid (fo.pathsIn current) ++ u.calls }

/-- The calls for the delayed paths of a file. -/
def delayedCalls (cu : CurrentlyUnpacked) (uid : Uid) : List DbCall :=
  match cu.delayedVfpUpdate.get? uid with
  | none => []
  | some pathLists => pathLists.items.flatMap fun p => recordCalls p.1 uid p.2

/-- `_update_currently_unpacked` between reading the entry and writing it back. -/
def updateCurrentlyUnpacked (cu : CurrentlyUnpacked) (task : FileObject)
    (extracted : List FileObject) : Update :=
  let u := updateExtractedObjects task.uid extracted { cu with done := insert task.uid cu.done }
  { entry := { u.entry with remaining := u.entry.remaining.erase task.uid }
    kept := u.kept
    calls := delayedCalls cu task.uid ++ u.calls }

/-! ## Remaining and done -/

theorem updateExtractedObjects_done (current : Uid) (extracted : List FileObject)
    (cu : CurrentlyUnpacked) : (updateExtractedObjects current extracted cu).entry.done = cu.done := by
  induction extracted generalizing cu with
  | nil => rfl
  | cons fo rest ih =>
      simp only [updateExtractedObjects]
      split
      · exact ih _
      · split
        · exact ih _
        · exact ih _

theorem updateExtractedObjects_remaining (current : Uid) (extracted : List FileObject)
    (cu : CurrentlyUnpacked) :
    (updateExtractedObjects current extracted cu).entry.remaining =
      cu.remaining ∪ ((updateExtractedObjects current extracted cu).kept.map FileObject.uid).toFinset := by
  induction extracted generalizing cu with
  | nil => simp [updateExtractedObjects]
  | cons fo rest ih =>
      simp only [updateExtractedObjects]
      split
      · exact ih _
      · split
        · show (updateExtractedObjects current rest _).entry.remaining = _
          rw [ih]
          simp [Finset.insert_union, Finset.union_insert]
        · exact ih _

theorem updateExtractedObjects_kept (current : Uid) (extracted : List FileObject)
    (cu : CurrentlyUnpacked) :
    (updateExtractedObjects current extracted cu).kept.Sublist extracted := by
  induction extracted generalizing cu with
  | nil => exact List.Sublist.slnil
  | cons fo rest ih =>
      simp only [updateExtractedObjects]
      split
      · exact (ih _).cons _
      · split
        · exact (ih _).cons_cons _
        · exact (ih _).cons _

/-- The kept objects are new. -/
theorem updateExtractedObjects_new (current : Uid) {extracted : List FileObject}
    (cu : CurrentlyUnpacked) {fo : FileObject}
    (h : fo ∈ (updateExtractedObjects current extracted cu).kept) :
    fo.uid ∉ cu.remaining ∧ fo.uid ∉ cu.done := by
  induction extracted generalizing cu with
  | nil => cases h
  | cons g rest ih =>
      simp only [updateExtractedObjects] at h
      split at h
      · exact ih (cu.delay current g.uid (g.pathsIn current)) h
      · rename_i hrem
        split at h
        · rename_i hdone
          rcases List.mem_cons.1 h with rfl | hrest
          · exact ⟨hrem, hdone⟩
          · rcases ih _ hrest with ⟨hrem', hdone'⟩
            exact ⟨fun hmem => hrem' (Finset.mem_insert_of_mem hmem), hdone'⟩
        · exact ih _ h

/-- Every extracted object is remaining or done afterwards. -/
theorem updateExtractedObjects_known (current : Uid) {extracted : List FileObject}
    (cu : CurrentlyUnpacked) {fo : FileObject} (h : fo ∈ extracted) :
    fo.uid ∈ (updateExtractedObjects current extracted cu).entry.remaining ∨ fo.uid ∈ cu.done := by
  induction extracted generalizing cu with
  | nil => cases h
  | cons g rest ih =>
      have hgrow : ∀ cu', cu'.remaining ⊆
          (updateExtractedObjects current rest cu').entry.remaining := by
        intro cu'
        rw [updateExtractedObjects_remaining]
        exact Finset.subset_union_left
      simp only [updateExtractedObjects]
      rcases List.mem_cons.1 h with rfl | hrest
      · split
        · rename_i hrem
          exact Or.inl (hgrow _ hrem)
        · split
          · exact Or.inl (hgrow _ (Finset.mem_insert_self _ _))
          · rename_i hdone
            exact Or.inr (not_not.1 hdone)
      · split
        · exact ih (cu.delay current g.uid (g.pathsIn current)) hrest
        · split
          · exact ih { cu with remaining := insert g.uid cu.remaining } hrest
          · exact ih cu hrest

/-! ## Relations between files -/

/-- Something that the database shall hold about two files. -/
inductive Relation where
  | path (parent child : Uid) (path : VPath)
  | edge (parent child : Uid)

def Relation.parent : Relation → Uid
  | .path parent _ _ => parent
  | .edge parent _ => parent

def Relation.child : Relation → Uid
  | .path _ child _ => child
  | .edge _ child => child

/-- A list of paths says enough for the relation. -/
def Relation.In : Relation → List VPath → Prop
  | .path _ _ p, paths => p ∈ paths
  | .edge _ _, _ => True

/-- Saving the object writes the relation. -/
def Carries (fo : FileObject) (rel : Relation) : Prop :=
  fo.isFirmware = false ∧ fo.uid = rel.child ∧ rel.parent ∈ fo.parents ∧
    rel.In (fo.pathsIn rel.parent)

/-- The call writes the relation. -/
def DbCall.Carries : DbCall → Relation → Prop
  | .addVfp parent child paths, .path parent' child' path =>
      parent = parent' ∧ child = child' ∧ path ∈ paths
  | .addChildToParent parent child, .edge parent' child' => parent = parent' ∧ child = child'
  | _, _ => False

/-- The relation is delayed for a file that is not done yet. -/
def CurrentlyUnpacked.Delays (cu : CurrentlyUnpacked) (rel : Relation) : Prop :=
  rel.child ∈ cu.remaining ∧ ∃ pathLists paths, cu.delayedVfpUpdate.get? rel.child = some pathLists ∧
    pathLists.get? rel.parent = some paths ∧ rel.In paths

theorem recordCalls_carries {rel : Relation} {paths : List VPath} (h : rel.In paths) :
    ∃ call ∈ recordCalls rel.parent rel.child paths, call.Carries rel := by
  cases rel with
  | path parent child path => exact ⟨_, List.mem_cons_self, rfl, rfl, h⟩
  | edge parent child =>
      exact ⟨_, List.mem_cons_of_mem _ List.mem_cons_self, rfl, rfl⟩

/-- What is delayed for a file is written by the calls for it. -/
theorem delayedCalls_carries {cu : CurrentlyUnpacked} {rel : Relation} (h : cu.Delays rel) :
    ∃ call ∈ delayedCalls cu rel.child, call.Carries rel := by
  rcases h with ⟨-, pathLists, paths, hlists, hpaths, hin⟩
  rcases recordCalls_carries hin with ⟨call, hcall, hcarries⟩
  refine ⟨call, ?_, hcarries⟩
  simp only [delayedCalls, hlists, List.mem_flatMap]
  exact ⟨(rel.parent, paths), Dict.get?_eq_some_iff.1 hpaths, hcall⟩

theorem delay_self {cu : CurrentlyUnpacked} {rel : Relation} {paths : List VPath}
    (hrem : rel.child ∈ cu.remaining) (h : rel.In paths) :
    (cu.delay rel.parent rel.child paths).Delays rel :=
  ⟨hrem, _, paths, Dict.get?_set_self _ _ _, Dict.get?_set_self _ _ _, h⟩

/-- Delaying the paths of another pair of files keeps what is delayed. -/
theorem delay_keeps {cu : CurrentlyUnpacked} {rel : Relation} {parent child : Uid}
    (paths : List VPath) (hne : rel.parent ≠ parent ∨ rel.child ≠ child) (h : cu.Delays rel) :
    (cu.delay parent child paths).Delays rel := by
  rcases h with ⟨hrem, pathLists, paths', hlists, hpaths, hin⟩
  by_cases hchild : rel.child = child
  · have hparent : rel.parent ≠ parent := by
      rcases hne with hne | hne
      · exact hne
      · exact absurd hchild hne
    subst hchild
    refine ⟨hrem, ((cu.delayedVfpUpdate.get? rel.child).getD ∅).set parent paths, paths',
      Dict.get?_set_self _ _ _, ?_, hin⟩
    rw [hlists, Dict.get?_set_ne _ _ hparent]
    exact hpaths
  · exact ⟨hrem, pathLists, paths', by
      simp only [CurrentlyUnpacked.delay]
      rw [Dict.get?_set_ne _ _ hchild]
      exact hlists, hpaths, hin⟩

theorem insert_keeps {cu : CurrentlyUnpacked} {rel : Relation} (uid : Uid) (h : cu.Delays rel) :
    { cu with remaining := insert uid cu.remaining }.Delays rel :=
  ⟨Finset.mem_insert_of_mem h.1, h.2⟩

/-- What is delayed stays delayed, unless the current file or one with the same
uid as an extracted object replaces it. -/
theorem updateExtractedObjects_keeps {current : Uid} {extracted : List FileObject}
    {cu : CurrentlyUnpacked} {rel : Relation}
    (hne : rel.parent ≠ current ∨ rel.child ∉ extracted.map FileObject.uid) (h : cu.Delays rel) :
    (updateExtractedObjects current extracted cu).entry.Delays rel := by
  induction extracted generalizing cu with
  | nil => exact h
  | cons fo rest ih =>
      have hrest : rel.parent ≠ current ∨ rel.child ∉ rest.map FileObject.uid := by
        rcases hne with hne | hne
        · exact Or.inl hne
        · exact Or.inr fun hmem => hne (List.mem_cons_of_mem _ hmem)
      have hfo : rel.parent ≠ current ∨ rel.child ≠ fo.uid := by
        rcases hne with hne | hne
        · exact Or.inl hne
        · exact Or.inr fun heq => hne (heq ▸ List.mem_cons_self)
      simp only [updateExtractedObjects]
      split
      · exact ih hrest (delay_keeps _ hfo h)
      · split
        · exact ih hrest (insert_keeps _ h)
        · exact ih hrest h

/-- No relation of the extracted objects gets lost: it is kept with its object,
delayed, or written by a call. -/
theorem updateExtractedObjects_carries {current : Uid} {extracted : List FileObject}
    (hnodup : (extracted.map FileObject.uid).Nodup) (cu : CurrentlyUnpacked) {fo : FileObject}
    (hfo : fo ∈ extracted) {rel : Relation} (hparent : rel.parent = current)
    (hcarries : Carries fo rel) :
    (∃ g ∈ (updateExtractedObjects current extracted cu).kept, Carries g rel) ∨
      (updateExtractedObjects current extracted cu).entry.Delays rel ∨
      ∃ call ∈ (updateExtractedObjects current extracted cu).calls, call.Carries rel := by
  induction extracted generalizing cu with
  | nil => cases hfo
  | cons g rest ih =>
      simp only [List.map_cons, List.nodup_cons] at hnodup
      have hin : rel.In (fo.pathsIn current) := hparent ▸ hcarries.2.2.2
      simp only [updateExtractedObjects]
      rcases List.mem_cons.1 hfo with rfl | hrest
      · -- the first object: it is handled here, and no later one replaces its paths
        have hlater : rel.parent ≠ current ∨ rel.child ∉ rest.map FileObject.uid :=
          Or.inr (hcarries.2.1 ▸ hnodup.1)
        split
        · rename_i hrem
          refine Or.inr (Or.inl (updateExtractedObjects_keeps hlater ?_))
          rw [← hparent, hcarries.2.1]
          exact delay_self (hcarries.2.1 ▸ hrem) (hparent ▸ hin)
        · split
          · exact Or.inl ⟨fo, List.mem_cons_self, hcarries⟩
          · rcases recordCalls_carries hin with ⟨call, hcall, hcall'⟩
            refine Or.inr (Or.inr ⟨call, List.mem_append_left _ ?_, hcall'⟩)
            rw [← hparent, hcarries.2.1]
            exact hparent ▸ hcall
      · split
        · exact ih hnodup.2 _ hrest
        · split
          · rcases ih hnodup.2 _ hrest with ⟨k, hk, hk'⟩ | hother
            · exact Or.inl ⟨k, List.mem_cons_of_mem _ hk, hk'⟩
            · exact Or.inr hother
          · rcases ih hnodup.2 _ hrest with hkept | hdelays | ⟨call, hcall, hcall'⟩
            · exact Or.inl hkept
            · exact Or.inr (Or.inl hdelays)
            · exact Or.inr (Or.inr ⟨call, List.mem_append_right _ hcall, hcall'⟩)

/-! ## The whole update -/

theorem updateCurrentlyUnpacked_done (cu : CurrentlyUnpacked) (task : FileObject)
    (extracted : List FileObject) :
    (updateCurrentlyUnpacked cu task extracted).entry.done = insert task.uid cu.done :=
  updateExtractedObjects_done _ _ _

theorem updateCurrentlyUnpacked_remaining (cu : CurrentlyUnpacked) (task : FileObject)
    (extracted : List FileObject) :
    (updateCurrentlyUnpacked cu task extracted).entry.remaining =
      (cu.remaining ∪ ((updateCurrentlyUnpacked cu task extracted).kept.map
        FileObject.uid).toFinset).erase task.uid := by
  show (updateExtractedObjects _ _ _).entry.remaining.erase task.uid = _
  rw [updateExtractedObjects_remaining]
  rfl

theorem updateCurrentlyUnpacked_kept (cu : CurrentlyUnpacked) (task : FileObject)
    (extracted : List FileObject) :
    (updateCurrentlyUnpacked cu task extracted).kept.Sublist extracted :=
  updateExtractedObjects_kept _ _ _

theorem updateCurrentlyUnpacked_new {cu : CurrentlyUnpacked} {task : FileObject}
    {extracted : List FileObject} {fo : FileObject}
    (h : fo ∈ (updateCurrentlyUnpacked cu task extracted).kept) :
    fo.uid ∉ cu.remaining ∧ fo.uid ∉ cu.done ∧ fo.uid ≠ task.uid := by
  rcases updateExtractedObjects_new _ _ h with ⟨hrem, hdone⟩
  refine ⟨hrem, fun hmem => hdone (Finset.mem_insert_of_mem hmem), ?_⟩
  intro heq
  exact hdone (heq ▸ Finset.mem_insert_self _ _)

theorem updateCurrentlyUnpacked_known {cu : CurrentlyUnpacked} {task fo : FileObject}
    {extracted : List FileObject} (h : fo ∈ extracted) (hne : fo.uid ≠ task.uid) :
    fo.uid ∈ (updateCurrentlyUnpacked cu task extracted).entry.remaining ∨
      fo.uid ∈ (updateCurrentlyUnpacked cu task extracted).entry.done := by
  rcases updateExtractedObjects_known task.uid { cu with done := insert task.uid cu.done } h with
    hrem | hdone
  · exact Or.inl (Finset.mem_erase.2 ⟨hne, hrem⟩)
  · refine Or.inr ?_
    rw [updateCurrentlyUnpacked_done]
    exact hdone

/-- What the old entry delays is delayed by the new one or written by a call,
provided that the task was not recorded as a parent before. -/
theorem updateCurrentlyUnpacked_keeps {cu : CurrentlyUnpacked} {task : FileObject}
    (extracted : List FileObject) {rel : Relation} (hne : rel.parent ≠ task.uid)
    (h : cu.Delays rel) :
    (updateCurrentlyUnpacked cu task extracted).entry.Delays rel ∨
      ∃ call ∈ (updateCurrentlyUnpacked cu task extracted).calls, call.Carries rel := by
  by_cases hchild : rel.child = task.uid
  · rcases delayedCalls_carries h with ⟨call, hcall, hcarries⟩
    refine Or.inr ⟨call, List.mem_append_left _ ?_, hcarries⟩
    rw [← hchild]
    exact hcall
  · have hdelays : (updateExtractedObjects task.uid extracted
        { cu with done := insert task.uid cu.done }).entry.Delays rel :=
      updateExtractedObjects_keeps (Or.inl hne) h
    exact Or.inl ⟨Finset.mem_erase.2 ⟨hchild, hdelays.1⟩, hdelays.2⟩

/-- The relations of the extracted objects are kept with them, delayed or written. -/
theorem updateCurrentlyUnpacked_carries (cu : CurrentlyUnpacked) {task : FileObject}
    {extracted : List FileObject} (hnodup : (extracted.map FileObject.uid).Nodup)
    {fo : FileObject} (hfo : fo ∈ extracted) (hne : fo.uid ≠ task.uid) {rel : Relation}
    (hparent : rel.parent = task.uid) (hcarries : Carries fo rel) :
    (∃ g ∈ (updateCurrentlyUnpacked cu task extracted).kept, Carries g rel) ∨
      (updateCurrentlyUnpacked cu task extracted).entry.Delays rel ∨
      ∃ call ∈ (updateCurrentlyUnpacked cu task extracted).calls, call.Carries rel := by
  rcases updateExtractedObjects_carries hnodup { cu with done := insert task.uid cu.done } hfo
      hparent hcarries with hkept | hdelays | ⟨call, hcall, hcarries'⟩
  · exact Or.inl hkept
  · have hchild : rel.child ≠ task.uid := hcarries.2.1 ▸ hne
    exact Or.inr (Or.inl ⟨Finset.mem_erase.2 ⟨hchild, hdelays.1⟩, hdelays.2⟩)
  · exact Or.inr (Or.inr ⟨call, List.mem_append_right _ hcall, hcarries'⟩)

/-! ## What the calls are about -/

def DbCall.parent : DbCall → Uid
  | .addVfp parent _ _ => parent
  | .addChildToParent parent _ => parent

def DbCall.child : DbCall → Uid
  | .addVfp _ child _ => child
  | .addChildToParent _ child => child

/-- Paths are only delayed in parents that are done. -/
def CurrentlyUnpacked.DelaysDone (cu : CurrentlyUnpacked) : Prop :=
  ∀ child pathLists, cu.delayedVfpUpdate.get? child = some pathLists →
    ∀ parent ∈ pathLists, parent ∈ cu.done

theorem mem_recordCalls {parent child : Uid} {paths : List VPath} {call : DbCall}
    (h : call ∈ recordCalls parent child paths) : call.parent = parent ∧ call.child = child := by
  simp only [recordCalls, List.mem_cons, List.not_mem_nil, or_false] at h
  rcases h with rfl | rfl
  · exact ⟨rfl, rfl⟩
  · exact ⟨rfl, rfl⟩

/-- Whatever the paths are delayed of, a file and one of its parents, is related. -/
def CurrentlyUnpacked.DelaysOnly (cu : CurrentlyUnpacked) (P : Uid → Uid → Prop) : Prop :=
  ∀ child pathLists, cu.delayedVfpUpdate.get? child = some pathLists →
    ∀ parent ∈ pathLists, P parent child

theorem delay_delaysOnly {cu : CurrentlyUnpacked} {P : Uid → Uid → Prop} {parent child : Uid}
    (paths : List VPath) (hnew : P parent child) (h : cu.DelaysOnly P) :
    (cu.delay parent child paths).DelaysOnly P := by
  intro child' pathLists hlists p hp
  have hlists' : (cu.delayedVfpUpdate.set child
      (((cu.delayedVfpUpdate.get? child).getD ∅).set parent paths)).get? child' =
        some pathLists := hlists
  rw [Dict.get?_set] at hlists'
  split at hlists'
  · rename_i hchild
    cases hlists'
    subst hchild
    rcases Dict.mem_set.1 hp with rfl | hold
    · exact hnew
    · cases hget : cu.delayedVfpUpdate.get? child' with
      | none =>
          rw [hget] at hold
          cases hold
      | some lists =>
          rw [hget] at hold
          exact h child' lists hget p hold
  · exact h child' pathLists hlists' p hp

theorem updateExtractedObjects_delaysOnly {current : Uid} {extracted : List FileObject}
    {cu : CurrentlyUnpacked} {P : Uid → Uid → Prop} (hnew : ∀ fo ∈ extracted, P current fo.uid)
    (h : cu.DelaysOnly P) : (updateExtractedObjects current extracted cu).entry.DelaysOnly P := by
  induction extracted generalizing cu with
  | nil => exact h
  | cons fo rest ih =>
      have hrest : ∀ g ∈ rest, P current g.uid := fun g hg => hnew g (List.mem_cons_of_mem _ hg)
      simp only [updateExtractedObjects]
      split
      · exact ih hrest (delay_delaysOnly _ (hnew fo List.mem_cons_self) h)
      · split
        · exact ih hrest h
        · exact ih hrest h

theorem updateExtractedObjects_delaysDone {current : Uid} (extracted : List FileObject)
    {cu : CurrentlyUnpacked} (hcurrent : current ∈ cu.done) (h : cu.DelaysDone) :
    (updateExtractedObjects current extracted cu).entry.DelaysDone := by
  intro child pathLists hlists parent hparent
  rw [updateExtractedObjects_done]
  exact updateExtractedObjects_delaysOnly (P := fun p _ => p ∈ cu.done) (fun _ _ => hcurrent) h
    child pathLists hlists parent hparent

theorem updateExtractedObjects_calls {current : Uid} {extracted : List FileObject}
    (cu : CurrentlyUnpacked) {call : DbCall}
    (h : call ∈ (updateExtractedObjects current extracted cu).calls) :
    call.parent = current ∧ call.child ∈ cu.done ∧ ∃ fo ∈ extracted, fo.uid = call.child := by
  induction extracted generalizing cu with
  | nil => cases h
  | cons fo rest ih =>
      have hlater : ∀ {d : Finset Uid}, (call.parent = current ∧ call.child ∈ d ∧
          ∃ g ∈ rest, g.uid = call.child) → call.parent = current ∧ call.child ∈ d ∧
            ∃ g ∈ fo :: rest, g.uid = call.child := by
        rintro d ⟨hparent, hdone, g, hg, hug⟩
        exact ⟨hparent, hdone, g, List.mem_cons_of_mem _ hg, hug⟩
      simp only [updateExtractedObjects] at h
      split at h
      · exact hlater (ih (cu.delay current fo.uid (fo.pathsIn current)) h)
      · split at h
        · exact hlater (ih { cu with remaining := insert fo.uid cu.remaining } h)
        · rename_i hdone
          rcases List.mem_append.1 h with hfirst | hrest
          · rcases mem_recordCalls hfirst with ⟨hparent, hchild⟩
            exact ⟨hparent, hchild.symm ▸ not_not.1 hdone, fo, List.mem_cons_self, hchild.symm⟩
          · exact hlater (ih cu hrest)

theorem updateCurrentlyUnpacked_delaysDone {cu : CurrentlyUnpacked} (task : FileObject)
    (extracted : List FileObject) (h : cu.DelaysDone) :
    (updateCurrentlyUnpacked cu task extracted).entry.DelaysDone := by
  refine updateExtractedObjects_delaysDone extracted (Finset.mem_insert_self _ _) ?_
  intro child pathLists hlists parent hparent
  exact Finset.mem_insert_of_mem (h child pathLists hlists parent hparent)

theorem updateCurrentlyUnpacked_delaysOnly {cu : CurrentlyUnpacked} {task : FileObject}
    {extracted : List FileObject} {P : Uid → Uid → Prop}
    (hnew : ∀ fo ∈ extracted, P task.uid fo.uid) (h : cu.DelaysOnly P) :
    (updateCurrentlyUnpacked cu task extracted).entry.DelaysOnly P :=
  updateExtractedObjects_delaysOnly hnew h

/-- A call is for a delayed path of the task, or for an extracted object that is done. -/
theorem mem_updateCurrentlyUnpacked_calls {cu : CurrentlyUnpacked} {task : FileObject}
    {extracted : List FileObject} {call : DbCall}
    (h : call ∈ (updateCurrentlyUnpacked cu task extracted).calls) :
    (∃ pathLists, cu.delayedVfpUpdate.get? task.uid = some pathLists ∧
        call.parent ∈ pathLists ∧ call.child = task.uid) ∨
      (call.parent = task.uid ∧ call.child ∈ insert task.uid cu.done ∧
        ∃ fo ∈ extracted, fo.uid = call.child) := by
  rcases List.mem_append.1 h with hdelayed | hfound
  · simp only [delayedCalls] at hdelayed
    split at hdelayed
    · cases hdelayed
    · rename_i pathLists hlists
      rcases List.mem_flatMap.1 hdelayed with ⟨⟨parent, paths⟩, hmem, hcall⟩
      rcases mem_recordCalls hcall with ⟨hparent, hchild⟩
      have hin : parent ∈ pathLists := Dict.mem_of_get? (Dict.get?_eq_some_iff.2 hmem)
      exact Or.inl ⟨pathLists, hlists, hparent ▸ hin, hchild⟩
  · exact Or.inr (updateExtractedObjects_calls _ hfound)

/-- The calls are about files that are done. -/
theorem updateCurrentlyUnpacked_calls {cu : CurrentlyUnpacked} {task : FileObject}
    {extracted : List FileObject} (hdelays : cu.DelaysDone) {call : DbCall}
    (h : call ∈ (updateCurrentlyUnpacked cu task extracted).calls) :
    call.parent ∈ (updateCurrentlyUnpacked cu task extracted).entry.done ∧
      call.child ∈ (updateCurrentlyUnpacked cu task extracted).entry.done := by
  rw [updateCurrentlyUnpacked_done]
  rcases mem_updateCurrentlyUnpacked_calls h with ⟨pathLists, hlists, hparent, hchild⟩ |
    ⟨hparent, hchild, -⟩
  · rw [hchild]
    exact ⟨Finset.mem_insert_of_mem (hdelays _ _ hlists _ hparent), Finset.mem_insert_self _ _⟩
  · rw [hparent]
    exact ⟨Finset.mem_insert_self _ _, hchild⟩

/-- The calls are about pairs of files that are related. -/
theorem updateCurrentlyUnpacked_callsOnly {cu : CurrentlyUnpacked} {task : FileObject}
    {extracted : List FileObject} {P : Uid → Uid → Prop}
    (hnew : ∀ fo ∈ extracted, P task.uid fo.uid) (h : cu.DelaysOnly P) {call : DbCall}
    (hcall : call ∈ (updateCurrentlyUnpacked cu task extracted).calls) :
    P call.parent call.child := by
  rcases mem_updateCurrentlyUnpacked_calls hcall with ⟨pathLists, hlists, hparent, hchild⟩ |
    ⟨hparent, -, fo, hfo, huid⟩
  · rw [hchild]
    exact h _ _ hlists _ hparent
  · rw [hparent, ← huid]
    exact hnew fo hfo

end FactCore.Unpacking
