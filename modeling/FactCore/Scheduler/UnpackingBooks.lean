import FactCore.Scheduler.UnpackingCancel
import FactCore.Scheduler.UnpackingTotals

/-! # The books of the unpacking scheduler

While nothing is raised or cancelled, and no firmware is submitted that is
still being unpacked, the bookkeeping is exact: an entry lists a file as
remaining if and only if one file object with its uid is on its way, and only
one. The copy that a recording thread works on already counts as the entry.
-/

namespace FactCore.Unpacking

open Tla Unpacker

/-- The copy of the entry that a thread works on. -/
def Thread.copyOf (th : Thread) (root : Uid) : Option CurrentlyUnpacked :=
  match th.phase with
  | .recording entry _ _ => if th.task.rootUid = some root then some entry else none
  | _ => none

/-- The copy of the entry that the holder of the lock works on. -/
def State.copy (s : State) (root : Uid) : Option CurrentlyUnpacked :=
  (s.syncLock.bind s.threads.get?).bind fun th => th.copyOf root

/-- The entry of a firmware; a copy that is worked on counts as written back. -/
def State.books (s : State) (root : Uid) : Option CurrentlyUnpacked :=
  (s.copy root).or (s.currentlyExtracted.get? root)

/-- The files that remain to be unpacked for a firmware. -/
def State.remaining (s : State) (root : Uid) : Finset Uid :=
  (s.books root).elim ∅ CurrentlyUnpacked.remaining

/-- A firmware that has no entry yet. -/
def Stage.isNew : Stage → Bool → Bool
  | .queued, fw | .started, fw | .initializing, fw => fw
  | _, _ => false

/-- The file has been recorded, and its own bookkeeping is still to be done. -/
def Stage.isOpen : Stage → Bool → Bool
  | .queued, fw | .started, fw | .initializing, fw => !fw
  | .recording, _ | .extracted, _ => false
  | _, _ => true

/-- Counts the firmware that have no entry yet. -/
def newWeight (root : Uid) : Uid → Stage → FileObject → Nat :=
  weight Stage.isNew fun r => r == some root

/-- Counts the files whose bookkeeping is still to be done. -/
def openWeight (root : Uid) : Uid → Stage → FileObject → Nat :=
  weight Stage.isOpen fun r => r == some root

/-- Nothing is raised or cancelled, and no firmware is submitted that is still
being unpacked. -/
def Steady (s : State) : Action → Prop
  | .addTask fw => (s.books fw.uid).isNone = true ∧ total (newWeight fw.uid fw.uid) s.held = 0
  | .raises _ | .cancelTest _ | .cancelPop => False
  | _ => True

instance (s : State) : (a : Action) → Decidable (Steady s a)
  | .addTask _ => inferInstanceAs (Decidable (_ ∧ _))
  | .raises _ | .cancelTest _ | .cancelPop => instDecidableFalse
  | .startThread _ | .enter _ | .storeEntry _ | .unpack _ _ | .extractionError _ | .query _
  | .save _ | .postUnpack _ | .dbInterfaceError _ | .fetch _ | .dbCall _ | .writeBack _
  | .put _ | .finish _ => instDecidableTrue

/-- The books are exact. -/
structure Books (s : State) : Prop where
  listed : ∀ root u, total (openWeight root u) s.held = if u ∈ s.remaining root then 1 else 0
  fresh : ∀ root u, 0 < total (newWeight root u) s.held → s.books root = none
  single : ∀ root, total (newWeight root root) s.held ≤ 1
  disjoint : ∀ root cu, s.books root = some cu → Disjoint cu.remaining cu.done
  nonempty : ∀ root cu, s.currentlyExtracted.get? root = some cu → cu.remaining ≠ ∅

variable {s s' : State} {tid : Nat} {task : FileObject} {phase : Phase} {root u : Uid}

/-! ## The copy of an entry -/

theorem copy_free (h : s.syncLock = none) (root : Uid) : s.copy root = none := by
  simp [State.copy, h]

theorem copy_held {th : Thread} (hlock : s.syncLock = some tid) (hget : s.threads.get? tid = some th)
    (root : Uid) : s.copy root = th.copyOf root := by
  simp [State.copy, hlock, hget]

theorem copy_recording {entry : CurrentlyUnpacked} {calls : List DbCall} {kept : List FileObject}
    {r : Uid} (hbasic : Basic s) (hget : s.threads.get? tid = some ⟨task, .recording entry calls kept⟩)
    (hroot : task.rootUid = some r) (root : Uid) :
    s.copy root = if root = r then some entry else none := by
  rw [copy_held (hbasic.critical _ _ _ hget trivial) hget]
  by_cases hr : root = r
  · simp [Thread.copyOf, hroot, hr]
  · have hne : ¬ r = root := fun heq => hr heq.symm
    simp [Thread.copyOf, hroot, hr, hne]

theorem copy_moved {task' : FileObject} {phase' : Phase}
    (hget : s.threads.get? tid = some ⟨task, phase⟩)
    (hthreads : s'.threads = s.threads.set tid ⟨task', phase'⟩) (hlock : s'.syncLock = s.syncLock)
    (hcopy : ∀ root, Thread.copyOf ⟨task', phase'⟩ root = Thread.copyOf ⟨task, phase⟩ root)
    (root : Uid) : s'.copy root = s.copy root := by
  unfold State.copy
  rw [hlock, hthreads]
  cases s.syncLock with
  | none => rfl
  | some t =>
      simp only [Option.bind_some, Dict.get?_set]
      by_cases ht : t = tid
      · subst ht
        simp [hget, hcopy]
      · simp [ht]

theorem copy_ended (hget : s.threads.get? tid = some ⟨task, phase⟩)
    (hthreads : s'.threads = s.threads.erase tid) (hlock : s'.syncLock = s.syncLock)
    (hcopy : ∀ root, Thread.copyOf ⟨task, phase⟩ root = none) (root : Uid) :
    s'.copy root = s.copy root := by
  unfold State.copy
  rw [hlock, hthreads]
  cases s.syncLock with
  | none => rfl
  | some t =>
      simp only [Option.bind_some, Dict.get?_erase]
      by_cases ht : t = tid
      · subst ht
        simp [hget, hcopy]
      · simp [ht]

theorem copy_started {th : Thread} (hfree : tid ∉ s.threads)
    (hthreads : s'.threads = s.threads.set tid th) (hlock : s'.syncLock = s.syncLock)
    (hcopy : ∀ root, th.copyOf root = none) (root : Uid) : s'.copy root = s.copy root := by
  unfold State.copy
  rw [hlock, hthreads]
  cases s.syncLock with
  | none => rfl
  | some t =>
      simp only [Option.bind_some, Dict.get?_set]
      by_cases ht : t = tid
      · subst ht
        simp [Dict.notMem_iff.1 hfree, hcopy]
      · simp [ht]

theorem books_of_copy {cu : CurrentlyUnpacked} (h : s.copy root = some cu) :
    s.books root = some cu := by
  simp [State.books, h]

theorem books_of_no_copy (h : s.copy root = none) :
    s.books root = s.currentlyExtracted.get? root := by
  simp [State.books, h]

/-- A recording thread works on the books of its firmware. -/
theorem books_recording {entry : CurrentlyUnpacked} {calls : List DbCall} {kept : List FileObject}
    (hthreads : s'.threads = s.threads.set tid ⟨task, .recording entry calls kept⟩)
    (hlock : s'.syncLock = some tid) (hroot : task.rootUid = some root) :
    s'.books root = some entry := by
  refine books_of_copy ?_
  rw [copy_held hlock (by rw [hthreads, Dict.get?_set_self])]
  simp [Thread.copyOf, hroot]

theorem books_same (hcopy : s'.copy root = s.copy root)
    (hentries : s'.currentlyExtracted = s.currentlyExtracted) : s'.books root = s.books root := by
  unfold State.books
  rw [hcopy, hentries]

/-- In runs without cancellations an entry that is in the books is in the dict. -/
theorem mem_of_books (hcancel : CancelInv s) {cu : CurrentlyUnpacked}
    (h : s.books root = some cu) : root ∈ s.currentlyExtracted := by
  cases hcopy : s.copy root with
  | none =>
      rw [books_of_no_copy hcopy] at h
      exact Dict.mem_of_get? h
  | some cu' =>
      unfold State.copy at hcopy
      rcases Option.bind_eq_some_iff.1 hcopy with ⟨⟨task, phase⟩, hth, hcopyOf⟩
      rcases Option.bind_eq_some_iff.1 hth with ⟨tid, -, hget⟩
      unfold Thread.copyOf at hcopyOf
      split at hcopyOf
      · rename_i entry calls kept heq
        simp only at heq
        subst heq
        split at hcopyOf
        · rename_i hroot
          exact hcancel.recorded tid task entry calls kept root hget hroot
        · cases hcopyOf
      · cases hcopyOf

/-! ## Reading the books -/

/-- A file object on its way is listed as remaining. -/
theorem Books.mem_remaining (h : Books s) {x : Stage × FileObject} (hx : x ∈ s.held)
    (hroot : x.2.rootUid = some root) (hopen : x.1.isOpen x.2.isFirmware = true) :
    x.2.uid ∈ s.remaining root := by
  have hpos : 0 < openWeight root x.2.uid x.1 x.2 :=
    weight_pos.2 ⟨hopen, by simp [hroot], rfl⟩
  have hle := total_mem (openWeight root x.2.uid) hx
  have hlisted := h.listed root x.2.uid
  by_contra hno
  rw [if_neg hno] at hlisted
  omega

/-- A firmware with files on their way has an entry. -/
theorem Books.entry_of_open (h : Books s) {x : Stage × FileObject} (hx : x ∈ s.held)
    (hroot : x.2.rootUid = some root) (hopen : x.1.isOpen x.2.isFirmware = true) :
    ∃ cu, s.books root = some cu ∧ x.2.uid ∈ cu.remaining := by
  have hmem := h.mem_remaining hx hroot hopen
  unfold State.remaining at hmem
  cases hbooks : s.books root with
  | none => simp [hbooks] at hmem
  | some cu => exact ⟨cu, rfl, by simpa [hbooks] using hmem⟩

theorem remaining_of_books {cu : CurrentlyUnpacked} (h : s.books root = some cu) :
    s.remaining root = cu.remaining := by
  simp [State.remaining, h]

theorem remaining_of_none (h : s.books root = none) : s.remaining root = ∅ := by
  simp [State.remaining, h]

/-- A firmware without entry is counted under its own uid only. -/
theorem total_newWeight_ne (hbasic : Basic s) (hne : u ≠ root) :
    total (newWeight root u) s.held = 0 := by
  by_contra hno
  rcases (total_pos (newWeight root u)).1 (Nat.pos_of_ne_zero hno) with ⟨x, hx, hpos⟩
  rcases weight_pos.1 hpos with ⟨hnew, hroot, huid⟩
  have hfw : x.2.isFirmware = true := by
    cases hstage : x.1 <;> simp [hstage, Stage.isNew] at hnew <;> exact hnew
  have hself := (hbasic.rooted_held hx).firmware hfw
  have heq : x.2.rootUid = some root := by simpa using hroot
  rw [heq] at hself
  exact hne (huid.symm.trans (Option.some.inj hself).symm)

/-! ## Steps -/

/-- A step that changes neither entries nor counts. -/
theorem books_frame (hcopy : ∀ root, s'.copy root = s.copy root)
    (hentries : s'.currentlyExtracted = s.currentlyExtracted)
    (hopen : ∀ root u, total (openWeight root u) s'.held = total (openWeight root u) s.held)
    (hnew : ∀ root u, total (newWeight root u) s'.held = total (newWeight root u) s.held)
    (h : Books s) : Books s' := by
  have hbooks : ∀ root, s'.books root = s.books root := fun root => books_same (hcopy root) hentries
  refine ⟨?_, ?_, ?_, ?_, hentries ▸ h.nonempty⟩
  · intro root u
    rw [hopen, State.remaining, hbooks]
    exact h.listed root u
  · intro root u hpos
    rw [hbooks]
    exact h.fresh root u (hnew root u ▸ hpos)
  · intro root
    rw [hnew]
    exact h.single root
  · intro root cu hcu
    exact h.disjoint root cu (hbooks root ▸ hcu)

/-- A thread moves on with its task, which stays open (or new). -/
theorem books_moved {task' : FileObject} {phase' : Phase} {stage stage' : Stage}
    (hget : s.threads.get? tid = some ⟨task, phase⟩)
    (hthreads : s'.threads = s.threads.set tid ⟨task', phase'⟩) (hqueue : s'.inQueue = s.inQueue)
    (hentries : s'.currentlyExtracted = s.currentlyExtracted)
    (hcopy : ∀ root, s'.copy root = s.copy root)
    (hstage : phase.stage = some stage) (hkept : phase.kept = [])
    (hstage' : phase'.stage = some stage') (hkept' : phase'.kept = [])
    (huid : task'.uid = task.uid) (hroot : task'.rootUid = task.rootUid)
    (hopen : stage'.isOpen task'.isFirmware = stage.isOpen task.isFirmware)
    (hnew : stage'.isNew task'.isFirmware = stage.isNew task.isFirmware) (h : Books s) :
    Books s' := by
  refine books_frame hcopy hentries ?_ ?_ h
  · intro root u
    have hmoved := total_moved (openWeight root u) hget hthreads hqueue
    have hbefore : total (openWeight root u) (phase.held task) = openWeight root u stage task :=
      total_task (fun _ => rfl) hstage hkept
    have hafter : total (openWeight root u) (phase'.held task') = openWeight root u stage' task' :=
      total_task (fun _ => rfl) hstage' hkept'
    have hsame : openWeight root u stage' task' = openWeight root u stage task :=
      weight_congr hopen hroot huid
    omega
  · intro root u
    have hmoved := total_moved (newWeight root u) hget hthreads hqueue
    have hbefore : total (newWeight root u) (phase.held task) = newWeight root u stage task :=
      total_task (fun _ => rfl) hstage hkept
    have hafter : total (newWeight root u) (phase'.held task') = newWeight root u stage' task' :=
      total_task (fun _ => rfl) hstage' hkept'
    have hsame : newWeight root u stage' task' = newWeight root u stage task :=
      weight_congr hnew hroot huid
    omega

theorem init_books {maxDepth : Nat} (s : State) (h : (machine maxDepth).Init s) : Books s := by
  rcases h with ⟨db, rfl⟩
  refine ⟨?_, ?_, ?_, ?_, ?_⟩
  · intro root u
    rfl
  · intro root u _
    rfl
  · intro root
    exact Nat.zero_le 1
  · intro root cu hcu
    cases hcu
  · intro root cu hcu
    cases hcu

/-- The weight of a file object for its own firmware. -/
theorem openWeight_own {fo : FileObject} {stage : Stage} (hroot : fo.rootUid = some root)
    (hopen : stage.isOpen fo.isFirmware = true) :
    openWeight root u stage fo = if fo.uid = u then 1 else 0 := by
  simp [openWeight, weight, hroot, hopen]

theorem openWeight_other {fo : FileObject} {stage : Stage} {r : Uid} (hroot : fo.rootUid = some r)
    (hne : root ≠ r) : openWeight root u stage fo = 0 := by
  have hne' : ¬ r = root := fun heq => hne heq.symm
  simp [openWeight, weight, hroot, hne']

/-- A recording thread counts the files that it keeps. -/
theorem openWeight_recording {entry : CurrentlyUnpacked} {calls : List DbCall}
    {kept : List FileObject} (hchildren : Children task kept) :
    total (openWeight root u) ((Phase.recording entry calls kept).held task) =
      if task.rootUid = some root ∧ u ∈ kept.map FileObject.uid then 1 else 0 := by
  have hkept : (kept.map (openWeight root u .recorded)).sum = _ := sum_weight_children hchildren
  simp only [Phase.held]
  rw [total_cons, total_map, hkept, openWeight, weight_eq_zero (fun _ => rfl), Nat.zero_add]
  simp [Stage.isOpen]

theorem openWeight_scheduling {kept : List FileObject} (hchildren : Children task kept) :
    total (openWeight root u) ((Phase.scheduling kept).held task) =
      if task.rootUid = some root ∧ u ∈ kept.map FileObject.uid then 1 else 0 := by
  have hkept : (kept.map (openWeight root u .scheduled)).sum = _ := sum_weight_children hchildren
  rw [total_scheduling, hkept]
  simp [Stage.isOpen]

/-- Recorded objects are not new firmware. -/
theorem newWeight_recording (entry : CurrentlyUnpacked) (calls : List DbCall)
    (kept : List FileObject) :
    total (newWeight root u) ((Phase.recording entry calls kept).held task) = 0 := by
  simp only [Phase.held]
  rw [total_cons, total_map, newWeight, sum_weight_eq_zero (fun _ => rfl),
    weight_eq_zero (fun _ => rfl)]

theorem newWeight_scheduling (kept : List FileObject) :
    total (newWeight root u) ((Phase.scheduling kept).held task) = 0 := by
  rw [total_scheduling]
  exact sum_weight_eq_zero (fun _ => rfl) kept

/-- Reading the entry and preparing its copy: the task is not remaining any
more, the kept objects are. -/
theorem books_fetch {extracted : List FileObject} {cu : CurrentlyUnpacked} {r : Uid}
    (hbasic : Basic s) (hget : s.threads.get? tid = some ⟨task, .updating extracted⟩)
    (hfree : s.syncLock = none) (hroot : task.rootUid = some r)
    (hentry : s.currentlyExtracted.get? r = some cu)
    (hthreads : s'.threads = s.threads.set tid ⟨task, .recording
      (updateCurrentlyUnpacked cu task extracted).entry
      (updateCurrentlyUnpacked cu task extracted).calls
      (updateCurrentlyUnpacked cu task extracted).kept⟩)
    (hqueue : s'.inQueue = s.inQueue) (hentries : s'.currentlyExtracted = s.currentlyExtracted)
    (hlock : s'.syncLock = some tid) (h : Books s) : Books s' := by
  have hextracted : Children task extracted := hbasic.ok _ _ _ hget
  have hchildren := hextracted.sublist (updateCurrentlyUnpacked_kept cu task extracted)
  have hbooks : s.books r = some cu := by
    rw [books_of_no_copy (copy_free hfree r)]
    exact hentry
  have hcopy' : ∀ root, s'.copy root =
      if root = r then some (updateCurrentlyUnpacked cu task extracted).entry else none := by
    intro root
    have hget' : s'.threads.get? tid = some ⟨task, .recording
        (updateCurrentlyUnpacked cu task extracted).entry
        (updateCurrentlyUnpacked cu task extracted).calls
        (updateCurrentlyUnpacked cu task extracted).kept⟩ := by
      rw [hthreads, Dict.get?_set_self]
    rw [copy_held hlock hget']
    by_cases hr : root = r
    · simp [Thread.copyOf, hroot, hr]
    · have hne : ¬ r = root := fun heq => hr heq.symm
      simp [Thread.copyOf, hroot, hr, hne]
  have hbooks' : s'.books r = some (updateCurrentlyUnpacked cu task extracted).entry :=
    books_recording hthreads hlock hroot
  have hothers : ∀ root, root ≠ r → s'.books root = s.books root := by
    intro root hne
    refine books_same ?_ hentries
    rw [hcopy', if_neg hne, copy_free hfree]
  have hmine : task.uid ∈ cu.remaining := by
    have hx : (Stage.updating, task) ∈ s.held := held_of_thread hget (task_mem_held rfl)
    rcases h.entry_of_open hx hroot rfl with ⟨cu', hcu', hmem⟩
    rw [hbooks] at hcu'
    cases hcu'
    exact hmem
  refine ⟨?_, ?_, ?_, ?_, hentries ▸ h.nonempty⟩
  · intro root u
    have hmoved := total_moved (openWeight root u) hget hthreads hqueue
    rw [openWeight_recording hchildren] at hmoved
    have hbefore : total (openWeight root u) ((Phase.updating extracted).held task) =
        openWeight root u .updating task := total_task (fun _ => rfl) rfl rfl
    rw [hbefore, h.listed root u] at hmoved
    by_cases hr : root = r
    · subst hr
      rw [openWeight_own hroot rfl, remaining_of_books hbooks] at hmoved
      rw [remaining_of_books hbooks', updateCurrentlyUnpacked_remaining]
      by_cases hself : task.uid = u
      · -- the task: it was remaining, and is not kept
        subst hself
        have hnew : task.uid ∉ (updateCurrentlyUnpacked cu task extracted).kept.map FileObject.uid := by
          intro hmem
          rcases List.mem_map.1 hmem with ⟨fo, hfo, huid⟩
          exact (updateCurrentlyUnpacked_new hfo).2.2 huid
        simp only [hmine, hnew, if_true, and_false, if_false] at hmoved
        simp
        omega
      · have hne : u ≠ task.uid := fun heq => hself heq.symm
        by_cases hkept : u ∈ (updateCurrentlyUnpacked cu task extracted).kept.map FileObject.uid
        · -- a kept file: it was not remaining before
          have hold : u ∉ cu.remaining := by
            rcases List.mem_map.1 hkept with ⟨fo, hfo, rfl⟩
            exact (updateCurrentlyUnpacked_new hfo).1
          have hin : u ∈ (cu.remaining ∪ ((updateCurrentlyUnpacked cu task extracted).kept.map
              FileObject.uid).toFinset).erase task.uid :=
            Finset.mem_erase.2 ⟨hne, Finset.mem_union_right _ (List.mem_toFinset.2 hkept)⟩
          rw [if_neg hself, if_neg hold, if_pos ⟨hroot, hkept⟩] at hmoved
          rw [if_pos hin]
          omega
        · have hiff : u ∈ (cu.remaining ∪ ((updateCurrentlyUnpacked cu task extracted).kept.map
              FileObject.uid).toFinset).erase task.uid ↔ u ∈ cu.remaining := by
            rw [Finset.mem_erase, Finset.mem_union, List.mem_toFinset]
            tauto
          have hno : ¬ (task.rootUid = some root ∧
              u ∈ (updateCurrentlyUnpacked cu task extracted).kept.map FileObject.uid) :=
            fun hboth => hkept hboth.2
          rw [if_neg hself, if_neg hno] at hmoved
          simp only [hiff]
          omega
    · have hno : ¬ (task.rootUid = some root ∧
          u ∈ (updateCurrentlyUnpacked cu task extracted).kept.map FileObject.uid) := by
        rw [hroot]
        exact fun hboth => hr (Option.some.inj hboth.1).symm
      rw [openWeight_other hroot hr, if_neg hno] at hmoved
      rw [State.remaining, hothers root hr]
      exact hmoved
  · intro root u hpos
    have hmoved := total_moved (newWeight root u) hget hthreads hqueue
    rw [newWeight_recording] at hmoved
    have hold := h.fresh root u (by omega)
    by_cases hr : root = r
    · subst hr
      rw [hbooks] at hold
      cases hold
    · rw [hothers root hr]
      exact hold
  · intro root
    have hmoved := total_moved (newWeight root root) hget hthreads hqueue
    rw [newWeight_recording] at hmoved
    have hsingle := h.single root
    omega
  · intro root cu' hcu'
    by_cases hr : root = r
    · subst hr
      rw [hbooks'] at hcu'
      cases hcu'
      have hdisjoint := h.disjoint root cu hbooks
      rw [updateCurrentlyUnpacked_done, updateCurrentlyUnpacked_remaining]
      refine Finset.disjoint_left.2 ?_
      intro v hv hdone
      rcases Finset.mem_erase.1 hv with ⟨hne, hv⟩
      have hdone' : v ∈ cu.done := (Finset.mem_insert.1 hdone).resolve_left hne
      rcases Finset.mem_union.1 hv with hrem | hkept
      · exact Finset.disjoint_left.1 hdisjoint hrem hdone'
      · rcases List.mem_map.1 (List.mem_toFinset.1 hkept) with ⟨fo, hfo, rfl⟩
        exact (updateCurrentlyUnpacked_new hfo).2.1 hdone'
    · exact h.disjoint root cu' (hothers root hr ▸ hcu')

/-- Writing the copy back, or removing the entry if nothing remains. -/
theorem books_writeBack (entries : Dict Uid CurrentlyUnpacked) {entry : CurrentlyUnpacked}
    {kept : List FileObject} {r : Uid} (hbasic : Basic s)
    (hget : s.threads.get? tid = some ⟨task, .recording entry [] kept⟩)
    (hroot : task.rootUid = some r)
    (hown : (entries.get? r = some entry ∧ entry.remaining ≠ ∅) ∨
      (entries.get? r = none ∧ entry.remaining = ∅))
    (hothers : ∀ root, root ≠ r → entries.get? root = s.currentlyExtracted.get? root)
    (hthreads : s'.threads = s.threads.set tid ⟨task, .scheduling kept⟩)
    (hqueue : s'.inQueue = s.inQueue) (hentries : s'.currentlyExtracted = entries)
    (hlock : s'.syncLock = none) (h : Books s) : Books s' := by
  have hchildren : Children task kept := (hbasic.ok _ _ _ hget).1
  have hcopy := copy_recording hbasic hget hroot
  have hbooks : s.books r = some entry := books_of_copy (by rw [hcopy, if_pos rfl])
  have hbooks' : ∀ root, s'.books root = entries.get? root := by
    intro root
    rw [books_of_no_copy (copy_free hlock root), hentries]
  have hsame : ∀ root, root ≠ r → s'.books root = s.books root := by
    intro root hne
    have hnone : s.copy root = none := by rw [hcopy, if_neg hne]
    rw [hbooks', hothers root hne, books_of_no_copy hnone]
  have hremaining : ∀ root, s'.remaining root = s.remaining root := by
    intro root
    by_cases hr : root = r
    · subst hr
      rw [remaining_of_books hbooks]
      rcases hown with ⟨hset, -⟩ | ⟨hpop, hempty⟩
      · exact remaining_of_books ((hbooks' root).trans hset)
      · rw [remaining_of_none ((hbooks' root).trans hpop), hempty]
    · rw [State.remaining, hsame root hr]
      rfl
  have hopen : ∀ root u, total (openWeight root u) s'.held = total (openWeight root u) s.held := by
    intro root u
    have hmoved := total_moved (openWeight root u) hget hthreads hqueue
    rw [openWeight_recording hchildren, openWeight_scheduling hchildren] at hmoved
    omega
  have hnew : ∀ root u, total (newWeight root u) s'.held = total (newWeight root u) s.held := by
    intro root u
    have hmoved := total_moved (newWeight root u) hget hthreads hqueue
    rw [newWeight_recording, newWeight_scheduling] at hmoved
    omega
  refine ⟨?_, ?_, ?_, ?_, ?_⟩
  · intro root u
    rw [hopen, hremaining]
    exact h.listed root u
  · intro root u hpos
    have hold := h.fresh root u (hnew root u ▸ hpos)
    by_cases hr : root = r
    · subst hr
      rw [hbooks] at hold
      cases hold
    · rw [hsame root hr]
      exact hold
  · intro root
    rw [hnew]
    exact h.single root
  · intro root cu hcu
    by_cases hr : root = r
    · subst hr
      rw [hbooks'] at hcu
      rcases hown with ⟨hset, -⟩ | ⟨hpop, -⟩
      · rw [hset] at hcu
        cases hcu
        exact h.disjoint root entry hbooks
      · rw [hpop] at hcu
        cases hcu
    · exact h.disjoint root cu (hsame root hr ▸ hcu)
  · intro root cu hcu
    rw [hentries] at hcu
    by_cases hr : root = r
    · subst hr
      rcases hown with ⟨hset, hne⟩ | ⟨hpop, -⟩
      · rw [hset] at hcu
        cases hcu
        exact hne
      · rw [hpop] at hcu
        cases hcu
    · exact h.nonempty root cu (hothers root hr ▸ hcu)

/-- Creating the entry of a firmware. -/
theorem books_storeEntry (hbasic : Basic s) (hget : s.threads.get? tid = some ⟨task, .initializing⟩)
    (hthreads : s'.threads = s.threads.set tid ⟨task, .unpacking⟩) (hqueue : s'.inQueue = s.inQueue)
    (hentries : s'.currentlyExtracted = s.currentlyExtracted.set task.uid (.new task.uid))
    (hlock : s'.syncLock = none) (h : Books s) : Books s' := by
  have hfw : task.isFirmware = true := hbasic.ok _ _ _ hget
  have hroot : task.rootUid = some task.uid := (hbasic.rooted.task _ _ _ hget).firmware hfw
  have hcopy : ∀ root, s.copy root = none := fun root =>
    (copy_held (hbasic.critical _ _ _ hget trivial) hget root).trans rfl
  have hbooks' : ∀ root, s'.books root =
      if root = task.uid then some (.new task.uid) else s.books root := by
    intro root
    rw [books_of_no_copy (copy_free hlock root), hentries, Dict.get?_set,
      books_of_no_copy (hcopy root)]
  have hone : ∀ u, newWeight task.uid u .initializing task = if task.uid = u then 1 else 0 := by
    intro u
    simp [newWeight, weight, hfw, hroot, Stage.isNew]
  have hnone : s.books task.uid = none := by
    refine h.fresh task.uid task.uid ?_
    have hx : (Stage.initializing, task) ∈ s.held := held_of_thread hget (task_mem_held rfl)
    have hle := total_mem (newWeight task.uid task.uid) hx
    have hself := hone task.uid
    rw [if_pos rfl] at hself
    simp only at hle
    omega
  have hnew : ∀ root u, total (newWeight root u) s'.held + newWeight root u .initializing task =
      total (newWeight root u) s.held := by
    intro root u
    have hmoved := total_moved (newWeight root u) hget hthreads hqueue
    simp only [Phase.held, total_singleton] at hmoved
    have hzero : newWeight root u .unpacking task = 0 := weight_eq_zero fun _ => rfl
    omega
  refine ⟨?_, ?_, ?_, ?_, ?_⟩
  · intro root u
    have hmoved := total_moved (openWeight root u) hget hthreads hqueue
    simp only [Phase.held, total_singleton] at hmoved
    have hzero : openWeight root u .initializing task = 0 := by
      simp [openWeight, weight, Stage.isOpen, hfw]
    rw [hzero, h.listed root u] at hmoved
    by_cases hr : root = task.uid
    · subst hr
      rw [remaining_of_none hnone, openWeight_own hroot rfl] at hmoved
      rw [remaining_of_books (by rw [hbooks', if_pos rfl])]
      by_cases hu : task.uid = u
      · subst hu
        simpa [CurrentlyUnpacked.new] using hmoved
      · have hne : ¬ u = task.uid := fun heq => hu heq.symm
        simpa [CurrentlyUnpacked.new, hu, hne] using hmoved
    · rw [openWeight_other hroot hr] at hmoved
      rw [State.remaining, hbooks', if_neg hr]
      exact hmoved
  · intro root u hpos
    have hsum := hnew root u
    by_cases hr : root = task.uid
    · -- the firmware was the only one without an entry under its uid
      exfalso
      subst hr
      by_cases hu : u = task.uid
      · subst hu
        have hsingle := h.single task.uid
        have hself := hone task.uid
        rw [if_pos rfl] at hself
        omega
      · have hzero := total_newWeight_ne hbasic hu
        omega
    · rw [hbooks', if_neg hr]
      exact h.fresh root u (by omega)
  · intro root
    have hsum := hnew root root
    have hsingle := h.single root
    omega
  · intro root cu hcu
    rw [hbooks'] at hcu
    split at hcu
    · cases hcu
      exact Finset.disjoint_empty_right _
    · exact h.disjoint root cu hcu
  · intro root cu hcu
    rw [hentries, Dict.get?_set] at hcu
    split at hcu
    · cases hcu
      exact Finset.singleton_ne_empty _
    · exact h.nonempty root cu hcu

/-- A firmware that is not being unpacked is submitted. -/
theorem books_added (fw : FileObject) (hfw : fw.isFirmware = true) (hroot : fw.rootUid = some fw.uid)
    (hnone : s.books fw.uid = none) (hzero : total (newWeight fw.uid fw.uid) s.held = 0)
    (hthreads : s'.threads = s.threads) (hqueue : s'.inQueue = s.inQueue ++ [fw])
    (hentries : s'.currentlyExtracted = s.currentlyExtracted) (hlock : s'.syncLock = s.syncLock)
    (h : Books s) : Books s' := by
  have hbooks : ∀ root, s'.books root = s.books root := by
    intro root
    refine books_same ?_ hentries
    unfold State.copy
    rw [hlock, hthreads]
  have hopen : ∀ root u, total (openWeight root u) s'.held = total (openWeight root u) s.held := by
    intro root u
    have hadded := total_added (openWeight root u) hthreads hqueue
    have hno : openWeight root u .queued fw = 0 := by
      simp [openWeight, weight, Stage.isOpen, hfw]
    omega
  have hnew : ∀ root u, total (newWeight root u) s'.held =
      total (newWeight root u) s.held + if fw.uid = root ∧ fw.uid = u then 1 else 0 := by
    intro root u
    have hone : newWeight root u .queued fw = if fw.uid = root ∧ fw.uid = u then 1 else 0 := by
      simp [newWeight, weight, Stage.isNew, hfw, hroot]
    rw [total_added (newWeight root u) hthreads hqueue, hone]
  refine ⟨?_, ?_, ?_, ?_, hentries ▸ h.nonempty⟩
  · intro root u
    rw [hopen, State.remaining, hbooks]
    exact h.listed root u
  · intro root u hpos
    rw [hbooks]
    rw [hnew] at hpos
    by_cases hr : fw.uid = root ∧ fw.uid = u
    · rw [← hr.1]
      exact hnone
    · rw [if_neg hr] at hpos
      exact h.fresh root u hpos
  · intro root
    rw [hnew]
    by_cases hr : fw.uid = root
    · subst hr
      simp [hzero]
    · have hsingle := h.single root
      simp [hr, hsingle]
  · intro root cu hcu
    exact h.disjoint root cu (hbooks root ▸ hcu)

/-- A thread starts. -/
theorem books_started {rest : List FileObject} (hqueue : s.inQueue = task :: rest)
    (hfree : tid ∉ s.threads) (hthreads : s'.threads = s.threads.set tid ⟨task, .started⟩)
    (hrest : s'.inQueue = rest) (hentries : s'.currentlyExtracted = s.currentlyExtracted)
    (hlock : s'.syncLock = s.syncLock) (h : Books s) : Books s' := by
  refine books_frame (copy_started hfree hthreads hlock fun _ => rfl) hentries ?_ ?_ h
  · intro root u
    have hstarted := total_started (openWeight root u) hqueue hfree hthreads hrest
    have hsame : openWeight root u .queued task = openWeight root u .started task :=
      weight_congr rfl rfl rfl
    omega
  · intro root u
    have hstarted := total_started (newWeight root u) hqueue hfree hthreads hrest
    have hsame : newWeight root u .queued task = newWeight root u .started task :=
      weight_congr rfl rfl rfl
    omega

/-- A thread ends that counts nothing. -/
theorem books_ended (hget : s.threads.get? tid = some ⟨task, phase⟩)
    (hthreads : s'.threads = s.threads.erase tid) (hqueue : s'.inQueue = s.inQueue)
    (hentries : s'.currentlyExtracted = s.currentlyExtracted) (hlock : s'.syncLock = s.syncLock)
    (hcopy : ∀ root, Thread.copyOf ⟨task, phase⟩ root = none)
    (hopen : ∀ root u, total (openWeight root u) (phase.held task) = 0)
    (hnew : ∀ root u, total (newWeight root u) (phase.held task) = 0) (h : Books s) : Books s' := by
  refine books_frame (copy_ended hget hthreads hlock hcopy) hentries ?_ ?_ h
  · intro root u
    have hended := total_ended (openWeight root u) hget hthreads hqueue
    rw [hopen] at hended
    exact hended
  · intro root u
    have hended := total_ended (newWeight root u) hget hthreads hqueue
    rw [hnew] at hended
    exact hended

/-- A recording thread has called the database. -/
theorem books_dbCall {entry : CurrentlyUnpacked} {calls calls' : List DbCall}
    {kept : List FileObject} (hbasic : Basic s)
    (hget : s.threads.get? tid = some ⟨task, .recording entry calls kept⟩)
    (hthreads : s'.threads = s.threads.set tid ⟨task, .recording entry calls' kept⟩)
    (hqueue : s'.inQueue = s.inQueue) (hentries : s'.currentlyExtracted = s.currentlyExtracted)
    (hlock : s'.syncLock = s.syncLock) (h : Books s) : Books s' := by
  have hchildren : Children task kept := (hbasic.ok _ _ _ hget).1
  refine books_frame (copy_moved hget hthreads hlock fun _ => rfl) hentries ?_ ?_ h
  · intro root u
    have hmoved := total_moved (openWeight root u) hget hthreads hqueue
    rw [openWeight_recording hchildren, openWeight_recording hchildren] at hmoved
    omega
  · intro root u
    have hmoved := total_moved (newWeight root u) hget hthreads hqueue
    rw [newWeight_recording, newWeight_recording] at hmoved
    omega

/-- A recorded file is put into the queue. -/
theorem books_put {fo : FileObject} {rest : List FileObject} (hbasic : Basic s)
    (hget : s.threads.get? tid = some ⟨task, .scheduling (fo :: rest)⟩)
    (hthreads : s'.threads = s.threads.set tid ⟨task, .scheduling rest⟩)
    (hqueue : s'.inQueue = s.inQueue ++ [fo]) (hentries : s'.currentlyExtracted = s.currentlyExtracted)
    (hlock : s'.syncLock = s.syncLock) (h : Books s) : Books s' := by
  have hchildren : Children task (fo :: rest) := hbasic.ok _ _ _ hget
  have hfile : fo.isFirmware = false := by
    simp [FileObject.isFirmware, (hchildren.child fo List.mem_cons_self).firmware]
  refine books_frame (copy_moved hget hthreads hlock fun _ => rfl) hentries ?_ ?_ h
  · intro root u
    have hput := total_put (openWeight root u) hget hthreads hqueue
    rw [total_scheduling, total_scheduling, List.map_cons, List.sum_cons] at hput
    have hsame : openWeight root u .queued fo = openWeight root u .scheduled fo :=
      weight_congr (by rw [hfile]; rfl) rfl rfl
    omega
  · intro root u
    have hput := total_put (newWeight root u) hget hthreads hqueue
    rw [total_scheduling, total_scheduling, List.map_cons, List.sum_cons] at hput
    have hsame : newWeight root u .queued fo = newWeight root u .scheduled fo :=
      weight_congr (by rw [hfile]; rfl) rfl rfl
    omega

/-- A firmware task without entry. -/
theorem Books.none_of_new (h : Books s) (hbasic : Basic s) {stage : Stage}
    (hmem : (stage, task) ∈ s.held) (hfw : task.isFirmware = true)
    (hnew : stage.isNew true = true) : s.books task.uid = none := by
  refine h.fresh task.uid task.uid ?_
  have hle := total_mem (newWeight task.uid task.uid) hmem
  have hroot : task.rootUid = some task.uid := (hbasic.rooted_held hmem).firmware hfw
  have hpos : 0 < newWeight task.uid task.uid stage task :=
    weight_pos.2 ⟨by rw [hfw]; exact hnew, by simp [hroot], rfl⟩
  simp only at hle
  omega

/-- In a steady run a thread finds the entry of its firmware. -/
theorem Books.entry_found (h : Books s) (hbasic : Basic s) (hcancel : CancelInv s) {stage : Stage}
    (hget : s.threads.get? tid = some ⟨task, phase⟩) (hstage : phase.stage = some stage)
    (hopen : stage.isOpen task.isFirmware = true) : s.entryOf task.rootUid ≠ none := by
  intro hentry
  rcases hbasic.rooted.task _ _ _ hget with ⟨root, hroot, -⟩
  rcases h.entry_of_open (held_of_thread hget (task_mem_held hstage)) hroot hopen with ⟨cu, hcu, -⟩
  rw [hroot] at hentry
  exact absurd (mem_of_books hcancel hcu) (entryOf_eq_none hentry)

theorem next_books {maxDepth : Nat} {a : Action} (hnext : Next maxDepth s a s')
    (hok : Steady s a) (hbasic : Basic s) (hcancel : CancelInv s) (h : Books s) : Books s' := by
  cases hnext with
  | @addTask fw hfw =>
      exact books_added (s := s) { fw with rootUid := some fw.uid } hfw rfl
        (Option.isNone_iff_eq_none.1 hok.1) hok.2 rfl rfl rfl rfl h
  | startThread hqueue hfree => exact books_started (s := s) hqueue hfree rfl rfl rfl rfl h
  | @enterKnown tid task hget hfw hlock hmem =>
      -- a firmware that is submitted again while it is being unpacked
      have hnone := h.none_of_new hbasic (held_of_thread hget (task_mem_held rfl)) hfw rfl
      rw [books_of_no_copy (copy_free hlock _)] at hnone
      exact absurd hmem (Dict.notMem_iff.2 hnone)
  | @enterNew tid task hget hfw hlock hnew =>
      refine books_moved (s := s) hget rfl rfl rfl ?_ rfl rfl rfl rfl rfl rfl rfl rfl h
      intro root
      rw [copy_free hlock]
      exact (copy_held rfl (Dict.get?_set_self _ _ _) root).trans rfl
  | enterFile hget hfile hroot hentry =>
      exact books_moved (s := s) hget rfl rfl rfl (copy_moved hget rfl rfl fun _ => rfl)
        rfl rfl rfl rfl rfl rfl (by rw [hfile]; rfl) (by rw [hfile]; rfl) h
  | @enterSkip tid task hget hfile hentry =>
      have hopen : Stage.started.isOpen task.isFirmware = true := by rw [hfile]; rfl
      exact absurd hentry (h.entry_found hbasic hcancel hget rfl hopen)
  | storeEntry hget => exact books_storeEntry (s := s) hbasic hget rfl rfl rfl rfl h
  | unpack hget =>
      refine books_moved (s := s) hget rfl rfl rfl (copy_moved hget rfl rfl fun _ => rfl)
        rfl rfl rfl rfl ?_ ?_ rfl rfl h
      · rw [unpack_task]
        rfl
      · rw [unpack_task]
        rfl
  | extractionError hget =>
      exact books_moved (s := s) hget rfl rfl rfl (copy_moved hget rfl rfl fun _ => rfl)
        rfl rfl rfl rfl rfl rfl rfl rfl h
  | query hget =>
      exact books_moved (s := s) hget rfl rfl rfl (copy_moved hget rfl rfl fun _ => rfl)
        rfl rfl rfl rfl rfl rfl rfl rfl h
  | save hget hsave =>
      exact books_moved (s := s) hget rfl rfl rfl (copy_moved hget rfl rfl fun _ => rfl)
        rfl rfl rfl rfl rfl rfl rfl rfl h
  | postUnpack hget =>
      exact books_moved (s := s) hget rfl rfl rfl (copy_moved hget rfl rfl fun _ => rfl)
        rfl rfl rfl rfl rfl rfl rfl rfl h
  | @dbInterfaceError tid task phase db hget hphase =>
      cases phase with
      | querying extracted =>
          exact books_moved (s := s) hget rfl rfl rfl (copy_moved hget rfl rfl fun _ => rfl)
            rfl rfl rfl rfl rfl rfl rfl rfl h
      | saving present extracted =>
          exact books_moved (s := s) hget rfl rfl rfl (copy_moved hget rfl rfl fun _ => rfl)
            rfl rfl rfl rfl rfl rfl rfl rfl h
      | posting extracted =>
          exact books_moved (s := s) hget rfl rfl rfl (copy_moved hget rfl rfl fun _ => rfl)
            rfl rfl rfl rfl rfl rfl rfl rfl h
      | _ => exact hphase.elim
  | raises hget hphase => exact hok.elim
  | raisesLocked hget => exact hok.elim
  | fetchNone hget hlock hentry =>
      exact absurd hentry (h.entry_found hbasic hcancel hget rfl rfl)
  | fetch hget hlock hroot hentry =>
      exact books_fetch (s := s) hbasic hget hlock hroot hentry rfl rfl rfl rfl h
  | dbCall hget hcall => exact books_dbCall (s := s) hbasic hget rfl rfl rfl rfl h
  | @writeBackPop tid task r entry kept hget hroot hempty hmem =>
      exact books_writeBack (s := s) (s.currentlyExtracted.erase r) hbasic hget hroot
        (Or.inr ⟨Dict.get?_erase_self _ _, hempty⟩) (fun _ hne => Dict.get?_erase_ne _ hne)
        rfl rfl rfl rfl h
  | writeBackKeyError hget hroot hempty hgone =>
      exact absurd (hcancel.recorded _ _ _ _ _ _ hget hroot) hgone
  | @writeBackSet tid task r entry kept hget hroot hne =>
      exact books_writeBack (s := s) (s.currentlyExtracted.set r entry) hbasic hget hroot
        (Or.inl ⟨Dict.get?_set_self _ _ _, hne⟩) (fun _ hother => Dict.get?_set_ne _ _ hother)
        rfl rfl rfl rfl h
  | put hget => exact books_put (s := s) hbasic hget rfl rfl rfl rfl h
  | finish hget =>
      exact books_ended (s := s) hget rfl rfl rfl rfl (fun _ => rfl) (fun _ _ => rfl)
        (fun _ _ => rfl) h
  | cancelAbsent hidle hgone => exact hok.elim
  | cancelTest hidle hmem => exact hok.elim
  | cancelRaises hcancelling hgone => exact hok.elim
  | cancelPop hcancelling hmem => exact hok.elim

/-- In a steady run no cancellation is lost, because there is none. -/
theorem cancelsBetween_of_steady {a : Action} (h : Steady s a) : CancelsBetween s a := by
  cases a with
  | cancelTest root => exact h.elim
  | cancelPop => exact h.elim
  | _ => trivial

theorem reach_cancelInv_steady {maxDepth : Nat} (h : (machine maxDepth).Reach Steady s) :
    CancelInv s := by
  rcases h with ⟨s₀, as, hinit, hsteps⟩
  exact reach_cancelInv ⟨s₀, as, hinit, hsteps.mono fun _ _ => cancelsBetween_of_steady⟩

theorem reach_books {maxDepth : Nat} (h : (machine maxDepth).Reach Steady s) : Books s :=
  Machine.reach_invariant_with (J := fun s => Basic s ∧ CancelInv s)
    (fun _ hreach => ⟨reach_basic hreach, reach_cancelInv_steady hreach⟩) init_books
    (fun _ _ _ hok hstep hinv => next_books (next_of_step hstep) hok hinv.1 hinv.2) h

end FactCore.Unpacking
