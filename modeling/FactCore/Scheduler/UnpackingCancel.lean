import FactCore.Scheduler.UnpackingInvariants

/-! # Cancelling an unpacking

A cancellation removes the entry of a firmware from another process, without
the sync lock. A worker that has read the entry before writes it back (or pops
it) afterwards, and a firmware task that was started before creates it, so the
removal is final only when it falls between these. `CancelsBetween` asks for
that.
-/

namespace FactCore.Unpacking

open Tla Unpacker

/-- The thread is going to write the entry of the firmware. -/
def Thread.Writes (th : Thread) (root : Uid) : Prop :=
  match th.phase with
  | .started => th.task.isFirmware = true ∧ th.task.uid = root
  | .initializing => th.task.uid = root
  | .recording _ _ _ => th.task.rootUid = some root
  | _ => False

instance (th : Thread) (root : Uid) : Decidable (th.Writes root) := by
  unfold Thread.Writes
  split <;> infer_instance

/-- No thread is going to write the entry of the firmware. -/
def State.Unwritten (s : State) (root : Uid) : Prop := ∀ th ∈ s.threads.values, ¬ th.Writes root

instance (s : State) (root : Uid) : Decidable (s.Unwritten root) :=
  inferInstanceAs (Decidable (∀ th ∈ s.threads.values, _))

/-- A cancellation comes to its decision, that there is no entry or that the
entry is popped, while no thread is going to write it. -/
def CancelsBetween (s : State) : Action → Prop
  | .cancelTest root => root ∉ s.currentlyExtracted → s.Unwritten root
  | .cancelPop => ∀ root ∈ s.cancelling, root ∈ s.currentlyExtracted → s.Unwritten root
  | _ => True

instance (s : State) (a : Action) : Decidable (CancelsBetween s a) := by
  unfold CancelsBetween
  split <;> infer_instance

/-- What was cancelled is gone, and nobody will write it; a thread that has
read an entry still finds it. -/
structure CancelInv (s : State) : Prop where
  gone : ∀ root ∈ s.log.cancelled, root ∉ s.currentlyExtracted
  unwritten : ∀ root ∈ s.log.cancelled, s.Unwritten root
  recorded : ∀ tid task entry calls kept root,
    s.threads.get? tid = some ⟨task, .recording entry calls kept⟩ → task.rootUid = some root →
      root ∈ s.currentlyExtracted
  noKeyErrors : s.log.keyErrors = []

variable {s s' : State} {tid : Nat} {task : FileObject} {phase : Phase} {root : Uid}

theorem unwritten_iff : s.Unwritten root ↔
    ∀ tid th, s.threads.get? tid = some th → ¬ th.Writes root := by
  constructor
  · intro h tid th hget
    exact h th (Dict.mem_values.2 ⟨tid, hget⟩)
  · intro h th hth
    rcases Dict.mem_values.1 hth with ⟨tid, hget⟩
    exact h tid th hget

/-- A thread moves on; what it writes afterwards it would have written before,
or it was not cancelled. -/
theorem unwritten_moved {task' : FileObject} {phase' : Phase}
    (hthreads : s'.threads = s.threads.set tid ⟨task', phase'⟩)
    (hmine : ¬ Thread.Writes ⟨task', phase'⟩ root) (h : s.Unwritten root) : s'.Unwritten root := by
  rw [unwritten_iff] at h ⊢
  intro tid' th hget
  rw [hthreads] at hget
  rcases get?_moved hget with ⟨-, rfl⟩ | ⟨-, hold⟩
  · exact hmine
  · exact h tid' th hold

theorem unwritten_ended (hthreads : s'.threads = s.threads.erase tid) (h : s.Unwritten root) :
    s'.Unwritten root := by
  rw [unwritten_iff] at h ⊢
  intro tid' th hget
  rw [hthreads] at hget
  exact h tid' th (get?_ended hget).2

/-! ## Steps -/

/-- A thread moves on, out of or within its critical section; entries and log stay. -/
theorem cancelInv_moved {task' : FileObject} {phase' : Phase}
    (hget : s.threads.get? tid = some ⟨task, phase⟩)
    (hthreads : s'.threads = s.threads.set tid ⟨task', phase'⟩)
    (hentries : s'.currentlyExtracted = s.currentlyExtracted)
    (hcancelled : s'.log.cancelled = s.log.cancelled) (herrors : s'.log.keyErrors = s.log.keyErrors)
    (hwrites : ∀ root, Thread.Writes ⟨task', phase'⟩ root → Thread.Writes ⟨task, phase⟩ root ∨
      root ∈ s.currentlyExtracted)
    (hrecords : ∀ entry calls kept root, phase' = .recording entry calls kept →
      task'.rootUid = some root → root ∈ s.currentlyExtracted)
    (h : CancelInv s) : CancelInv s' := by
  refine ⟨?_, ?_, ?_, herrors.trans h.noKeyErrors⟩
  · intro root hroot
    rw [hentries]
    exact h.gone root (hcancelled ▸ hroot)
  · intro root hroot
    have hold := hcancelled ▸ hroot
    refine unwritten_moved hthreads ?_ (h.unwritten root hold)
    intro hmine
    rcases hwrites root hmine with hbefore | hmem
    · exact unwritten_iff.1 (h.unwritten root hold) tid _ hget hbefore
    · exact h.gone root hold hmem
  · intro tid' task₂ entry calls kept root hget' hroot
    rw [hentries]
    rw [hthreads] at hget'
    rcases get?_moved hget' with ⟨-, heq⟩ | ⟨-, hold⟩
    · cases heq
      exact hrecords entry calls kept root rfl hroot
    · exact h.recorded tid' task₂ entry calls kept root hold hroot

/-- A thread ends; entries and log stay. -/
theorem cancelInv_ended (hthreads : s'.threads = s.threads.erase tid)
    (hentries : s'.currentlyExtracted = s.currentlyExtracted)
    (hcancelled : s'.log.cancelled = s.log.cancelled) (herrors : s'.log.keyErrors = s.log.keyErrors)
    (h : CancelInv s) : CancelInv s' := by
  refine ⟨?_, ?_, ?_, herrors.trans h.noKeyErrors⟩
  · intro root hroot
    rw [hentries]
    exact h.gone root (hcancelled ▸ hroot)
  · intro root hroot
    exact unwritten_ended hthreads (h.unwritten root (hcancelled ▸ hroot))
  · intro tid' task' entry calls kept root hget hroot
    rw [hentries]
    rw [hthreads] at hget
    exact h.recorded tid' task' entry calls kept root (get?_ended hget).2 hroot

/-- A thread in a critical section writes the entry of `r` and leaves; the
other entries stay. -/
theorem cancelInv_writes (entries : Dict Uid CurrentlyUnpacked) {phase' : Phase} {r : Uid}
    (hget : s.threads.get? tid = some ⟨task, phase⟩) (hcrit : phase.Critical)
    (hmine : Thread.Writes ⟨task, phase⟩ r) (hbasic : Basic s)
    (hothers : ∀ root, root ≠ r → (root ∈ entries ↔ root ∈ s.currentlyExtracted))
    (hphase : ∀ root, ¬ Thread.Writes ⟨task, phase'⟩ root)
    (hthreads : s'.threads = s.threads.set tid ⟨task, phase'⟩)
    (hentries : s'.currentlyExtracted = entries) (hcancelled : s'.log.cancelled = s.log.cancelled)
    (herrors : s'.log.keyErrors = s.log.keyErrors) (h : CancelInv s) : CancelInv s' := by
  refine ⟨?_, ?_, ?_, herrors.trans h.noKeyErrors⟩
  · intro root hroot
    have hold := hcancelled ▸ hroot
    have hne : root ≠ r := by
      intro heq
      exact unwritten_iff.1 (h.unwritten root hold) tid _ hget (heq ▸ hmine)
    rw [hentries, hothers root hne]
    exact h.gone root hold
  · intro root hroot
    exact unwritten_moved hthreads (hphase root) (h.unwritten root (hcancelled ▸ hroot))
  · -- the thread has left, and no other one is in a critical section
    intro tid' task₂ entry calls kept root hget' hroot
    rw [hthreads] at hget'
    rcases get?_moved hget' with ⟨-, heq⟩ | ⟨hne, hold⟩
    · cases heq
      exact absurd hroot (hphase root)
    · exact absurd (hbasic.unique hget hcrit hold trivial) hne

theorem init_cancelInv {maxDepth : Nat} (s : State) (h : (machine maxDepth).Init s) :
    CancelInv s := by
  rcases h with ⟨db, rfl⟩
  refine ⟨?_, ?_, ?_, rfl⟩
  · intro root hroot
    exact absurd hroot (Finset.notMem_empty root)
  · intro root hroot
    exact absurd hroot (Finset.notMem_empty root)
  · intro tid task entry calls kept root hget
    cases hget

/-- A thread moves to a phase in which it does not write. -/
theorem cancelInv_plain {task' : FileObject} {phase' : Phase}
    (hget : s.threads.get? tid = some ⟨task, phase⟩)
    (hthreads : s'.threads = s.threads.set tid ⟨task', phase'⟩)
    (hentries : s'.currentlyExtracted = s.currentlyExtracted)
    (hcancelled : s'.log.cancelled = s.log.cancelled) (herrors : s'.log.keyErrors = s.log.keyErrors)
    (hphase : ∀ root, ¬ Thread.Writes ⟨task', phase'⟩ root) (h : CancelInv s) : CancelInv s' := by
  refine cancelInv_moved hget hthreads hentries hcancelled herrors
    (fun root hmine => absurd hmine (hphase root)) ?_ h
  rintro entry calls kept root rfl hroot
  exact absurd hroot (hphase root)

theorem next_cancelInv {maxDepth : Nat} {a : Action} (hnext : Next maxDepth s a s')
    (hok : CancelsBetween s a) (hbasic : Basic s) (h : CancelInv s) : CancelInv s' := by
  cases hnext with
  | addTask hfw => exact ⟨h.gone, h.unwritten, h.recorded, h.noKeyErrors⟩
  | @startThread tid task rest hqueue hfree =>
      have hsub : ∀ root, root ∈ (if task.isFirmware then s.log.cancelled.erase task.uid
          else s.log.cancelled) → root ∈ s.log.cancelled ∧
            ¬ Thread.Writes ⟨task, .started⟩ root := by
        intro root hroot
        split at hroot
        · have hmem := Finset.mem_erase.1 hroot
          exact ⟨hmem.2, fun hwrites => hmem.1 hwrites.2.symm⟩
        · rename_i hfile
          exact ⟨hroot, fun hwrites => hfile hwrites.1⟩
      refine ⟨?_, ?_, ?_, h.noKeyErrors⟩
      · intro root hroot
        exact h.gone root (hsub root hroot).1
      · intro root hroot
        rcases hsub root hroot with ⟨hold, hmine⟩
        exact unwritten_moved (s := s) rfl hmine (h.unwritten root hold)
      · intro tid' task' entry calls kept root hget hroot
        rcases get?_moved hget with ⟨-, heq⟩ | ⟨-, hold⟩
        · cases heq
        · exact h.recorded tid' task' entry calls kept root hold hroot
  | enterKnown hget hfw hlock hmem =>
      exact cancelInv_plain (s := s) hget rfl rfl rfl rfl (fun _ => id) h
  | enterNew hget hfw hlock hnew =>
      refine cancelInv_moved (s := s) hget rfl rfl rfl rfl ?_ ?_ h
      · intro root hwrites
        exact Or.inl ⟨hfw, hwrites⟩
      · intro entry calls kept root heq
        cases heq
  | enterFile hget hfw hroot hentry =>
      exact cancelInv_plain (s := s) hget rfl rfl rfl rfl (fun _ => id) h
  | enterSkip hget hfw hentry => exact cancelInv_ended (s := s) rfl rfl rfl rfl h
  | @storeEntry tid task hget =>
      refine cancelInv_writes (s := s) (s.currentlyExtracted.set task.uid (.new task.uid)) hget
        trivial (by exact rfl) hbasic ?_ (fun _ => id) rfl rfl rfl rfl h
      intro root hne
      rw [Dict.mem_set]
      exact or_iff_right hne
  | unpack hget => exact cancelInv_plain (s := s) hget rfl rfl rfl rfl (fun _ => id) h
  | extractionError hget => exact cancelInv_plain (s := s) hget rfl rfl rfl rfl (fun _ => id) h
  | query hget => exact cancelInv_plain (s := s) hget rfl rfl rfl rfl (fun _ => id) h
  | save hget hsave => exact cancelInv_plain (s := s) hget rfl rfl rfl rfl (fun _ => id) h
  | postUnpack hget => exact cancelInv_plain (s := s) hget rfl rfl rfl rfl (fun _ => id) h
  | dbInterfaceError db hget hphase =>
      exact cancelInv_plain (s := s) hget rfl rfl rfl rfl (fun _ => id) h
  | raises hget hphase => exact cancelInv_ended (s := s) rfl rfl rfl rfl h
  | raisesLocked hget => exact cancelInv_ended (s := s) rfl rfl rfl rfl h
  | fetchNone hget hlock hentry =>
      exact cancelInv_plain (s := s) hget rfl rfl rfl rfl (fun _ => id) h
  | fetch hget hlock hroot hentry =>
      refine cancelInv_moved (s := s) hget rfl rfl rfl rfl ?_ ?_ h
      · intro root' hwrites
        have hr := Option.some.inj (hroot.symm.trans hwrites)
        exact Or.inr (hr ▸ Dict.mem_of_get? hentry)
      · intro entry calls kept root' _ hroot'
        have hr := Option.some.inj (hroot.symm.trans hroot')
        exact hr ▸ Dict.mem_of_get? hentry
  | dbCall hget hcall =>
      refine cancelInv_moved (s := s) hget rfl rfl rfl rfl ?_ ?_ h
      · intro root hwrites
        exact Or.inl hwrites
      · intro entry calls kept root _ hroot
        exact h.recorded _ _ _ _ _ _ hget hroot
  | @writeBackPop tid task r entry kept hget hroot hempty hmem =>
      refine cancelInv_writes (s := s) (s.currentlyExtracted.erase r) hget trivial hroot hbasic ?_
        (fun _ => id) rfl rfl rfl rfl h
      intro root hne
      rw [Dict.mem_erase]
      exact and_iff_right hne
  | writeBackKeyError hget hroot hempty hgone =>
      -- the entry that the thread has read is still there
      exact absurd (h.recorded _ _ _ _ _ _ hget hroot) hgone
  | @writeBackSet tid task r entry kept hget hroot hne =>
      refine cancelInv_writes (s := s) (s.currentlyExtracted.set r entry) hget trivial hroot hbasic
        ?_ (fun _ => id) rfl rfl rfl rfl h
      intro root hother
      rw [Dict.mem_set]
      exact or_iff_right hother
  | put hget => exact cancelInv_plain (s := s) hget rfl rfl rfl rfl (fun _ => id) h
  | finish hget => exact cancelInv_ended (s := s) rfl rfl rfl rfl h
  | @cancelAbsent root hidle hgone =>
      refine ⟨?_, ?_, h.recorded, h.noKeyErrors⟩
      · intro root' hroot'
        rcases Finset.mem_insert.1 hroot' with rfl | hold
        · exact hgone
        · exact h.gone root' hold
      · intro root' hroot'
        rcases Finset.mem_insert.1 hroot' with rfl | hold
        · exact hok hgone
        · exact h.unwritten root' hold
  | cancelTest hidle hmem => exact ⟨h.gone, h.unwritten, h.recorded, h.noKeyErrors⟩
  | cancelRaises hcancelling hgone => exact ⟨h.gone, h.unwritten, h.recorded, h.noKeyErrors⟩
  | @cancelPop root hcancelling hmem =>
      have hfree := hok root hcancelling hmem
      refine ⟨?_, ?_, ?_, h.noKeyErrors⟩
      · intro root' hroot'
        rw [Dict.mem_erase]
        rintro ⟨hne, hin⟩
        exact h.gone root' (Finset.mem_of_mem_insert_of_ne hroot' hne) hin
      · intro root' hroot'
        rcases Finset.mem_insert.1 hroot' with rfl | hold
        · exact hfree
        · exact h.unwritten root' hold
      · intro tid task entry calls kept root' hget hroot'
        rw [Dict.mem_erase]
        refine ⟨?_, h.recorded tid task entry calls kept root' hget hroot'⟩
        rintro rfl
        exact unwritten_iff.1 hfree tid _ hget hroot'

theorem reach_cancelInv {maxDepth : Nat} (h : (machine maxDepth).Reach CancelsBetween s) :
    CancelInv s :=
  Machine.reach_invariant_with (fun _ => reach_basic) init_cancelInv
    (fun _ _ _ hok hstep => next_cancelInv (next_of_step hstep) hok) h

/-- A cancellation that comes to its decision while no thread is going to write
the entry is not lost: the entry stays away until the firmware is started
again, and no worker raises because the entry has vanished. -/
theorem cancellation_kept {maxDepth : Nat} (h : (machine maxDepth).Reach CancelsBetween s) :
    s.log.keyErrors = [] ∧ ∀ root ∈ s.log.cancelled, root ∉ s.currentlyExtracted :=
  ⟨(reach_cancelInv h).noKeyErrors, (reach_cancelInv h).gone⟩

/-- The unpacking is cancelled while the image is unpacked. -/
def cancelWhileUnpacking : List Action :=
  [.addTask image, .startThread 0, .enter 0, .storeEntry 0, .cancelTest "fw", .cancelPop,
    .extractionError 0, .dbInterfaceError 0, .fetch 0, .finish 0]

theorem cancelWhileUnpacking_isSome :
    ((machine 8).run CancelsBetween cancelWhileUnpacking (State.init Db.empty)).isSome = true := by
  decide +kernel

/-- The theorem at the end of the run `cancelWhileUnpacking`. -/
theorem cancellation_kept_whileUnpacking :
    (((machine 8).run CancelsBetween cancelWhileUnpacking (State.init Db.empty)).get
        cancelWhileUnpacking_isSome).log.keyErrors = [] ∧
      ∀ root ∈ (((machine 8).run CancelsBetween cancelWhileUnpacking (State.init Db.empty)).get
          cancelWhileUnpacking_isSome).log.cancelled,
        root ∉ (((machine 8).run CancelsBetween cancelWhileUnpacking (State.init Db.empty)).get
          cancelWhileUnpacking_isSome).currentlyExtracted :=
  cancellation_kept (Machine.reach_get (M := machine 8) ⟨_, rfl⟩ cancelWhileUnpacking_isSome)

/-- A file in the image. -/
def included : ExtractedFile := ⟨"file", "file", 1, "file", "/file"⟩

/-- The entry is popped between being read and being written back. -/
def cancelWhileRecording (files : List ExtractedFile) : List Action :=
  [.addTask image, .startThread 0, .enter 0, .storeEntry 0, .unpack 0 files, .query 0, .save 0,
    .postUnpack 0, .fetch 0, .cancelTest "fw", .cancelPop, .writeBack 0]

/-- The cancelled entry is back if a file remains; otherwise the worker raises. -/
theorem cancellation_lost :
    (∃ s, (machine 8).Reach Machine.anyStep s ∧ "fw" ∈ s.log.cancelled ∧
      "fw" ∈ s.currentlyExtracted) ∧
    ∃ s, (machine 8).Reach Machine.anyStep s ∧ s.log.keyErrors = ["fw"] := by
  have hinit : (machine 8).Init (State.init Db.empty) := ⟨_, rfl⟩
  exact ⟨Machine.exists_reach hinit (cancelWhileRecording [included]) (by decide +kernel),
    Machine.exists_reach hinit (cancelWhileRecording []) (by decide +kernel)⟩

end FactCore.Unpacking
