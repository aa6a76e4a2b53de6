import Mathlib.Data.Multiset.Count
import Mathlib.Algebra.Order.Group.Multiset
import FactCore.Scheduler.UnpackingScheduler

/-! # What the unpacking scheduler can do

`Next` says once what every step needs and changes; the invariants of the
scheduler are proved by cases on it and never unfold a step. `held` collects
the file objects that the scheduler holds, in the queue or in a thread, each
with the stage it has reached; a step moves a few of them and keeps the rest.
-/

namespace FactCore.Unpacking

open Tla

/-! ## Steps -/

/-- The thread is where a `DbInterfaceError` is caught. -/
def Phase.InTry : Phase → Prop
  | .querying _ | .saving _ _ | .posting _ => True
  | _ => False

/-- The thread is where another exception may be raised while no lock is held. -/
def Phase.Unlocked : Phase → Prop
  | .unpacking | .querying _ | .saving _ _ | .posting _ => True
  | _ => False

/-- All steps, by what they need. -/
inductive Next (maxDepth : Nat) (s : State) : Action → State → Prop
  | addTask {fw : FileObject} (hfw : fw.isFirmware = true) :
      Next maxDepth s (.addTask fw) { s with
        inQueue := s.inQueue ++ [{ fw with rootUid := some fw.uid }]
        log := { s.log with puts := s.log.puts ++ [fw.uid] } }
  | startThread {tid : Nat} {task : FileObject} {rest : List FileObject}
      (hqueue : s.inQueue = task :: rest) (hfree : tid ∉ s.threads) :
      Next maxDepth s (.startThread tid) ({ s with
        inQueue := rest
        log := { s.log with
          cancelled := if task.isFirmware then s.log.cancelled.erase task.uid
            else s.log.cancelled } }.setThread tid task .started)
  | enterKnown {tid : Nat} {task : FileObject}
      (hget : s.threads.get? tid = some ⟨task, .started⟩) (hfw : task.isFirmware = true)
      (hlock : s.syncLock = none) (hmem : task.uid ∈ s.currentlyExtracted) :
      Next maxDepth s (.enter tid) (s.setThread tid task .unpacking)
  | enterNew {tid : Nat} {task : FileObject}
      (hget : s.threads.get? tid = some ⟨task, .started⟩) (hfw : task.isFirmware = true)
      (hlock : s.syncLock = none) (hnew : task.uid ∉ s.currentlyExtracted) :
      Next maxDepth s (.enter tid) ((s.lock tid).setThread tid task .initializing)
  | enterFile {tid : Nat} {task : FileObject} {root : Uid} {cu : CurrentlyUnpacked}
      (hget : s.threads.get? tid = some ⟨task, .started⟩) (hfw : task.isFirmware = false)
      (hroot : task.rootUid = some root) (hentry : s.currentlyExtracted.get? root = some cu) :
      Next maxDepth s (.enter tid) (s.setThread tid task .unpacking)
  | enterSkip {tid : Nat} {task : FileObject}
      (hget : s.threads.get? tid = some ⟨task, .started⟩) (hfw : task.isFirmware = false)
      (hentry : s.entryOf task.rootUid = none) :
      Next maxDepth s (.enter tid) (s.endThread tid)
  | storeEntry {tid : Nat} {task : FileObject}
      (hget : s.threads.get? tid = some ⟨task, .initializing⟩) :
      Next maxDepth s (.storeEntry tid) ({ s.unlock with
        currentlyExtracted := s.currentlyExtracted.set task.uid (.new task.uid) }.setThread
          tid task .unpacking)
  | unpack {tid : Nat} {files : List ExtractedFile} {task : FileObject}
      (hget : s.threads.get? tid = some ⟨task, .unpacking⟩) :
      Next maxDepth s (.unpack tid files) ({ s with
        log := { s.log with
          unpacked := s.log.unpacked ++ [task.uid]
          returned := s.log.returned ++
            (Unpacker.unpack maxDepth task files).2.map FileObject.uid
          found := s.log.found ++
            (Unpacker.unpack maxDepth task files).2.flatMap (relationsOf task.uid) } }.setThread
          tid (Unpacker.unpack maxDepth task files).1
          (.querying (Unpacker.unpack maxDepth task files).2))
  | extractionError {tid : Nat} {task : FileObject}
      (hget : s.threads.get? tid = some ⟨task, .unpacking⟩) :
      Next maxDepth s (.extractionError tid) ({ s with
        log := { s.log with unpacked := s.log.unpacked ++ [task.uid] } }.setThread
          tid task (.querying []))
  | query {tid : Nat} {task : FileObject} {extracted : List FileObject}
      (hget : s.threads.get? tid = some ⟨task, .querying extracted⟩) :
      Next maxDepth s (.query tid)
        (s.setThread tid task (.saving (s.db.exist task.uid) extracted))
  | save {tid : Nat} {task : FileObject} {present : Bool} {extracted : List FileObject} {db : Db}
      (hget : s.threads.get? tid = some ⟨task, .saving present extracted⟩)
      (hsave : s.db.saveObject present task = (db, none)) :
      Next maxDepth s (.save tid) ({ s with db := db }.setThread tid task (.posting extracted))
  | postUnpack {tid : Nat} {task : FileObject} {extracted : List FileObject}
      (hget : s.threads.get? tid = some ⟨task, .posting extracted⟩) :
      Next maxDepth s (.postUnpack tid) ({ s with
        log := { s.log with posted := s.log.posted ++ [task.uid] } }.setThread
          tid task (.updating extracted))
  | dbInterfaceError {tid : Nat} {task : FileObject} {phase : Phase} (db : Db)
      (hget : s.threads.get? tid = some ⟨task, phase⟩) (hphase : phase.InTry) :
      Next maxDepth s (.dbInterfaceError tid)
        ({ s with db := db }.setThread tid task (.updating []))
  | raises {tid : Nat} {task : FileObject} {phase : Phase}
      (hget : s.threads.get? tid = some ⟨task, phase⟩) (hphase : phase.Unlocked) :
      Next maxDepth s (.raises tid) (s.endThread tid)
  | raisesLocked {tid : Nat} {task : FileObject} {entry : CurrentlyUnpacked} {call : DbCall}
      {calls : List DbCall} {kept : List FileObject}
      (hget : s.threads.get? tid = some ⟨task, .recording entry (call :: calls) kept⟩) :
      Next maxDepth s (.raises tid) (s.unlock.endThread tid)
  | fetchNone {tid : Nat} {task : FileObject} {extracted : List FileObject}
      (hget : s.threads.get? tid = some ⟨task, .updating extracted⟩)
      (hlock : s.syncLock = none) (hentry : s.entryOf task.rootUid = none) :
      Next maxDepth s (.fetch tid) (s.setThread tid task (.scheduling []))
  | fetch {tid : Nat} {task : FileObject} {extracted : List FileObject} {root : Uid}
      {cu : CurrentlyUnpacked} (hget : s.threads.get? tid = some ⟨task, .updating extracted⟩)
      (hlock : s.syncLock = none) (hroot : task.rootUid = some root)
      (hentry : s.currentlyExtracted.get? root = some cu) :
      Next maxDepth s (.fetch tid) ((s.lock tid).setThread tid task (.recording
        (updateCurrentlyUnpacked cu task extracted).entry
        (updateCurrentlyUnpacked cu task extracted).calls
        (updateCurrentlyUnpacked cu task extracted).kept))
  | dbCall {tid : Nat} {task : FileObject} {entry : CurrentlyUnpacked} {call : DbCall}
      {calls : List DbCall} {kept : List FileObject} {db : Db}
      (hget : s.threads.get? tid = some ⟨task, .recording entry (call :: calls) kept⟩)
      (hcall : call.run s.db = some db) :
      Next maxDepth s (.dbCall tid)
        ({ s with db := db }.setThread tid task (.recording entry calls kept))
  | writeBackPop {tid : Nat} {task : FileObject} {root : Uid} {entry : CurrentlyUnpacked}
      {kept : List FileObject} (hget : s.threads.get? tid = some ⟨task, .recording entry [] kept⟩)
      (hroot : task.rootUid = some root) (hempty : entry.remaining = ∅)
      (hmem : root ∈ s.currentlyExtracted) :
      Next maxDepth s (.writeBack tid) ({ s.unlock with
        currentlyExtracted := s.currentlyExtracted.erase root }.setThread tid task
          (.scheduling kept))
  | writeBackKeyError {tid : Nat} {task : FileObject} {root : Uid} {entry : CurrentlyUnpacked}
      {kept : List FileObject} (hget : s.threads.get? tid = some ⟨task, .recording entry [] kept⟩)
      (hroot : task.rootUid = some root) (hempty : entry.remaining = ∅)
      (hgone : root ∉ s.currentlyExtracted) :
      Next maxDepth s (.writeBack tid) ({ s.unlock with
        log := { s.log with keyErrors := s.log.keyErrors ++ [root] } }.endThread tid)
  | writeBackSet {tid : Nat} {task : FileObject} {root : Uid} {entry : CurrentlyUnpacked}
      {kept : List FileObject} (hget : s.threads.get? tid = some ⟨task, .recording entry [] kept⟩)
      (hroot : task.rootUid = some root) (hne : entry.remaining ≠ ∅) :
      Next maxDepth s (.writeBack tid) ({ s.unlock with
        currentlyExtracted := s.currentlyExtracted.set root entry }.setThread tid task
          (.scheduling kept))
  | put {tid : Nat} {task fo : FileObject} {rest : List FileObject}
      (hget : s.threads.get? tid = some ⟨task, .scheduling (fo :: rest)⟩) :
      Next maxDepth s (.put tid) ({ s with
        inQueue := s.inQueue ++ [fo]
        log := { s.log with puts := s.log.puts ++ [fo.uid] } }.setThread tid task
          (.scheduling rest))
  | finish {tid : Nat} {task : FileObject}
      (hget : s.threads.get? tid = some ⟨task, .scheduling []⟩) :
      Next maxDepth s (.finish tid) (s.endThread tid)
  | cancelAbsent {root : Uid} (hidle : s.cancelling = none)
      (hgone : root ∉ s.currentlyExtracted) :
      Next maxDepth s (.cancelTest root)
        { s with log := { s.log with cancelled := insert root s.log.cancelled } }
  | cancelTest {root : Uid} (hidle : s.cancelling = none) (hmem : root ∈ s.currentlyExtracted) :
      Next maxDepth s (.cancelTest root) { s with cancelling := some root }
  | cancelRaises {root : Uid} (hcancelling : s.cancelling = some root)
      (hgone : root ∉ s.currentlyExtracted) :
      Next maxDepth s .cancelPop { s with cancelling := none }
  | cancelPop {root : Uid} (hcancelling : s.cancelling = some root)
      (hmem : root ∈ s.currentlyExtracted) :
      Next maxDepth s .cancelPop { s with
        cancelling := none
        currentlyExtracted := s.currentlyExtracted.erase root
        log := { s.log with cancelled := insert root s.log.cancelled } }

theorem withThread_eq_some {s s' : State} {tid : Nat} {f : FileObject → Phase → Option State}
    (h : s.withThread tid f = some s') :
    ∃ task phase, s.threads.get? tid = some ⟨task, phase⟩ ∧ f task phase = some s' := by
  unfold State.withThread at h
  cases hget : s.threads.get? tid with
  | none => simp [hget] at h
  | some th => exact ⟨th.task, th.phase, rfl, by simpa [hget] using h⟩

theorem entryOf_eq_some {s : State} {rootUid : Option Uid} {root : Uid} {cu : CurrentlyUnpacked}
    (h : s.entryOf rootUid = some (root, cu)) :
    rootUid = some root ∧ s.currentlyExtracted.get? root = some cu := by
  cases rootUid with
  | none => simp [State.entryOf] at h
  | some r =>
      simp only [State.entryOf, Option.bind_some, Option.map_eq_some_iff, Prod.mk.injEq] at h
      rcases h with ⟨cu', hcu, rfl, rfl⟩
      exact ⟨rfl, hcu⟩

theorem entryOf_eq_none {s : State} {root : Uid} (h : s.entryOf (some root) = none) :
    root ∉ s.currentlyExtracted := by
  rw [Dict.notMem_iff]
  simpa [State.entryOf] using h

variable {maxDepth : Nat} {s s' : State} {tid : Nat}

/-! One lemma for each step that branches; the others are read off. -/

theorem next_enter (h : enter tid s = some s') : Next maxDepth s (.enter tid) s' := by
  rcases withThread_eq_some h with ⟨task, phase, hget, hf⟩
  cases phase with
  | started =>
      simp only at hf
      split at hf
      · rename_i hfw
        split at hf
        · rename_i hlock
          split at hf
          · rename_i hmem
            cases Option.some.inj hf
            exact Next.enterKnown hget hfw (Option.isNone_iff_eq_none.1 hlock) hmem
          · rename_i hnew
            cases Option.some.inj hf
            exact Next.enterNew hget hfw (Option.isNone_iff_eq_none.1 hlock) hnew
        · cases hf
      · rename_i hfw
        have hfile : task.isFirmware = false := by simpa using hfw
        split at hf
        · rename_i p hentry
          cases Option.some.inj hf
          rcases entryOf_eq_some hentry with ⟨hroot, hcu⟩
          exact Next.enterFile hget hfile hroot hcu
        · rename_i hentry
          cases Option.some.inj hf
          exact Next.enterSkip hget hfile hentry
  | _ => cases hf

theorem next_save (h : save tid s = some s') : Next maxDepth s (.save tid) s' := by
  rcases withThread_eq_some h with ⟨task, phase, hget, hf⟩
  cases phase with
  | saving present extracted =>
      simp only at hf
      split at hf
      · rename_i db hsave
        cases Option.some.inj hf
        exact Next.save hget hsave
      · cases hf
  | _ => cases hf

theorem next_dbInterfaceError (h : dbInterfaceError tid s = some s') :
    Next maxDepth s (.dbInterfaceError tid) s' := by
  rcases withThread_eq_some h with ⟨task, phase, hget, hf⟩
  cases phase with
  | querying extracted =>
      cases Option.some.inj hf
      exact Next.dbInterfaceError s.db hget trivial
  | posting extracted =>
      cases Option.some.inj hf
      exact Next.dbInterfaceError s.db hget trivial
  | saving present extracted =>
      simp only at hf
      split at hf
      · cases Option.some.inj hf
        exact Next.dbInterfaceError s.db hget trivial
      · rename_i db e hsave
        cases Option.some.inj hf
        exact Next.dbInterfaceError db hget trivial
  | _ => cases hf

theorem next_raises (h : raises tid s = some s') : Next maxDepth s (.raises tid) s' := by
  rcases withThread_eq_some h with ⟨task, phase, hget, hf⟩
  cases phase with
  | unpacking =>
      cases Option.some.inj hf
      exact Next.raises hget trivial
  | querying extracted =>
      cases Option.some.inj hf
      exact Next.raises hget trivial
  | saving present extracted =>
      cases Option.some.inj hf
      exact Next.raises hget trivial
  | posting extracted =>
      cases Option.some.inj hf
      exact Next.raises hget trivial
  | recording entry calls kept =>
      cases calls with
      | nil => cases hf
      | cons call rest =>
          cases Option.some.inj hf
          exact Next.raisesLocked hget
  | _ => cases hf

theorem next_fetch (h : fetch tid s = some s') : Next maxDepth s (.fetch tid) s' := by
  rcases withThread_eq_some h with ⟨task, phase, hget, hf⟩
  cases phase with
  | updating extracted =>
      simp only at hf
      split at hf
      · rename_i hlock
        split at hf
        · rename_i hentry
          cases Option.some.inj hf
          exact Next.fetchNone hget (Option.isNone_iff_eq_none.1 hlock) hentry
        · rename_i root cu hentry
          cases Option.some.inj hf
          rcases entryOf_eq_some hentry with ⟨hroot, hcu⟩
          exact Next.fetch hget (Option.isNone_iff_eq_none.1 hlock) hroot hcu
      · cases hf
  | _ => cases hf

theorem next_writeBack (h : writeBack tid s = some s') : Next maxDepth s (.writeBack tid) s' := by
  rcases withThread_eq_some h with ⟨task, phase, hget, hf⟩
  simp only at hf
  split at hf
  · rename_i entry kept root hroot
    split at hf
    · rename_i hempty
      split at hf
      · rename_i hmem
        cases Option.some.inj hf
        exact Next.writeBackPop hget hroot hempty hmem
      · rename_i hgone
        cases Option.some.inj hf
        exact Next.writeBackKeyError hget hroot hempty hgone
    · rename_i hne
      cases Option.some.inj hf
      exact Next.writeBackSet hget hroot hne
  · cases hf

/-- Every step is one of the listed ones. -/
theorem next_of_step {a : Action} (h : (machine maxDepth).step a s = some s') :
    Next maxDepth s a s' := by
  simp only [machine, step] at h
  -- a step of a thread needs the phase that it belongs to; any other phase blocks it
  cases a with
  | addTask fw =>
      simp only [addTask] at h
      split at h
      · rename_i hfw
        cases Option.some.inj h
        exact Next.addTask hfw
      · cases h
  | startThread tid =>
      simp only [startThread] at h
      split at h
      · cases h
      · rename_i task rest hqueue
        split at h
        · cases h
        · rename_i hfree
          cases Option.some.inj h
          exact Next.startThread hqueue hfree
  | enter tid => exact next_enter h
  | storeEntry tid =>
      rcases withThread_eq_some h with ⟨task, phase, hget, hf⟩
      cases phase with
      | initializing =>
          cases Option.some.inj hf
          exact Next.storeEntry hget
      | _ => cases hf
  | unpack tid files =>
      rcases withThread_eq_some h with ⟨task, phase, hget, hf⟩
      cases phase with
      | unpacking =>
          cases Option.some.inj hf
          exact Next.unpack hget
      | _ => cases hf
  | extractionError tid =>
      rcases withThread_eq_some h with ⟨task, phase, hget, hf⟩
      cases phase with
      | unpacking =>
          cases Option.some.inj hf
          exact Next.extractionError hget
      | _ => cases hf
  | query tid =>
      rcases withThread_eq_some h with ⟨task, phase, hget, hf⟩
      cases phase with
      | querying extracted =>
          cases Option.some.inj hf
          exact Next.query hget
      | _ => cases hf
  | save tid => exact next_save h
  | postUnpack tid =>
      rcases withThread_eq_some h with ⟨task, phase, hget, hf⟩
      cases phase with
      | posting extracted =>
          cases Option.some.inj hf
          exact Next.postUnpack hget
      | _ => cases hf
  | dbInterfaceError tid => exact next_dbInterfaceError h
  | raises tid => exact next_raises h
  | fetch tid => exact next_fetch h
  | dbCall tid =>
      rcases withThread_eq_some h with ⟨task, phase, hget, hf⟩
      cases phase with
      | recording entry calls kept =>
          cases calls with
          | nil => cases hf
          | cons call rest =>
              rcases Option.map_eq_some_iff.1 hf with ⟨db, hdb, rfl⟩
              exact Next.dbCall hget hdb
      | _ => cases hf
  | writeBack tid => exact next_writeBack h
  | put tid =>
      rcases withThread_eq_some h with ⟨task, phase, hget, hf⟩
      cases phase with
      | scheduling kept =>
          cases kept with
          | nil => cases hf
          | cons fo rest =>
              cases Option.some.inj hf
              exact Next.put hget
      | _ => cases hf
  | finish tid =>
      rcases withThread_eq_some h with ⟨task, phase, hget, hf⟩
      cases phase with
      | scheduling kept =>
          cases kept with
          | nil =>
              cases Option.some.inj hf
              exact Next.finish hget
          | cons fo rest => cases hf
      | _ => cases hf
  | cancelTest root =>
      simp only [cancelTest] at h
      split at h
      · cases h
      · rename_i hidle
        split at h
        · rename_i hmem
          cases Option.some.inj h
          exact Next.cancelTest hidle hmem
        · rename_i hgone
          cases Option.some.inj h
          exact Next.cancelAbsent hidle hgone
  | cancelPop =>
      simp only [cancelPop] at h
      split at h
      · cases h
      · rename_i root hcancelling
        split at h
        · rename_i hmem
          cases Option.some.inj h
          exact Next.cancelPop hcancelling hmem
        · rename_i hgone
          cases Option.some.inj h
          exact Next.cancelRaises hcancelling hgone

/-- The thread that takes the step. -/
def Action.thread : Action → Option Nat
  | .startThread tid | .enter tid | .storeEntry tid | .unpack tid _ | .extractionError tid
  | .query tid | .save tid | .postUnpack tid | .dbInterfaceError tid | .raises tid | .fetch tid
  | .dbCall tid | .writeBack tid | .put tid | .finish tid => some tid
  | .addTask _ | .cancelTest _ | .cancelPop => none

/-- A step changes no thread but its own. -/
theorem next_other {a : Action} (hnext : Next maxDepth s a s') (hother : a.thread ≠ some tid) :
    s'.threads.get? tid = s.threads.get? tid := by
  have hne : ∀ t, a.thread = some t → tid ≠ t := by
    rintro t ht rfl
    exact hother ht
  cases hnext with
  | addTask | cancelAbsent | cancelTest | cancelRaises | cancelPop => rfl
  | enterSkip | raises | raisesLocked | writeBackKeyError | finish =>
      exact Dict.get?_erase_ne _ (hne _ rfl)
  | _ => exact Dict.get?_set_ne _ _ (hne _ rfl)

/-! ## File objects in the scheduler -/

/-- How far a file object in the scheduler has come. The task of a thread has
the stage of its phase; `extracted` objects were found by a thread that has not
recorded them yet, `recorded` ones wait for the entry to be written back, and
`scheduled` ones for their put. -/
inductive Stage where
  | queued
  | started
  | initializing
  | unpacking
  | querying
  | saving
  | posting
  | updating
  | recording
  | extracted
  | recorded
  | scheduled
deriving DecidableEq

/-- The file objects of a thread. -/
def Phase.held (task : FileObject) : Phase → Multiset (Stage × FileObject)
  | .started => {(.started, task)}
  | .initializing => {(.initializing, task)}
  | .unpacking => {(.unpacking, task)}
  | .querying extracted => (.querying, task) ::ₘ ↑(extracted.map (Prod.mk Stage.extracted))
  | .saving _ extracted => (.saving, task) ::ₘ ↑(extracted.map (Prod.mk Stage.extracted))
  | .posting extracted => (.posting, task) ::ₘ ↑(extracted.map (Prod.mk Stage.extracted))
  | .updating extracted => (.updating, task) ::ₘ ↑(extracted.map (Prod.mk Stage.extracted))
  | .recording _ _ kept => (.recording, task) ::ₘ ↑(kept.map (Prod.mk Stage.recorded))
  | .scheduling kept => ↑(kept.map (Prod.mk Stage.scheduled))

/-- The stage of the task of a thread, until its bookkeeping is done. -/
def Phase.stage : Phase → Option Stage
  | .started => some .started
  | .initializing => some .initializing
  | .unpacking => some .unpacking
  | .querying _ => some .querying
  | .saving _ _ => some .saving
  | .posting _ => some .posting
  | .updating _ => some .updating
  | .recording _ _ _ => some .recording
  | .scheduling _ => none

/-- The files that a thread has recorded but not yet put into the queue. -/
def Phase.kept : Phase → List FileObject
  | .recording _ _ kept => kept
  | .scheduling kept => kept
  | _ => []

theorem task_mem_held {task : FileObject} {phase : Phase} {stage : Stage}
    (h : phase.stage = some stage) : (stage, task) ∈ phase.held task := by
  cases phase <;> cases h <;> simp [Phase.held]

/-- The file objects of a thread. -/
def Thread.held (th : Thread) : Multiset (Stage × FileObject) := th.phase.held th.task

/-- The file objects in a queue and in threads. -/
def heldIn (inQueue : List FileObject) (threads : Dict Nat Thread) :
    Multiset (Stage × FileObject) :=
  ↑(inQueue.map (Prod.mk Stage.queued)) + threads.sum Thread.held

/-- All file objects in the scheduler. -/
def State.held (s : State) : Multiset (Stage × FileObject) := heldIn s.inQueue s.threads

theorem heldIn_get {q : List FileObject} {threads : Dict Nat Thread} {tid : Nat}
    {task : FileObject} {phase : Phase} (h : threads.get? tid = some ⟨task, phase⟩) :
    heldIn q threads = phase.held task + heldIn q (threads.erase tid) := by
  unfold heldIn
  rw [Dict.sum_eq_add_erase Thread.held h]
  exact add_left_comm _ _ _

theorem heldIn_set (q : List FileObject) (threads : Dict Nat Thread) (tid : Nat)
    (task : FileObject) (phase : Phase) :
    heldIn q (threads.set tid ⟨task, phase⟩) =
      phase.held task + heldIn q (threads.erase tid) := by
  unfold heldIn
  rw [Dict.sum_set]
  exact add_left_comm _ _ _

theorem heldIn_pop (fo : FileObject) (q : List FileObject) (threads : Dict Nat Thread) :
    heldIn (fo :: q) threads = (.queued, fo) ::ₘ heldIn q threads := by
  unfold heldIn
  rw [List.map_cons, ← Multiset.cons_coe, Multiset.cons_add]

theorem heldIn_push (fo : FileObject) (q : List FileObject) (threads : Dict Nat Thread) :
    heldIn (q ++ [fo]) threads = (.queued, fo) ::ₘ heldIn q threads := by
  have hperm : (↑((q ++ [fo]).map (Prod.mk Stage.queued)) : Multiset (Stage × FileObject)) =
      ↑((fo :: q).map (Prod.mk Stage.queued)) :=
    Multiset.coe_eq_coe.2 (List.perm_append_singleton fo q |>.map _)
  rw [← heldIn_pop]
  unfold heldIn
  rw [hperm]

/-- The file object of a queue. -/
theorem queued_mem_held {s : State} {fo : FileObject} (h : fo ∈ s.inQueue) :
    (Stage.queued, fo) ∈ s.held := by
  refine Multiset.mem_add.2 (Or.inl ?_)
  exact List.mem_map_of_mem h

/-- The file objects of a thread are in the scheduler. -/
theorem held_of_thread {s : State} {tid : Nat} {task : FileObject} {phase : Phase}
    (h : s.threads.get? tid = some ⟨task, phase⟩) {x : Stage × FileObject}
    (hx : x ∈ phase.held task) : x ∈ s.held := by
  unfold State.held
  rw [heldIn_get h]
  exact Multiset.mem_add.2 (Or.inl hx)

theorem mem_list_sum {ι κ : Type} {f : ι → Multiset κ} {x : κ} {l : List ι} :
    x ∈ (l.map f).sum ↔ ∃ i ∈ l, x ∈ f i := by
  induction l with
  | nil => simp
  | cons i rest ih => simp [ih]

/-- Every file object is in the queue or in a thread. -/
theorem mem_held {s : State} {x : Stage × FileObject} : x ∈ s.held ↔
    (∃ fo ∈ s.inQueue, x = (.queued, fo)) ∨
      ∃ tid task phase, s.threads.get? tid = some ⟨task, phase⟩ ∧ x ∈ phase.held task := by
  constructor
  · intro h
    rcases Multiset.mem_add.1 h with hqueue | hthread
    · rcases List.mem_map.1 hqueue with ⟨fo, hfo, rfl⟩
      exact Or.inl ⟨fo, hfo, rfl⟩
    · rcases mem_list_sum.1 hthread with ⟨⟨tid, task, phase⟩, hmem, hx⟩
      exact Or.inr ⟨tid, task, phase, Dict.get?_eq_some_iff.2 hmem, hx⟩
  · rintro (⟨fo, hfo, rfl⟩ | ⟨tid, task, phase, hget, hx⟩)
    · exact queued_mem_held hfo
    · exact held_of_thread hget hx

/-- The queue is empty and no thread is running. -/
def State.Idle (s : State) : Prop := s.inQueue = [] ∧ s.threads.items = []

instance (s : State) : Decidable s.Idle := inferInstanceAs (Decidable (_ ∧ _))

/-- An idle scheduler holds nothing. -/
theorem held_of_idle {s : State} (h : s.Idle) : s.held = 0 := by
  simp only [State.held, heldIn, Dict.sum, h.1, h.2]
  rfl

/-- What the scheduler holds besides a thread. -/
def State.heldBeside (s : State) (tid : Nat) : Multiset (Stage × FileObject) :=
  heldIn s.inQueue (s.threads.erase tid)

/-! Each step takes out what its thread held and brings in what it holds
afterwards; the rest is `heldBeside`. -/

theorem held_thread {s : State} {tid : Nat} {task : FileObject} {phase : Phase}
    (hget : s.threads.get? tid = some ⟨task, phase⟩) :
    s.held = phase.held task + s.heldBeside tid :=
  heldIn_get hget

theorem held_moved {s s' : State} {tid : Nat} {task : FileObject} {phase : Phase}
    (hthreads : s'.threads = s.threads.set tid ⟨task, phase⟩) (hqueue : s'.inQueue = s.inQueue) :
    s'.held = phase.held task + s.heldBeside tid := by
  unfold State.held State.heldBeside
  rw [hthreads, hqueue]
  exact heldIn_set _ _ _ _ _

theorem held_ended {s s' : State} {tid : Nat} (hthreads : s'.threads = s.threads.erase tid)
    (hqueue : s'.inQueue = s.inQueue) : s'.held = s.heldBeside tid := by
  unfold State.held State.heldBeside
  rw [hthreads, hqueue]

theorem held_put {s s' : State} {tid : Nat} {task fo : FileObject} {phase : Phase}
    (hthreads : s'.threads = s.threads.set tid ⟨task, phase⟩)
    (hqueue : s'.inQueue = s.inQueue ++ [fo]) :
    s'.held = (.queued, fo) ::ₘ (phase.held task + s.heldBeside tid) := by
  unfold State.held State.heldBeside
  rw [hthreads, hqueue, heldIn_push, heldIn_set]

theorem held_added {s s' : State} {fo : FileObject} (hthreads : s'.threads = s.threads)
    (hqueue : s'.inQueue = s.inQueue ++ [fo]) : s'.held = (.queued, fo) ::ₘ s.held := by
  unfold State.held
  rw [hthreads, hqueue, heldIn_push]

theorem held_popped {s : State} {task : FileObject} {rest : List FileObject}
    (hqueue : s.inQueue = task :: rest) : s.held = (.queued, task) ::ₘ heldIn rest s.threads := by
  unfold State.held
  rw [hqueue, heldIn_pop]

theorem held_started {s s' : State} {tid : Nat} {task : FileObject} (hfree : tid ∉ s.threads)
    (hthreads : s'.threads = s.threads.set tid ⟨task, .started⟩) :
    s'.held = (.started, task) ::ₘ heldIn s'.inQueue s.threads := by
  unfold State.held
  rw [hthreads, heldIn_set, Dict.erase_of_notMem hfree]
  rfl

end FactCore.Unpacking
