import FactCore.Lib.Machine
import FactCore.Scheduler.UnpackingBookkeeping
import FactCore.Storage.DbInterfaceBackend

/-! # The unpacking scheduler

`UnpackingScheduler` of `scheduler/unpacking_scheduler.py` as a machine: the
extraction loop starts a thread for each task in `in_queue`, any number of
threads run `work_thread`, and the intercom process may cancel the unpacking of
a firmware. Every access to the shared dict `currently_extracted`, every call
to the unpacker, to the database and to `post_unpack`, and every put into the
queue is a step of its own, so the runs are the interleavings of the threads.
Calls that raise have steps of their own as well.

Shutting down and throttling, which only delay or stop the puts, are left out.
-/

namespace FactCore.Unpacking

open Tla

/-! ## State -/

/-- Where a thread stands in `work_thread`. -/
inductive Phase where
  /-- At the beginning. -/
  | started
  /-- In `_init_currently_unpacked`, having found no entry; holds the lock. -/
  | initializing
  /-- Before the call of `unpack`. -/
  | unpacking
  /-- In `add_object`, before `exists`. -/
  | querying (extracted : List FileObject)
  /-- In `add_object`, after `exists`. -/
  | saving (present : Bool) (extracted : List FileObject)
  /-- Before the call of `post_unpack`. -/
  | posting (extracted : List FileObject)
  /-- Before `_update_currently_unpacked`. -/
  | updating (extracted : List FileObject)
  /-- In `_update_currently_unpacked`, with a changed copy of the entry and the
  calls that are still to be made; holds the lock. -/
  | recording (entry : CurrentlyUnpacked) (calls : List DbCall) (kept : List FileObject)
  /-- In `_schedule_extracted_files`. -/
  | scheduling (kept : List FileObject)

/-- A running `work_thread`. -/
structure Thread where
  task : FileObject
  phase : Phase

/-- What has happened so far. The scheduler does not read it. -/
structure Log where
  puts : List Uid := []
  unpacked : List Uid := []
  returned : List Uid := []
  found : List Relation := []
  posted : List Uid := []
  /-- The firmware for which a worker raised because the entry had vanished. -/
  keyErrors : List Uid := []
  /-- The firmware for which a cancellation returned and no unpacking was started since. -/
  cancelled : Finset Uid := ∅

/-- The state of the scheduler, with the database and the log. -/
structure State where
  inQueue : List FileObject
  threads : Dict Nat Thread
  currentlyExtracted : Dict Uid CurrentlyUnpacked
  syncLock : Option Nat
  cancelling : Option Uid
  db : Db
  log : Log

namespace State

/-- The scheduler after `start`. -/
def init (db : Db) : State := ⟨[], ∅, ∅, none, none, db, {}⟩

/-- Move a thread. -/
def setThread (s : State) (tid : Nat) (task : FileObject) (phase : Phase) : State :=
  { s with threads := s.threads.set tid ⟨task, phase⟩ }

/-- A thread ends. -/
def endThread (s : State) (tid : Nat) : State := { s with threads := s.threads.erase tid }

def lock (s : State) (tid : Nat) : State := { s with syncLock := some tid }

def unlock (s : State) : State := { s with syncLock := none }

/-- The entry for the uid `rootUid`, which may be `None`. -/
def entryOf (s : State) (rootUid : Option Uid) : Option (Uid × CurrentlyUnpacked) :=
  rootUid.bind fun root => (s.currentlyExtracted.get? root).map (root, ·)

/-- What the thread `tid` does next. -/
def withThread (s : State) (tid : Nat) (f : FileObject → Phase → Option State) : Option State :=
  match s.threads.get? tid with
  | none => none
  | some th => f th.task th.phase

end State

/-! ## Steps -/

/-- The steps of the extraction loop, the threads and the canceller. -/
inductive Action where
  | addTask (fw : FileObject)
  | startThread (tid : Nat)
  | enter (tid : Nat)
  | storeEntry (tid : Nat)
  | unpack (tid : Nat) (files : List ExtractedFile)
  | extractionError (tid : Nat)
  | query (tid : Nat)
  | save (tid : Nat)
  | postUnpack (tid : Nat)
  | dbInterfaceError (tid : Nat)
  | raises (tid : Nat)
  | fetch (tid : Nat)
  | dbCall (tid : Nat)
  | writeBack (tid : Nat)
  | put (tid : Nat)
  | finish (tid : Nat)
  | cancelTest (rootUid : Uid)
  | cancelPop

/-- A successful call to the database; `none` if it raises. -/
def DbCall.run (db : Db) : DbCall → Option Db
  | .addVfp parent child paths => (db.addVfp parent child paths).toOption
  | .addChildToParent parent child => some (db.addChildToParent parent child)

/-- `add_task`. -/
def addTask (fw : FileObject) (s : State) : Option State :=
  if fw.isFirmware then
    some { s with
      inQueue := s.inQueue ++ [{ fw with rootUid := some fw.uid }]
      log := { s.log with puts := s.log.puts ++ [fw.uid] } }
  else none

/-- One round of `extraction_loop`. -/
def startThread (tid : Nat) (s : State) : Option State :=
  match s.inQueue with
  | [] => none
  | task :: rest =>
      if tid ∈ s.threads then none
      else
        let s' := { s with
          inQueue := rest
          log := { s.log with
            cancelled := if task.isFirmware then s.log.cancelled.erase task.uid
              else s.log.cancelled } }
        some (s'.setThread tid task .started)

/-- The test at the beginning of `work_thread`: a firmware initializes its
entry, a file without an entry is skipped. -/
def enter (tid : Nat) (s : State) : Option State :=
  s.withThread tid fun task phase =>
    match phase with
    | .started =>
        if task.isFirmware then
          if s.syncLock.isNone then
            if task.uid ∈ s.currentlyExtracted then some (s.setThread tid task .unpacking)
            else some ((s.lock tid).setThread tid task .initializing)
          else none
        else
          match s.entryOf task.rootUid with
          | some _ => some (s.setThread tid task .unpacking)
          | none => some (s.endThread tid)
    | _ => none

/-- The end of `_init_currently_unpacked`. -/
def storeEntry (tid : Nat) (s : State) : Option State :=
  s.withThread tid fun task phase =>
    match phase with
    | .initializing =>
        some ({ s.unlock with
          currentlyExtracted := s.currentlyExtracted.set task.uid (.new task.uid) }.setThread
            tid task .unpacking)
    | _ => none

/-- Where the objects say that they were found. -/
def relationsOf (parent : Uid) (fo : FileObject) : List Relation :=
  .edge parent fo.uid :: (fo.pathsIn parent).map (.path parent fo.uid)

/-- `unpack` returns. -/
def unpackReturns (maxDepth : Nat) (tid : Nat) (files : List ExtractedFile) (s : State) :
    Option State :=
  s.withThread tid fun task phase =>
    match phase with
    | .unpacking =>
        let (task', extracted) := Unpacker.unpack maxDepth task files
        let log := { s.log with
          unpacked := s.log.unpacked ++ [task.uid]
          returned := s.log.returned ++ extracted.map FileObject.uid
          found := s.log.found ++ extracted.flatMap (relationsOf task.uid) }
        some ({ s with log := log }.setThread tid task' (.querying extracted))
    | _ => none

/-- `unpack` raises an `ExtractionError`. -/
def extractionError (tid : Nat) (s : State) : Option State :=
  s.withThread tid fun task phase =>
    match phase with
    | .unpacking =>
        some ({ s with log := { s.log with unpacked := s.log.unpacked ++ [task.uid] } }.setThread
          tid task (.querying []))
    | _ => none

/-- `add_object` asks whether the file exists. -/
def query (tid : Nat) (s : State) : Option State :=
  s.withThread tid fun task phase =>
    match phase with
    | .querying extracted =>
        some (s.setThread tid task (.saving (s.db.exist task.uid) extracted))
    | _ => none

/-- `add_object` inserts or updates the file. -/
def save (tid : Nat) (s : State) : Option State :=
  s.withThread tid fun task phase =>
    match phase with
    | .saving present extracted =>
        match s.db.saveObject present task with
        | (db, none) => some ({ s with db := db }.setThread tid task (.posting extracted))
        | (_, some _) => none
    | _ => none

/-- `post_unpack` returns. -/
def postUnpack (tid : Nat) (s : State) : Option State :=
  s.withThread tid fun task phase =>
    match phase with
    | .posting extracted =>
        some ({ s with log := { s.log with posted := s.log.posted ++ [task.uid] } }.setThread
          tid task (.updating extracted))
    | _ => none

/-- `add_object` or `post_unpack` raises a `DbInterfaceError`: it is caught, and
the extracted files are forgotten. -/
def dbInterfaceError (tid : Nat) (s : State) : Option State :=
  s.withThread tid fun task phase =>
    match phase with
    | .querying _ => some (s.setThread tid task (.updating []))
    | .saving present _ =>
        match s.db.saveObject present task with
        | (_, none) => some (s.setThread tid task (.updating []))
        | (db, some _) => some ({ s with db := db }.setThread tid task (.updating []))
    | .posting _ => some (s.setThread tid task (.updating []))
    | _ => none

/-- Any other exception is raised: the wrapper swallows it and the thread ends. -/
def raises (tid : Nat) (s : State) : Option State :=
  s.withThread tid fun _ phase =>
    match phase with
    | .unpacking | .querying _ | .saving _ _ | .posting _ => some (s.endThread tid)
    | .recording _ (_ :: _) _ => some (s.unlock.endThread tid)
    | _ => none

/-- `_update_currently_unpacked` up to the calls: without an entry the
extracted files are dropped. -/
def fetch (tid : Nat) (s : State) : Option State :=
  s.withThread tid fun task phase =>
    match phase with
    | .updating extracted =>
        if s.syncLock.isNone then
          match s.entryOf task.rootUid with
          | none => some (s.setThread tid task (.scheduling []))
          | some (_, cu) =>
              let u := updateCurrentlyUnpacked cu task extracted
              some ((s.lock tid).setThread tid task (.recording u.entry u.calls u.kept))
        else none
    | _ => none

/-- The next call to the database. -/
def dbCall (tid : Nat) (s : State) : Option State :=
  s.withThread tid fun task phase =>
    match phase with
    | .recording entry (call :: rest) kept =>
        (call.run s.db).map fun db =>
          { s with db := db }.setThread tid task (.recording entry rest kept)
    | _ => none

/-- The end of `_update_currently_unpacked`: the entry is popped, which raises
if it is gone, or overwritten. -/
def writeBack (tid : Nat) (s : State) : Option State :=
  s.withThread tid fun task phase =>
    match phase, task.rootUid with
    | .recording entry [] kept, some root =>
        if entry.remaining = ∅ then
          if root ∈ s.currentlyExtracted then
            some ({ s.unlock with
              currentlyExtracted := s.currentlyExtracted.erase root }.setThread tid task
                (.scheduling kept))
          else
            some ({ s.unlock with
              log := { s.log with keyErrors := s.log.keyErrors ++ [root] } }.endThread tid)
        else
          some ({ s.unlock with
            currentlyExtracted := s.currentlyExtracted.set root entry }.setThread tid task
              (.scheduling kept))
    | _, _ => none

/-- One put of `_schedule_extracted_files`. -/
def put (tid : Nat) (s : State) : Option State :=
  s.withThread tid fun task phase =>
    match phase with
    | .scheduling (fo :: rest) =>
        some ({ s with
          inQueue := s.inQueue ++ [fo]
          log := { s.log with puts := s.log.puts ++ [fo.uid] } }.setThread tid task
            (.scheduling rest))
    | _ => none

/-- `work_thread` returns. -/
def finish (tid : Nat) (s : State) : Option State :=
  s.withThread tid fun _ phase =>
    match phase with
    | .scheduling [] => some (s.endThread tid)
    | _ => none

/-- `cancel_unpacking` tests for the entry, and returns if there is none. -/
def cancelTest (rootUid : Uid) (s : State) : Option State :=
  match s.cancelling with
  | some _ => none
  | none =>
      if rootUid ∈ s.currentlyExtracted then some { s with cancelling := some rootUid }
      else some { s with log := { s.log with cancelled := insert rootUid s.log.cancelled } }

/-- `cancel_unpacking` pops the entry; it raises, and does not return, if the
entry is gone meanwhile. -/
def cancelPop (s : State) : Option State :=
  match s.cancelling with
  | none => none
  | some root =>
      if root ∈ s.currentlyExtracted then
        some { s with
          cancelling := none
          currentlyExtracted := s.currentlyExtracted.erase root
          log := { s.log with cancelled := insert root s.log.cancelled } }
      else some { s with cancelling := none }

/-- One step. -/
def step (maxDepth : Nat) : Action → State → Option State
  | .addTask fw => addTask fw
  | .startThread tid => startThread tid
  | .enter tid => enter tid
  | .storeEntry tid => storeEntry tid
  | .unpack tid files => unpackReturns maxDepth tid files
  | .extractionError tid => extractionError tid
  | .query tid => query tid
  | .save tid => save tid
  | .postUnpack tid => postUnpack tid
  | .dbInterfaceError tid => dbInterfaceError tid
  | .raises tid => raises tid
  | .fetch tid => fetch tid
  | .dbCall tid => dbCall tid
  | .writeBack tid => writeBack tid
  | .put tid => put tid
  | .finish tid => finish tid
  | .cancelTest rootUid => cancelTest rootUid
  | .cancelPop => cancelPop

/-- The scheduler, from any database. -/
def machine (maxDepth : Nat) : Machine State Action where
  Init := fun s => ∃ db, s = State.init db
  step := step maxDepth

/-- An uploaded image, for runs on concrete files. -/
def image : FileObject :=
  .newFirmware "fw" "fw" 1 "fw" ⟨"fw", "1.0", "router", "vendor", "", "1970-01-01", []⟩

end FactCore.Unpacking
