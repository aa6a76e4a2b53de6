import Mathlib.Algebra.Order.Group.Multiset
import FactCore.Scheduler.AnalysisProgress
import FactCore.Scheduler.TaskScheduler

/-! # Scheduling many objects

The part of `scheduler/analysis/scheduler.py` that all objects share: the calls
that bring objects into the analysis, `process_queue`, the processes that take
objects up, and the status worker, which all of them send messages to.

The messages reach the worker with delay. `multiprocessing.Queue` keeps those of
one process in order, but a message may overtake those of other processes. What
happens to an object between being taken up and being checked again (it is
skipped, or analyzed and collected) matters here only for what it does to the
schedule; the way of a single object is the subject of `AnalysisScheduler`.
-/

namespace FactCore.AnalysisQueue

open Tla Status

/-! ## State -/

/-- The processes that send messages to the status worker. -/
inductive Sender where
  /-- The extraction process, whose threads call `start_analysis_of_object`. -/
  | unpacking
  /-- The process that calls `update_analysis_of_object_and_children`. -/
  | intercom
  /-- Any of the processes that take objects up, collect results or cancel. -/
  | other
deriving DecidableEq

/-- A message on its way to the status worker. -/
structure Sent where
  sender : Sender
  message : Message

/-- The message may reach the worker before one that was sent earlier. -/
def Sent.overtakes (m earlier : Sent) : Bool :=
  decide (m.sender = .other ∨ m.sender ≠ earlier.sender)

/-- A call of `start_analysis_of_object` or `update_analysis_of_object_and_children`
that has sent its messages: the requested plugins, and the objects that are still
to be checked, with whether their analyses are scheduled before. -/
structure Call where
  requested : List Plugin
  pending : List (FileObject × Bool)

/-- The state of the analysis scheduler, with the status worker and the unpacking locks. -/
structure State where
  processQueue : List FileObject
  /-- The objects that were taken up and are to be checked again. -/
  working : Dict Nat FileObject
  calls : Dict (Sender × Nat) Call
  statusQueue : List Sent
  worker : Worker
  /-- An exception in a handler ends the status worker. -/
  workerAlive : Bool
  unpackingLocks : Finset Uid

namespace State

/-- The scheduler after `start`. -/
def init : State := ⟨[], ∅, ∅, [], Worker.init, true, ∅⟩

/-- A message is put into the queue of the status worker. -/
def send (s : State) (sender : Sender) (message : Message) : State :=
  { s with statusQueue := s.statusQueue ++ [⟨sender, message⟩] }

/-- `set_unpacking_lock`. -/
def setUnpackingLock (s : State) (uid : Uid) : State :=
  { s with unpackingLocks := insert uid s.unpackingLocks }

/-- `release_unpacking_lock`. -/
def releaseUnpackingLock (s : State) (uid : Uid) : State :=
  { s with unpackingLocks := s.unpackingLocks.erase uid }

/-- `fw_analysis_is_in_progress`: a lookup in the dict that the worker shares. -/
def fwAnalysisIsInProgress (s : State) (fo : FileObject) : Bool :=
  (fo.rootUid.any fun root => decide (root ∈ s.worker.currentlyAnalyzed)) ||
    decide (fo.uid ∈ s.worker.currentlyAnalyzed)

/-- An object with analyses left goes on, unless its firmware is not in progress. -/
def goesOn (s : State) (fo : FileObject) : Bool :=
  fo.isFirmware || fo.rootUid.isNone || s.fwAnalysisIsInProgress fo

/-- `_check_further_process_or_complete`, in some process. -/
def checkFurtherProcessOrComplete (s : State) (sender : Sender) (fo : FileObject) : State :=
  if fo.scheduledAnalysis = [] then s.send sender (removeObject fo)
  else if s.goesOn fo then { s with processQueue := s.processQueue ++ [fo] }
  else s

end State

/-- `schedule_analysis_tasks` with the mandatory plugins; `none` if it raises. -/
def scheduleMandatory (plugins : Plugins) (shuffled : Shuffled) (rounds : Nat)
    (requested : List Plugin) (fo : FileObject) : Option FileObject :=
  match TaskScheduler.scheduleAnalysisTasks shuffled plugins requested true rounds with
  | some (.ok schedule) => some { fo with scheduledAnalysis := schedule }
  | _ => none

/-! ## Steps -/

inductive Action where
  /-- `start_analysis_of_object` in a thread of the extraction process. -/
  | start (tid : Nat) (fo : FileObject)
  /-- `update_analysis_of_object_and_children`, with what the database says. -/
  | update (n : Nat) (fo : FileObject) (included : Finset Uid) (children : List FileObject)
  /-- A call schedules and checks its next object. -/
  | check (caller : Sender × Nat) (shuffled : Shuffled) (rounds : Nat)
  /-- A call returns. -/
  | returnFrom (caller : Sender × Nat)
  /-- `_process_next_analysis_task` takes an object up. -/
  | take (k i : Nat)
  /-- `status.add_analysis`. -/
  | addAnalysis (i : Nat) (plugin : Plugin)
  /-- `reschedule_failed_analysis_task` removes a plugin. -/
  | unschedule (i : Nat) (plugin : Plugin)
  /-- The object was skipped or collected, and is checked. -/
  | finish (i : Nat)
  /-- The status worker handles a message. -/
  | deliver (i : Nat) (now : Time)
  /-- `cancel_analysis`. -/
  | cancel (rootUid : Uid)
  /-- The unpacker sets the lock of a file. -/
  | setLock (uid : Uid)

/-- `start_analysis_of_object` up to `add_object`. -/
def start (tid : Nat) (fo : FileObject) (s : State) : Option State :=
  if (.unpacking, tid) ∈ s.calls then none
  else some { s.send .unpacking (addObject fo) with
    calls := s.calls.set (.unpacking, tid) ⟨fo.scheduledAnalysis, [(fo, true)]⟩ }

/-- An included file as `update_analysis_of_object_and_children` prepares it. -/
def updatedChild (fo child : FileObject) : FileObject := { child with rootUid := some fo.uid }

/-- `update_analysis_of_object_and_children` up to `add_update`. The children are the
objects that are found for the included files. -/
def update (n : Nat) (fo : FileObject) (included : Finset Uid) (children : List FileObject)
    (s : State) : Option State :=
  if (.intercom, n) ∈ s.calls then none
  else if (children.map FileObject.uid).Nodup ∧ ∀ child ∈ children, child.uid ∈ included then
    let messages := addUpdate fo included
    some { ((s.releaseUnpackingLock fo.uid).send .intercom messages.1).send .intercom messages.2 with
      calls := s.calls.set (.intercom, n) ⟨fo.scheduledAnalysis,
        children.map (fun child => (updatedChild fo child, true)) ++ [(fo, false)]⟩ }
  else none

/-- The object that a call checks next. -/
def nextObject (plugins : Plugins) (shuffled : Shuffled) (rounds : Nat)
    (requested : List Plugin) : FileObject × Bool → Option FileObject
  | (fo, true) => scheduleMandatory plugins shuffled rounds requested fo
  | (fo, false) => some fo

/-- A call schedules and checks its next object. -/
def check (plugins : Plugins) (caller : Sender × Nat) (shuffled : Shuffled)
    (rounds : Nat) (s : State) : Option State :=
  match s.calls.get? caller with
  | some ⟨requested, next :: rest⟩ =>
      (nextObject plugins shuffled rounds requested next).map fun fo =>
        { s with calls := s.calls.set caller ⟨requested, rest⟩ }.checkFurtherProcessOrComplete
          caller.1 fo
  | _ => none

/-- A call that has nothing left to do returns. -/
def returnFrom (caller : Sender × Nat) (s : State) : Option State :=
  match s.calls.get? caller with
  | some ⟨_, []⟩ => some { s with calls := s.calls.erase caller }
  | _ => none

/-- `_process_next_analysis_task` releases the lock and takes a plugin off the
schedule. The queue does not keep the objects of different processes in order. -/
def take (k i : Nat) (s : State) : Option State :=
  match s.processQueue[k]? with
  | none => none
  | some fo =>
      if i ∈ s.working then none
      else some { s.releaseUnpackingLock fo.uid with
        processQueue := s.processQueue.eraseIdx k
        working := s.working.set i
          { fo with scheduledAnalysis := fo.scheduledAnalysis.dropLast } }

/-- `status.add_analysis`. -/
def addAnalysis (i : Nat) (plugin : Plugin) (s : State) : Option State :=
  (s.working.get? i).map fun fo => s.send .other (.addAnalysis fo.rootUid plugin)

/-- `scheduled_analysis.remove(plugin)`. -/
def unschedule (i : Nat) (plugin : Plugin) (s : State) : Option State :=
  (s.working.get? i).map fun fo =>
    { s with
      working := s.working.set i
        { fo with scheduledAnalysis := fo.scheduledAnalysis.erase plugin } }

/-- An object that was taken up is checked. -/
def finish (i : Nat) (s : State) : Option State :=
  (s.working.get? i).map fun fo =>
    { s with working := s.working.erase i }.checkFurtherProcessOrComplete .other fo

/-- The status worker handles a message that none of those before has to precede. -/
def deliver (i : Nat) (now : Time) (s : State) : Option State :=
  match s.statusQueue[i]? with
  | none => none
  | some m =>
      if s.workerAlive ∧ (s.statusQueue.take i).all m.overtakes then
        let rest := { s with statusQueue := s.statusQueue.eraseIdx i }
        match s.worker.updateStatus now m.message with
        | .ok worker => some { rest with worker := worker }
        | .error _ => some { rest with workerAlive := false }
      else none

/-- `cancel_analysis`. -/
def cancel (rootUid : Uid) (s : State) : State := s.send .other (.cancel rootUid)

/-- One step. -/
def step (plugins : Plugins) : Action → State → Option State
  | .start tid fo => start tid fo
  | .update n fo included children => update n fo included children
  | .check caller shuffled rounds => check plugins caller shuffled rounds
  | .returnFrom caller => returnFrom caller
  | .take k i => take k i
  | .addAnalysis i plugin => addAnalysis i plugin
  | .unschedule i plugin => unschedule i plugin
  | .finish i => finish i
  | .deliver i now => deliver i now
  | .cancel rootUid => fun s => some (cancel rootUid s)
  | .setLock uid => fun s => some (s.setUnpackingLock uid)

/-- The analysis scheduler. -/
def machine (plugins : Plugins) : Machine State Action where
  Init := fun s => s = State.init
  step := step plugins

/-! ## What a step can do -/

/-- All steps, by what they need. -/
inductive Next (plugins : Plugins) (s : State) : Action → State → Prop
  | start {tid : Nat} {fo : FileObject} (hfree : (.unpacking, tid) ∉ s.calls) :
      Next plugins s (.start tid fo) { s.send .unpacking (Status.addObject fo) with
        calls := s.calls.set (.unpacking, tid) ⟨fo.scheduledAnalysis, [(fo, true)]⟩ }
  | update {n : Nat} {fo : FileObject} {included : Finset Uid} {children : List FileObject}
      (hfree : (.intercom, n) ∉ s.calls) (hnodup : (children.map FileObject.uid).Nodup)
      (hincluded : ∀ child ∈ children, child.uid ∈ included) :
      Next plugins s (.update n fo included children)
        { ((s.releaseUnpackingLock fo.uid).send .intercom (Status.addObject fo)).send .intercom
            (.addUpdate fo.uid included) with
          calls := s.calls.set (.intercom, n) ⟨fo.scheduledAnalysis,
            children.map (fun child => (updatedChild fo child, true)) ++ [(fo, false)]⟩ }
  | check {caller : Sender × Nat} {shuffled : Shuffled} {rounds : Nat} {requested : List Plugin}
      {next : FileObject × Bool} {rest : List (FileObject × Bool)} {fo : FileObject}
      (hget : s.calls.get? caller = some ⟨requested, next :: rest⟩)
      (hobject : nextObject plugins shuffled rounds requested next = some fo) :
      Next plugins s (.check caller shuffled rounds)
        ({ s with calls := s.calls.set caller ⟨requested, rest⟩ }.checkFurtherProcessOrComplete
          caller.1 fo)
  | returnFrom {caller : Sender × Nat} {requested : List Plugin}
      (hget : s.calls.get? caller = some ⟨requested, []⟩) :
      Next plugins s (.returnFrom caller) { s with calls := s.calls.erase caller }
  | take {before after : List FileObject} {i : Nat} {fo : FileObject}
      (hqueue : s.processQueue = before ++ fo :: after) (hfree : i ∉ s.working) :
      Next plugins s (.take before.length i) { s.releaseUnpackingLock fo.uid with
        processQueue := before ++ after
        working := s.working.set i
          { fo with scheduledAnalysis := fo.scheduledAnalysis.dropLast } }
  | addAnalysis {i : Nat} {plugin : Plugin} {fo : FileObject} (hget : s.working.get? i = some fo) :
      Next plugins s (.addAnalysis i plugin) (s.send .other (.addAnalysis fo.rootUid plugin))
  | unschedule {i : Nat} {plugin : Plugin} {fo : FileObject} (hget : s.working.get? i = some fo) :
      Next plugins s (.unschedule i plugin) { s with
        working := s.working.set i
          { fo with scheduledAnalysis := fo.scheduledAnalysis.erase plugin } }
  | finish {i : Nat} {fo : FileObject} (hget : s.working.get? i = some fo) :
      Next plugins s (.finish i)
        ({ s with working := s.working.erase i }.checkFurtherProcessOrComplete .other fo)
  | deliver {before after : List Sent} {m : Sent} {now : Time} {worker : Worker}
      (hqueue : s.statusQueue = before ++ m :: after) (halive : s.workerAlive = true)
      (hover : ∀ e ∈ before, m.overtakes e = true)
      (hworker : s.worker.updateStatus now m.message = .ok worker) :
      Next plugins s (.deliver before.length now)
        { s with statusQueue := before ++ after, worker := worker }
  | deliverRaises {before after : List Sent} {m : Sent} {now : Time} {e : HandlerError}
      (hqueue : s.statusQueue = before ++ m :: after) (halive : s.workerAlive = true)
      (hover : ∀ e ∈ before, m.overtakes e = true)
      (hworker : s.worker.updateStatus now m.message = .error e) :
      Next plugins s (.deliver before.length now)
        { s with statusQueue := before ++ after, workerAlive := false }
  | cancel {root : Uid} : Next plugins s (.cancel root) (s.send .other (.cancel root))
  | setLock {uid : Uid} : Next plugins s (.setLock uid) (s.setUnpackingLock uid)

variable {plugins : Plugins} {s s' : State} {a : Action}

/-- An element of a list and what is around it. -/
theorem split_getElem? {α : Type} {xs : List α} {k : Nat} {x : α} (h : xs[k]? = some x) :
    ∃ before after, xs = before ++ x :: after ∧ before.length = k ∧ xs.take k = before ∧
      xs.eraseIdx k = before ++ after := by
  rcases List.getElem?_eq_some_iff.1 h with ⟨hlt, rfl⟩
  refine ⟨xs.take k, xs.drop (k + 1), ?_, List.length_take_of_le (Nat.le_of_lt hlt), rfl, ?_⟩
  · rw [List.getElem_cons_drop, List.take_append_drop]
  · rw [List.eraseIdx_eq_take_drop_succ]

/-- Every step is one of the listed ones. -/
theorem next_of_step (h : (machine plugins).step a s = some s') : Next plugins s a s' := by
  -- the guards of each function are the premises of its case
  cases a with
  | start tid fo =>
      have hstep : start tid fo s = some s' := h
      unfold start at hstep
      split at hstep
      · cases hstep
      · rename_i hfree
        cases hstep
        exact Next.start hfree
  | update n fo included children =>
      have hstep : update n fo included children s = some s' := h
      unfold update at hstep
      split at hstep
      · cases hstep
      · rename_i hfree
        split at hstep
        · rename_i hchildren
          cases hstep
          exact Next.update hfree hchildren.1 hchildren.2
        · cases hstep
  | check caller shuffled rounds =>
      have hstep : check plugins caller shuffled rounds s = some s' := h
      unfold check at hstep
      split at hstep
      · rename_i requested next rest hget
        rcases Option.map_eq_some_iff.1 hstep with ⟨fo, hobject, rfl⟩
        exact Next.check hget hobject
      · cases hstep
  | returnFrom caller =>
      have hstep : returnFrom caller s = some s' := h
      unfold returnFrom at hstep
      split at hstep
      · rename_i requested hget
        cases hstep
        exact Next.returnFrom hget
      · cases hstep
  | take k i =>
      have hstep : take k i s = some s' := h
      unfold take at hstep
      split at hstep
      · cases hstep
      · rename_i fo hget
        split at hstep
        · cases hstep
        · rename_i hfree
          rcases split_getElem? hget with ⟨before, after, hqueue, rfl, -, herase⟩
          cases hstep
          rw [herase]
          exact Next.take hqueue hfree
  | addAnalysis i plugin =>
      rcases Option.map_eq_some_iff.1 h with ⟨fo, hget, rfl⟩
      exact Next.addAnalysis hget
  | unschedule i plugin =>
      rcases Option.map_eq_some_iff.1 h with ⟨fo, hget, rfl⟩
      exact Next.unschedule hget
  | finish i =>
      rcases Option.map_eq_some_iff.1 h with ⟨fo, hget, rfl⟩
      exact Next.finish hget
  | deliver i now =>
      have hstep : deliver i now s = some s' := h
      unfold deliver at hstep
      split at hstep
      · cases hstep
      · rename_i m hget
        rcases split_getElem? hget with ⟨before, after, hqueue, rfl, htake, herase⟩
        split at hstep
        · -- the message may come before all that were sent earlier
          rename_i hcond
          rw [htake] at hcond
          have hover : ∀ e ∈ before, m.overtakes e = true := List.all_eq_true.1 hcond.2
          simp only [herase] at hstep
          split at hstep
          · rename_i worker hworker
            cases hstep
            exact Next.deliver hqueue hcond.1 hover hworker
          · rename_i e hworker
            cases hstep
            exact Next.deliverRaises hqueue hcond.1 hover hworker
        · cases hstep
  | cancel root =>
      cases Option.some.inj h
      exact Next.cancel
  | setLock uid =>
      cases Option.some.inj h
      exact Next.setLock

/-- `_check_further_process_or_complete` completes the object, puts it into the
queue, or removes it. -/
theorem check_cases (s : State) (sender : Sender) (fo : FileObject) :
    (fo.scheduledAnalysis = [] ∧ s.checkFurtherProcessOrComplete sender fo =
        s.send sender (removeObject fo)) ∨
      (fo.scheduledAnalysis ≠ [] ∧ s.goesOn fo = true ∧ s.checkFurtherProcessOrComplete sender fo =
        { s with processQueue := s.processQueue ++ [fo] }) ∨
      (fo.scheduledAnalysis ≠ [] ∧ s.goesOn fo = false ∧
        s.checkFurtherProcessOrComplete sender fo = s) := by
  unfold State.checkFurtherProcessOrComplete
  by_cases hempty : fo.scheduledAnalysis = []
  · exact Or.inl ⟨hempty, by rw [if_pos hempty]⟩
  · rw [if_neg hempty]
    cases hgoes : s.goesOn fo with
    | true => exact Or.inr (Or.inl ⟨hempty, rfl, by simp⟩)
    | false => exact Or.inr (Or.inr ⟨hempty, rfl, by simp⟩)

/-! ## The objects in the analysis -/

/-- The objects in a queue, in processes and in calls; those in the queue and in
calls with whether there are analyses for them whatever their schedule says. -/
def heldIn (processQueue : List FileObject) (working : Dict Nat FileObject)
    (calls : Dict (Sender × Nat) Call) : Multiset (FileObject × Bool) :=
  ↑(processQueue.map (·, true)) + working.sum (fun fo => {(fo, false)}) +
    calls.sum (fun call => (call.pending : Multiset (FileObject × Bool)))

/-- All objects in the analysis. -/
def State.held (s : State) : Multiset (FileObject × Bool) :=
  heldIn s.processQueue s.working s.calls

section Held

variable {queue : List FileObject} {working : Dict Nat FileObject}
  {calls : Dict (Sender × Nat) Call} {caller : Sender × Nat} {requested : List Plugin}
  {i : Nat} {fo : FileObject}

/-- An object at any place of the queue. -/
theorem heldIn_mid (before after : List FileObject) :
    heldIn (before ++ fo :: after) working calls =
      (fo, true) ::ₘ heldIn (before ++ after) working calls := by
  have hperm : (↑((before ++ fo :: after).map (·, true)) : Multiset (FileObject × Bool)) =
      ↑((fo :: (before ++ after)).map (·, true)) :=
    Multiset.coe_eq_coe.2 (List.perm_middle.map _)
  unfold heldIn
  rw [hperm, List.map_cons, ← Multiset.cons_coe, Multiset.cons_add, Multiset.cons_add]

theorem heldIn_push : heldIn (queue ++ [fo]) working calls =
    (fo, true) ::ₘ heldIn queue working calls := by
  rw [heldIn_mid, List.append_nil]

/-- An object that was taken up. -/
theorem heldIn_working (hget : working.get? i = some fo) :
    heldIn queue working calls = (fo, false) ::ₘ heldIn queue (working.erase i) calls := by
  unfold heldIn
  rw [Dict.sum_eq_add_erase _ hget, Multiset.singleton_add, Multiset.add_cons, Multiset.cons_add]

theorem heldIn_set_working (fo : FileObject) :
    heldIn queue (working.set i fo) calls =
      (fo, false) ::ₘ heldIn queue (working.erase i) calls := by
  rw [heldIn_working (Dict.get?_set_self working i fo), Dict.erase_set]

/-- The objects of a call. -/
theorem heldIn_call {call : Call} (hget : calls.get? caller = some call) :
    heldIn queue working calls =
      (call.pending : Multiset (FileObject × Bool)) + heldIn queue working (calls.erase caller) := by
  unfold heldIn
  rw [Dict.sum_eq_add_erase _ hget]
  exact add_left_comm _ _ _

theorem heldIn_set_call (call : Call) :
    heldIn queue working (calls.set caller call) =
      (call.pending : Multiset (FileObject × Bool)) + heldIn queue working (calls.erase caller) := by
  unfold heldIn
  rw [Dict.sum_set]
  exact add_left_comm _ _ _

/-- The next object of a call. -/
theorem heldIn_next {next : FileObject × Bool} {rest : List (FileObject × Bool)}
    (hget : calls.get? caller = some ⟨requested, next :: rest⟩) :
    heldIn queue working calls =
      next ::ₘ heldIn queue working (calls.set caller ⟨requested, rest⟩) := by
  rw [heldIn_call hget, heldIn_set_call, ← Multiset.cons_coe, Multiset.cons_add]

/-- A call that begins. -/
theorem heldIn_begin (hfree : caller ∉ calls) (call : Call) :
    heldIn queue working (calls.set caller call) =
      (call.pending : Multiset (FileObject × Bool)) + heldIn queue working calls := by
  rw [heldIn_set_call, Dict.erase_of_notMem hfree]

/-- A call that returns. -/
theorem heldIn_return (hget : calls.get? caller = some ⟨requested, []⟩) :
    heldIn queue working (calls.erase caller) = heldIn queue working calls := by
  rw [heldIn_call hget, Multiset.coe_nil, zero_add]

end Held

end FactCore.AnalysisQueue
