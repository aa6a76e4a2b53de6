import FactCore.Lib.Machine
import FactCore.Objects.FileObject

/-! # Single file analysis requests

`InterComBackEndSingleFileTask` of `intercom/back_end_binding.py` with the
listener and the response threads of `common_redis_binding.py`. The listener
takes a request from the queue, creates an event for its completion, stores it
in a dict under the uid of the file, starts a thread that will answer the
request, and starts the analysis, whose callback sets the event. The thread
takes the event out of the dict and waits for it for at most a minute.

Every access to the dict, to an event or to Redis is one step. Time is not
modelled: a wait may run out at any moment at which its event is not set.
Since the dict has one place for each uid, `Undisturbed` names the steps after
which a thread may take the event of another request; without them every
response is right.
-/

namespace FactCore.SingleFileTask

open Tla

/-- The id of a request; the frontend draws a new one for each. -/
abbrev TaskId := Nat

/-- An event of the manager. -/
abbrev Event := Nat

/-- A request in the queue: `(task, task_id)`. -/
structure Request where
  taskId : TaskId
  uid : Uid
deriving DecidableEq, Repr

/-- A request after `pre_process`; its callback sets the event. -/
structure Task where
  taskId : TaskId
  uid : Uid
  callback : Event
deriving DecidableEq, Repr

/-- Where the listener stands: waiting for a request, in `pre_process` before
and after it has stored the event, and before the processing function. -/
inductive Listener where
  | idle
  | received (request : Request)
  | eventStored (task : Task)
  | threadStarted (task : Task)
deriving DecidableEq, Repr

/-- Where a response thread stands in `_get_response_asynchronously`. `waited`
keeps whether the wait ran out, which the code does not look at. -/
inductive Phase where
  | started
  | waiting (event : Event)
  | waited (event : Event) (timedOut : Bool)
  | answering (response : Bool)
  | finished
deriving DecidableEq, Repr

/-- A response thread. -/
structure ResponseThread where
  task : Task
  phase : Phase
deriving DecidableEq, Repr

/-- An analysis that was started for a request. -/
structure Analysis where
  task : Task
  completed : Bool
deriving DecidableEq, Repr

/-- The queue and the responses in Redis, the dict `events`, the events that are
set, the listener, the response threads and the analyses. Events are numbered
in the order of their creation. -/
structure State where
  queue : List Request
  responses : Dict TaskId Bool
  events : Dict Uid Event
  isSet : Finset Event
  nextEvent : Event
  listener : Listener
  threads : Dict TaskId ResponseThread
  analyses : Dict TaskId Analysis

inductive Action where
  | queueGet
  | storeEvent
  | startThread
  | process
  | pop (taskId : TaskId)
  | wakeUp (taskId : TaskId)
  | timeOut (taskId : TaskId)
  | check (taskId : TaskId)
  | respond (taskId : TaskId)
  | complete (taskId : TaskId)
deriving DecidableEq, Repr

/-- The thread of a request moves on to another phase. -/
def State.setPhase (s : State) (taskId : TaskId) (task : Task) (phase : Phase) : State :=
  { s with threads := s.threads.set taskId ⟨task, phase⟩ }

/-- One step. -/
def step : Action → State → Option State
  | .queueGet, s =>
      match s.listener, s.queue with
      | .idle, request :: queue => some { s with listener := .received request, queue := queue }
      | _, _ => none
  | .storeEvent, s =>
      match s.listener with
      | .received request =>
          some { s with
            events := s.events.set request.uid s.nextEvent
            nextEvent := s.nextEvent + 1
            listener := .eventStored ⟨request.taskId, request.uid, s.nextEvent⟩ }
      | _ => none
  | .startThread, s =>
      match s.listener with
      | .eventStored task =>
          some { s.setPhase task.taskId task .started with listener := .threadStarted task }
      | _ => none
  | .process, s =>
      match s.listener with
      | .threadStarted task =>
          some { s with
            analyses := s.analyses.set task.taskId ⟨task, false⟩
            listener := .idle }
      | _ => none
  | .pop taskId, s =>
      match s.threads.get? taskId with
      | some ⟨task, .started⟩ =>
          match s.events.get? task.uid with
          | some event =>
              some { s.setPhase taskId task (.waiting event) with events := s.events.erase task.uid }
          -- `KeyError`
          | none => some (s.setPhase taskId task (.answering false))
      | _ => none
  | .wakeUp taskId, s =>
      match s.threads.get? taskId with
      | some ⟨task, .waiting event⟩ =>
          if event ∈ s.isSet then some (s.setPhase taskId task (.waited event false)) else none
      | _ => none
  | .timeOut taskId, s =>
      match s.threads.get? taskId with
      | some ⟨task, .waiting event⟩ =>
          if event ∈ s.isSet then none else some (s.setPhase taskId task (.waited event true))
      | _ => none
  | .check taskId, s =>
      match s.threads.get? taskId with
      | some ⟨task, .waited event _⟩ =>
          some (s.setPhase taskId task (.answering (decide (event ∈ s.isSet))))
      | _ => none
  | .respond taskId, s =>
      match s.threads.get? taskId with
      | some ⟨task, .answering response⟩ =>
          some { s.setPhase taskId task .finished with
            responses := s.responses.set taskId response }
      | _ => none
  | .complete taskId, s =>
      match s.analyses.get? taskId with
      | some ⟨task, false⟩ =>
          some { s with
            analyses := s.analyses.set taskId ⟨task, true⟩
            isSet := insert task.callback s.isSet }
      | _ => none

/-- Any requests that are in the queue, with different ids. -/
structure Start where
  queue : List Request
  nodup : (queue.map Request.taskId).Nodup

/-- The state before the listener takes the first request. -/
def Start.state (start : Start) : State where
  queue := start.queue
  responses := ∅
  events := ∅
  isSet := ∅
  nextEvent := 0
  listener := .idle
  threads := ∅
  analyses := ∅

/-- The requests whose wait has run out, and those whose analysis was completed
before that. -/
structure History where
  timedOut : List TaskId
  inTime : List TaskId

/-- What the history keeps of a step. -/
def observe : Action → State → History → History
  | .timeOut taskId, _, h => { h with timedOut := taskId :: h.timedOut }
  | .complete taskId, _, h =>
      if taskId ∈ h.timedOut then h else { h with inTime := taskId :: h.inTime }
  | _, _, h => h

/-- The machine with its history. -/
def machine (start : Start) : Machine (State × History) Action :=
  Machine.withHistory { Init := fun s => s = start.state, step := step } ⟨[], []⟩ observe

/-- The wait has run out and the thread has not looked at the event again. -/
def Phase.Unchecked : Phase → Prop
  | .waited _ true => True
  | _ => False

/-- The listener stores an event only if the dict holds none for the uid, and no
analysis is completed after the wait of its thread has run out but before the
thread looks at the event. -/
def Undisturbed (s : State) : Action → Prop
  | .storeEvent =>
      match s.listener with
      | .received request => request.uid ∉ s.events
      | _ => True
  | .complete taskId => ∀ thread ∈ s.threads.get? taskId, ¬ thread.phase.Unchecked
  | _ => True

instance : ∀ phase, Decidable (Phase.Unchecked phase)
  | .started => inferInstanceAs (Decidable False)
  | .waiting _ => inferInstanceAs (Decidable False)
  | .waited _ true => inferInstanceAs (Decidable True)
  | .waited _ false => inferInstanceAs (Decidable False)
  | .answering _ => inferInstanceAs (Decidable False)
  | .finished => inferInstanceAs (Decidable False)

instance (s : State) : ∀ a, Decidable (Undisturbed s a)
  | .storeEvent =>
      match h : s.listener with
      | .idle => isTrue (by simp [Undisturbed, h])
      | .received request => decidable_of_iff (request.uid ∉ s.events) (by simp [Undisturbed, h])
      | .eventStored _ => isTrue (by simp [Undisturbed, h])
      | .threadStarted _ => isTrue (by simp [Undisturbed, h])
  | .complete taskId => inferInstanceAs (Decidable (∀ thread ∈ s.threads.get? taskId, _))
  | .queueGet => inferInstanceAs (Decidable True)
  | .startThread => inferInstanceAs (Decidable True)
  | .process => inferInstanceAs (Decidable True)
  | .pop _ => inferInstanceAs (Decidable True)
  | .wakeUp _ => inferInstanceAs (Decidable True)
  | .timeOut _ => inferInstanceAs (Decidable True)
  | .check _ => inferInstanceAs (Decidable True)
  | .respond _ => inferInstanceAs (Decidable True)

/-! ## What one step can do -/

/-- The steps of the machine, one constructor for each way a step can go. -/
inductive Next (s : State) : Action → State → Prop
  | queueGet {request : Request} {queue : List Request} (hlistener : s.listener = .idle)
      (hqueue : s.queue = request :: queue) :
      Next s .queueGet { s with listener := .received request, queue := queue }
  | storeEvent {request : Request} (hlistener : s.listener = .received request) :
      Next s .storeEvent { s with
        events := s.events.set request.uid s.nextEvent
        nextEvent := s.nextEvent + 1
        listener := .eventStored ⟨request.taskId, request.uid, s.nextEvent⟩ }
  | startThread {task : Task} (hlistener : s.listener = .eventStored task) :
      Next s .startThread { s.setPhase task.taskId task .started with
        listener := .threadStarted task }
  | process {task : Task} (hlistener : s.listener = .threadStarted task) :
      Next s .process { s with
        analyses := s.analyses.set task.taskId ⟨task, false⟩
        listener := .idle }
  | pop {taskId : TaskId} {task : Task} {event : Event}
      (hthread : s.threads.get? taskId = some ⟨task, .started⟩)
      (hevent : s.events.get? task.uid = some event) :
      Next s (.pop taskId) { s.setPhase taskId task (.waiting event) with
        events := s.events.erase task.uid }
  | popKeyError {taskId : TaskId} {task : Task}
      (hthread : s.threads.get? taskId = some ⟨task, .started⟩)
      (hevent : s.events.get? task.uid = none) :
      Next s (.pop taskId) (s.setPhase taskId task (.answering false))
  | wakeUp {taskId : TaskId} {task : Task} {event : Event}
      (hthread : s.threads.get? taskId = some ⟨task, .waiting event⟩) (hset : event ∈ s.isSet) :
      Next s (.wakeUp taskId) (s.setPhase taskId task (.waited event false))
  | timeOut {taskId : TaskId} {task : Task} {event : Event}
      (hthread : s.threads.get? taskId = some ⟨task, .waiting event⟩) (hset : event ∉ s.isSet) :
      Next s (.timeOut taskId) (s.setPhase taskId task (.waited event true))
  | check {taskId : TaskId} {task : Task} {event : Event} {timedOut : Bool}
      (hthread : s.threads.get? taskId = some ⟨task, .waited event timedOut⟩) :
      Next s (.check taskId) (s.setPhase taskId task (.answering (decide (event ∈ s.isSet))))
  | respond {taskId : TaskId} {task : Task} {response : Bool}
      (hthread : s.threads.get? taskId = some ⟨task, .answering response⟩) :
      Next s (.respond taskId) { s.setPhase taskId task .finished with
        responses := s.responses.set taskId response }
  | complete {taskId : TaskId} {task : Task}
      (hanalysis : s.analyses.get? taskId = some ⟨task, false⟩) :
      Next s (.complete taskId) { s with
        analyses := s.analyses.set taskId ⟨task, true⟩
        isSet := insert task.callback s.isSet }

theorem next_of_step {a : Action} {s s' : State} (h : step a s = some s') : Next s a s' := by
  cases a with
  | queueGet =>
      simp only [step] at h
      split at h
      · rename_i hlistener hqueue
        cases h
        exact Next.queueGet hlistener hqueue
      · cases h
  | storeEvent =>
      simp only [step] at h
      split at h
      · rename_i hlistener
        cases h
        exact Next.storeEvent hlistener
      · cases h
  | startThread =>
      simp only [step] at h
      split at h
      · rename_i hlistener
        cases h
        exact Next.startThread hlistener
      · cases h
  | process =>
      simp only [step] at h
      split at h
      · rename_i hlistener
        cases h
        exact Next.process hlistener
      · cases h
  | pop taskId =>
      simp only [step] at h
      split at h
      · rename_i task hthread
        split at h
        · rename_i event hevent
          cases h
          exact Next.pop hthread hevent
        · rename_i hevent
          cases h
          exact Next.popKeyError hthread hevent
      · cases h
  | wakeUp taskId =>
      simp only [step] at h
      split at h
      · rename_i task event hthread
        split at h
        · rename_i hset
          cases h
          exact Next.wakeUp hthread hset
        · cases h
      · cases h
  | timeOut taskId =>
      simp only [step] at h
      split at h
      · rename_i task event hthread
        split at h
        · cases h
        · rename_i hset
          cases h
          exact Next.timeOut hthread hset
      · cases h
  | check taskId =>
      simp only [step] at h
      split at h
      · rename_i hthread
        cases h
        exact Next.check hthread
      · cases h
  | respond taskId =>
      simp only [step] at h
      split at h
      · rename_i hthread
        cases h
        exact Next.respond hthread
      · cases h
  | complete taskId =>
      simp only [step] at h
      split at h
      · rename_i hanalysis
        cases h
        exact Next.complete hanalysis
      · cases h

/-- What the history of a run keeps of its last step. -/
theorem machine_step {start : Start} {a : Action} {p p' : State × History}
    (h : (machine start).step a p = some p') : Next p.1 a p'.1 ∧ p'.2 = observe a p.1 p.2 := by
  obtain ⟨hstep, hhistory⟩ := Machine.step_withHistory h
  exact ⟨next_of_step hstep, hhistory⟩

/-! ## Every request is answered

No step adds work, so the runs are finite. A run that cannot go on has taken
every request from the queue, and every thread has sent its response. -/

/-- The request that the listener holds without having started its thread. -/
def Listener.ids : Listener → List TaskId
  | .idle => []
  | .received request => [request.taskId]
  | .eventStored task => [task.taskId]
  | .threadStarted _ => []

/-- The requests without a thread. -/
def State.waitingIds (s : State) : List TaskId :=
  s.listener.ids ++ s.queue.map Request.taskId

/-- Every request waits or has a thread, but not both; a thread that has
finished has sent its response. -/
structure Basic (start : Start) (s : State) : Prop where
  nodup : s.waitingIds.Nodup
  noThread : ∀ taskId ∈ s.waitingIds, taskId ∉ s.threads
  key : ∀ taskId thread, s.threads.get? taskId = some thread → thread.task.taskId = taskId
  kept : ∀ request ∈ start.queue,
    request.taskId ∈ s.waitingIds ∨ request.taskId ∈ s.threads
  answered : ∀ taskId thread, s.threads.get? taskId = some thread → thread.phase = .finished →
    ∃ response, s.responses.get? taskId = some response

variable {start : Start} {s s' : State} {h h' : History} {a : Action}

/-- What holds of the thread that moved on and held of the others holds of all. -/
theorem get?_setPhase {taskId taskId' : TaskId} {task : Task} {phase : Phase}
    {thread : ResponseThread}
    (hget : (s.setPhase taskId task phase).threads.get? taskId' = some thread) :
    (taskId' = taskId ∧ thread = ⟨task, phase⟩) ∨
      (taskId' ≠ taskId ∧ s.threads.get? taskId' = some thread) := by
  simp only [State.setPhase, Dict.get?_set] at hget
  by_cases heq : taskId' = taskId
  · exact Or.inl ⟨heq, by simpa [heq] using hget.symm⟩
  · exact Or.inr ⟨heq, by simpa [heq] using hget⟩

/-- A step that only moves a thread on, possibly with a response. -/
theorem Basic.setPhase {taskId : TaskId} {thread : ResponseThread} {phase : Phase}
    (hb : Basic start s) (hthread : s.threads.get? taskId = some thread)
    (hthreads : s'.threads = s.threads.set taskId ⟨thread.task, phase⟩)
    (hlistener : s'.listener = s.listener) (hqueue : s'.queue = s.queue)
    (hold : ∀ taskId' response, s.responses.get? taskId' = some response →
      ∃ response', s'.responses.get? taskId' = some response')
    (hresponse : phase = .finished → ∃ response, s'.responses.get? taskId = some response) :
    Basic start s' := by
  have hids : s'.waitingIds = s.waitingIds := by rw [State.waitingIds, hlistener, hqueue]; rfl
  have hmem : ∀ taskId', taskId' ∈ s'.threads ↔ taskId' ∈ s.threads := by
    intro taskId'
    rw [hthreads, Dict.mem_set]
    constructor
    · rintro (rfl | hmem)
      · exact Dict.mem_of_get? hthread
      · exact hmem
    · exact Or.inr
  constructor
  · rw [hids]
    exact hb.nodup
  · intro taskId' hwaiting
    rw [hmem]
    exact hb.noThread taskId' (hids ▸ hwaiting)
  · intro taskId' thread' hget
    rw [hthreads] at hget
    rcases get?_setPhase (s := s) hget with ⟨rfl, rfl⟩ | ⟨-, hget⟩
    · exact hb.key taskId' thread hthread
    · exact hb.key taskId' thread' hget
  · intro request hrequest
    rw [hids, hmem]
    exact hb.kept request hrequest
  · intro taskId' thread' hget hphase
    rw [hthreads] at hget
    rcases get?_setPhase (s := s) hget with ⟨rfl, rfl⟩ | ⟨-, hget⟩
    · exact hresponse hphase
    · obtain ⟨response, hresponse⟩ := hb.answered taskId' thread' hget hphase
      exact hold taskId' response hresponse

/-- A step after which the same requests wait, and the threads and the responses are
as before. -/
theorem Basic.frame (hb : Basic start s) (hids : s'.waitingIds = s.waitingIds)
    (hthreads : s'.threads = s.threads) (hresponses : s'.responses = s.responses) :
    Basic start s' := by
  constructor
  · rw [hids]
    exact hb.nodup
  · rw [hids, hthreads]
    exact hb.noThread
  · rw [hthreads]
    exact hb.key
  · rw [hids, hthreads]
    exact hb.kept
  · rw [hthreads, hresponses]
    exact hb.answered

/-- The listener starts the thread of the request that has waited longest. -/
theorem Basic.startThread {task : Task} (hb : Basic start s)
    (hlistener : s.listener = .eventStored task) :
    Basic start { s.setPhase task.taskId task .started with listener := .threadStarted task } := by
  have hids : s.waitingIds = task.taskId :: s.queue.map Request.taskId := by
    rw [State.waitingIds, hlistener]
    rfl
  obtain ⟨h1, h2, h3, h4, h5⟩ := hb
  rw [hids] at h1 h2
  obtain ⟨hnot, hnodup⟩ := List.nodup_cons.1 h1
  constructor
  · exact hnodup
  · intro taskId hmem hthread
    rcases Dict.mem_set.1 hthread with rfl | hthread
    · exact hnot hmem
    · exact h2 taskId (List.mem_cons_of_mem _ hmem) hthread
  · intro taskId thread hget
    rcases get?_setPhase hget with ⟨rfl, rfl⟩ | ⟨-, hget⟩
    · rfl
    · exact h3 taskId thread hget
  · intro request hrequest
    -- the first of those that waited has a thread now
    have hmem := h4 request hrequest
    rw [hids, List.mem_cons] at hmem
    rcases hmem with (heq | hmem) | hmem
    · exact Or.inr (Dict.mem_set.2 (Or.inl heq))
    · exact Or.inl hmem
    · exact Or.inr (Dict.mem_set.2 (Or.inr hmem))
  · intro taskId thread hget hphase
    rcases get?_setPhase hget with ⟨rfl, rfl⟩ | ⟨-, hget⟩
    · cases hphase
    · exact h5 taskId thread hget hphase

theorem next_basic (hnext : Next s a s') (hb : Basic start s) : Basic start s' := by
  cases hnext with
  | queueGet hlistener hqueue =>
      refine hb.frame ?_ rfl rfl
      rw [State.waitingIds, State.waitingIds, hlistener, hqueue]
      rfl
  | storeEvent hlistener =>
      refine hb.frame ?_ rfl rfl
      rw [State.waitingIds, State.waitingIds, hlistener]
      rfl
  | startThread hlistener => exact hb.startThread hlistener
  | process hlistener =>
      refine hb.frame ?_ rfl rfl
      rw [State.waitingIds, State.waitingIds, hlistener]
      rfl
  | pop hthread =>
      exact hb.setPhase hthread rfl rfl rfl (fun _ response hr => ⟨response, hr⟩) (by simp)
  | popKeyError hthread =>
      exact hb.setPhase hthread rfl rfl rfl (fun _ response hr => ⟨response, hr⟩) (by simp)
  | wakeUp hthread =>
      exact hb.setPhase hthread rfl rfl rfl (fun _ response hr => ⟨response, hr⟩) (by simp)
  | timeOut hthread =>
      exact hb.setPhase hthread rfl rfl rfl (fun _ response hr => ⟨response, hr⟩) (by simp)
  | check hthread =>
      exact hb.setPhase hthread rfl rfl rfl (fun _ response hr => ⟨response, hr⟩) (by simp)
  | @respond taskId task response hthread =>
      refine hb.setPhase hthread rfl rfl rfl ?_ fun _ => ⟨response, Dict.get?_set_self _ _ _⟩
      intro taskId' response' hr
      by_cases heq : taskId' = taskId
      · exact ⟨response, by simp [heq]⟩
      · exact ⟨response', by rw [Dict.get?_set_ne _ _ heq]; exact hr⟩
  | complete => exact hb.frame rfl rfl rfl

theorem init_basic (start : Start) : Basic start start.state := by
  constructor
  · exact start.nodup
  · intro taskId _ hthread
    cases hthread
  · intro taskId thread hget
    cases hget
  · intro request hrequest
    exact Or.inl (List.mem_map_of_mem hrequest)
  · intro taskId thread hget
    cases hget

/-- The listener and the response threads cannot go on. -/
def Stuck (s : State) : Prop := ∀ a, (∀ taskId, a ≠ .complete taskId) → step a s = none

/-- When the listener and the threads cannot go on, every request has a response. -/
theorem Basic.all_answered (hb : Basic start s) (hstuck : Stuck s) :
    ∀ request ∈ start.queue, ∃ response, s.responses.get? request.taskId = some response := by
  have hidle : s.listener = .idle := by
    cases hlistener : s.listener with
    | idle => rfl
    | received request => simpa [step, hlistener] using hstuck .storeEvent (by simp)
    | eventStored task => simpa [step, hlistener] using hstuck .startThread (by simp)
    | threadStarted task => simpa [step, hlistener] using hstuck .process (by simp)
  have hempty : s.queue = [] := by
    cases hqueue : s.queue with
    | nil => rfl
    | cons request queue => simpa [step, hidle, hqueue] using hstuck .queueGet (by simp)
  intro request hrequest
  have hids : s.waitingIds = [] := by rw [State.waitingIds, hidle, hempty]; rfl
  have hthread := (hb.kept request hrequest).resolve_left (by simp [hids])
  obtain ⟨⟨task, phase⟩, hget⟩ := Dict.mem_iff.1 hthread
  cases phase with
  | started =>
      have hnone := hstuck (.pop request.taskId) (by simp)
      simp only [step, hget] at hnone
      split at hnone
      · cases hnone
      · cases hnone
  | waiting event =>
      by_cases hset : event ∈ s.isSet
      · simpa [step, hget, hset] using hstuck (.wakeUp request.taskId) (by simp)
      · simpa [step, hget, hset] using hstuck (.timeOut request.taskId) (by simp)
  | waited event timedOut => simpa [step, hget] using hstuck (.check request.taskId) (by simp)
  | answering response => simpa [step, hget] using hstuck (.respond request.taskId) (by simp)
  | finished => exact hb.answered request.taskId ⟨task, .finished⟩ hget rfl

/-- How many steps the listener has before it for the request it holds. -/
def Listener.weight : Listener → Nat
  | .idle => 0
  | .received _ => 8
  | .eventStored _ => 7
  | .threadStarted _ => 2

/-- How many steps a thread has before it. -/
def Phase.weight : Phase → Nat
  | .started => 4
  | .waiting _ => 3
  | .waited _ _ => 2
  | .answering _ => 1
  | .finished => 0

/-- A bound on the number of steps that are left. -/
def State.weight (s : State) : Nat :=
  9 * s.queue.length + s.listener.weight + s.threads.sum (fun thread => thread.phase.weight) +
    s.analyses.sum fun analysis => if analysis.completed then 0 else 1

/-- Assigning to a key adds at most the new value. -/
theorem sum_set_le {κ ν : Type} [DecidableEq κ] (d : Dict κ ν) (f : ν → Nat) (k : κ) (x : ν) :
    (d.set k x).sum f ≤ f x + d.sum f := by
  rw [Dict.sum_set]
  cases hget : d.get? k with
  | none =>
      rw [Dict.erase_of_notMem (Dict.notMem_iff.2 hget)]
  | some y =>
      rw [Dict.sum_eq_add_erase f hget]
      omega

theorem sum_set_lt {κ ν : Type} [DecidableEq κ] {d : Dict κ ν} (f : ν → Nat) {k : κ} {x y : ν}
    (hget : d.get? k = some y) (hlt : f x < f y) : (d.set k x).sum f < d.sum f := by
  rw [Dict.sum_set, Dict.sum_eq_add_erase f hget]
  omega

/-- A step that only moves a thread on, to a phase with fewer steps before it. -/
theorem weight_lt_of_phase {taskId : TaskId} {task : Task} {old phase : Phase}
    (hthread : s.threads.get? taskId = some ⟨task, old⟩) (hlt : phase.weight < old.weight)
    (hthreads : s'.threads = s.threads.set taskId ⟨task, phase⟩)
    (hlistener : s'.listener = s.listener) (hqueue : s'.queue = s.queue)
    (hanalyses : s'.analyses = s.analyses) : s'.weight < s.weight := by
  have hsum : (s.threads.set taskId ⟨task, phase⟩).sum (fun thread => thread.phase.weight) <
      s.threads.sum fun thread => thread.phase.weight := sum_set_lt _ hthread hlt
  simp only [State.weight, hthreads, hlistener, hqueue, hanalyses]
  omega

theorem next_weight (hnext : Next s a s') : s'.weight < s.weight := by
  cases hnext with
  | queueGet hlistener hqueue =>
      simp only [State.weight, hlistener, hqueue, List.length_cons, Listener.weight]
      omega
  | storeEvent hlistener =>
      simp only [State.weight, hlistener, Listener.weight]
      omega
  | @startThread task hlistener =>
      have hsum : (s.threads.set task.taskId ⟨task, .started⟩).sum
          (fun thread => thread.phase.weight) ≤ 4 + s.threads.sum fun thread =>
            thread.phase.weight := sum_set_le _ _ _ _
      simp only [State.weight, State.setPhase, hlistener, Listener.weight]
      omega
  | @process task hlistener =>
      have hsum := sum_set_le s.analyses (fun analysis => if analysis.completed then 0 else 1)
        task.taskId ⟨task, false⟩
      simp only [Bool.false_eq_true, if_false] at hsum
      simp only [State.weight, hlistener, Listener.weight]
      omega
  | pop hthread => exact weight_lt_of_phase hthread (by simp [Phase.weight]) rfl rfl rfl rfl
  | popKeyError hthread => exact weight_lt_of_phase hthread (by simp [Phase.weight]) rfl rfl rfl rfl
  | wakeUp hthread => exact weight_lt_of_phase hthread (by simp [Phase.weight]) rfl rfl rfl rfl
  | timeOut hthread => exact weight_lt_of_phase hthread (by simp [Phase.weight]) rfl rfl rfl rfl
  | check hthread => exact weight_lt_of_phase hthread (by simp [Phase.weight]) rfl rfl rfl rfl
  | respond hthread => exact weight_lt_of_phase hthread (by simp [Phase.weight]) rfl rfl rfl rfl
  | @complete taskId task hanalysis =>
      have hsum := sum_set_lt (x := ⟨task, true⟩)
        (fun analysis => if analysis.completed then 0 else 1) hanalysis (by decide : (0 : Nat) < 1)
      simp only [State.weight]
      omega

/-! ## Which event a thread waits for -/

/-- The event of the task has been stored. -/
def Created (s : State) (task : Task) : Prop :=
  s.listener = .eventStored task ∨ ∃ phase, s.threads.get? task.taskId = some ⟨task, phase⟩

/-- The event of the task has been stored and its thread has not taken it yet. -/
def Unpopped (s : State) (task : Task) : Prop :=
  s.listener = .eventStored task ∨ s.threads.get? task.taskId = some ⟨task, .started⟩

/-- The event that a thread has taken out of the dict and still needs. -/
def Phase.event? : Phase → Option Event
  | .waiting event => some event
  | .waited event _ => some event
  | _ => none

/-- Every thread finds the event of its own request in the dict, and waits for
it; the events that are set are those of the completed analyses. -/
structure Wired (s : State) : Prop where
  lt : ∀ task, Created s task → task.callback < s.nextEvent
  inj : ∀ task task', Created s task → Created s task' → task.callback = task'.callback →
    task = task'
  owned : ∀ task, Unpopped s task → s.events.get? task.uid = some task.callback
  unique : ∀ task task', Unpopped s task → Unpopped s task' → task.uid = task'.uid → task = task'
  waits : ∀ taskId thread event, s.threads.get? taskId = some thread →
    thread.phase.event? = some event → event = thread.task.callback
  started : ∀ task, s.listener = .threadStarted task →
    (∃ phase, s.threads.get? task.taskId = some ⟨task, phase⟩) ∧ task.taskId ∉ s.analyses
  analysis : ∀ taskId analysis, s.analyses.get? taskId = some analysis →
    ∃ phase, s.threads.get? taskId = some ⟨analysis.task, phase⟩
  isSet : ∀ event, event ∈ s.isSet ↔
    ∃ taskId task, s.analyses.get? taskId = some ⟨task, true⟩ ∧ task.callback = event

theorem Unpopped.created {task : Task} (h : Unpopped s task) : Created s task := by
  rcases h with h | h
  · exact Or.inl h
  · exact Or.inr ⟨_, h⟩

section

variable {task : Task}

/-- The listener has gone on without storing an event, and no thread has changed. -/
theorem Created.of_listener (h : Created s' task)
    (hlistener : ∀ task, s'.listener ≠ .eventStored task) (hthreads : s'.threads = s.threads) :
    Created s task := by
  rcases h with h | h
  · exact absurd h (hlistener task)
  · exact Or.inr (hthreads ▸ h)

theorem Unpopped.of_listener (h : Unpopped s' task)
    (hlistener : ∀ task, s'.listener ≠ .eventStored task) (hthreads : s'.threads = s.threads) :
    Unpopped s task := by
  rcases h with h | h
  · exact absurd h (hlistener task)
  · exact Or.inr (hthreads ▸ h)

end

/-- The task that the listener is about to hand to a thread has no thread. -/
theorem Basic.eventStored_ne {task : Task} {taskId : TaskId} {thread : ResponseThread}
    (hb : Basic start s) (hlistener : s.listener = .eventStored task)
    (hthread : s.threads.get? taskId = some thread) : task.taskId ≠ taskId := by
  rintro rfl
  apply hb.noThread task.taskId _ (Dict.mem_of_get? hthread)
  simp [State.waitingIds, hlistener, Listener.ids]

/-- The thread and the analysis of a request have the same task. -/
theorem Wired.task_eq {taskId : TaskId} {task task' : Task} {phase : Phase} {completed : Bool}
    (hw : Wired s) (hthread : s.threads.get? taskId = some ⟨task, phase⟩)
    (hanalysis : s.analyses.get? taskId = some ⟨task', completed⟩) : task' = task := by
  obtain ⟨phase', hthread'⟩ := hw.analysis taskId _ hanalysis
  rw [hthread] at hthread'
  exact (ResponseThread.mk.inj (Option.some.inj hthread')).1.symm

/-- The thread of a task finds its own event set exactly if its analysis is completed. -/
theorem Wired.isSet_iff {taskId : TaskId} {task : Task} {phase : Phase} (hw : Wired s)
    (hb : Basic start s) (hthread : s.threads.get? taskId = some ⟨task, phase⟩) :
    task.callback ∈ s.isSet ↔ s.analyses.get? taskId = some ⟨task, true⟩ := by
  have hkey : task.taskId = taskId := hb.key taskId _ hthread
  subst hkey
  rw [hw.isSet]
  constructor
  · rintro ⟨taskId', task', hanalysis, hcallback⟩
    obtain ⟨phase', hthread'⟩ := hw.analysis taskId' _ hanalysis
    have hkey' : task'.taskId = taskId' := hb.key taskId' _ hthread'
    subst hkey'
    obtain rfl := hw.inj task' task (Or.inr ⟨phase', hthread'⟩) (Or.inr ⟨phase, hthread⟩) hcallback
    exact hanalysis
  · intro hanalysis
    exact ⟨task.taskId, task, hanalysis, rfl⟩

/-- A step that moves a thread on which leaves the events of the others alone. -/
theorem Wired.setPhase {taskId : TaskId} {task : Task} {old phase : Phase} (hw : Wired s)
    (hb : Basic start s) (hthread : s.threads.get? taskId = some ⟨task, old⟩)
    (hthreads : s'.threads = s.threads.set taskId ⟨task, phase⟩)
    (hlistener : s'.listener = s.listener) (hnext : s'.nextEvent = s.nextEvent)
    (hanalyses : s'.analyses = s.analyses) (hisSet : s'.isSet = s.isSet)
    (hphase : phase ≠ .started)
    (hwaits : ∀ event, phase.event? = some event → event = task.callback)
    (hevents : ∀ task', Unpopped s task' → task'.taskId ≠ taskId →
      s'.events.get? task'.uid = s.events.get? task'.uid) : Wired s' := by
  have hkey : task.taskId = taskId := hb.key taskId _ hthread
  have hget : ∀ {taskId' thread}, s'.threads.get? taskId' = some thread →
      (taskId' = taskId ∧ thread = ⟨task, phase⟩) ∨
        (taskId' ≠ taskId ∧ s.threads.get? taskId' = some thread) := by
    intro taskId' thread h
    rw [hthreads] at h
    exact get?_setPhase (s := s) h
  -- no task is new, and the one whose thread moves on is not `Unpopped` any more
  have hcreated : ∀ task', Created s' task' → Created s task' := by
    rintro task' (h | ⟨phase', h⟩)
    · exact Or.inl (hlistener ▸ h)
    · rcases hget h with ⟨heq, hthread'⟩ | ⟨-, h⟩
      · obtain ⟨rfl, -⟩ := ResponseThread.mk.inj hthread'
        exact Or.inr ⟨old, heq ▸ hthread⟩
      · exact Or.inr ⟨phase', h⟩
  have hunpopped : ∀ task', Unpopped s' task' → Unpopped s task' ∧ task'.taskId ≠ taskId := by
    rintro task' (h | h)
    · rw [hlistener] at h
      exact ⟨Or.inl h, hb.eventStored_ne h hthread⟩
    · rcases hget h with ⟨-, hthread'⟩ | ⟨hne, h⟩
      · exact absurd (ResponseThread.mk.inj hthread').2.symm hphase
      · exact ⟨Or.inr h, hne⟩
  -- the threads are still there, each with its task
  have hkept : ∀ {taskId' task' phase'}, s.threads.get? taskId' = some ⟨task', phase'⟩ →
      ∃ phase'', s'.threads.get? taskId' = some ⟨task', phase''⟩ := by
    intro taskId' task' phase' h
    rw [hthreads]
    by_cases heq : taskId' = taskId
    · subst heq
      rw [hthread] at h
      obtain ⟨rfl, -⟩ := ResponseThread.mk.inj (Option.some.inj h)
      exact ⟨phase, Dict.get?_set_self _ _ _⟩
    · exact ⟨phase', by rw [Dict.get?_set_ne _ _ heq, h]⟩
  constructor
  · intro task' h
    rw [hnext]
    exact hw.lt task' (hcreated task' h)
  · intro task' task'' h h'
    exact hw.inj task' task'' (hcreated task' h) (hcreated task'' h')
  · intro task' h
    obtain ⟨hold, hne⟩ := hunpopped task' h
    rw [hevents task' hold hne]
    exact hw.owned task' hold
  · intro task' task'' h h'
    exact hw.unique task' task'' (hunpopped task' h).1 (hunpopped task'' h').1
  · intro taskId' thread event h hevent
    rcases hget h with ⟨-, rfl⟩ | ⟨-, h⟩
    · exact hwaits event hevent
    · exact hw.waits taskId' thread event h hevent
  · intro task' h
    rw [hlistener] at h
    obtain ⟨⟨phase', hthread'⟩, hnot⟩ := hw.started task' h
    exact ⟨hkept hthread', hanalyses ▸ hnot⟩
  · intro taskId' analysis h
    rw [hanalyses] at h
    obtain ⟨phase', hthread'⟩ := hw.analysis taskId' analysis h
    exact hkept hthread'
  · intro event
    rw [hisSet, hanalyses]
    exact hw.isSet event

theorem init_wired (start : Start) : Wired start.state := by
  have hcreated : ∀ task, ¬ Created start.state task := by
    rintro task (h | ⟨phase, h⟩)
    · cases h
    · cases h
  constructor
  · intro task h
    exact absurd h (hcreated task)
  · intro task _ h
    exact absurd h (hcreated task)
  · intro task h
    exact absurd h.created (hcreated task)
  · intro task _ h
    exact absurd h.created (hcreated task)
  · intro taskId thread event h
    cases h
  · intro task h
    cases h
  · intro taskId analysis h
    cases h
  · intro event
    constructor
    · intro h
      exact absurd h (Finset.notMem_empty event)
    · rintro ⟨taskId, task, h, -⟩
      cases h

/-- The listener takes a request. -/
theorem Wired.queueGet {request : Request} {queue : List Request} (hw : Wired s) :
    Wired { s with listener := .received request, queue := queue } := by
  have hcreated : ∀ task, Created { s with listener := .received request, queue := queue } task →
      Created s task := fun _ h => h.of_listener (by simp) rfl
  have hunpopped : ∀ task, Unpopped { s with listener := .received request, queue := queue } task →
      Unpopped s task := fun _ h => h.of_listener (by simp) rfl
  constructor
  · exact fun task h => hw.lt task (hcreated task h)
  · exact fun task task' h h' => hw.inj task task' (hcreated task h) (hcreated task' h')
  · exact fun task h => hw.owned task (hunpopped task h)
  · exact fun task task' h h' => hw.unique task task' (hunpopped task h) (hunpopped task' h')
  · exact hw.waits
  · intro task h
    cases h
  · exact hw.analysis
  · exact hw.isSet

/-- The listener stores an event in a place of the dict that is free. -/
theorem Wired.storeEvent {request : Request} (hw : Wired s) (hfree : request.uid ∉ s.events) :
    Wired { s with
      events := s.events.set request.uid s.nextEvent
      nextEvent := s.nextEvent + 1
      listener := .eventStored ⟨request.taskId, request.uid, s.nextEvent⟩ } := by
  -- a task that is still `Unpopped` has its own event in the dict, so not under this uid
  have hnot : ∀ task, Unpopped s task → task.uid ≠ request.uid := by
    intro task h heq
    exact hfree (Dict.mem_of_get? (heq ▸ hw.owned task h))
  have hsplit : ∀ {task} {P : Prop}, Listener.eventStored ⟨request.taskId, request.uid, s.nextEvent⟩ =
      .eventStored task ∨ P → task = ⟨request.taskId, request.uid, s.nextEvent⟩ ∨ P := by
    rintro task P (h | h)
    · exact Or.inl (Listener.eventStored.inj h).symm
    · exact Or.inr h
  constructor
  · intro task h
    rcases hsplit h with rfl | h
    · exact Nat.lt_succ_self _
    · exact Nat.lt_succ_of_lt (hw.lt task (Or.inr h))
  · intro task task' h h' heq
    rcases hsplit h with rfl | h
    · rcases hsplit h' with rfl | h'
      · rfl
      · exact absurd heq (Nat.ne_of_gt (hw.lt task' (Or.inr h')))
    · rcases hsplit h' with rfl | h'
      · exact absurd heq (Nat.ne_of_lt (hw.lt task (Or.inr h)))
      · exact hw.inj task task' (Or.inr h) (Or.inr h') heq
  · intro task h
    rcases hsplit h with rfl | h
    · exact Dict.get?_set_self _ _ _
    · have hold : Unpopped s task := Or.inr h
      exact (Dict.get?_set_ne _ _ (hnot task hold)).trans (hw.owned task hold)
  · intro task task' h h' heq
    rcases hsplit h with rfl | h
    · rcases hsplit h' with rfl | h'
      · rfl
      · exact absurd heq.symm (hnot task' (Or.inr h'))
    · rcases hsplit h' with rfl | h'
      · exact absurd heq (hnot task (Or.inr h))
      · exact hw.unique task task' (Or.inr h) (Or.inr h') heq
  · exact hw.waits
  · intro task h
    cases h
  · exact hw.analysis
  · exact hw.isSet

/-- The listener starts the thread of the task whose event it has stored. -/
theorem Wired.startThread {task : Task} (hw : Wired s) (hb : Basic start s)
    (hlistener : s.listener = .eventStored task) :
    Wired { s.setPhase task.taskId task .started with listener := .threadStarted task } := by
  have hnew : task.taskId ∉ s.threads := by
    intro hmem
    obtain ⟨thread, hthread⟩ := Dict.mem_iff.1 hmem
    exact hb.eventStored_ne hlistener hthread rfl
  have hcreated : ∀ task', Created { s.setPhase task.taskId task .started with
      listener := .threadStarted task } task' → Created s task' := by
    rintro task' (h | ⟨phase, h⟩)
    · cases h
    · rcases get?_setPhase h with ⟨-, hthread⟩ | ⟨-, h⟩
      · obtain ⟨rfl, -⟩ := ResponseThread.mk.inj hthread
        exact Or.inl hlistener
      · exact Or.inr ⟨phase, h⟩
  have hunpopped : ∀ task', Unpopped { s.setPhase task.taskId task .started with
      listener := .threadStarted task } task' → Unpopped s task' := by
    rintro task' (h | h)
    · cases h
    · rcases get?_setPhase h with ⟨-, hthread⟩ | ⟨-, h⟩
      · obtain ⟨rfl, -⟩ := ResponseThread.mk.inj hthread
        exact Or.inl hlistener
      · exact Or.inr h
  -- an analysis has a thread already, so it is not the one of this task
  have hanalysis : ∀ taskId analysis, s.analyses.get? taskId = some analysis →
      taskId ≠ task.taskId ∧ ∃ phase, s.threads.get? taskId = some ⟨analysis.task, phase⟩ := by
    intro taskId analysis h
    obtain ⟨phase, hthread⟩ := hw.analysis taskId analysis h
    refine ⟨?_, phase, hthread⟩
    rintro rfl
    exact hnew (Dict.mem_of_get? hthread)
  constructor
  · exact fun task' h => hw.lt task' (hcreated task' h)
  · exact fun task' task'' h h' => hw.inj task' task'' (hcreated task' h) (hcreated task'' h')
  · exact fun task' h => hw.owned task' (hunpopped task' h)
  · exact fun task' task'' h h' =>
      hw.unique task' task'' (hunpopped task' h) (hunpopped task'' h')
  · intro taskId thread event h hevent
    rcases get?_setPhase h with ⟨-, rfl⟩ | ⟨-, h⟩
    · cases hevent
    · exact hw.waits taskId thread event h hevent
  · intro task' h
    obtain rfl := Listener.threadStarted.inj h
    refine ⟨⟨.started, Dict.get?_set_self _ _ _⟩, ?_⟩
    intro hmem
    obtain ⟨analysis, h⟩ := Dict.mem_iff.1 hmem
    exact (hanalysis _ analysis h).1 rfl
  · intro taskId analysis h
    obtain ⟨hne, phase, hthread⟩ := hanalysis taskId analysis h
    exact ⟨phase, (Dict.get?_set_ne _ _ hne).trans hthread⟩
  · exact hw.isSet

/-- The listener starts the analysis. -/
theorem Wired.process {task : Task} (hw : Wired s) (hlistener : s.listener = .threadStarted task) :
    Wired { s with analyses := s.analyses.set task.taskId ⟨task, false⟩, listener := .idle } := by
  obtain ⟨⟨phase, hthread⟩, hnew⟩ := hw.started task hlistener
  have hcreated : ∀ task', Created { s with
      analyses := s.analyses.set task.taskId ⟨task, false⟩, listener := .idle } task' →
      Created s task' := fun _ h => h.of_listener (by simp) rfl
  have hunpopped : ∀ task', Unpopped { s with
      analyses := s.analyses.set task.taskId ⟨task, false⟩, listener := .idle } task' →
      Unpopped s task' := fun _ h => h.of_listener (by simp) rfl
  have hget : ∀ taskId task', (s.analyses.set task.taskId ⟨task, false⟩).get? taskId =
      some ⟨task', true⟩ ↔ s.analyses.get? taskId = some ⟨task', true⟩ := by
    intro taskId task'
    rw [Dict.get?_set]
    split
    · rename_i heq
      rw [heq, Dict.notMem_iff.1 hnew]
      simp
    · exact Iff.rfl
  constructor
  · exact fun task' h => hw.lt task' (hcreated task' h)
  · exact fun task' task'' h h' => hw.inj task' task'' (hcreated task' h) (hcreated task'' h')
  · exact fun task' h => hw.owned task' (hunpopped task' h)
  · exact fun task' task'' h h' =>
      hw.unique task' task'' (hunpopped task' h) (hunpopped task'' h')
  · exact hw.waits
  · intro task' h
    cases h
  · intro taskId analysis h
    rw [Dict.get?_set] at h
    split at h
    · rename_i heq
      obtain rfl := Option.some.inj h
      exact ⟨phase, heq ▸ hthread⟩
    · exact hw.analysis taskId analysis h
  · intro event
    simp only [hget]
    exact hw.isSet event

/-- An analysis is completed and calls back. -/
theorem Wired.complete {taskId : TaskId} {task : Task} (hw : Wired s)
    (hanalysis : s.analyses.get? taskId = some ⟨task, false⟩) :
    Wired { s with
      analyses := s.analyses.set taskId ⟨task, true⟩
      isSet := insert task.callback s.isSet } := by
  obtain ⟨h1, h2, h3, h4, h5, h6, h7, h8⟩ := hw
  refine ⟨h1, h2, h3, h4, h5, ?_, ?_, ?_⟩
  · intro task' h
    obtain ⟨hthread, hnot⟩ := h6 task' h
    refine ⟨hthread, ?_⟩
    intro hmem
    rcases Dict.mem_set.1 hmem with heq | hmem
    · exact hnot (heq ▸ Dict.mem_of_get? hanalysis)
    · exact hnot hmem
  · intro taskId' analysis h
    rw [Dict.get?_set] at h
    split at h
    · rename_i heq
      obtain rfl := Option.some.inj h
      obtain ⟨phase, hthread⟩ := h7 taskId _ hanalysis
      exact ⟨phase, heq ▸ hthread⟩
    · exact h7 taskId' analysis h
  · intro event
    rw [Finset.mem_insert, h8]
    constructor
    · rintro (rfl | ⟨taskId', task', h, heq⟩)
      · exact ⟨taskId, task, Dict.get?_set_self _ _ _, rfl⟩
      · have hne : taskId' ≠ taskId := by
          rintro rfl
          rw [hanalysis] at h
          cases h
        exact ⟨taskId', task', (Dict.get?_set_ne _ _ hne).trans h, heq⟩
    · rintro ⟨taskId', task', h, heq⟩
      rw [Dict.get?_set] at h
      split at h
      · obtain ⟨rfl, -⟩ := Analysis.mk.inj (Option.some.inj h)
        exact Or.inl heq.symm
      · exact Or.inr ⟨taskId', task', h, heq⟩

/-- A thread takes the event of its own request out of the dict. -/
theorem Wired.pop {taskId : TaskId} {task : Task} {event : Event} (hw : Wired s)
    (hb : Basic start s) (hthread : s.threads.get? taskId = some ⟨task, .started⟩)
    (hevent : s.events.get? task.uid = some event) :
    Wired { s.setPhase taskId task (.waiting event) with events := s.events.erase task.uid } := by
  have hkey : task.taskId = taskId := hb.key taskId _ hthread
  have hunpopped : Unpopped s task := Or.inr (hkey ▸ hthread)
  have hown : task.callback = event := by
    have howned := hw.owned task hunpopped
    rw [hevent] at howned
    exact (Option.some.inj howned).symm
  refine hw.setPhase hb hthread rfl rfl rfl rfl rfl (by simp) ?_ ?_
  · intro event' h
    exact (Option.some.inj h).symm.trans hown.symm
  · intro task' h hne
    apply Dict.get?_erase_ne
    intro heq
    exact hne (hw.unique task' task h hunpopped heq ▸ hkey)

theorem next_wired (hnext : Next s a s') (hok : Undisturbed s a) (hb : Basic start s)
    (hw : Wired s) : Wired s' := by
  cases hnext with
  | queueGet => exact hw.queueGet
  | storeEvent hlistener =>
      simp only [Undisturbed, hlistener] at hok
      exact hw.storeEvent hok
  | startThread hlistener => exact hw.startThread hb hlistener
  | process hlistener => exact hw.process hlistener
  | pop hthread hevent => exact hw.pop hb hthread hevent
  | popKeyError hthread =>
      exact hw.setPhase hb hthread rfl rfl rfl rfl rfl (by simp) (by simp [Phase.event?])
        fun _ _ _ => rfl
  | wakeUp hthread | timeOut hthread =>
      refine hw.setPhase hb hthread rfl rfl rfl rfl rfl (by simp) ?_ fun _ _ _ => rfl
      intro event' h
      exact hw.waits _ _ event' hthread h
  | check hthread =>
      exact hw.setPhase hb hthread rfl rfl rfl rfl rfl (by simp) (by simp [Phase.event?])
        fun _ _ _ => rfl
  | respond hthread =>
      exact hw.setPhase hb hthread rfl rfl rfl rfl rfl (by simp) (by simp [Phase.event?])
        fun _ _ _ => rfl
  | complete hanalysis => exact hw.complete hanalysis

/-! ## Which response a thread gives -/

/-- The right response to a request whose thread has stopped waiting. -/
def Right (h : History) (taskId : TaskId) : Bool → Prop
  | true => taskId ∈ h.inTime
  | false => taskId ∈ h.timedOut ∧ taskId ∉ h.inTime

/-- What the history says of a request, by the phase of its thread. -/
def Agrees (s : State) (h : History) (taskId : TaskId) : Phase → Prop
  | .started => taskId ∉ h.timedOut
  | .waiting _ => taskId ∉ h.timedOut
  | .waited _ false => taskId ∈ h.inTime
  | .waited _ true =>
      taskId ∈ h.timedOut ∧ ∀ task, s.analyses.get? taskId ≠ some ⟨task, true⟩
  | .answering response => Right h taskId response
  | .finished => ∀ response, s.responses.get? taskId = some response → Right h taskId response

/-- The history and the threads: an analysis that is completed was so in time or
the wait has run out before, and every thread gives the right response. -/
structure Timed (s : State) (h : History) : Prop where
  done : ∀ taskId task, s.analyses.get? taskId = some ⟨task, true⟩ →
    taskId ∈ h.inTime ∨ taskId ∈ h.timedOut
  inTime : ∀ taskId ∈ h.inTime, ∃ task, s.analyses.get? taskId = some ⟨task, true⟩
  timedOut : ∀ taskId ∈ h.timedOut, taskId ∈ s.threads
  agrees : ∀ taskId thread, s.threads.get? taskId = some thread →
    Agrees s h taskId thread.phase
  responses : ∀ taskId response, s.responses.get? taskId = some response →
    ∃ task, s.threads.get? taskId = some ⟨task, .finished⟩

/-- What is said of a request only depends on its own entries. -/
theorem Agrees.frame {taskId : TaskId} {phase : Phase} (hagree : Agrees s h taskId phase)
    (htimedOut : taskId ∈ h'.timedOut ↔ taskId ∈ h.timedOut)
    (hinTime : taskId ∈ h'.inTime ↔ taskId ∈ h.inTime)
    (hresponses : s'.responses.get? taskId = s.responses.get? taskId)
    (hanalyses : ∀ task, s'.analyses.get? taskId = some ⟨task, true⟩ →
      s.analyses.get? taskId = some ⟨task, true⟩) : Agrees s' h' taskId phase := by
  have hright : ∀ response, Right h' taskId response ↔ Right h taskId response := by
    intro response
    cases response <;> simp only [Right, htimedOut, hinTime]
  cases phase with
  | started => exact fun hmem => hagree (htimedOut.1 hmem)
  | waiting event => exact fun hmem => hagree (htimedOut.1 hmem)
  | waited event timedOut =>
      cases timedOut with
      | false => exact hinTime.2 hagree
      | true => exact ⟨htimedOut.2 hagree.1, fun task hdone => hagree.2 task (hanalyses task hdone)⟩
  | answering response => exact (hright response).2 hagree
  | finished =>
      intro response hresponse
      rw [hresponses] at hresponse
      exact (hright response).2 (hagree response hresponse)

/-- A step of one thread that adds at most the end of its own wait to the history. -/
theorem Timed.setPhase {taskId : TaskId} {task : Task} {phase : Phase} (ht : Timed s h)
    (hthreads : s'.threads = s.threads.set taskId ⟨task, phase⟩)
    (hanalyses : s'.analyses = s.analyses)
    (hresponses : ∀ taskId', taskId' ≠ taskId →
      s'.responses.get? taskId' = s.responses.get? taskId')
    (hanswered : ∀ response, s'.responses.get? taskId = some response → phase = .finished)
    (hinTime : h'.inTime = h.inTime)
    (htimedOut : ∀ taskId', taskId' ∈ h'.timedOut ↔
      taskId' ∈ h.timedOut ∨ (taskId' = taskId ∧ taskId ∈ h'.timedOut))
    (hagrees : Agrees s' h' taskId phase) : Timed s' h' := by
  have hget : ∀ {taskId' thread}, s'.threads.get? taskId' = some thread →
      (taskId' = taskId ∧ thread = ⟨task, phase⟩) ∨
        (taskId' ≠ taskId ∧ s.threads.get? taskId' = some thread) := by
    intro taskId' thread h
    rw [hthreads] at h
    exact get?_setPhase (s := s) h
  have hother : ∀ {taskId'}, taskId' ≠ taskId → (taskId' ∈ h'.timedOut ↔ taskId' ∈ h.timedOut) := by
    intro taskId' hne
    rw [htimedOut]
    simp [hne]
  constructor
  · intro taskId' task' hdone
    rw [hanalyses] at hdone
    rw [hinTime, htimedOut]
    rcases ht.done taskId' task' hdone with hmem | hmem
    · exact Or.inl hmem
    · exact Or.inr (Or.inl hmem)
  · intro taskId' hmem
    rw [hinTime] at hmem
    rw [hanalyses]
    exact ht.inTime taskId' hmem
  · intro taskId' hmem
    rw [hthreads, Dict.mem_set]
    rcases (htimedOut taskId').1 hmem with hmem | ⟨heq, -⟩
    · exact Or.inr (ht.timedOut taskId' hmem)
    · exact Or.inl heq
  · intro taskId' thread hthread'
    rcases hget hthread' with ⟨rfl, rfl⟩ | ⟨hne, hthread'⟩
    · exact hagrees
    · exact (ht.agrees taskId' thread hthread').frame (hother hne) (by rw [hinTime])
        (hresponses taskId' hne) (by rw [hanalyses]; exact fun _ hdone => hdone)
  · intro taskId' response hresponse
    by_cases heq : taskId' = taskId
    · subst heq
      rw [hthreads]
      exact ⟨task, by rw [Dict.get?_set_self, hanswered response hresponse]⟩
    · rw [hresponses taskId' heq] at hresponse
      obtain ⟨task', hthread'⟩ := ht.responses taskId' response hresponse
      exact ⟨task', by rw [hthreads, Dict.get?_set_ne _ _ heq, hthread']⟩

/-- The listener starts a thread for a request that has none. -/
theorem Timed.startThread {task : Task} (ht : Timed s h) (hnew : task.taskId ∉ s.threads) :
    Timed { s.setPhase task.taskId task .started with listener := .threadStarted task } h := by
  obtain ⟨h1, h2, h3, h4, h5⟩ := ht
  refine ⟨h1, h2, ?_, ?_, ?_⟩
  · intro taskId hmem
    exact Dict.mem_set.2 (Or.inr (h3 taskId hmem))
  · intro taskId thread hthread
    rcases get?_setPhase hthread with ⟨rfl, rfl⟩ | ⟨-, hthread⟩
    · exact fun hmem => hnew (h3 _ hmem)
    · exact (h4 taskId thread hthread).frame Iff.rfl Iff.rfl rfl fun _ hdone => hdone
  · intro taskId response hresponse
    obtain ⟨task', hthread⟩ := h5 taskId response hresponse
    have hne : taskId ≠ task.taskId := by
      rintro rfl
      exact hnew (Dict.mem_of_get? hthread)
    exact ⟨task', (Dict.get?_set_ne _ _ hne).trans hthread⟩

/-- The listener starts an analysis for a request that has none. -/
theorem Timed.process {task : Task} (ht : Timed s h) (hnew : task.taskId ∉ s.analyses) :
    Timed { s with analyses := s.analyses.set task.taskId ⟨task, false⟩, listener := .idle } h := by
  obtain ⟨h1, h2, h3, h4, h5⟩ := ht
  have hget : ∀ taskId task', (s.analyses.set task.taskId ⟨task, false⟩).get? taskId =
      some ⟨task', true⟩ → s.analyses.get? taskId = some ⟨task', true⟩ := by
    intro taskId task' hdone
    rw [Dict.get?_set] at hdone
    split at hdone
    · cases hdone
    · exact hdone
  refine ⟨?_, ?_, h3, ?_, h5⟩
  · intro taskId task' hdone
    exact h1 taskId task' (hget taskId task' hdone)
  · intro taskId hmem
    obtain ⟨task', hdone⟩ := h2 taskId hmem
    have hne : taskId ≠ task.taskId := by
      rintro rfl
      exact hnew (Dict.mem_of_get? hdone)
    exact ⟨task', (Dict.get?_set_ne _ _ hne).trans hdone⟩
  · intro taskId thread hthread
    exact (h4 taskId thread hthread).frame Iff.rfl Iff.rfl rfl (hget taskId)

/-- An analysis is completed while its thread still waits, after it has found
the event set, or after it has given up. -/
theorem Timed.complete {taskId : TaskId} {task : Task} (ht : Timed s h)
    (hanalysis : s.analyses.get? taskId = some ⟨task, false⟩)
    (hok : ∀ thread ∈ s.threads.get? taskId, ¬ thread.phase.Unchecked) :
    Timed { s with
      analyses := s.analyses.set taskId ⟨task, true⟩
      isSet := insert task.callback s.isSet } (observe (.complete taskId) s h) := by
  obtain ⟨h1, h2, h3, h4, h5⟩ := ht
  have htimedOut : (observe (.complete taskId) s h).timedOut = h.timedOut := by
    simp only [observe]
    split <;> rfl
  have hinTime : ∀ taskId', taskId' ∈ (observe (.complete taskId) s h).inTime ↔
      taskId' ∈ h.inTime ∨ (taskId' = taskId ∧ taskId ∉ h.timedOut) := by
    intro taskId'
    simp only [observe]
    split
    · rename_i hmem
      simp [hmem]
    · rename_i hmem
      simp [hmem, or_comm]
  -- it was not completed before
  have hnot : taskId ∉ h.inTime := by
    intro hmem
    obtain ⟨task', hdone⟩ := h2 taskId hmem
    rw [hanalysis] at hdone
    cases hdone
  constructor
  · intro taskId' task' hdone
    rw [htimedOut, hinTime]
    by_cases heq : taskId' = taskId
    · by_cases hmem : taskId ∈ h.timedOut
      · exact Or.inr (heq ▸ hmem)
      · exact Or.inl (Or.inr ⟨heq, hmem⟩)
    · have hold := (Dict.get?_set_ne s.analyses ⟨task, true⟩ heq).symm.trans hdone
      rcases h1 taskId' task' hold with hmem | hmem
      · exact Or.inl (Or.inl hmem)
      · exact Or.inr hmem
  · intro taskId' hmem
    by_cases heq : taskId' = taskId
    · exact ⟨task, by rw [heq]; exact Dict.get?_set_self _ _ _⟩
    · obtain ⟨task', hdone⟩ := h2 taskId' (((hinTime taskId').1 hmem).resolve_right
        fun hself => heq hself.1)
      exact ⟨task', (Dict.get?_set_ne _ _ heq).trans hdone⟩
  · intro taskId' hmem
    rw [htimedOut] at hmem
    exact h3 taskId' hmem
  · intro taskId' thread hthread
    have hagree := h4 taskId' thread hthread
    by_cases heq : taskId' = taskId
    · subst heq
      -- a response that was right stays right: `True` came before, `False` after the wait
      have hright : ∀ response, Right h taskId' response →
          Right (observe (.complete taskId') s h) taskId' response := by
        intro response hright
        cases response with
        | true => exact (hinTime taskId').2 (Or.inl hright)
        | false =>
            refine ⟨htimedOut ▸ hright.1, ?_⟩
            rw [hinTime]
            rintro (hmem | ⟨-, hmem⟩)
            · exact hright.2 hmem
            · exact hmem hright.1
      obtain ⟨task', phase⟩ := thread
      cases phase with
      | started => exact fun hmem => hagree (htimedOut ▸ hmem)
      | waiting event => exact fun hmem => hagree (htimedOut ▸ hmem)
      | waited event timedOut =>
          cases timedOut with
          | false => exact absurd hagree hnot
          -- the one case in which the response would come too late
          | true => exact absurd trivial (hok _ hthread)
      | answering response => exact hright response hagree
      | finished =>
          intro response hresponse
          exact hright response (hagree response hresponse)
    · refine hagree.frame (by rw [htimedOut]) ?_ rfl ?_
      · rw [hinTime]
        simp [heq]
      · intro task' hdone
        exact (Dict.get?_set_ne s.analyses ⟨task, true⟩ heq).symm.trans hdone
  · exact h5

/-- A thread that has not finished has not sent a response. -/
theorem Timed.no_response {taskId : TaskId} {task : Task} {phase phase' : Phase} (ht : Timed s h)
    (hthread : s.threads.get? taskId = some ⟨task, phase⟩) (hphase : phase ≠ .finished) :
    ∀ response, s.responses.get? taskId = some response → phase' = .finished := by
  intro response hresponse
  obtain ⟨task', hfinished⟩ := ht.responses taskId response hresponse
  rw [hthread] at hfinished
  exact absurd (ResponseThread.mk.inj (Option.some.inj hfinished)).2 hphase

theorem next_timed (hnext : Next s a s') (hok : Undisturbed s a) (hb : Basic start s)
    (hw : Wired s) (ht : Timed s h) : Timed s' (observe a s h) := by
  cases hnext with
  | queueGet | storeEvent =>
      obtain ⟨h1, h2, h3, h4, h5⟩ := ht
      refine ⟨h1, h2, h3, ?_, h5⟩
      intro taskId thread hthread
      exact (h4 taskId thread hthread).frame Iff.rfl Iff.rfl rfl fun _ hdone => hdone
  | startThread hlistener =>
      apply ht.startThread
      intro hmem
      obtain ⟨thread, hthread⟩ := Dict.mem_iff.1 hmem
      exact hb.eventStored_ne hlistener hthread rfl
  | process hlistener => exact ht.process (hw.started _ hlistener).2
  | @pop taskId task event hthread =>
      exact ht.setPhase rfl rfl (fun _ _ => rfl) (ht.no_response hthread (by simp)) rfl
        (by simp [observe]) (ht.agrees _ _ hthread)
  | @popKeyError taskId task hthread hevent =>
      -- the event of the thread is still in the dict
      have hkey : task.taskId = taskId := hb.key taskId _ hthread
      have howned := hw.owned task (Or.inr (hkey ▸ hthread))
      rw [hevent] at howned
      cases howned
  | @wakeUp taskId task event hthread hset =>
      refine ht.setPhase rfl rfl (fun _ _ => rfl) (ht.no_response hthread (by simp)) rfl
        (by simp [observe]) ?_
      have hown : event = task.callback := hw.waits taskId _ event hthread rfl
      have hdone := (hw.isSet_iff hb hthread).1 (hown ▸ hset)
      exact (ht.done taskId task hdone).resolve_right (ht.agrees _ _ hthread)
  | @timeOut taskId task event hthread hset =>
      refine ht.setPhase rfl rfl (fun _ _ => rfl) (ht.no_response hthread (by simp)) rfl ?_ ?_
      · intro taskId'
        simp [observe, or_comm]
      · refine ⟨List.mem_cons_self, ?_⟩
        intro task' hdone
        have hown : event = task.callback := hw.waits taskId _ event hthread rfl
        obtain rfl : task' = task := hw.task_eq hthread hdone
        exact hset (hown ▸ (hw.isSet_iff hb hthread).2 hdone)
  | @check taskId task event timedOut hthread =>
      refine ht.setPhase rfl rfl (fun _ _ => rfl) (ht.no_response hthread (by simp)) rfl
        (by simp [observe]) ?_
      have hown : event = task.callback := hw.waits taskId _ event hthread rfl
      have hagree := ht.agrees _ _ hthread
      -- the event is looked at again, and it is still as it was when the wait ended
      cases timedOut with
      | false =>
          obtain ⟨task', hdone⟩ := ht.inTime taskId hagree
          obtain rfl : task' = task := hw.task_eq hthread hdone
          have hset : event ∈ s.isSet := hown ▸ (hw.isSet_iff hb hthread).2 hdone
          simpa [Agrees, Right, observe, hset] using hagree
      | true =>
          have hset : event ∉ s.isSet := by
            intro hset
            exact hagree.2 task ((hw.isSet_iff hb hthread).1 (hown ▸ hset))
          have hnot : taskId ∉ h.inTime := by
            intro hmem
            obtain ⟨task', hdone⟩ := ht.inTime taskId hmem
            exact hagree.2 task' hdone
          simpa [Agrees, Right, observe, hset] using And.intro hagree.1 hnot
  | @respond taskId task response hthread =>
      refine ht.setPhase rfl rfl ?_ ?_ rfl (by simp [observe]) ?_
      · intro taskId' hne
        exact Dict.get?_set_ne _ _ hne
      · exact fun _ _ => rfl
      · intro response' hresponse
        obtain rfl : response = response' := by
          rw [Dict.get?_set_self] at hresponse
          exact Option.some.inj hresponse
        exact ht.agrees _ _ hthread
  | complete hanalysis => exact ht.complete hanalysis hok

theorem init_timed (start : Start) : Timed start.state ⟨[], []⟩ := by
  constructor
  · intro taskId task hdone
    cases hdone
  · intro taskId hmem
    cases hmem
  · intro taskId hmem
    cases hmem
  · intro taskId thread hthread
    cases hthread
  · intro taskId response hresponse
    cases hresponse

/-! ## The runs -/

/-- What holds in every state of an undisturbed run. -/
structure Inv (start : Start) (p : State × History) : Prop where
  basic : Basic start p.1
  wired : Wired p.1
  timed : Timed p.1 p.2

theorem steps_inv {p₀ p : State × History} {as : List Action} (hinit : (machine start).Init p₀)
    (hsteps : (machine start).Steps (fun q => Undisturbed q.1) p₀ as p) : Inv start p := by
  have hstart : Inv start p₀ := by
    obtain ⟨s₀, h₀⟩ := p₀
    obtain ⟨rfl, rfl⟩ : s₀ = start.state ∧ h₀ = ⟨[], []⟩ := hinit
    exact ⟨init_basic start, init_wired start, init_timed start⟩
  have hstep : ∀ q a q', Undisturbed q.1 a → (machine start).step a q = some q' →
      Inv start q → Inv start q' := by
    intro q a q' hok hst hinv
    obtain ⟨hnext, hhistory⟩ := machine_step hst
    refine ⟨next_basic hnext hinv.basic, next_wired hnext hok hinv.basic hinv.wired, ?_⟩
    rw [hhistory]
    exact next_timed hnext hok hinv.basic hinv.wired hinv.timed
  exact hsteps.invariant hstep hstart

/-- A run cannot be longer than the work there is at its start. -/
theorem steps_length {ok : State × History → Action → Prop} {p₀ p : State × History}
    {as : List Action} (hsteps : (machine start).Steps ok p₀ as p) :
    as.length + p.1.weight ≤ p₀.1.weight := by
  have hstep : ∀ as q a q', ok q a → (machine start).step a q = some q' →
      List.length as + q.1.weight ≤ p₀.1.weight →
      (as ++ [a]).length + q'.1.weight ≤ p₀.1.weight := by
    intro as q a q' _ hst hle
    have hlt := next_weight (machine_step hst).1
    rw [List.length_append, List.length_singleton]
    omega
  exact hsteps.invariant_trace (by simp) hstep

/-- In every undisturbed run, a response is `True` if and only if the analysis
of the request was completed before its wait ran out; the run has at most nine
steps for each request, and when the listener and the threads cannot go on,
every request has a response. -/
theorem responses_right (start : Start) {p₀ p : State × History} {as : List Action}
    (hinit : (machine start).Init p₀)
    (hsteps : (machine start).Steps (fun q => Undisturbed q.1) p₀ as p) :
    (∀ taskId response, p.1.responses.get? taskId = some response →
      (response = true ↔ taskId ∈ p.2.inTime)) ∧
    (Stuck p.1 → ∀ request ∈ start.queue,
      ∃ response, p.1.responses.get? request.taskId = some response) ∧
    as.length ≤ 9 * start.queue.length := by
  have hinv := steps_inv hinit hsteps
  refine ⟨?_, hinv.basic.all_answered, ?_⟩
  · intro taskId response hresponse
    obtain ⟨task, hthread⟩ := hinv.timed.responses taskId response hresponse
    have hright := hinv.timed.agrees taskId _ hthread response hresponse
    cases response with
    | true => exact iff_of_true rfl hright
    | false => exact iff_of_false Bool.false_ne_true hright.2
  · have hlength := steps_length hsteps
    have hweight : p₀.1.weight = 9 * start.queue.length := by
      rw [hinit.1]
      rfl
    omega

/-- Two requests for one file. -/
def twice : Start where
  queue := [⟨0, "f"⟩, ⟨1, "f"⟩]
  nodup := by decide

/-- The second request is taken after the first thread has its event. -/
def oneByOne : List Action :=
  [.queueGet, .storeEvent, .startThread, .process, .pop 0, .queueGet, .storeEvent, .startThread,
    .process, .complete 1, .timeOut 0, .pop 1, .check 0, .wakeUp 1, .respond 0, .check 1,
    .respond 1]

theorem oneByOne_isSome : ((machine twice).run (fun q => Undisturbed q.1) oneByOne
    (twice.state, ⟨[], []⟩)).isSome = true := by decide +kernel

/-- The responses of this run, in which only the second analysis is completed. -/
theorem responses_right_oneByOne :
    (∀ taskId response,
      (((machine twice).run (fun q => Undisturbed q.1) oneByOne (twice.state, ⟨[], []⟩)).get
        oneByOne_isSome).1.responses.get? taskId = some response →
      (response = true ↔ taskId ∈
        (((machine twice).run (fun q => Undisturbed q.1) oneByOne (twice.state, ⟨[], []⟩)).get
          oneByOne_isSome).2.inTime)) ∧
    (Stuck (((machine twice).run (fun q => Undisturbed q.1) oneByOne
        (twice.state, ⟨[], []⟩)).get oneByOne_isSome).1 → ∀ request ∈ twice.queue, ∃ response,
      (((machine twice).run (fun q => Undisturbed q.1) oneByOne (twice.state, ⟨[], []⟩)).get
        oneByOne_isSome).1.responses.get? request.taskId = some response) ∧
    oneByOne.length ≤ 9 * twice.queue.length :=
  responses_right twice ⟨rfl, rfl⟩ (Machine.steps_of_run (Option.some_get oneByOne_isSome).symm)

/-- The second request is taken before the first thread has its event. -/
def swapped : List Action :=
  [.queueGet, .storeEvent, .startThread, .process, .queueGet, .storeEvent, .startThread, .process,
    .pop 0, .pop 1, .complete 1, .wakeUp 0, .check 0, .respond 0, .respond 1]

/-- The first thread waits for the second analysis and reports its completion,
while the second thread finds no event and reports a failure. -/
theorem responses_swapped : ∃ p, (machine twice).Reach Machine.anyStep p ∧
    p.1.responses.get? 0 = some true ∧ 0 ∉ p.2.inTime ∧
    p.1.responses.get? 1 = some false ∧ 1 ∈ p.2.inTime := by
  have hinit : (machine twice).Init (twice.state, ⟨[], []⟩) := ⟨rfl, rfl⟩
  exact Machine.exists_reach hinit swapped (by decide +kernel)

end FactCore.SingleFileTask
