import FactCore.Lib.Dict
import FactCore.Lib.Machine
import Mathlib.Logic.Function.Basic

/-! # The extraction workers

The extraction loop of `scheduler/unpacking_scheduler.py` and its docker
containers (`unpacker/extraction_container.py`). The loop hands each task to a
thread with a free worker. A thread that fails sets the exception of its worker,
and the loop restarts the container of such a worker when the thread is dead.
The daemon and other programs may do what they like in between: calls raise,
containers vanish and foreign ones appear.

What a thread does with its container is `Scheduler/UnpackingScheduler`; here it
only fails or ends. Shutting down is left out.
-/

namespace FactCore.ExtractionWorkers

open Tla

structure Config where
  dockerImage : String
  basePort : Nat
  processes : Nat

/-- The tag of the extractor image, as the daemon spells it. -/
def Config.extractorTag (cfg : Config) : String :=
  if ':' ∈ cfg.dockerImage.toList then cfg.dockerImage else cfg.dockerImage ++ ":latest"

/-! ## The daemon -/

/-- A running container: the tags of its image and the `HostPort` of the
entries of its port 5000. -/
structure DockerContainer where
  repoTags : List String
  hostPorts : List String

/-- The daemon. Ids are not used again. The last two fields are a log: for whose
worker the scheduler started a container, and which containers it removed. -/
structure Docker where
  running : Dict Nat DockerContainer
  nextId : Nat
  ours : Dict Nat Nat
  removed : List Nat

/-- A container is stopped, killed and removed. -/
def Docker.remove (d : Docker) (k : Nat) : Docker :=
  { d with running := d.running.erase k, removed := d.removed ++ [k] }

/-- How the daemon answers a call of `containers.run`. -/
inductive RunAnswer where
  | started
  | portAllocated
  | apiError
  | raises
deriving DecidableEq

/-- The answers to the calls of a restart: whether `stop` raises and what `run`
does, for the container itself and in `_recover_from_port_in_use`. -/
structure Answers where
  stopFails : Bool := false
  run : RunAnswer := .started
  recoverStopFails : Bool := false
  rerun : RunAnswer := .started

/-- What the operations of a container raise. -/
inductive Raised where
  | indexError
  | alreadyRunning
  | notRunning
  | notFound
  | stopFailed
  | portAllocated
  | apiError
  | other
  | couldNotCreate
deriving DecidableEq

/-! ## `ExtractionContainer` -/

structure ExtractionContainer where
  id : Nat
  port : Nat
  containerId : Option Nat
deriving DecidableEq

namespace ExtractionContainer

/-- A container before `start`. -/
def new (cfg : Config) (id : Nat) : ExtractionContainer := ⟨id, cfg.basePort + id, none⟩

/-- The daemon runs a container of the extractor. -/
def runOn (cfg : Config) (c : ExtractionContainer) (d : Docker) : Docker :=
  { d with
    running := d.running.set d.nextId ⟨[cfg.extractorTag], [toString c.port]⟩
    nextId := d.nextId + 1
    ours := d.ours.set d.nextId c.id }

/-- `_start_container`. -/
def startContainer (cfg : Config) (answer : RunAnswer) (c : ExtractionContainer) (d : Docker) :
    Docker × Except Raised ExtractionContainer :=
  match answer with
  | .started => (c.runOn cfg d, .ok { c with containerId := some d.nextId })
  | .portAllocated => (d, .error .portAllocated)
  | .apiError => (d, .error .apiError)
  | .raises => (d, .error .other)

/-- `_remove_container` of a running container. -/
def removeContainer (stopFails : Bool) (k : Nat) (d : Docker) : Docker × Except Raised Unit :=
  if stopFails then (d, .error .stopFailed) else (d.remove k, .ok ())

/-- `stop`. -/
def stop (stopFails : Bool) (c : ExtractionContainer) (d : Docker) : Docker × Except Raised Unit :=
  match c.containerId with
  | none => (d, .error .notRunning)
  | some k => if k ∈ d.running then removeContainer stopFails k d else (d, .error .notFound)

/-- `_is_extractor_container`. -/
def isExtractorContainer (cfg : Config) (r : DockerContainer) : Bool :=
  r.repoTags.any (· == cfg.extractorTag)

/-- `_has_same_port`. -/
def hasSamePort (c : ExtractionContainer) (r : DockerContainer) : Bool :=
  r.hostPorts.any (· == toString c.port)

/-- `_recover_from_port_in_use`. -/
def recoverFromPortInUse (cfg : Config) (answers : Answers) (c : ExtractionContainer)
    (d : Docker) : Docker × Except Raised ExtractionContainer :=
  match d.running.items.find? fun p => isExtractorContainer cfg p.2 && c.hasSamePort p.2 with
  | none => (d, .error .couldNotCreate)
  | some p =>
      match removeContainer answers.recoverStopFails p.1 d with
      | (d', .error e) => (d', .error e)
      | (d', .ok ()) => startContainer cfg answers.rerun c d'

/-- `start`. An `APIError` about anything but the port is dropped. -/
def start (cfg : Config) (answers : Answers) (c : ExtractionContainer) (d : Docker) :
    Docker × Except Raised ExtractionContainer :=
  if c.containerId.isSome then (d, .error .alreadyRunning)
  else
    match startContainer cfg answers.run c d with
    | (d', .error .portAllocated) => recoverFromPortInUse cfg answers c d'
    | (d', .error .apiError) => (d', .ok c)
    | result => result

end ExtractionContainer

/-- The containers that `create_containers` starts, the first `n` of them. -/
def createContainers (cfg : Config) (answers : Nat → Answers) (d : Docker) :
    Nat → Docker × Except Raised (List ExtractionContainer)
  | 0 => (d, .ok [])
  | n + 1 =>
      match createContainers cfg answers d n with
      | (d', .error e) => (d', .error e)
      | (d', .ok workers) =>
          match (ExtractionContainer.new cfg n).start cfg (answers n) d' with
          | (d'', .error e) => (d'', .error e)
          | (d'', .ok c) => (d'', .ok (workers ++ [c]))

/-! ## State -/

/-- A live thread: its task, its copy of the container and whether it has called
`set_exception`. -/
structure Thread where
  task : Nat
  container : ExtractionContainer
  failed : Bool

/-- Where the extraction loop stands. -/
inductive Loop where
  /-- In `check_pending`, with the tasks (worker and thread) still to check. -/
  | checking (rest : List (Nat × Nat))
  /-- In `restart`, before `stop`. -/
  | stopping (worker : Nat) (container : ExtractionContainer) (rest : List (Nat × Nat))
  /-- In `restart`, before `start`. -/
  | starting (worker : Nat) (container : ExtractionContainer) (rest : List (Nat × Nat))
  /-- Before the restarted container is written back. -/
  | storing (worker : Nat) (container : ExtractionContainer) (rest : List (Nat × Nat))
  /-- Before `get_free_worker`. -/
  | choosing
  /-- In `in_queue.get`, with a free worker. -/
  | getting (container : ExtractionContainer)
  /-- The check of a worker has raised, which ends the loop. -/
  | raised (error : Raised) (worker : Nat)

/-- What has happened so far. The scheduler does not read it. -/
structure Log where
  puts : List Nat := []
  handed : List Nat := []
  /-- The docker containers in which an extraction has failed. -/
  failed : List Nat := []

/-- The state of the scheduler. A thread is named by a number, and alive while it
is in `threads`. -/
structure State where
  inQueue : List Nat
  workers : List ExtractionContainer
  exceptions : Nat → Nat
  pendingTasks : Dict Nat Nat
  threads : Dict Nat Thread
  nextThread : Nat
  loop : Loop
  docker : Docker
  log : Log

namespace State

/-- The scheduler after `start`. -/
def init (workers : List ExtractionContainer) (docker : Docker) : State :=
  ⟨[], workers, fun _ => 0, ∅, ∅, 0, .checking [], docker, {}⟩

/-- The loop begins another round. -/
def nextRound (s : State) : State := { s with loop := .checking s.pendingTasks.items }

end State

/-! ## Steps -/

inductive Action where
  | put (task : Nat)
  | loop (answers : Answers)
  | timeout
  | extractionError (tid : Nat)
  | finish (tid : Nat)
  /-- A container vanishes. -/
  | dies (k : Nat)
  /-- Another program starts a container. -/
  | foreignRun (container : DockerContainer)

/-- A round of the loop of `check_pending`, up to a restart. -/
def checkPending (worker tid : Nat) (rest : List (Nat × Nat)) (s : State) : State :=
  if tid ∈ s.threads then { s with loop := .checking rest }
  else
    match s.workers[worker]? with
    | none => { s with loop := .raised .indexError worker }
    | some c =>
        if s.exceptions c.id = 1 then { s with loop := .stopping worker c rest }
        else { s with pendingTasks := s.pendingTasks.erase worker, loop := .checking rest }

/-- `restart` up to `start`. -/
def restartStop (stopFails : Bool) (worker : Nat) (c : ExtractionContainer)
    (rest : List (Nat × Nat)) (s : State) : State :=
  match c.stop stopFails s.docker with
  | (d, .error e) => { s with docker := d, loop := .raised e worker }
  | (d, .ok ()) =>
      { s with
        docker := d
        exceptions := Function.update s.exceptions c.id 0
        loop := .starting worker { c with containerId := none } rest }

/-- The call of `start` in `restart`. -/
def restartStart (cfg : Config) (answers : Answers) (worker : Nat) (c : ExtractionContainer)
    (rest : List (Nat × Nat)) (s : State) : State :=
  match c.start cfg answers s.docker with
  | (d, .error e) => { s with docker := d, loop := .raised e worker }
  | (d, .ok c') => { s with docker := d, loop := .storing worker c' rest }

/-- The restarted container is written back and its task is popped. -/
def store (worker : Nat) (c : ExtractionContainer) (rest : List (Nat × Nat)) (s : State) :
    State :=
  { s with
    workers := s.workers.set worker c
    pendingTasks := s.pendingTasks.erase worker
    loop := .checking rest }

/-- `get_free_worker`. -/
def getFreeWorker (s : State) : State :=
  match s.workers.find? fun c => decide (c.id ∉ s.pendingTasks) with
  | some c => { s with loop := .getting c }
  | none => s.nextRound

/-- The loop has got a task and starts a thread for it. -/
def startThread (c : ExtractionContainer) (s : State) : Option State :=
  match s.inQueue with
  | [] => none
  | task :: rest =>
      some { s with
        inQueue := rest
        threads := s.threads.set s.nextThread ⟨task, c, false⟩
        nextThread := s.nextThread + 1
        pendingTasks := s.pendingTasks.set c.id s.nextThread
        log := { s.log with handed := s.log.handed ++ [task] } }.nextRound

/-- The next step of the extraction loop. -/
def loopStep (cfg : Config) (answers : Answers) (s : State) : Option State :=
  match s.loop with
  | .checking ((worker, tid) :: rest) => some (checkPending worker tid rest s)
  | .checking [] => some { s with loop := .choosing }
  | .stopping worker c rest => some (restartStop answers.stopFails worker c rest s)
  | .starting worker c rest => some (restartStart cfg answers worker c rest s)
  | .storing worker c rest => some (store worker c rest s)
  | .choosing => some (getFreeWorker s)
  | .getting c => startThread c s
  | .raised _ _ => none

/-- `in_queue.get` raises `Empty`, which ends the round. -/
def timeout (s : State) : Option State :=
  match s.loop with
  | .getting _ => some s.nextRound
  | _ => none

/-- A thread catches an `ExtractionError` and calls `set_exception`. -/
def extractionError (tid : Nat) (s : State) : Option State :=
  match s.threads.get? tid with
  | some ⟨task, c, false⟩ =>
      some { s with
        threads := s.threads.set tid ⟨task, c, true⟩
        exceptions := Function.update s.exceptions c.id 1
        log := { s.log with failed := s.log.failed ++ c.containerId.toList } }
  | _ => none

/-- A thread ends, for whatever reason. -/
def finish (tid : Nat) (s : State) : Option State :=
  if tid ∈ s.threads then some { s with threads := s.threads.erase tid } else none

/-- One step. -/
def step (cfg : Config) : Action → State → Option State
  | .put task, s =>
      some { s with
        inQueue := s.inQueue ++ [task]
        log := { s.log with puts := s.log.puts ++ [task] } }
  | .loop answers, s => loopStep cfg answers s
  | .timeout, s => timeout s
  | .extractionError tid, s => extractionError tid s
  | .finish tid, s => finish tid s
  | .dies k, s => some { s with docker := { s.docker with running := s.docker.running.erase k } }
  | .foreignRun container, s =>
      some { s with docker := { s.docker with
        running := s.docker.running.set s.docker.nextId container
        nextId := s.docker.nextId + 1 } }

/-- A daemon that has not seen the scheduler yet. -/
structure Docker.Fresh (d : Docker) : Prop where
  running : ∀ k ∈ d.running, k < d.nextId
  ours : d.ours = ∅
  removed : d.removed = []

/-- The scheduler, once `create_containers` has returned. -/
def machine (cfg : Config) : Machine State Action where
  Init := fun s => ∃ d answers d' workers, d.Fresh ∧
    createContainers cfg answers d cfg.processes = (d', .ok workers) ∧ s = State.init workers d'
  step := step cfg

end FactCore.ExtractionWorkers
