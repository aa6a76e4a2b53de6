import FactCore.Lib.Machine
import FactCore.Objects.FileObject

/-! # The listeners of the intercom

`InterComListener` of `intercom/common_redis_binding.py` and the fourteen
listeners of `intercom/back_end_binding.py`. They share one loop: check the stop
condition, take an entry from the queue, pre-process it, hand the task over.

The calls of others (Redis, file system, database, manager, threads, and the
processing function) may return or raise. The loop expects a `RedisError` of the
queue and nothing else; it is shown that it serves its queue exactly as long as
nothing else is raised.
-/

namespace FactCore.Listener

open Tla

/-! ## Tasks and listeners -/

/-- The name of an exception class. -/
abbrev Exc := String

/-- What the frontend puts into a queue, as far as a listener looks at it: a file
object with or without its bytes, a set of uids, or anything else. -/
inductive Task where
  | file (uid : Uid) (hasBinary : Bool)
  | uids (uids : List Uid)
  | other (payload : String)
deriving DecidableEq, Repr

/-- `(task, task_id)`. -/
structure Entry where
  task : Task
  taskId : String
deriving DecidableEq, Repr

/-- The listeners of `InterComBackEndBinding`. -/
inductive Kind where
  | analysisTask
  | reAnalyzeTask
  | compareTask
  | rawDownloadTask
  | fileDiffTask
  | tarRepackTask
  | binarySearchTask
  | updateTask
  | deleteFile
  | singleFileTask
  | peekBinaryTask
  | logsTask
  | cancelTask
  | checkYaraRuleTask
deriving DecidableEq, Repr

/-- The listener was given a processing function. -/
def Kind.hasProcessingFunction : Kind → Bool
  | .analysisTask | .reAnalyzeTask | .compareTask | .updateTask | .singleFileTask | .cancelTask => true
  | _ => false

/-- How the calls of others come out. -/
structure Env where
  isStored : Uid → Bool
  write : Uid → Except Exc Unit
  managerEvent : Except Exc Unit
  startThread : Except Exc Unit
  uidListExists : List Uid → Except Exc (List Uid)
  unpackingLockIsSet : Uid → Except Exc Bool
  deleteFile : Uid → Except Exc Unit

/-! ## Pre-processing -/

/-- `FSOrganizer.store_file`; without bytes it logs an error. -/
def storeFile (env : Env) (uid : Uid) (hasBinary : Bool) : Except Exc Unit :=
  if hasBinary then env.write uid else .ok ()

/-- `create_binary_from_path` for the path of the stored file. -/
def createBinaryFromPath (env : Env) (uid : Uid) (hasBinary : Bool) : Except Exc Unit :=
  if hasBinary = true ∨ env.isStored uid = true then .ok () else .error "FileNotFoundError"

/-- One pass of the loop of `InterComBackEndDeleteFile.pre_process`. -/
def deleteUnlessNeeded (env : Env) (uidsInDb : List Uid) (uid : Uid) : Except Exc Unit := do
  let locked ← env.unpackingLockIsSet uid
  if locked then pure ()
  else if uid ∉ uidsInDb then env.deleteFile uid
  else pure ()

/-- The loop of `InterComBackEndDeleteFile.pre_process`. -/
def deleteFiles (env : Env) (uidsInDb : List Uid) : List Uid → Except Exc Unit
  | [] => .ok ()
  | uid :: rest => do
      deleteUnlessNeeded env uidsInDb uid
      deleteFiles env uidsInDb rest

/-- `InterComListenerAndResponder.pre_process`: the response is fetched in a thread. -/
def respond (env : Env) (task : Task) : Except Exc (Option Task) := do
  env.startThread
  pure (some task)

/-- `pre_process` of each listener. A task that is not of the expected kind lacks
the attributes that are read. -/
def preProcess : Kind → Env → Task → Except Exc (Option Task)
  | .analysisTask, env, .file uid hasBinary => do
      storeFile env uid hasBinary
      pure (some (.file uid hasBinary))
  | .reAnalyzeTask, env, .file uid hasBinary | .updateTask, env, .file uid hasBinary => do
      createBinaryFromPath env uid hasBinary
      pure (some (.file uid true))
  | .singleFileTask, env, .file uid hasBinary => do
      env.managerEvent
      respond env (.file uid hasBinary)
  | .deleteFile, env, .uids uids => do
      let uidsInDb ← env.uidListExists uids
      deleteFiles env uidsInDb uids
      pure none
  | .analysisTask, _, _ | .reAnalyzeTask, _, _ | .updateTask, _, _ | .singleFileTask, _, _ =>
      .error "AttributeError"
  | .deleteFile, _, _ => .error "TypeError"
  | .compareTask, _, task | .cancelTask, _, task => .ok (some task)
  | .rawDownloadTask, env, task | .fileDiffTask, env, task | .tarRepackTask, env, task
  | .binarySearchTask, env, task | .peekBinaryTask, env, task | .logsTask, env, task
  | .checkYaraRuleTask, env, task => respond env task

/-- The call returns. -/
def Returns {α : Type} (call : Except Exc α) : Prop := call.isOk = true

instance {α : Type} (call : Except Exc α) : Decidable (Returns call) :=
  inferInstanceAs (Decidable (call.isOk = true))

/-- What `pre_process` of each listener relies on. -/
def PreProcessable : Kind → Env → Task → Prop
  | .analysisTask, env, .file uid hasBinary => hasBinary = true → Returns (env.write uid)
  | .reAnalyzeTask, env, .file uid hasBinary | .updateTask, env, .file uid hasBinary =>
      hasBinary = true ∨ env.isStored uid = true
  | .singleFileTask, env, .file _ _ => Returns env.managerEvent ∧ Returns env.startThread
  | .deleteFile, env, .uids uids => ∃ uidsInDb, env.uidListExists uids = .ok uidsInDb ∧
      ∀ uid ∈ uids, ∃ locked, env.unpackingLockIsSet uid = .ok locked ∧
        (locked = false → uid ∉ uidsInDb → Returns (env.deleteFile uid))
  | .analysisTask, _, _ | .reAnalyzeTask, _, _ | .updateTask, _, _ | .singleFileTask, _, _
  | .deleteFile, _, _ => False
  | .compareTask, _, _ | .cancelTask, _, _ => True
  | .rawDownloadTask, env, _ | .fileDiffTask, env, _ | .tarRepackTask, env, _
  | .binarySearchTask, env, _ | .peekBinaryTask, env, _ | .logsTask, env, _
  | .checkYaraRuleTask, env, _ => Returns env.startThread

section

variable {env : Env} {kind : Kind} {task : Task}

@[simp] theorem returns_ok {α : Type} (x : α) : Returns (.ok x) := rfl

@[simp] theorem not_returns_error {α : Type} (e : Exc) : ¬ Returns (.error e : Except Exc α) := by
  simp [Returns, Except.isOk, Except.toBool]

@[simp] theorem returns_pure {α : Type} (x : α) : Returns (pure x) := rfl

/-- One call after the other returns iff both do. -/
theorem returns_bind {α β : Type} {call : Except Exc α} {next : α → Except Exc β} :
    Returns (call >>= next) ↔ ∃ x, call = .ok x ∧ Returns (next x) := by
  cases call with
  | error e => simp [bind, Except.bind]
  | ok x => simp [bind, Except.bind]

/-- A call whose value is not used. -/
theorem returns_then {α β : Type} {call : Except Exc α} {next : Except Exc β} :
    Returns (call >>= fun _ => next) ↔ Returns call ∧ Returns next := by
  cases call with
  | error e => simp [bind, Except.bind]
  | ok x => simp [bind, Except.bind]

theorem returns_deleteUnlessNeeded {uidsInDb : List Uid} {uid : Uid} :
    Returns (deleteUnlessNeeded env uidsInDb uid) ↔
      ∃ locked, env.unpackingLockIsSet uid = .ok locked ∧
        (locked = false → uid ∉ uidsInDb → Returns (env.deleteFile uid)) := by
  rw [deleteUnlessNeeded, returns_bind]
  refine exists_congr fun locked => and_congr_right fun _ => ?_
  cases locked with
  | true => simp
  | false => by_cases hnot : uid ∉ uidsInDb <;> simp [hnot]

theorem returns_deleteFiles {uidsInDb uids : List Uid} : Returns (deleteFiles env uidsInDb uids) ↔
    ∀ uid ∈ uids, ∃ locked, env.unpackingLockIsSet uid = .ok locked ∧
      (locked = false → uid ∉ uidsInDb → Returns (env.deleteFile uid)) := by
  induction uids with
  | nil => simp [deleteFiles]
  | cons uid rest ih =>
      rw [List.forall_mem_cons, ← ih, deleteFiles, returns_then, returns_deleteUnlessNeeded]

theorem returns_respond : Returns (respond env task) ↔ Returns env.startThread := by
  rw [respond, returns_then, and_iff_left (returns_pure _)]

theorem returns_storeFile {uid : Uid} {hasBinary : Bool} :
    Returns (storeFile env uid hasBinary) ↔ (hasBinary = true → Returns (env.write uid)) := by
  cases hasBinary with
  | false => simp [storeFile]
  | true => simp [storeFile]

theorem returns_createBinaryFromPath {uid : Uid} {hasBinary : Bool} :
    Returns (createBinaryFromPath env uid hasBinary) ↔
      (hasBinary = true ∨ env.isStored uid = true) := by
  unfold createBinaryFromPath
  by_cases h : hasBinary = true ∨ env.isStored uid = true
  · simp [h]
  · simp [h]

theorem returns_preProcess_deleteFile {uids : List Uid} :
    Returns (preProcess .deleteFile env (.uids uids)) ↔ PreProcessable .deleteFile env (.uids uids) := by
  show Returns (env.uidListExists uids >>= fun uidsInDb =>
    deleteFiles env uidsInDb uids >>= fun _ => pure none) ↔ _
  rw [returns_bind]
  refine exists_congr fun uidsInDb => and_congr_right fun _ => ?_
  rw [returns_then, returns_deleteFiles, and_iff_left (returns_pure _)]

/-- `pre_process` returns iff the calls it relies on do. -/
theorem returns_preProcess : Returns (preProcess kind env task) ↔ PreProcessable kind env task := by
  cases task with
  | file uid hasBinary =>
      cases kind <;> simp only [preProcess, PreProcessable, returns_then, returns_respond,
        returns_storeFile, returns_createBinaryFromPath, returns_pure, returns_ok,
        not_returns_error, and_true]
  | uids uids =>
      by_cases hkind : kind = .deleteFile
      · rw [hkind]
        exact returns_preProcess_deleteFile
      · cases kind <;> simp only [preProcess, PreProcessable, returns_respond, returns_ok,
          not_returns_error, not_true_eq_false] at hkind ⊢
  | other payload =>
      cases kind <;> simp only [preProcess, PreProcessable, returns_respond, returns_ok,
        not_returns_error]

end

/-! ## The loop -/

/-- How `queue_get` comes out. An exception may come after the entry was taken
from the queue. -/
inductive QueueGet where
  | returns
  | redisError (taken : Bool)
  | raises (taken : Bool) (exc : Exc)
deriving DecidableEq, Repr

/-- Where `_worker` stands: before the check of the stop condition, before
`queue_get`, before `pre_process`, before the processing function, and after the
loop or an exception has ended. -/
inductive Phase where
  | looping
  | polling
  | received (entry : Entry)
  | ready (task : Task)
  | ended
  | died (exc : Exc)
deriving DecidableEq, Repr

/-- The queue in Redis, the shared stop condition and the listener. -/
structure State where
  queue : List Entry
  stopCondition : Bool
  phase : Phase

/-- The steps of the others and those of the listener. -/
inductive Action where
  | queuePut (entry : Entry)
  | shutdown
  | check
  | queueGet (outcome : QueueGet)
  | preProcess (env : Env)
  | process (outcome : Except Exc Unit)

/-- The queue after an exception of `queue_get`. -/
def dropTaken (taken : Bool) (queue : List Entry) : List Entry := if taken then queue.tail else queue

/-- The phase that an outcome of a call leads to. -/
def goOn {α : Type} (next : α → Phase) : Except Exc α → Phase
  | .ok x => next x
  | .error exc => .died exc

/-- One step of `_worker` with `get_next_task`, or of the others. -/
def step (kind : Kind) : Action → State → Option State
  | .queuePut entry, s => some { s with queue := s.queue ++ [entry] }
  | .shutdown, s => some { s with stopCondition := true }
  | .check, s =>
      match s.phase with
      | .looping => some { s with phase := if s.stopCondition then .ended else .polling }
      | _ => none
  | .queueGet outcome, s =>
      match s.phase, outcome with
      | .polling, .returns =>
          match s.queue with
          | [] => some { s with phase := .looping }
          | entry :: queue => some { s with phase := .received entry, queue := queue }
      -- the error is logged
      | .polling, .redisError taken =>
          some { s with phase := .looping, queue := dropTaken taken s.queue }
      | .polling, .raises taken exc =>
          some { s with phase := .died exc, queue := dropTaken taken s.queue }
      | _, _ => none
  | .preProcess env, s =>
      match s.phase with
      | .received entry =>
          some { s with phase := goOn (fun task => match task with
            | none => .looping
            | some task => .ready task) (Listener.preProcess kind env entry.task) }
      | _ => none
  | .process outcome, s =>
      match s.phase with
      | .ready _ =>
          if kind.hasProcessingFunction then
            some { s with phase := goOn (fun _ => .looping) outcome }
          else some { s with phase := .looping }
      | _ => none

/-- The entries that were ever in the queue, those that were taken from it with
the task that `pre_process` made of them, and the tasks that were handed to the
processing function. -/
structure History where
  arrived : List Entry
  taken : List (Entry × Option Task)
  handed : List Task

/-- The entry that an exception of `queue_get` costs. -/
def lostEntry (taken : Bool) (queue : List Entry) : List (Entry × Option Task) :=
  if taken then (queue.take 1).map fun entry => (entry, none) else []

/-- What the history keeps of a step. -/
def observe (kind : Kind) : Action → State → History → History
  | .queuePut entry, _, h => { h with arrived := h.arrived ++ [entry] }
  | .queueGet (.redisError taken), s, h | .queueGet (.raises taken _), s, h =>
      { h with taken := h.taken ++ lostEntry taken s.queue }
  | .preProcess env, s, h =>
      match s.phase with
      | .received entry =>
          { h with taken := h.taken ++
              [(entry, (Listener.preProcess kind env entry.task).toOption.join)] }
      | _ => h
  | .process _, s, h =>
      match s.phase with
      | .ready task =>
          if kind.hasProcessingFunction then { h with handed := h.handed ++ [task] } else h
      | _ => h
  | _, _, h => h

/-- The machine with its history; the queue may hold entries at the start. -/
def machine (kind : Kind) : Machine (State × History) Action where
  Init := fun p => p.1.phase = .looping ∧ p.1.stopCondition = false ∧
    p.2 = ⟨p.1.queue, [], []⟩
  step := fun a p => (step kind a p.1).map fun s => (s, observe kind a p.1 p.2)

/-! ## What a listener is for -/

/-- The entry that is being pre-processed. -/
def Phase.entry : Phase → List Entry
  | .received entry => [entry]
  | _ => []

/-- The task that is about to be handed over. -/
def Phase.task : Phase → List Task
  | .ready task => [task]
  | _ => []

/-- The step is one of the listener itself. -/
def Action.OfListener : Action → Prop
  | .queuePut _ | .shutdown => False
  | _ => True

/-- The entries are taken in queue order; the tasks made of them are handed to the
processing function, if there is one, once each and in this order, and none but
the last is still to be handed over; the listener has not died, and ends only
after the stop condition was set, so until then it has a next step. -/
structure Served (kind : Kind) (s : State) (h : History) : Prop where
  order : h.arrived = h.taken.map Prod.fst ++ s.phase.entry ++ s.queue
  once : kind.hasProcessingFunction = true →
    h.handed ++ s.phase.task = h.taken.filterMap Prod.snd
  alive : ∀ exc, s.phase ≠ .died exc
  goesOn : s.phase = .ended → s.stopCondition = true
  next : s.stopCondition = false → ∃ a, a.OfListener ∧ (step kind a s).isSome = true

/-- The step raises nothing but the `RedisError` that the loop expects. -/
def Calm (kind : Kind) (s : State) : Action → Prop
  | .queueGet (.raises _ _) => False
  | .preProcess env => ∀ entry, s.phase = .received entry → PreProcessable kind env entry.task
  | .process outcome => kind.hasProcessingFunction = true → Returns outcome
  | _ => True

/-! ## The listener serves its queue -/

section

variable {kind : Kind} {s s' : State} {h : History} {a : Action} {env : Env}

/-- A listener that has neither died nor ended has a next step. -/
theorem exists_next (halive : ∀ exc, s.phase ≠ .died exc) (hgoesOn : s.phase ≠ .ended) :
    ∃ a, a.OfListener ∧ (step kind a s).isSome = true := by
  cases hphase : s.phase with
  | looping => exact ⟨.check, trivial, by simp [step, hphase]⟩
  | polling => exact ⟨.queueGet (.redisError false), trivial, by simp [step, hphase]⟩
  | received entry =>
      let env : Env := ⟨fun _ => true, fun _ => .ok (), .ok (), .ok (), fun _ => .ok [],
        fun _ => .ok true, fun _ => .ok ()⟩
      exact ⟨.preProcess env, trivial, by simp [step, hphase]⟩
  | ready task =>
      refine ⟨.process (.ok ()), trivial, ?_⟩
      cases hfunction : kind.hasProcessingFunction <;> simp [step, hphase, hfunction]
  | ended => exact absurd hphase hgoesOn
  | died exc => exact absurd hphase (halive exc)

/-- What a new state has to meet, the next step apart. -/
theorem Served.mk' (order : h.arrived = h.taken.map Prod.fst ++ s.phase.entry ++ s.queue)
    (once : kind.hasProcessingFunction = true →
      h.handed ++ s.phase.task = h.taken.filterMap Prod.snd)
    (alive : ∀ exc, s.phase ≠ .died exc) (goesOn : s.phase = .ended → s.stopCondition = true) :
    Served kind s h where
  order := order
  once := once
  alive := alive
  goesOn := goesOn
  next := fun hstop => exists_next alive fun hended => by simp [goesOn hended] at hstop

theorem lostEntry_append (taken : Bool) (queue : List Entry) :
    (lostEntry taken queue).map Prod.fst ++ dropTaken taken queue = queue := by
  cases taken with
  | false => rfl
  | true => cases queue <;> rfl

theorem filterMap_lostEntry (taken : Bool) (queue : List Entry) :
    (lostEntry taken queue).filterMap Prod.snd = [] := by
  cases taken with
  | false => rfl
  | true => cases queue <;> rfl

theorem init_served (p : State × History) (hinit : (machine kind).Init p) : Served kind p.1 p.2 := by
  obtain ⟨hphase, hstop, hhistory⟩ := hinit
  rw [hhistory]
  apply Served.mk'
  · simp [hphase, Phase.entry]
  · simp [hphase, Phase.task]
  · simp [hphase]
  · simp [hphase]

/-- The error of a queue that is down costs at most the entry it was about to take. -/
theorem queueGet_served {outcome : QueueGet} (hserved : Served kind s h)
    (hstep : step kind (.queueGet outcome) s = some s') (hcalm : Calm kind s (.queueGet outcome)) :
    Served kind s' (observe kind (.queueGet outcome) s h) := by
  obtain ⟨order, once, -, -, -⟩ := hserved
  cases hphase : s.phase <;> simp only [step, hphase, reduceCtorEq] at hstep
  simp only [hphase, Phase.entry, Phase.task, List.append_nil] at order once
  cases outcome with
  | returns =>
      cases hqueue : s.queue with
      | nil =>
          simp only [hqueue, Option.some.injEq] at hstep
          subst hstep
          apply Served.mk'
          · simpa [observe, Phase.entry, hqueue] using order
          · simpa [observe, Phase.task] using once
          · simp
          · simp
      | cons entry queue =>
          simp only [hqueue, Option.some.injEq] at hstep
          subst hstep
          apply Served.mk'
          · simpa [observe, Phase.entry, hqueue] using order
          · simpa [observe, Phase.task] using once
          · simp
          · simp
  | redisError taken =>
      simp only [Option.some.injEq] at hstep
      subst hstep
      apply Served.mk'
      · show h.arrived = (h.taken ++ lostEntry taken s.queue).map Prod.fst ++ [] ++
          dropTaken taken s.queue
        rw [List.append_nil, List.map_append, List.append_assoc, lostEntry_append, order]
      · intro hfunction
        show h.handed ++ [] = (h.taken ++ lostEntry taken s.queue).filterMap Prod.snd
        rw [List.append_nil, List.filterMap_append, filterMap_lostEntry, List.append_nil,
          once hfunction]
      · simp
      · simp
  | raises taken exc => exact hcalm.elim

theorem preProcess_served (hserved : Served kind s h)
    (hstep : step kind (.preProcess env) s = some s') (hcalm : Calm kind s (.preProcess env)) :
    Served kind s' (observe kind (.preProcess env) s h) := by
  obtain ⟨order, once, -, -, -⟩ := hserved
  cases hphase : s.phase <;> simp only [step, hphase, reduceCtorEq, Option.some.injEq] at hstep
  rename_i entry
  subst hstep
  simp only [hphase, Phase.entry, Phase.task, List.append_nil] at order once
  have hreturns := returns_preProcess.2 (hcalm entry hphase)
  cases hresult : Listener.preProcess kind env entry.task with
  | error exc => exact absurd (hresult ▸ hreturns) (not_returns_error exc)
  | ok result =>
      cases result with
      | none =>
          apply Served.mk'
          · simp [observe, hphase, goOn, Phase.entry, order]
          · simpa [observe, hphase, goOn, Phase.task, hresult, Except.toOption] using once
          · simp [goOn]
          · simp [goOn]
      | some task =>
          apply Served.mk'
          · simp [observe, hphase, goOn, Phase.entry, order]
          · intro hfunction
            simp [observe, hphase, goOn, Phase.task, hresult, Except.toOption, once hfunction]
          · simp [goOn]
          · simp [goOn]

theorem process_served {outcome : Except Exc Unit} (hserved : Served kind s h)
    (hstep : step kind (.process outcome) s = some s') (hcalm : Calm kind s (.process outcome)) :
    Served kind s' (observe kind (.process outcome) s h) := by
  obtain ⟨order, once, -, -, -⟩ := hserved
  cases hphase : s.phase <;> simp only [step, hphase, reduceCtorEq] at hstep
  rename_i task
  simp only [hphase, Phase.entry, Phase.task, List.append_nil] at order once
  by_cases hfunction : kind.hasProcessingFunction = true
  · have hreturns : Returns outcome := hcalm hfunction
    rw [if_pos hfunction, Option.some.injEq] at hstep
    subst hstep
    cases outcome with
    | error exc => exact absurd hreturns (not_returns_error exc)
    | ok x =>
        apply Served.mk'
        · simpa [observe, hphase, hfunction, goOn, Phase.entry] using order
        · intro _
          simpa [observe, hphase, hfunction, goOn, Phase.task] using once hfunction
        · simp [goOn]
        · simp [goOn]
  · rw [if_neg hfunction, Option.some.injEq] at hstep
    subst hstep
    apply Served.mk'
    · simpa [observe, hphase, hfunction, Phase.entry] using order
    · exact fun htrue => absurd htrue hfunction
    · simp
    · simp

theorem step_served (hserved : Served kind s h) (hstep : step kind a s = some s')
    (hcalm : Calm kind s a) : Served kind s' (observe kind a s h) := by
  cases a with
  | queuePut entry =>
      simp only [step, Option.some.injEq] at hstep
      subst hstep
      obtain ⟨order, once, alive, goesOn, -⟩ := hserved
      exact Served.mk' (by simp [observe, order]) once alive goesOn
  | shutdown =>
      simp only [step, Option.some.injEq] at hstep
      subst hstep
      obtain ⟨order, once, alive, goesOn, -⟩ := hserved
      exact Served.mk' order once alive fun _ => rfl
  | check =>
      obtain ⟨order, once, -, -, -⟩ := hserved
      cases hphase : s.phase <;> simp only [step, hphase, reduceCtorEq, Option.some.injEq] at hstep
      subst hstep
      simp only [hphase, Phase.entry, Phase.task] at order once
      cases hstop : s.stopCondition with
      | false =>
          apply Served.mk'
          · simpa [observe, Phase.entry] using order
          · simpa [observe, Phase.task] using once
          · simp
          · simp
      | true =>
          apply Served.mk'
          · simpa [observe, Phase.entry] using order
          · simpa [observe, Phase.task] using once
          · simp
          · simp
  | queueGet outcome => exact queueGet_served hserved hstep hcalm
  | preProcess env => exact preProcess_served hserved hstep hcalm
  | process outcome => exact process_served hserved hstep hcalm

/-- Whatever is raised elsewhere ends the listener. -/
theorem died_of_not_calm (hstep : step kind a s = some s') (hcalm : ¬ Calm kind s a) :
    ∃ exc, s'.phase = .died exc := by
  cases a with
  | queuePut entry => exact absurd trivial hcalm
  | shutdown => exact absurd trivial hcalm
  | check => exact absurd trivial hcalm
  | queueGet outcome =>
      cases outcome with
      | returns => exact absurd trivial hcalm
      | redisError taken => exact absurd trivial hcalm
      | raises taken exc =>
          cases hphase : s.phase <;> simp only [step, hphase, reduceCtorEq, Option.some.injEq] at hstep
          subst hstep
          exact ⟨exc, rfl⟩
  | preProcess env =>
      cases hphase : s.phase <;> simp only [step, hphase, reduceCtorEq, Option.some.injEq] at hstep
      rename_i entry
      have hraises : ¬ Returns (Listener.preProcess kind env entry.task) := by
        intro hreturns
        refine hcalm fun entry' hentry => ?_
        obtain rfl : entry = entry' := by simpa [hphase] using hentry
        exact returns_preProcess.1 hreturns
      subst hstep
      cases hresult : Listener.preProcess kind env entry.task with
      | error exc => exact ⟨exc, rfl⟩
      | ok result => exact absurd (hresult ▸ returns_ok result) hraises
  | process outcome =>
      have hraises : kind.hasProcessingFunction = true ∧ ¬ Returns outcome := by
        simpa [Calm] using hcalm
      cases hphase : s.phase <;> simp only [step, hphase, reduceCtorEq] at hstep
      rw [if_pos hraises.1, Option.some.injEq] at hstep
      subst hstep
      cases outcome with
      | error exc => exact ⟨exc, rfl⟩
      | ok x => exact absurd (returns_ok x) hraises.2

end

/-! ## A file that is not stored any more -/

/-- Two requests to update an object. -/
def twoUpdates : State where
  queue := [⟨.file "a_1" false, "1"⟩, ⟨.file "b_1" false, "2"⟩]
  stopCondition := false
  phase := .looping

/-- No call fails, and the files of the list are stored. -/
def storedOnly (uids : List Uid) : Env where
  isStored := fun uid => decide (uid ∈ uids)
  write := fun _ => .ok ()
  managerEvent := .ok ()
  startThread := .ok ()
  uidListExists := fun _ => .ok []
  unpackingLockIsSet := fun _ => .ok false
  deleteFile := fun _ => .ok ()

theorem init_twoUpdates : (machine .updateTask).Init (twoUpdates, ⟨twoUpdates.queue, [], []⟩) :=
  ⟨rfl, rfl, rfl⟩

end FactCore.Listener
