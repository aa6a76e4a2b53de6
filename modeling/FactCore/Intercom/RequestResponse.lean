import FactCore.Lib.Dict
import FactCore.Lib.Machine
import FactCore.Lib.Ownership

/-! # Requests and responses

The protocol between `InterComFrontEndBinding` (`intercom/front_end_binding.py`)
and the responding listeners (`InterComListenerAndResponder` of
`intercom/common_redis_binding.py`). A client puts its data with a task id into
the Redis list of a connection and polls the key of this id; the listener of the
connection starts a thread for each entry, which stores the response under the id.
A poll takes the response away, and a response of `None` looks like none at all.

The id is a digest of the data and the time. It is shown what follows as long as
no id is generated twice; it does not follow without, as the last section shows.
-/

universe u v w x

namespace FactCore.RequestResponse

open Tla

variable {C : Type u} {D : Type v} {H : Type w} {R : Type x}

/-- `generate_task_id`: the digest of the pickled data and the time. -/
abbrev TaskId (H : Type w) := H × Nat

/-- What a client is doing. -/
inductive Phase (C : Type u) (D : Type v) (H : Type w) where
  | idle
  /-- Before `queue_put`; `wait` says whether it waits for the response then. -/
  | sending (conn : C) (data : D) (id : TaskId H) (wait : Bool)
  /-- In `_response_listener`. -/
  | waiting (id : TaskId H)

/-- A thread of a listener that runs `_get_response_asynchronously`; the response is
there once `get_response` has returned. -/
structure Thread (C : Type u) (D : Type v) (H : Type w) (R : Type x) where
  conn : C
  data : D
  id : TaskId H
  response : Option (Option R)

/-- A poll that found a key. -/
structure Delivery (H : Type w) (R : Type x) where
  id : TaskId H
  client : Nat
  value : Option R

/-- What has happened so far. Nobody reads it. -/
structure Log (C : Type u) (D : Type v) (H : Type w) (R : Type x) where
  requests : Dict (TaskId H) (C × D) := ∅
  /-- What `get_response` of a connection returned for some data. -/
  answers : Dict (TaskId H) (C × D × Option R) := ∅
  delivered : List (Delivery H R) := []
  failed : List (TaskId H) := []
  gaveUp : List (TaskId H) := []
  /-- The ids that were handed back to the caller of `add_binary_search_request`. -/
  submitted : List (TaskId H) := []

/-- The clients, the Redis lists and keys, and the threads of the listeners. -/
structure State (C : Type u) (D : Type v) (H : Type w) (R : Type x) where
  now : Nat
  clients : Nat → Phase C D H
  queues : C → List (D × TaskId H)
  threads : Nat → Option (Thread C D H R)
  keys : Dict (TaskId H) (Option R)
  log : Log C D H R

inductive Action (C : Type u) (D : Type v) (H : Type w) (R : Type x) where
  | tick (now : Nat)
  | request (client : Nat) (conn : C) (data : D) (wait : Bool)
  | put (client : Nat)
  /-- `get_binary_search_result` of an id that the caller has. -/
  | listen (client : Nat) (id : TaskId H)
  | poll (client : Nat)
  | timeout (client : Nat)
  | take (conn : C) (tid : Nat)
  | respond (tid : Nat) (response : Option R)
  | raises (tid : Nat)
  | store (tid : Nat)

section

variable [DecidableEq C] [DecidableEq H]

/-- `_request_response_listener` up to `_add_to_redis_queue`, or
`add_binary_search_request`. -/
def request (digest : D → H) (client : Nat) (conn : C) (data : D) (wait : Bool)
    (s : State C D H R) : Option (State C D H R) :=
  match s.clients client with
  | .idle =>
      let id := (digest data, s.now)
      some { s with
        clients := Function.update s.clients client (.sending conn data id wait)
        log := { s.log with requests := s.log.requests.set id (conn, data) } }
  | _ => none

/-- `_add_to_redis_queue`. -/
def put (client : Nat) (s : State C D H R) : Option (State C D H R) :=
  match s.clients client with
  | .sending conn data id wait =>
      some { s with
        clients := Function.update s.clients client (if wait then .waiting id else .idle)
        queues := Function.update s.queues conn (s.queues conn ++ [(data, id)])
        log := { s.log with
          submitted := if wait then s.log.submitted else s.log.submitted ++ [id] } }
  | _ => none

/-- A call of `_response_listener` for an id from before. -/
def listen (client : Nat) (id : TaskId H) (s : State C D H R) : Option (State C D H R) :=
  match s.clients client with
  | .idle => some { s with clients := Function.update s.clients client (.waiting id) }
  | _ => none

/-- One round of `_response_listener`: the key is read and deleted, and a response
other than `None` ends the loop. -/
def poll (client : Nat) (s : State C D H R) : Option (State C D H R) :=
  match s.clients client with
  | .waiting id =>
      match s.keys.get? id with
      | none => some s
      | some value =>
          some { s with
            clients := Function.update s.clients client
              (if value.isSome then .idle else .waiting id)
            keys := s.keys.erase id
            log := { s.log with delivered := s.log.delivered ++ [⟨id, client, value⟩] } }
  | _ => none

/-- The time of `_response_listener` is up. -/
def timeout (client : Nat) (s : State C D H R) : Option (State C D H R) :=
  match s.clients client with
  | .waiting id =>
      some { s with
        clients := Function.update s.clients client .idle
        log := { s.log with gaveUp := s.log.gaveUp ++ [id] } }
  | _ => none

/-- `get_next_task` of the listener of a connection, with `pre_process`. -/
def take (conn : C) (tid : Nat) (s : State C D H R) : Option (State C D H R) :=
  match s.queues conn, s.threads tid with
  | (data, id) :: rest, none =>
      some { s with
        queues := Function.update s.queues conn rest
        threads := Function.update s.threads tid (some ⟨conn, data, id, none⟩) }
  | _, _ => none

/-- `get_response` returns. -/
def respond (tid : Nat) (response : Option R) (s : State C D H R) : Option (State C D H R) :=
  match s.threads tid with
  | some ⟨conn, data, id, none⟩ =>
      some { s with
        threads := Function.update s.threads tid (some ⟨conn, data, id, some response⟩)
        log := { s.log with answers := s.log.answers.set id (conn, data, response) } }
  | _ => none

/-- `get_response` raises, which ends the thread. -/
def raises (tid : Nat) (s : State C D H R) : Option (State C D H R) :=
  match s.threads tid with
  | some ⟨_, _, id, none⟩ =>
      some { s with
        threads := Function.update s.threads tid none
        log := { s.log with failed := s.log.failed ++ [id] } }
  | _ => none

/-- The response is stored under the id. -/
def store (tid : Nat) (s : State C D H R) : Option (State C D H R) :=
  match s.threads tid with
  | some ⟨_, _, id, some response⟩ =>
      some { s with
        threads := Function.update s.threads tid none
        keys := s.keys.set id response }
  | _ => none

/-- One step. -/
def step (digest : D → H) : Action C D H R → State C D H R → Option (State C D H R)
  | .tick now, s => some { s with now := now }
  | .request client conn data wait, s => request digest client conn data wait s
  | .put client, s => put client s
  | .listen client id, s => listen client id s
  | .poll client, s => poll client s
  | .timeout client, s => timeout client s
  | .take conn tid, s => take conn tid s
  | .respond tid response, s => respond tid response s
  | .raises tid, s => raises tid s
  | .store tid, s => store tid s

/-- Nobody has asked for anything. -/
def State.init (now : Nat) : State C D H R :=
  ⟨now, fun _ => .idle, fun _ => [], fun _ => none, ∅, {}⟩

/-- The clients and the listeners. -/
def machine (digest : D → H) : Machine (State C D H R) (Action C D H R) where
  Init := fun s => ∃ now, s = .init now
  step := step digest

/-- No two requests get one id: not both the data and the time are the same. -/
def Fresh (digest : D → H) (s : State C D H R) : Action C D H R → Prop
  | .request _ _ data _ => (digest data, s.now) ∉ s.log.requests
  | _ => True

instance (digest : D → H) (s : State C D H R) (a : Action C D H R) :
    Decidable (Fresh digest s a) := by
  unfold Fresh
  split <;> infer_instance

end

/-! ## Where a request is -/

/-- The places of a task id. -/
inductive Place (C : Type u) where
  | client (client : Nat)
  | queue (conn : C)
  | thread (tid : Nat)
  | redis
  | done
deriving DecidableEq

/-- The id of a request that is not in its queue yet. -/
def Phase.sent : Phase C D H → List (TaskId H)
  | .sending _ _ id _ => [id]
  | _ => []

/-- The ids in a place. -/
def State.ids (s : State C D H R) : Place C → List (TaskId H)
  | .client client => (s.clients client).sent
  | .queue conn => (s.queues conn).map Prod.snd
  | .thread tid => (s.threads tid).toList.map Thread.id
  | .redis => s.keys.items.map Prod.fst
  | .done => s.log.delivered.map Delivery.id ++ s.log.failed

/-- The response of a request that was answered with `value`. -/
def State.Answered [DecidableEq H] (s : State C D H R) (id : TaskId H) (value : Option R) : Prop :=
  ∃ conn data, s.log.requests.get? id = some (conn, data) ∧
    s.log.answers.get? id = some (conn, data, value)

/-- Somebody sends the request or waits for its response. -/
def State.Attended (s : State C D H R) (id : TaskId H) : Prop :=
  ∃ client, s.clients client = .waiting id ∨
    ∃ conn data wait, s.clients client = .sending conn data id wait

/-- A request that nobody waits for was given up, or handed back, or answered. -/
def State.Watched [DecidableEq H] (s : State C D H R) : Prop :=
  ∀ id ∈ s.log.requests, s.Attended id ∨ id ∈ s.log.gaveUp ∨ id ∈ s.log.submitted ∨
    ∃ e ∈ s.log.delivered, e.id = id ∧ e.value.isSome = true

/-- What holds between the steps as long as the ids are fresh. -/
structure Inv [DecidableEq H] (s : State C D H R) : Prop where
  exclusive : Exclusive s.ids
  requested : ∀ id, id ∈ s.log.requests ↔ ∃ place, id ∈ s.ids place
  sending : ∀ client conn data id wait, s.clients client = .sending conn data id wait →
    s.log.requests.get? id = some (conn, data)
  queued : ∀ conn e, e ∈ s.queues conn → s.log.requests.get? e.2 = some (conn, e.1)
  thread : ∀ tid th, s.threads tid = some th →
    s.log.requests.get? th.id = some (th.conn, th.data) ∧
      ∀ value, th.response = some value →
        s.log.answers.get? th.id = some (th.conn, th.data, value)
  stored : ∀ id value, s.keys.get? id = some value → s.Answered id value
  delivered : ∀ e ∈ s.log.delivered, s.Answered e.id e.value
  watched : s.Watched

/-! ## The steps -/

section

variable [DecidableEq C] [DecidableEq H] {s s' : State C D H R}

namespace Inv

variable (s') in
/-- A step moves ids from one place to another. -/
theorem moved (h : Inv s) {i j : Place C} (hij : i ≠ j)
    (hrest : ∀ place, place ≠ i → place ≠ j → s'.ids place = s.ids place)
    (hperm : (s'.ids i ++ s'.ids j).Perm (s.ids i ++ s.ids j))
    (hrequests : s'.log.requests = s.log.requests) :
    Exclusive s'.ids ∧ ∀ id, id ∈ s'.log.requests ↔ ∃ place, id ∈ s'.ids place := by
  refine ⟨h.exclusive.trade hij hrest hperm, fun id => ?_⟩
  rw [hrequests, h.requested id]
  exact (exists_owner_trade hrest hperm id).symm

omit [DecidableEq C] in
/-- The requests of other clients stay watched. -/
theorem watched_of (h : Inv s) {client : Nat} {phase : Phase C D H}
    (hclients : s'.clients = Function.update s.clients client phase)
    (hrequests : s'.log.requests = s.log.requests)
    (hgaveUp : ∀ id ∈ s.log.gaveUp, id ∈ s'.log.gaveUp)
    (hsubmitted : ∀ id ∈ s.log.submitted, id ∈ s'.log.submitted)
    (hdelivered : ∀ e ∈ s.log.delivered, e ∈ s'.log.delivered)
    (hown : ∀ id, s.clients client = .waiting id ∨
        (∃ conn data wait, s.clients client = .sending conn data id wait) →
      phase = .waiting id ∨ id ∈ s'.log.gaveUp ∨ id ∈ s'.log.submitted ∨
        ∃ e ∈ s'.log.delivered, e.id = id ∧ e.value.isSome = true) : s'.Watched := by
  intro id hid
  rw [hrequests] at hid
  rcases h.watched id hid with ⟨c, hc⟩ | hid | hid | ⟨e, he, heid⟩
  · by_cases hcc : c = client
    · subst hcc
      rcases hown id hc with hphase | hlog
      · exact .inl ⟨c, .inl (by simp [hclients, hphase])⟩
      · exact .inr hlog
    · exact .inl ⟨c, by simpa [hclients, Function.update_of_ne hcc] using hc⟩
  · exact .inr (.inl (hgaveUp id hid))
  · exact .inr (.inr (.inl (hsubmitted id hid)))
  · exact .inr (.inr (.inr ⟨e, hdelivered e he, heid⟩))

omit [DecidableEq C] in
/-- A client that is changed to a phase other than `sending`. -/
theorem sending_of (h : Inv s) {client : Nat} {phase : Phase C D H} (hphase : phase.sent = []) :
    ∀ c conn data id wait,
      Function.update s.clients client phase c = .sending conn data id wait →
        s.log.requests.get? id = some (conn, data) := by
  intro c conn data id wait hc
  by_cases hcc : c = client
  · subst hcc
    rw [Function.update_self] at hc
    rw [hc] at hphase
    cases hphase
  · rw [Function.update_of_ne hcc] at hc
    exact h.sending c conn data id wait hc

theorem put (h : Inv s) {client : Nat} (hstep : RequestResponse.put client s = some s') :
    Inv s' := by
  unfold RequestResponse.put at hstep
  split at hstep
  case h_2 => cases hstep
  rename_i conn data id wait hclient
  have hs := Option.some.inj hstep
  have hsent : (if wait = true then Phase.waiting id else Phase.idle : Phase C D H).sent = [] := by
    cases wait <;> rfl
  obtain ⟨hexclusive, hrequested⟩ := h.moved s' (i := .client client) (j := .queue conn)
    (by simp)
    (by
      subst hs
      intro place hi hj
      cases place <;> simp_all [State.ids])
    (by
      subst hs
      have hbefore : (s.clients client).sent = [id] := by rw [hclient]; rfl
      simp only [State.ids, Function.update_self, hsent, hbefore, List.map_append, List.map_cons,
        List.map_nil, List.nil_append]
      exact List.perm_append_singleton _ _)
    (by subst hs; rfl)
  have hwatched : s'.Watched := by
    subst hs
    refine h.watched_of rfl rfl (fun _ hid => hid) ?_ (fun _ he => he) ?_
    · intro id' hid
      cases wait
      · exact List.mem_append_left _ hid
      · exact hid
    · rintro id' (hc | ⟨conn', data', wait', hc⟩)
      · rw [hclient] at hc
        cases hc
      · rw [hclient] at hc
        cases hc
        cases wait
        · exact .inr (.inr (.inl (List.mem_append_right _ List.mem_cons_self)))
        · exact .inl rfl
  subst hs
  refine ⟨hexclusive, hrequested, h.sending_of hsent, ?_, h.thread, h.stored, h.delivered,
    hwatched⟩
  intro q e he
  change e ∈ Function.update s.queues conn (s.queues conn ++ [(data, id)]) q at he
  by_cases hq : q = conn
  · subst hq
    rw [Function.update_self] at he
    rcases List.mem_append.1 he with he | he
    · exact h.queued q e he
    · rw [List.mem_singleton.1 he]
      exact h.sending client q data id wait hclient
  · rw [Function.update_of_ne hq] at he
    exact h.queued q e he

theorem request (h : Inv s) {digest : D → H} {client : Nat} {conn : C} {data : D} {wait : Bool}
    (hfresh : (digest data, s.now) ∉ s.log.requests)
    (hstep : RequestResponse.request digest client conn data wait s = some s') : Inv s' := by
  unfold RequestResponse.request at hstep
  split at hstep
  case h_2 => cases hstep
  rename_i hclient
  have hs := Option.some.inj hstep
  generalize (digest data, s.now) = new at hfresh hs
  have hids : s'.ids = Function.update s.ids (.client client) [new] := by
    subst hs
    funext place
    cases place with
    | client c => by_cases hc : c = client <;> simp [State.ids, Phase.sent, hc]
    | _ => simp [State.ids]
  have hbefore : s.ids (.client client) = [] := by
    show (s.clients client).sent = []
    rw [hclient]
    rfl
  -- what was requested before keeps its entry
  have hkeep : ∀ id entry, s.log.requests.get? id = some entry →
      s'.log.requests.get? id = some entry := by
    intro id entry hid
    subst hs
    have hne : id ≠ new := by
      rintro rfl
      exact hfresh (Dict.mem_of_get? hid)
    exact (Dict.get?_set_ne _ _ hne).trans hid
  have hwatched : s'.Watched := by
    intro id hid
    by_cases hnew : id = new
    · subst hnew
      subst hs
      exact .inl ⟨client, .inr ⟨conn, data, wait, by simp⟩⟩
    · have hid' : id ∈ s.log.requests := by
        subst hs
        exact (Dict.mem_set.1 hid).resolve_left hnew
      rcases h.watched id hid' with ⟨c, hc⟩ | hlog
      · have hcc : c ≠ client := by
          rintro rfl
          simp [hclient] at hc
        subst hs
        exact .inl ⟨c, by simpa [Function.update_of_ne hcc] using hc⟩
      · subst hs
        exact .inr hlog
  refine ⟨?_, ?_, ?_, ?_, ?_, ?_, ?_, hwatched⟩
  · rw [hids]
    refine h.exclusive.update (List.nodup_singleton _) ?_
    intro id hid place _ hplace
    rw [List.mem_singleton.1 hid] at hplace
    exact hfresh ((h.requested new).2 ⟨place, hplace⟩)
  · intro id
    have hmem : id ∈ s'.log.requests ↔ id = new ∨ id ∈ s.log.requests := by
      subst hs
      exact Dict.mem_set
    rw [hmem, h.requested id, hids]
    constructor
    · rintro (rfl | ⟨place, hplace⟩)
      · exact ⟨.client client, by simp⟩
      · have hne : place ≠ .client client := by
          rintro rfl
          simp [hbefore] at hplace
        exact ⟨place, by rwa [Function.update_of_ne hne]⟩
    · rintro ⟨place, hplace⟩
      by_cases hne : place = .client client
      · rw [hne, Function.update_self] at hplace
        exact .inl (List.mem_singleton.1 hplace)
      · rw [Function.update_of_ne hne] at hplace
        exact .inr ⟨place, hplace⟩
  · intro c conn' data' id' wait' hc
    by_cases hcc : c = client
    · subst hs
      subst hcc
      change Function.update s.clients c _ c = _ at hc
      rw [Function.update_self] at hc
      cases hc
      exact Dict.get?_set_self _ _ _
    · refine hkeep id' _ (h.sending c conn' data' id' wait' ?_)
      subst hs
      exact (Function.update_of_ne hcc _ _).symm.trans hc
  · intro q e he
    refine hkeep _ _ (h.queued q e ?_)
    subst hs
    exact he
  · intro tid th hth
    have hth' : s.threads tid = some th := by
      subst hs
      exact hth
    obtain ⟨hrequest, hanswer⟩ := h.thread tid th hth'
    refine ⟨hkeep _ _ hrequest, ?_⟩
    subst hs
    exact hanswer
  · intro id value hid
    have hid' : s.keys.get? id = some value := by
      subst hs
      exact hid
    obtain ⟨conn', data', hrequest, hanswer⟩ := h.stored id value hid'
    refine ⟨conn', data', hkeep _ _ hrequest, ?_⟩
    subst hs
    exact hanswer
  · intro e he
    have he' : e ∈ s.log.delivered := by
      subst hs
      exact he
    obtain ⟨conn', data', hrequest, hanswer⟩ := h.delivered e he'
    refine ⟨conn', data', hkeep _ _ hrequest, ?_⟩
    subst hs
    exact hanswer

omit [DecidableEq C] in
/-- A client that sends nothing moves on without a key. -/
theorem setClient (h : Inv s) {client : Nat} {phase : Phase C D H} {gaveUp : List (TaskId H)}
    (hbefore : (s.clients client).sent = []) (hphase : phase.sent = [])
    (hgaveUp : ∀ id ∈ s.log.gaveUp, id ∈ gaveUp)
    (hown : ∀ id, s.clients client = .waiting id → phase = .waiting id ∨ id ∈ gaveUp) :
    Inv { s with
      clients := Function.update s.clients client phase
      log := { s.log with gaveUp := gaveUp } } := by
  have hids : State.ids { s with
      clients := Function.update s.clients client phase
      log := { s.log with gaveUp := gaveUp } } = s.ids := by
    funext place
    cases place with
    | client c =>
        by_cases hc : c = client
        · subst hc
          simp [State.ids, hphase, hbefore]
        · simp [State.ids, Function.update_of_ne hc]
    | _ => simp [State.ids]
  refine ⟨by rw [hids]; exact h.exclusive, by rw [hids]; exact h.requested, h.sending_of hphase,
    h.queued, h.thread, h.stored, h.delivered,
    h.watched_of rfl rfl hgaveUp (fun _ hid => hid) (fun _ he => he) ?_⟩
  rintro id (hc | ⟨conn, data, wait, hc⟩)
  · rcases hown id hc with hc | hc
    · exact .inl hc
    · exact .inr (.inl hc)
  · rw [hc] at hbefore
    cases hbefore

omit [DecidableEq C] in
theorem listen (h : Inv s) {client : Nat} {id : TaskId H}
    (hstep : RequestResponse.listen client id s = some s') : Inv s' := by
  unfold RequestResponse.listen at hstep
  split at hstep
  case h_2 => cases hstep
  rename_i hclient
  obtain rfl := Option.some.inj hstep
  exact h.setClient (by rw [hclient]; rfl) rfl (fun _ hid => hid) (by simp [hclient])

omit [DecidableEq C] in
theorem timeout (h : Inv s) {client : Nat}
    (hstep : RequestResponse.timeout client s = some s') : Inv s' := by
  unfold RequestResponse.timeout at hstep
  split at hstep
  case h_2 => cases hstep
  rename_i id hclient
  obtain rfl := Option.some.inj hstep
  refine h.setClient (by rw [hclient]; rfl) rfl (fun _ hid => List.mem_append_left _ hid) ?_
  intro id' hc
  rw [hclient] at hc
  cases hc
  exact .inr (List.mem_append_right _ List.mem_cons_self)

theorem perm_keys_erase {keys : Dict (TaskId H) (Option R)} {id : TaskId H} {value : Option R}
    (hid : keys.get? id = some value) :
    (id :: (keys.erase id).items.map Prod.fst).Perm (keys.items.map Prod.fst) := by
  have hmem : id ∈ keys.items.map Prod.fst := Dict.mem_keys.2 (Dict.mem_of_get? hid)
  refine (List.perm_ext_iff_of_nodup ?_ keys.nodup).2 fun id' => ?_
  · rw [List.nodup_cons]
    refine ⟨fun hin => ?_, (keys.erase id).nodup⟩
    exact (Dict.mem_erase.1 (Dict.mem_keys.1 hin)).1 rfl
  · rw [List.mem_cons]
    constructor
    · rintro (rfl | hin)
      · exact hmem
      · exact Dict.mem_keys.2 (Dict.mem_erase.1 (Dict.mem_keys.1 hin)).2
    · intro hin
      by_cases hne : id' = id
      · exact .inl hne
      · exact .inr (Dict.mem_keys.2 (Dict.mem_erase.2 ⟨hne, Dict.mem_keys.1 hin⟩))

theorem poll (h : Inv s) {client : Nat} (hstep : RequestResponse.poll client s = some s') :
    Inv s' := by
  unfold RequestResponse.poll at hstep
  split at hstep
  case h_2 => cases hstep
  rename_i id hclient
  split at hstep
  · obtain rfl := Option.some.inj hstep
    exact h
  rename_i value hkey
  have hs := Option.some.inj hstep
  have hbefore : (s.clients client).sent = [] := by
    rw [hclient]
    rfl
  have hphase : (if value.isSome = true then Phase.idle else Phase.waiting id :
      Phase C D H).sent = [] := by
    cases value <;> rfl
  obtain ⟨hexclusive, hrequested⟩ := h.moved s' (i := .redis) (j := .done) (by simp)
    (by
      subst hs
      intro place hi hj
      cases place with
      | client c =>
          by_cases hc : c = client
          · subst hc
            simp [State.ids, hphase, hbefore]
          · simp [State.ids, Function.update_of_ne hc]
      | _ => simp_all [State.ids])
    (by
      subst hs
      have hperm := perm_keys_erase hkey
      simp only [State.ids, List.map_append, List.map_cons, List.map_nil]
      refine List.Perm.trans ?_ (hperm.append_right _)
      rw [List.append_assoc, List.singleton_append]
      refine (List.perm_middle.append_left _).trans ?_
      rw [List.cons_append]
      exact List.perm_middle)
    (by subst hs; rfl)
  have hwatched : s'.Watched := by
    subst hs
    refine h.watched_of rfl rfl (fun _ hid => hid) (fun _ hid => hid)
      (fun _ he => List.mem_append_left _ he) ?_
    rintro id' (hc | ⟨conn, data, wait, hc⟩)
    · rw [hclient] at hc
      cases hc
      cases value with
      | none => exact .inl rfl
      | some value =>
          exact .inr (.inr (.inr ⟨_, List.mem_append_right _ List.mem_cons_self, rfl, rfl⟩))
    · rw [hclient] at hc
      cases hc
  subst hs
  refine ⟨hexclusive, hrequested, h.sending_of hphase, h.queued, h.thread, ?_, ?_, hwatched⟩
  · intro id' value' hid'
    change (s.keys.erase id).get? id' = some value' at hid'
    by_cases hne : id' = id
    · simp [hne] at hid'
    · exact h.stored id' value' (by rwa [Dict.get?_erase_ne _ hne] at hid')
  · intro e he
    rcases List.mem_append.1 he with he | he
    · exact h.delivered e he
    · rw [List.mem_singleton.1 he]
      exact h.stored id value hkey

theorem take (h : Inv s) {conn : C} {tid : Nat}
    (hstep : RequestResponse.take conn tid s = some s') : Inv s' := by
  unfold RequestResponse.take at hstep
  split at hstep
  case h_2 => cases hstep
  rename_i data id rest hqueue hthread
  have hs := Option.some.inj hstep
  obtain ⟨hexclusive, hrequested⟩ := h.moved s' (i := .queue conn) (j := .thread tid)
    (by simp)
    (by
      subst hs
      intro place hi hj
      cases place <;> simp_all [State.ids])
    (by
      subst hs
      simp [State.ids, hqueue, hthread, List.perm_append_singleton])
    (by subst hs; rfl)
  subst hs
  refine ⟨hexclusive, hrequested, h.sending, ?_, ?_, h.stored, h.delivered, h.watched⟩
  · intro q e he
    change e ∈ Function.update s.queues conn rest q at he
    by_cases hq : q = conn
    · subst hq
      rw [Function.update_self] at he
      exact h.queued q e (hqueue ▸ List.mem_cons_of_mem _ he)
    · rw [Function.update_of_ne hq] at he
      exact h.queued q e he
  · intro t th hth
    change Function.update s.threads tid _ t = some th at hth
    by_cases ht : t = tid
    · subst ht
      rw [Function.update_self] at hth
      cases hth
      exact ⟨h.queued conn (data, id) (hqueue ▸ List.mem_cons_self), by simp⟩
    · rw [Function.update_of_ne ht] at hth
      exact h.thread t th hth

omit [DecidableEq C] in
/-- A thread that has ended. -/
theorem thread_of {tid : Nat} (h : Inv s) :
    ∀ t th, Function.update s.threads tid none t = some th →
      s.log.requests.get? th.id = some (th.conn, th.data) ∧
        ∀ value, th.response = some value →
          s.log.answers.get? th.id = some (th.conn, th.data, value) := by
  intro t th hth
  by_cases ht : t = tid
  · subst ht
    rw [Function.update_self] at hth
    cases hth
  · rw [Function.update_of_ne ht] at hth
    exact h.thread t th hth

omit [DecidableEq C] in
theorem respond (h : Inv s) {tid : Nat} {response : Option R}
    (hstep : RequestResponse.respond tid response s = some s') : Inv s' := by
  unfold RequestResponse.respond at hstep
  split at hstep
  case h_2 => cases hstep
  rename_i conn data id hthread
  have hs := Option.some.inj hstep
  have hids : s'.ids = s.ids := by
    subst hs
    funext place
    cases place with
    | thread t =>
        by_cases ht : t = tid
        · subst ht
          simp [State.ids, hthread]
        · simp [State.ids, Function.update_of_ne ht]
    | _ => simp [State.ids]
  -- the id is in this thread, so what is elsewhere keeps its answer
  have hplace : id ∈ s.ids (.thread tid) := by simp [State.ids, hthread]
  have hkeep : ∀ id' place, id' ∈ s.ids place → place ≠ .thread tid →
      (s.log.answers.set id (conn, data, response)).get? id' = s.log.answers.get? id' := by
    intro id' place hid' hne
    refine Dict.get?_set_ne _ _ ?_
    rintro rfl
    exact hne (h.exclusive.owner_eq hid' hplace)
  subst hs
  refine ⟨by rw [hids]; exact h.exclusive, by rw [hids]; exact h.requested, h.sending, h.queued,
    ?_, ?_, ?_, h.watched⟩
  · intro t th hth
    change Function.update s.threads tid _ t = some th at hth
    change _ ∧ ∀ value, _ → (s.log.answers.set id (conn, data, response)).get? _ = _
    by_cases ht : t = tid
    · subst ht
      rw [Function.update_self] at hth
      cases hth
      refine ⟨(h.thread t _ hthread).1, ?_⟩
      intro value hvalue
      cases hvalue
      exact Dict.get?_set_self _ _ _
    · rw [Function.update_of_ne ht] at hth
      obtain ⟨hrequest, hanswer⟩ := h.thread t th hth
      refine ⟨hrequest, fun value hvalue => ?_⟩
      rw [hkeep th.id (.thread t) (by simp [State.ids, hth]) (by simpa using ht)]
      exact hanswer value hvalue
  · intro id' value hid'
    obtain ⟨conn', data', hrequest, hanswer⟩ := h.stored id' value hid'
    refine ⟨conn', data', hrequest, ?_⟩
    exact (hkeep id' .redis (Dict.mem_keys.2 (Dict.mem_of_get? hid')) (by simp)).trans hanswer
  · intro e he
    obtain ⟨conn', data', hrequest, hanswer⟩ := h.delivered e he
    refine ⟨conn', data', hrequest, ?_⟩
    refine (hkeep e.id .done ?_ (by simp)).trans hanswer
    exact List.mem_append_left _ (List.mem_map_of_mem he)

theorem raises (h : Inv s) {tid : Nat} (hstep : RequestResponse.raises tid s = some s') :
    Inv s' := by
  unfold RequestResponse.raises at hstep
  split at hstep
  case h_2 => cases hstep
  rename_i conn data id hthread
  have hs := Option.some.inj hstep
  obtain ⟨hexclusive, hrequested⟩ := h.moved s' (i := .thread tid) (j := .done) (by simp)
    (by
      subst hs
      intro place hi hj
      cases place <;> simp_all [State.ids])
    (by
      subst hs
      simp only [State.ids, Function.update_self, hthread, Option.toList_none, List.map_nil,
        List.nil_append, Option.toList_some, List.map_cons]
      rw [← List.append_assoc]
      exact List.perm_append_singleton _ _)
    (by subst hs; rfl)
  subst hs
  exact ⟨hexclusive, hrequested, h.sending, h.queued, h.thread_of, h.stored, h.delivered, h.watched⟩

theorem store (h : Inv s) {tid : Nat} (hstep : RequestResponse.store tid s = some s') :
    Inv s' := by
  unfold RequestResponse.store at hstep
  split at hstep
  case h_2 => cases hstep
  rename_i conn data id response hthread
  have hs := Option.some.inj hstep
  have hplace : id ∈ s.ids (.thread tid) := by simp [State.ids, hthread]
  have hnew : id ∉ s.keys := by
    intro hmem
    have := h.exclusive.owner_eq (j := .redis) hplace (Dict.mem_keys.2 hmem)
    cases this
  obtain ⟨hexclusive, hrequested⟩ := h.moved s' (i := .thread tid) (j := .redis) (by simp)
    (by
      subst hs
      intro place hi hj
      cases place <;> simp_all [State.ids])
    (by
      subst hs
      simp only [State.ids, Function.update_self, hthread, Option.toList_none, List.map_nil,
        List.nil_append, Option.toList_some, List.map_cons, Dict.items_set_of_notMem _ hnew,
        List.map_append]
      exact List.perm_append_singleton _ _)
    (by subst hs; rfl)
  obtain ⟨hrequest, hanswer⟩ := h.thread tid _ hthread
  subst hs
  refine ⟨hexclusive, hrequested, h.sending, h.queued, h.thread_of, ?_, h.delivered, h.watched⟩
  intro id' value hid'
  change (s.keys.set id response).get? id' = some value at hid'
  by_cases hne : id' = id
  · subst hne
    rw [Dict.get?_set_self] at hid'
    cases hid'
    exact ⟨conn, data, hrequest, hanswer response rfl⟩
  · exact h.stored id' value (by rwa [Dict.get?_set_ne _ _ hne] at hid')

theorem step (h : Inv s) {digest : D → H} {a : Action C D H R} (hfresh : Fresh digest s a)
    (hstep : RequestResponse.step digest a s = some s') : Inv s' := by
  cases a with
  | tick now =>
      obtain rfl := Option.some.inj hstep
      exact ⟨h.exclusive, h.requested, h.sending, h.queued, h.thread, h.stored, h.delivered,
        h.watched⟩
  | request client conn data wait => exact h.request hfresh hstep
  | put client => exact h.put hstep
  | listen client id => exact h.listen hstep
  | poll client => exact h.poll hstep
  | timeout client => exact h.timeout hstep
  | take conn tid => exact h.take hstep
  | respond tid response => exact h.respond hstep
  | raises tid => exact h.raises hstep
  | store tid => exact h.store hstep

end Inv

omit [DecidableEq C] in
theorem inv_init (now : Nat) : Inv (State.init now : State C D H R) := by
  have hids : (State.init now : State C D H R).ids = fun _ => [] := by
    funext place
    cases place <;> simp [State.ids, State.init, Phase.sent]
    rfl
  refine ⟨by rw [hids]; exact .empty, ?_, by simp [State.init], by simp [State.init],
    by simp [State.init], by simp [State.init], by simp [State.init], ?_⟩
  · intro id
    rw [hids]
    simp [State.init, Dict.notMem_empty]
  · intro id hid
    exact absurd hid (Dict.notMem_empty id)

theorem inv_reach {digest : D → H} (h : (machine digest).Reach (Fresh digest) s) : Inv s := by
  refine Machine.reach_invariant ?_ (fun _ _ _ hfresh hstep hinv => hinv.step hfresh hstep) h
  rintro _ ⟨now, rfl⟩
  exact inv_init now

/-! ## Right responses -/

end

/-! ## Runs -/

/-- Two clients ask for the same data at the times 0 and 1, over two connections; the
first one gives up before its response comes. -/
def twoRequests : List (Action Bool Nat Nat Nat) :=
  [.request 0 false 5 true, .put 0, .tick 1, .request 1 true 5 true, .put 1, .take true 0,
    .take false 1, .respond 0 (some 20), .store 0, .poll 0, .timeout 0, .respond 1 (some 10),
    .poll 1, .store 1]

/-- The state at their end. -/
def afterTwoRequests : State Bool Nat Nat Nat :=
  ((machine id).run (Fresh id) twoRequests (.init 0)).getD (.init 0)

theorem reach_afterTwoRequests : (machine id).Reach (Fresh id) afterTwoRequests := by
  have hsome : ((machine id).run (Fresh id) twoRequests (.init 0)).isSome = true := by
    decide +kernel
  obtain ⟨s, hs⟩ := Option.isSome_iff_exists.1 hsome
  have hend : afterTwoRequests = s := by simp [afterTwoRequests, hs]
  rw [hend]
  exact Machine.reach_of_run ⟨0, rfl⟩ hs

-- at the same time the two ids are one, and the second client gets the response of the
-- first connection
example :
    ((machine (C := Bool) (D := Nat) (R := Nat) id).run Machine.anyStep
      [.request 0 false 5 true, .put 0, .request 1 true 5 true, .put 1, .take false 0,
        .respond 0 (some 10), .store 0, .poll 1] (.init 0)).map
      (fun s => s.log.delivered.map fun e => (e.id, e.client, e.value)) =
      some [((5, 0), 1, some 10)] := by
  decide +kernel

end FactCore.RequestResponse
