import FactCore.Storage.RedisInterface

/-! # Clients of the Redis interface

Any number of clients call the interface at the same time, and their Redis commands
interleave: the `EXISTS` and the `SET` of each part, the command that stores the value
itself, the one that reads it, and those that read its parts. Another client may do
anything between two commands of a call.

The key of a part is chosen by an `EXISTS` and taken by a later `SET`, so two clients can
choose the same one. If every `SET` of a part meets a key that still does not exist, and no
call stores or deletes a value under a key that is in use for a part, then the parts of all
values that are stored at the same time are different, and each holds the bytes that its
writer put there.
-/

namespace FactCore.RedisInterface

abbrev ClientId := Nat

/-- The calls that store a value. -/
inductive Put
  | set
  | queuePut
deriving DecidableEq

/-- What a client is doing. -/
inductive Client (V : Type)
  /-- It is between two calls; the last one returned or raised this. -/
  | idle (answer : Answer V)
  /-- `_get_new_chunk_key`, after the first parts are stored under `keys`. -/
  | drawing (put : Put) (key : Bytes) (v : V) (keys : List Bytes)
  /-- `_store_chunks` is about to store the next part under `new`, which did not exist. -/
  | placing (put : Put) (key : Bytes) (v : V) (keys : List Bytes) (new : Bytes)
  /-- The string for the value is about to be stored. -/
  | finishing (put : Put) (key : Bytes) (v : V) (raw : Bytes)
  /-- `_combine_chunks`, with the keys that are left and the parts that were read. -/
  | fetching (delete : Bool) (keys : List Bytes) (parts : List (Option Bytes))
deriving DecidableEq

variable {V : Type} (pickle : Pickle V) (chunkSize : Nat)

/-! ## Local computations -/

/-- The loop of `_store_chunks` after the parts under `keys` are stored. -/
def Client.store (put : Put) (key : Bytes) (v : V) (keys : List Bytes) : Client V :=
  if keys.length < chunkCount chunkSize (pickle.dumps v) then .drawing put key v keys
  else .finishing put key v (metaKey keys)

/-- `set` or `queue_put` before its first command. -/
def Client.start (put : Put) (key : Bytes) (v : V) : Client V :=
  if chunkSize < (pickle.dumps v).length then .store pickle chunkSize put key v []
  else .finishing put key v (pickle.dumps v)

/-- `_combine_chunks` and what follows it, when these parts have been read. -/
def Client.combine (delete : Bool) (keys : List Bytes) (parts : List (Option Bytes)) : Client V :=
  match keys with
  | [] =>
      match joinChunks parts with
      | .error error => .idle (.error error)
      | .ok bytes => .idle (loads pickle bytes)
  | _ :: _ => .fetching delete keys parts

/-- `_combine_if_split` with the string that was read. -/
def Client.read (delete : Bool) : Option Bytes → Client V
  | none => .idle (.ok none)
  | some raw =>
      if chunkMagic.isPrefixOf raw then .combine pickle delete (splitMetaKey raw) []
      else .idle (loads pickle raw)

/-! ## Commands -/

/-- The server and its clients. `kept` is history: under each key the strings that a
call stored and that are still there, each with the value it was stored for. No step
looks at it. -/
structure Clients (V : Type) where
  redis : Redis
  clients : Dict ClientId (Client V)
  kept : Dict Bytes (List (Bytes × V))

namespace Clients

/-- What a client is doing; one that has done nothing yet is idle. -/
def client (s : Clients V) (c : ClientId) : Client V :=
  (s.clients.get? c).getD (.idle (.ok none))

end Clients

/-- The next command of a client. `draw` is a `randint` and the `EXISTS` of its key,
`start` the part of `set` and `queue_put` before their first command. -/
inductive Command (V : Type)
  | start (c : ClientId) (put : Put) (key : Bytes) (v : V)
  | draw (c : ClientId) (n : Draw)
  | store (c : ClientId)
  | finish (c : ClientId)
  | get (c : ClientId) (key : Bytes) (delete : Bool)
  | lpop (c : ClientId) (key : Bytes)
  | fetch (c : ClientId)
deriving DecidableEq

/-- What is left of a list after `LPOP`. -/
def keptAfterPop (kept : Dict Bytes (List (Bytes × V))) (key : Bytes) :
    Dict Bytes (List (Bytes × V)) :=
  match kept.get? key with
  | some (_ :: next :: rest) => Dict.set kept key (next :: rest)
  | _ => Dict.erase kept key

/-- One command. -/
def command (s : Clients V) : Command V → Option (Clients V)
  | .start c put key v =>
      match s.client c with
      | .idle _ => some { s with clients := s.clients.set c (.start pickle chunkSize put key v) }
      | _ => none
  | .draw c n =>
      match s.client c with
      | .drawing put key v keys =>
          if chunkKey n ∈ s.redis then some s
          else some { s with clients := s.clients.set c (.placing put key v keys (chunkKey n)) }
      | _ => none
  | .store c =>
      match s.client c with
      | .placing put key v keys new => some
          { redis := Redis.set s.redis new (chunk chunkSize (pickle.dumps v) keys.length)
            clients := s.clients.set c (.store pickle chunkSize put key v (keys ++ [new]))
            kept := s.kept.erase new }
      | _ => none
  | .finish c =>
      match s.client c with
      | .finishing .set key v raw => some
          { redis := Redis.set s.redis key raw
            clients := s.clients.set c (.idle (.ok none))
            kept := s.kept.set key [(raw, v)] }
      | .finishing .queuePut key v raw =>
          match Redis.rpush s.redis key raw with
          | .error error => some { s with clients := s.clients.set c (.idle (.error error)) }
          | .ok redis => some
              { redis := redis
                clients := s.clients.set c (.idle (.ok none))
                kept := s.kept.set key ((s.kept.get? key).getD [] ++ [(raw, v)]) }
      | _ => none
  | .get c key delete =>
      match s.client c with
      | .idle _ =>
          match RedisInterface.fetch delete s.redis key with
          | (.error error, redis) => some
              { redis := redis
                clients := s.clients.set c (.idle (.error error))
                kept := if delete then s.kept.erase key else s.kept }
          | (.ok value, redis) => some
              { redis := redis
                clients := s.clients.set c (.read pickle delete value)
                kept := if delete then s.kept.erase key else s.kept }
      | _ => none
  | .lpop c key =>
      match s.client c with
      | .idle _ =>
          match Redis.lpop s.redis key with
          | .error error => some { s with clients := s.clients.set c (.idle (.error error)) }
          | .ok (none, _) => some { s with clients := s.clients.set c (.idle (.ok none)) }
          | .ok (some value, redis) => some
              { redis := redis
                clients := s.clients.set c (.read pickle true (some value))
                kept := keptAfterPop s.kept key }
      | _ => none
  | .fetch c =>
      match s.client c with
      | .fetching delete (key :: keys) parts =>
          match RedisInterface.fetch delete s.redis key with
          | (.error error, redis) => some
              { redis := redis
                clients := s.clients.set c (.idle (.error error))
                kept := if delete then s.kept.erase key else s.kept }
          | (.ok part, redis) => some
              { redis := redis
                clients := s.clients.set c (.combine pickle delete keys (parts ++ [part]))
                kept := if delete then s.kept.erase key else s.kept }
      | _ => none

/-- Clients of one server, which is empty at the start. -/
def clients : Tla.Machine (Clients V) (Command V) where
  Init := fun s => s = ⟨∅, ∅, ∅⟩
  step := fun action s => command pickle chunkSize s action

/-! ## What is promised -/

/-- The call's string `raw` for `v` is the one at position `i` under the key. -/
def Clients.Live (s : Clients V) (key : Bytes) (i : Nat) (raw : Bytes) (v : V) : Prop :=
  ∃ strings, s.kept.get? key = some strings ∧ strings[i]? = some (raw, v)

/-- No two stored values share a part, and all parts are as their writers left them. -/
structure Intact (s : Clients V) : Prop where
  /-- The live strings are what is stored under the key. -/
  stored : ∀ key strings, s.kept.get? key = some strings →
    (∃ raw v, strings = [(raw, v)] ∧ s.redis.get? key = some (.string raw)) ∨
      s.redis.get? key = some (.list (strings.map Prod.fst))
  /-- A meta value lists different keys. -/
  distinct : ∀ key i raw v, s.Live key i raw v → (listedKeys raw).Nodup
  /-- Two meta values list different keys. -/
  unshared : ∀ key i raw v key' i' raw' v', s.Live key i raw v → s.Live key' i' raw' v' →
    (key, i) ≠ (key', i') → (listedKeys raw).Disjoint (listedKeys raw')
  /-- Under the keys that a meta value lists are the bytes of its value. -/
  bytes : ∀ key i raw v, s.Live key i raw v → chunkMagic.isPrefixOf raw = true →
    ∃ parts, Stored s.redis (listedKeys raw) parts ∧ parts.flatten = pickle.dumps v

/-- The keys that the strings list. -/
def keysOf (strings : List (Bytes × V)) : List Bytes :=
  strings.flatMap fun string => listedKeys string.1

/-- The keys whose parts a client has stored, or is about to delete. -/
def Client.keys : Client V → List Bytes
  | .idle _ => []
  | .drawing _ _ _ keys | .placing _ _ _ keys _ => keys
  | .finishing _ _ _ raw => listedKeys raw
  | .fetching delete keys _ => if delete then keys else []

/-- The keys that are in use for parts. -/
def Clients.usedKeys (s : Clients V) : List Bytes :=
  s.kept.items.flatMap (fun item => keysOf item.2) ++
    s.clients.items.flatMap fun item => item.2.keys

/-- The key under which a command stores a part. -/
def Clients.placedKey (s : Clients V) : Command V → Option Bytes
  | .store c =>
      match s.client c with
      | .placing _ _ _ _ new => some new
      | _ => none
  | _ => none

/-- The key under which `set` stores its value. -/
def Clients.replacedKey (s : Clients V) : Command V → Option Bytes
  | .finish c =>
      match s.client c with
      | .finishing .set key _ _ => some key
      | _ => none
  | _ => none

/-- The key whose value a `get` takes away. -/
def Command.takenKey : Command V → Option Bytes
  | .get _ key true => some key
  | _ => none

/-- No other client has come between: the key for a part still does not exist when the
part is stored. And no key of a part is used like one of a value: no value is stored under
a key that is in use for a part, and only values are taken away. -/
structure Undisturbed (s : Clients V) (action : Command V) : Prop where
  free : ∀ new ∈ s.placedKey action, new ∉ s.redis
  unused : ∀ key ∈ s.replacedKey action, key ∉ s.usedKeys
  value : ∀ key ∈ action.takenKey, key ∈ s.redis → key ∈ s.kept

instance (s : Clients V) (action : Command V) : Decidable (Undisturbed s action) :=
  decidable_of_iff
    ((∀ new ∈ s.placedKey action, new ∉ s.redis) ∧
      (∀ key ∈ s.replacedKey action, key ∉ s.usedKeys) ∧
      ∀ key ∈ action.takenKey, key ∈ s.redis → key ∈ s.kept)
    ⟨fun h => ⟨h.1, h.2.1, h.2.2⟩, fun h => ⟨h.free, h.unused, h.value⟩⟩

/-! ## Who holds which keys -/

/-- The keys in use, by the key of the value or by the client. -/
def Clients.owned (s : Clients V) : Bytes ⊕ ClientId → List Bytes
  | .inl key => keysOf ((s.kept.get? key).getD [])
  | .inr c => (s.client c).keys

theorem Clients.mem_usedKeys {s : Clients V} {k : Bytes} {owner : Bytes ⊕ ClientId}
    (h : k ∈ s.owned owner) : k ∈ s.usedKeys := by
  rw [Clients.usedKeys, List.mem_append, List.mem_flatMap, List.mem_flatMap]
  cases owner with
  | inl key =>
      left
      rcases hkept : s.kept.get? key with _ | strings
      · simp [Clients.owned, hkept, keysOf] at h
      · exact ⟨(key, strings), Dict.get?_eq_some_iff.1 hkept, by simpa [Clients.owned, hkept] using h⟩
  | inr c =>
      right
      rcases hclient : s.clients.get? c with _ | client
      · simp [Clients.owned, Clients.client, hclient, Client.keys] at h
      · exact ⟨(c, client), Dict.get?_eq_some_iff.1 hclient,
          by simpa [Clients.owned, Clients.client, hclient] using h⟩

theorem keysOf_concat (strings : List (Bytes × V)) (raw : Bytes) (v : V) :
    keysOf (strings ++ [(raw, v)]) = keysOf strings ++ listedKeys raw := by
  simp [keysOf]

@[simp] theorem keysOf_nil : keysOf ([] : List (Bytes × V)) = [] := rfl

theorem keysOf_singleton (raw : Bytes) (v : V) : keysOf [(raw, v)] = listedKeys raw := by
  simp [keysOf]

section

variable {s : Clients V} {c : ClientId} {client : Client V}

theorem client_set (redis : Redis) (kept : Dict Bytes (List (Bytes × V))) (c' : ClientId) :
    Clients.client ⟨redis, s.clients.set c client, kept⟩ c' =
      if c' = c then client else s.client c' := by
  rw [Clients.client, Dict.get?_set]
  split <;> rfl

/-- What a client does changes what it holds only. -/
theorem owned_set_client (redis : Redis) :
    Clients.owned ⟨redis, s.clients.set c client, s.kept⟩ =
      Function.update s.owned (.inr c) client.keys := by
  funext owner
  rcases owner with key | c'
  · rfl
  · by_cases hc : c' = c
    · subst hc
      simp [Clients.owned, client_set]
    · rw [Function.update_of_ne (by simpa using hc)]
      simp [Clients.owned, client_set, hc]

/-- What a command does to the strings under one key changes what this key and its
client hold only. -/
theorem owned_set (redis : Redis) {kept : Dict Bytes (List (Bytes × V))} {t : Bytes}
    (hkept : ∀ k, k ≠ t → kept.get? k = s.kept.get? k) :
    Clients.owned ⟨redis, s.clients.set c client, kept⟩ =
      Function.update (Function.update s.owned (.inl t) (keysOf ((kept.get? t).getD [])))
        (.inr c) client.keys := by
  funext owner
  rcases owner with key | c'
  · rw [Function.update_of_ne (by simp)]
    by_cases ht : key = t
    · subst ht
      simp [Clients.owned]
    · rw [Function.update_of_ne (by simpa using ht)]
      simp [Clients.owned, hkept key ht]
  · by_cases hc : c' = c
    · subst hc
      simp [Clients.owned, client_set]
    · rw [Function.update_of_ne (by simpa using hc), Function.update_of_ne (by simp)]
      simp [Clients.owned, client_set, hc]

end

/-! ## The invariant -/

/-- What is stored under a key for the live strings. -/
structure KeptHolds (redis : Redis) (key : Bytes) (strings : List (Bytes × V)) : Prop where
  entry : (∃ raw v, strings = [(raw, v)] ∧ redis.get? key = some (.string raw)) ∨
    (strings ≠ [] ∧ redis.get? key = some (.list (strings.map Prod.fst)))
  encoded : ∀ string ∈ strings, ∃ keys, Holds pickle chunkSize redis string.1 string.2 keys

/-- What is stored so far for a value that a client is storing. -/
def ClientHolds (redis : Redis) : Client V → Prop
  | .idle _ | .fetching .. => True
  | .drawing _ _ v keys =>
      chunkSize < (pickle.dumps v).length ∧ (∀ key ∈ keys, separator ∉ key) ∧
        Stored redis keys ((List.range keys.length).map (chunk chunkSize (pickle.dumps v))) ∧
        keys.length < chunkCount chunkSize (pickle.dumps v)
  | .placing _ _ v keys new =>
      chunkSize < (pickle.dumps v).length ∧ (∀ key ∈ keys, separator ∉ key) ∧
        Stored redis keys ((List.range keys.length).map (chunk chunkSize (pickle.dumps v))) ∧
        keys.length < chunkCount chunkSize (pickle.dumps v) ∧ separator ∉ new
  | .finishing _ _ v raw => ∃ keys, Holds pickle chunkSize redis raw v keys

/-- Keys in use have one owner, are stored, and hold no value of a call; every live
string, and every one that is being made, stands for its value. -/
structure Sound (s : Clients V) : Prop where
  exclusive : Exclusive s.owned
  stored : ∀ owner, ∀ k ∈ s.owned owner, k ∈ s.redis
  separate : ∀ owner, ∀ k ∈ s.owned owner, k ∉ s.kept
  kept : ∀ key strings, s.kept.get? key = some strings →
    KeptHolds pickle chunkSize s.redis key strings
  lists : ∀ key raws, s.redis.get? key = some (.list raws) → key ∈ s.kept
  clients : ∀ c, ClientHolds pickle chunkSize s.redis (s.client c)

variable {pickle chunkSize}

theorem KeptHolds.congr {redis redis' : Redis} {key : Bytes} {strings : List (Bytes × V)}
    (h : KeptHolds pickle chunkSize redis key strings)
    (hkey : redis'.get? key = redis.get? key)
    (hsame : ∀ k ∈ keysOf strings, redis'.get? k = redis.get? k) :
    KeptHolds pickle chunkSize redis' key strings := by
  constructor
  · rw [hkey]
    exact h.entry
  · intro string hstring
    obtain ⟨keys, hholds⟩ := h.encoded string hstring
    refine ⟨keys, hholds.congr fun k hk => hsame k ?_⟩
    exact List.mem_flatMap.2 ⟨string, hstring, hholds.listedKeys_eq ▸ hk⟩

theorem ClientHolds.congr {redis redis' : Redis} {client : Client V}
    (h : ClientHolds pickle chunkSize redis client)
    (hsame : ∀ k ∈ client.keys, redis'.get? k = redis.get? k) :
    ClientHolds pickle chunkSize redis' client := by
  cases client with
  | idle answer => trivial
  | fetching delete keys parts => trivial
  | drawing put key v keys =>
      obtain ⟨hlong, hsep, hstored, hmore⟩ := h
      exact ⟨hlong, hsep, hstored.congr hsame, hmore⟩
  | placing put key v keys new =>
      obtain ⟨hlong, hsep, hstored, hmore, hnew⟩ := h
      exact ⟨hlong, hsep, hstored.congr hsame, hmore, hnew⟩
  | finishing put key v raw =>
      obtain ⟨keys, hholds⟩ := h
      exact ⟨keys, hholds.congr fun k hk => hsame k (by
        rw [Client.keys, hholds.listedKeys_eq]
        exact hk)⟩

namespace Sound

variable {s : Clients V}

theorem mem_of_kept (h : Sound pickle chunkSize s) {key : Bytes} (hkey : key ∈ s.kept) :
    key ∈ s.redis := by
  obtain ⟨strings, hstrings⟩ := Dict.mem_iff.1 hkey
  rcases (h.kept key strings hstrings).entry with ⟨raw, v, -, hget⟩ | ⟨-, hget⟩
  · exact Dict.mem_of_get? hget
  · exact Dict.mem_of_get? hget

/-- A step of one client that changes the server under one key `t` only. The keys under
`t` and those of the client are exchanged, and may grow by `t` itself if it is new. -/
theorem change (h : Sound pickle chunkSize s) (t : Bytes) (c : ClientId) {client : Client V}
    {redis : Redis} {kept : Dict Bytes (List (Bytes × V))}
    (hredis : ∀ k, k ≠ t → redis.get? k = s.redis.get? k)
    (hkept : ∀ k, k ≠ t → kept.get? k = s.kept.get? k)
    (hother : ∀ owner, owner ≠ .inl t → owner ≠ .inr c → t ∉ s.owned owner)
    (hheld : ∀ strings, kept.get? t = some strings → KeptHolds pickle chunkSize redis t strings)
    (hlists : ∀ raws, redis.get? t = some (.list raws) → t ∈ kept)
    (hclient : ClientHolds pickle chunkSize redis client)
    (hnodup : (keysOf ((kept.get? t).getD []) ++ client.keys).Nodup)
    (hfrom : ∀ k ∈ keysOf ((kept.get? t).getD []) ++ client.keys,
      (k ≠ t ∧ (k ∈ s.owned (.inl t) ∨ k ∈ s.owned (.inr c))) ∨
        (k = t ∧ t ∉ s.redis ∧ t ∈ redis ∧ t ∉ kept)) :
    Sound pickle chunkSize ⟨redis, s.clients.set c client, kept⟩ := by
  have howned : Clients.owned ⟨redis, s.clients.set c client, kept⟩ =
      Function.update (Function.update s.owned (.inl t) (keysOf ((kept.get? t).getD [])))
        (.inr c) client.keys := owned_set redis hkept
  -- the keys that are exchanged belong to no other owner
  have hfree : ∀ k ∈ keysOf ((kept.get? t).getD []) ++ client.keys, ∀ owner,
      owner ≠ .inl t → owner ≠ .inr c → k ∉ s.owned owner := by
    intro k hk owner ht hc hmem
    rcases hfrom k hk with ⟨-, hold | hold⟩ | ⟨rfl, -⟩
    · exact ht (h.exclusive.owner_eq hmem hold)
    · exact hc (h.exclusive.owner_eq hmem hold)
    · exact hother owner ht hc hmem
  have hin : ∀ {k}, k ≠ t → k ∈ s.redis → k ∈ redis := by
    intro k hk hmem
    rw [Dict.mem_iff_isSome, hredis k hk]
    exact hmem
  have hout : ∀ {k}, k ≠ t → k ∉ s.kept → k ∉ kept := by
    intro k hk hmem
    rw [Dict.notMem_iff, hkept k hk, ← Dict.notMem_iff]
    exact hmem
  -- what is held afterwards is one of the exchanged keys, or held by another owner as before
  have hcases : ∀ owner, ∀ k ∈ Clients.owned ⟨redis, s.clients.set c client, kept⟩ owner,
      k ∈ keysOf ((kept.get? t).getD []) ++ client.keys ∨
        (owner ≠ .inl t ∧ owner ≠ .inr c ∧ k ∈ s.owned owner) := by
    intro owner k hk
    rw [howned] at hk
    by_cases hc : owner = .inr c
    · subst hc
      rw [Function.update_self] at hk
      exact Or.inl (List.mem_append_right _ hk)
    · rw [Function.update_of_ne hc] at hk
      by_cases ht : owner = .inl t
      · subst ht
        rw [Function.update_self] at hk
        exact Or.inl (List.mem_append_left _ hk)
      · rw [Function.update_of_ne ht] at hk
        exact Or.inr ⟨ht, hc, hk⟩
  constructor
  · rw [howned]
    exact h.exclusive.exchange (by simp) hnodup hfree
  · intro owner k hk
    rcases hcases owner k hk with hk | ⟨ht, hc, hk⟩
    · rcases hfrom k hk with ⟨hne, hold | hold⟩ | ⟨rfl, -, hstored, -⟩
      · exact hin hne (h.stored _ k hold)
      · exact hin hne (h.stored _ k hold)
      · exact hstored
    · exact hin (fun heq => hother owner ht hc (heq ▸ hk)) (h.stored owner k hk)
  · intro owner k hk
    rcases hcases owner k hk with hk | ⟨ht, hc, hk⟩
    · rcases hfrom k hk with ⟨hne, hold | hold⟩ | ⟨rfl, -, -, hnot⟩
      · exact hout hne (h.separate _ k hold)
      · exact hout hne (h.separate _ k hold)
      · exact hnot
    · exact hout (fun heq => hother owner ht hc (heq ▸ hk)) (h.separate owner k hk)
  · intro key strings hstrings
    by_cases ht : key = t
    · subst ht
      exact hheld strings hstrings
    · have hold : s.kept.get? key = some strings := by rwa [← hkept key ht]
      refine (h.kept key strings hold).congr (hredis key ht) fun k hk => hredis k ?_
      have hkey : k ∈ s.owned (.inl key) := by simpa [Clients.owned, hold] using hk
      exact fun heq => hother (.inl key) (by simpa using ht) (by simp) (heq ▸ hkey)
  · intro key raws hraws
    by_cases ht : key = t
    · subst ht
      exact hlists raws hraws
    · have hold : key ∈ s.kept := h.lists key raws (by rwa [← hredis key ht])
      show key ∈ kept
      rw [Dict.mem_iff_isSome, hkept key ht]
      exact hold
  · intro c'
    rw [client_set]
    split
    · exact hclient
    · rename_i hc
      refine (h.clients c').congr fun k hk => hredis k fun heq => ?_
      exact hother (.inr c') (by simp) (by simpa using hc) (heq ▸ hk)

/-- A step of one client that changes nothing on the server. -/
theorem move (h : Sound pickle chunkSize s) (c : ClientId) {client : Client V}
    (hclient : ClientHolds pickle chunkSize s.redis client) (hnodup : client.keys.Nodup)
    (hsub : ∀ k ∈ client.keys, k ∈ s.owned (.inr c)) :
    Sound pickle chunkSize { s with clients := s.clients.set c client } := by
  have howned : Clients.owned { s with clients := s.clients.set c client } =
      Function.update s.owned (.inr c) client.keys := owned_set_client s.redis
  have hcases : ∀ owner, ∀ k ∈ Clients.owned { s with clients := s.clients.set c client } owner,
      k ∈ s.owned owner := by
    intro owner k hk
    rw [howned] at hk
    by_cases hc : owner = .inr c
    · subst hc
      rw [Function.update_self] at hk
      exact hsub k hk
    · rwa [Function.update_of_ne hc] at hk
  constructor
  · rw [howned]
    refine h.exclusive.update hnodup fun k hk owner hc hmem => ?_
    exact hc (h.exclusive.owner_eq hmem (hsub k hk))
  · exact fun owner k hk => h.stored owner k (hcases owner k hk)
  · exact fun owner k hk => h.separate owner k (hcases owner k hk)
  · exact h.kept
  · exact h.lists
  · intro c'
    rw [client_set]
    split
    · exact hclient
    · exact h.clients c'

end Sound

/-! ## What the local computations keep -/

theorem store_spec {redis : Redis} (put : Put) (key : Bytes) {v : V} {keys : List Bytes}
    (hlong : chunkSize < (pickle.dumps v).length) (hsep : ∀ k ∈ keys, separator ∉ k)
    (hstored : Stored redis keys
      ((List.range keys.length).map (chunk chunkSize (pickle.dumps v))))
    (hcount : keys.length ≤ chunkCount chunkSize (pickle.dumps v)) :
    ClientHolds pickle chunkSize redis (Client.store pickle chunkSize put key v keys) ∧
      (Client.store pickle chunkSize put key v keys).keys = keys := by
  rw [Client.store]
  split
  · rename_i hmore
    exact ⟨⟨hlong, hsep, hstored, hmore⟩, rfl⟩
  · have hall : keys.length = chunkCount chunkSize (pickle.dumps v) := by omega
    rw [hall] at hstored
    exact ⟨⟨keys, hsep, Or.inr ⟨rfl, hlong, hstored⟩⟩, listedKeys_metaKey hsep⟩

theorem start_spec (redis : Redis) (put : Put) (key : Bytes) (v : V) :
    ClientHolds pickle chunkSize redis (Client.start pickle chunkSize put key v) ∧
      (Client.start pickle chunkSize put key v).keys = [] := by
  rw [Client.start]
  split
  · rename_i hlong
    exact store_spec put key hlong (by simp) rfl (Nat.zero_le _)
  · rename_i hshort
    exact ⟨⟨[], by simp, Or.inl ⟨rfl, rfl, by omega⟩⟩, listedKeys_dumps pickle v⟩

theorem combine_holds (redis : Redis) (delete : Bool) (keys : List Bytes)
    (parts : List (Option Bytes)) :
    ClientHolds pickle chunkSize redis (Client.combine pickle delete keys parts) := by
  cases keys with
  | nil =>
      rw [Client.combine]
      split <;> trivial
  | cons key keys => trivial

theorem combine_keys (delete : Bool) (keys : List Bytes) (parts : List (Option Bytes)) :
    (Client.combine pickle delete keys parts).keys = if delete then keys else [] := by
  cases keys with
  | nil =>
      rw [Client.combine]
      split <;> simp [Client.keys]
  | cons key keys => rfl

theorem read_holds (redis : Redis) (delete : Bool) (value : Option Bytes) :
    ClientHolds pickle chunkSize redis (Client.read pickle delete value) := by
  cases value with
  | none => trivial
  | some raw =>
      rw [Client.read]
      split
      · exact combine_holds redis delete _ _
      · trivial

theorem read_keys_true (raw : Bytes) :
    (Client.read pickle true (some raw)).keys = listedKeys raw := by
  rw [Client.read, listedKeys]
  split
  · exact combine_keys true _ _
  · rfl

theorem read_keys_false (value : Option Bytes) : (Client.read pickle false value).keys = [] := by
  cases value with
  | none => rfl
  | some raw =>
      rw [Client.read]
      split
      · exact combine_keys false _ _
      · rfl

/-! ## The steps -/

namespace Sound

variable {s : Clients V} {c : ClientId}

/-- A key that is stored for a value, or not at all, is not in use for a part. -/
theorem notMem_owned (h : Sound pickle chunkSize s) {key : Bytes}
    (hvalue : key ∈ s.redis → key ∈ s.kept) (owner : Bytes ⊕ ClientId) : key ∉ s.owned owner :=
  fun hmem => h.separate owner key hmem (hvalue (h.stored owner key hmem))

theorem idle (h : Sound pickle chunkSize s) (c : ClientId) (answer : Answer V) :
    Sound pickle chunkSize { s with clients := s.clients.set c (.idle answer) } :=
  h.move c trivial List.nodup_nil (by simp [Client.keys])

theorem start (h : Sound pickle chunkSize s) (c : ClientId) (put : Put) (key : Bytes) (v : V) :
    Sound pickle chunkSize
      { s with clients := s.clients.set c (.start pickle chunkSize put key v) } := by
  have hstart : ClientHolds pickle chunkSize s.redis (.start pickle chunkSize put key v) ∧
      (Client.start pickle chunkSize put key v).keys = [] := start_spec s.redis put key v
  obtain ⟨hholds, hkeys⟩ := hstart
  exact h.move c hholds (by simp [hkeys]) (by simp [hkeys])

theorem draw (h : Sound pickle chunkSize s) {put : Put} {key : Bytes} {v : V} {keys : List Bytes}
    (hclient : s.client c = .drawing put key v keys) (n : Draw) :
    Sound pickle chunkSize
      { s with clients := s.clients.set c (.placing put key v keys (chunkKey n)) } := by
  have hholds := h.clients c
  have hnodup := h.exclusive.nodup (.inr c)
  rw [Clients.owned, hclient] at hnodup
  rw [hclient] at hholds
  obtain ⟨hlong, hsep, hstored, hmore⟩ := hholds
  refine h.move c ⟨hlong, hsep, hstored, hmore, separator_notMem_chunkKey n⟩ hnodup ?_
  intro k hk
  rw [Clients.owned, hclient]
  exact hk

/-- A part is stored under a key that does not exist. -/
theorem place (h : Sound pickle chunkSize s) {put : Put} {key : Bytes} {v : V} {keys : List Bytes}
    {new : Bytes} (hclient : s.client c = .placing put key v keys new) (hfree : new ∉ s.redis) :
    Sound pickle chunkSize
      { redis := Redis.set s.redis new (chunk chunkSize (pickle.dumps v) keys.length)
        clients := s.clients.set c (.store pickle chunkSize put key v (keys ++ [new]))
        kept := s.kept.erase new } := by
  have hholds := h.clients c
  rw [hclient] at hholds
  obtain ⟨hlong, hsep, hstored, hmore, hnew⟩ := hholds
  have howned : s.owned (.inr c) = keys := by rw [Clients.owned, hclient, Client.keys]
  have hnodup : keys.Nodup := howned ▸ h.exclusive.nodup (.inr c)
  have hne : ∀ k ∈ keys, k ≠ new := fun k hk heq => hfree (heq ▸ hstored.mem hk)
  have hafter : Stored (Redis.set s.redis new (chunk chunkSize (pickle.dumps v) keys.length))
      (keys ++ [new])
      ((List.range (keys ++ [new]).length).map (chunk chunkSize (pickle.dumps v))) := by
    rw [List.length_append, List.length_singleton, List.range_succ, List.map_append]
    exact (hstored.congr fun k hk => Dict.get?_set_ne _ _ (hne k hk)).concat
      (Dict.get?_set_self _ _ _)
  have hsep' : ∀ k ∈ keys ++ [new], separator ∉ k := by
    intro k hk
    rcases List.mem_append.1 hk with hk | hk
    · exact hsep k hk
    · rw [List.mem_singleton.1 hk]
      exact hnew
  have hcount : (keys ++ [new]).length ≤ chunkCount chunkSize (pickle.dumps v) := by
    rw [List.length_append, List.length_singleton]
    omega
  obtain ⟨hholds', hkeys'⟩ := store_spec put key hlong hsep' hafter hcount
  refine h.change new c ?_ ?_ ?_ ?_ ?_ hholds' ?_ ?_
  · exact fun k hk => Dict.get?_set_ne _ _ hk
  · exact fun k hk => Dict.get?_erase_ne _ hk
  · exact fun owner _ _ hmem => hfree (h.stored owner new hmem)
  · simp
  · intro raws hraws
    rw [Redis.set, Dict.get?_set_self] at hraws
    cases hraws
  · rw [hkeys', Dict.get?_erase_self, Option.getD_none, keysOf_nil, List.nil_append]
    refine List.nodup_append.2 ⟨hnodup, List.nodup_singleton new, ?_⟩
    intro a ha b hb
    rw [List.mem_singleton.1 hb]
    exact hne a ha
  · intro k hk
    rw [hkeys', Dict.get?_erase_self, Option.getD_none, keysOf_nil, List.nil_append] at hk
    rcases List.mem_append.1 hk with hk | hk
    · exact Or.inl ⟨hne k hk, Or.inr (howned ▸ hk)⟩
    · exact Or.inr ⟨List.mem_singleton.1 hk, hfree, Dict.mem_set.2 (Or.inl rfl), by simp⟩

theorem keys_finishing (h : Sound pickle chunkSize s) {put : Put} {key : Bytes} {v : V}
    {raw : Bytes} (hclient : s.client c = .finishing put key v raw) :
    s.owned (.inr c) = listedKeys raw ∧ (listedKeys raw).Nodup ∧
      ∃ keys, Holds pickle chunkSize s.redis raw v keys := by
  have howned : s.owned (.inr c) = listedKeys raw := by
    rw [Clients.owned, hclient, Client.keys]
  have hholds := h.clients c
  rw [hclient] at hholds
  exact ⟨howned, howned ▸ h.exclusive.nodup (.inr c), hholds⟩

/-- A value is stored under its key, which is not in use for a part. -/
theorem finishSet (h : Sound pickle chunkSize s) {key : Bytes} {v : V} {raw : Bytes}
    (hclient : s.client c = .finishing .set key v raw) (hunused : key ∉ s.usedKeys) :
    Sound pickle chunkSize
      { redis := Redis.set s.redis key raw
        clients := s.clients.set c (.idle (.ok none))
        kept := s.kept.set key [(raw, v)] } := by
  obtain ⟨howned, hnodup, keys, hholds⟩ := h.keys_finishing hclient
  have hnot : ∀ owner, key ∉ s.owned owner := fun owner hmem => hunused (Clients.mem_usedKeys hmem)
  have hne : ∀ k ∈ listedKeys raw, k ≠ key := fun k hk heq =>
    hnot (.inr c) (howned ▸ heq ▸ hk)
  refine h.change key c ?_ ?_ (fun owner _ _ => hnot owner) ?_ ?_ trivial ?_ ?_
  · exact fun k hk => Dict.get?_set_ne _ _ hk
  · exact fun k hk => Dict.get?_set_ne _ _ hk
  · intro strings hstrings
    obtain rfl : [(raw, v)] = strings := by simpa using hstrings
    constructor
    · exact Or.inl ⟨raw, v, rfl, Dict.get?_set_self _ _ _⟩
    · intro string hstring
      rw [List.mem_singleton.1 hstring]
      refine ⟨keys, hholds.congr fun k hk => Dict.get?_set_ne _ _ (hne k ?_)⟩
      rwa [hholds.listedKeys_eq]
  · intro raws hraws
    rw [Redis.set, Dict.get?_set_self] at hraws
    cases hraws
  · simpa [Client.keys, keysOf_singleton] using hnodup
  · intro k hk
    have hk : k ∈ listedKeys raw := by simpa [Client.keys, keysOf_singleton] using hk
    exact Or.inl ⟨hne k hk, Or.inr (howned ▸ hk)⟩

/-- The strings of the list under a key are live. -/
theorem strings_of_list (h : Sound pickle chunkSize s) {key : Bytes} {raws : List Bytes}
    (hlist : s.redis.get? key = some (.list raws)) :
    ∃ strings, s.kept.get? key = some strings ∧ strings ≠ [] ∧ raws = strings.map Prod.fst := by
  obtain ⟨strings, hstrings⟩ := Dict.mem_iff.1 (h.lists key raws hlist)
  rcases (h.kept key strings hstrings).entry with ⟨raw, v, -, hget⟩ | ⟨hne, hget⟩
  · rw [hget] at hlist
    cases hlist
  · rw [hget] at hlist
    obtain rfl : strings.map Prod.fst = raws := by simpa using hlist
    exact ⟨strings, hstrings, hne, rfl⟩

/-- A value is appended to its queue. `RPUSH` fails on the key of a part. -/
theorem finishPut (h : Sound pickle chunkSize s) {key : Bytes} {v : V} {raw : Bytes} {redis : Redis}
    (hclient : s.client c = .finishing .queuePut key v raw)
    (hpush : Redis.rpush s.redis key raw = .ok redis) :
    Sound pickle chunkSize
      { redis := redis
        clients := s.clients.set c (.idle (.ok none))
        kept := s.kept.set key ((s.kept.get? key).getD [] ++ [(raw, v)]) } := by
  obtain ⟨howned, hnodup, keys, hholds⟩ := h.keys_finishing hclient
  -- the list so far
  obtain ⟨old, hold, hvalue, hencoded, rfl⟩ : ∃ old, (s.kept.get? key).getD [] = old ∧
      (key ∈ s.redis → key ∈ s.kept) ∧
      (∀ string ∈ old, ∃ keys, Holds pickle chunkSize s.redis string.1 string.2 keys) ∧
      redis = Dict.set s.redis key (.list (old.map Prod.fst ++ [raw])) := by
    rw [Redis.rpush] at hpush
    split at hpush
    · rename_i hnone
      have hnot : key ∉ s.redis := Dict.notMem_iff.2 hnone
      have hkept : s.kept.get? key = none := Dict.notMem_iff.1 fun hmem => hnot (h.mem_of_kept hmem)
      obtain rfl : Dict.set s.redis key (.list [raw]) = redis := by simpa using hpush
      exact ⟨[], by simp [hkept], fun hmem => absurd hmem hnot, by simp, rfl⟩
    · cases hpush
    · rename_i raws hlist
      obtain ⟨strings, hstrings, -, rfl⟩ := h.strings_of_list hlist
      refine ⟨strings, by simp [hstrings], fun _ => Dict.mem_of_get? hstrings,
        (h.kept key strings hstrings).encoded, ?_⟩
      simpa using hpush.symm
  have hnot : ∀ owner, key ∉ s.owned owner := h.notMem_owned hvalue
  have hkeys : s.owned (.inl key) = keysOf old := by rw [Clients.owned, hold]
  have hne : ∀ k ∈ keysOf (old ++ [(raw, v)]), k ≠ key := by
    intro k hk heq
    rw [keysOf_concat, List.mem_append, ← hkeys, ← howned] at hk
    rcases hk with hk | hk
    · exact hnot _ (heq ▸ hk)
    · exact hnot _ (heq ▸ hk)
  rw [hold]
  refine h.change key c ?_ ?_ (fun owner _ _ => hnot owner) ?_ ?_ trivial ?_ ?_
  · exact fun k hk => Dict.get?_set_ne _ _ hk
  · exact fun k hk => Dict.get?_set_ne _ _ hk
  · intro strings hstrings
    obtain rfl : old ++ [(raw, v)] = strings := by simpa using hstrings
    constructor
    · exact Or.inr ⟨by simp, by simp⟩
    · intro string hstring
      obtain ⟨keys', hholds'⟩ : ∃ keys', Holds pickle chunkSize s.redis string.1 string.2 keys' := by
        rcases List.mem_append.1 hstring with hstring | hstring
        · exact hencoded string hstring
        · rw [List.mem_singleton.1 hstring]
          exact ⟨keys, hholds⟩
      refine ⟨keys', hholds'.congr fun k hk => Dict.get?_set_ne _ _ (hne k ?_)⟩
      exact List.mem_flatMap.2 ⟨string, hstring, hholds'.listedKeys_eq ▸ hk⟩
  · exact fun _ _ => Dict.mem_set.2 (Or.inl rfl)
  · rw [Dict.get?_set_self, Option.getD_some, keysOf_concat, Client.keys, List.append_nil]
    refine List.nodup_append.2 ⟨hkeys ▸ h.exclusive.nodup (.inl key), hnodup, ?_⟩
    intro a ha b hb heq
    exact h.exclusive.disjoint (.inl key) (.inr c) (by simp) (hkeys ▸ ha) (howned ▸ heq ▸ hb)
  · intro k hk
    rw [Dict.get?_set_self, Option.getD_some, Client.keys, List.append_nil] at hk
    refine Or.inl ⟨hne k hk, ?_⟩
    rw [keysOf_concat, List.mem_append] at hk
    rw [hkeys, howned]
    exact hk

/-- A value is taken away; its reader is going to delete its parts. -/
theorem take (h : Sound pickle chunkSize s) {key : Bytes} {client : Client V}
    (hvalue : key ∈ s.redis → key ∈ s.kept) (hclient : ClientHolds pickle chunkSize
      (Dict.erase s.redis key) client) (hnodup : client.keys.Nodup)
    (hsub : ∀ k ∈ client.keys, k ∈ s.owned (.inl key)) :
    Sound pickle chunkSize
      { redis := Dict.erase s.redis key
        clients := s.clients.set c client
        kept := s.kept.erase key } := by
  have hnot : ∀ owner, key ∉ s.owned owner := h.notMem_owned hvalue
  refine h.change key c ?_ ?_ (fun owner _ _ => hnot owner) (by simp) (by simp) hclient ?_ ?_
  · exact fun k hk => Dict.get?_erase_ne _ hk
  · exact fun k hk => Dict.get?_erase_ne _ hk
  · simpa using hnodup
  · intro k hk
    have hk : k ∈ s.owned (.inl key) := hsub k (by simpa using hk)
    exact Or.inl ⟨fun heq => hnot _ (heq ▸ hk), Or.inl hk⟩

/-- The next part of a value that was taken away is deleted. -/
theorem fetchPart (h : Sound pickle chunkSize s) {key : Bytes} {keys : List Bytes}
    {parts : List (Option Bytes)} {client : Client V}
    (hfetching : s.client c = .fetching true (key :: keys) parts)
    (hclient : ClientHolds pickle chunkSize (Dict.erase s.redis key) client)
    (hkeys : client.keys.Sublist keys) :
    Sound pickle chunkSize
      { redis := Dict.erase s.redis key
        clients := s.clients.set c client
        kept := s.kept.erase key } := by
  have howned : s.owned (.inr c) = key :: keys := by
    rw [Clients.owned, hfetching]
    rfl
  obtain ⟨hnew, hnodup⟩ := List.nodup_cons.1 (howned ▸ h.exclusive.nodup (.inr c))
  have hmine : key ∈ s.owned (.inr c) := howned ▸ List.mem_cons_self
  refine h.change key c ?_ ?_ ?_ (by simp) (by simp) hclient ?_ ?_
  · exact fun k hk => Dict.get?_erase_ne _ hk
  · exact fun k hk => Dict.get?_erase_ne _ hk
  · exact fun owner _ hc hmem => hc (h.exclusive.owner_eq hmem hmine)
  · simpa using hkeys.nodup hnodup
  · intro k hk
    have hk : k ∈ keys := hkeys.subset (by simpa using hk)
    exact Or.inl ⟨fun heq => hnew (heq ▸ hk), Or.inr (howned ▸ List.mem_cons_of_mem _ hk)⟩

/-- The first value of a queue is taken away. -/
theorem pop (h : Sound pickle chunkSize s) {key : Bytes} {value : Bytes} {redis : Redis}
    (hpop : Redis.lpop s.redis key = .ok (some value, redis)) :
    Sound pickle chunkSize
      { redis := redis
        clients := s.clients.set c (.read pickle true (some value))
        kept := keptAfterPop s.kept key } := by
  -- what is stored is a list with this value first
  obtain ⟨rest, hlist⟩ : ∃ rest, s.redis.get? key = some (.list (value :: rest)) := by
    rw [Redis.lpop] at hpop
    split at hpop
    · simp at hpop
    · simp at hpop
    · cases hpop
    · rename_i first hget
      obtain ⟨rfl, -⟩ : first = value ∧ Dict.erase s.redis key = redis := by simpa using hpop
      exact ⟨[], hget⟩
    · rename_i first rest _ hget
      obtain ⟨rfl, -⟩ : first = value ∧ Dict.set s.redis key (.list rest) = redis := by
        simpa using hpop
      exact ⟨rest, hget⟩
  obtain ⟨strings, hstrings, hne, hraws⟩ := h.strings_of_list hlist
  obtain ⟨⟨raw, v⟩, strings, rfl⟩ := List.exists_cons_of_ne_nil hne
  obtain ⟨rfl, rfl⟩ : value = raw ∧ rest = strings.map Prod.fst := by simpa using hraws
  have hvalue : key ∈ s.redis → key ∈ s.kept := fun _ => Dict.mem_of_get? hstrings
  have hnot : ∀ owner, key ∉ s.owned owner := h.notMem_owned hvalue
  have howned : s.owned (.inl key) = listedKeys value ++ keysOf strings := by
    simp [Clients.owned, hstrings, keysOf]
  have hnodup : (listedKeys value ++ keysOf strings).Nodup := howned ▸ h.exclusive.nodup _
  cases strings with
  | nil =>
      -- the last one: the list is removed
      obtain rfl : Dict.erase s.redis key = redis := by simpa [Redis.lpop, hlist] using hpop
      have hkept : keptAfterPop s.kept key = s.kept.erase key := by simp [keptAfterPop, hstrings]
      rw [hkept]
      refine h.take hvalue (read_holds _ _ _) ?_ ?_
      · rw [read_keys_true]
        exact (List.nodup_append.1 hnodup).1
      · intro k hk
        rw [read_keys_true] at hk
        exact howned ▸ List.mem_append_left _ hk
  | cons next strings =>
      obtain rfl : Dict.set s.redis key (.list ((next :: strings).map Prod.fst)) = redis := by
        simpa [Redis.lpop, hlist] using hpop
      have hkept : keptAfterPop s.kept key = Dict.set s.kept key (next :: strings) := by
        simp [keptAfterPop, hstrings]
      rw [hkept]
      have hmem : ∀ k ∈ keysOf (next :: strings) ++ listedKeys value, k ∈ s.owned (.inl key) := by
        intro k hk
        rw [howned, List.mem_append]
        exact (List.mem_append.1 hk).symm
      have hother : ∀ k ∈ keysOf (next :: strings) ++ listedKeys value, k ≠ key :=
        fun k hk heq => hnot _ (heq ▸ hmem k hk)
      refine h.change key c ?_ ?_ (fun owner _ _ => hnot owner) ?_ ?_ (read_holds _ _ _) ?_ ?_
      · exact fun k hk => Dict.get?_set_ne _ _ hk
      · exact fun k hk => Dict.get?_set_ne _ _ hk
      · intro strings' hstrings'
        obtain rfl : next :: strings = strings' := by simpa using hstrings'
        constructor
        · exact Or.inr ⟨by simp, Dict.get?_set_self _ _ _⟩
        · intro string hstring
          obtain ⟨keys, hholds⟩ :=
            (h.kept key _ hstrings).encoded string (List.mem_cons_of_mem _ hstring)
          refine ⟨keys, hholds.congr fun k hk => Dict.get?_set_ne _ _ (hother k ?_)⟩
          exact List.mem_append_left _
            (List.mem_flatMap.2 ⟨string, hstring, hholds.listedKeys_eq ▸ hk⟩)
      · exact fun _ _ => Dict.mem_set.2 (Or.inl rfl)
      · rw [Dict.get?_set_self, Option.getD_some, read_keys_true]
        exact (List.perm_append_comm.nodup_iff).1 hnodup
      · intro k hk
        rw [Dict.get?_set_self, Option.getD_some, read_keys_true] at hk
        exact Or.inl ⟨hother k hk, Or.inl (hmem k hk)⟩

/-- What a `get` that takes a value away is going to delete are parts of it. -/
theorem read_sublist (h : Sound pickle chunkSize s) {key : Bytes} {value : Option Bytes}
    (hvalue : key ∈ s.redis → key ∈ s.kept) (hget : Redis.get s.redis key = .ok value) :
    (Client.read pickle true value).keys.Sublist (s.owned (.inl key)) := by
  cases value with
  | none => exact List.nil_sublist _
  | some raw =>
      have hentry : s.redis.get? key = some (.string raw) := by
        rw [Redis.get] at hget
        split at hget
        · cases hget
        · rename_i raw' hraw
          obtain rfl : raw' = raw := by simpa using hget
          exact hraw
        · cases hget
      obtain ⟨strings, hstrings⟩ := Dict.mem_iff.1 (hvalue (Dict.mem_of_get? hentry))
      rcases (h.kept key strings hstrings).entry with ⟨raw', v, rfl, hraw⟩ | ⟨-, hlist⟩
      · obtain rfl : raw' = raw := by simpa [hentry] using hraw.symm
        rw [read_keys_true, Clients.owned, hstrings, Option.getD_some, keysOf_singleton]
      · rw [hentry] at hlist
        cases hlist

/-- A `get`: the value is read, or taken away if it is to be deleted. -/
theorem getValue {s' : Clients V} {key : Bytes} {delete : Bool} (h : Sound pickle chunkSize s)
    (hvalue : delete = true → key ∈ s.redis → key ∈ s.kept)
    (hstep : command pickle chunkSize s (.get c key delete) = some s') :
    Sound pickle chunkSize s' := by
  rw [command] at hstep
  split at hstep
  · cases delete with
    | false =>
        rcases hget : Redis.get s.redis key with error | value
        · obtain rfl : { s with clients := s.clients.set c (.idle (.error error)) } = s' := by
            simpa [RedisInterface.fetch, hget] using hstep
          exact h.idle c _
        · obtain rfl : { s with clients := s.clients.set c (.read pickle false value) } = s' := by
            simpa [RedisInterface.fetch, hget] using hstep
          exact h.move c (read_holds _ _ _) (by simp [read_keys_false]) (by simp [read_keys_false])
    | true =>
        rcases hget : Redis.get s.redis key with error | value
        · obtain rfl : Clients.mk (Dict.erase s.redis key)
              (s.clients.set c (.idle (.error error))) (s.kept.erase key) = s' := by
            simpa [RedisInterface.fetch, redisPop, hget] using hstep
          exact h.take (hvalue rfl) trivial List.nodup_nil (by simp [Client.keys])
        · obtain rfl : Clients.mk (Dict.erase s.redis key)
              (s.clients.set c (.read pickle true value)) (s.kept.erase key) = s' := by
            simpa [RedisInterface.fetch, redisPop, hget] using hstep
          -- the reader takes over the parts of the value
          have hsub := h.read_sublist (hvalue rfl) hget
          exact h.take (hvalue rfl) (read_holds _ _ _) (hsub.nodup (h.exclusive.nodup _))
            fun k hk => hsub.subset hk
  · cases hstep

/-- The next round of `_combine_chunks`: a part is read, or taken away. -/
theorem fetchNext {s' : Clients V} (h : Sound pickle chunkSize s)
    (hstep : command pickle chunkSize s (.fetch c) = some s') : Sound pickle chunkSize s' := by
  rw [command] at hstep
  split at hstep
  · rename_i delete key keys parts hclient
    cases delete with
    | false =>
        -- a client that only reads holds no keys
        rcases hget : Redis.get s.redis key with error | part
        · obtain rfl : { s with clients := s.clients.set c (.idle (.error error)) } = s' := by
            simpa [RedisInterface.fetch, hget] using hstep
          exact h.idle c _
        · obtain rfl : Clients.mk s.redis
              (s.clients.set c (.combine pickle false keys (parts ++ [part]))) s.kept = s' := by
            simpa [RedisInterface.fetch, hget] using hstep
          exact h.move c (combine_holds _ _ _ _) (by simp [combine_keys]) (by simp [combine_keys])
    | true =>
        rcases hget : Redis.get s.redis key with error | part
        · obtain rfl : Clients.mk (Dict.erase s.redis key)
              (s.clients.set c (.idle (.error error))) (s.kept.erase key) = s' := by
            simpa [RedisInterface.fetch, redisPop, hget] using hstep
          exact h.fetchPart hclient trivial (List.nil_sublist keys)
        · obtain rfl : Clients.mk (Dict.erase s.redis key)
              (s.clients.set c (.combine pickle true keys (parts ++ [part])))
              (s.kept.erase key) = s' := by
            simpa [RedisInterface.fetch, redisPop, hget] using hstep
          refine h.fetchPart hclient (combine_holds _ _ _ _) ?_
          rw [combine_keys]
          exact List.Sublist.refl keys
  · cases hstep

end Sound

/-- Every undisturbed command keeps the invariant. -/
theorem sound_step {s s' : Clients V} {action : Command V} (hok : Undisturbed s action)
    (hstep : command pickle chunkSize s action = some s') (h : Sound pickle chunkSize s) :
    Sound pickle chunkSize s' := by
  cases action with
  | start c put key v =>
      rw [command] at hstep
      split at hstep
      · obtain rfl := Option.some.inj hstep
        exact h.start c put key v
      · cases hstep
  | draw c n =>
      rw [command] at hstep
      split at hstep
      · rename_i put key v keys hclient
        split at hstep
        · obtain rfl := Option.some.inj hstep
          exact h
        · obtain rfl := Option.some.inj hstep
          exact h.draw hclient n
      · cases hstep
  | store c =>
      rw [command] at hstep
      split at hstep
      · rename_i put key v keys new hclient
        obtain rfl := Option.some.inj hstep
        have hfree : new ∉ s.redis := hok.free new (by simp [Clients.placedKey, hclient])
        exact h.place hclient hfree
      · cases hstep
  | finish c =>
      rw [command] at hstep
      split at hstep
      · rename_i key v raw hclient
        obtain rfl := Option.some.inj hstep
        have hunused : key ∉ s.usedKeys := hok.unused key (by simp [Clients.replacedKey, hclient])
        exact h.finishSet hclient hunused
      · rename_i key v raw hclient
        split at hstep
        · obtain rfl := Option.some.inj hstep
          exact h.idle c _
        · rename_i redis hpush
          obtain rfl := Option.some.inj hstep
          exact h.finishPut hclient hpush
      · cases hstep
  | get c key delete =>
      exact h.getValue (fun hdelete => hok.value key (by rw [hdelete]; rfl)) hstep
  | lpop c key =>
      rw [command] at hstep
      split at hstep
      · split at hstep
        · obtain rfl := Option.some.inj hstep
          exact h.idle c _
        · obtain rfl := Option.some.inj hstep
          exact h.idle c _
        · rename_i value redis hpop
          obtain rfl := Option.some.inj hstep
          exact h.pop hpop
      · cases hstep
  | fetch c => exact h.fetchNext hstep

theorem sound_init : Sound pickle chunkSize (⟨∅, ∅, ∅⟩ : Clients V) where
  exclusive := by
    have hempty : Clients.owned (⟨∅, ∅, ∅⟩ : Clients V) = fun _ => [] := by
      funext owner
      cases owner <;> rfl
    rw [hempty]
    exact Exclusive.empty
  stored := by
    intro owner k hk
    cases owner <;> cases hk
  separate := by
    intro owner k hk
    cases owner <;> cases hk
  kept := by simp
  lists := by simp
  clients := fun _ => trivial

theorem sound_of_reach {s : Clients V} (h : (clients pickle chunkSize).Reach Undisturbed s) :
    Sound pickle chunkSize s := by
  have hinit : ∀ s, (clients pickle chunkSize).Init s → Sound pickle chunkSize s := by
    rintro s rfl
    exact sound_init
  have hstep : ∀ s action s', Undisturbed s action →
      (clients pickle chunkSize).step action s = some s' → Sound pickle chunkSize s →
      Sound pickle chunkSize s' := fun _ _ _ hok hstep hs => sound_step hok hstep hs
  exact Tla.Machine.reach_invariant hinit hstep h

theorem Sound.intact (hsize : 1 ≤ chunkSize) {s : Clients V} (h : Sound pickle chunkSize s) :
    Intact pickle s := by
  have hnodup : ∀ {key strings}, s.kept.get? key = some strings → (keysOf strings).Nodup := by
    intro key strings hstrings
    simpa [Clients.owned, hstrings] using h.exclusive.nodup (.inl key)
  constructor
  · intro key strings hstrings
    rcases (h.kept key strings hstrings).entry with hstring | ⟨-, hlist⟩
    · exact Or.inl hstring
    · exact Or.inr hlist
  · rintro key i raw v ⟨strings, hstrings, hi⟩
    exact (List.nodup_flatMap.1 (hnodup hstrings)).1 _ (List.mem_of_getElem? hi)
  · rintro key i raw v key' i' raw' v' ⟨strings, hstrings, hi⟩ ⟨strings', hstrings', hi'⟩ hne
    by_cases hkey : key = key'
    · -- two strings of one list
      subst hkey
      obtain rfl : strings = strings' := by simpa [hstrings] using hstrings'
      have hpairwise := (List.nodup_flatMap.1 (hnodup hstrings)).2
      rw [List.pairwise_iff_getElem] at hpairwise
      obtain ⟨hlt, hget⟩ := List.getElem?_eq_some_iff.1 hi
      obtain ⟨hlt', hget'⟩ := List.getElem?_eq_some_iff.1 hi'
      rcases Nat.lt_trichotomy i i' with hii | rfl | hii
      · have hapart : (listedKeys strings[i].1).Disjoint (listedKeys strings[i'].1) :=
          hpairwise i i' hlt hlt' hii
        rwa [hget, hget'] at hapart
      · exact absurd rfl hne
      · have hapart : (listedKeys strings[i'].1).Disjoint (listedKeys strings[i].1) :=
          hpairwise i' i hlt' hlt hii
        rw [hget, hget'] at hapart
        exact hapart.symm
    · intro k hk hk'
      refine h.exclusive.disjoint (.inl key) (.inl key') (by simpa using hkey) (a := k) ?_ ?_
      · rw [Clients.owned, hstrings]
        exact List.mem_flatMap.2 ⟨_, List.mem_of_getElem? hi, hk⟩
      · rw [Clients.owned, hstrings']
        exact List.mem_flatMap.2 ⟨_, List.mem_of_getElem? hi', hk'⟩
  · rintro key i raw v ⟨strings, hstrings, hi⟩ hmagic
    obtain ⟨keys, hholds⟩ :=
      (h.kept key strings hstrings).encoded _ (List.mem_of_getElem? hi)
    rw [hholds.listedKeys_eq]
    rcases hholds.encoded with ⟨hplain, -, -⟩ | ⟨-, -, hstored⟩
    · rw [show raw = pickle.dumps v from hplain, chunkMagic_not_isPrefixOf_dumps] at hmagic
      cases hmagic
    · exact ⟨_, hstored, flatten_chunks hsize _⟩

/-- In every interleaving of undisturbed commands of any number of clients, the parts of all
live values are different, and hold what their writers put there. -/
theorem parts_intact (pickle : Pickle V) (hsize : 1 ≤ chunkSize) {s : Clients V}
    (h : (clients pickle chunkSize).Reach Undisturbed s) : Intact pickle s :=
  (sound_of_reach h).intact hsize

theorem clients_init (pickle : Pickle V) (chunkSize : Nat) :
    (clients pickle chunkSize).Init ⟨∅, ∅, ∅⟩ := rfl

/-- Two clients store values of two parts each, by turns. The second one draws a key that the
first one has taken, and draws again. -/
def takingTurns : List (Command Bytes) :=
  [.start 0 .set (encode "a") [1], .start 1 .queuePut (encode "q") [2],
    .draw 0 (drawn 0), .store 0, .draw 1 (drawn 0), .draw 1 (drawn 1), .store 1,
    .draw 0 (drawn 2), .store 0, .finish 0, .draw 1 (drawn 3), .store 1, .finish 1]

theorem takingTurns_isSome : ((clients Pickle.ofBytes 1).run Undisturbed takingTurns
    ⟨∅, ∅, ∅⟩).isSome = true := by decide +kernel

theorem parts_intact_takingTurns : Intact Pickle.ofBytes
    (((clients Pickle.ofBytes 1).run Undisturbed takingTurns ⟨∅, ∅, ∅⟩).get takingTurns_isSome) :=
  parts_intact Pickle.ofBytes (Nat.le_refl 1)
    (Tla.Machine.reach_get (clients_init _ _) takingTurns_isSome)

/-- Two clients choose `chunk_0` before either of them stores a part under it. -/
def racing : List (Command Bytes) :=
  [.start 0 .set (encode "a") [1], .start 1 .set (encode "b") [2],
    .draw 0 (drawn 0), .draw 1 (drawn 0), .store 0, .store 1,
    .draw 0 (drawn 1), .store 0, .finish 0, .draw 1 (drawn 2), .store 1, .finish 1]

theorem racing_isSome : ((clients Pickle.ofBytes 1).run Tla.Machine.anyStep racing
    ⟨∅, ∅, ∅⟩).isSome = true := by decide +kernel

/-- The server after both calls. -/
def raced : Clients Bytes :=
  ((clients Pickle.ofBytes 1).run Tla.Machine.anyStep racing ⟨∅, ∅, ∅⟩).get racing_isSome

/-- Both values list `chunk_0`. -/
theorem raced_shares_chunk : (clients Pickle.ofBytes 1).Reach Tla.Machine.anyStep raced ∧
    ¬ Intact Pickle.ofBytes raced := by
  refine ⟨Tla.Machine.reach_get (clients_init _ _) racing_isSome, ?_⟩
  intro h
  have hfirst : raced.Live (encode "a") 0 (metaKey [chunkKey (drawn 0), chunkKey (drawn 1)]) [1] :=
    ⟨[(metaKey [chunkKey (drawn 0), chunkKey (drawn 1)], [1])], by decide +kernel, rfl⟩
  have hsecond : raced.Live (encode "b") 0 (metaKey [chunkKey (drawn 0), chunkKey (drawn 2)]) [2] :=
    ⟨[(metaKey [chunkKey (drawn 0), chunkKey (drawn 2)], [2])], by decide +kernel, rfl⟩
  have hdisjoint := h.unshared _ _ _ _ _ _ _ _ hfirst hsecond (by decide)
  have hboth : chunkKey (drawn 0) ∈ listedKeys (metaKey [chunkKey (drawn 0), chunkKey (drawn 1)]) ∧
      chunkKey (drawn 0) ∈ listedKeys (metaKey [chunkKey (drawn 0), chunkKey (drawn 2)]) := by
    decide +kernel
  exact hdisjoint hboth.1 hboth.2

/-! ## A call on its own

A client whose commands all follow each other does what the sequential call does. -/

variable (pickle chunkSize) in
/-- Some commands lead to this server and this client. -/
def Leads (s : Clients V) (c : ClientId) (redis : Redis) (client : Client V) : Prop :=
  ∃ actions s', (clients pickle chunkSize).Steps Tla.Machine.anyStep s actions s' ∧
    s'.redis = redis ∧ s'.client c = client

section

variable {s : Clients V} {c : ClientId} {redis redis' : Redis} {client client' : Client V}

theorem Leads.refl (s : Clients V) (c : ClientId) :
    Leads pickle chunkSize s c s.redis (s.client c) :=
  ⟨[], s, .nil s, rfl, rfl⟩

theorem Leads.trans (h : Leads pickle chunkSize s c redis client)
    (hnext : ∀ s' : Clients V, s'.redis = redis → s'.client c = client →
      Leads pickle chunkSize s' c redis' client') :
    Leads pickle chunkSize s c redis' client' := by
  obtain ⟨actions, s', hsteps, hredis, hclient⟩ := h
  obtain ⟨actions', s'', hsteps', hredis', hclient'⟩ := hnext s' hredis hclient
  exact ⟨actions ++ actions', s'', hsteps.append hsteps', hredis', hclient'⟩

/-- One command. -/
theorem Leads.step (action : Command V) (kept : Dict Bytes (List (Bytes × V)))
    (hstep : command pickle chunkSize s action =
      some ⟨redis, s.clients.set c client, kept⟩) :
    Leads pickle chunkSize s c redis client :=
  ⟨[action], _, Tla.Machine.Steps.single trivial hstep, rfl, by rw [client_set, if_pos rfl]⟩

end

/-- The loop of `_get_new_chunk_key`. -/
theorem leads_getNewChunkKey {s : Clients V} {c : ClientId} {put : Put} {key : Bytes} {v : V}
    {keys : List Bytes} {new : Bytes} {draws left : List Draw}
    (hclient : s.client c = .drawing put key v keys)
    (h : getNewChunkKey s.redis draws = some (new, left)) :
    Leads pickle chunkSize s c s.redis (.placing put key v keys new) := by
  induction draws with
  | nil => cases h
  | cons n draws ih =>
      rw [getNewChunkKey] at h
      split at h
      · exact ih h
      · rename_i hnew
        obtain ⟨rfl, -⟩ : chunkKey n = new ∧ draws = left := by simpa using h
        refine Leads.step (.draw c n) s.kept ?_
        rw [command, hclient]
        simp [hnew]

/-- The loop of `_store_chunks` from the state that it has reached. -/
theorem leads_storeChunks {c : ClientId} {put : Put} {key : Bytes} {v : V} {n : Nat}
    {raw : Bytes} {redis' : Redis} {draws left : List Draw} {keys : List Bytes} {s : Clients V}
    (hclient : s.client c = .store pickle chunkSize put key v keys)
    (hcount : keys.length + n = chunkCount chunkSize (pickle.dumps v))
    (h : (List.range' keys.length n).foldlM (storeChunk chunkSize (pickle.dumps v))
      (metaKey keys, s.redis, draws) = some (raw, redis', left)) :
    Leads pickle chunkSize s c redis' (.finishing put key v raw) := by
  induction n generalizing s keys draws with
  | zero =>
      obtain ⟨rfl, rfl, -⟩ : metaKey keys = raw ∧ s.redis = redis' ∧ draws = left := by
        simpa using h
      rw [Client.store, if_neg (by omega)] at hclient
      rw [← hclient]
      exact Leads.refl s c
  | succ n ih =>
      rw [List.range'_succ, List.foldlM_cons] at h
      obtain ⟨⟨raw₁, redis₁, draws₁⟩, hround, hloop⟩ := Option.bind_eq_some_iff.1 h
      obtain ⟨⟨new, rest⟩, hnew, hround⟩ := Option.bind_eq_some_iff.1 hround
      obtain ⟨rfl, rfl, rfl⟩ : metaKey keys ++ separator :: new = raw₁ ∧
          Redis.set s.redis new (chunk chunkSize (pickle.dumps v) keys.length) = redis₁ ∧
          rest = draws₁ := by
        simpa using hround
      rw [Client.store, if_pos (by omega)] at hclient
      refine (leads_getNewChunkKey hclient hnew).trans fun s₁ hredis₁ hclient₁ => ?_
      have hplace : Leads pickle chunkSize s₁ c
          (Redis.set s.redis new (chunk chunkSize (pickle.dumps v) keys.length))
          (.store pickle chunkSize put key v (keys ++ [new])) := by
        refine Leads.step (.store c) (s₁.kept.erase new) ?_
        rw [command, hclient₁, hredis₁]
      refine hplace.trans fun s₂ hredis₂ hclient₂ => ?_
      have hlength : (keys ++ [new]).length = keys.length + 1 := by simp
      have hrest : (List.range' (keys ++ [new]).length n).foldlM
          (storeChunk chunkSize (pickle.dumps v)) (metaKey (keys ++ [new]), s₂.redis, rest) =
          some (raw, redis', left) := by
        rw [hredis₂, metaKey_concat, hlength]
        exact hloop
      exact ih hclient₂ (by omega) hrest

/-- `set` and `queue_put` up to their last command. -/
theorem leads_splitIfNecessary {s : Clients V} {c : ClientId} {answer : Answer V} {put : Put}
    {key : Bytes} {v : V} {raw : Bytes} {redis' : Redis} {draws left : List Draw}
    (hidle : s.client c = .idle answer)
    (h : splitIfNecessary chunkSize s.redis (pickle.dumps v) draws = some (raw, redis', left)) :
    Leads pickle chunkSize s c redis' (.finishing put key v raw) := by
  have hstart : Leads pickle chunkSize s c s.redis (.start pickle chunkSize put key v) := by
    refine Leads.step (.start c put key v) s.kept ?_
    rw [command, hidle]
  refine hstart.trans fun s₁ hredis₁ hclient₁ => ?_
  rw [splitIfNecessary] at h
  split at h
  · rename_i hlong
    rw [Client.start, if_pos hlong] at hclient₁
    have hloop : (List.range' ([] : List Bytes).length (chunkCount chunkSize (pickle.dumps v))).foldlM
        (storeChunk chunkSize (pickle.dumps v)) (metaKey [], s₁.redis, draws) =
        some (raw, redis', left) := by
      rw [storeChunks, List.range_eq_range'] at h
      rw [hredis₁]
      exact h
    exact leads_storeChunks hclient₁ (Nat.zero_add _) hloop
  · rename_i hshort
    obtain ⟨rfl, rfl, -⟩ : pickle.dumps v = raw ∧ s.redis = redis' ∧ draws = left := by
      simpa using h
    rw [Client.start, if_neg hshort] at hclient₁
    rw [← hredis₁, ← hclient₁]
    exact Leads.refl s₁ c

/-- What the client makes of the parts that `_combine_chunks` reads. -/
def Client.combined (pickle : Pickle V) (parts : List (Option Bytes)) :
    Except Error (List (Option Bytes)) → Client V
  | .error error => .idle (.error error)
  | .ok values => .combine pickle false [] (parts ++ values)

/-- The loop of `_combine_chunks` from the state that it has reached. -/
theorem leads_fetchChunks {c : ClientId} {delete : Bool} {keys : List Bytes}
    {parts : List (Option Bytes)} {s : Clients V}
    {values : Except Error (List (Option Bytes))} {redis' : Redis}
    (hclient : s.client c = .combine pickle delete keys parts)
    (h : fetchChunks delete s.redis keys = (values, redis')) :
    Leads pickle chunkSize s c redis' (.combined pickle parts values) := by
  induction keys generalizing s parts values redis' with
  | nil =>
      obtain ⟨rfl, rfl⟩ : .ok [] = values ∧ s.redis = redis' := by simpa [fetchChunks] using h
      have hdone : s.client c = .combined pickle parts (.ok []) := by
        rw [hclient, Client.combined, List.append_nil]
        rfl
      rw [← hdone]
      exact Leads.refl s c
  | cons key keys ih =>
      have hfetching : s.client c = .fetching delete (key :: keys) parts := hclient
      rw [fetchChunks] at h
      rcases hfetch : fetch delete s.redis key with ⟨error | value, redis₁⟩
      · rw [hfetch] at h
        obtain ⟨rfl, rfl⟩ : .error error = values ∧ redis₁ = redis' := by simpa using h
        refine Leads.step (.fetch c) (if delete then s.kept.erase key else s.kept) ?_
        simp only [command, hfetching, hfetch, Client.combined]
      · have hstep : Leads pickle chunkSize s c redis₁
            (.combine pickle delete keys (parts ++ [value])) := by
          refine Leads.step (.fetch c) (if delete then s.kept.erase key else s.kept) ?_
          simp only [command, hfetching, hfetch]
        refine hstep.trans fun s₁ hredis₁ hclient₁ => ?_
        rw [hfetch] at h
        rcases hrest : fetchChunks delete redis₁ keys with ⟨error | rest, redis₂⟩
        · obtain ⟨rfl, rfl⟩ : .error error = values ∧ redis₂ = redis' := by
            simpa [hrest] using h
          have hloop : Leads pickle chunkSize s₁ c redis₂
              (.combined pickle (parts ++ [value]) (.error error)) :=
            ih hclient₁ (hredis₁ ▸ hrest)
          exact hloop
        · obtain ⟨rfl, rfl⟩ : .ok (value :: rest) = values ∧ redis₂ = redis' := by
            simpa [hrest] using h
          have hloop := ih hclient₁ (hredis₁ ▸ hrest)
          simpa [Client.combined] using hloop

/-- `_combine_if_split` after the string is read. -/
theorem leads_combineIfSplit {c : ClientId} {delete : Bool} {value : Option Bytes}
    {s : Clients V} {answer : Answer V} {redis' : Redis}
    (hclient : s.client c = .read pickle delete value)
    (h : combineIfSplit pickle delete s.redis value = (answer, redis')) :
    Leads pickle chunkSize s c redis' (.idle answer) := by
  cases value with
  | none =>
      obtain ⟨rfl, rfl⟩ : .ok none = answer ∧ s.redis = redis' := by simpa [combineIfSplit] using h
      have hdone : s.client c = .idle (.ok none) := hclient
      rw [← hdone]
      exact Leads.refl s c
  | some raw =>
      rw [combineIfSplit] at h
      rw [Client.read] at hclient
      split at h
      · rename_i hmagic
        rw [if_pos hmagic] at hclient
        rcases hfetch : fetchChunks delete s.redis (splitMetaKey raw) with ⟨values, redis₁⟩
        have hloop : Leads pickle chunkSize s c redis₁ (.combined pickle [] values) :=
          leads_fetchChunks hclient hfetch
        cases values with
        | error error =>
            obtain ⟨rfl, rfl⟩ : .error error = answer ∧ redis₁ = redis' := by
              simpa [combineChunks, hfetch] using h
            exact hloop
        | ok parts =>
            rw [combineChunks, hfetch] at h
            rw [Client.combined, List.nil_append, Client.combine] at hloop
            rcases hjoin : joinChunks parts with error | bytes
            · obtain ⟨rfl, rfl⟩ : .error error = answer ∧ redis₁ = redis' := by
                simpa [hjoin] using h
              simpa [hjoin] using hloop
            · obtain ⟨rfl, rfl⟩ : loads pickle bytes = answer ∧ redis₁ = redis' := by
                simpa [hjoin] using h
              simpa [hjoin] using hloop
      · rename_i hmagic
        rw [if_neg hmagic] at hclient
        obtain ⟨rfl, rfl⟩ : loads pickle raw = answer ∧ s.redis = redis' := by simpa using h
        rw [← hclient]
        exact Leads.refl s c

/-! ### The calls, command by command -/

section

variable {s : Clients V} {c : ClientId} {last answer : Answer V} {key : Bytes} {redis' : Redis}

/-- `set`: the parts of the value, and then its string. -/
theorem leads_set {v : V} {draws : List Draw} (hidle : s.client c = .idle last)
    (h : perform pickle chunkSize s.redis (.set key v draws) = some (answer, redis')) :
    Leads pickle chunkSize s c redis' (.idle answer) := by
  rw [perform] at h
  split at h
  · rename_i redis₁ hset
    obtain ⟨rfl, rfl⟩ : (.ok none : Answer V) = answer ∧ redis₁ = redis' := by simpa using h
    obtain ⟨⟨raw, redis₂, left⟩, hsplit, hreturn⟩ := Option.bind_eq_some_iff.1 hset
    obtain ⟨rfl, -⟩ : Redis.set redis₂ key raw = redis₁ ∧ left = [] := by simpa using hreturn
    have hparts : Leads pickle chunkSize s c redis₂ (.finishing .set key v raw) :=
      leads_splitIfNecessary hidle hsplit
    refine hparts.trans fun s₁ hredis₁ hclient₁ => ?_
    refine Leads.step (.finish c) (s₁.kept.set key [(raw, v)]) ?_
    rw [command, hclient₁, hredis₁]
  · cases h

/-- `queue_put`: the same with an `RPUSH` at the end, which may fail. -/
theorem leads_queuePut {v : V} {draws : List Draw} (hidle : s.client c = .idle last)
    (h : perform pickle chunkSize s.redis (.queuePut key v draws) = some (answer, redis')) :
    Leads pickle chunkSize s c redis' (.idle answer) := by
  rw [perform] at h
  split at h
  · rename_i answer₁ redis₁ hput
    obtain ⟨rfl, rfl⟩ : (answer₁.map fun _ => none : Answer V) = answer ∧ redis₁ = redis' := by
      simpa using h
    obtain ⟨⟨raw, redis₂, left⟩, hsplit, hreturn⟩ := Option.bind_eq_some_iff.1 hput
    have hparts : Leads pickle chunkSize s c redis₂ (.finishing .queuePut key v raw) :=
      leads_splitIfNecessary hidle hsplit
    refine hparts.trans fun s₁ hredis₁ hclient₁ => ?_
    rcases hpush : Redis.rpush redis₂ key raw with error | redis₃
    · have hresult : (Except.error error, redis₂, left) = (answer₁, redis₁, []) := by
        simpa [hpush] using hreturn
      obtain ⟨rfl, rfl, -⟩ : Except.error error = answer₁ ∧ redis₂ = redis₁ ∧ left = [] := by
        simpa using hresult
      refine Leads.step (.finish c) s₁.kept ?_
      simp only [command, hclient₁, hredis₁, hpush, Except.map]
    · have hresult : (Except.ok (), redis₃, left) = (answer₁, redis₁, []) := by
        simpa [hpush] using hreturn
      obtain ⟨rfl, rfl, -⟩ : Except.ok () = answer₁ ∧ redis₃ = redis₁ ∧ left = [] := by
        simpa using hresult
      refine Leads.step (.finish c)
        (s₁.kept.set key ((s₁.kept.get? key).getD [] ++ [(raw, v)])) ?_
      simp only [command, hclient₁, hredis₁, hpush, Except.map]
  · cases h

/-- `get`: the string, and then the parts that it lists. -/
theorem leads_get {delete : Bool} (hidle : s.client c = .idle last)
    (h : perform pickle chunkSize s.redis (.get key delete) = some (answer, redis')) :
    Leads pickle chunkSize s c redis' (.idle answer) := by
  have hget : get pickle delete s.redis key = (answer, redis') := by simpa [perform] using h
  rw [get] at hget
  rcases hfetch : fetch delete s.redis key with ⟨error | value, redis₁⟩
  · obtain ⟨rfl, rfl⟩ : .error error = answer ∧ redis₁ = redis' := by simpa [hfetch] using hget
    refine Leads.step (.get c key delete) (if delete then s.kept.erase key else s.kept) ?_
    simp only [command, hidle, hfetch]
  · have hread : Leads pickle chunkSize s c redis₁ (.read pickle delete value) := by
      refine Leads.step (.get c key delete) (if delete then s.kept.erase key else s.kept) ?_
      simp only [command, hidle, hfetch]
    refine hread.trans fun s₁ hredis₁ hclient₁ => leads_combineIfSplit hclient₁ ?_
    rw [hredis₁]
    simpa [hfetch] using hget

/-- `queue_get`: an `LPOP`, and then the parts that the string lists. -/
theorem leads_queueGet (hidle : s.client c = .idle last)
    (h : perform pickle chunkSize s.redis (.queueGet key) = some (answer, redis')) :
    Leads pickle chunkSize s c redis' (.idle answer) := by
  have hget : queueGet pickle s.redis key = (answer, redis') := by simpa [perform] using h
  rw [queueGet] at hget
  rcases hpop : Redis.lpop s.redis key with error | ⟨value, redis₁⟩
  · obtain ⟨rfl, rfl⟩ : .error error = answer ∧ s.redis = redis' := by simpa [hpop] using hget
    refine Leads.step (.lpop c key) s.kept ?_
    simp only [command, hidle, hpop]
  · rw [hpop] at hget
    cases value with
    | none =>
        obtain rfl : redis₁ = s.redis := by
          rw [Redis.lpop] at hpop
          split at hpop <;> simp_all
        obtain ⟨rfl, rfl⟩ : .ok none = answer ∧ s.redis = redis' := by
          simpa [combineIfSplit] using hget
        refine Leads.step (.lpop c key) s.kept ?_
        simp only [command, hidle, hpop]
    | some raw =>
        have hread : Leads pickle chunkSize s c redis₁ (.read pickle true (some raw)) := by
          refine Leads.step (.lpop c key) (keptAfterPop s.kept key) ?_
          simp only [command, hidle, hpop]
        refine hread.trans fun s₁ hredis₁ hclient₁ => leads_combineIfSplit hclient₁ ?_
        rw [hredis₁]
        exact hget

end

/-- A client that carries out a call without another one coming between does what the
sequential interface does. -/
theorem perform_alone {s : Clients V} {c : ClientId} {last answer : Answer V} {op : Op V}
    {redis' : Redis} (hidle : s.client c = .idle last)
    (h : perform pickle chunkSize s.redis op = some (answer, redis')) :
    Leads pickle chunkSize s c redis' (.idle answer) := by
  cases op with
  | set key v draws => exact leads_set hidle h
  | queuePut key v draws => exact leads_queuePut hidle h
  | get key delete => exact leads_get hidle h
  | queueGet key => exact leads_queueGet hidle h

end FactCore.RedisInterface
