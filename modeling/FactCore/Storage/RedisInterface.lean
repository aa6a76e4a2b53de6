import FactCore.Lib.Dict
import FactCore.Lib.Machine
import FactCore.Lib.Ownership

/-! # The Redis interface

`RedisInterface` keeps pickled values in Redis: single values under a key (`set`,
`get`) and queues (`queue_put`, `queue_get`). A pickle of more than `chunk_size`
bytes is split: its parts are stored under keys `chunk_0` to `chunk_9999` that do
not exist yet, and what is stored for the value is a meta value that lists them.
Reading a meta value reads its parts and, except for `get(delete=False)`, deletes
them.

`set` does not look at what it replaces. The parts of a replaced value stay stored
although nothing lists them any more, and a queue that is replaced is gone. As long
as no operation replaces a split value or a queue, and no operation is given a key
under which a part is stored or about to be, the interface behaves like a
dictionary of values and queues, and every stored part is listed.
-/

namespace FactCore.RedisInterface

/-- Byte strings. A `str` stands for its UTF-8 bytes. -/
abbrev Bytes := List UInt8

instance : LawfulBEq Bytes := inferInstance

/-- The bytes of a `str` of ASCII characters. -/
def encode (s : String) : Bytes := s.toList.map fun c => UInt8.ofNat c.toNat

/-! ## The server -/

/-- What is stored under a key. -/
inductive Entry
  | string (value : Bytes)
  | list (values : List Bytes)
deriving DecidableEq

/-- The exceptions of an operation: the `ResponseError` of a command on a key of the
other kind, the `TypeError` of joining a part that does not exist, and what `loads`
raises. -/
inductive Error
  | wrongType
  | missingChunk
  | unpickling
deriving DecidableEq

abbrev Redis := Dict Bytes Entry

/-- `SET` replaces whatever is stored. -/
def Redis.set (redis : Redis) (key value : Bytes) : Redis := Dict.set redis key (.string value)

/-- `GET` -/
def Redis.get (redis : Redis) (key : Bytes) : Except Error (Option Bytes) :=
  match redis.get? key with
  | none => .ok none
  | some (.string value) => .ok (some value)
  | some (.list _) => .error .wrongType

/-- `RPUSH` -/
def Redis.rpush (redis : Redis) (key value : Bytes) : Except Error Redis :=
  match redis.get? key with
  | none => .ok (Dict.set redis key (.list [value]))
  | some (.string _) => .error .wrongType
  | some (.list values) => .ok (Dict.set redis key (.list (values ++ [value])))

/-- `LPOP`. A list that becomes empty is removed. -/
def Redis.lpop (redis : Redis) (key : Bytes) : Except Error (Option Bytes × Redis) :=
  match redis.get? key with
  | none | some (.list []) => .ok (none, redis)
  | some (.string _) => .error .wrongType
  | some (.list [value]) => .ok (some value, Dict.erase redis key)
  | some (.list (value :: values)) => .ok (some value, Dict.set redis key (.list values))

/-! ## Pickles -/

def chunkMagic : Bytes := encode "$CHUNKED$"

def separator : UInt8 := 35

/-- `dumps` and `loads` for the values of type `V`: a faithful encoding whose output
does not look like a meta value. -/
structure Pickle (V : Type) where
  dumps : V → Bytes
  loads : Bytes → Option V
  loads_dumps : ∀ v, loads (dumps v) = some v
  unmarked : ∀ v, ¬ chunkMagic <+: dumps v

/-- The values are byte strings; a pickle starts with the protocol opcode. -/
def Pickle.ofBytes : Pickle Bytes where
  dumps := fun v => 128 :: v
  loads := fun bytes => match bytes with
    | 128 :: v => some v
    | _ => none
  loads_dumps := fun _ => rfl
  unmarked := by
    intro v h
    have hhead : (36 : UInt8) = 128 := (List.cons_prefix_cons.1 h).1
    exact absurd hhead (by decide)

/-! ## The interface -/

variable {V : Type} (pickle : Pickle V) (chunkSize : Nat)

/-- A `randint(0, 9999)`. -/
abbrev Draw := Fin 10000

/-- A drawn number. -/
def drawn (n : Nat) : Draw := Fin.ofNat 10000 n

/-- `f'chunk_{n}'` -/
def chunkKey (n : Draw) : Bytes := encode "chunk_" ++ encode (toString n.val)

/-- `_get_new_chunk_key` with the numbers that are going to be drawn; also returns the
ones that are left. `none`: still drawing when the numbers end. -/
def getNewChunkKey (redis : Redis) : List Draw → Option (Bytes × List Draw)
  | [] => none
  | n :: draws =>
      if chunkKey n ∈ redis then getNewChunkKey redis draws else some (chunkKey n, draws)

/-- `value[chunk_size * index : chunk_size * (index + 1)]` -/
def chunk (value : Bytes) (index : Nat) : Bytes :=
  (value.take (chunkSize * (index + 1))).drop (chunkSize * index)

/-- `ceil(len(value) / chunk_size)` -/
def chunkCount (value : Bytes) : Nat := (value.length + chunkSize - 1) / chunkSize

/-- One round of the loop of `_store_chunks`. -/
def storeChunk (value : Bytes) (state : Bytes × Redis × List Draw) (index : Nat) :
    Option (Bytes × Redis × List Draw) := do
  let (metaKey, redis, draws) := state
  let (key, draws) ← getNewChunkKey redis draws
  return (metaKey ++ separator :: key, Redis.set redis key (chunk chunkSize value index), draws)

/-- `_store_chunks` -/
def storeChunks (redis : Redis) (value : Bytes) (draws : List Draw) :
    Option (Bytes × Redis × List Draw) :=
  (List.range (chunkCount chunkSize value)).foldlM (storeChunk chunkSize value)
    (chunkMagic, redis, draws)

/-- `_split_if_necessary` -/
def splitIfNecessary (redis : Redis) (value : Bytes) (draws : List Draw) :
    Option (Bytes × Redis × List Draw) :=
  if chunkSize < value.length then storeChunks chunkSize redis value draws
  else some (value, redis, draws)

/-- `set` -/
def set (redis : Redis) (key : Bytes) (value : V) (draws : List Draw) :
    Option (Redis × List Draw) := do
  let (payload, redis, draws) ← splitIfNecessary chunkSize redis (pickle.dumps value) draws
  return (Redis.set redis key payload, draws)

/-- `queue_put` -/
def queuePut (redis : Redis) (key : Bytes) (value : V) (draws : List Draw) :
    Option (Except Error Unit × Redis × List Draw) := do
  let (payload, redis, draws) ← splitIfNecessary chunkSize redis (pickle.dumps value) draws
  match Redis.rpush redis key payload with
  | .ok redis => return (.ok (), redis, draws)
  | .error error => return (.error error, redis, draws)

/-- `_redis_pop`: the pipeline deletes the key also when its `GET` fails. -/
def redisPop (redis : Redis) (key : Bytes) : Except Error (Option Bytes) × Redis :=
  (Redis.get redis key, Dict.erase redis key)

/-- `self._redis_pop(key) if delete else self.redis.get(key)` -/
def fetch (delete : Bool) (redis : Redis) (key : Bytes) : Except Error (Option Bytes) × Redis :=
  if delete then redisPop redis key else (Redis.get redis key, redis)

/-- The values that `_combine_chunks` joins. -/
def fetchChunks (delete : Bool) : Redis → List Bytes → Except Error (List (Option Bytes)) × Redis
  | redis, [] => (.ok [], redis)
  | redis, key :: keys =>
      match fetch delete redis key with
      | (.error error, redis) => (.error error, redis)
      | (.ok value, redis) =>
          match fetchChunks delete redis keys with
          | (.error error, redis) => (.error error, redis)
          | (.ok values, redis) => (.ok (value :: values), redis)

/-- `b''.join(values)` -/
def joinChunks (values : List (Option Bytes)) : Except Error Bytes :=
  if none ∈ values then .error .missingChunk else .ok (values.flatMap fun value => value.getD [])

/-- `meta_key.split(SEPARATOR)[1:]` -/
def splitMetaKey (metaKey : Bytes) : List Bytes := (metaKey.splitOn separator).tail

/-- `_combine_chunks` -/
def combineChunks (delete : Bool) (redis : Redis) (metaKey : Bytes) : Except Error Bytes × Redis :=
  match fetchChunks delete redis (splitMetaKey metaKey) with
  | (.error error, redis) => (.error error, redis)
  | (.ok values, redis) => (joinChunks values, redis)

/-- `loads` -/
def loads (bytes : Bytes) : Except Error (Option V) :=
  match pickle.loads bytes with
  | none => .error .unpickling
  | some value => .ok (some value)

/-- `_combine_if_split` -/
def combineIfSplit (delete : Bool) (redis : Redis) : Option Bytes → Except Error (Option V) × Redis
  | none => (.ok none, redis)
  | some value =>
      if chunkMagic.isPrefixOf value then
        match combineChunks delete redis value with
        | (.error error, redis) => (.error error, redis)
        | (.ok value, redis) => (loads pickle value, redis)
      else (loads pickle value, redis)

/-- `get` -/
def get (delete : Bool) (redis : Redis) (key : Bytes) : Except Error (Option V) × Redis :=
  match fetch delete redis key with
  | (.error error, redis) => (.error error, redis)
  | (.ok value, redis) => combineIfSplit pickle delete redis value

/-- `queue_get` -/
def queueGet (redis : Redis) (key : Bytes) : Except Error (Option V) × Redis :=
  match Redis.lpop redis key with
  | .error error => (.error error, redis)
  | .ok (value, redis) => combineIfSplit pickle true redis value

/-! ## Sequences of operations -/

/-- A call, with the numbers that are drawn during it. -/
inductive Op (V : Type)
  | set (key : Bytes) (value : V) (draws : List Draw)
  | get (key : Bytes) (delete : Bool)
  | queuePut (key : Bytes) (value : V) (draws : List Draw)
  | queueGet (key : Bytes)
deriving DecidableEq

/-- What a call returns or raises. -/
abbrev Answer (V : Type) := Except Error (Option V)

def Op.key : Op V → Bytes
  | .set key _ _ | .get key _ | .queuePut key _ _ | .queueGet key => key

/-- The calls that only read. -/
def Op.reads : Op V → Bool
  | .get .. | .queueGet _ => true
  | .set .. | .queuePut .. => false

/-- A call that returns after it has drawn exactly the given numbers. -/
def perform (redis : Redis) : Op V → Option (Answer V × Redis)
  | .set key value draws =>
      match set pickle chunkSize redis key value draws with
      | some (redis, []) => some (.ok none, redis)
      | _ => none
  | .get key delete => some (get pickle delete redis key)
  | .queuePut key value draws =>
      match queuePut pickle chunkSize redis key value draws with
      | some (answer, redis, []) => some (answer.map fun _ => none, redis)
      | _ => none
  | .queueGet key => some (queueGet pickle redis key)

/-- The server, and the calls so far with their answers. -/
structure State (V : Type) where
  redis : Redis
  log : List (Op V × Answer V)

/-- One interface that starts with an empty server. -/
def interface : Tla.Machine (State V) (Op V) where
  Init := fun s => s = ⟨∅, []⟩
  step := fun op s => (perform pickle chunkSize s.redis op).map fun result =>
    { redis := result.2, log := s.log ++ [(op, result.1)] }

/-! ## What the interface is for -/

/-- What a caller keeps under a key. -/
inductive Content (V : Type)
  | value (value : V)
  | queue (values : List V)
deriving DecidableEq

/-- A dictionary of values and queues. -/
abbrev Contents (V : Type) := Dict Bytes (Content V)

/-- A call on values and queues. -/
def Contents.perform (contents : Contents V) : Op V → Answer V × Contents V
  | .set key value _ => (.ok none, Dict.set contents key (.value value))
  | .get key delete =>
      match contents.get? key with
      | none => (.ok none, contents)
      | some (.value value) => (.ok (some value), if delete then Dict.erase contents key else contents)
      | some (.queue _) => (.error .wrongType, contents)
  | .queuePut key value _ =>
      match contents.get? key with
      | none => (.ok none, Dict.set contents key (.queue [value]))
      | some (.value _) => (.error .wrongType, contents)
      | some (.queue values) => (.ok none, Dict.set contents key (.queue (values ++ [value])))
  | .queueGet key =>
      match contents.get? key with
      | none | some (.queue []) => (.ok none, contents)
      | some (.value _) => (.error .wrongType, contents)
      | some (.queue [value]) => (.ok (some value), Dict.erase contents key)
      | some (.queue (value :: values)) => (.ok (some value), Dict.set contents key (.queue values))

/-- What the callers keep after the calls. -/
def contentsAfter (ops : List (Op V)) : Contents V :=
  ops.foldl (fun contents op => (contents.perform op).2) ∅

/-- The answers to the calls. -/
def Contents.answers : Contents V → List (Op V) → List (Answer V)
  | _, [] => []
  | contents, op :: ops => (contents.perform op).1 :: answers (contents.perform op).2 ops

/-- The value that a call put into a queue. -/
def putOf (key : Bytes) : Op V × Answer V → Option V
  | (.queuePut key' value _, .ok _) => if key' = key then some value else none
  | _ => none

/-- The value that a call got from a queue. -/
def gotOf (key : Bytes) : Op V × Answer V → Option V
  | (.queueGet key', .ok (some value)) => if key' = key then some value else none
  | _ => none

namespace State

variable (s : State V)

def ops : List (Op V) := s.log.map Prod.fst

/-- What the callers keep. -/
def contents : Contents V := contentsAfter s.ops

/-- The values put into a queue, in this order. -/
def putInto (key : Bytes) : List V := s.log.filterMap (putOf key)

/-- The values that came out of a queue, in this order. -/
def gotFrom (key : Bytes) : List V := s.log.filterMap (gotOf key)

end State

/-- The values that are still in a queue. -/
def Contents.pending (contents : Contents V) (key : Bytes) : List V :=
  match contents.get? key with
  | some (.queue values) => values
  | _ => []

/-- What a stored string reads as. -/
def readValue (redis : Redis) (raw : Bytes) : Answer V :=
  (combineIfSplit pickle false redis (some raw)).1

/-- What is stored under a key, as it would be read. -/
def readEntry (redis : Redis) (key : Bytes) : Option (Content (Answer V)) :=
  (redis.get? key).map fun entry => match entry with
    | .string raw => .value (readValue pickle redis raw)
    | .list raws => .queue (raws.map (readValue pickle redis))

/-- The content that reads without an exception. -/
def Content.ok : Content V → Content (Answer V)
  | .value v => .value (.ok (some v))
  | .queue vs => .queue (vs.map fun v => .ok (some v))

/-- The keys that a stored string lists. -/
def listedKeys (raw : Bytes) : List Bytes :=
  if chunkMagic.isPrefixOf raw then splitMetaKey raw else []

/-- The keys that an entry lists. -/
def Entry.listedKeys : Entry → List Bytes
  | .string raw => RedisInterface.listedKeys raw
  | .list raws => raws.flatMap RedisInterface.listedKeys

/-- The parts of what the callers keep under a key. -/
def chunksOf (redis : Redis) (contents : Contents V) (key : Bytes) : List Bytes :=
  if key ∈ contents then ((redis.get? key).map Entry.listedKeys).getD [] else []

/-- What the interface promises after the calls so far. -/
structure Right (s : State V) : Prop where
  /-- Every call was answered like one on a dictionary of values and queues. -/
  answers : s.log.map Prod.snd = Contents.answers ∅ s.ops
  /-- What came out of a queue and what is still in it is what was put into it, in order. -/
  fifo : ∀ key, s.gotFrom key ++ s.contents.pending key = s.putInto key
  /-- What the callers keep is stored and can be read. -/
  stored : ∀ key content, s.contents.get? key = some content →
    readEntry pickle s.redis key = some content.ok
  /-- Nothing else is stored than that and its parts. -/
  listed : ∀ key ∈ s.redis, key ∈ s.contents ∨
    ∃ owner, key ∈ chunksOf s.redis s.contents owner

/-- The numbers that are drawn during a call. -/
def Op.draws : Op V → List Draw
  | .set _ _ draws | .queuePut _ _ draws => draws
  | .get .. | .queueGet _ => []

/-- What is kept under the key fits the call: `set` replaces no split value, and no key
is used for a value and a queue at once. -/
def fits (contents : Contents V) : Op V → Bool
  | .set key _ _ =>
      match contents.get? key with
      | none => true
      | some (.value old) => (pickle.dumps old).length ≤ chunkSize
      | some (.queue _) => false
  | .get key _ =>
      match contents.get? key with
      | some (.queue _) => false
      | _ => true
  | .queuePut key _ _ | .queueGet key =>
      match contents.get? key with
      | some (.value _) => false
      | _ => true

/-- The call replaces no split value and no queue, uses its key as it is used so far, and
the key is neither stored as a part nor drawn for one. -/
structure Careful (s : State V) (op : Op V) : Prop where
  fits : fits pickle chunkSize s.contents op = true
  kept : op.key ∈ s.redis → op.key ∈ s.contents
  notDrawn : op.key ∈ s.redis ∨ op.key ∉ op.draws.map chunkKey

instance (s : State V) (op : Op V) : Decidable (Careful pickle chunkSize s op) :=
  decidable_of_iff
    (RedisInterface.fits pickle chunkSize s.contents op = true ∧
      (op.key ∈ s.redis → op.key ∈ s.contents) ∧
      (op.key ∈ s.redis ∨ op.key ∉ op.draws.map chunkKey))
    ⟨fun h => ⟨h.1, h.2.1, h.2.2⟩, fun h => ⟨h.fits, h.kept, h.notDrawn⟩⟩

/-! ## Meta values -/

/-- The meta value that lists the keys. -/
def metaKey (keys : List Bytes) : Bytes := chunkMagic ++ keys.flatMap fun key => separator :: key

theorem metaKey_concat (keys : List Bytes) (key : Bytes) :
    metaKey (keys ++ [key]) = metaKey keys ++ separator :: key := by
  simp [metaKey]

theorem chunkMagic_isPrefixOf_metaKey (keys : List Bytes) :
    chunkMagic.isPrefixOf (metaKey keys) = true := by
  rw [List.isPrefixOf_iff_prefix]
  exact List.prefix_append _ _

theorem chunkMagic_not_isPrefixOf_dumps (v : V) :
    chunkMagic.isPrefixOf (pickle.dumps v) = false := by
  rw [Bool.eq_false_iff, ne_eq, List.isPrefixOf_iff_prefix]
  exact pickle.unmarked v

theorem intercalate_cons (sep head : Bytes) (tail : List Bytes) :
    sep.intercalate (head :: tail) = head ++ tail.flatMap fun part => sep ++ part := by
  induction tail generalizing head with
  | nil => simp
  | cons next tail ih =>
      rw [List.intercalate_cons_cons, ih next]
      simp

/-- A meta value is split into the keys that it lists. -/
theorem splitMetaKey_metaKey {keys : List Bytes} (hsep : ∀ key ∈ keys, separator ∉ key) :
    splitMetaKey (metaKey keys) = keys := by
  have hjoin : metaKey keys = [separator].intercalate (chunkMagic :: keys) := by
    rw [intercalate_cons]
    rfl
  have hparts : ∀ part ∈ chunkMagic :: keys, separator ∉ part := by
    intro part hpart
    rcases List.mem_cons.1 hpart with rfl | hpart
    · decide
    · exact hsep part hpart
  rw [splitMetaKey, hjoin, List.splitOn_intercalate separator hparts (List.cons_ne_nil _ _),
    List.tail_cons]

theorem listedKeys_metaKey {keys : List Bytes} (hsep : ∀ key ∈ keys, separator ∉ key) :
    listedKeys (metaKey keys) = keys := by
  rw [listedKeys, if_pos (chunkMagic_isPrefixOf_metaKey keys), splitMetaKey_metaKey hsep]

theorem listedKeys_dumps (v : V) : listedKeys (pickle.dumps v) = [] := by
  rw [listedKeys, chunkMagic_not_isPrefixOf_dumps]
  simp

/-- The keys of parts do not contain the separator. -/
theorem separator_notMem_chunkKey (n : Draw) : separator ∉ chunkKey n := by
  have hdigits : ∀ c ∈ (toString n.val).toList, c.isDigit = true := by
    intro c hc
    refine Nat.isDigit_of_mem_toDigits (b := 10) (n := n.val) (by omega) (by omega) ?_
    simpa using hc
  intro h
  rcases List.mem_append.1 h with h | h
  · exact absurd h (by decide)
  · obtain ⟨c, hc, hcode⟩ := List.mem_map.1 h
    have hdigit : 48 ≤ c.toNat ∧ c.toNat ≤ 57 := Char.isDigit_iff_toNat.1 (hdigits c hc)
    have hmod : c.toNat % 256 = 35 := by
      simpa [separator] using congrArg UInt8.toNat hcode
    omega

/-! ## Parts -/

variable {pickle chunkSize}

/-- The parts of a value. -/
def chunks (chunkSize : Nat) (value : Bytes) : List Bytes :=
  (List.range (chunkCount chunkSize value)).map (chunk chunkSize value)

theorem flatten_chunk_range (value : Bytes) (n : Nat) :
    ((List.range n).map (chunk chunkSize value)).flatten = value.take (chunkSize * n) := by
  induction n with
  | zero => simp
  | succ n ih =>
      have htake : value.take (chunkSize * n) =
          (value.take (chunkSize * (n + 1))).take (chunkSize * n) := by
        rw [List.take_take, min_eq_left (Nat.mul_le_mul_left _ (Nat.le_succ n))]
      rw [List.range_succ, List.map_append, List.flatten_append, ih, List.map_singleton,
        List.flatten_singleton, chunk, htake]
      exact List.take_append_drop _ _

/-- Nothing is lost between the parts, also at the boundaries. -/
theorem flatten_chunks (hsize : 1 ≤ chunkSize) (value : Bytes) :
    (chunks chunkSize value).flatten = value := by
  have hlength : value.length ≤ chunkSize * chunkCount chunkSize value := by
    have hdiv := Nat.div_add_mod (value.length + chunkSize - 1) chunkSize
    have hmod := Nat.mod_lt (value.length + chunkSize - 1) hsize
    rw [chunkCount]
    omega
  rw [chunks, flatten_chunk_range, List.take_of_length_le hlength]

/-- The parts are stored under the keys, in this order. -/
def Stored (redis : Redis) (keys parts : List Bytes) : Prop :=
  keys.map redis.get? = parts.map fun part => some (.string part)

theorem Stored.congr {redis redis' : Redis} {keys parts : List Bytes}
    (h : Stored redis keys parts) (hsame : ∀ key ∈ keys, redis'.get? key = redis.get? key) :
    Stored redis' keys parts := by
  have hmap : keys.map redis'.get? = keys.map redis.get? := List.map_congr_left hsame
  exact hmap.trans h

theorem Stored.mem {redis : Redis} {keys parts : List Bytes} (h : Stored redis keys parts)
    {key : Bytes} (hkey : key ∈ keys) : key ∈ redis := by
  have hget : redis.get? key ∈ keys.map redis.get? := List.mem_map_of_mem hkey
  rw [h] at hget
  obtain ⟨part, _, hpart⟩ := List.mem_map.1 hget
  exact Dict.mem_of_get? hpart.symm

theorem Stored.concat {redis : Redis} {keys parts : List Bytes} {key part : Bytes}
    (h : Stored redis keys parts) (hkey : redis.get? key = some (.string part)) :
    Stored redis (keys ++ [key]) (parts ++ [part]) := by
  have h' : keys.map redis.get? = parts.map fun part => some (.string part) := h
  simp [Stored, h', hkey]

theorem Stored.cons {redis : Redis} {key : Bytes} {keys parts : List Bytes}
    (h : Stored redis (key :: keys) parts) :
    ∃ part rest, parts = part :: rest ∧ redis.get? key = some (.string part) ∧
      Stored redis keys rest := by
  cases parts with
  | nil => simp [Stored] at h
  | cons part rest =>
      have h' : redis.get? key = some (.string part) ∧ Stored redis keys rest := by
        simpa [Stored] using h
      exact ⟨part, rest, rfl, h'⟩

/-! ## Storing parts -/

/-- The key is drawn and does not exist. -/
theorem getNewChunkKey_spec {redis : Redis} {draws left : List Draw} {key : Bytes}
    (h : getNewChunkKey redis draws = some (key, left)) :
    key ∉ redis ∧ separator ∉ key ∧ (∃ n ∈ draws, key = chunkKey n) ∧ left ⊆ draws := by
  induction draws with
  | nil => simp [getNewChunkKey] at h
  | cons n draws ih =>
      rw [getNewChunkKey] at h
      split at h
      · obtain ⟨hnew, hsep, ⟨m, hm, hkey⟩, hleft⟩ := ih h
        exact ⟨hnew, hsep, ⟨m, List.mem_cons_of_mem _ hm, hkey⟩,
          fun x hx => List.mem_cons_of_mem _ (hleft hx)⟩
      · rename_i hnew
        obtain ⟨rfl, rfl⟩ : chunkKey n = key ∧ draws = left := by simpa using h
        exact ⟨hnew, separator_notMem_chunkKey n, ⟨n, List.mem_cons_self, rfl⟩,
          fun x hx => List.mem_cons_of_mem _ hx⟩

/-- What storing the parts of a value does: they are stored under new keys, and the rest
of the server is unchanged. -/
structure Extends (redis : Redis) (draws : List Draw) (keys parts : List Bytes)
    (redis' : Redis) : Prop where
  stored : Stored redis' keys parts
  nodup : keys.Nodup
  fresh : ∀ key ∈ keys, key ∉ redis
  unseparated : ∀ key ∈ keys, separator ∉ key
  drawn : ∀ key ∈ keys, key ∈ draws.map chunkKey
  rest : ∀ key, key ∉ keys → redis'.get? key = redis.get? key

theorem Extends.refl (redis : Redis) (draws : List Draw) : Extends redis draws [] [] redis where
  stored := rfl
  nodup := List.nodup_nil
  fresh := by simp
  unseparated := by simp
  drawn := by simp
  rest := fun _ _ => rfl

/-- One more part under a key that does not exist. -/
theorem Extends.snoc {redis redis' : Redis} {draws left rest : List Draw} {keys parts : List Bytes}
    {key : Bytes} (part : Bytes) (h : Extends redis draws keys parts redis')
    (hleft : left ⊆ draws) (hkey : getNewChunkKey redis' left = some (key, rest)) :
    Extends redis draws (keys ++ [key]) (parts ++ [part]) (Redis.set redis' key part) := by
  obtain ⟨hnew, hsep, ⟨n, hn, hdraw⟩, -⟩ := getNewChunkKey_spec hkey
  have hnotMem : key ∉ keys := fun hmem => hnew (h.stored.mem hmem)
  have hsame : ∀ k, k ≠ key → (Redis.set redis' key part).get? k = redis'.get? k :=
    fun k hk => Dict.get?_set_ne _ _ hk
  constructor
  · refine Stored.concat (h.stored.congr ?_) (Dict.get?_set_self _ _ _)
    intro k hk
    exact hsame k fun heq => hnotMem (heq ▸ hk)
  · exact List.nodup_append.2 ⟨h.nodup, List.nodup_singleton _, by
      intro a ha b hb heq
      rw [List.mem_singleton.1 hb] at heq
      exact hnotMem (heq ▸ ha)⟩
  · intro k hk
    rcases List.mem_append.1 hk with hk | hk
    · exact h.fresh k hk
    · rw [List.mem_singleton.1 hk, Dict.notMem_iff, ← h.rest key hnotMem, ← Dict.notMem_iff]
      exact hnew
  · intro k hk
    rcases List.mem_append.1 hk with hk | hk
    · exact h.unseparated k hk
    · rw [List.mem_singleton.1 hk]
      exact hsep
  · intro k hk
    rcases List.mem_append.1 hk with hk | hk
    · exact h.drawn k hk
    · rw [List.mem_singleton.1 hk, hdraw]
      exact List.mem_map_of_mem (hleft hn)
  · intro k hk
    rw [List.mem_append, List.mem_singleton, not_or] at hk
    rw [hsame k hk.2, h.rest k hk.1]

/-- The loop over the indices, from the state that it has reached. -/
theorem foldlM_storeChunk {value : Bytes} {redis redis₁ redis' : Redis}
    {draws draws₁ left : List Draw} {keys parts : List Bytes} {raw : Bytes} {indices : List Nat}
    (h : Extends redis draws keys parts redis₁) (hdraws : draws₁ ⊆ draws)
    (hloop : indices.foldlM (storeChunk chunkSize value) (metaKey keys, redis₁, draws₁) =
      some (raw, redis', left)) :
    ∃ keys', raw = metaKey keys' ∧
      Extends redis draws keys' (parts ++ indices.map (chunk chunkSize value)) redis' := by
  induction indices generalizing redis₁ draws₁ keys parts with
  | nil =>
      obtain ⟨rfl, rfl, rfl⟩ : metaKey keys = raw ∧ redis₁ = redis' ∧ draws₁ = left := by
        simpa using hloop
      exact ⟨keys, rfl, by simpa using h⟩
  | cons index indices ih =>
      rw [List.foldlM_cons] at hloop
      obtain ⟨⟨raw₂, redis₂, draws₂⟩, hround, hloop⟩ := Option.bind_eq_some_iff.1 hloop
      obtain ⟨⟨key, rest⟩, hkey, hround⟩ := Option.bind_eq_some_iff.1 hround
      obtain ⟨rfl, rfl, rfl⟩ : metaKey keys ++ separator :: key = raw₂ ∧
          Redis.set redis₁ key (chunk chunkSize value index) = redis₂ ∧ rest = draws₂ := by
        simpa using hround
      obtain ⟨-, -, -, hrest⟩ := getNewChunkKey_spec hkey
      rw [← metaKey_concat] at hloop
      obtain ⟨keys', hraw, hextends⟩ :=
        ih (h.snoc (chunk chunkSize value index) hdraws hkey)
          (fun x hx => hdraws (hrest hx)) hloop
      exact ⟨keys', hraw, by simpa using hextends⟩

/-- `_store_chunks` stores the parts of the value and lists them. -/
theorem storeChunks_spec {redis redis' : Redis} {value raw : Bytes} {draws left : List Draw}
    (h : storeChunks chunkSize redis value draws = some (raw, redis', left)) :
    ∃ keys, raw = metaKey keys ∧ Extends redis draws keys (chunks chunkSize value) redis' := by
  have hloop := foldlM_storeChunk (Extends.refl redis draws) (List.Subset.refl draws) h
  rwa [List.nil_append] at hloop

/-! ## Reading parts -/

/-- What reading a value does to the server: its keys are deleted, or nothing. -/
structure Removes (delete : Bool) (redis : Redis) (keys : List Bytes) (redis' : Redis) : Prop where
  gone : delete = true → ∀ key ∈ keys, redis'.get? key = none
  rest : ∀ key, key ∉ keys → redis'.get? key = redis.get? key
  kept : delete = false → redis' = redis

theorem Removes.nil (delete : Bool) (redis : Redis) : Removes delete redis [] redis where
  gone := by simp
  rest := fun _ _ => rfl
  kept := fun _ => rfl

/-- All parts are found. -/
theorem fetchChunks_spec (delete : Bool) {redis : Redis} {keys parts : List Bytes}
    (hnodup : keys.Nodup) (h : Stored redis keys parts) :
    ∃ redis', fetchChunks delete redis keys = (.ok (parts.map some), redis') ∧
      Removes delete redis keys redis' := by
  induction keys generalizing redis parts with
  | nil =>
      obtain rfl : parts = [] := by simpa [Stored] using h.symm
      exact ⟨redis, rfl, Removes.nil delete redis⟩
  | cons key keys ih =>
      obtain ⟨part, rest, rfl, hget, hrest⟩ := h.cons
      have hnotMem : key ∉ keys := (List.nodup_cons.1 hnodup).1
      -- the first read leaves the other keys as they are
      obtain ⟨redis₁, hfetch, hother, hdeleted, hkept⟩ : ∃ redis₁,
          fetch delete redis key = (.ok (some part), redis₁) ∧
          (∀ k, k ≠ key → redis₁.get? k = redis.get? k) ∧
          (delete = true → redis₁.get? key = none) ∧ (delete = false → redis₁ = redis) := by
        cases delete with
        | false => exact ⟨redis, by simp [fetch, Redis.get, hget], fun _ _ => rfl, by simp, by simp⟩
        | true =>
            exact ⟨Dict.erase redis key, by simp [fetch, redisPop, Redis.get, hget],
              fun k hk => Dict.get?_erase_ne _ hk, fun _ => Dict.get?_erase_self _ _, by simp⟩
      have hrest₁ : Stored redis₁ keys rest :=
        hrest.congr fun k hk => hother k fun heq => hnotMem (heq ▸ hk)
      obtain ⟨redis₂, htail, hremoves⟩ := ih (List.nodup_cons.1 hnodup).2 hrest₁
      refine ⟨redis₂, by simp [fetchChunks, hfetch, htail], ?_, ?_, ?_⟩
      · intro hdelete k hk
        rcases List.mem_cons.1 hk with rfl | hk
        · rw [hremoves.rest k hnotMem, hdeleted hdelete]
        · exact hremoves.gone hdelete k hk
      · intro k hk
        rw [List.mem_cons, not_or] at hk
        rw [hremoves.rest k hk.2, hother k hk.1]
      · intro hdelete
        rw [hremoves.kept hdelete, hkept hdelete]

theorem joinChunks_map_some (parts : List Bytes) :
    joinChunks (parts.map some) = .ok parts.flatten := by
  have hnone : none ∉ parts.map some := by simp
  rw [joinChunks, if_neg hnone, List.flatMap_map]
  simp [List.flatMap_def]

variable (pickle chunkSize)

/-- The string stands for the value: it is its pickle, or lists the stored parts of it. -/
structure Holds (redis : Redis) (raw : Bytes) (v : V) (keys : List Bytes) : Prop where
  unseparated : ∀ key ∈ keys, separator ∉ key
  encoded : (raw = pickle.dumps v ∧ keys = [] ∧ (pickle.dumps v).length ≤ chunkSize) ∨
    (raw = metaKey keys ∧ chunkSize < (pickle.dumps v).length ∧
      Stored redis keys (chunks chunkSize (pickle.dumps v)))

variable {pickle chunkSize}

theorem Holds.listedKeys_eq {redis : Redis} {raw : Bytes} {v : V} {keys : List Bytes}
    (h : Holds pickle chunkSize redis raw v keys) : listedKeys raw = keys := by
  rcases h.encoded with ⟨rfl, rfl, -⟩ | ⟨rfl, -⟩
  · exact listedKeys_dumps pickle v
  · exact listedKeys_metaKey h.unseparated

theorem Holds.mem {redis : Redis} {raw : Bytes} {v : V} {keys : List Bytes}
    (h : Holds pickle chunkSize redis raw v keys) {key : Bytes} (hkey : key ∈ keys) :
    key ∈ redis := by
  rcases h.encoded with ⟨-, rfl, -⟩ | ⟨-, -, hstored⟩
  · simp at hkey
  · exact hstored.mem hkey

/-- What stands for a value still does if its parts are unchanged. -/
theorem Holds.congr {redis redis' : Redis} {raw : Bytes} {v : V} {keys : List Bytes}
    (h : Holds pickle chunkSize redis raw v keys)
    (hsame : ∀ key ∈ keys, redis'.get? key = redis.get? key) :
    Holds pickle chunkSize redis' raw v keys := by
  refine ⟨h.unseparated, ?_⟩
  rcases h.encoded with hplain | ⟨hraw, hlong, hstored⟩
  · exact Or.inl hplain
  · exact Or.inr ⟨hraw, hlong, hstored.congr hsame⟩

/-- `_combine_if_split` undoes `_split_if_necessary`. -/
theorem combineIfSplit_spec (hsize : 1 ≤ chunkSize) (delete : Bool) {redis : Redis} {raw : Bytes}
    {v : V} {keys : List Bytes} (h : Holds pickle chunkSize redis raw v keys)
    (hnodup : keys.Nodup) :
    ∃ redis', combineIfSplit pickle delete redis (some raw) = (.ok (some v), redis') ∧
      Removes delete redis keys redis' := by
  have hloads : loads pickle (pickle.dumps v) = .ok (some v) := by
    simp [loads, pickle.loads_dumps]
  rcases h.encoded with ⟨rfl, rfl, -⟩ | ⟨rfl, -, hstored⟩
  · refine ⟨redis, ?_, Removes.nil delete redis⟩
    simp [combineIfSplit, chunkMagic_not_isPrefixOf_dumps, hloads]
  · obtain ⟨redis', hfetch, hremoves⟩ := fetchChunks_spec delete hnodup hstored
    refine ⟨redis', ?_, hremoves⟩
    have hcombine : combineChunks delete redis (metaKey keys) = (.ok (pickle.dumps v), redis') := by
      rw [combineChunks, splitMetaKey_metaKey h.unseparated, hfetch]
      simp only [joinChunks_map_some, flatten_chunks hsize]
    rw [combineIfSplit, if_pos (chunkMagic_isPrefixOf_metaKey keys), hcombine]
    simp [hloads]

/-- `_split_if_necessary` makes a string that stands for the value. -/
theorem splitIfNecessary_spec {redis redis' : Redis} {v : V} {raw : Bytes} {draws left : List Draw}
    (h : splitIfNecessary chunkSize redis (pickle.dumps v) draws = some (raw, redis', left)) :
    ∃ keys parts, Extends redis draws keys parts redis' ∧
      Holds pickle chunkSize redis' raw v keys := by
  rw [splitIfNecessary] at h
  split at h
  · rename_i hlong
    obtain ⟨keys, hraw, hextends⟩ := storeChunks_spec h
    exact ⟨keys, _, hextends, hextends.unseparated, Or.inr ⟨hraw, hlong, hextends.stored⟩⟩
  · rename_i hshort
    obtain ⟨rfl, rfl, rfl⟩ : pickle.dumps v = raw ∧ redis = redis' ∧ draws = left := by
      simpa using h
    exact ⟨[], [], Extends.refl redis draws, by simp, Or.inl ⟨rfl, rfl, by omega⟩⟩

/-! ## What is stored for what is kept -/

variable (pickle chunkSize) in
/-- The strings of a list stand for the values of a queue. -/
inductive HoldsAll (redis : Redis) : List Bytes → List V → List Bytes → Prop
  | nil : HoldsAll redis [] [] []
  | cons {raw : Bytes} {raws : List Bytes} {v : V} {vs : List V} {keys rest : List Bytes}
      (head : Holds pickle chunkSize redis raw v keys) (tail : HoldsAll redis raws vs rest) :
      HoldsAll redis (raw :: raws) (v :: vs) (keys ++ rest)

theorem HoldsAll.congr {redis redis' : Redis} {raws : List Bytes} {vs : List V}
    {keys : List Bytes} (h : HoldsAll pickle chunkSize redis raws vs keys)
    (hsame : ∀ key ∈ keys, redis'.get? key = redis.get? key) :
    HoldsAll pickle chunkSize redis' raws vs keys := by
  induction h with
  | nil => exact .nil
  | cons head tail ih =>
      exact .cons (head.congr fun k hk => hsame k (List.mem_append_left _ hk))
        (ih fun k hk => hsame k (List.mem_append_right _ hk))

theorem HoldsAll.mem {redis : Redis} {raws : List Bytes} {vs : List V} {keys : List Bytes}
    (h : HoldsAll pickle chunkSize redis raws vs keys) {key : Bytes} (hkey : key ∈ keys) :
    key ∈ redis := by
  induction h with
  | nil => simp at hkey
  | cons head tail ih =>
      rcases List.mem_append.1 hkey with hkey | hkey
      · exact head.mem hkey
      · exact ih hkey

theorem HoldsAll.uncons {redis : Redis} {raws : List Bytes} {vs : List V} {keys : List Bytes}
    (h : HoldsAll pickle chunkSize redis raws vs keys) (hne : vs ≠ []) :
    ∃ raw raws' v vs' front rest, raws = raw :: raws' ∧ vs = v :: vs' ∧ keys = front ++ rest ∧
      Holds pickle chunkSize redis raw v front ∧
      HoldsAll pickle chunkSize redis raws' vs' rest := by
  cases h with
  | nil => exact absurd rfl hne
  | cons head tail => exact ⟨_, _, _, _, _, _, rfl, rfl, rfl, head, tail⟩

theorem HoldsAll.concat {redis : Redis} {raws : List Bytes} {vs : List V} {keys new : List Bytes}
    {raw : Bytes} {v : V} (h : HoldsAll pickle chunkSize redis raws vs keys)
    (hlast : Holds pickle chunkSize redis raw v new) :
    HoldsAll pickle chunkSize redis (raws ++ [raw]) (vs ++ [v]) (keys ++ new) := by
  induction h with
  | nil => simpa using HoldsAll.cons hlast .nil
  | cons head tail ih =>
      rw [List.append_assoc]
      exact .cons head ih

theorem HoldsAll.listedKeys_eq {redis : Redis} {raws : List Bytes} {vs : List V}
    {keys : List Bytes} (h : HoldsAll pickle chunkSize redis raws vs keys) :
    raws.flatMap listedKeys = keys := by
  induction h with
  | nil => rfl
  | cons head tail ih => rw [List.flatMap_cons, head.listedKeys_eq, ih]

variable (pickle chunkSize) in
/-- The entry stands for the content. A queue that is kept has values. -/
def EntryHolds (redis : Redis) : Entry → Content V → List Bytes → Prop
  | .string raw, .value v, keys => Holds pickle chunkSize redis raw v keys
  | .list raws, .queue vs, keys => vs ≠ [] ∧ HoldsAll pickle chunkSize redis raws vs keys
  | _, _, _ => False

theorem EntryHolds.congr {redis redis' : Redis} {entry : Entry} {content : Content V}
    {keys : List Bytes} (h : EntryHolds pickle chunkSize redis entry content keys)
    (hsame : ∀ key ∈ keys, redis'.get? key = redis.get? key) :
    EntryHolds pickle chunkSize redis' entry content keys := by
  cases entry <;> cases content
  · exact Holds.congr h hsame
  · exact h
  · exact h
  · exact ⟨h.1, h.2.congr hsame⟩

theorem EntryHolds.mem {redis : Redis} {entry : Entry} {content : Content V} {keys : List Bytes}
    (h : EntryHolds pickle chunkSize redis entry content keys) {key : Bytes} (hkey : key ∈ keys) :
    key ∈ redis := by
  cases entry <;> cases content
  · exact Holds.mem h hkey
  · exact h.elim
  · exact h.elim
  · exact h.2.mem hkey

theorem EntryHolds.listedKeys_eq {redis : Redis} {entry : Entry} {content : Content V}
    {keys : List Bytes} (h : EntryHolds pickle chunkSize redis entry content keys) :
    entry.listedKeys = keys := by
  cases entry <;> cases content
  · exact Holds.listedKeys_eq h
  · exact h.elim
  · exact h.elim
  · exact h.2.listedKeys_eq

variable (pickle chunkSize) in
/-- The server holds what the callers keep, the parts of different keys are different,
and nothing else is stored. -/
structure Inv (redis : Redis) (contents : Contents V) (owned : Bytes → List Bytes) : Prop where
  holds : ∀ key content, contents.get? key = some content →
    ∃ entry, redis.get? key = some entry ∧
      EntryHolds pickle chunkSize redis entry content (owned key)
  nothing : ∀ key, key ∉ contents → owned key = []
  exclusive : Exclusive owned
  separate : ∀ owner, ∀ key ∈ owned owner, key ∉ contents
  listed : ∀ key ∈ redis, key ∈ contents ∨ ∃ owner, key ∈ owned owner

namespace Inv

variable {redis redis' : Redis} {contents contents' : Contents V} {owned : Bytes → List Bytes}

theorem mem_of_owned (h : Inv pickle chunkSize redis contents owned) {owner key : Bytes}
    (hkey : key ∈ owned owner) : key ∈ redis := by
  by_cases howner : owner ∈ contents
  · obtain ⟨content, hcontent⟩ := Dict.mem_iff.1 howner
    obtain ⟨entry, -, hentry⟩ := h.holds owner content hcontent
    exact hentry.mem hkey
  · rw [h.nothing owner howner] at hkey
    simp at hkey

theorem mem_of_kept (h : Inv pickle chunkSize redis contents owned) {key : Bytes}
    (hkey : key ∈ contents) : key ∈ redis := by
  obtain ⟨content, hcontent⟩ := Dict.mem_iff.1 hkey
  obtain ⟨entry, hentry, -⟩ := h.holds key content hcontent
  exact Dict.mem_of_get? hentry

/-- A key that is stored only if a caller keeps something under it is not a part. -/
theorem notMem_owned (h : Inv pickle chunkSize redis contents owned) {key : Bytes}
    (hkept : key ∈ redis → key ∈ contents) (owner : Bytes) : key ∉ owned owner :=
  fun hkey => h.separate owner key hkey (hkept (h.mem_of_owned hkey))

/-- A step that changes what is under one key and the parts of that key. -/
theorem change (h : Inv pickle chunkSize redis contents owned) (key : Bytes) (new : List Bytes)
    (hkept : key ∈ redis → key ∈ contents)
    (hcontents : ∀ k, k ≠ key → contents'.get? k = contents.get? k)
    (hrest : ∀ k, k ≠ key → k ∉ owned key → k ∉ new → redis'.get? k = redis.get? k)
    (hholds : ∀ content, contents'.get? key = some content →
      ∃ entry, redis'.get? key = some entry ∧ EntryHolds pickle chunkSize redis' entry content new)
    (hnothing : key ∉ contents' → new = []) (hnodup : new.Nodup)
    (hnew : ∀ k ∈ new, k ≠ key ∧ (k ∈ owned key ∨ k ∉ redis))
    (hgone : ∀ k ∈ owned key, k ∉ new → k ∉ redis')
    (hlisted : key ∈ redis' → key ∈ contents') :
    Inv pickle chunkSize redis' contents' (Function.update owned key new) := by
  have hpart : ∀ owner, key ∉ owned owner := h.notMem_owned hkept
  -- new parts are parts of no other key
  have hfree : ∀ k ∈ new, ∀ owner, owner ≠ key → k ∉ owned owner := by
    intro k hk owner howner hmem
    rcases (hnew k hk).2 with hold | hfresh
    · exact howner (h.exclusive.owner_eq hmem hold)
    · exact hfresh (h.mem_of_owned hmem)
  constructor
  · intro k content hcontent
    by_cases hk : k = key
    · subst hk
      rw [Function.update_self]
      exact hholds content hcontent
    · rw [Function.update_of_ne hk]
      rw [hcontents k hk] at hcontent
      obtain ⟨entry, hget, hentry⟩ := h.holds k content hcontent
      have hmem : k ∈ contents := Dict.mem_of_get? hcontent
      refine ⟨entry, ?_, hentry.congr ?_⟩
      · rw [hrest k hk (fun hin => h.separate _ _ hin hmem) ?_, hget]
        intro hin
        rcases (hnew k hin).2 with hold | hfresh
        · exact h.separate _ _ hold hmem
        · exact hfresh (Dict.mem_of_get? hget)
      · intro part hin
        refine hrest part (fun heq => hpart k (heq ▸ hin))
          (fun hold => hk (h.exclusive.owner_eq hin hold)) (fun hnewPart => ?_)
        exact hfree part hnewPart k hk hin
  · intro k hk
    by_cases heq : k = key
    · subst heq
      rw [Function.update_self]
      exact hnothing hk
    · rw [Function.update_of_ne heq]
      refine h.nothing k ?_
      rwa [Dict.notMem_iff, ← hcontents k heq, ← Dict.notMem_iff]
  · exact h.exclusive.update hnodup hfree
  · intro owner k hk
    have hne : k ≠ key ∧ k ∉ contents := by
      by_cases howner : owner = key
      · subst howner
        rw [Function.update_self] at hk
        refine ⟨(hnew k hk).1, fun hmem => ?_⟩
        rcases (hnew k hk).2 with hold | hfresh
        · exact h.separate _ _ hold hmem
        · exact hfresh (h.mem_of_kept hmem)
      · rw [Function.update_of_ne howner] at hk
        exact ⟨fun heq => hpart owner (heq ▸ hk), h.separate owner k hk⟩
    rw [Dict.notMem_iff, hcontents k hne.1, ← Dict.notMem_iff]
    exact hne.2
  · intro k hk
    by_cases heq : k = key
    · subst heq
      exact Or.inl (hlisted hk)
    · by_cases hin : k ∈ new
      · exact Or.inr ⟨key, by rwa [Function.update_self]⟩
      · have hnot : k ∉ owned key := fun hold => hgone k hold hin hk
        have hmem : k ∈ redis := by
          rw [Dict.mem_iff_isSome, ← hrest k heq hnot hin, ← Dict.mem_iff_isSome]
          exact hk
        rcases h.listed k hmem with hmem | ⟨owner, howner⟩
        · left
          rw [Dict.mem_iff_isSome, hcontents k heq, ← Dict.mem_iff_isSome]
          exact hmem
        · have hne : owner ≠ key := fun heq => hnot (heq ▸ howner)
          exact Or.inr ⟨owner, by rwa [Function.update_of_ne hne]⟩

/-! ## What each call does -/

theorem get?_of_kept {key : Bytes} (hkept : key ∈ redis → key ∈ contents)
    (hnone : contents.get? key = none) : redis.get? key = none := by
  rw [← Dict.notMem_iff] at hnone ⊢
  exact fun hkey => hnone (hkept hkey)

/-- Under the key is a value that is not split, or nothing. -/
theorem owned_of_replaceable (h : Inv pickle chunkSize redis contents owned) {key : Bytes} {v : V}
    {draws : List Draw} (hfits : fits pickle chunkSize contents (.set key v draws) = true) :
    owned key = [] := by
  rw [fits] at hfits
  split at hfits
  · rename_i hnone
    exact h.nothing key (Dict.notMem_iff.2 hnone)
  · rename_i old hold
    obtain ⟨entry, -, hentry⟩ := h.holds key _ hold
    cases entry with
    | list raws => exact hentry.elim
    | string raw =>
        rcases Holds.encoded hentry with ⟨-, hkeys, -⟩ | ⟨-, hlong, -⟩
        · exact hkeys
        · have hshort := of_decide_eq_true hfits
          omega
  · cases hfits

theorem set_step (h : Inv pickle chunkSize redis contents owned) {key : Bytes} {v : V}
    {draws left : List Draw} (hfits : fits pickle chunkSize contents (.set key v draws) = true)
    (hkept : key ∈ redis → key ∈ contents)
    (hdrawn : key ∈ redis ∨ key ∉ draws.map chunkKey)
    (hset : set pickle chunkSize redis key v draws = some (redis', left)) :
    ∃ owned', Inv pickle chunkSize redis' (Dict.set contents key (.value v)) owned' := by
  obtain ⟨⟨raw, redis₁, rest⟩, hsplit, hreturn⟩ := Option.bind_eq_some_iff.1 hset
  obtain ⟨rfl, rfl⟩ : Redis.set redis₁ key raw = redis' ∧ rest = left := by simpa using hreturn
  obtain ⟨keys, parts, hextends, hholds⟩ := splitIfNecessary_spec hsplit
  have hkey : key ∉ keys := by
    intro hmem
    rcases hdrawn with hstored | hnot
    · exact hextends.fresh key hmem hstored
    · exact hnot (hextends.drawn key hmem)
  have hnone : owned key = [] := h.owned_of_replaceable hfits
  refine ⟨_, h.change key keys hkept ?_ ?_ ?_ ?_ hextends.nodup ?_ ?_ ?_⟩
  · exact fun k hk => Dict.get?_set_ne _ _ hk
  · intro k hk _ hnew
    exact (Dict.get?_set_ne _ _ hk).trans (hextends.rest k hnew)
  · intro content hcontent
    obtain rfl : Content.value v = content := by simpa using hcontent
    refine ⟨.string raw, Dict.get?_set_self _ _ _, hholds.congr fun k hk => ?_⟩
    exact Dict.get?_set_ne _ _ fun heq => hkey (heq ▸ hk)
  · simp
  · exact fun k hk => ⟨fun heq => hkey (heq ▸ hk), Or.inr (hextends.fresh k hk)⟩
  · simp [hnone]
  · simp

theorem queuePut_step (h : Inv pickle chunkSize redis contents owned) {key : Bytes} {v : V}
    {draws left : List Draw} {answer : Except Error Unit}
    (hfits : fits pickle chunkSize contents (.queuePut key v draws) = true)
    (hkept : key ∈ redis → key ∈ contents)
    (hdrawn : key ∈ redis ∨ key ∉ draws.map chunkKey)
    (hput : queuePut pickle chunkSize redis key v draws = some (answer, redis', left)) :
    answer.map (fun _ => none) = (contents.perform (.queuePut key v draws)).1 ∧
      ∃ owned', Inv pickle chunkSize redis' (contents.perform (.queuePut key v draws)).2 owned' := by
  obtain ⟨⟨raw, redis₁, rest⟩, hsplit, hreturn⟩ := Option.bind_eq_some_iff.1 hput
  obtain ⟨keys, parts, hextends, hholds⟩ := splitIfNecessary_spec hsplit
  have hkey : key ∉ keys := by
    intro hmem
    rcases hdrawn with hstored | hnot
    · exact hextends.fresh key hmem hstored
    · exact hnot (hextends.drawn key hmem)
  have hother : ∀ k ∈ keys, k ≠ key := fun k hk heq => hkey (heq ▸ hk)
  -- the queue so far, empty if nothing is kept under the key
  obtain ⟨raws, vs, hpush, hcontents, hall⟩ : ∃ raws vs,
      Redis.rpush redis₁ key raw = .ok (Dict.set redis₁ key (.list (raws ++ [raw]))) ∧
      contents.perform (.queuePut key v draws) =
        (.ok none, Dict.set contents key (.queue (vs ++ [v]))) ∧
      HoldsAll pickle chunkSize redis raws vs (owned key) := by
    have hsame : redis₁.get? key = redis.get? key := hextends.rest key hkey
    rcases hcase : contents.get? key with _ | (old | vs)
    · have hnone := get?_of_kept hkept hcase
      refine ⟨[], [], by simp [Redis.rpush, hsame, hnone], by simp [Contents.perform, hcase], ?_⟩
      rw [h.nothing key (Dict.notMem_iff.2 hcase)]
      exact .nil
    · simp [fits, hcase] at hfits
    · obtain ⟨entry, hget, hentry⟩ := h.holds key _ hcase
      cases entry with
      | string raw => exact hentry.elim
      | list raws =>
          exact ⟨raws, vs, by simp [Redis.rpush, hsame, hget], by simp [Contents.perform, hcase],
            hentry.2⟩
  have hreturn' : (Except.ok (), Dict.set redis₁ key (.list (raws ++ [raw])), rest) =
      (answer, redis', left) := by
    simpa [hpush] using hreturn
  obtain ⟨rfl, rfl, rfl⟩ : Except.ok () = answer ∧
      Dict.set redis₁ key (.list (raws ++ [raw])) = redis' ∧ rest = left := by
    simpa using hreturn'
  rw [hcontents]
  refine ⟨rfl, _, h.change key (owned key ++ keys) hkept ?_ ?_ ?_ ?_ ?_ ?_ ?_ ?_⟩
  · exact fun k hk => Dict.get?_set_ne _ _ hk
  · intro k hk _ hnew
    rw [List.mem_append, not_or] at hnew
    exact (Dict.get?_set_ne _ _ hk).trans (hextends.rest k hnew.2)
  · intro content hcontent
    obtain rfl : Content.queue (vs ++ [v]) = content := by simpa using hcontent
    have holdAll : HoldsAll pickle chunkSize redis₁ raws vs (owned key) :=
      hall.congr fun k hk => hextends.rest k fun hin => hextends.fresh k hin (h.mem_of_owned hk)
    refine ⟨.list (raws ++ [raw]), Dict.get?_set_self _ _ _, by simp, ?_⟩
    refine (holdAll.concat hholds).congr fun k hk => Dict.get?_set_ne _ _ ?_
    rcases List.mem_append.1 hk with hk | hk
    · exact fun heq => h.notMem_owned hkept key (heq ▸ hk)
    · exact hother k hk
  · simp
  · refine List.nodup_append.2 ⟨h.exclusive.nodup key, hextends.nodup, ?_⟩
    intro a ha b hb heq
    exact hextends.fresh b hb (h.mem_of_owned (heq ▸ ha))
  · intro k hk
    rcases List.mem_append.1 hk with hk | hk
    · exact ⟨fun heq => h.notMem_owned hkept key (heq ▸ hk), Or.inl hk⟩
    · exact ⟨hother k hk, Or.inr (hextends.fresh k hk)⟩
  · intro k hk hnot
    exact absurd (List.mem_append_left _ hk) hnot
  · simp

/-- A value is taken: nothing is left under its key, and its parts are deleted. -/
theorem taken (h : Inv pickle chunkSize redis contents owned) {key : Bytes}
    (hkept : key ∈ redis → key ∈ contents)
    (hremoves : Removes true (Dict.erase redis key) (owned key) redis') :
    ∃ owned', Inv pickle chunkSize redis' (Dict.erase contents key) owned' := by
  have hpart : key ∉ owned key := h.notMem_owned hkept key
  refine ⟨_, h.change key [] hkept ?_ ?_ ?_ ?_ List.nodup_nil ?_ ?_ ?_⟩
  · exact fun k hk => Dict.get?_erase_ne _ hk
  · intro k hk hold _
    rw [hremoves.rest k hold, Dict.get?_erase_ne _ hk]
  · intro content hcontent
    simp at hcontent
  · simp
  · simp
  · intro k hk _
    rw [Dict.notMem_iff]
    exact hremoves.gone rfl k hk
  · intro hmem
    rw [Dict.mem_iff_isSome, hremoves.rest key hpart] at hmem
    simp at hmem

theorem get_step (hsize : 1 ≤ chunkSize) (h : Inv pickle chunkSize redis contents owned)
    {key : Bytes} {delete : Bool} {answer : Answer V}
    (hfits : fits pickle chunkSize contents (.get key delete) = true)
    (hkept : key ∈ redis → key ∈ contents)
    (hget : get pickle delete redis key = (answer, redis')) :
    answer = (contents.perform (.get key delete)).1 ∧
      ∃ owned', Inv pickle chunkSize redis' (contents.perform (.get key delete)).2 owned' := by
  rcases hcase : contents.get? key with _ | (v | vs)
  · -- nothing is kept under the key, so nothing is stored under it
    have hnone := get?_of_kept hkept hcase
    have hmem : key ∉ redis := Dict.notMem_iff.2 hnone
    obtain ⟨rfl, rfl⟩ : (.ok none : Answer V) = answer ∧ redis = redis' := by
      cases delete <;>
        simpa [get, fetch, redisPop, Redis.get, hnone, combineIfSplit, Dict.erase_of_notMem hmem]
          using hget
    exact ⟨by simp [Contents.perform, hcase], owned, by simpa [Contents.perform, hcase] using h⟩
  · obtain ⟨entry, hentry, hholds⟩ := h.holds key _ hcase
    cases entry with
    | list raws => exact hholds.elim
    | string raw =>
        have hholds : Holds pickle chunkSize redis raw v (owned key) := hholds
        cases delete with
        | false =>
            obtain ⟨redis₁, hcombine, hremoves⟩ :=
              combineIfSplit_spec hsize false hholds (h.exclusive.nodup key)
            obtain ⟨rfl, rfl⟩ : (.ok (some v) : Answer V) = answer ∧ redis₁ = redis' := by
              simpa [get, fetch, Redis.get, hentry, hcombine] using hget
            rw [hremoves.kept rfl]
            exact ⟨by simp [Contents.perform, hcase], owned,
              by simpa [Contents.perform, hcase] using h⟩
        | true =>
            have hholds' : Holds pickle chunkSize (Dict.erase redis key) raw v (owned key) :=
              hholds.congr fun k hk =>
                Dict.get?_erase_ne _ fun heq => h.notMem_owned hkept key (heq ▸ hk)
            obtain ⟨redis₁, hcombine, hremoves⟩ :=
              combineIfSplit_spec hsize true hholds' (h.exclusive.nodup key)
            obtain ⟨rfl, rfl⟩ : (.ok (some v) : Answer V) = answer ∧ redis₁ = redis' := by
              simpa [get, fetch, redisPop, Redis.get, hentry, hcombine] using hget
            exact ⟨by simp [Contents.perform, hcase],
              by simpa [Contents.perform, hcase] using h.taken hkept hremoves⟩
  · simp [fits, hcase] at hfits

theorem queueGet_step (hsize : 1 ≤ chunkSize) (h : Inv pickle chunkSize redis contents owned)
    {key : Bytes} {answer : Answer V}
    (hfits : fits pickle chunkSize contents (.queueGet key : Op V) = true)
    (hkept : key ∈ redis → key ∈ contents)
    (hget : queueGet pickle redis key = (answer, redis')) :
    answer = (contents.perform (.queueGet key)).1 ∧
      ∃ owned', Inv pickle chunkSize redis' (contents.perform (.queueGet key)).2 owned' := by
  rcases hcase : contents.get? key with _ | (v | vs)
  · have hnone := get?_of_kept hkept hcase
    obtain ⟨rfl, rfl⟩ : (.ok none : Answer V) = answer ∧ redis = redis' := by
      simpa [queueGet, Redis.lpop, hnone, combineIfSplit] using hget
    exact ⟨by simp [Contents.perform, hcase], owned, by simpa [Contents.perform, hcase] using h⟩
  · simp [fits, hcase] at hfits
  · obtain ⟨entry, hentry, hholds⟩ := h.holds key _ hcase
    have hpart : ∀ k ∈ owned key, k ≠ key := fun k hk heq => h.notMem_owned hkept key (heq ▸ hk)
    have hnodup := h.exclusive.nodup key
    cases entry with
    | string raw => exact hholds.elim
    | list raws =>
        obtain ⟨hne, hall⟩ := hholds
        obtain ⟨raw, raws', v, vs', front, rest, rfl, rfl, howned, hhead, htail⟩ := hall.uncons hne
        rw [howned] at hnodup
        obtain ⟨hfront, hrest, hapart⟩ := List.nodup_append.1 hnodup
        have hpartFront : ∀ k ∈ front, k ≠ key := fun k hk =>
          hpart k (howned ▸ List.mem_append_left _ hk)
        have hpartRest : ∀ k ∈ rest, k ≠ key := fun k hk =>
          hpart k (howned ▸ List.mem_append_right _ hk)
        cases htail with
        | nil =>
            -- the last value: the list is removed
            obtain ⟨redis₁, hcombine, hremoves⟩ := combineIfSplit_spec hsize true
              (hhead.congr fun k hk => Dict.get?_erase_ne redis (hpartFront k hk)) hfront
            obtain ⟨rfl, rfl⟩ : (.ok (some v) : Answer V) = answer ∧ redis₁ = redis' := by
              simpa [queueGet, Redis.lpop, hentry, hcombine] using hget
            have hremoves' : Removes true (Dict.erase redis key) (owned key) redis₁ := by
              rwa [howned, List.append_nil]
            exact ⟨by simp [Contents.perform, hcase],
              by simpa [Contents.perform, hcase] using h.taken hkept hremoves'⟩
        | @cons raw₂ raws₂ v₂ vs₂ keys₂ rest₂ head₂ tail₂ =>
            have hleft := HoldsAll.cons head₂ tail₂
            obtain ⟨redis₁, hcombine, hremoves⟩ := combineIfSplit_spec hsize true
              (hhead.congr fun k hk => Dict.get?_set_ne redis (.list (raw₂ :: raws₂))
                (hpartFront k hk)) hfront
            obtain ⟨rfl, rfl⟩ : (.ok (some v) : Answer V) = answer ∧ redis₁ = redis' := by
              simpa [queueGet, Redis.lpop, hentry, hcombine] using hget
            refine ⟨by simp [Contents.perform, hcase], ?_⟩
            have hkey : key ∉ front := fun hk => hpartFront key hk rfl
            have hafter : (contents.perform (.queueGet key)).2 =
                Dict.set contents key (.queue (v₂ :: vs₂)) := by
              simp [Contents.perform, hcase]
            rw [hafter]
            refine ⟨_, h.change key (keys₂ ++ rest₂) hkept ?_ ?_ ?_ ?_ hrest ?_ ?_ ?_⟩
            · exact fun k hk => Dict.get?_set_ne _ _ hk
            · intro k hk hold _
              rw [howned, List.mem_append, not_or] at hold
              rw [hremoves.rest k hold.1, Dict.get?_set_ne _ _ hk]
            · intro content hcontent
              obtain rfl : Content.queue (v₂ :: vs₂) = content := by simpa using hcontent
              refine ⟨.list (raw₂ :: raws₂), ?_, by simp, hleft.congr fun k hk => ?_⟩
              · rw [hremoves.rest key hkey, Dict.get?_set_self]
              · have hnot : k ∉ front := fun hin => hapart k hin k hk rfl
                rw [hremoves.rest k hnot, Dict.get?_set_ne _ _ (hpartRest k hk)]
            · simp
            · exact fun k hk =>
                ⟨hpartRest k hk, Or.inl (howned ▸ List.mem_append_right _ hk)⟩
            · intro k hk hnot
              rw [howned] at hk
              have hin : k ∈ front := (List.mem_append.1 hk).resolve_right hnot
              rw [Dict.notMem_iff]
              exact hremoves.gone rfl k hin
            · simp

/-- Every careful call is answered like one on the contents, and keeps the invariant. -/
theorem perform_step (hsize : 1 ≤ chunkSize) (h : Inv pickle chunkSize redis contents owned)
    {op : Op V} {answer : Answer V} (hfits : fits pickle chunkSize contents op = true)
    (hkept : op.key ∈ redis → op.key ∈ contents)
    (hdrawn : op.key ∈ redis ∨ op.key ∉ op.draws.map chunkKey)
    (hperform : perform pickle chunkSize redis op = some (answer, redis')) :
    answer = (contents.perform op).1 ∧
      ∃ owned', Inv pickle chunkSize redis' (contents.perform op).2 owned' := by
  cases op with
  | set key v draws =>
      rw [perform] at hperform
      split at hperform
      · rename_i redis₁ hset
        obtain ⟨rfl, rfl⟩ : (.ok none : Answer V) = answer ∧ redis₁ = redis' := by
          simpa using hperform
        exact ⟨rfl, h.set_step hfits hkept hdrawn hset⟩
      · cases hperform
  | get key delete =>
      have hget : get pickle delete redis key = (answer, redis') := by simpa [perform] using hperform
      exact h.get_step hsize hfits hkept hget
  | queuePut key v draws =>
      rw [perform] at hperform
      split at hperform
      · rename_i answer₁ redis₁ hput
        obtain ⟨rfl, rfl⟩ : (answer₁.map fun _ => none : Answer V) = answer ∧ redis₁ = redis' := by
          simpa using hperform
        exact h.queuePut_step hfits hkept hdrawn hput
      · cases hperform
  | queueGet key =>
      have hget : queueGet pickle redis key = (answer, redis') := by simpa [perform] using hperform
      exact h.queueGet_step hsize hfits hkept hget

theorem empty : Inv pickle chunkSize (∅ : Redis) (∅ : Contents V) fun _ => [] where
  holds := by simp
  nothing := fun _ _ => rfl
  exclusive := Exclusive.empty
  separate := by simp
  listed := by simp [Dict.mem_iff]

/-- The parts of what is kept are the ones that the stored strings list. -/
theorem chunksOf_eq (h : Inv pickle chunkSize redis contents owned) (key : Bytes) :
    chunksOf redis contents key = owned key := by
  rw [chunksOf]
  split
  · rename_i hmem
    obtain ⟨content, hcontent⟩ := Dict.mem_iff.1 hmem
    obtain ⟨entry, hget, hentry⟩ := h.holds key content hcontent
    simp [hget, hentry.listedKeys_eq]
  · rename_i hnot
    exact (h.nothing key hnot).symm

/-- What is kept is read back. -/
theorem readEntry_eq (hsize : 1 ≤ chunkSize) (h : Inv pickle chunkSize redis contents owned)
    {key : Bytes} {content : Content V} (hcontent : contents.get? key = some content) :
    readEntry pickle redis key = some content.ok := by
  have hread : ∀ raw v keys, keys.Nodup → Holds pickle chunkSize redis raw v keys →
      readValue pickle redis raw = .ok (some v) := by
    intro raw v keys hnodup hholds
    obtain ⟨redis₁, hcombine, -⟩ := combineIfSplit_spec hsize false hholds hnodup
    rw [readValue, hcombine]
  obtain ⟨entry, hget, hentry⟩ := h.holds key content hcontent
  have hnodup := h.exclusive.nodup key
  cases entry <;> cases content
  · simp [readEntry, hget, Content.ok, hread _ _ _ hnodup hentry]
  · exact hentry.elim
  · exact hentry.elim
  · rename_i raws vs
    have hall : ∀ raws vs keys, keys.Nodup → HoldsAll pickle chunkSize redis raws vs keys →
        raws.map (readValue pickle redis) = vs.map fun v => .ok (some v) := by
      intro raws vs keys hnodup hall
      induction hall with
      | nil => rfl
      | cons head tail ih =>
          obtain ⟨hfront, hrest, -⟩ := List.nodup_append.1 hnodup
          rw [List.map_cons, List.map_cons, hread _ _ _ hfront head, ih hrest]
    simp [readEntry, hget, Content.ok, hall _ _ _ hnodup hentry.2]

end Inv

/-! ## The calls so far -/

theorem contentsAfter_concat (ops : List (Op V)) (op : Op V) :
    contentsAfter (ops ++ [op]) = ((contentsAfter ops).perform op).2 := by
  simp [contentsAfter]

theorem Contents.answers_concat (contents : Contents V) (ops : List (Op V)) (op : Op V) :
    contents.answers (ops ++ [op]) = contents.answers ops ++
      [((ops.foldl (fun contents op => (contents.perform op).2) contents).perform op).1] := by
  induction ops generalizing contents with
  | nil => rfl
  | cons first ops ih => simp [Contents.answers, ih]

/-- The values that a content queues. -/
def Content.queued : Content V → List V
  | .value _ => []
  | .queue values => values

theorem Contents.pending_eq {contents : Contents V} {key : Bytes} {content : Content V}
    (h : contents.get? key = some content) : contents.pending key = content.queued := by
  cases content <;> simp [Contents.pending, h, Content.queued]

theorem Contents.pending_none {contents : Contents V} {key : Bytes}
    (h : contents.get? key = none) : contents.pending key = [] := by
  simp [Contents.pending, h]

@[simp] theorem Contents.pending_set (contents : Contents V) (k key : Bytes) (content : Content V) :
    Contents.pending (Dict.set contents k content) key =
      if key = k then content.queued else contents.pending key := by
  split
  · rename_i heq
    subst heq
    exact Contents.pending_eq (Dict.get?_set_self _ _ _)
  · rename_i hne
    simp only [Contents.pending, Dict.get?_set_ne _ _ hne]

@[simp] theorem Contents.pending_erase (contents : Contents V) (k key : Bytes) :
    Contents.pending (Dict.erase contents k) key =
      if key = k then [] else contents.pending key := by
  split
  · rename_i heq
    subst heq
    exact Contents.pending_none (Dict.get?_erase_self _ _)
  · rename_i hne
    simp only [Contents.pending, Dict.get?_erase_ne _ hne]

/-- The values move through a queue in order. -/
theorem pending_step {contents : Contents V} {op : Op V}
    (hfits : fits pickle chunkSize contents op = true) (key : Bytes) :
    contents.pending key ++ (putOf key (op, (contents.perform op).1)).toList =
      (gotOf key (op, (contents.perform op).1)).toList ++
        (contents.perform op).2.pending key := by
  cases op with
  | set k v draws =>
      by_cases hkey : key = k
      · subst hkey
        rcases hcase : contents.get? key with _ | (old | vs)
        · simp [putOf, gotOf, Contents.perform, Contents.pending_none hcase, Content.queued]
        · simp [putOf, gotOf, Contents.perform, Contents.pending_eq hcase, Content.queued]
        · simp [fits, hcase] at hfits
      · simp [putOf, gotOf, Contents.perform, hkey]
  | get k delete =>
      rcases hcase : contents.get? k with _ | (old | vs)
      · simp [putOf, gotOf, Contents.perform, hcase]
      · cases delete with
        | false => simp [putOf, gotOf, Contents.perform, hcase]
        | true =>
            by_cases hkey : key = k
            · subst hkey
              simp [putOf, gotOf, Contents.perform, hcase, Contents.pending_eq hcase,
                Content.queued]
            · simp [putOf, gotOf, Contents.perform, hcase, hkey]
      · simp [fits, hcase] at hfits
  | queuePut k v draws =>
      rcases hcase : contents.get? k with _ | (old | vs)
      · by_cases hkey : key = k
        · subst hkey
          simp [putOf, gotOf, Contents.perform, hcase, Contents.pending_none hcase, Content.queued]
        · simp [putOf, gotOf, Contents.perform, hcase, hkey, Ne.symm hkey]
      · simp [fits, hcase] at hfits
      · by_cases hkey : key = k
        · subst hkey
          simp [putOf, gotOf, Contents.perform, hcase, Contents.pending_eq hcase, Content.queued]
        · simp [putOf, gotOf, Contents.perform, hcase, hkey, Ne.symm hkey]
  | queueGet k =>
      rcases hcase : contents.get? k with _ | (old | (_ | ⟨v, _ | ⟨w, vs⟩⟩))
      · simp [putOf, gotOf, Contents.perform, hcase]
      · simp [fits, hcase] at hfits
      · simp [putOf, gotOf, Contents.perform, hcase]
      · by_cases hkey : key = k
        · subst hkey
          simp [putOf, gotOf, Contents.perform, hcase, Contents.pending_eq hcase, Content.queued]
        · simp [putOf, gotOf, Contents.perform, hcase, hkey, Ne.symm hkey]
      · by_cases hkey : key = k
        · subst hkey
          simp [putOf, gotOf, Contents.perform, hcase, Contents.pending_eq hcase, Content.queued]
        · simp [putOf, gotOf, Contents.perform, hcase, hkey, Ne.symm hkey]

/-- The invariant of a run. -/
structure RunInv (pickle : Pickle V) (chunkSize : Nat) (s : State V) : Prop where
  answers : s.log.map Prod.snd = Contents.answers ∅ s.ops
  fifo : ∀ key, s.gotFrom key ++ s.contents.pending key = s.putInto key
  holds : ∃ owned, Inv pickle chunkSize s.redis s.contents owned

theorem runInv_init : RunInv pickle chunkSize (⟨∅, []⟩ : State V) where
  answers := rfl
  fifo := fun _ => rfl
  holds := ⟨_, Inv.empty⟩

theorem runInv_step (hsize : 1 ≤ chunkSize) {s s' : State V} {op : Op V}
    (hcareful : Careful pickle chunkSize s op)
    (hstep : (interface pickle chunkSize).step op s = some s') (h : RunInv pickle chunkSize s) :
    RunInv pickle chunkSize s' := by
  obtain ⟨owned, hinv⟩ := h.holds
  obtain ⟨⟨answer, redis'⟩, hperform, rfl⟩ := Option.map_eq_some_iff.1 hstep
  obtain ⟨rfl, owned', hinv'⟩ :=
    hinv.perform_step hsize hcareful.fits hcareful.kept hcareful.notDrawn hperform
  have hops : (s.log ++ [(op, (s.contents.perform op).1)]).map Prod.fst = s.ops ++ [op] := by
    simp [State.ops]
  have hcontents : contentsAfter ((s.log ++ [(op, (s.contents.perform op).1)]).map Prod.fst) =
      (s.contents.perform op).2 := by
    rw [hops, contentsAfter_concat]
    rfl
  constructor
  · show (s.log ++ [(op, (s.contents.perform op).1)]).map Prod.snd = Contents.answers ∅
      ((s.log ++ [(op, (s.contents.perform op).1)]).map Prod.fst)
    rw [hops, Contents.answers_concat, List.map_append, h.answers]
    rfl
  · intro key
    show (s.log ++ [(op, (s.contents.perform op).1)]).filterMap (gotOf key) ++
      (contentsAfter ((s.log ++ [(op, (s.contents.perform op).1)]).map Prod.fst)).pending key =
      (s.log ++ [(op, (s.contents.perform op).1)]).filterMap (putOf key)
    have hone : ∀ f : Op V × Answer V → Option V, ∀ entry,
        (s.log ++ [entry]).filterMap f = s.log.filterMap f ++ (f entry).toList := by
      intro f entry
      rw [List.filterMap_append]
      cases hf : f entry <;> simp [hf]
    rw [hcontents, hone, hone, List.append_assoc, ← pending_step hcareful.fits, ← List.append_assoc]
    exact congrArg (· ++ _) (h.fifo key)
  · refine ⟨owned', ?_⟩
    show Inv pickle chunkSize redis'
      (contentsAfter ((s.log ++ [(op, (s.contents.perform op).1)]).map Prod.fst)) owned'
    rw [hcontents]
    exact hinv'

theorem runInv_of_reach (hsize : 1 ≤ chunkSize) {s : State V}
    (h : (interface pickle chunkSize).Reach (Careful pickle chunkSize) s) :
    RunInv pickle chunkSize s := by
  have hinit : ∀ s, (interface pickle chunkSize).Init s → RunInv pickle chunkSize s := by
    rintro s rfl
    exact runInv_init
  have hstep : ∀ s op s', Careful pickle chunkSize s op →
      (interface pickle chunkSize).step op s = some s' → RunInv pickle chunkSize s →
      RunInv pickle chunkSize s' := fun _ _ _ hcareful hstep hs => runInv_step hsize hcareful hstep hs
  exact Tla.Machine.reach_invariant hinit hstep h

theorem RunInv.right (hsize : 1 ≤ chunkSize) {s : State V} (h : RunInv pickle chunkSize s) :
    Right pickle s := by
  obtain ⟨owned, hinv⟩ := h.holds
  refine ⟨h.answers, h.fifo, fun key content => hinv.readEntry_eq hsize, ?_⟩
  intro key hkey
  rcases hinv.listed key hkey with hkept | ⟨owner, howner⟩
  · exact Or.inl hkept
  · exact Or.inr ⟨owner, by rwa [hinv.chunksOf_eq]⟩

/-- A call that reads changes what is kept under its own key only. -/
theorem Contents.perform_reads {contents : Contents V} {op : Op V} (hreads : op.reads = true)
    {key : Bytes} (hne : key ≠ op.key) :
    (contents.perform op).2.get? key = contents.get? key := by
  cases op with
  | set k v draws => cases hreads
  | queuePut k v draws => cases hreads
  | get k delete =>
      rcases hcase : contents.get? k with _ | (old | vs) <;> cases delete <;>
        simp_all [Contents.perform, Op.key, Dict.get?_erase]
  | queueGet k =>
      rcases hcase : contents.get? k with _ | (old | (_ | ⟨v, _ | ⟨w, vs⟩⟩)) <;>
        simp_all [Contents.perform, Op.key, Dict.get?_erase, Dict.get?_set]

/-- In every run of careful calls, the interface is a dictionary of values and queues: the
calls are answered like that, what is kept can be read and nothing else is stored than it and
its parts, and a call that reads leaves everything that is kept under other keys as it is. -/
theorem calls_right (pickle : Pickle V) (hsize : 1 ≤ chunkSize) {s : State V}
    (h : (interface pickle chunkSize).Reach (Careful pickle chunkSize) s) :
    Right pickle s ∧ ∀ op s', op.reads = true → Careful pickle chunkSize s op →
      (interface pickle chunkSize).step op s = some s' →
      ∀ key ∈ s.contents, key ≠ op.key →
        readEntry pickle s'.redis key = readEntry pickle s.redis key := by
  have hinv := runInv_of_reach hsize h
  refine ⟨hinv.right hsize, ?_⟩
  intro op s' hreads hcareful hstep key hkey hne
  have hright := (runInv_step hsize hcareful hstep hinv).right hsize
  obtain ⟨content, hcontent⟩ := Dict.mem_iff.1 hkey
  have hafter : s'.contents = (s.contents.perform op).2 := by
    obtain ⟨result, -, rfl⟩ := Option.map_eq_some_iff.1 hstep
    simp [State.contents, State.ops, contentsAfter_concat]
  have hcontent' : s'.contents.get? key = some content := by
    rw [hafter, Contents.perform_reads hreads hne, hcontent]
  rw [hright.stored key content hcontent', (hinv.right hsize).stored key content hcontent]

/-! ## A replaced value -/

theorem interface_init (pickle : Pickle V) (chunkSize : Nat) :
    (interface pickle chunkSize).Init ⟨∅, []⟩ := rfl

/-- A value is put, read without deleting it and taken, next to a queue. Every part has one
byte. -/
def carefulCalls : List (Op Bytes) :=
  [.set (encode "a") [1] [drawn 0, drawn 1],
    .queuePut (encode "q") [2, 3] [drawn 0, drawn 2, drawn 3, drawn 4],
    .queuePut (encode "q") [] [], .get (encode "a") false, .get (encode "a") true]

theorem carefulCalls_isSome : ((interface Pickle.ofBytes 1).run (Careful Pickle.ofBytes 1)
    carefulCalls ⟨∅, []⟩).isSome = true := by decide +kernel

theorem calls_right_careful :
    Right Pickle.ofBytes (((interface Pickle.ofBytes 1).run (Careful Pickle.ofBytes 1)
      carefulCalls ⟨∅, []⟩).get carefulCalls_isSome) :=
  (calls_right Pickle.ofBytes (Nat.le_refl 1)
    (Tla.Machine.reach_get (interface_init _ _) carefulCalls_isSome)).1

/-- The same key is set twice to a value that is split. -/
def replacingCalls : List (Op Bytes) :=
  [.set (encode "a") [1] [drawn 0, drawn 1], .set (encode "a") [2] [drawn 2, drawn 3]]

theorem replacingCalls_isSome : ((interface Pickle.ofBytes 1).run Tla.Machine.anyStep
    replacingCalls ⟨∅, []⟩).isSome = true := by decide +kernel

/-- The server after the two calls. -/
def replaced : State Bytes :=
  ((interface Pickle.ofBytes 1).run Tla.Machine.anyStep replacingCalls ⟨∅, []⟩).get
    replacingCalls_isSome

/-- `chunk_0` is stored, but nothing that is kept lists it. -/
theorem replaced_chunks_stay : (interface Pickle.ofBytes 1).Reach Tla.Machine.anyStep replaced ∧
    ¬ Right Pickle.ofBytes replaced := by
  refine ⟨Tla.Machine.reach_get (interface_init _ _) replacingCalls_isSome, ?_⟩
  intro h
  have hstored : chunkKey (drawn 0) ∈ replaced.redis := by decide +kernel
  rcases h.listed _ hstored with hkept | ⟨owner, howner⟩
  · have hnot : chunkKey (drawn 0) ∉ replaced.contents := by decide +kernel
    exact hnot hkept
  · have hnot : ∀ owner ∈ replaced.contents.keys,
        chunkKey (drawn 0) ∉ chunksOf replaced.redis replaced.contents owner := by decide +kernel
    by_cases hmem : owner ∈ replaced.contents
    · exact hnot owner (Dict.mem_keys.2 hmem) howner
    · rw [chunksOf, if_neg hmem] at howner
      exact absurd howner List.not_mem_nil

end FactCore.RedisInterface
