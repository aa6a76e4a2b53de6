import FactCore.Storage.QuerySelection

/-! # What a search dict means

A search dict is a boolean combination of its entries: all of them hold, and a
`$or` holds if one of its sub-entries does. This file states that meaning over
the tables, entry by entry, and compares it with what the query of
`build_query_from_dict` selects over the joined tables.

The two differ where the translation forgets entries (beside a `$or`, or `uid`
beside `_id`), where it takes only one of the operators of a value, and where
one joined row cannot carry what the dict asks for: rows of two plugins, or no
row at all of a table that is joined.
-/

namespace FactCore

namespace QueryConversion

variable {S : Semantics} {db : Database S} {uid : Uid}

/-! ## The meaning -/

/-- Whether the object under the value of a key names operators. The columns of
the analysis table are compared with the value itself, except for `summary`. -/
def namesOperators (key : String) : Bool :=
  match isAnalysisKey key, splitAnalysisKey key with
  | true, .ok (_, subkey) => subkey ∉ analysisColumns ∨ subkey = "summary"
  | _, _ => true

/-- A value with several operators asks for all of them: it is split into values
with one operator each. -/
def singleValues (key : String) (value : Json) : List Json :=
  match value with
  | .object ops => if namesOperators key then ops.map fun op => .object [op] else [value]
  | value => [value]

/-- `_id` is the old name of `uid`. -/
def canonical (key : String) : String := if key = "_id" then "uid" else key

/-- The conditions that an entry states. -/
def stated (key : String) (value : Json) : List Condition :=
  (singleValues key value).filterMap fun v => condition? (canonical key) v

/-- An entry holds of an object iff the object has rows with everything it states. -/
def EntryHolds (db : Database S) (uid : Uid) (e : String × Json) : Prop :=
  ∀ c ∈ stated e.1 e.2, HoldsOn db uid c

/-- At least one entry of a `$or` holds, where a nested `$or` is one of its entries. -/
def SearchDict.SomeHolds (db : Database S) (uid : Uid) : SearchDict → Prop
  | .plain entries => ∃ e ∈ entries.items, EntryHolds db uid e
  | .or beside sub => (∃ e ∈ beside.items, EntryHolds db uid e) ∨ sub.SomeHolds db uid

/-- All entries of a search dict hold. -/
def SearchDict.Holds (db : Database S) (uid : Uid) : SearchDict → Prop
  | .plain entries => ∀ e ∈ entries.items, EntryHolds db uid e
  | .or beside sub => (∀ e ∈ beside.items, EntryHolds db uid e) ∧ sub.SomeHolds db uid

/-- A column of the analysis table that is not JSON is not compared with an object. -/
def comparable (key : String) (value : Json) : Bool :=
  match value, splitAnalysisKey key with
  | .object _, .ok (_, subkey) => namesOperators key ∨ subkey = "tags" ∨ subkey = "result"
  | _, _ => true

/-- An entry with a key that names a column or a result, and a value that is
plain or names operators, all of them among those that the column has. -/
structure SupportedEntry (key : String) (value : Json) : Prop where
  comparable : comparable key value = true
  nonempty : singleValues key value ≠ []
  translated : ∀ v ∈ singleValues key value, ∃ c, conditionOf (canonical key) v = .ok (some c)

/-- The search dicts over the supported keys and operators. -/
def SearchDict.Supported : SearchDict → Prop
  | .plain entries => ∀ e ∈ entries.items, SupportedEntry e.1 e.2
  | .or beside sub => (∀ e ∈ beside.items, SupportedEntry e.1 e.2) ∧ sub.Supported

/-- The translation denotes the meaning of a search dict on a database: the
call returns a query, and that selects the objects of which the dict holds. -/
def Denotes (S : Semantics) (db : Database S) (d : SearchDict) : Prop :=
  ∃ query d', buildQueryFromDict d false = .ok (query, d') ∧
    ∀ uid, uid ∈ query.selected db ↔ uid ∈ db.fileObject ∧ d.Holds db uid

/-! ## When the translation is right -/

/-- The entries that the translation reaches: those of the innermost `$or`. -/
def SearchDict.entries : SearchDict → Entries
  | .plain entries => entries
  | .or _ sub => sub.entries

/-- The conditions that are tested. -/
def SearchDict.tested (d : SearchDict) : List Condition := conditionsOf (renameId d.entries)

/-- The conditions that the entries of one level state. -/
def statedBy (entries : Entries) : List Condition := entries.items.flatMap fun e => stated e.1 e.2

/-- The alternatives of a `$or`: the conditions that each of its entries states. -/
def SearchDict.alternatives : SearchDict → List (List Condition)
  | .plain entries => entries.items.map fun e => stated e.1 e.2
  | .or beside sub => (beside.items.map fun e => stated e.1 e.2) ++ sub.alternatives

/-- A dict without `$or` is translated right if every condition it states is
tested and the other way round (so each value has one operator, and `uid` does
not stand beside `_id`), and its analysis keys are about one plugin. -/
structure RightAll (tested stated : List Condition) : Prop where
  same : ∀ c, c ∈ tested ↔ c ∈ stated
  onePlugin : OnePlugin tested

/-- A dict with a `$or` is translated right if no other condition stands beside
it, each of its alternatives is one condition that is tested, there is one, they
are not of the analysis table and of other tables at once, and none compares a
column of the firmware table with null. -/
structure RightAny (tested beside : List Condition) (alternatives : List (List Condition)) :
    Prop where
  nonempty : tested ≠ []
  alone : ∀ c ∈ tested, ∀ b ∈ beside, b = c
  single : ∀ c ∈ tested, ∃ alternative ∈ alternatives, ∀ x ∈ alternative, x = c
  complete : ∀ alternative ∈ alternatives, ∃ c ∈ tested, c ∈ beside ∨ c ∈ alternative
  unmixed : (∀ c ∈ tested, c.isAnalysis = true) ∨ ∀ c ∈ tested, c.isAnalysis = false
  notNull : ∀ filter, .firmware filter ∈ tested → filter.isNull = false

/-- The condition under which a search dict is translated right. -/
def SearchDict.Right (d : SearchDict) : Prop :=
  match d with
  | .plain entries => RightAll d.tested (statedBy entries)
  | .or beside sub => RightAny d.tested (statedBy beside) sub.alternatives

end QueryConversion

end FactCore
