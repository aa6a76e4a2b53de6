import FactCore.Lib.Join
import FactCore.Lib.Json
import FactCore.Lib.Loop
import FactCore.Lib.Relation
import FactCore.Objects.FileObject

/-! # Search queries

`storage/query_conversion.py`: a search dict, as it comes from the search forms,
is translated into one `SELECT` over the tables of the file objects, of the
firmware metadata and of the analysis results.

The first half of this file is that translation. It ends in a `Query`, which
says which tables are joined and which conditions stand in the `WHERE` clause.
The second half says what such a query selects. Joins, filters and `DISTINCT`
have their relational meaning. What an operator such as `~` or `@>` makes of a
column is decided by the database server, so it is a parameter, `Semantics`.

Of the attributes of the mapped classes only the columns are names that a key
can stand for. Queries over firmware only (`fw_only`) are not modelled.
-/

namespace FactCore

namespace QueryConversion

/-! ## Columns, operators and conditions -/

/-- The columns of `FileObjectEntry`. -/
def fileColumns : List String :=
  ["uid", "sha256", "file_name", "depth", "size", "comments", "is_firmware"]

/-- The columns of `FirmwareEntry`. -/
def firmwareColumns : List String :=
  ["uid", "submission_date", "release_date", "version", "vendor", "device_name", "device_class",
    "device_part", "firmware_tags"]

/-- The columns of `AnalysisEntry`. -/
def analysisColumns : List String :=
  ["uid", "plugin", "plugin_version", "system_version", "analysis_date", "summary", "tags",
    "result"]

/-- The columns and column expressions that a filter is built on. -/
inductive Column where
  | attribute (name : String)
  /-- `func.to_char(column, 'YYYY-MM-DD')` -/
  | dateText (name : String)
  /-- `func.array_to_string(field, ',')` -/
  | arrayText (name : String)
  /-- `AnalysisEntry.result[..][..]`, with `.astext` at the end or not -/
  | result (path : List String) (asText : Bool)
deriving DecidableEq

/-- The columns that have `has_key`. -/
def Column.isJson : Column → Bool
  | .attribute name => name = "comments"
  | .result _ _ => true
  | _ => false

/-- The operators of the filters. -/
inductive Operator where
  | eq | hasKey | regex | ilike | isIn | ne | lt | gt | contains | overlap
deriving DecidableEq

/-- A filter: a column compared with an operand. -/
structure Filter where
  column : Column
  operator : Operator
  operand : Json

/-- A condition of the `WHERE` clause: a filter on a column of one of the three
tables. For the analysis table it also asks for the plugin. -/
inductive Condition where
  | file (filter : Filter)
  | firmware (filter : Filter)
  | analysis (plugin : Plugin) (filter : Filter)

/-- The exceptions of the translation. -/
inductive QueryError where
  /-- `QueryConversionException`: Search options currently unsupported -/
  | unsupported (value : Json)
  /-- `QueryConversionException`: Unsupported search option for ARRAY field -/
  | unsupportedForArray (value : Json)
  /-- `ValueError`: the key of an analysis does not have three parts -/
  | notEnoughValues (key : String)
  /-- `AttributeError`: only columns with JSON have `has_key` -/
  | noHasKey (column : Column)

/-! ## Filters -/

/-- The operators that a value can name, in the order in which they are looked for. -/
def operators : List (String × Operator) :=
  [("$exists", .hasKey), ("$regex", .regex), ("$like", .ilike), ("$in", .isIn), ("$ne", .ne),
    ("$lt", .lt), ("$gt", .gt), ("$contains", .contains)]

/-- The first of the operators that occurs in a value, with its operand. -/
def firstOperator (ops : List (String × Json)) : Option (Operator × Json) :=
  operators.findSome? fun entry => (ops.lookup entry.1).map fun operand => (entry.2, operand)

/-- `key.split('.')[-1]`. -/
def lastPart (key : String) : String := (Join.split '.' key).getLast Join.split_ne_nil

/-- `_dict_key_to_filter`. -/
def dictKeyToFilter (column : Column) (key : String) (value : Json) : Except QueryError Filter :=
  match value with
  | .object ops =>
      match firstOperator ops with
      | none => .error (.unsupported value)
      | some (.hasKey, _) =>
          if column.isJson then .ok ⟨column, .hasKey, .string (lastPart key)⟩
          else .error (.noHasKey column)
      | some (operator, operand) => .ok ⟨column, operator, operand⟩
  | value => .ok ⟨column, .eq, value⟩

/-- `_get_column`. -/
def getColumn (key : String) : Column :=
  if key = "release_date" then .dateText key else .attribute key

/-- `_to_list`. -/
def toList (value : Json) : Json :=
  match value with
  | .array elements => .array elements
  | value => .array [value]

/-- `_get_array_filter`. -/
def getArrayFilter (field key : String) (value : Json) : Except QueryError Filter :=
  match value with
  | .array elements => .ok ⟨.attribute field, .contains, .array elements⟩
  | .object ops =>
      if (ops.lookup "$regex").isSome then dictKeyToFilter (.arrayText field) key value
      else
        match ops.lookup "$contains", ops.lookup "$overlap" with
        | some operand, _ => .ok ⟨.attribute field, .contains, operand⟩
        | none, some operand => .ok ⟨.attribute field, .overlap, toList operand⟩
        | none, none => .error (.unsupportedForArray value)
  | value => .ok ⟨.attribute field, .contains, .array [value]⟩

/-- The loop of `_add_json_filter`. It overwrites the operands with their JSON
texts, up to the first `$in` or `$like`; there the column becomes `.astext`. -/
def dumpOperands : List (String × Json) → List (String × Json) × Bool
  | [] => ([], false)
  | (name, operand) :: rest =>
      if name = "$in" ∨ name = "$like" then ((name, operand) :: rest, true)
      else
        let (dumped, asText) := dumpOperands rest
        ((name, .string operand.dumps) :: dumped, asText)

/-- `_add_json_filter`. -/
def addJsonFilter (key : String) (value : Json) (subkey : String) : Except QueryError Filter :=
  match value with
  | .object ops =>
      -- `$exists` asks the element one level above the key
      let nestedKeys :=
        if (ops.lookup "$exists").isSome then (Join.split '.' subkey).dropLast
        else Join.split '.' subkey
      let (dumped, asText) := dumpOperands ops
      dictKeyToFilter (.result nestedKeys asText) key (.object dumped)
  | value => dictKeyToFilter (.result (Join.split '.' subkey) false) key value

/-- `_add_analysis_filter_to_query`. -/
def addAnalysisFilterToQuery (key : String) (value : Json) (subkey : String) :
    Except QueryError Filter :=
  if subkey ∈ analysisColumns then
    if subkey = "summary" then getArrayFilter "summary" key value
    else .ok ⟨.attribute subkey, .eq, value⟩
  else addJsonFilter key value subkey

/-! ## The entries of a search dict -/

/-- `key.startswith('processed_analysis')`. -/
def isAnalysisKey (key : String) : Bool := "processed_analysis".toList.isPrefixOf key.toList

/-- `_, plugin, subkey = key.split('.', maxsplit=2)`. -/
def splitAnalysisKey (key : String) : Except QueryError (Plugin × String) :=
  match Join.splitMax '.' 2 key with
  | [_, plugin, subkey] => .ok (plugin, subkey)
  | _ => .error (.notEnoughValues key)

/-- The condition of an entry on the analysis table. -/
def analysisCondition (key : String) (value : Json) : Except QueryError Condition := do
  let (plugin, subkey) ← splitAnalysisKey key
  let filter ← addAnalysisFilterToQuery key value subkey
  return .analysis plugin filter

/-- The condition of an entry on the firmware table. -/
def firmwareCondition (key : String) (value : Json) : Except QueryError Condition := do
  if key = "firmware_tags" then
    let filter ← getArrayFilter "firmware_tags" key value
    return .firmware filter
  else
    let filter ← dictKeyToFilter (getColumn key) key value
    return .firmware filter

/-- The condition of an entry on the file object table. -/
def fileCondition (key : String) (value : Json) : Except QueryError Condition := do
  let filter ← dictKeyToFilter (getColumn key) key value
  return .file filter

/-- The entries of one level of a search dict, without `$or`. -/
abbrev Entries := Dict String Json

/-- A search dict: either it has no key `$or`, or it is the dict under `$or`
with the other entries beside it. -/
inductive SearchDict where
  | plain (entries : Entries)
  | or (beside : Entries) (sub : SearchDict)

/-- `query_dict['uid'] = query_dict.pop('_id')`, if that key is there. -/
def renameId (entries : Entries) : Entries :=
  match entries.get? "_id" with
  | some value => (entries.erase "_id").set "uid" value
  | none => entries

/-- `get_search_keys_from_dict`. -/
def getSearchKeysFromDict (entries : Entries) (table blacklist : List String) :
    List (String × Json) :=
  entries.items.filter fun entry => entry.1 ∉ blacklist ∧ entry.1 ∈ table

/-- What the translation leaves in the search dict as the value of a key. -/
def rewritten (key : String) (value : Json) : Json :=
  match value, splitAnalysisKey key with
  | .object ops, .ok (_, subkey) =>
      if isAnalysisKey key ∧ subkey ∉ analysisColumns then .object (dumpOperands ops).1
      else .object ops
  | value, _ => value

/-! ## The query -/

/-- The two ways in which the firmware table is joined. -/
inductive JoinKind where
  | inner
  | outer
deriving DecidableEq

/-- What `build_query_from_dict` adds to the select statement it is given:
whether the analysis table is joined, how the firmware table is joined, and the
conditions, combined by `or_` if `any` is set. -/
structure Query where
  joinAnalysis : Bool
  joinFirmware : Option JoinKind
  conditions : List Condition
  any : Bool

/-- `build_query_from_dict`. The search dict is returned as the call leaves it. -/
def buildQueryFromDict : SearchDict → Bool → Except QueryError (Query × SearchDict)
  | .or beside sub, _ => do
      let (query, sub) ← buildQueryFromDict sub true
      return (query, .or beside sub)
  | .plain entries, orQuery => do
      let entries := renameId entries
      let analysisSearch := entries.items.filter fun entry => isAnalysisKey entry.1
      let analysis ← analysisSearch.mapM fun entry => analysisCondition entry.1 entry.2
      let firmwareSearch := getSearchKeysFromDict entries firmwareColumns ["uid"]
      let firmware ← firmwareSearch.mapM fun entry => firmwareCondition entry.1 entry.2
      let fileSearch := getSearchKeysFromDict entries fileColumns []
      let file ← fileSearch.mapM fun entry => fileCondition entry.1 entry.2
      return (
        { joinAnalysis := !analysisSearch.isEmpty
          -- an outer join, so that file objects without firmware still match
          joinFirmware :=
            if firmwareSearch.isEmpty then none else some (if orQuery then .outer else .inner)
          conditions := analysis ++ firmware ++ file
          any := orQuery },
        .plain (entries.map rewritten))

/-! ## What a query selects -/

/-- What the database server makes of a filter on a row of each of the three tables. -/
structure Semantics where
  File : Type
  Firmware : Type
  Analysis : Type
  file : Filter → File → Bool
  firmware : Filter → Firmware → Bool
  analysis : Filter → Analysis → Bool

/-- The tables that are searched. The primary key of the analysis table are the
file and the plugin; `fwFiles` holds pairs (root, file). -/
structure Database (S : Semantics) where
  fileObject : Dict Uid S.File
  firmware : Dict Uid S.Firmware
  analysis : Dict (Uid × Plugin) S.Analysis
  fwFiles : Finset (Uid × Uid)
  firmware_fk : ∀ uid, uid ∈ firmware → uid ∈ fileObject
  analysis_fk : ∀ e, e ∈ analysis → e.1 ∈ fileObject
  fwFiles_fk : ∀ e ∈ fwFiles, e.1 ∈ fileObject ∧ e.2 ∈ fileObject

/-- A row of the joined tables. -/
structure Row (S : Semantics) where
  uid : Uid
  file : S.File
  analysis : Option (Plugin × S.Analysis)
  firmware : Option S.Firmware

/-- Whether a filter is true of a row in which all columns are `NULL`: only `IS NULL` is. -/
def Filter.isNull (filter : Filter) : Bool :=
  match filter.operator, filter.operand with
  | .eq, .null => true
  | _, _ => false

variable {S : Semantics}

/-- Whether a condition is true of a row. -/
def Condition.holds (row : Row S) : Condition → Bool
  | .file filter => S.file filter row.file
  | .firmware filter =>
      match row.firmware with
      | some entry => S.firmware filter entry
      | none => filter.isNull
  | .analysis plugin filter =>
      match row.analysis with
      | some (name, entry) => S.analysis filter entry && decide (name = plugin)
      | none => false

namespace Query

/-- The rows of `file_object`. -/
def fileRows (db : Database S) : List (Row S) :=
  db.fileObject.items.map fun e => ⟨e.1, e.2, none, none⟩

/-- `query.join(AnalysisEntry, AnalysisEntry.uid == FileObjectEntry.uid)`. -/
def withAnalysis (db : Database S) (rows : List (Row S)) : List (Row S) :=
  (Relation.join (fun row e => decide (e.1.1 = row.uid)) rows db.analysis.items).map
    fun p => { p.1 with analysis := some (p.2.1.2, p.2.2) }

/-- The join with `FirmwareEntry`, `FirmwareEntry.uid == FileObjectEntry.uid`. -/
def withFirmware (db : Database S) (kind : JoinKind) (rows : List (Row S)) : List (Row S) :=
  match kind with
  | .inner =>
      (Relation.join (fun row e => decide (e.1 = row.uid)) rows db.firmware.items).map
        fun p => { p.1 with firmware := some p.2.2 }
  | .outer =>
      (Relation.outerJoin (fun row e => decide (e.1 = row.uid)) rows db.firmware.items).map
        fun p => { p.1 with firmware := p.2.map Prod.snd }

/-- The rows of the joined tables. -/
def rows (query : Query) (db : Database S) : List (Row S) :=
  let rows := fileRows db
  let rows := if query.joinAnalysis then withAnalysis db rows else rows
  match query.joinFirmware with
  | none => rows
  | some kind => withFirmware db kind rows

/-- The `WHERE` clause. `or_()` without a condition restricts nothing. -/
def holds (query : Query) (row : Row S) : Bool :=
  if query.any then query.conditions.isEmpty || query.conditions.any (Condition.holds row)
  else query.conditions.all (Condition.holds row)

/-- The rows that the query matches. -/
def matching (query : Query) (db : Database S) : List (Row S) :=
  (query.rows db).filter query.holds

/-- `select(FileObjectEntry)`: the file objects that are selected, each once. -/
def selected (query : Query) (db : Database S) : List Uid :=
  ((query.matching db).map Row.uid).dedup

end Query

end QueryConversion

end FactCore
