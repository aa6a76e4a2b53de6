import Mathlib.Data.Prod.Lex
import FactCore.Lib.Relation
import FactCore.Storage.DbInterfaceCommon

/-! # Reading many objects at once

`storage/db_interface_common.py`: `get_objects_by_uid_list` reads the file objects of a
set of uids by one query, which joins the table of the included files twice, once for the
children and once for the parents. The firmware of the set is read by another query, and
the virtual file paths by a third.

The rows of a query come in the order in which the tables are kept. The order of rows of
the tables that are sets is a parameter.
-/

namespace FactCore

namespace Db

/-- The orders in which the rows of the relations are read. -/
structure RowOrder where
  includedFiles : IterOrder (Uid × Uid)
  fwFiles : IterOrder (Uid × Uid)
  virtualFilePath : IterOrder (Uid × Uid × VPath)

/-- The exception of a lookup in the dictionary of the virtual file paths. -/
structure MissingPaths where
  uid : Uid
deriving DecidableEq, Repr

/-! ## The queries -/

/-- `result.setdefault(file_uid, {}).setdefault(parent_uid, []).append(file_path)`. -/
def appendVfp (result : Dict Uid (Dict Uid (List VPath))) (vfp : Uid × Uid × VPath) :
    Dict Uid (Dict Uid (List VPath)) :=
  result.set vfp.2.1 (((result.get? vfp.2.1).getD ∅).extend vfp.1 [vfp.2.2])

/-- `get_vfps_for_uid_list` without a root. -/
def getVfpsForUidList (db : Db) (order : RowOrder) (uidList : Finset Uid) :
    Dict Uid (Dict Uid (List VPath)) :=
  if uidList = ∅ then ∅
  else (order.virtualFilePath.list (db.virtualFilePath.filter fun e => e.2.1 ∈ uidList)).foldl appendVfp ∅

/-- `get_parent_fw_for_uid_list`. -/
def getParentFwForUidList (db : Db) (order : RowOrder) (uidList : Finset Uid) : Dict Uid (Finset Uid) :=
  (Relation.groupBy Prod.snd Prod.fst
    (order.fwFiles.list (db.fwFiles.filter fun e => e.2 ∈ uidList))).foldl
      (fun parentFw group => parentFw.set group.1 group.2.toFinset) ∅

/-- A row of the joined tables: the file object, a child or `NULL`, and a parent. -/
abbrev JoinedRow := ((Uid × FileObjectEntry) × Option (Uid × Uid)) × Uid × Uid

/-- The joined tables of `get_objects_by_uid_list`, before the aggregation. -/
def joinedRows (db : Db) (order : RowOrder) (uidList : Finset Uid) : List JoinedRow :=
  let includedFiles := order.includedFiles.list db.includedFiles
  let files := db.fileObject.items.filter fun fo => fo.1 ∈ uidList
  -- an outer join, because objects may not have included files
  let withChildren := Relation.outerJoin (fun fo e => decide (e.1 = fo.1)) files includedFiles
  Relation.join (fun row e => decide (e.2 = row.1.1)) withChildren includedFiles

/-- The query of `get_objects_by_uid_list`: a group for each file object, with the children
and the parents of all of its rows. -/
def objectRows (db : Db) (order : RowOrder) (uidList : Finset Uid) :
    List ((Uid × FileObjectEntry) × List (Option Uid × Uid)) :=
  Relation.groupBy (fun row => row.1.1) (fun row => (row.1.2.map Prod.snd, row.2.1))
    (db.joinedRows order uidList)

/-! ## The objects -/

/-- `_populate_fo_data`. The hash and the depth are not read. -/
def populateFoData (uid : Uid) (entry : FileObjectEntry) (firmware : Option FirmwareData)
    (includedFiles : Finset Uid) (parents : List Uid) (virtualFilePaths : Dict Uid (List VPath))
    (parentFw : Finset Uid) : FileObject :=
  { FileObject.new uid "" entry.size entry.fileName with
    firmware := firmware
    comments := entry.comments
    virtualFilePath := virtualFilePaths
    parents := parents
    filesIncluded := includedFiles
    parentFirmwareUids := parentFw }

/-- The metadata that `firmware_from_entry` reads. -/
def firmwareData (entry : FirmwareEntry) : FirmwareData where
  deviceName := entry.deviceName
  version := entry.version
  deviceClass := entry.deviceClass
  vendor := entry.vendor
  part := entry.devicePart
  releaseDate := entry.releaseDate
  tags := entry.firmwareTags

/-- `_firmware_from_entry`, for the firmware rows of the set; it does not read the paths. -/
def firmwareFromEntries (db : Db) (order : RowOrder) (uidList : Finset Uid) : List FileObject :=
  (db.firmware.items.filter fun fw => fw.1 ∈ uidList).filterMap fun fw =>
    (db.fileObject.get? fw.1).map fun rootObject =>
      populateFoData fw.1 rootObject (some (firmwareData fw.2)) (db.childrenOf fw.1)
        ((order.includedFiles.list (db.includedFiles.filter fun e => e.2 = fw.1)).map Prod.fst) ∅ ∅

/-- The comprehension over the rows of the query. -/
def fileObjectFromRow (virtualFilePaths : Dict Uid (Dict Uid (List VPath))) (parentFw : Dict Uid (Finset Uid))
    (row : (Uid × FileObjectEntry) × List (Option Uid × Uid)) : Except MissingPaths FileObject :=
  match virtualFilePaths.get? row.1.1 with
  | none => .error ⟨row.1.1⟩
  | some paths =>
      .ok (populateFoData row.1.1 row.1.2 none
        -- `{f for f in included_files if f}`
        ((row.2.filterMap Prod.fst).filter fun f => f ≠ "").toFinset
        (row.2.map Prod.snd).dedup paths ((parentFw.get? row.1.1).getD ∅))

/-- `get_objects_by_uid_list`. -/
def getObjectsByUidList (db : Db) (order : RowOrder) (uidList : Finset Uid) :
    Except MissingPaths (List FileObject) := do
  let virtualFilePaths := db.getVfpsForUidList order uidList
  let parentFw := db.getParentFwForUidList order uidList
  let fileObjects ← (db.objectRows order uidList).mapM (fileObjectFromRow virtualFilePaths parentFw)
  return fileObjects ++ db.firmwareFromEntries order uidList

variable {db : Db} {order : RowOrder} {uidList : Finset Uid} {uid parent : Uid} {path : VPath}
  {entry : FileObjectEntry} {fo : FileObject}

/-! ## What the queries find -/

/-- `path` is a path of the file in `parent`. -/
def HasPath (db : Db) (parent uid : Uid) (path : VPath) : Prop := (parent, uid, path) ∈ db.virtualFilePath

theorem get?_foldl_appendVfp {l : List (Uid × Uid × VPath)} {result : Dict Uid (Dict Uid (List VPath))} :
    (l.foldl appendVfp result).get? uid =
      if ∃ e ∈ l, e.2.1 = uid then
        some ((l.filter fun e => e.2.1 = uid).foldl (fun d e => d.extend e.1 [e.2.2])
          ((result.get? uid).getD ∅))
      else result.get? uid := by
  induction l generalizing result with
  | nil => simp
  | cons e rest ih =>
      rw [List.foldl_cons, ih]
      by_cases he : e.2.1 = uid
      · have hset : (appendVfp result e).get? uid = some (((result.get? uid).getD ∅).extend e.1 [e.2.2]) := by
          rw [appendVfp, he, Dict.get?_set_self]
        rw [hset, List.filter_cons_of_pos (by simpa using he), List.foldl_cons, Option.getD_some]
        simp only [List.exists_mem_cons_iff, he, true_or, if_true]
        by_cases hrest : ∃ e ∈ rest, e.2.1 = uid
        · rw [if_pos hrest]
        · have hnil : rest.filter (fun e => e.2.1 = uid) = [] := by
            rw [List.filter_eq_nil_iff]
            exact fun e' he' heq => hrest ⟨e', he', of_decide_eq_true heq⟩
          rw [if_neg hrest, hnil]
          rfl
      · have hset : (appendVfp result e).get? uid = result.get? uid := by
          rw [appendVfp, Dict.get?_set_ne _ _ (Ne.symm he)]
        rw [hset, List.filter_cons_of_neg (by simpa using he)]
        simp only [List.exists_mem_cons_iff, he, false_or]

/-- The paths that a dictionary holds are those of the file, each once. -/
structure StoredPaths (db : Db) (uid : Uid) (paths : Dict Uid (List VPath)) : Prop where
  nodup : ∀ parent, ((paths.get? parent).getD []).Nodup
  mem : ∀ parent path, path ∈ (paths.get? parent).getD [] ↔ db.HasPath parent uid path

/-- The paths under one parent are read from the rows of that parent. -/
theorem storedPaths_foldl {l : List (Uid × Uid × VPath)} (hnodup : l.Nodup)
    (hl : ∀ e, e ∈ l ↔ e ∈ db.virtualFilePath ∧ e.2.1 = uid) :
    StoredPaths db uid (l.foldl (fun d e => d.extend e.1 [e.2.2]) ∅) := by
  have hget : ∀ parent, ((l.foldl (fun d e => d.extend e.1 [e.2.2]) (∅ : Dict Uid (List VPath))).get? parent).getD [] =
      (l.filter fun e => e.1 = parent).map fun e => e.2.2 := by
    intro parent
    rw [Dict.get?_foldl_extend (fun e : Uid × Uid × VPath => e.1) (fun e => [e.2.2])]
    have hflat : (l.filter fun e => e.1 = parent).flatMap (fun e => [e.2.2]) =
        (l.filter fun e => e.1 = parent).map fun e => e.2.2 := List.map_eq_flatMap.symm
    split
    · rw [Option.getD_some, hflat]
      rfl
    · rename_i hno
      have hnil : l.filter (fun e => e.1 = parent) = [] := by
        rw [List.filter_eq_nil_iff]
        exact fun e he heq => hno ⟨e, he, of_decide_eq_true heq⟩
      rw [hnil]
      rfl
  refine ⟨fun parent => ?_, fun parent path => ?_⟩
  · rw [hget]
    refine List.Nodup.map_on ?_ (hnodup.filter _)
    intro e he e' he' hpath
    obtain ⟨hrow, hparent⟩ := List.mem_filter.1 he
    obtain ⟨hrow', hparent'⟩ := List.mem_filter.1 he'
    have hsame : e.1 = e'.1 := (of_decide_eq_true hparent).trans (of_decide_eq_true hparent').symm
    have huid : e.2.1 = e'.2.1 := ((hl e).1 hrow).2.trans ((hl e').1 hrow').2.symm
    exact Prod.ext hsame (Prod.ext huid hpath)
  · rw [hget, List.mem_map]
    constructor
    · rintro ⟨⟨p, u, x⟩, he, rfl⟩
      obtain ⟨hmem, hparent⟩ := List.mem_filter.1 he
      obtain ⟨hrow, rfl⟩ := (hl _).1 hmem
      obtain rfl : p = parent := of_decide_eq_true hparent
      exact hrow
    · intro hpath
      exact ⟨(parent, uid, path), List.mem_filter.2 ⟨(hl _).2 ⟨hpath, rfl⟩, decide_eq_true rfl⟩, rfl⟩

/-- A file of the set has an entry iff it has a path. -/
theorem get?_getVfpsForUidList (huid : uid ∈ uidList) :
    ((db.getVfpsForUidList order uidList).get? uid = none ↔ ∀ parent path, ¬db.HasPath parent uid path) ∧
      ∀ paths, (db.getVfpsForUidList order uidList).get? uid = some paths → StoredPaths db uid paths := by
  let rows := order.virtualFilePath.list (db.virtualFilePath.filter fun e => e.2.1 ∈ uidList)
  have hrows : ∀ e, e ∈ rows ↔ e ∈ db.virtualFilePath ∧ e.2.1 ∈ uidList := by
    intro e
    rw [order.virtualFilePath.mem, Finset.mem_filter]
  have hne : uidList ≠ ∅ := Finset.ne_empty_of_mem huid
  have hget : (db.getVfpsForUidList order uidList).get? uid =
      if ∃ e ∈ rows, e.2.1 = uid then
        some ((rows.filter fun e => e.2.1 = uid).foldl (fun d e => d.extend e.1 [e.2.2]) ∅)
      else none := by
    rw [getVfpsForUidList, if_neg hne, get?_foldl_appendVfp]
    rfl
  have hfile : ∀ e, e ∈ rows.filter (fun e => e.2.1 = uid) ↔ e ∈ db.virtualFilePath ∧ e.2.1 = uid := by
    intro e
    rw [List.mem_filter, hrows, decide_eq_true_eq]
    constructor
    · rintro ⟨⟨he, -⟩, heq⟩
      exact ⟨he, heq⟩
    · rintro ⟨he, heq⟩
      exact ⟨⟨he, by rw [heq]; exact huid⟩, heq⟩
  rw [hget]
  constructor
  · rw [ite_eq_right_iff]
    constructor
    · intro h parent path hpath
      have hno := h ⟨(parent, uid, path), (hrows _).2 ⟨hpath, huid⟩, rfl⟩
      cases hno
    · rintro h ⟨⟨parent, u, path⟩, he, rfl⟩
      exact absurd ((hrows _).1 he).1 (h parent path)
  · intro paths hpaths
    split at hpaths
    · cases hpaths
      exact storedPaths_foldl ((order.virtualFilePath.nodup _).filter _) hfile
    · cases hpaths

/-! ## The joined rows -/

/-- What an outer join with the included files adds to a row: a child, or nothing if there is none. -/
def ChildJoined (db : Db) (uid : Uid) : Option (Uid × Uid) → Prop
  | some e => e.1 = uid ∧ db.Included uid e.2
  | none => ∀ child, ¬db.Included uid child

theorem mem_joinedRows {c : Option (Uid × Uid)} {p : Uid × Uid} :
    (((uid, entry), c), p) ∈ db.joinedRows order uidList ↔
      (db.fileObject.get? uid = some entry ∧ uid ∈ uidList) ∧ db.ChildJoined uid c ∧
        p.2 = uid ∧ db.Included p.1 uid := by
  have hfile : (uid, entry) ∈ db.fileObject.items.filter (fun fo => fo.1 ∈ uidList) ↔
      db.fileObject.get? uid = some entry ∧ uid ∈ uidList := by
    rw [List.mem_filter, decide_eq_true_eq, ← Dict.get?_eq_some_iff]
  have hchild : ((uid, entry), c) ∈ Relation.outerJoin (fun fo e => decide (e.1 = fo.1))
      (db.fileObject.items.filter fun fo => fo.1 ∈ uidList) (order.includedFiles.list db.includedFiles) ↔
        (db.fileObject.get? uid = some entry ∧ uid ∈ uidList) ∧ db.ChildJoined uid c := by
    cases c with
    | none =>
        rw [Relation.mem_outerJoin_none, hfile]
        refine and_congr_right fun _ => ⟨fun h child hchild => ?_, fun h e he => ?_⟩
        · have hne := h (uid, child) ((order.includedFiles.mem _ _).2 hchild)
          exact of_decide_eq_false hne rfl
        · refine decide_eq_false fun heq => h e.2 ?_
          have heq : e.1 = uid := heq
          rw [← heq]
          exact (order.includedFiles.mem _ _).1 he
    | some e =>
        rw [Relation.mem_outerJoin_some, hfile, decide_eq_true_eq, order.includedFiles.mem]
        refine and_congr_right fun _ => ⟨?_, ?_⟩
        · rintro ⟨he, rfl⟩
          exact ⟨rfl, he⟩
        · rintro ⟨rfl, he⟩
          exact ⟨he, rfl⟩
  rw [joinedRows, Relation.mem_join, hchild, decide_eq_true_eq, order.includedFiles.mem, and_assoc]
  refine and_congr_right fun _ => and_congr_right fun _ => ⟨?_, ?_⟩
  · rintro ⟨he, rfl⟩
    exact ⟨rfl, he⟩
  · rintro ⟨rfl, he⟩
    exact ⟨he, rfl⟩

theorem exists_childJoined (db : Db) (uid : Uid) : ∃ c, db.ChildJoined uid c := by
  by_cases h : ∃ child, db.Included uid child
  · obtain ⟨child, hchild⟩ := h
    exact ⟨some (uid, child), rfl, hchild⟩
  · exact ⟨none, fun child hchild => h ⟨child, hchild⟩⟩

/-- The inner join keeps the files of the set that are included in another one; their
groups have all of their children and parents. -/
theorem mem_objectRows {values : List (Option Uid × Uid)}
    (h : ((uid, entry), values) ∈ db.objectRows order uidList) :
    (db.fileObject.get? uid = some entry ∧ uid ∈ uidList) ∧ (∃ parent, db.Included parent uid) ∧
      (∀ child, child ∈ values.filterMap Prod.fst ↔ db.Included uid child) ∧
      ∀ parent, parent ∈ values.map Prod.snd ↔ db.Included parent uid := by
  obtain ⟨⟨⟨⟨fo, c⟩, p⟩, hrow, rfl⟩, rfl⟩ := Relation.mem_groupBy.1 h
  obtain ⟨hfile, hchild, -, hparent⟩ := mem_joinedRows.1 hrow
  have hgroup : ∀ row : JoinedRow, row ∈ (db.joinedRows order uidList).filter (fun row => row.1.1 = (uid, entry)) ↔
      row.1.1 = (uid, entry) ∧ db.ChildJoined uid row.1.2 ∧ row.2.2 = uid ∧ db.Included row.2.1 uid := by
    rintro ⟨⟨fo, c⟩, p⟩
    rw [List.mem_filter, decide_eq_true_eq]
    constructor
    · rintro ⟨hmem, rfl⟩
      exact ⟨rfl, (mem_joinedRows.1 hmem).2⟩
    · rintro ⟨rfl, hjoined⟩
      exact ⟨mem_joinedRows.2 ⟨hfile, hjoined⟩, rfl⟩
  refine ⟨hfile, ⟨p.1, hparent⟩, fun child => ?_, fun parent => ?_⟩
  · rw [List.filterMap_map, List.mem_filterMap]
    constructor
    · rintro ⟨⟨⟨fo', c'⟩, p'⟩, hmem, heq⟩
      obtain ⟨-, hchild', -⟩ := (hgroup _).1 hmem
      cases c' with
      | none => cases heq
      | some e =>
          obtain rfl : e.2 = child := Option.some.inj heq
          exact hchild'.2
    · intro hincluded
      exact ⟨(((uid, entry), some (uid, child)), (p.1, uid)),
        (hgroup _).2 ⟨rfl, ⟨rfl, hincluded⟩, rfl, hparent⟩, rfl⟩
  · rw [List.map_map, List.mem_map]
    constructor
    · rintro ⟨row, hmem, rfl⟩
      exact ((hgroup row).1 hmem).2.2.2
    · intro hincluded
      obtain ⟨c', hchild'⟩ := exists_childJoined db uid
      exact ⟨(((uid, entry), c'), (parent, uid)), (hgroup _).2 ⟨rfl, hchild', rfl, hincluded⟩, rfl⟩

theorem exists_mem_objectRows (hentry : db.fileObject.get? uid = some entry) (huid : uid ∈ uidList)
    (hparent : db.Included parent uid) : ∃ values, ((uid, entry), values) ∈ db.objectRows order uidList := by
  obtain ⟨c, hchild⟩ := exists_childJoined db uid
  refine ⟨_, Relation.mem_groupBy.2 ⟨⟨(((uid, entry), c), (parent, uid)), ?_, rfl⟩, rfl⟩⟩
  exact mem_joinedRows.2 ⟨⟨hentry, huid⟩, hchild, rfl, hparent⟩

/-! ## The objects -/

/-- An object of the first query carries what its row says, with the paths of its file. -/
theorem fileObjectFromRow_eq_ok {virtualFilePaths : Dict Uid (Dict Uid (List VPath))}
    {parentFw : Dict Uid (Finset Uid)} {row : (Uid × FileObjectEntry) × List (Option Uid × Uid)}
    (h : fileObjectFromRow virtualFilePaths parentFw row = .ok fo) :
    fo.uid = row.1.1 ∧ fo.isFirmware = false ∧ virtualFilePaths.get? row.1.1 = some fo.virtualFilePath ∧
      fo.parents = (row.2.map Prod.snd).dedup ∧
      fo.filesIncluded = ((row.2.filterMap Prod.fst).filter fun f => f ≠ "").toFinset := by
  unfold fileObjectFromRow at h
  split at h
  · cases h
  · rename_i paths hpaths
    cases h
    exact ⟨rfl, rfl, hpaths, rfl, rfl⟩

/-- The firmware of the set are the objects of the second query. -/
theorem uids_firmwareFromEntries : (db.firmwareFromEntries order uidList).map FileObject.uid =
    (db.firmware.items.filter fun fw => fw.1 ∈ uidList).map Prod.fst := by
  have hrow : ∀ fw ∈ db.firmware.items.filter (fun fw => fw.1 ∈ uidList),
      ((db.fileObject.get? fw.1).map fun rootObject =>
        populateFoData fw.1 rootObject (some (firmwareData fw.2)) (db.childrenOf fw.1)
          ((order.includedFiles.list (db.includedFiles.filter fun e => e.2 = fw.1)).map Prod.fst) ∅ ∅).map
            FileObject.uid = (some ∘ Prod.fst) fw := by
    intro fw hfw
    have hmem : fw.1 ∈ db.firmware :=
      Dict.mem_of_get? (Dict.get?_eq_some_iff.2 (List.mem_filter.1 hfw).1)
    obtain ⟨rootObject, hroot⟩ := Dict.mem_iff.1 (db.firmware_fk fw.1 hmem)
    rw [hroot]
    rfl
  rw [firmwareFromEntries, List.map_filterMap, List.filterMap_congr hrow, List.filterMap_eq_map]

theorem mem_uids_firmwareFromEntries :
    uid ∈ (db.firmwareFromEntries order uidList).map FileObject.uid ↔ uid ∈ db.firmware ∧ uid ∈ uidList := by
  rw [uids_firmwareFromEntries, List.mem_map]
  constructor
  · rintro ⟨fw, hfw, rfl⟩
    obtain ⟨hrow, hin⟩ := List.mem_filter.1 hfw
    exact ⟨Dict.mem_of_get? (Dict.get?_eq_some_iff.2 hrow), of_decide_eq_true hin⟩
  · rintro ⟨hmem, hin⟩
    obtain ⟨fw, hfw⟩ := Dict.mem_iff.1 hmem
    exact ⟨(uid, fw), List.mem_filter.2 ⟨Dict.get?_eq_some_iff.1 hfw, decide_eq_true hin⟩, rfl⟩

/-- A firmware is returned with its parents and children, but without paths. -/
theorem mem_firmwareFromEntries (h : fo ∈ db.firmwareFromEntries order uidList) :
    fo.isFirmware = true ∧ fo.virtualFilePath = ∅ ∧ (∀ parent, parent ∈ fo.parents ↔ db.Included parent fo.uid) ∧
      ∀ child, child ∈ fo.filesIncluded ↔ db.Included fo.uid child := by
  obtain ⟨fw, -, hfo⟩ := List.mem_filterMap.1 h
  obtain ⟨rootObject, -, rfl⟩ := Option.map_eq_some_iff.1 hfo
  refine ⟨rfl, rfl, fun parent => ?_, fun child => mem_childrenOf⟩
  show parent ∈ (order.includedFiles.list (db.includedFiles.filter fun e => e.2 = fw.1)).map Prod.fst ↔ _
  rw [List.mem_map]
  constructor
  · rintro ⟨e, he, rfl⟩
    obtain ⟨he, heq⟩ := Finset.mem_filter.1 ((order.includedFiles.mem _ _).1 he)
    show (e.1, fw.1) ∈ db.includedFiles
    rw [← heq]
    exact he
  · intro hincluded
    exact ⟨(parent, fw.1), (order.includedFiles.mem _ _).2 (Finset.mem_filter.2 ⟨hincluded, rfl⟩), rfl⟩

theorem getObjectsByUidList_eq_ok {objects : List FileObject} :
    db.getObjectsByUidList order uidList = .ok objects ↔
      ∃ fileObjects, (db.objectRows order uidList).mapM (fileObjectFromRow (db.getVfpsForUidList order uidList)
        (db.getParentFwForUidList order uidList)) = .ok fileObjects ∧
          objects = fileObjects ++ db.firmwareFromEntries order uidList := by
  rw [getObjectsByUidList]
  cases (db.objectRows order uidList).mapM (fileObjectFromRow (db.getVfpsForUidList order uidList)
      (db.getParentFwForUidList order uidList)) with
  | error e =>
      constructor
      · intro h
        cases h
      · rintro ⟨_, h, -⟩
        cases h
  | ok fileObjects =>
      constructor
      · intro h
        cases h
        exact ⟨fileObjects, rfl, rfl⟩
      · rintro ⟨_, h, rfl⟩
        cases h
        rfl

/-- An object that is returned is a firmware without paths, or a file that is included
in another one and has the paths of the query. -/
theorem mem_objects {objects : List FileObject} (hok : db.getObjectsByUidList order uidList = .ok objects)
    (hfo : fo ∈ objects) : fo.virtualFilePath = ∅ ∨ ((∃ parent, db.Included parent fo.uid) ∧
      (db.getVfpsForUidList order uidList).get? fo.uid = some fo.virtualFilePath) := by
  obtain ⟨fileObjects, hmapM, rfl⟩ := getObjectsByUidList_eq_ok.1 hok
  rcases List.mem_append.1 hfo with hfile | hfirmware
  · obtain ⟨row, hrow, hread⟩ := (Loop.mem_of_mapM_ok hmapM).1 hfile
    obtain ⟨huid, -, hpaths, -⟩ := fileObjectFromRow_eq_ok hread
    obtain ⟨⟨uid, entry⟩, values⟩ := row
    rw [← huid] at hpaths
    have hparent := (mem_objectRows hrow).2.1
    have huid' : uid = fo.uid := huid.symm
    rw [huid'] at hparent
    exact .inr ⟨hparent, hpaths⟩
  · exact .inl (mem_firmwareFromEntries hfirmware).2.1

/-- No list of paths that the query builds is empty. -/
theorem ne_nil_of_getVfpsForUidList {paths : Dict Uid (List VPath)} {list : List VPath}
    (h : (db.getVfpsForUidList order uidList).get? uid = some paths) (hlist : paths.get? parent = some list) :
    list ≠ [] := by
  unfold getVfpsForUidList at h
  split at h
  · cases h
  · rw [get?_foldl_appendVfp] at h
    split at h
    · obtain rfl := Option.some.inj h
      rw [Dict.get?_empty, Option.getD_none,
        Dict.get?_foldl_extend (fun e : Uid × Uid × VPath => e.1) (fun e => [e.2.2])] at hlist
      split at hlist
      · rename_i hrow
        obtain ⟨e, he, hparent⟩ := hrow
        obtain rfl := Option.some.inj hlist
        intro hnil
        have hflat := List.flatMap_eq_nil_iff.1 (List.append_eq_nil_iff.1 hnil).2
        have hempty := hflat e (List.mem_filter.2 ⟨he, decide_eq_true hparent⟩)
        cases hempty
      · cases hlist
    · cases h

/-- The uids of the objects of the first query are those of its rows. -/
theorem uids_of_mapM {fileObjects : List FileObject} {virtualFilePaths : Dict Uid (Dict Uid (List VPath))}
    {parentFw : Dict Uid (Finset Uid)} {rows : List ((Uid × FileObjectEntry) × List (Option Uid × Uid))}
    (h : rows.mapM (fileObjectFromRow virtualFilePaths parentFw) = .ok fileObjects) :
    fileObjects.map FileObject.uid = rows.map fun row => row.1.1 :=
  Loop.map_of_mapM_ok (fun _ _ hrow => (fileObjectFromRow_eq_ok hrow).1) h

/-- Each object of the set has one row at most. -/
theorem nodup_uids_objectRows : ((db.objectRows order uidList).map fun row => row.1.1).Nodup := by
  have hkeys : ((db.objectRows order uidList).map Prod.fst).Nodup := Relation.nodup_groupBy
  have hmap : (db.objectRows order uidList).map (fun row => row.1.1) =
      ((db.objectRows order uidList).map Prod.fst).map Prod.fst := by
    rw [List.map_map]
    rfl
  rw [hmap]
  refine List.Nodup.map_on ?_ hkeys
  intro fo hfo fo' hfo' huid
  obtain ⟨⟨key, values⟩, hrow, rfl⟩ := List.mem_map.1 hfo
  obtain ⟨⟨key', values'⟩, hrow', rfl⟩ := List.mem_map.1 hfo'
  have hentry := (mem_objectRows hrow).1.1
  have hentry' := (mem_objectRows hrow').1.1
  have huid : key.1 = key'.1 := huid
  rw [huid, hentry'] at hentry
  exact Prod.ext huid (Option.some.inj hentry).symm

/-- Objects with paths are determined by their uids. -/
theorem eq_of_uid_of_paths {objects : List FileObject} (hok : db.getObjectsByUidList order uidList = .ok objects)
    {fo' : FileObject} (hfo : fo ∈ objects) (hfo' : fo' ∈ objects) (hpaths : fo.virtualFilePath ≠ ∅)
    (hpaths' : fo'.virtualFilePath ≠ ∅) (huid : fo'.uid = fo.uid) : fo' = fo := by
  obtain ⟨fileObjects, hmapM, rfl⟩ := getObjectsByUidList_eq_ok.1 hok
  have hfile : ∀ fo ∈ fileObjects ++ db.firmwareFromEntries order uidList, fo.virtualFilePath ≠ ∅ →
      fo ∈ fileObjects := by
    intro fo hmem hne
    rcases List.mem_append.1 hmem with hfile | hfirmware
    · exact hfile
    · exact absurd (mem_firmwareFromEntries hfirmware).2.1 hne
  have hnodup : (fileObjects.map FileObject.uid).Nodup := by
    rw [uids_of_mapM hmapM]
    exact nodup_uids_objectRows
  exact List.inj_on_of_nodup_map hnodup (hfile fo' hfo' hpaths') (hfile fo hfo hpaths) huid

/-! ## When all objects are returned -/

/-- An object is returned as it is stored. -/
structure AsStored (db : Db) (fo : FileObject) : Prop where
  kind : fo.isFirmware = true ↔ fo.uid ∈ db.firmware
  parents : ∀ parent, parent ∈ fo.parents ↔ db.Included parent fo.uid
  children : ∀ child, child ∈ fo.filesIncluded ↔ db.Included fo.uid child
  paths : StoredPaths db fo.uid fo.virtualFilePath

/-- One object is returned for each uid of the set that has a row, as it is stored. -/
structure AllReturned (db : Db) (uidList : Finset Uid) (objects : List FileObject) : Prop where
  once : (objects.map FileObject.uid).Nodup
  found : ∀ uid, uid ∈ objects.map FileObject.uid ↔ uid ∈ uidList ∧ uid ∈ db.fileObject
  asStored : ∀ fo ∈ objects, db.AsStored fo

/-- The objects that the queries return: firmware that is not included in another file,
and other files that are included in one and have a path. -/
def Readable (db : Db) (uid : Uid) : Prop :=
  if uid ∈ db.firmware then (∀ parent, ¬db.Included parent uid) ∧ ∀ parent path, ¬db.HasPath parent uid path
  else (∃ parent, db.Included parent uid) ∧ (∃ parent path, db.HasPath parent uid path) ∧ ¬db.Included uid ""

/-- If all objects of the set can be read, each of them is returned as it is stored. -/
theorem allReturned_of_readable (h : ∀ uid ∈ uidList, uid ∈ db.fileObject → db.Readable uid) :
    ∃ objects, db.getObjectsByUidList order uidList = .ok objects ∧ db.AllReturned uidList objects := by
  -- the rows of the first query are those of files that are no firmware
  have hrows : ∀ row ∈ db.objectRows order uidList, row.1.1 ∉ db.firmware ∧
      (∃ parent path, db.HasPath parent row.1.1 path) ∧ ¬db.Included row.1.1 "" := by
    intro row hrow
    obtain ⟨⟨hentry, hin⟩, ⟨parent, hparent⟩, -⟩ := mem_objectRows hrow
    have hread := h row.1.1 hin (Dict.mem_of_get? hentry)
    unfold Readable at hread
    split at hread
    · exact absurd hparent (hread.1 parent)
    · rename_i hfw
      exact ⟨hfw, hread.2⟩
  obtain ⟨fileObjects, hmapM⟩ : ∃ fileObjects, (db.objectRows order uidList).mapM (fileObjectFromRow
      (db.getVfpsForUidList order uidList) (db.getParentFwForUidList order uidList)) = .ok fileObjects := by
    refine Loop.exists_mapM_ok fun row hrow => ?_
    obtain ⟨⟨-, hin⟩, -⟩ := mem_objectRows hrow
    obtain ⟨-, ⟨parent, path, hpath⟩, -⟩ := hrows row hrow
    unfold fileObjectFromRow
    split
    · rename_i hnone
      exact absurd hpath ((get?_getVfpsForUidList hin).1.1 hnone parent path)
    · exact ⟨_, rfl⟩
  have huids := uids_of_mapM hmapM
  refine ⟨_, getObjectsByUidList_eq_ok.2 ⟨fileObjects, hmapM, rfl⟩, ?_, ?_, ?_⟩
  · rw [List.map_append, huids]
    refine List.Nodup.append nodup_uids_objectRows ?_ ?_
    · rw [uids_firmwareFromEntries]
      exact db.firmware.nodup.sublist (List.filter_sublist.map Prod.fst)
    · intro uid hfile hfirmware
      obtain ⟨row, hrow, rfl⟩ := List.mem_map.1 hfile
      exact (hrows row hrow).1 (mem_uids_firmwareFromEntries.1 hfirmware).1
  · intro uid
    rw [List.map_append, List.mem_append, huids, mem_uids_firmwareFromEntries]
    constructor
    · rintro (hfile | ⟨hfw, hin⟩)
      · obtain ⟨row, hrow, rfl⟩ := List.mem_map.1 hfile
        obtain ⟨⟨hentry, hin⟩, -⟩ := mem_objectRows hrow
        exact ⟨hin, Dict.mem_of_get? hentry⟩
      · exact ⟨hin, db.firmware_fk uid hfw⟩
    · rintro ⟨hin, hmem⟩
      have hread := h uid hin hmem
      unfold Readable at hread
      split at hread
      · rename_i hfw
        exact Or.inr ⟨hfw, hin⟩
      · obtain ⟨entry, hentry⟩ := Dict.mem_iff.1 hmem
        obtain ⟨⟨parent, hparent⟩, -⟩ := hread
        obtain ⟨values, hrow⟩ : ∃ values, ((uid, entry), values) ∈ db.objectRows order uidList :=
          exists_mem_objectRows hentry hin hparent
        exact Or.inl (List.mem_map.2 ⟨_, hrow, rfl⟩)
  · intro fo hfo
    rcases List.mem_append.1 hfo with hfo | hfo
    · obtain ⟨row, hrow, hok⟩ := (Loop.mem_of_mapM_ok hmapM).1 hfo
      obtain ⟨huid, hkind, hpaths, hparents, hchildren⟩ := fileObjectFromRow_eq_ok hok
      obtain ⟨⟨-, hin⟩, -, hallChildren, hallParents⟩ := mem_objectRows hrow
      obtain ⟨hfw, -, hempty⟩ := hrows row hrow
      refine ⟨?_, ?_, ?_, ?_⟩
      · rw [hkind, huid]
        exact ⟨fun hfalse => (by cases hfalse), fun hmem => absurd hmem hfw⟩
      · intro parent
        rw [hparents, huid, List.mem_dedup, hallParents]
      · intro child
        rw [hchildren, huid, List.mem_toFinset, List.mem_filter, hallChildren, decide_eq_true_eq,
          and_iff_left_iff_imp]
        rintro hchild rfl
        exact hempty hchild
      · rw [huid]
        exact (get?_getVfpsForUidList hin).2 _ hpaths
    · obtain ⟨hkind, hpaths, hparents, hchildren⟩ := mem_firmwareFromEntries hfo
      obtain ⟨hfw, hin⟩ := mem_uids_firmwareFromEntries.1 (List.mem_map_of_mem hfo)
      have hread := h fo.uid hin (db.firmware_fk fo.uid hfw)
      rw [Readable, if_pos hfw] at hread
      refine ⟨⟨fun _ => hfw, fun _ => hkind⟩, hparents, hchildren, ?_⟩
      rw [hpaths]
      refine ⟨fun parent => List.nodup_nil, fun parent path => ?_⟩
      exact ⟨fun hmem => absurd hmem List.not_mem_nil, fun hpath => absurd hpath (hread.2 parent path)⟩

/-- What is returned as it is stored can be read. -/
theorem readable_of_allReturned {objects : List FileObject}
    (hok : db.getObjectsByUidList order uidList = .ok objects) (h : db.AllReturned uidList objects)
    (huid : uid ∈ uidList) (hmem : uid ∈ db.fileObject) : db.Readable uid := by
  obtain ⟨fileObjects, hmapM, rfl⟩ := getObjectsByUidList_eq_ok.1 hok
  have huids := uids_of_mapM hmapM
  have honce := h.once
  rw [List.map_append] at honce
  obtain ⟨entry, hentry⟩ := Dict.mem_iff.1 hmem
  unfold Readable
  split
  · rename_i hfw
    have hsecond : uid ∈ (db.firmwareFromEntries order uidList).map FileObject.uid :=
      mem_uids_firmwareFromEntries.2 ⟨hfw, huid⟩
    constructor
    · intro parent hparent
      -- an object of each query
      obtain ⟨values, hrow⟩ : ∃ values, ((uid, entry), values) ∈ db.objectRows order uidList :=
        exists_mem_objectRows hentry huid hparent
      have hfirst : uid ∈ fileObjects.map FileObject.uid := by
        rw [huids]
        exact List.mem_map.2 ⟨_, hrow, rfl⟩
      exact (List.nodup_append.1 honce).2.2 uid hfirst uid hsecond rfl
    · intro parent path hpath
      obtain ⟨fo, hfo, rfl⟩ := List.mem_map.1 hsecond
      have hstored := (h.asStored fo (List.mem_append_right _ hfo)).paths
      rw [(mem_firmwareFromEntries hfo).2.1] at hstored
      exact absurd ((hstored.mem parent path).2 hpath) List.not_mem_nil
  · rename_i hfw
    have hfirst : uid ∈ fileObjects.map FileObject.uid := by
      have hfound := (h.found uid).2 ⟨huid, hmem⟩
      rw [List.map_append, List.mem_append] at hfound
      exact hfound.resolve_right fun hsecond => hfw (mem_uids_firmwareFromEntries.1 hsecond).1
    obtain ⟨fo, hfo, rfl⟩ := List.mem_map.1 hfirst
    obtain ⟨row, hrow, hrowOk⟩ := (Loop.mem_of_mapM_ok hmapM).1 hfo
    obtain ⟨heq, -, hpaths, -, hchildren⟩ := fileObjectFromRow_eq_ok hrowOk
    obtain ⟨-, hparent, -⟩ := mem_objectRows hrow
    rw [← heq] at hparent hpaths
    refine ⟨hparent, ?_, ?_⟩
    · by_contra hno
      have hnone : (db.getVfpsForUidList order uidList).get? fo.uid = none :=
        (get?_getVfpsForUidList huid).1.2 fun parent path hpath => hno ⟨parent, path, hpath⟩
      rw [hnone] at hpaths
      cases hpaths
    · intro hempty
      have hchild := ((h.asStored fo (List.mem_append_left _ hfo)).children "").2 hempty
      rw [hchildren, List.mem_toFinset, List.mem_filter] at hchild
      exact of_decide_eq_true hchild.2 rfl

/-- All objects of a set are returned as they are stored iff all of them can be read. -/
theorem allReturned_iff_readable (db : Db) (order : RowOrder) (uidList : Finset Uid) :
    (∃ objects, db.getObjectsByUidList order uidList = .ok objects ∧ db.AllReturned uidList objects) ↔
      ∀ uid ∈ uidList, uid ∈ db.fileObject → db.Readable uid := by
  constructor
  · rintro ⟨objects, hok, h⟩ uid huid hmem
    exact readable_of_allReturned hok h huid hmem
  · exact allReturned_of_readable

/-- All rows in the order of their columns. -/
def RowOrder.sorted : RowOrder where
  includedFiles := IterOrder.ofEquiv toLex (IterOrder.sorted (Lex (Uid × Uid)))
  fwFiles := IterOrder.ofEquiv toLex (IterOrder.sorted (Lex (Uid × Uid)))
  virtualFilePath := IterOrder.ofEquiv ((Equiv.prodCongr (Equiv.refl Uid) toLex).trans toLex)
    (IterOrder.sorted (Lex (Uid × Lex (Uid × VPath))))

/-- A file that lost its last parent. -/
def orphanDb : Db := Db.empty.putFileObject "f" ⟨"", "init", 1, 1, [], false⟩

/-- Nothing is returned for it. -/
theorem orphanDb_not_returned : ¬∃ objects,
    orphanDb.getObjectsByUidList RowOrder.sorted {"f"} = .ok objects ∧ orphanDb.AllReturned {"f"} objects := by
  rintro ⟨objects, hok, hall⟩
  have hread : orphanDb.Readable "f" :=
    readable_of_allReturned hok hall (Finset.mem_singleton_self "f") (by decide)
  have hfw : "f" ∉ orphanDb.firmware := Dict.notMem_empty "f"
  rw [Readable, if_neg hfw] at hread
  obtain ⟨⟨parent, hparent⟩, -⟩ := hread
  exact absurd hparent (Finset.notMem_empty _)

end Db

end FactCore
