import Mathlib.Data.Prod.Lex
import FactCore.Lib.Join
import FactCore.Lib.Paths
import FactCore.Objects.FileObject

/-! # The migration of the virtual file paths

The migration `a1312300d62d_add_vfp_table`: the upgrade replaces the column
`virtual_file_paths` of the table `file_object` by a table of its own, the downgrade
writes the column again.

The old column maps each root of a file to strings `root|...|parent|path`, one for
each chain of containers from the root to the file and each path of the file in the
last one. The upgrade splits these strings at every `|`, also at those in a path. The
downgrade rebuilds the chains from the table `included_files`. It takes the objects
that no other contains for the roots, writes the column of a root only if the root
contains a file, and does not expect a file without a path in one of its containers.
What it writes is what was there before exactly where none of this matters.
-/

namespace FactCore.Migration

/-- A row of the old table `file_object`, as far as the migration reads or writes it,
with the flag that tells firmware from other files. -/
structure OldFileObjectEntry where
  virtualFilePaths : Dict Uid (List String)
  isFirmware : Bool

/-- The database before the upgrade. `includedFiles` holds pairs (parent, child). -/
structure OldDb where
  fileObject : Dict Uid OldFileObjectEntry
  includedFiles : Finset (Uid × Uid)
  includedFiles_fk : ∀ e ∈ includedFiles, e.1 ∈ fileObject ∧ e.2 ∈ fileObject

/-- A row (parent, file, path) of the new table `virtual_file_path`. -/
abbrev Row := Uid × Uid × VPath

/-! ## Upgrade -/

/-- `_parent_exists` -/
def parentExists (db : OldDb) (parentUid : Uid) : Bool := parentUid ∈ db.fileObject

/-- `[e for e in virtual_path.split('|') if e]` -/
def elements (virtualPath : String) : List String :=
  (Join.split '|' virtualPath).filter fun e => e ≠ ""

/-- The body of the inner loop: the row for one string of the old column, if any. The
last two elements are `parent_uid` and `path`. -/
def vfpEntry (db : OldDb) (uid : Uid) (virtualPath : String) : Option Row :=
  match (elements virtualPath).reverse with
  | path :: parentUid :: _ =>
      if parentExists db parentUid then some (parentUid, uid, path) else none
  | _ => none

/-- `_create_vfp_table_entries`: the rows of the new table. -/
def createVfpTableEntries (db : OldDb) : Finset Row :=
  (db.fileObject.items.flatMap fun item =>
    item.2.virtualFilePaths.values.flatten.filterMap (vfpEntry db item.1)).toFinset

/-! ## Downgrade -/

/-- The dictionary `child_to_parents`; a key is present if its set is not empty. -/
def childToParents (db : OldDb) (child : Uid) : Finset Uid :=
  (db.includedFiles.filter fun e => e.2 = child).image Prod.fst

/-- The keys of `child_to_parents`. -/
def childUids (db : OldDb) : Finset Uid := db.includedFiles.image Prod.snd

/-- `_generate_full_path` -/
def generateFullPath (order : IterOrder Uid) (db : OldDb) (n : Nat) (uid : Uid) :
    Option (List (List Uid)) :=
  Paths.collect (fun child => order.list (childToParents db child)) n uid

/-- `full_paths` -/
def fullPaths (order : IterOrder Uid) (db : OldDb) (n : Nat) :
    Option (List (Uid × List (List Uid))) :=
  (order.list (childUids db)).mapM fun uid =>
    (generateFullPath order db n uid).map fun uidPathList => (uid, uidPathList)

/-- `path_dict` of one file: its paths by parent. -/
def pathDict (rowOrder : IterOrder Row) (rows : Finset Row) (uid : Uid) : Dict Uid (List VPath) :=
  (rowOrder.list (rows.filter fun row => row.2.1 = uid)).foldl
    (fun dict row => dict.extend row.1 [row.2.2]) ∅

/-- The exception of a subscript. -/
structure KeyError where
  key : String
deriving DecidableEq

/-- `uid_list[0]`; the list has at least two elements. -/
def rootUid (uidList : List Uid) : Uid := uidList.headD ""

/-- `uid_list[-2]` -/
def parentUid (uidList : List Uid) : Uid := uidList.dropLast.getLastD ""

/-- The strings of one chain. -/
def joinedPaths (uidList : List Uid) (paths : List VPath) : List String :=
  paths.map fun path => Join.join '|' (uidList.dropLast ++ [path])

/-- The body of the loop over `uid_path_list`. -/
def addPaths (paths : Dict Uid (List VPath)) (vfpDict : Dict Uid (List String))
    (uidList : List Uid) : Except KeyError (Dict Uid (List String)) :=
  match paths.get? (parentUid uidList) with
  | none => .error ⟨parentUid uidList⟩
  | some found => .ok (vfpDict.extend (rootUid uidList) (joinedPaths uidList found))

/-- The column that is written again; an object without an entry has `NULL`. -/
abbrev Columns := Dict Uid (Dict Uid (List String))

/-- The body of the loop over `full_paths`. -/
def writeColumn (rowOrder : IterOrder Row) (rows : Finset Row) (columns : Columns)
    (item : Uid × List (List Uid)) : Except KeyError Columns :=
  (item.2.foldlM (addPaths (pathDict rowOrder rows item.1)) ∅).map fun vfpDict =>
    columns.set item.1 vfpDict

/-- `root_uids` -/
def rootUids (paths : List (Uid × List (List Uid))) : Finset Uid :=
  ((paths.flatMap Prod.snd).map rootUid).toFinset

/-- `_downgrade_vfp_entries` after `full_paths` is computed. -/
def writeColumns (order : IterOrder Uid) (rowOrder : IterOrder Row) (rows : Finset Row)
    (paths : List (Uid × List (List Uid))) : Except KeyError Columns :=
  (paths.foldlM (writeColumn rowOrder rows) ∅).map fun columns =>
    (order.list (rootUids paths)).foldl
      (fun columns uid => columns.set uid ((∅ : Dict Uid (List String)).set uid [uid])) columns

/-- `_downgrade_vfp_entries`, with a bound on the depth of the recursion. -/
def downgradeVfpEntries (order : IterOrder Uid) (rowOrder : IterOrder Row) (db : OldDb)
    (rows : Finset Row) (n : Nat) : Option (Except KeyError Columns) :=
  (fullPaths order db n).map (writeColumns order rowOrder rows)

/-! ## The old column -/

/-- `is_firmware` -/
def OldDb.isFirmware (db : OldDb) (uid : Uid) : Bool :=
  ((db.fileObject.get? uid).map OldFileObjectEntry.isFirmware).getD false

/-- The containers of a file from a firmware down to the file itself. -/
inductive Chain (db : OldDb) : List Uid → Uid → Prop
  | firmware {uid : Uid} (h : db.isFirmware uid = true) : Chain db [uid] uid
  | file {chain : List Uid} {parent uid : Uid} (h : Chain db chain parent)
      (hmem : (parent, uid) ∈ db.includedFiles) : Chain db (chain ++ [uid]) uid

/-- A path of a file in a container that belongs to a chain from `root`. -/
def IsEntry (db : OldDb) (paths : Finset Row) (uid root : Uid) (entry : List Uid × VPath) : Prop :=
  entry.1.head? = some root ∧
    ∃ parent, Chain db entry.1 parent ∧ (parent, uid, entry.2) ∈ paths

/-- A firmware maps to itself. -/
def ownEntry (db : OldDb) (uid root : Uid) : List String :=
  if root = uid ∧ db.isFirmware uid = true then [uid] else []

/-- The list has one joined string for each chain from `root` and path, and nothing else. -/
def Lists (db : OldDb) (paths : Finset Row) (uid root : Uid) (list : List String) : Prop :=
  ∃ entries : List (List Uid × VPath), entries.Nodup ∧
    (∀ entry, entry ∈ entries ↔ IsEntry db paths uid root entry) ∧
    list.Perm (ownEntry db uid root ++
      entries.map fun entry => Join.join '|' (entry.1 ++ [entry.2]))

/-- A consistent database of the old schema, where `paths` are the paths of the files in
their containers. -/
structure Consistent (db : OldDb) (paths : Finset Row) : Prop where
  acyclic : ∀ uid,
    ¬ Relation.TransGen (fun parent child => (parent, child) ∈ db.includedFiles) uid uid
  contained : ∀ row ∈ paths, (row.1, row.2.1) ∈ db.includedFiles
  uids : ∀ uid ∈ db.fileObject, uid ≠ "" ∧ '|' ∉ uid.toList
  listed : ∀ uid entry, db.fileObject.get? uid = some entry → ∀ root list,
    entry.virtualFilePaths.get? root = some list → list ≠ [] ∧ Lists db paths uid root list
  unlisted : ∀ uid entry, db.fileObject.get? uid = some entry → ∀ root,
    entry.virtualFilePaths.get? root = none → Lists db paths uid root []

/-- The same roots, and the same lists for them up to their order. -/
def SameColumn (column column' : Dict Uid (List String)) : Prop :=
  ∀ root, Option.Rel List.Perm (column.get? root) (column'.get? root)

/-- Both directions preserve the data. -/
structure Preserved (order : IterOrder Uid) (rowOrder : IterOrder Row) (db : OldDb)
    (paths : Finset Row) : Prop where
  /-- The upgrade creates exactly the rows that occur in the column. -/
  rows : ∀ row, row ∈ createVfpTableEntries db ↔
    row ∈ paths ∧ ∃ chain, Chain db chain row.1
  /-- The downgrade does not raise, and restores the column of every object. -/
  restored : ∃ columns,
    Loop.Terminates (downgradeVfpEntries order rowOrder db (createVfpTableEntries db))
      (.ok columns) ∧
    ∀ uid entry, db.fileObject.get? uid = some entry → ∃ column,
      columns.get? uid = some column ∧ SameColumn column entry.virtualFilePaths

/-- The firmware objects are those that no other contains, each of them contains a file,
every contained file has a path in its container, and no path is empty or contains the
separator. -/
structure Restorable (db : OldDb) (paths : Finset Row) : Prop where
  roots : ∀ uid ∈ db.fileObject,
    db.isFirmware uid = true ↔ ∀ parent, (parent, uid) ∉ db.includedFiles
  containers : ∀ uid, db.isFirmware uid = true → ∃ file, (uid, file) ∈ db.includedFiles
  located : ∀ edge ∈ db.includedFiles, ∃ path, (edge.1, edge.2, path) ∈ paths
  plain : ∀ row ∈ paths, row.2.2 ≠ "" ∧ '|' ∉ row.2.2.toList

/-! ## The upgrade -/

section

variable {db : OldDb} {paths : Finset Row} {uid root parent : Uid} {virtualPath : String}
  {row : Row}

theorem mem_createVfpTableEntries : row ∈ createVfpTableEntries db ↔
    ∃ uid entry root list virtualPath, db.fileObject.get? uid = some entry ∧
      entry.virtualFilePaths.get? root = some list ∧ virtualPath ∈ list ∧
      vfpEntry db uid virtualPath = some row := by
  simp only [createVfpTableEntries, List.mem_toFinset, List.mem_flatMap, List.mem_filterMap,
    List.mem_flatten, Dict.mem_values]
  constructor
  · rintro ⟨⟨uid, entry⟩, hitem, virtualPath, ⟨list, ⟨root, hroot⟩, hmem⟩, hrow⟩
    exact ⟨uid, entry, root, list, virtualPath, Dict.get?_eq_some_iff.2 hitem, hroot, hmem, hrow⟩
  · rintro ⟨uid, entry, root, list, virtualPath, hentry, hroot, hmem, hrow⟩
    exact ⟨(uid, entry), Dict.get?_eq_some_iff.1 hentry, virtualPath, ⟨list, ⟨root, hroot⟩, hmem⟩,
      hrow⟩

/-- What the upgrade takes for a path is not empty and has no separator. -/
theorem vfpEntry_plain (h : vfpEntry db uid virtualPath = some row) :
    row.2.2 ≠ "" ∧ '|' ∉ row.2.2.toList := by
  rw [vfpEntry] at h
  split at h
  · rename_i path parentUid rest hreverse
    split at h
    · obtain rfl : (parentUid, uid, path) = row := by simpa using h
      have hmem : path ∈ elements virtualPath := by
        rw [← List.mem_reverse, hreverse]
        exact List.mem_cons_self
      obtain ⟨hsplit, hne⟩ := List.mem_filter.1 hmem
      exact ⟨of_decide_eq_true hne, Join.notMem_of_mem_split hsplit⟩
    · cases h
  · cases h

/-- Joined strings without the separator are found again. -/
theorem elements_join {parts : List String} (hparts : ∀ part ∈ parts, part ≠ "" ∧ '|' ∉ part.toList)
    (hne : parts ≠ []) : elements (Join.join '|' parts) = parts := by
  rw [elements, Join.split_join (fun part hpart => (hparts part hpart).2) hne,
    List.filter_eq_self]
  intro part hpart
  exact decide_eq_true (hparts part hpart).1

theorem vfpEntry_join {chain : List Uid} {path : VPath} (hlast : chain.getLast? = some parent)
    (hchain : ∀ part ∈ chain, part ≠ "" ∧ '|' ∉ part.toList)
    (hpath : path ≠ "" ∧ '|' ∉ path.toList) (hparent : parent ∈ db.fileObject) :
    vfpEntry db uid (Join.join '|' (chain ++ [path])) = some (parent, uid, path) := by
  have hparts : ∀ part ∈ chain ++ [path], part ≠ "" ∧ '|' ∉ part.toList := by
    intro part hpart
    rcases List.mem_append.1 hpart with hpart | hpart
    · exact hchain part hpart
    · rw [List.mem_singleton.1 hpart]
      exact hpath
  obtain ⟨front, rfl⟩ : ∃ front, chain = front ++ [parent] := by
    rw [List.getLast?_eq_some_iff] at hlast
    exact hlast
  rw [vfpEntry, elements_join hparts (by simp)]
  simp [parentExists, hparent]

/-- The upgrade skips the string of a root. -/
theorem vfpEntry_own (huid : uid ≠ "" ∧ '|' ∉ uid.toList) : vfpEntry db root uid = none := by
  have hself : uid = Join.join '|' [uid] := by simp [Join.join]
  rw [vfpEntry, hself, elements_join (by simpa using huid) (by simp)]
  rfl

theorem Chain.getLast? {chain : List Uid} (h : Chain db chain uid) : chain.getLast? = some uid := by
  cases h with
  | firmware => rfl
  | file => simp

theorem Chain.ne_nil {chain : List Uid} (h : Chain db chain uid) : chain ≠ [] := by
  cases h <;> simp

theorem mem_fileObject_of_isFirmware (h : db.isFirmware uid = true) : uid ∈ db.fileObject := by
  rw [OldDb.isFirmware] at h
  cases hget : db.fileObject.get? uid with
  | none => simp [hget] at h
  | some entry => exact Dict.mem_of_get? hget

theorem Chain.mem {chain : List Uid} (h : Chain db chain uid) :
    ∀ part ∈ chain, part ∈ db.fileObject := by
  induction h with
  | firmware hfirmware =>
      intro part hpart
      rw [List.mem_singleton.1 hpart]
      exact mem_fileObject_of_isFirmware hfirmware
  | file _ hmem ih =>
      intro part hpart
      rcases List.mem_append.1 hpart with hpart | hpart
      · exact ih part hpart
      · rw [List.mem_singleton.1 hpart]
        exact (db.includedFiles_fk _ hmem).2

/-- What is in the column: the string of a root, or one for a chain and a path. -/
theorem Lists.mem_iff {list : List String} (h : Lists db paths uid root list) :
    virtualPath ∈ list ↔ virtualPath ∈ ownEntry db uid root ∨
      ∃ entry, IsEntry db paths uid root entry ∧
        virtualPath = Join.join '|' (entry.1 ++ [entry.2]) := by
  obtain ⟨entries, -, hentries, hperm⟩ := h
  rw [hperm.mem_iff, List.mem_append, List.mem_map]
  constructor
  · rintro (hown | ⟨entry, hentry, rfl⟩)
    · exact Or.inl hown
    · exact Or.inr ⟨entry, (hentries entry).1 hentry, rfl⟩
  · rintro (hown | ⟨entry, hentry, rfl⟩)
    · exact Or.inl hown
    · exact Or.inr ⟨entry, (hentries entry).2 hentry, rfl⟩

theorem mem_ownEntry : virtualPath ∈ ownEntry db uid root ↔
    virtualPath = uid ∧ root = uid ∧ db.isFirmware uid = true := by
  rw [ownEntry]
  split
  · rename_i h
    simp [h]
  · rename_i h
    simp [h]

/-- A path that occurs in the column is an entry of it. -/
theorem Consistent.exists_list (h : Consistent db paths) {chain : List Uid} {file : Uid}
    {path : VPath} (hchain : Chain db chain parent) (hpath : (parent, file, path) ∈ paths) :
    ∃ entry root list, db.fileObject.get? file = some entry ∧
      entry.virtualFilePaths.get? root = some list ∧
      Join.join '|' (chain ++ [path]) ∈ list := by
  have hfile : file ∈ db.fileObject := (db.includedFiles_fk _ (h.contained _ hpath)).2
  obtain ⟨entry, hentry⟩ := Dict.mem_iff.1 hfile
  obtain ⟨root, hroot⟩ : ∃ root, chain.head? = some root := by
    cases chain with
    | nil => exact absurd rfl hchain.ne_nil
    | cons root rest => exact ⟨root, rfl⟩
  have hin : IsEntry db paths file root (chain, path) := ⟨hroot, parent, hchain, hpath⟩
  cases hget : entry.virtualFilePaths.get? root with
  | none =>
      have hmem := (h.unlisted file entry hentry root hget).mem_iff.2
        (Or.inr ⟨_, hin, rfl⟩)
      exact absurd hmem List.not_mem_nil
  | some list =>
      exact ⟨entry, root, list, hentry, hget,
        (h.listed file entry hentry root list hget).2.mem_iff.2 (Or.inr ⟨_, hin, rfl⟩)⟩

/-- If no path is empty or contains the separator, the upgrade creates the right rows. -/
theorem Consistent.mem_createVfpTableEntries_iff (h : Consistent db paths)
    (hplain : ∀ row ∈ paths, row.2.2 ≠ "" ∧ '|' ∉ row.2.2.toList) :
    row ∈ createVfpTableEntries db ↔ row ∈ paths ∧ ∃ chain, Chain db chain row.1 := by
  have hparse : ∀ {chain parent file path}, Chain db chain parent → (parent, file, path) ∈ paths →
      vfpEntry db file (Join.join '|' (chain ++ [path])) = some (parent, file, path) := by
    intro chain parent file path hchain hpath
    exact vfpEntry_join hchain.getLast? (fun part hpart => h.uids part (hchain.mem part hpart))
      (hplain _ hpath) (db.includedFiles_fk _ (h.contained _ hpath)).1
  rw [mem_createVfpTableEntries]
  constructor
  · rintro ⟨uid, entry, root, list, virtualPath, hentry, hroot, hmem, hrow⟩
    rcases (h.listed uid entry hentry root list hroot).2.mem_iff.1 hmem with hown | hin
    · obtain ⟨rfl, -, -⟩ := mem_ownEntry.1 hown
      rw [vfpEntry_own (h.uids _ (Dict.mem_of_get? hentry))] at hrow
      cases hrow
    · obtain ⟨⟨chain, path⟩, ⟨-, parent, hchain, hpath⟩, rfl⟩ := hin
      rw [hparse hchain hpath] at hrow
      obtain rfl := Option.some.inj hrow
      exact ⟨hpath, chain, hchain⟩
  · obtain ⟨parent, file, path⟩ := row
    rintro ⟨hpath, chain, hchain⟩
    obtain ⟨entry, root, list, hentry, hget, hmem⟩ := h.exists_list hchain hpath
    exact ⟨file, entry, root, list, _, hentry, hget, hmem, hparse hchain hpath⟩

end

/-! ## The downgrade -/

section

variable {order : IterOrder Uid} {rowOrder : IterOrder Row} {db : OldDb} {rows : Finset Row}
  {uid root parent child : Uid} {path : VPath}

theorem mem_childToParents : parent ∈ childToParents db child ↔ (parent, child) ∈ db.includedFiles := by
  simp only [childToParents, Finset.mem_image, Finset.mem_filter]
  constructor
  · rintro ⟨⟨p, c⟩, ⟨hmem, rfl⟩, rfl⟩
    exact hmem
  · intro hmem
    exact ⟨(parent, child), ⟨hmem, rfl⟩, rfl⟩

theorem mem_childUids : child ∈ childUids db ↔ ∃ parent, (parent, child) ∈ db.includedFiles := by
  simp only [childUids, Finset.mem_image]
  constructor
  · rintro ⟨⟨p, c⟩, hmem, rfl⟩
    exact ⟨p, hmem⟩
  · rintro ⟨parent, hmem⟩
    exact ⟨(parent, child), hmem, rfl⟩

variable (order db) in
/-- The parents of a file in the order in which they are visited. -/
def parents (child : Uid) : List Uid := order.list (childToParents db child)

theorem mem_parents : parent ∈ parents order db child ↔ (parent, child) ∈ db.includedFiles := by
  rw [parents, order.mem, mem_childToParents]

/-- Without cycles the recursion ends for every file. -/
theorem acc_parents (order : IterOrder Uid) (hacyclic : ∀ uid,
    ¬ Relation.TransGen (fun parent child => (parent, child) ∈ db.includedFiles) uid uid)
    (uid : Uid) : Acc (fun parent child => parent ∈ parents order db child) uid := by
  have hall : ∀ child parent, parent ∈ parents order db child →
      parent ∈ db.includedFiles.image Prod.fst := by
    intro child parent hmem
    exact Finset.mem_image_of_mem Prod.fst (mem_parents.1 hmem)
  refine Paths.acc_of_cycleFree (Paths.finite_reach hall uid) fun other _ hcycle => ?_
  have hback : Relation.TransGen
      (Function.swap fun parent child => (parent, child) ∈ db.includedFiles) other other :=
    Relation.TransGen.mono (fun child parent hmem => mem_parents.1 hmem) _ _ hcycle
  exact hacyclic other (Relation.transGen_swap.1 hback)

/-- The chains that the recursion finds. -/
structure FullPaths (order : IterOrder Uid) (db : OldDb) (found : Uid → List (List Uid)) : Prop where
  mem : ∀ uid path, path ∈ found uid ↔
    parents order db uid ≠ [] ∧ Paths.Trail (parents order db) uid path
  nodup : ∀ uid, (found uid).Nodup

theorem exists_fullPaths (order : IterOrder Uid) (hacyclic : ∀ uid,
    ¬ Relation.TransGen (fun parent child => (parent, child) ∈ db.includedFiles) uid uid) :
    ∃ found, FullPaths order db found ∧
      Loop.Terminates (fullPaths order db)
        ((order.list (childUids db)).map fun uid => (uid, found uid)) := by
  have hends : ∀ uid, ∃ found, Loop.Terminates (fun n => generateFullPath order db n uid) found :=
    fun uid => Paths.collect_terminates (acc_parents order hacyclic uid)
  choose found hfound using hends
  refine ⟨found, ?_, ?_⟩
  · constructor
    · intro uid path
      obtain ⟨n, hn⟩ := hfound uid
      exact Paths.mem_collect (hn n (Nat.le_refl n))
    · intro uid
      obtain ⟨n, hn⟩ := hfound uid
      exact Paths.nodup_collect (fun child => order.nodup _) (hn n (Nat.le_refl n))
  · have hlist : ∀ uid ∈ order.list (childUids db),
        Loop.Terminates (fun n => generateFullPath order db n uid) (found uid) :=
      fun uid _ => hfound uid
    obtain ⟨n, hn⟩ := Loop.exists_common_bound hlist
    refine ⟨n, fun m hm => ?_⟩
    rw [fullPaths, Paths.mapM_eq_some_iff, List.map_map]
    exact List.map_congr_left fun uid huid => by
      rw [hn m hm uid huid]
      rfl

/-- The paths of a file in one container. -/
def pathsIn (rowOrder : IterOrder Row) (rows : Finset Row) (uid parent : Uid) : List VPath :=
  ((rowOrder.list (rows.filter fun row => row.2.1 = uid)).filter fun row => row.1 = parent).map
    fun row => row.2.2

theorem mem_pathsIn : path ∈ pathsIn rowOrder rows uid parent ↔ (parent, uid, path) ∈ rows := by
  simp only [pathsIn, List.mem_map, List.mem_filter, rowOrder.mem, Finset.mem_filter,
    decide_eq_true_eq]
  constructor
  · rintro ⟨⟨p, u, q⟩, ⟨⟨hmem, rfl⟩, rfl⟩, rfl⟩
    exact hmem
  · intro hmem
    exact ⟨(parent, uid, path), ⟨⟨hmem, rfl⟩, rfl⟩, rfl⟩

theorem nodup_pathsIn : (pathsIn rowOrder rows uid parent).Nodup := by
  refine List.Nodup.map_on ?_ ((rowOrder.nodup _).filter _)
  rintro ⟨p, u, q⟩ h ⟨p', u', q'⟩ h' rfl
  simp only [List.mem_filter, rowOrder.mem, Finset.mem_filter, decide_eq_true_eq] at h h'
  obtain ⟨⟨-, rfl⟩, rfl⟩ := h
  obtain ⟨⟨-, rfl⟩, rfl⟩ := h'
  rfl

theorem get?_pathDict : (pathDict rowOrder rows uid).get? parent =
    if pathsIn rowOrder rows uid parent = [] then none
    else some (pathsIn rowOrder rows uid parent) := by
  have hempty : pathsIn rowOrder rows uid parent = [] ↔
      ¬ ∃ row ∈ rowOrder.list (rows.filter fun row => row.2.1 = uid), row.1 = parent := by
    rw [pathsIn, List.map_eq_nil_iff, List.filter_eq_nil_iff]
    simp only [decide_eq_true_eq, not_exists, not_and]
  rw [pathDict, Dict.get?_foldl_extend]
  by_cases hnil : pathsIn rowOrder rows uid parent = []
  · rw [if_neg (hempty.1 hnil), if_pos hnil]
    rfl
  · rw [if_pos (not_not.1 fun hno => hnil (hempty.2 hno)), if_neg hnil]
    simp [pathsIn, List.map_eq_flatMap]

/-! ### The columns that are written -/

/-- The column of a file in a run that does not raise. -/
def vfpOf (rowOrder : IterOrder Row) (rows : Finset Row) (found : Uid → List (List Uid))
    (uid : Uid) : Dict Uid (List String) :=
  (found uid).foldl (fun vfpDict uidList => vfpDict.extend (rootUid uidList)
    (joinedPaths uidList (pathsIn rowOrder rows uid (parentUid uidList)))) ∅

/-- All columns in a run that does not raise. -/
def columnsOf (order : IterOrder Uid) (rowOrder : IterOrder Row) (db : OldDb) (rows : Finset Row)
    (found : Uid → List (List Uid)) : Columns :=
  (order.list (rootUids ((order.list (childUids db)).map fun uid => (uid, found uid)))).foldl
    (fun columns uid => columns.set uid ((∅ : Dict Uid (List String)).set uid [uid]))
    ((order.list (childUids db)).foldl
      (fun columns uid => columns.set uid (vfpOf rowOrder rows found uid)) ∅)

/-- Every file has a path in each container from which a chain comes. -/
def Present (rowOrder : IterOrder Row) (db : OldDb) (rows : Finset Row)
    (found : Uid → List (List Uid)) : Prop :=
  ∀ uid ∈ childUids db, ∀ uidList ∈ found uid,
    pathsIn rowOrder rows uid (parentUid uidList) ≠ []

variable {found : Uid → List (List Uid)} {columns : Columns}

theorem addPaths_eq (vfpDict : Dict Uid (List String)) (uidList : List Uid) :
    addPaths (pathDict rowOrder rows uid) vfpDict uidList =
      if pathsIn rowOrder rows uid (parentUid uidList) = [] then .error ⟨parentUid uidList⟩
      else .ok (vfpDict.extend (rootUid uidList)
        (joinedPaths uidList (pathsIn rowOrder rows uid (parentUid uidList)))) := by
  rw [addPaths, get?_pathDict]
  by_cases hnil : pathsIn rowOrder rows uid (parentUid uidList) = []
  · simp [hnil]
  · simp [hnil]

theorem addPaths_ok {vfpDict : Dict Uid (List String)} {uidList : List Uid}
    (h : pathsIn rowOrder rows uid (parentUid uidList) ≠ []) :
    addPaths (pathDict rowOrder rows uid) vfpDict uidList = .ok (vfpDict.extend (rootUid uidList)
      (joinedPaths uidList (pathsIn rowOrder rows uid (parentUid uidList)))) := by
  rw [addPaths_eq, if_neg h]

/-- The downgrade raises unless every path is present. -/
theorem writeColumns_ok (h : Present rowOrder db rows found) :
    writeColumns order rowOrder rows ((order.list (childUids db)).map fun uid => (uid, found uid)) =
      .ok (columnsOf order rowOrder db rows found) := by
  have hitem : ∀ uid ∈ childUids db,
      (found uid).foldlM (addPaths (pathDict rowOrder rows uid)) ∅ =
        .ok (vfpOf rowOrder rows found uid) := by
    intro uid huid
    have hpresent : ∀ uidList ∈ found uid, pathsIn rowOrder rows uid (parentUid uidList) ≠ [] :=
      h uid huid
    exact Loop.foldlM_ok (fun _ _ => addPaths_ok) hpresent
  have hall : ∀ item ∈ (order.list (childUids db)).map fun uid => (uid, found uid),
      item.2 = found item.1 ∧ item.1 ∈ childUids db := by
    intro item hmem
    obtain ⟨uid, huid, rfl⟩ := List.mem_map.1 hmem
    exact ⟨rfl, (order.mem _ _).1 huid⟩
  have hloop : ((order.list (childUids db)).map fun uid => (uid, found uid)).foldlM
      (writeColumn rowOrder rows) ∅ =
        .ok (((order.list (childUids db)).map fun uid => (uid, found uid)).foldl
          (fun columns item => columns.set item.1 (vfpOf rowOrder rows found item.1)) ∅) := by
    refine Loop.foldlM_ok (fun columns item hitem' => ?_) hall
    rw [writeColumn, hitem'.1, hitem item.1 hitem'.2]
    rfl
  rw [writeColumns, hloop, List.foldl_map]
  rfl

theorem present_of_ok
    (h : writeColumns order rowOrder rows
      ((order.list (childUids db)).map fun uid => (uid, found uid)) = .ok columns) :
    Present rowOrder db rows found := by
  obtain ⟨columns', hloop⟩ : ∃ columns', ((order.list (childUids db)).map fun uid =>
      (uid, found uid)).foldlM (writeColumn rowOrder rows) ∅ = .ok columns' := by
    rw [writeColumns] at h
    cases hloop : ((order.list (childUids db)).map fun uid =>
        (uid, found uid)).foldlM (writeColumn rowOrder rows) ∅ with
    | error e =>
        rw [hloop] at h
        cases h
    | ok columns' => exact ⟨columns', rfl⟩
  intro uid huid
  have hitem := Loop.of_foldlM_ok (P := fun item : Uid × List (List Uid) => ∃ vfpDict,
      item.2.foldlM (addPaths (pathDict rowOrder rows item.1)) ∅ = .ok vfpDict)
    (fun columns item r hr => by
      rw [writeColumn] at hr
      cases hinner : item.2.foldlM (addPaths (pathDict rowOrder rows item.1)) ∅ with
      | error e =>
          rw [hinner] at hr
          cases hr
      | ok vfpDict => exact ⟨vfpDict, rfl⟩)
    hloop (uid, found uid) (List.mem_map_of_mem ((order.mem _ _).2 huid))
  obtain ⟨vfpDict, hinner⟩ := hitem
  refine Loop.of_foldlM_ok (fun vfpDict uidList r hr => ?_) hinner
  intro hnil
  rw [addPaths_eq, if_pos hnil] at hr
  cases hr

theorem mem_rootUids : root ∈ rootUids ((order.list (childUids db)).map fun uid => (uid, found uid)) ↔
    ∃ uid ∈ childUids db, ∃ uidList ∈ found uid, rootUid uidList = root := by
  simp only [rootUids, List.mem_toFinset, List.mem_map, List.mem_flatMap, order.mem]
  constructor
  · rintro ⟨uidList, ⟨_, ⟨uid, huid, rfl⟩, hmem⟩, hroot⟩
    exact ⟨uid, huid, uidList, hmem, hroot⟩
  · rintro ⟨uid, huid, uidList, hmem, hroot⟩
    exact ⟨uidList, ⟨_, ⟨uid, huid, rfl⟩, hmem⟩, hroot⟩

theorem get?_columnsOf : (columnsOf order rowOrder db rows found).get? uid =
    if uid ∈ rootUids ((order.list (childUids db)).map fun uid => (uid, found uid)) then
      some ((∅ : Dict Uid (List String)).set uid [uid])
    else if uid ∈ childUids db then some (vfpOf rowOrder rows found uid) else none := by
  rw [columnsOf, Dict.get?_foldl_set, Dict.get?_foldl_set]
  simp only [order.mem, Dict.get?_empty]

theorem get?_vfpOf : (vfpOf rowOrder rows found uid).get? root =
    if ∃ uidList ∈ found uid, rootUid uidList = root then
      some (((found uid).filter fun uidList => rootUid uidList = root).flatMap fun uidList =>
        joinedPaths uidList (pathsIn rowOrder rows uid (parentUid uidList)))
    else none := by
  rw [vfpOf, Dict.get?_foldl_extend]
  rfl

/-! ### Chains -/

/-- A chain that is found ends with an edge. -/
theorem FullPaths.exists_parent (h : FullPaths order db found) {uidList : List Uid}
    (hmem : uidList ∈ found uid) : ∃ chain parent, uidList = chain ++ [uid] ∧
      Paths.Trail (parents order db) parent chain ∧ (parent, uid) ∈ db.includedFiles ∧
      parentUid uidList = parent ∧ chain.head? = some (rootUid uidList) := by
  obtain ⟨hne, htrail⟩ := (h.mem uid uidList).1 hmem
  cases htrail with
  | start hnil => exact absurd hnil hne
  | @extend _ parent chain hparent htrail =>
      refine ⟨chain, parent, rfl, htrail, mem_parents.1 hparent, ?_, ?_⟩
      · rw [parentUid, List.dropLast_concat, List.getLastD_eq_getLast?, htrail.getLast?]
        rfl
      · obtain ⟨r, hr, -⟩ := htrail.exists_head
        rw [rootUid, List.headD_eq_head?_getD, List.head?_append, hr]
        rfl

/-- A chain is found for every edge and every way to its parent. -/
theorem FullPaths.mem_of_trail (h : FullPaths order db found) {chain : List Uid}
    (htrail : Paths.Trail (parents order db) parent chain)
    (hedge : (parent, uid) ∈ db.includedFiles) : chain ++ [uid] ∈ found uid := by
  have hmem : parent ∈ parents order db uid := mem_parents.2 hedge
  exact (h.mem uid _).2 ⟨List.ne_nil_of_mem hmem, .extend hmem htrail⟩

/-- The roots are contained in nothing. -/
theorem FullPaths.root_uncontained (h : FullPaths order db found) {uidList : List Uid}
    (hmem : uidList ∈ found uid) : ∀ parent, (parent, rootUid uidList) ∉ db.includedFiles := by
  obtain ⟨chain, parent, -, htrail, -, -, hhead⟩ := h.exists_parent hmem
  obtain ⟨r, hr, hnil⟩ := htrail.exists_head
  obtain rfl : rootUid uidList = r := by simpa [hhead] using hr
  intro p hp
  have hin : p ∈ parents order db (rootUid uidList) := mem_parents.2 hp
  rw [hnil] at hin
  cases hin

/-! ### What is restored -/

variable {paths : Finset Row}

/-- Where the firmware objects are the roots, the chains are those that are found. -/
theorem chain_iff_trail
    (hroots : ∀ uid ∈ db.fileObject,
      db.isFirmware uid = true ↔ ∀ parent, (parent, uid) ∉ db.includedFiles)
    (huid : uid ∈ db.fileObject) {chain : List Uid} :
    Chain db chain uid ↔ Paths.Trail (parents order db) uid chain := by
  constructor
  · intro h
    induction h with
    | @firmware uid hfirmware =>
        apply Paths.Trail.start
        rw [List.eq_nil_iff_forall_not_mem]
        exact fun parent hparent =>
          (hroots uid huid).1 hfirmware parent (mem_parents.1 hparent)
    | @file chain parent uid _ hmem ih =>
        exact .extend (mem_parents.2 hmem) (ih (db.includedFiles_fk _ hmem).1)
  · intro h
    induction h with
    | @start uid hnil =>
        refine .firmware ((hroots uid huid).2 fun parent hparent => ?_)
        have hmem : parent ∈ parents order db uid := mem_parents.2 hparent
        rw [hnil] at hmem
        cases hmem
    | @extend uid parent chain hmem _ ih =>
        have hedge := mem_parents.1 hmem
        exact .file (ih (db.includedFiles_fk _ hedge).1) hedge

/-- The strings that the downgrade writes for one root, as chains and paths. -/
def entriesOf (rowOrder : IterOrder Row) (rows : Finset Row) (found : Uid → List (List Uid))
    (uid root : Uid) : List (List Uid × VPath) :=
  ((found uid).filter fun uidList => rootUid uidList = root).flatMap fun uidList =>
    (pathsIn rowOrder rows uid (parentUid uidList)).map fun path => (uidList.dropLast, path)

theorem nodup_entriesOf (h : FullPaths order db found) :
    (entriesOf rowOrder rows found uid root).Nodup := by
  rw [entriesOf, List.nodup_flatMap]
  constructor
  · intro uidList _
    exact nodup_pathsIn.map fun path path' heq => (Prod.mk.inj heq).2
  · refine ((h.nodup uid).filter _).pairwise_of_forall_ne ?_
    intro uidList hmem uidList' hmem' hne entry hentry hentry'
    obtain ⟨path, -, rfl⟩ := List.mem_map.1 hentry
    obtain ⟨path', -, heq⟩ := List.mem_map.1 hentry'
    obtain ⟨chain, -, rfl, -⟩ := h.exists_parent (List.mem_filter.1 hmem).1
    obtain ⟨chain', -, rfl, -⟩ := h.exists_parent (List.mem_filter.1 hmem').1
    rw [List.dropLast_concat, List.dropLast_concat] at heq
    exact hne (by rw [(Prod.mk.inj heq).1])

theorem mem_entriesOf (h : FullPaths order db found)
    (hedges : ∀ row ∈ rows, (row.1, row.2.1) ∈ db.includedFiles) {entry : List Uid × VPath} :
    entry ∈ entriesOf rowOrder rows found uid root ↔ entry.1.head? = some root ∧
      ∃ parent, Paths.Trail (parents order db) parent entry.1 ∧ (parent, uid, entry.2) ∈ rows := by
  obtain ⟨chain, path⟩ := entry
  simp only [entriesOf, List.mem_flatMap, List.mem_filter, List.mem_map, decide_eq_true_eq,
    Prod.mk.injEq, mem_pathsIn]
  constructor
  · rintro ⟨uidList, ⟨hmem, rfl⟩, path, hpath, rfl, rfl⟩
    obtain ⟨chain, parent, rfl, htrail, -, hparent, hhead⟩ := h.exists_parent hmem
    rw [List.dropLast_concat]
    exact ⟨hhead, parent, htrail, hparent ▸ hpath⟩
  · rintro ⟨hhead, parent, htrail, hpath⟩
    have hmem := h.mem_of_trail htrail (hedges _ hpath)
    obtain ⟨chain', parent', heq, htrail', -, hparent, hhead'⟩ := h.exists_parent hmem
    obtain rfl : chain = chain' := List.append_cancel_right heq
    obtain rfl : parent = parent' := by
      have hlast := htrail.getLast?
      rw [htrail'.getLast?] at hlast
      exact (Option.some.inj hlast).symm
    refine ⟨chain ++ [uid], ⟨hmem, ?_⟩, path, ?_, List.dropLast_concat, rfl⟩
    · rw [hhead'] at hhead
      exact Option.some.inj hhead
    · rw [hparent]
      exact hpath

theorem joinedPaths_entriesOf : ((found uid).filter fun uidList => rootUid uidList = root).flatMap
    (fun uidList => joinedPaths uidList (pathsIn rowOrder rows uid (parentUid uidList))) =
      (entriesOf rowOrder rows found uid root).map fun entry =>
        Join.join '|' (entry.1 ++ [entry.2]) := by
  rw [entriesOf, List.map_flatMap]
  simp [joinedPaths, Function.comp_def]

/-- Where the firmware objects are the roots, every object is in a chain. -/
theorem Consistent.exists_chain (h : Consistent db paths) (order : IterOrder Uid)
    (hroots : ∀ uid ∈ db.fileObject,
      db.isFirmware uid = true ↔ ∀ parent, (parent, uid) ∉ db.includedFiles)
    (huid : uid ∈ db.fileObject) : ∃ chain, Chain db chain uid := by
  obtain ⟨chain, htrail⟩ := Paths.exists_trail (acc_parents order h.acyclic uid)
  exact ⟨chain, (chain_iff_trail hroots huid).2 htrail⟩

section

variable (h : Consistent db paths) (hr : Restorable db paths)
  (hfound : FullPaths order db found)

include h hr

theorem mem_rows_iff {row : Row} (order : IterOrder Uid) :
    row ∈ createVfpTableEntries db ↔ row ∈ paths := by
  rw [h.mem_createVfpTableEntries_iff hr.plain]
  refine and_iff_left_of_imp fun hmem => ?_
  exact h.exists_chain order hr.roots (db.includedFiles_fk _ (h.contained row hmem)).1

include hfound

/-- The entries of the old column are what the downgrade writes. -/
theorem isEntry_iff (rowOrder : IterOrder Row) {entry : List Uid × VPath} : IsEntry db paths uid root entry ↔
    entry ∈ entriesOf rowOrder (createVfpTableEntries db) found uid root := by
  have hedges : ∀ row ∈ createVfpTableEntries db, (row.1, row.2.1) ∈ db.includedFiles :=
    fun row hrow => h.contained row ((mem_rows_iff h hr order).1 hrow)
  rw [mem_entriesOf hfound hedges, IsEntry]
  refine and_congr_right fun _ => exists_congr fun parent => ?_
  rw [mem_rows_iff h hr order]
  refine and_congr_left fun hmem => ?_
  exact chain_iff_trail hr.roots (db.includedFiles_fk _ (h.contained _ hmem)).1

theorem present_of_located : Present rowOrder db (createVfpTableEntries db) found := by
  intro uid _ uidList hmem
  obtain ⟨chain, parent, -, -, hedge, hparent, -⟩ := hfound.exists_parent hmem
  obtain ⟨path, hpath⟩ := hr.located _ hedge
  rw [hparent]
  refine List.ne_nil_of_mem (a := path) ?_
  rw [mem_pathsIn, mem_rows_iff h hr order]
  exact hpath

/-- The column of a file that another object contains. -/
theorem sameColumn_vfpOf {entry : OldFileObjectEntry} (hentry : db.fileObject.get? uid = some entry)
    (hchild : (parent, uid) ∈ db.includedFiles) :
    SameColumn (vfpOf rowOrder (createVfpTableEntries db) found uid) entry.virtualFilePaths := by
  have hfirmware : db.isFirmware uid ≠ true := fun hfirmware =>
    (hr.roots uid (Dict.mem_of_get? hentry)).1 hfirmware parent hchild
  have hpresent : Present rowOrder db (createVfpTableEntries db) found :=
    present_of_located h hr hfound
  intro root
  have hown : ownEntry db uid root = [] := if_neg fun hboth => hfirmware hboth.2
  -- a root is written if and only if it has an entry
  have hwritten : (∃ uidList ∈ found uid, rootUid uidList = root) ↔
      ∃ entry, IsEntry db paths uid root entry := by
    constructor
    · rintro ⟨uidList, hmem, rfl⟩
      have hne := hpresent uid (mem_childUids.2 ⟨parent, hchild⟩) uidList hmem
      obtain ⟨path, hpath⟩ := List.exists_mem_of_ne_nil _ hne
      refine ⟨(uidList.dropLast, path), (isEntry_iff h hr hfound rowOrder).2 ?_⟩
      exact List.mem_flatMap.2 ⟨uidList, List.mem_filter.2 ⟨hmem, by simp⟩,
        List.mem_map_of_mem hpath⟩
    · rintro ⟨entry, hentry⟩
      have hmem := (isEntry_iff h hr hfound rowOrder).1 hentry
      obtain ⟨uidList, hmem, -⟩ := List.mem_flatMap.1 hmem
      obtain ⟨hmem, hroot⟩ := List.mem_filter.1 hmem
      exact ⟨uidList, hmem, of_decide_eq_true hroot⟩
  rw [get?_vfpOf]
  cases hget : entry.virtualFilePaths.get? root with
  | none =>
      have hno : ¬ ∃ uidList ∈ found uid, rootUid uidList = root := by
        rw [hwritten]
        rintro ⟨entry', hentry'⟩
        have hmem := (h.unlisted uid entry hentry root hget).mem_iff.2 (Or.inr ⟨_, hentry', rfl⟩)
        exact absurd hmem List.not_mem_nil
      rw [if_neg hno]
      exact .none
  | some list =>
      obtain ⟨hne, entries, hnodup, hentries, hperm⟩ := h.listed uid entry hentry root list hget
      rw [hown, List.nil_append] at hperm
      have hyes : ∃ uidList ∈ found uid, rootUid uidList = root := by
        rw [hwritten]
        obtain ⟨virtualPath, hmem⟩ := List.exists_mem_of_ne_nil _ hne
        obtain ⟨entry', hentry', -⟩ := List.mem_map.1 (hperm.mem_iff.1 hmem)
        exact ⟨entry', (hentries entry').1 hentry'⟩
      rw [if_pos hyes, joinedPaths_entriesOf]
      refine .some (List.Perm.trans (List.Perm.map _ ?_) hperm.symm)
      refine (List.perm_ext_iff_of_nodup (nodup_entriesOf hfound) hnodup).2 fun entry' => ?_
      rw [hentries entry', isEntry_iff h hr hfound rowOrder]

omit hfound in
/-- The column of a root. -/
theorem sameColumn_root {entry : OldFileObjectEntry} (hentry : db.fileObject.get? uid = some entry)
    (hroot : ∀ parent, (parent, uid) ∉ db.includedFiles) :
    SameColumn ((∅ : Dict Uid (List String)).set uid [uid]) entry.virtualFilePaths := by
  have hfirmware : db.isFirmware uid = true := (hr.roots uid (Dict.mem_of_get? hentry)).2 hroot
  have hlists : ∀ root list, Lists db paths uid root list →
      list.Perm (if root = uid then [uid] else []) := by
    rintro root list ⟨entries, -, hentries, hperm⟩
    have hnone : entries = [] := by
      rw [List.eq_nil_iff_forall_not_mem]
      intro entry' hmem
      obtain ⟨-, parent, -, hpath⟩ := (hentries entry').1 hmem
      exact hroot parent (h.contained _ hpath)
    rw [hnone, List.map_nil, List.append_nil, ownEntry] at hperm
    simpa [hfirmware] using hperm
  intro root
  rw [Dict.get?_set]
  cases hget : entry.virtualFilePaths.get? root with
  | none =>
      have hperm := hlists root [] (h.unlisted uid entry hentry root hget)
      by_cases heq : root = uid
      · rw [if_pos heq] at hperm
        exact absurd hperm.symm.eq_nil (List.cons_ne_nil _ _)
      · rw [if_neg heq]
        exact .none
  | some list =>
      obtain ⟨hne, hlist⟩ := h.listed uid entry hentry root list hget
      have hperm := hlists root list hlist
      by_cases heq : root = uid
      · rw [if_pos heq] at hperm ⊢
        exact .some hperm.symm
      · rw [if_neg heq] at hperm
        exact absurd hperm.eq_nil hne

omit hfound in
theorem preserved_of_restorable : Preserved order rowOrder db paths := by
  obtain ⟨found, hfound, hends⟩ := exists_fullPaths order h.acyclic
  have hpresent : Present rowOrder db (createVfpTableEntries db) found :=
    present_of_located h hr hfound
  constructor
  · exact fun row => h.mem_createVfpTableEntries_iff hr.plain
  · refine ⟨columnsOf order rowOrder db (createVfpTableEntries db) found, ?_, ?_⟩
    · have hmap := hends.map (writeColumns order rowOrder (createVfpTableEntries db))
      rwa [writeColumns_ok hpresent] at hmap
    · intro uid entry hentry
      rw [get?_columnsOf]
      by_cases hchild : ∃ parent, (parent, uid) ∈ db.includedFiles
      · obtain ⟨parent, hedge⟩ := hchild
        have hnot : uid ∉ rootUids ((order.list (childUids db)).map fun uid => (uid, found uid)) := by
          rw [mem_rootUids]
          rintro ⟨other, -, uidList, hmem, rfl⟩
          exact hfound.root_uncontained hmem parent hedge
        rw [if_neg hnot, if_pos (mem_childUids.2 ⟨parent, hedge⟩)]
        exact ⟨_, rfl, sameColumn_vfpOf h hr hfound hentry hedge⟩
      · have hroot : ∀ parent, (parent, uid) ∉ db.includedFiles :=
          fun parent hedge => hchild ⟨parent, hedge⟩
        have hfirmware := (hr.roots uid (Dict.mem_of_get? hentry)).2 hroot
        obtain ⟨file, hfile⟩ := hr.containers uid hfirmware
        have htrail : Paths.Trail (parents order db) uid [uid] := by
          apply Paths.Trail.start
          rw [List.eq_nil_iff_forall_not_mem]
          exact fun parent hparent => hroot parent (mem_parents.1 hparent)
        have hmem : uid ∈ rootUids ((order.list (childUids db)).map fun uid => (uid, found uid)) :=
          mem_rootUids.2 ⟨file, mem_childUids.2 ⟨uid, hfile⟩, [uid] ++ [file],
            hfound.mem_of_trail htrail hfile, rfl⟩
        rw [if_pos hmem]
        exact ⟨_, rfl, sameColumn_root h hr hentry hroot⟩

end

/-! ### What restoring needs -/

section

variable (h : Consistent db paths) (hp : Preserved order rowOrder db paths)

include h hp

/-- What the downgrade has written, if it has restored the columns. -/
theorem exists_columns : ∃ found, FullPaths order db found ∧
    Present rowOrder db (createVfpTableEntries db) found ∧
    ∀ uid entry, db.fileObject.get? uid = some entry → ∃ column,
      (columnsOf order rowOrder db (createVfpTableEntries db) found).get? uid = some column ∧
        SameColumn column entry.virtualFilePaths := by
  obtain ⟨found, hfound, hends⟩ := exists_fullPaths order h.acyclic
  obtain ⟨columns, hcolumns, hsame⟩ := hp.restored
  have hok : writeColumns order rowOrder (createVfpTableEntries db)
      ((order.list (childUids db)).map fun uid => (uid, found uid)) = .ok columns :=
    (hends.map (writeColumns order rowOrder (createVfpTableEntries db))).unique hcolumns
  have hpresent := present_of_ok hok
  rw [writeColumns_ok hpresent] at hok
  obtain rfl : columnsOf order rowOrder db (createVfpTableEntries db) found = columns :=
    Except.ok.inj hok
  exact ⟨found, hfound, hpresent, hsame⟩

theorem roots_of_preserved (huid : uid ∈ db.fileObject) :
    db.isFirmware uid = true ↔ ∀ parent, (parent, uid) ∉ db.includedFiles := by
  obtain ⟨found, hfound, -, hsame⟩ := exists_columns h hp
  obtain ⟨entry, hentry⟩ := Dict.mem_iff.1 huid
  obtain ⟨column, hcolumn, hrel⟩ := hsame uid entry hentry
  have hself := hrel uid
  rw [get?_columnsOf] at hcolumn
  constructor
  · -- a firmware that is contained in an object is not written as a root
    intro hfirmware parent hedge
    have hnot : uid ∉ rootUids ((order.list (childUids db)).map fun uid => (uid, found uid)) := by
      rw [mem_rootUids]
      rintro ⟨other, -, uidList, hmem, rfl⟩
      exact hfound.root_uncontained hmem parent hedge
    rw [if_neg hnot, if_pos (mem_childUids.2 ⟨parent, hedge⟩)] at hcolumn
    obtain rfl := Option.some.inj hcolumn
    have hunwritten : ¬ ∃ uidList ∈ found uid, rootUid uidList = uid := by
      rintro ⟨uidList, hmem, hroot⟩
      exact hfound.root_uncontained hmem parent (hroot ▸ hedge)
    rw [get?_vfpOf, if_neg hunwritten] at hself
    cases hget : entry.virtualFilePaths.get? uid with
    | none =>
        have hmem := (h.unlisted uid entry hentry uid hget).mem_iff.2
          (Or.inl (mem_ownEntry.2 ⟨rfl, rfl, hfirmware⟩))
        exact absurd hmem List.not_mem_nil
    | some list =>
        rw [hget] at hself
        cases hself
  · -- an object that nothing contains is written as a root, so it is one in the old column
    intro hroot
    have hchild : uid ∉ childUids db := by
      rw [mem_childUids]
      rintro ⟨parent, hedge⟩
      exact hroot parent hedge
    have hcolumn' : (∅ : Dict Uid (List String)).set uid [uid] = column := by
      split at hcolumn
      · exact Option.some.inj hcolumn
      · cases hcolumn
    rw [← hcolumn', Dict.get?_set_self] at hself
    cases hget : entry.virtualFilePaths.get? uid with
    | none =>
        rw [hget] at hself
        cases hself
    | some list =>
        rw [hget] at hself
        cases hself with
        | some hperm =>
            have hmem : uid ∈ list := hperm.mem_iff.1 List.mem_cons_self
            rcases (h.listed uid entry hentry uid list hget).2.mem_iff.1 hmem with hown | hin
            · exact (mem_ownEntry.1 hown).2.2
            · obtain ⟨entry', ⟨-, parent, -, hpath⟩, -⟩ := hin
              exact absurd (h.contained _ hpath) (hroot parent)

theorem containers_of_preserved (hfirmware : db.isFirmware uid = true) :
    ∃ file, (uid, file) ∈ db.includedFiles := by
  obtain ⟨found, hfound, -, hsame⟩ := exists_columns h hp
  have huid := mem_fileObject_of_isFirmware hfirmware
  have hroot := (roots_of_preserved h hp huid).1 hfirmware
  obtain ⟨entry, hentry⟩ := Dict.mem_iff.1 huid
  obtain ⟨column, hcolumn, -⟩ := hsame uid entry hentry
  rw [get?_columnsOf] at hcolumn
  split at hcolumn
  · rename_i hmem
    obtain ⟨other, -, uidList, hin, hhead⟩ := mem_rootUids.1 hmem
    obtain ⟨hne, htrail⟩ := (hfound.mem other uidList).1 hin
    obtain ⟨r, hr, -⟩ := htrail.exists_head
    obtain rfl : r = uid := by rw [← hhead, rootUid, List.headD_eq_head?_getD, hr]; rfl
    obtain ⟨file, hfile⟩ := htrail.head_mem hne hr
    exact ⟨file, mem_parents.1 hfile⟩
  · split at hcolumn
    · rename_i hchild
      obtain ⟨parent, hedge⟩ := mem_childUids.1 hchild
      exact absurd hedge (hroot parent)
    · cases hcolumn

theorem located_of_preserved {edge : Uid × Uid} (hedge : edge ∈ db.includedFiles) :
    ∃ path, (edge.1, edge.2, path) ∈ paths := by
  obtain ⟨found, hfound, hpresent, -⟩ := exists_columns h hp
  obtain ⟨chain, htrail⟩ := Paths.exists_trail (acc_parents order h.acyclic edge.1)
  have hmem := hfound.mem_of_trail htrail hedge
  have hne := hpresent edge.2 (mem_childUids.2 ⟨edge.1, hedge⟩) _ hmem
  obtain ⟨path, hpath⟩ := List.exists_mem_of_ne_nil _ hne
  obtain ⟨chain', parent, heq, htrail', -, hparent, -⟩ := hfound.exists_parent hmem
  obtain rfl : chain = chain' := List.append_cancel_right heq
  obtain rfl : parent = edge.1 := by
    have hlast := htrail'.getLast?
    rw [htrail.getLast?] at hlast
    exact (Option.some.inj hlast).symm
  rw [hparent, mem_pathsIn] at hpath
  exact ⟨path, ((hp.rows _).1 hpath).1⟩

theorem plain_of_preserved {row : Row} (hrow : row ∈ paths) :
    row.2.2 ≠ "" ∧ '|' ∉ row.2.2.toList := by
  have hchain := h.exists_chain order (fun uid => roots_of_preserved h hp)
    (db.includedFiles_fk _ (h.contained row hrow)).1
  obtain ⟨uid, entry, root, list, virtualPath, -, -, -, hentry⟩ :=
    mem_createVfpTableEntries.1 ((hp.rows row).2 ⟨hrow, hchain⟩)
  exact vfpEntry_plain hentry

end

/-- The migration preserves the data in both directions exactly if the firmware objects are
those that no other contains, each of them contains a file, every contained file has a path in
its container, and no path is empty or contains `|`. -/
theorem preserved_iff (order : IterOrder Uid) (rowOrder : IterOrder Row)
    (h : Consistent db paths) :
    Preserved order rowOrder db paths ↔ Restorable db paths := by
  constructor
  · intro hp
    exact
      { roots := fun uid => roots_of_preserved h hp
        containers := fun uid => containers_of_preserved h hp
        located := fun edge => located_of_preserved h hp
        plain := fun row => plain_of_preserved h hp }
  · exact preserved_of_restorable h

end

/-! ## A file with a separator in its name -/

/-- Rows in their lexicographic order. -/
def sortedRows : IterOrder Row :=
  IterOrder.ofEquiv ((Equiv.prodCongr (Equiv.refl Uid) toLex).trans toLex)
    (IterOrder.sorted (Lex (Uid × Lex (Uid × VPath))))

/-- A firmware with one file. -/
def oneFile (path : VPath) : OldDb where
  fileObject := ((∅ : Dict Uid OldFileObjectEntry).set "firmware"
    ⟨(∅ : Dict Uid (List String)).set "firmware" ["firmware"], true⟩).set "file"
    ⟨(∅ : Dict Uid (List String)).set "firmware" [Join.join '|' ["firmware", path]], false⟩
  includedFiles := {("firmware", "file")}
  includedFiles_fk := by
    intro e he
    rw [Finset.mem_singleton.1 he]
    simp [Dict.mem_iff, Dict.get?_set]

section

variable {path : VPath} {chain : List Uid}

theorem oneFile_chain : Chain (oneFile path) chain "firmware" ↔ chain = ["firmware"] := by
  constructor
  · intro h
    cases h with
    | firmware => rfl
    | file _ hmem => simp [oneFile] at hmem
  · rintro rfl
    exact .firmware rfl

theorem oneFile_isEntry {uid root : Uid} {entry : List Uid × VPath} :
    IsEntry (oneFile path) {("firmware", "file", path)} uid root entry ↔
      uid = "file" ∧ root = "firmware" ∧ entry = (["firmware"], path) := by
  obtain ⟨chain, path'⟩ := entry
  simp only [IsEntry, Finset.mem_singleton, Prod.mk.injEq]
  constructor
  · rintro ⟨hhead, parent, hchain, rfl, rfl, rfl⟩
    rw [oneFile_chain] at hchain
    subst hchain
    obtain rfl : "firmware" = root := by simpa using hhead
    exact ⟨rfl, rfl, rfl, rfl⟩
  · rintro ⟨rfl, rfl, rfl, rfl⟩
    exact ⟨rfl, "firmware", oneFile_chain.2 rfl, rfl, rfl, rfl⟩

theorem oneFile_lists {uid root : Uid} {list : List String}
    (h : list = ownEntry (oneFile path) uid root ++
      if uid = "file" ∧ root = "firmware" then [Join.join '|' ["firmware", path]] else []) :
    Lists (oneFile path) {("firmware", "file", path)} uid root list := by
  subst h
  by_cases hfile : uid = "file" ∧ root = "firmware"
  · refine ⟨[(["firmware"], path)], List.nodup_singleton _, ?_, by simp [hfile]⟩
    intro entry
    rw [oneFile_isEntry, List.mem_singleton]
    simp [hfile]
  · refine ⟨[], List.nodup_nil, ?_, by simp [hfile]⟩
    intro entry
    rw [oneFile_isEntry]
    simp only [List.not_mem_nil, false_iff]
    rintro ⟨huid, hroot, -⟩
    exact hfile ⟨huid, hroot⟩

theorem oneFile_get? (uid : Uid) : (oneFile path).fileObject.get? uid =
    if uid = "file" then some ⟨(∅ : Dict Uid (List String)).set "firmware"
      [Join.join '|' ["firmware", path]], false⟩
    else if uid = "firmware" then
      some ⟨(∅ : Dict Uid (List String)).set "firmware" ["firmware"], true⟩
    else none := by
  simp only [oneFile, Dict.get?_set, Dict.get?_empty]

/-- The objects with their columns. -/
theorem oneFile_cases {uid : Uid} {entry : OldFileObjectEntry}
    (h : (oneFile path).fileObject.get? uid = some entry) :
    (uid = "file" ∧ entry = ⟨(∅ : Dict Uid (List String)).set "firmware"
      [Join.join '|' ["firmware", path]], false⟩) ∨
    (uid = "firmware" ∧
      entry = ⟨(∅ : Dict Uid (List String)).set "firmware" ["firmware"], true⟩) := by
  rw [oneFile_get?] at h
  split at h
  · rename_i huid
    exact Or.inl ⟨huid, (Option.some.inj h).symm⟩
  · split at h
    · rename_i huid
      exact Or.inr ⟨huid, (Option.some.inj h).symm⟩
    · cases h

theorem oneFile_consistent (path : VPath) :
    Consistent (oneFile path) {("firmware", "file", path)} where
  acyclic := by
    intro uid hcycle
    obtain ⟨next, hstep, hrest⟩ := Relation.TransGen.head'_iff.1 hcycle
    obtain ⟨rfl, rfl⟩ : uid = "firmware" ∧ next = "file" := by simpa [oneFile] using hstep
    rcases Relation.ReflTransGen.cases_head hrest with heq | ⟨other, hstep', -⟩
    · exact absurd heq (by decide)
    · simp [oneFile] at hstep'
  contained := by simp [oneFile]
  uids := by
    intro uid huid
    obtain ⟨entry, hentry⟩ := Dict.mem_iff.1 huid
    rcases oneFile_cases hentry with ⟨rfl, -⟩ | ⟨rfl, -⟩
    · decide
    · decide
  listed := by
    intro uid entry hentry root list hlist
    rcases oneFile_cases hentry with ⟨rfl, rfl⟩ | ⟨rfl, rfl⟩
    · rw [Dict.get?_set] at hlist
      split at hlist
      · rename_i hroot
        obtain rfl := Option.some.inj hlist
        exact ⟨List.cons_ne_nil _ _, oneFile_lists (by simp [ownEntry, hroot])⟩
      · cases hlist
    · rw [Dict.get?_set] at hlist
      split at hlist
      · rename_i hroot
        obtain rfl := Option.some.inj hlist
        refine ⟨List.cons_ne_nil _ _, oneFile_lists ?_⟩
        simp [ownEntry, hroot, OldDb.isFirmware, oneFile_get?]
      · cases hlist
  unlisted := by
    intro uid entry hentry root hnone
    rcases oneFile_cases hentry with ⟨rfl, rfl⟩ | ⟨rfl, rfl⟩
    · rw [Dict.get?_set] at hnone
      split at hnone
      · cases hnone
      · rename_i hroot
        refine oneFile_lists ?_
        simp [ownEntry, hroot, OldDb.isFirmware, oneFile_get?]
    · rw [Dict.get?_set] at hnone
      split at hnone
      · cases hnone
      · rename_i hroot
        refine oneFile_lists ?_
        simp [ownEntry, hroot]

theorem oneFile_restorable (hpath : path ≠ "" ∧ '|' ∉ path.toList) :
    Restorable (oneFile path) {("firmware", "file", path)} where
  roots := by
    intro uid huid
    obtain ⟨entry, hentry⟩ := Dict.mem_iff.1 huid
    rcases oneFile_cases hentry with ⟨rfl, -⟩ | ⟨rfl, -⟩
    · have hfirmware : (oneFile path).isFirmware "file" = false := by
        simp [OldDb.isFirmware, oneFile_get?]
      rw [hfirmware]
      simp only [Bool.false_eq_true, false_iff]
      exact fun hnone => hnone "firmware" (Finset.mem_singleton_self _)
    · have hfirmware : (oneFile path).isFirmware "firmware" = true := by
        simp [OldDb.isFirmware, oneFile_get?]
      rw [hfirmware]
      simp [oneFile]
  containers := by
    intro uid hfirmware
    obtain ⟨entry, hentry⟩ := Dict.mem_iff.1 (mem_fileObject_of_isFirmware hfirmware)
    rcases oneFile_cases hentry with ⟨rfl, -⟩ | ⟨rfl, -⟩
    · simp [OldDb.isFirmware, oneFile_get?] at hfirmware
    · exact ⟨"file", Finset.mem_singleton_self _⟩
  located := by
    intro edge hedge
    rw [Finset.mem_singleton.1 hedge]
    exact ⟨path, Finset.mem_singleton_self _⟩
  plain := by
    intro row hrow
    rw [Finset.mem_singleton.1 hrow]
    exact hpath

end

theorem preserved_iff_oneFile :
    Preserved (IterOrder.sorted Uid) sortedRows (oneFile "/bin/sh")
      {("firmware", "file", "/bin/sh")} :=
  (preserved_iff _ _ (oneFile_consistent "/bin/sh")).2 (oneFile_restorable (by decide))

/-- The path `/a|b` is taken for the path `b` in a container `/a`, which does not exist. -/
theorem separator_not_preserved :
    Consistent (oneFile "/a|b") {("firmware", "file", "/a|b")} ∧
      ¬ Preserved (IterOrder.sorted Uid) sortedRows (oneFile "/a|b")
        {("firmware", "file", "/a|b")} := by
  refine ⟨oneFile_consistent "/a|b", fun h => ?_⟩
  have hplain := plain_of_preserved (oneFile_consistent "/a|b") h (Finset.mem_singleton_self _)
  exact absurd hplain.2 (by decide)

end FactCore.Migration
