import FactCore.Lib.Join
import FactCore.Storage.ObjectsByUidList

/-! # Comparing config files

`compare_function` of the compare plugin `file_config`. For each config file and
each of its parents one path is taken, and the first path through the file tree
that contains the parent and begins with a compared firmware decides where the
file is shown. A file that is shown later under the same path replaces it.

Which files are config files and how they are parsed are parameters.
-/

namespace FactCore

namespace FileConfig

/-! ## The comparison -/

/-- What is read of an object that is compared. -/
structure ComparedObject where
  uid : Uid
  listOfAllIncludedFiles : List Uid

/-- The services and helpers that `compare_function` calls. -/
structure Environment where
  db : Db
  rows : Db.RowOrder
  /-- the order of the sets of parents in `_generate_file_tree_path` -/
  parents : IterOrder Uid
  isConfigFile : FileObject → Bool
  /-- `_parse_config_from_binary` for the type and content of the file, unless it raises -/
  parseConfig : FileObject → Option (Dict String String)

inductive CompareError where
  | missingPaths (uid : Uid)
  | parser (uid : Uid)
  | popFromEmptyList
  /-- the walk up the file tree did not end within the bound -/
  | unfinished
deriving DecidableEq

/-- A line of an entry: the uid of the file, or `key: value`. -/
inductive ConfigLine where
  | fileUid (uid : Uid)
  | parameter (key value : String)
deriving DecidableEq

/-- The text of a line. The strings contain no lone surrogates, so `_to_safe_str`
changes nothing. -/
def ConfigLine.text : ConfigLine → String
  | fileUid uid => uid
  | parameter key value => key ++ ": " ++ value

/-- `results[path]`: the flag `collapse` and an entry for each firmware. -/
structure ConfigRow where
  collapse : Bool
  entries : Dict Uid (List ConfigLine)

abbrev Results := Dict VPath ConfigRow

/-- `_get_included_uids` -/
def getIncludedUids (foList : List ComparedObject) : Finset Uid :=
  (foList.flatMap ComparedObject.listOfAllIncludedFiles).toFinset

/-- `_parse_config_from_fo_list` -/
def parseConfigFromFoList (env : Environment) (foList : List FileObject) :
    Except CompareError (Dict Uid (Dict String String)) :=
  foList.foldlM (fun parsed fo =>
    match env.parseConfig fo with
    | none => .error (.parser fo.uid)
    | some parameters => .ok (parsed.set fo.uid parameters)) ∅

/-- `get_file_tree_path` without a root. -/
def getFileTreePath (env : Environment) (uid : Uid) (n : ℕ) : Option (List (List Uid)) :=
  (env.db.getFileTreePathForUidList env.parents [uid] none n).map fun paths => (paths.get? uid).getD []

/-- The first path through the file tree that contains the parent and begins
with a compared object; its first uid. -/
def firmwareRootUid (foList : List ComparedObject) (rootUid : Uid) (treePaths : List (List Uid)) : Option Uid :=
  (treePaths.find? fun path =>
    decide (rootUid ∈ path) && path.head?.any fun uid => uid ∈ foList.map ComparedObject.uid).bind List.head?

/-- `vfp.split('|')[-1]` -/
def localFilePath (vfp : VPath) : VPath := (Join.split '|' vfp).getLast?.getD ""

/-- The lines that are shown for a file. -/
def configLines (parsed : Dict Uid (Dict String String)) (uid : Uid) : List ConfigLine :=
  .fileUid uid :: ((parsed.get? uid).getD ∅).items.map fun item => .parameter item.1 item.2

/-- `results[local_file_path][firmware_root_uid] = …` -/
def addEntry (results : Results) (path : VPath) (firmware : Uid) (lines : List ConfigLine) : Results :=
  let row := (results.get? path).getD ⟨true, ∅⟩
  results.set path { row with entries := row.entries.set firmware lines }

/-- The body of the inner loop: a parent of the file and the paths in it. The
list that is popped is not read again, since the parent is not visited twice. -/
def comparePaths (env : Environment) (foList : List ComparedObject) (parsed : Dict Uid (Dict String String))
    (n : ℕ) (fo : FileObject) (results : Results) (item : Uid × List VPath) : Except CompareError Results :=
  match getFileTreePath env fo.uid n with
  | none => .error .unfinished
  | some treePaths =>
      match firmwareRootUid foList item.1 treePaths with
      | none => .ok results
      | some firmware =>
          match item.2.getLast? with
          | none => .error .popFromEmptyList
          | some vfp => .ok (addEntry results (localFilePath vfp) firmware (configLines parsed fo.uid))

/-- The loop over the config files. -/
def compareConfigFiles (env : Environment) (foList : List ComparedObject)
    (parsed : Dict Uid (Dict String String)) (n : ℕ) (configFiles : List FileObject) : Except CompareError Results :=
  configFiles.foldlM (fun results fo =>
    fo.virtualFilePath.items.foldlM (comparePaths env foList parsed n fo) results) ∅

/-- The number of parameters that a row shows. -/
def totalParameters (row : ConfigRow) : ℕ :=
  row.entries.values.foldl (fun total lines => total + (lines.length - 1)) 0

/-- The last loop: a row without parameters is not collapsed. -/
def setCollapse (results : Results) : Results :=
  results.map fun _ row => if totalParameters row = 0 then { row with collapse := false } else row

/-- `compare_function` -/
def compareFunction (env : Environment) (foList : List ComparedObject) (n : ℕ) : Except CompareError Results :=
  match env.db.getObjectsByUidList env.rows (getIncludedUids foList) with
  | .error missing => .error (.missingPaths missing.uid)
  | .ok fileObjects => do
      let configFiles := fileObjects.filter env.isConfigFile
      let parsed ← parseConfigFromFoList env configFiles
      let results ← compareConfigFiles env foList parsed n configFiles
      return setCollapse results

/-! ## What a complete comparison shows -/

/-- The file has the path in a parent that lies in the compared object, and is
included in it. -/
structure HasPathIn (env : Environment) (compared : ComparedObject) (fo : FileObject) (parent : Uid)
    (path : VPath) : Prop where
  included : Relation.TransGen env.db.Included compared.uid fo.uid
  within : Relation.ReflTransGen env.db.Included compared.uid parent
  path : path ∈ fo.pathsIn parent

/-- The entry of a path and a firmware. -/
def shown (results : Results) (path : VPath) (firmware : Uid) : Option (List ConfigLine) :=
  (results.get? path).bind fun row => row.entries.get? firmware

/-- Every config file is shown under each of its paths in each compared object
that contains it, with all of its parameters; in particular two files with the
same path are both shown. -/
def Complete (env : Environment) (foList : List ComparedObject) (configFiles : List FileObject)
    (parsed : Dict Uid (Dict String String)) (results : Results) : Prop :=
  ∀ compared ∈ foList, ∀ fo ∈ configFiles, ∀ parent path, HasPathIn env compared fo parent path →
    ∃ lines, shown results path compared.uid = some lines ∧ .fileUid fo.uid ∈ lines ∧
      ∀ parameters, parsed.get? fo.uid = some parameters →
        ∀ item ∈ parameters.items, .parameter item.1 item.2 ∈ lines

/-- The config files are read and parsed. -/
structure Read (env : Environment) (foList : List ComparedObject) (configFiles : List FileObject)
    (parsed : Dict Uid (Dict String String)) : Prop where
  objects : ∃ fileObjects, env.db.getObjectsByUidList env.rows (getIncludedUids foList) = .ok fileObjects ∧
    configFiles = fileObjects.filter env.isConfigFile
  parameters : parseConfigFromFoList env configFiles = .ok parsed

/-- The comparison ends with a complete result. -/
def CompletesOn (env : Environment) (foList : List ComparedObject) : Prop :=
  ∃ configFiles parsed results, Read env foList configFiles parsed ∧
    Loop.Terminates (fun n => (compareFunction env foList n).toOption) results ∧
    Complete env foList configFiles parsed results

/-- The first path through the file tree that contains the parent and begins with
a compared object begins with this one. -/
def FoundIn (env : Environment) (foList : List ComparedObject) (uid parent firmware : Uid) : Prop :=
  ∃ treePaths, Loop.Terminates (getFileTreePath env uid) treePaths ∧
    firmwareRootUid foList parent treePaths = some firmware

/-- Each path of a file in a compared object is the last one of some parent that
is found in this object first, and no other config file of the object has it. -/
structure Separated (env : Environment) (foList : List ComparedObject) (configFiles : List FileObject) : Prop where
  found : ∀ compared ∈ foList, ∀ fo ∈ configFiles, ∀ parent path, HasPathIn env compared fo parent path →
    '|' ∉ path.toList ∧ ∃ parent', (fo.pathsIn parent').getLast? = some path ∧
      FoundIn env foList fo.uid parent' compared.uid
  only : ∀ compared ∈ foList, ∀ fo ∈ configFiles, ∀ parent path, HasPathIn env compared fo parent path →
    ∀ fo' ∈ configFiles, ∀ parent', HasPathIn env compared fo' parent' path → fo'.uid = fo.uid

/-! ## The paths through the file tree -/

variable {env : Environment} {foList : List ComparedObject} {configFiles : List FileObject}
  {parsed : Dict Uid (Dict String String)} {uid firmware parent : Uid} {treePaths : List (List Uid)} {n : ℕ}

/-- The walk up the file tree ends only where no cycle can be reached. -/
theorem cycleFree_of_getFileTreePath (h : getFileTreePath env uid n = some treePaths) :
    env.db.CycleFreeAbove uid := by
  obtain ⟨pathDict, hdict, -⟩ := Option.map_eq_some_iff.1 h
  obtain ⟨pairs, hpairs, -⟩ := Option.bind_eq_some_iff.1 hdict
  have hdies := Db.level_dies_of_unionAll (Db.onLevel_topQuery [uid]) hpairs
  exact Db.level_parents_dies_iff.1 ⟨n, hdies⟩ uid (by simp)

/-- There it returns the paths from the roots. -/
theorem exists_treePaths (hfree : env.db.CycleFreeAbove uid) :
    ∃ treePaths, Loop.Terminates (getFileTreePath env uid) treePaths ∧
      ∀ path ∈ treePaths, Paths.RootPath (fun child parent => env.db.Included parent child) uid path := by
  obtain ⟨pathDict, hterminates, hall⟩ :=
    (Db.getFileTreePathForUidList_iff env.db env.parents [uid]).2 (by simpa using hfree)
  obtain ⟨treePaths, hget, -, hpaths⟩ := hall uid (by simp)
  refine ⟨treePaths, ?_, fun path hpath => (hpaths path).1 hpath⟩
  have hmap := hterminates.map fun paths => (paths.get? uid).getD []
  simp only [hget, Option.getD_some] at hmap
  exact hmap

/-- A parent that is found in a compared object lies in it, and so does the file. -/
theorem within_of_firmwareRootUid
    (hpaths : ∀ path ∈ treePaths, Paths.RootPath (fun child parent => env.db.Included parent child) uid path)
    (hup : ∃ above, env.db.Included above uid)
    (h : firmwareRootUid foList parent treePaths = some firmware) :
    firmware ∈ foList.map ComparedObject.uid ∧ Relation.TransGen env.db.Included firmware uid ∧
      Relation.ReflTransGen env.db.Included firmware parent := by
  obtain ⟨path, hfind, hhead⟩ := Option.bind_eq_some_iff.1 h
  have hroot := hpaths path (List.mem_of_find?_eq_some hfind)
  have htest := List.find?_some hfind
  rw [Bool.and_eq_true, decide_eq_true_iff, hhead] at htest
  obtain ⟨hparent, hcompared⟩ := htest
  -- everything on the path is below its head
  have hbelow : ∀ x ∈ path, Relation.ReflTransGen env.db.Included firmware x := by
    apply List.IsChain.induction (fun x => Relation.ReflTransGen env.db.Included firmware x) path hroot.chain
    · intro x y hxy hx
      exact hx.tail hxy
    · intro hne
      rw [List.head?_eq_some_head hne] at hhead
      rw [Option.some.inj hhead]
  refine ⟨of_decide_eq_true hcompared, ?_, hbelow parent hparent⟩
  rcases Relation.reflTransGen_iff_eq_or_transGen.1 (hbelow uid (List.mem_of_getLast? hroot.last)) with heq | htrans
  · obtain ⟨above, habove⟩ := hup
    rw [heq] at habove
    exact absurd habove (hroot.root firmware hhead above)
  · exact htrans

/-! ## The entries -/

variable {path path' : VPath} {firmware' : Uid} {lines : List ConfigLine} {results : Results}

theorem shown_addEntry : shown (addEntry results path firmware lines) path' firmware' =
    if path' = path ∧ firmware' = firmware then some lines else shown results path' firmware' := by
  unfold shown addEntry
  by_cases hpath : path' = path
  · subst hpath
    rw [Dict.get?_set_self, Option.bind_some, Dict.get?_set]
    by_cases hfirmware : firmware' = firmware
    · rw [if_pos hfirmware, if_pos ⟨rfl, hfirmware⟩]
    · rw [if_neg hfirmware, if_neg (fun h => hfirmware h.2)]
      cases results.get? path' with
      | none => rfl
      | some row => rfl
  · rw [Dict.get?_set_ne _ _ hpath, if_neg (fun h => hpath h.1)]

theorem shown_setCollapse : shown (setCollapse results) path firmware = shown results path firmware := by
  unfold shown setCollapse
  rw [Dict.get?_map]
  cases results.get? path with
  | none => rfl
  | some row =>
      rw [Option.map_some, Option.bind_some, Option.bind_some]
      split
      · rfl
      · rfl

/-- The entry that the body of the inner loop makes, when the walks up the file
tree are known. -/
def entryOf (foList : List ComparedObject) (tree : Uid → List (List Uid)) (fo : FileObject)
    (item : Uid × List VPath) : Option (VPath × Uid) :=
  (firmwareRootUid foList item.1 (tree fo.uid)).bind fun firmware =>
    item.2.getLast?.map fun vfp => (localFilePath vfp, firmware)

/-- What the body then makes of the results. -/
def addPaths (foList : List ComparedObject) (parsed : Dict Uid (Dict String String))
    (tree : Uid → List (List Uid)) (results : Results) (x : FileObject × Uid × List VPath) : Results :=
  match entryOf foList tree x.1 x.2 with
  | none => results
  | some entry => addEntry results entry.1 entry.2 (configLines parsed x.1.uid)

/-- The files with their parents, in the order of the two loops. -/
def pathItems (configFiles : List FileObject) : List (FileObject × Uid × List VPath) :=
  configFiles.flatMap fun fo => fo.virtualFilePath.items.map fun item => (fo, item)

variable {tree : Uid → List (List Uid)}

theorem comparePaths_eq_ok {fo : FileObject} {item : Uid × List VPath}
    (htree : getFileTreePath env fo.uid n = some (tree fo.uid)) (hne : item.2 ≠ []) :
    comparePaths env foList parsed n fo results item = .ok (addPaths foList parsed tree results (fo, item)) := by
  unfold comparePaths addPaths entryOf
  rw [htree]
  dsimp only
  cases firmwareRootUid foList item.1 (tree fo.uid) with
  | none => rfl
  | some firmware =>
      rw [List.getLast?_eq_getLast_of_ne_nil hne]
      rfl

/-- The loops add the entries one after the other. -/
theorem compareConfigFiles_eq_ok
    (htree : ∀ fo ∈ configFiles, ∀ item ∈ fo.virtualFilePath.items,
      getFileTreePath env fo.uid n = some (tree fo.uid) ∧ item.2 ≠ []) :
    compareConfigFiles env foList parsed n configFiles =
      .ok ((pathItems configFiles).foldl (addPaths foList parsed tree) ∅) := by
  have hinner : ∀ (results : Results) (fo : FileObject), (∀ item ∈ fo.virtualFilePath.items,
      getFileTreePath env fo.uid n = some (tree fo.uid) ∧ item.2 ≠ []) →
      fo.virtualFilePath.items.foldlM (comparePaths env foList parsed n fo) results =
        .ok (fo.virtualFilePath.items.foldl (fun results item => addPaths foList parsed tree results (fo, item))
          results) := by
    intro results fo hitems
    apply Loop.foldlM_ok _ hitems
    intro results item hitem
    exact comparePaths_eq_ok hitem.1 hitem.2
  unfold compareConfigFiles
  rw [Loop.foldlM_ok hinner htree, pathItems, List.foldl_flatMap]
  simp only [List.foldl_map]

/-- If the loops end normally, so did the walks up the file tree. -/
theorem of_compareConfigFiles_eq_ok (h : compareConfigFiles env foList parsed n configFiles = .ok results) :
    ∀ fo ∈ configFiles, ∀ item ∈ fo.virtualFilePath.items, ∃ treePaths, getFileTreePath env fo.uid n = some treePaths := by
  have hstep : ∀ (fo : FileObject) (results : Results) (item : Uid × List VPath) (results' : Results),
      comparePaths env foList parsed n fo results item = .ok results' →
        ∃ treePaths, getFileTreePath env fo.uid n = some treePaths := by
    intro fo results item results' hstep
    unfold comparePaths at hstep
    split at hstep
    · cases hstep
    · rename_i treePaths htree
      exact ⟨treePaths, htree⟩
  have hinner : ∀ (results : Results) (fo : FileObject) (results' : Results),
      fo.virtualFilePath.items.foldlM (comparePaths env foList parsed n fo) results = .ok results' →
      ∀ item ∈ fo.virtualFilePath.items, ∃ treePaths, getFileTreePath env fo.uid n = some treePaths :=
    fun results fo results' hok => Loop.of_foldlM_ok (hstep fo) hok
  exact Loop.of_foldlM_ok hinner h

/-- What is shown in the end was shown before or is one of the entries. -/
theorem shown_foldl {items : List (FileObject × Uid × List VPath)}
    (h : shown (items.foldl (addPaths foList parsed tree) results) path firmware = some lines) :
    (∃ x ∈ items, entryOf foList tree x.1 x.2 = some (path, firmware) ∧ lines = configLines parsed x.1.uid) ∨
      shown results path firmware = some lines := by
  induction items generalizing results with
  | nil => exact .inr h
  | cons x items ih =>
      rcases ih h with ⟨y, hy, hentry, hlines⟩ | hshown
      · exact .inl ⟨y, List.mem_cons_of_mem x hy, hentry, hlines⟩
      · unfold addPaths at hshown
        split at hshown
        · exact .inr hshown
        · rename_i entry hentry
          rw [shown_addEntry] at hshown
          split at hshown
          · rename_i hsame
            obtain ⟨rfl, rfl⟩ := hsame
            exact .inl ⟨x, List.mem_cons_self, hentry, (Option.some.inj hshown).symm⟩
          · exact .inr hshown

/-- Something is shown where an entry was added. -/
theorem exists_shown_foldl {items : List (FileObject × Uid × List VPath)}
    (h : (∃ x ∈ items, entryOf foList tree x.1 x.2 = some (path, firmware)) ∨
      ∃ lines, shown results path firmware = some lines) :
    ∃ lines, shown (items.foldl (addPaths foList parsed tree) results) path firmware = some lines := by
  induction items generalizing results with
  | nil =>
      rcases h with ⟨x, hx, -⟩ | hshown
      · cases hx
      · exact hshown
  | cons x items ih =>
      apply ih
      by_cases hrest : ∃ y ∈ items, entryOf foList tree y.1 y.2 = some (path, firmware)
      · exact .inl hrest
      · right
        unfold addPaths
        split
        · rename_i hnone
          rcases h with ⟨y, hy, hentry⟩ | hshown
          · rcases List.mem_cons.1 hy with rfl | hy
            · rw [hnone] at hentry
              cases hentry
            · exact absurd ⟨y, hy, hentry⟩ hrest
          · exact hshown
        · rename_i entry hsome
          rw [shown_addEntry]
          split
          · exact ⟨_, rfl⟩
          · rename_i hother
            rcases h with ⟨y, hy, hentry⟩ | hshown
            · rcases List.mem_cons.1 hy with rfl | hy
              · rw [hsome] at hentry
                obtain rfl := Option.some.inj hentry
                exact absurd ⟨rfl, rfl⟩ hother
              · exact absurd ⟨y, hy, hentry⟩ hrest
            · exact hshown

/-! ## The config files -/

theorem notMem_localFilePath (vfp : VPath) : '|' ∉ (localFilePath vfp).toList := by
  unfold localFilePath
  rw [List.getLast?_eq_getLast_of_ne_nil Join.split_ne_nil, Option.getD_some]
  exact Join.notMem_of_mem_split (List.getLast_mem _)

theorem localFilePath_of_notMem {vfp : VPath} (h : '|' ∉ vfp.toList) : localFilePath vfp = vfp := by
  have hsplit : Join.split '|' (Join.join '|' [vfp]) = [vfp] := Join.split_join (by simpa using h) (by simp)
  have hjoin : Join.join '|' [vfp] = vfp := by simp [Join.join]
  rw [hjoin] at hsplit
  unfold localFilePath
  rw [hsplit]
  rfl

variable {fo : FileObject} {item : Uid × List VPath}

theorem mem_pathItems {x : FileObject × Uid × List VPath} :
    x ∈ pathItems configFiles ↔ x.1 ∈ configFiles ∧ x.2 ∈ x.1.virtualFilePath.items := by
  unfold pathItems
  rw [List.mem_flatMap]
  constructor
  · rintro ⟨fo, hfo, hx⟩
    obtain ⟨item, hitem, rfl⟩ := List.mem_map.1 hx
    exact ⟨hfo, hitem⟩
  · rintro ⟨hfo, hitem⟩
    exact ⟨x.1, hfo, List.mem_map.2 ⟨x.2, hitem, rfl⟩⟩

theorem pathsIn_of_mem (h : item ∈ fo.virtualFilePath.items) : fo.pathsIn item.1 = item.2 := by
  unfold FileObject.pathsIn
  rw [Dict.get?_eq_some_iff.2 h, Option.getD_some]

theorem mem_items_of_mem_pathsIn (h : path ∈ fo.pathsIn parent) :
    (parent, fo.pathsIn parent) ∈ fo.virtualFilePath.items := by
  unfold FileObject.pathsIn at h ⊢
  cases hget : fo.virtualFilePath.get? parent with
  | none =>
      rw [hget] at h
      cases h
  | some paths => exact Dict.get?_eq_some_iff.1 hget

theorem ne_empty_of_mem_items (h : item ∈ fo.virtualFilePath.items) : fo.virtualFilePath ≠ ∅ := by
  intro hempty
  rw [hempty] at h
  cases h

/-- The paths of a config file that is read: none of the lists is empty, and the
file has a parent. -/
theorem Read.paths (hread : Read env foList configFiles parsed) (hfo : fo ∈ configFiles)
    (hitem : item ∈ fo.virtualFilePath.items) : item.2 ≠ [] ∧ ∃ above, env.db.Included above fo.uid := by
  obtain ⟨fileObjects, hok, rfl⟩ := hread.objects
  rcases Db.mem_objects hok (List.mem_filter.1 hfo).1 with hempty | ⟨hup, hpaths⟩
  · exact absurd hempty (ne_empty_of_mem_items hitem)
  · exact ⟨Db.ne_nil_of_getVfpsForUidList hpaths (Dict.get?_eq_some_iff.2 hitem), hup⟩

/-- Config files with paths are determined by their uids. -/
theorem Read.eq_of_uid (hread : Read env foList configFiles parsed) {fo' : FileObject} {item' : Uid × List VPath}
    (hfo : fo ∈ configFiles) (hfo' : fo' ∈ configFiles) (hitem : item ∈ fo.virtualFilePath.items)
    (hitem' : item' ∈ fo'.virtualFilePath.items) (huid : fo'.uid = fo.uid) : fo' = fo := by
  obtain ⟨fileObjects, hok, rfl⟩ := hread.objects
  exact Db.eq_of_uid_of_paths hok (List.mem_filter.1 hfo).1 (List.mem_filter.1 hfo').1
    (ne_empty_of_mem_items hitem) (ne_empty_of_mem_items hitem') huid

theorem Read.compareFunction_eq (hread : Read env foList configFiles parsed) (n : ℕ) :
    compareFunction env foList n = (compareConfigFiles env foList parsed n configFiles).map setCollapse := by
  obtain ⟨fileObjects, hok, rfl⟩ := hread.objects
  unfold compareFunction
  rw [hok]
  show (parseConfigFromFoList env (fileObjects.filter env.isConfigFile) >>= _) = _
  rw [hread.parameters]
  show (compareConfigFiles env foList parsed n (fileObjects.filter env.isConfigFile) >>= _) = _
  cases compareConfigFiles env foList parsed n (fileObjects.filter env.isConfigFile) with
  | error e => rfl
  | ok results => rfl

/-- The walk up the file tree from a file with a path gets into no cycle. -/
def AcyclicAbove (env : Environment) (configFiles : List FileObject) : Prop :=
  ∀ fo ∈ configFiles, fo.virtualFilePath.items ≠ [] → env.db.CycleFreeAbove fo.uid

/-- `tree` holds the paths from the roots to the files. -/
def TreeOf (env : Environment) (configFiles : List FileObject) (tree : Uid → List (List Uid)) : Prop :=
  ∀ fo ∈ configFiles, fo.virtualFilePath.items ≠ [] →
    Loop.Terminates (getFileTreePath env fo.uid) (tree fo.uid) ∧
      ∀ path ∈ tree fo.uid, Paths.RootPath (fun child parent => env.db.Included parent child) fo.uid path

theorem exists_treeOf (h : AcyclicAbove env configFiles) : ∃ tree, TreeOf env configFiles tree := by
  have hexists : ∀ uid, ∃ treePaths, env.db.CycleFreeAbove uid →
      Loop.Terminates (getFileTreePath env uid) treePaths ∧
        ∀ path ∈ treePaths, Paths.RootPath (fun child parent => env.db.Included parent child) uid path := by
    intro uid
    by_cases hfree : env.db.CycleFreeAbove uid
    · obtain ⟨treePaths, htree⟩ := exists_treePaths hfree
      exact ⟨treePaths, fun _ => htree⟩
    · exact ⟨[], fun hfree' => absurd hfree' hfree⟩
  choose tree htree using hexists
  exact ⟨tree, fun fo hfo hne => htree fo.uid (h fo hfo hne)⟩

/-- Without cycles the comparison ends with the entries of the loops. -/
theorem Read.terminates (hread : Read env foList configFiles parsed) (htree : TreeOf env configFiles tree) :
    Loop.Terminates (fun n => (compareFunction env foList n).toOption)
      (setCollapse ((pathItems configFiles).foldl (addPaths foList parsed tree) ∅)) := by
  have hwalks : ∀ x ∈ pathItems configFiles,
      Loop.Terminates (getFileTreePath env x.1.uid) (tree x.1.uid) := by
    intro x hx
    obtain ⟨hfo, hitem⟩ := mem_pathItems.1 hx
    exact (htree x.1 hfo (List.ne_nil_of_mem hitem)).1
  obtain ⟨n, hn⟩ := Loop.exists_common_bound hwalks
  refine ⟨n, ?_⟩
  intro m hle
  have hloops : compareConfigFiles env foList parsed m configFiles =
      .ok ((pathItems configFiles).foldl (addPaths foList parsed tree) ∅) := by
    apply compareConfigFiles_eq_ok
    intro fo hfo item hitem
    exact ⟨hn m hle (fo, item) (mem_pathItems.2 ⟨hfo, hitem⟩), (hread.paths hfo hitem).1⟩
  show (compareFunction env foList m).toOption = _
  rw [hread.compareFunction_eq, hloops]
  rfl

/-- If the comparison ends normally, there are no cycles. -/
theorem Read.acyclicAbove (hread : Read env foList configFiles parsed)
    (h : Loop.Terminates (fun n => (compareFunction env foList n).toOption) results) :
    AcyclicAbove env configFiles := by
  obtain ⟨n, hn⟩ := h
  have hrun : (compareFunction env foList n).toOption = some results := hn n le_rfl
  rw [hread.compareFunction_eq] at hrun
  intro fo hfo hne
  cases hloops : compareConfigFiles env foList parsed n configFiles with
  | error e =>
      rw [hloops] at hrun
      cases hrun
  | ok results =>
      obtain ⟨item, hitem⟩ := List.exists_mem_of_ne_nil _ hne
      obtain ⟨treePaths, hwalk⟩ := of_compareConfigFiles_eq_ok hloops fo hfo item hitem
      exact cycleFree_of_getFileTreePath hwalk

/-! ## Complete comparisons -/

variable {compared : ComparedObject} {x : FileObject × Uid × List VPath}

/-- An entry is one of the last path of a parent that is found in the firmware. -/
theorem entryOf_eq_some (h : entryOf foList tree fo item = some (path, firmware)) :
    firmwareRootUid foList item.1 (tree fo.uid) = some firmware ∧
      ∃ vfp, item.2.getLast? = some vfp ∧ localFilePath vfp = path := by
  obtain ⟨firmware', hfirmware, hpath⟩ := Option.bind_eq_some_iff.1 h
  obtain ⟨vfp, hlast, heq⟩ := Option.map_eq_some_iff.1 hpath
  obtain ⟨rfl, rfl⟩ := Prod.mk.inj heq
  exact ⟨hfirmware, vfp, hlast, rfl⟩

/-- The path of an entry is one of the file in the firmware. -/
theorem hasPathIn_of_entryOf (hread : Read env foList configFiles parsed) (htree : TreeOf env configFiles tree)
    (hx : x ∈ pathItems configFiles) (hentry : entryOf foList tree x.1 x.2 = some (path, compared.uid)) :
    ∃ vfp, localFilePath vfp = path ∧ (x.1.pathsIn x.2.1).getLast? = some vfp ∧
      HasPathIn env compared x.1 x.2.1 vfp := by
  obtain ⟨hfo, hitem⟩ := mem_pathItems.1 hx
  obtain ⟨hfirmware, vfp, hlast, hlocal⟩ := entryOf_eq_some hentry
  obtain ⟨-, hup⟩ := hread.paths hfo hitem
  obtain ⟨-, hincluded, hwithin⟩ :=
    within_of_firmwareRootUid (htree x.1 hfo (List.ne_nil_of_mem hitem)).2 hup hfirmware
  have hpaths := pathsIn_of_mem hitem
  refine ⟨vfp, hlocal, by rw [hpaths, hlast], hincluded, hwithin, ?_⟩
  rw [hpaths]
  exact List.mem_of_getLast? hlast

theorem shown_loops (h : shown (setCollapse ((pathItems configFiles).foldl (addPaths foList parsed tree) ∅))
    path firmware = some lines) : ∃ x ∈ pathItems configFiles,
      entryOf foList tree x.1 x.2 = some (path, firmware) ∧ lines = configLines parsed x.1.uid := by
  rw [shown_setCollapse] at h
  rcases shown_foldl h with hentry | hempty
  · exact hentry
  · cases hempty

theorem fileUid_mem_configLines : .fileUid uid ∈ configLines parsed firmware ↔ uid = firmware := by
  simp [configLines]

/-- A complete result separates the files. -/
theorem separated_of_complete (hread : Read env foList configFiles parsed) (htree : TreeOf env configFiles tree)
    (h : Complete env foList configFiles parsed
      (setCollapse ((pathItems configFiles).foldl (addPaths foList parsed tree) ∅))) :
    Separated env foList configFiles := by
  have hentry : ∀ compared ∈ foList, ∀ fo ∈ configFiles, ∀ parent path, HasPathIn env compared fo parent path →
      ∃ x ∈ pathItems configFiles, entryOf foList tree x.1 x.2 = some (path, compared.uid) ∧ x.1.uid = fo.uid ∧
        shown (setCollapse ((pathItems configFiles).foldl (addPaths foList parsed tree) ∅)) path compared.uid =
          some (configLines parsed fo.uid) := by
    intro compared hcompared fo hfo parent path hpath
    obtain ⟨lines, hshown, huid, -⟩ := h compared hcompared fo hfo parent path hpath
    obtain ⟨x, hx, hentry, rfl⟩ := shown_loops hshown
    obtain huid := fileUid_mem_configLines.1 huid
    rw [← huid] at hshown
    exact ⟨x, hx, hentry, huid.symm, hshown⟩
  have hplain : ∀ compared ∈ foList, ∀ fo ∈ configFiles, ∀ parent path, HasPathIn env compared fo parent path →
      '|' ∉ path.toList := by
    intro compared hcompared fo hfo parent path hpath
    obtain ⟨x, -, hentry, -, -⟩ := hentry compared hcompared fo hfo parent path hpath
    obtain ⟨-, vfp, -, rfl⟩ := entryOf_eq_some hentry
    exact notMem_localFilePath vfp
  constructor
  · intro compared hcompared fo hfo parent path hpath
    refine ⟨hplain compared hcompared fo hfo parent path hpath, ?_⟩
    obtain ⟨x, hx, hentry, huid, -⟩ := hentry compared hcompared fo hfo parent path hpath
    obtain ⟨hxfo, hxitem⟩ := mem_pathItems.1 hx
    obtain ⟨vfp, hlocal, hlast, hvfp⟩ := hasPathIn_of_entryOf hread htree hx hentry
    -- the entry is one of the file itself, and the path is taken as it is
    have hsame : x.1 = fo := hread.eq_of_uid hfo hxfo (mem_items_of_mem_pathsIn hpath.path) hxitem huid
    rw [localFilePath_of_notMem (hplain compared hcompared x.1 hxfo x.2.1 vfp hvfp)] at hlocal
    rw [hlocal, hsame] at hlast
    refine ⟨x.2.1, hlast, tree fo.uid, ?_, ?_⟩
    · exact (htree fo hfo (List.ne_nil_of_mem (mem_items_of_mem_pathsIn hpath.path))).1
    · rw [← hsame]
      exact (entryOf_eq_some hentry).1
  · intro compared hcompared fo hfo parent path hpath fo' hfo' parent' hpath'
    obtain ⟨-, -, -, -, hshown⟩ := hentry compared hcompared fo hfo parent path hpath
    obtain ⟨-, -, -, -, hshown'⟩ := hentry compared hcompared fo' hfo' parent' path hpath'
    rw [hshown] at hshown'
    have hmem : .fileUid fo'.uid ∈ configLines parsed fo.uid := by
      rw [Option.some.inj hshown']
      exact fileUid_mem_configLines.2 rfl
    exact fileUid_mem_configLines.1 hmem

/-- Separated files are all shown. -/
theorem complete_of_separated (hread : Read env foList configFiles parsed) (htree : TreeOf env configFiles tree)
    (h : Separated env foList configFiles) : Complete env foList configFiles parsed
      (setCollapse ((pathItems configFiles).foldl (addPaths foList parsed tree) ∅)) := by
  intro compared hcompared fo hfo parent path hpath
  obtain ⟨hplain, parent', hlast, treePaths, hterminates, hfound⟩ := h.found compared hcompared fo hfo parent path hpath
  have hmem : path ∈ fo.pathsIn parent' := List.mem_of_getLast? hlast
  have hitem := mem_items_of_mem_pathsIn hmem
  have hsame : treePaths = tree fo.uid :=
    hterminates.unique (htree fo hfo (List.ne_nil_of_mem hitem)).1
  -- an entry is made for the path
  have hentry : entryOf foList tree fo (parent', fo.pathsIn parent') = some (path, compared.uid) := by
    unfold entryOf
    rw [← hsame, hfound, Option.bind_some, hlast, Option.map_some, localFilePath_of_notMem hplain]
  obtain ⟨lines, hshown⟩ : ∃ lines, shown ((pathItems configFiles).foldl (addPaths foList parsed tree) ∅)
      path compared.uid = some lines := by
    apply exists_shown_foldl
    exact .inl ⟨(fo, parent', fo.pathsIn parent'), mem_pathItems.2 ⟨hfo, hitem⟩, hentry⟩
  rw [← shown_setCollapse] at hshown
  -- the entry that is shown is one of the same file
  obtain ⟨x, hx, hentry', rfl⟩ := shown_loops hshown
  have hxfo := (mem_pathItems.1 hx).1
  obtain ⟨vfp, hlocal, -, hvfp⟩ := hasPathIn_of_entryOf hread htree hx hentry'
  rw [localFilePath_of_notMem (h.found compared hcompared x.1 hxfo x.2.1 vfp hvfp).1] at hlocal
  rw [hlocal] at hvfp
  have huid := h.only compared hcompared fo hfo parent path hpath x.1 hxfo x.2.1 hvfp
  rw [huid] at hshown
  refine ⟨configLines parsed fo.uid, hshown, fileUid_mem_configLines.2 rfl, ?_⟩
  intro parameters hparameters item hitem
  unfold configLines
  rw [hparameters, Option.getD_some]
  exact List.mem_cons_of_mem _ (List.mem_map.2 ⟨item, hitem, rfl⟩)

/-- A complete comparison reads and parses the files, meets no cycle and separates
the files. -/
theorem separated_of_completesOn (h : CompletesOn env foList) :
    ∃ configFiles parsed, Read env foList configFiles parsed ∧ AcyclicAbove env configFiles ∧
      Separated env foList configFiles := by
  obtain ⟨configFiles, parsed, results, hread, hterminates, hcomplete⟩ := h
  have hacyclic := hread.acyclicAbove hterminates
  obtain ⟨tree, htree⟩ := exists_treeOf hacyclic
  rw [hterminates.unique (hread.terminates htree)] at hcomplete
  exact ⟨configFiles, parsed, hread, hacyclic, separated_of_complete hread htree hcomplete⟩

/-- A firmware that contains a config file twice. -/
def copies : List FileObject :=
  [FileObject.newFirmware "fw" "fw" 1 "fw" ⟨"d", "v", "c", "v", "", "2024-01-01", []⟩,
    { FileObject.new "f" "f" 1 "a.conf" with
      parents := ["fw"], parentFirmwareUids := {"fw"}
      virtualFilePath := (∅ : Dict Uid (List VPath)).set "fw" ["/a.conf", "/b.conf"] }]

def copiesDb : Db := copies.foldl (fun db fo => (db.addObject fo).1) Db.empty

def copiesEnvironment : Environment where
  db := copiesDb
  rows := Db.RowOrder.sorted
  parents := IterOrder.sorted String
  isConfigFile := fun _ => true
  parseConfig := fun _ => some ∅

def copiesCompared : List ComparedObject := [⟨"fw", ["fw", "f"]⟩]

theorem copiesDb_paths : copiesDb.virtualFilePath = {("fw", "f", "/a.conf"), ("fw", "f", "/b.conf")} := by
  decide +kernel

theorem copiesDb_included : copiesDb.includedFiles = {("fw", "f")} := by decide +kernel

theorem copiesDb_readable : ∀ uid ∈ getIncludedUids copiesCompared, uid ∈ copiesDb.fileObject →
    copiesDb.Readable uid := by
  intro uid huid _
  have hcases : uid = "fw" ∨ uid = "f" := by simpa [getIncludedUids, copiesCompared] using huid
  unfold Db.Readable Db.Included Db.HasPath
  rw [copiesDb_included, copiesDb_paths]
  rcases hcases with rfl | rfl
  · have hfirmware : "fw" ∈ copiesDb.firmware := by decide +kernel
    rw [if_pos hfirmware]
    simp
  · have hfirmware : "f" ∉ copiesDb.firmware := by decide +kernel
    rw [if_neg hfirmware]
    refine ⟨by simp, ⟨"fw", "/a.conf", by simp⟩, by simp⟩

end FileConfig

end FactCore
