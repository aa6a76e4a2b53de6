import FactCore.Lib.Dict
import FactCore.Lib.Join
import FactCore.Lib.KeyedTree
import FactCore.Objects.FileObject

/-! # The file tree

The web interface shows the files that were unpacked from a file as a tree. Every
virtual path of such a file becomes a chain of directory nodes with a node for the
file at its end, and the chains are merged into one tree. It is shown that the tree
has the given paths, each with its file at the end, whatever the order in which the
chains are added.
-/

namespace FactCore.FileTree

open KeyedTree

/-! ## Nodes -/

/-- What a `FileTreeNode` holds besides its children. -/
structure NodeData where
  uid : Option Uid
  rootUid : Option Uid
  virtual : Bool
  name : Option String
  size : Option Nat
  mode : Option String
  type : Option String
  hasChildren : Bool
  notAnalyzed : Bool
  deriving DecidableEq, Repr

/-- A node with its children, which the source keeps in a dictionary by id. -/
abbrev FileTreeNode := RoseTree NodeData

/-- `FileTreeNode(None)`, to which the nodes of the files are added. -/
def newRoot : NodeData where
  uid := none
  rootUid := none
  virtual := false
  name := none
  size := none
  mode := none
  type := none
  hasChildren := false
  notAnalyzed := false

/-- `get_id()`: the name and whether the node is a directory. -/
abbrev NodeId := Option String × Bool

def getId (node : NodeData) : NodeId := (node.name, node.virtual)

/-- `self.has_children = True`. -/
def setHasChildren (node : NodeData) : NodeData := { node with hasChildren := true }

/-- `add_child_node`. A new node replaces nothing and has no other parent, so the
aliasing of the source is not observed. -/
def addChildNode (self node : FileTreeNode) : FileTreeNode := add getId setHasChildren node self

/-- `node in self`. -/
def contains (self node : FileTreeNode) : Bool := (child? getId (getId node.value) self.children).isSome

/-- `merge_node`: the child with the id of the node receives its children. -/
def mergeNode (self node : FileTreeNode) : FileTreeNode :=
  .node self.value (self.children.map fun currentNode =>
    if getId currentNode.value = getId node.value then node.children.foldl addChildNode currentNode
    else currentNode)

/-- The two cases of `add_child_node`. -/
theorem addChildNode_eq (self node : FileTreeNode) : addChildNode self node =
    if contains self node then mergeNode self node
    else .node (setHasChildren self.value) (self.children ++ [node]) := by
  cases node with
  | node v cs =>
      rw [addChildNode, add]
      simp only [addAll_eq_foldl]
      rfl

/-- The loop of `merge_node` distinguishes the same cases, so each of its steps is
`add_child_node`. -/
theorem mergeNode_step (currentNode child : FileTreeNode) :
    (if contains currentNode child then mergeNode currentNode child else addChildNode currentNode child) =
      addChildNode currentNode child := by
  split
  · rename_i h
    rw [addChildNode_eq, if_pos h]
  · rfl

/-! ## The nodes of a file -/

/-- The data of a file from the database. -/
structure FileTreeData where
  uid : Uid
  fileName : String
  size : Nat
  virtualFilePath : Dict Uid (List VPath)
  mime : Option String
  includedFiles : Finset Uid
  fileModeData : Dict String String

/-- A layer of the file tree, for one file. No whitelist is an empty one. -/
structure VirtualPathFileTree where
  rootUid : Uid
  parentUid : Uid
  foData : FileTreeData
  whitelist : List Uid

/-- `path.lstrip('/')`. -/
def lstripSlashes (path : VPath) : String := String.ofList (path.toList.dropWhile (· = '/'))

/-- `path.lstrip('/').split('/')`. -/
@[irreducible] def pathNames (path : VPath) : List String := Join.split '/' (lstripSlashes path)

theorem pathNames_ne_nil (path : VPath) : pathNames path ≠ [] := by
  rw [pathNames]
  exact Join.split_ne_nil

namespace VirtualPathFileTree

variable (tree : VirtualPathFileTree)

/-- `self.virtual_file_paths`. -/
def virtualFilePaths : Option (List VPath) := tree.foData.virtualFilePath.get? tree.parentUid

def hasChildren : Bool :=
  if tree.whitelist = [] then !decide (tree.foData.includedFiles = ∅)
  else tree.whitelist.any fun f => decide (f ∈ tree.foData.includedFiles)

/-- `virtual_path or self.fo_data.file_name`. -/
def leafName (virtualPath : Option String) : String :=
  match virtualPath with
  | none => tree.foData.fileName
  | some name => if name = "" then tree.foData.fileName else name

/-- The data of `_get_node_for_real_file`. -/
def realFile (virtualPath mode : Option String) : NodeData where
  uid := some tree.foData.uid
  rootUid := some tree.rootUid
  virtual := false
  name := some (tree.leafName virtualPath)
  size := some tree.foData.size
  mode := mode
  type := tree.foData.mime
  hasChildren := tree.hasChildren
  notAnalyzed := false

def getNodeForRealFile (virtualPath mode : Option String) : FileTreeNode :=
  .node (tree.realFile virtualPath mode) []

/-- The data of a directory. -/
def directory (name : String) : NodeData where
  uid := none
  rootUid := some tree.rootUid
  virtual := true
  name := some name
  size := none
  mode := none
  type := none
  hasChildren := false
  notAnalyzed := false

/-- `_create_node_from_virtual_path` and `_get_node_for_virtual_file`, which call each
other: directories around the node of the file. -/
def createNodeFromVirtualPath (mode : Option String) : String → List String → FileTreeNode
  | currentElement, [] => tree.getNodeForRealFile (some currentElement) mode
  | currentElement, next :: rest =>
      addChildNode (.node (tree.directory currentElement) []) (createNodeFromVirtualPath mode next rest)

/-- The node for one virtual path. -/
def nodeForPath (path : VPath) : FileTreeNode :=
  tree.createNodeFromVirtualPath (tree.foData.fileModeData.get? (lstripSlashes path))
    ((pathNames path).head (pathNames_ne_nil path)) (pathNames path).tail

def getFileTreeNodes : List FileTreeNode :=
  match tree.virtualFilePaths with
  | none => [tree.getNodeForRealFile none none]
  | some paths => paths.map tree.nodeForPath

end VirtualPathFileTree

/-- `generate_file_tree_nodes_for_uid_list`, for the data of the files. -/
def generateFileTreeNodes (rootUid parentUid : Uid) (whitelist : List Uid) (files : List FileTreeData) :
    List FileTreeNode :=
  files.flatMap fun data => (VirtualPathFileTree.mk rootUid parentUid data whitelist).getFileTreeNodes

/-- The nodes are added to a root, one after the other. -/
def addNodes (root : NodeData) (nodes : List FileTreeNode) : FileTreeNode :=
  nodes.foldl addChildNode (.node root [])

/-! ## The nodes are single paths -/

section

variable (tree : VirtualPathFileTree) (mode : Option String)

/-- The data of a node with the names after it: a directory, or the file at the end. -/
def levelData (name : String) : List String → NodeData
  | [] => tree.realFile (some name) mode
  | _ :: _ => setHasChildren (tree.directory name)

/-- The data of the nodes on a path. -/
def pathData : List String → List NodeData
  | [] => []
  | name :: rest => levelData tree mode name rest :: pathData rest

/-- The ids on a path: directories, and a file at the end. -/
def pathIds : List String → List NodeId
  | [] => []
  | [name] => [(some name, false)]
  | name :: next :: rest => (some name, true) :: pathIds (next :: rest)

theorem createNodeFromVirtualPath_eq (name : String) (rest : List String) :
    tree.createNodeFromVirtualPath mode name rest =
      chain (levelData tree mode name rest) (pathData tree mode rest) := by
  induction rest generalizing name with
  | nil => rfl
  | cons next rest ih =>
      rw [VirtualPathFileTree.createNodeFromVirtualPath, ih, addChildNode_eq, if_neg]
      · rfl
      · simp [contains, child?]

theorem pathOk_pathData {names : List String} (hne : names ≠ []) :
    PathOk getId setHasChildren (fun k => k.2 = true) (pathData tree mode names) := by
  induction names with
  | nil => exact absurd rfl hne
  | cons name rest ih =>
      cases rest with
      | nil => exact Bool.false_ne_true
      | cons next rest => exact ⟨rfl, rfl, ih (List.cons_ne_nil _ _)⟩

theorem map_fst_pathIds : ∀ names : List String, (pathIds names).map Prod.fst = names.map some
  | [] => rfl
  | [_] => rfl
  | name :: next :: rest => by
      rw [pathIds, List.map_cons, map_fst_pathIds (next :: rest)]
      rfl

theorem pathIds_inj {names names' : List String} (h : pathIds names = pathIds names') : names = names' := by
  have hnames := congrArg (List.map Prod.fst) h
  rw [map_fst_pathIds, map_fst_pathIds] at hnames
  exact List.map_injective_iff.2 (fun _ _ => Option.some.inj) hnames

theorem leafName_of_ne {name : String} (h : name ≠ "") : tree.leafName (some name) = name := if_neg h

theorem map_getId_pathData {names : List String} (hlast : names.getLast? ≠ some "") :
    (pathData tree mode names).map getId = pathIds names := by
  induction names with
  | nil => rfl
  | cons name rest ih =>
      cases rest with
      | nil =>
          have hname : name ≠ "" := fun h => hlast (by rw [h, List.getLast?_singleton])
          show [(some (tree.leafName (some name)), false)] = [(some name, false)]
          rw [leafName_of_ne tree hname]
      | cons next rest =>
          rw [List.getLast?_cons_cons] at hlast
          rw [pathData, List.map_cons, ih hlast]
          rfl

theorem getLast?_pathData {names : List String} (hne : names ≠ []) :
    (pathData tree mode names).getLast? = some (tree.realFile names.getLast? mode) := by
  induction names with
  | nil => exact absurd rfl hne
  | cons name rest ih =>
      cases rest with
      | nil => rfl
      | cons next rest =>
          rw [List.getLast?_cons_cons, ← ih (List.cons_ne_nil _ _)]
          exact List.getLast?_cons_cons

/-- On a path there are directories before the file at its end. -/
theorem pathValue_pathData {names : List String} (hlast : names.getLast? ≠ some "") {ks : List NodeId}
    {v : NodeData} (h : pathValue getId (pathData tree mode names) ks = some v) :
    (∃ name, v = setHasChildren (tree.directory name)) ∨
      ks = pathIds names ∧ v = tree.realFile names.getLast? mode := by
  induction names generalizing ks with
  | nil => simp [pathData, pathValue] at h
  | cons name rest ih =>
      cases ks with
      | nil => simp [pathData, pathValue] at h
      | cons k ks =>
          cases rest with
          | nil =>
              -- the end of the path
              right
              have hname : name ≠ "" := fun h => hlast (by rw [h, List.getLast?_singleton])
              cases ks with
              | nil =>
                  simp only [pathData, pathValue] at h
                  split at h
                  · rename_i hk
                    cases h
                    refine ⟨?_, rfl⟩
                    rw [hk]
                    show [(some (tree.leafName (some name)), false)] = [(some name, false)]
                    rw [leafName_of_ne tree hname]
                  · cases h
              | cons k' ks =>
                  simp only [pathData, pathValue] at h
                  split at h
                  · cases h
                  · cases h
          | cons next rest =>
              cases ks with
              | nil =>
                  left
                  simp only [pathData, pathValue] at h
                  split at h
                  · cases h
                    exact ⟨name, rfl⟩
                  · cases h
              | cons k' ks =>
                  rw [List.getLast?_cons_cons] at hlast ⊢
                  rw [pathData, pathValue] at h
                  split at h
                  · rename_i hk
                    rcases ih hlast h with hdir | ⟨hks, hv⟩
                    · exact Or.inl hdir
                    · right
                      refine ⟨?_, hv⟩
                      rw [pathIds, hks, hk]
                      rfl
                  · cases h

end

/-! ## The merged tree -/

/-- The virtual paths of a file in a parent. -/
def FileTreeData.pathsIn (data : FileTreeData) (parentUid : Uid) : List VPath :=
  (data.virtualFilePath.get? parentUid).getD []

/-- The files with their virtual paths in one parent: each has a name at the end of
each path, the uids are distinct, and no two uids share a path. -/
structure OneParent (parentUid : Uid) (files : List FileTreeData) : Prop where
  inParent : ∀ data ∈ files, (data.virtualFilePath.get? parentUid).isSome
  namesFile : ∀ data ∈ files, ∀ path ∈ data.pathsIn parentUid, (pathNames path).getLast? ≠ some ""
  distinct : (files.map FileTreeData.uid).Nodup
  notShared : ∀ data ∈ files, ∀ data' ∈ files, ∀ path ∈ data.pathsIn parentUid,
    ∀ path' ∈ data'.pathsIn parentUid, lstripSlashes path = lstripSlashes path' → data.uid = data'.uid

/-- What the tree should be: no two siblings have the same id, and it has one leaf for
each path, with the uid of the path, which is reached over the directories of the path. -/
structure HoldsPaths (parentUid : Uid) (files : List FileTreeData) (tree : FileTreeNode) : Prop where
  distinct : Distinct getId tree
  once : ((leavesAll getId tree.children).map Prod.fst).Nodup
  leaf_iff : ∀ (ids : List NodeId) (uid : Option Uid),
    (∃ node, (ids, node) ∈ leavesAll getId tree.children ∧ node.uid = uid) ↔
      ∃ data ∈ files, ∃ path ∈ data.pathsIn parentUid, ids = pathIds (pathNames path) ∧ uid = some data.uid

section

variable {rootUid parentUid : Uid} {whitelist : List Uid} {files : List FileTreeData}

theorem mem_generateFileTreeNodes (h : OneParent parentUid files) {node : FileTreeNode} :
    node ∈ generateFileTreeNodes rootUid parentUid whitelist files ↔
      ∃ data ∈ files, ∃ path ∈ data.pathsIn parentUid,
        node = (VirtualPathFileTree.mk rootUid parentUid data whitelist).nodeForPath path := by
  rw [generateFileTreeNodes, List.mem_flatMap]
  refine exists_congr fun data => and_congr_right fun hdata => ?_
  obtain ⟨paths, hpaths⟩ := Option.isSome_iff_exists.1 (h.inParent data hdata)
  have hvfp : (VirtualPathFileTree.mk rootUid parentUid data whitelist).virtualFilePaths = some paths := hpaths
  rw [VirtualPathFileTree.getFileTreeNodes, hvfp, FileTreeData.pathsIn, hpaths, Option.getD_some]
  show node ∈ paths.map _ ↔ _
  rw [List.mem_map]
  exact exists_congr fun path => and_congr_right fun _ => eq_comm

theorem nodeForPath_eq (tree : VirtualPathFileTree) (path : VPath) : ∃ name rest,
    pathNames path = name :: rest ∧
      tree.nodeForPath path =
        chain (levelData tree (tree.foData.fileModeData.get? (lstripSlashes path)) name rest)
          (pathData tree (tree.foData.fileModeData.get? (lstripSlashes path)) rest) := by
  have hnames : pathNames path = (pathNames path).head (pathNames_ne_nil path) :: (pathNames path).tail :=
    (List.cons_head_tail (pathNames_ne_nil path)).symm
  exact ⟨_, _, hnames, createNodeFromVirtualPath_eq tree _ _ _⟩

theorem isPath_nodeForPath (tree : VirtualPathFileTree) (path : VPath) :
    IsPath getId setHasChildren (fun k => k.2 = true) (tree.nodeForPath path) := by
  obtain ⟨name, rest, -, hnode⟩ := nodeForPath_eq tree path
  exact ⟨_, _, hnode, pathOk_pathData tree _ (List.cons_ne_nil name rest)⟩

/-- A path of ids leads to the same data in a node as in the list of the data of the path. -/
theorem valueIn_nodeForPath (tree : VirtualPathFileTree) (path : VPath) (ids : List NodeId) :
    valueIn getId [tree.nodeForPath path] ids =
      pathValue getId (pathData tree (tree.foData.fileModeData.get? (lstripSlashes path)) (pathNames path)) ids := by
  obtain ⟨name, rest, hnames, hnode⟩ := nodeForPath_eq tree path
  rw [hnode, valueIn_chain, hnames]
  rfl

theorem leaves_nodeForPath (tree : VirtualPathFileTree) {path : VPath}
    (hlast : (pathNames path).getLast? ≠ some "") : leaves getId (tree.nodeForPath path) =
      [(pathIds (pathNames path),
        tree.realFile (pathNames path).getLast? (tree.foData.fileModeData.get? (lstripSlashes path)))] := by
  obtain ⟨name, rest, hnames, hnode⟩ := nodeForPath_eq tree path
  have hids := map_getId_pathData tree (tree.foData.fileModeData.get? (lstripSlashes path)) hlast
  have hend := getLast?_pathData tree (tree.foData.fileModeData.get? (lstripSlashes path))
    (pathNames_ne_nil path)
  rw [hnames] at hids hend
  rw [hnode, leaves_chain, hnames]
  congr 1
  refine Prod.ext hids ?_
  apply Option.some.inj
  rw [← List.getLast?_eq_getLast_of_ne_nil]
  exact hend

theorem pathNames_inj {path path' : VPath} (h : pathNames path = pathNames path') :
    lstripSlashes path = lstripSlashes path' := by
  have hjoin := congrArg (Join.join '/') h
  rwa [pathNames, pathNames, Join.join_split, Join.join_split] at hjoin

theorem eq_of_uid (h : OneParent parentUid files) {data data' : FileTreeData} (hdata : data ∈ files)
    (hdata' : data' ∈ files) (huid : data.uid = data'.uid) : data = data' :=
  List.inj_on_of_nodup_map h.distinct hdata hdata' huid

/-- Paths that lead over the same ids lead to the same data there. -/
theorem agree_generateFileTreeNodes (h : OneParent parentUid files) :
    Agree getId (generateFileTreeNodes rootUid parentUid whitelist files) := by
  intro n hn m hm ids v w hv hw
  obtain ⟨data, hdata, path, hpath, rfl⟩ := (mem_generateFileTreeNodes h).1 hn
  obtain ⟨data', hdata', path', hpath', rfl⟩ := (mem_generateFileTreeNodes h).1 hm
  rw [valueIn_nodeForPath] at hv hw
  have hid : getId v = getId w :=
    Option.some.inj ((getLast?_of_pathValue hv).symm.trans (getLast?_of_pathValue hw))
  rcases pathValue_pathData _ _ (h.namesFile data hdata path hpath) hv with ⟨name, rfl⟩ | ⟨hids, rfl⟩
  · rcases pathValue_pathData _ _ (h.namesFile data' hdata' path' hpath') hw with ⟨name', rfl⟩ | ⟨-, rfl⟩
    · -- directories of the same name
      have hname : name = name' := Option.some.inj (congrArg Prod.fst hid)
      rw [hname]
      rfl
    · exact absurd (congrArg Prod.snd hid) Bool.false_ne_true.symm
  · rcases pathValue_pathData _ _ (h.namesFile data' hdata' path' hpath') hw with ⟨name', rfl⟩ | ⟨hids', rfl⟩
    · exact absurd (congrArg Prod.snd hid) Bool.false_ne_true
    · -- the same path, so the same file
      have hnames := pathIds_inj (hids.symm.trans hids')
      have hstrip := pathNames_inj hnames
      have hsame := eq_of_uid h hdata hdata' (h.notShared data hdata data' hdata' path hpath path' hpath' hstrip)
      cases hsame
      rw [hnames, hstrip]

omit rootUid parentUid whitelist files in
theorem addNodes_eq (root : NodeData) (nodes : List FileTreeNode) :
    addNodes root nodes = addAll getId setHasChildren nodes (.node root []) :=
  (addAll_eq_foldl nodes _).symm

/-- The merged tree has the paths, each with its file at the end. -/
theorem holdsPaths_addNodes (h : OneParent parentUid files) (root : NodeData) {nodes : List FileTreeNode}
    (hperm : nodes.Perm (generateFileTreeNodes rootUid parentUid whitelist files)) :
    HoldsPaths parentUid files (addNodes root nodes) := by
  have hgrow : ∀ v, getId (setHasChildren v) = getId v := fun _ => rfl
  have hmem : ∀ n ∈ nodes, ∃ data ∈ files, ∃ path ∈ data.pathsIn parentUid,
      n = (VirtualPathFileTree.mk rootUid parentUid data whitelist).nodeForPath path :=
    fun n hn => (mem_generateFileTreeNodes h).1 (hperm.mem_iff.1 hn)
  have hpaths : ∀ n ∈ nodes, IsPath getId setHasChildren (fun k => k.2 = true) n := by
    intro n hn
    obtain ⟨data, -, path, -, rfl⟩ := hmem n hn
    exact isPath_nodeForPath _ path
  have hagree : Agree getId nodes := fun n hn m hm =>
    agree_generateFileTreeNodes h n (hperm.mem_iff.1 hn) m (hperm.mem_iff.1 hm)
  have hdistinct : Distinct getId (addNodes root nodes) := by
    rw [addNodes_eq]
    refine distinct_addAll hgrow nodes _ ?_ (distinct_chain root [])
    intro n hn
    obtain ⟨w, ws, rfl, -⟩ := hpaths n hn
    exact distinct_chain w ws
  refine ⟨hdistinct, nodup_leavesAll _ hdistinct.keys fun c hc => hdistinct.of_mem hc, ?_⟩
  intro ids uid
  rw [addNodes_eq]
  constructor
  · rintro ⟨node, hleaf, rfl⟩
    obtain ⟨n, hn, hleaf⟩ := (mem_leavesAll_addAll hgrow hpaths hagree).1 hleaf
    obtain ⟨data, hdata, path, hpath, rfl⟩ := hmem n hn
    rw [leaves_nodeForPath _ (h.namesFile data hdata path hpath), List.mem_singleton] at hleaf
    cases hleaf
    exact ⟨data, hdata, path, hpath, rfl, rfl⟩
  · rintro ⟨data, hdata, path, hpath, rfl, rfl⟩
    have hn := hperm.mem_iff.2 ((mem_generateFileTreeNodes h).2 ⟨data, hdata, path, hpath, rfl⟩)
    have hleaves := leaves_nodeForPath (VirtualPathFileTree.mk rootUid parentUid data whitelist)
      (h.namesFile data hdata path hpath)
    have hleaf := List.mem_singleton_self (pathIds (pathNames path),
      (VirtualPathFileTree.mk rootUid parentUid data whitelist).realFile (pathNames path).getLast?
        (data.fileModeData.get? (lstripSlashes path)))
    rw [← hleaves] at hleaf
    exact ⟨_, (mem_leavesAll_addAll hgrow hpaths hagree).2 ⟨_, hn, hleaf⟩, rfl⟩

/-- Two orders of the nodes lead to trees that differ in the order of siblings only. -/
theorem sameUpToOrder_addNodes (h : OneParent parentUid files) (root : NodeData)
    {nodes nodes' : List FileTreeNode}
    (hperm : nodes.Perm (generateFileTreeNodes rootUid parentUid whitelist files))
    (hperm' : nodes'.Perm (generateFileTreeNodes rootUid parentUid whitelist files)) :
    SameUpToOrder (addNodes root nodes) (addNodes root nodes') := by
  have hgrow : ∀ v, getId (setHasChildren v) = getId v := fun _ => rfl
  have hidem : ∀ v, setHasChildren (setHasChildren v) = setHasChildren v := fun _ => rfl
  have hpaths : ∀ n ∈ nodes, IsPath getId setHasChildren (fun k => k.2 = true) n := by
    intro n hn
    obtain ⟨data, -, path, -, rfl⟩ := (mem_generateFileTreeNodes h).1 (hperm.mem_iff.1 hn)
    exact isPath_nodeForPath _ path
  have hagree : Agree getId nodes := fun n hn m hm =>
    agree_generateFileTreeNodes h n (hperm.mem_iff.1 hn) m (hperm.mem_iff.1 hm)
  have hsame : nodes.Perm nodes' := hperm.trans hperm'.symm
  refine sameUpToOrder _ _ (holdsPaths_addNodes h root hperm).distinct
    (holdsPaths_addNodes h root hperm').distinct ?_ fun ids => ?_
  · rw [addNodes_eq, addNodes_eq, value_addAll_empty hidem, value_addAll_empty hidem]
    have hnil : nodes = [] ↔ nodes' = [] := by
      rw [← List.length_eq_zero_iff, ← List.length_eq_zero_iff, hsame.length_eq]
    exact if_congr hnil rfl rfl
  · rw [addNodes_eq, addNodes_eq]
    exact valueIn_addAll_perm hgrow hpaths hagree hsame ids

/-- In every order of the nodes the tree has exactly the paths, and all orders lead to
the same tree up to the order of siblings. -/
theorem fileTree_right (h : OneParent parentUid files) (root : NodeData) {nodes : List FileTreeNode}
    (hperm : nodes.Perm (generateFileTreeNodes rootUid parentUid whitelist files)) :
    HoldsPaths parentUid files (addNodes root nodes) ∧
      ∀ nodes' : List FileTreeNode, nodes'.Perm (generateFileTreeNodes rootUid parentUid whitelist files) →
        SameUpToOrder (addNodes root nodes) (addNodes root nodes') :=
  ⟨holdsPaths_addNodes h root hperm, fun _ hperm' => sameUpToOrder_addNodes h root hperm hperm'⟩

end

/-- A file with the name of a directory, and files in the directory. -/
def twoFiles : List FileTreeData :=
  [{ uid := "u1", fileName := "a", size := 4, virtualFilePath := Dict.empty.set "fw" ["/d/a"],
     mime := some "text/plain", includedFiles := ∅, fileModeData := Dict.empty },
   { uid := "u2", fileName := "b", size := 9, virtualFilePath := Dict.empty.set "fw" ["/d", "/d/b"],
     mime := none, includedFiles := {"u3"}, fileModeData := Dict.empty.set "d/b" "0o755" }]

theorem oneParent_twoFiles : OneParent "fw" twoFiles where
  inParent := by decide +kernel
  namesFile := by decide +kernel
  distinct := by decide +kernel
  notShared := by decide +kernel

theorem twoFiles_fileTree_right :
    HoldsPaths "fw" twoFiles (addNodes newRoot (generateFileTreeNodes "fw" "fw" [] twoFiles)) ∧
      SameUpToOrder (addNodes newRoot (generateFileTreeNodes "fw" "fw" [] twoFiles))
        (addNodes newRoot (generateFileTreeNodes "fw" "fw" [] twoFiles).reverse) :=
  have h := fileTree_right oneParent_twoFiles newRoot (List.Perm.refl (generateFileTreeNodes "fw" "fw" [] twoFiles))
  ⟨h.1, h.2 _ (List.reverse_perm _)⟩

end FactCore.FileTree
