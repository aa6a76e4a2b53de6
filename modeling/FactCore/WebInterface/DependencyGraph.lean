import FactCore.HelperFunctions.Uid
import FactCore.Lib.PosixPaths

/-! # The dependency graph of a file system

`web_interface/components/dependency_graph.py`: the nodes are the programs, libraries and
symbolic links that a container holds, once for every path. An edge leads from a symbolic
link to the file it points to, and from a program to the first file that has the name of
a library it is linked against.

The target of a link is resolved by its text alone. An edge is drawn exactly where a walk
through the directories along the target ends at the file, unless the target is absolute
and goes up again, or starts with two slashes.
-/

namespace FactCore.DependencyGraph

open Join (split)
open PosixPaths (IsFilePath LeadsTo PurePath normpath)

/-! ## The code -/

/-- `DepGraphData`. There are no paths where `vfp_dict` has no entry for the uid, and no
libraries where there is no ELF analysis. -/
structure DepGraphData where
  uid : Uid
  fileName : String
  virtualFilePaths : Option (List String)
  mime : String
  fullType : String
  libraries : Option (List String)

structure Node where
  label : String
  id : String
  entity : Uid
  group : String
  fullFileType : String
  linkedLibraries : List String
  elfAnalysisMissing : Bool
deriving DecidableEq

/-- `{'from': …, 'to': …, 'id': …}`. -/
structure Edge where
  source : String
  target : String
  id : ℕ
deriving DecidableEq

structure DataGraph where
  nodes : List Node
  edges : List Edge
  groups : List String
deriving DecidableEq

/-- The node of a file under one of its paths. -/
def DepGraphData.node (entry : DepGraphData) (vpath : String) : Node where
  label := vpath
  id := vpath
  entity := entry.uid
  group := entry.mime
  fullFileType := entry.fullType
  linkedLibraries := entry.libraries.getD []
  elfAnalysisMissing := entry.libraries.isNone

/-- The entries that the loop does not pass over. -/
def shown (dependencyData : List DepGraphData) (whitelist : List String) : List DepGraphData :=
  dependencyData.filter fun entry => entry.mime ∈ whitelist ∧ entry.virtualFilePaths.getD [] ≠ []

/-- `create_data_graph_nodes_and_groups`. -/
def createDataGraphNodesAndGroups (dependencyData : List DepGraphData) (whitelist : List String) :
    DataGraph where
  nodes := (shown dependencyData whitelist).flatMap fun entry =>
    (entry.virtualFilePaths.getD []).map entry.node
  edges := []
  groups := Join.sorted ((shown dependencyData whitelist).map DepGraphData.mime).dedup

/-- `data_graph['edges'].append(…)` with the number of edges so far as id. -/
def addEdge (node : Node) (edges : List Edge) (lib : Node) : List Edge :=
  edges ++ [⟨node.id, lib.id, edges.length⟩]

/-- The apostrophe. -/
def quote : Char := Char.ofNat 39

/-- `node['full_file_type'].split("'")[1]`; there is no result where it raises an `IndexError`. -/
def targetText (node : Node) : Option String := (split quote node.fullFileType)[1]?

/-- The text that `create_symbolic_link_edges` compares the labels with. -/
def linkTo (node : Node) (text : String) : String :=
  if (PurePath.parse text).isAbsolute then (PurePath.parse text).str
  else normpath ((PurePath.parse node.label).parent.div (PurePath.parse text)).str

/-- One pass of the outer loop in `create_symbolic_link_edges`. -/
def linkEdges (nodes : List Node) (edges : List Edge) (node : Node) : Option (List Edge) :=
  if node.group = "inode/symlink" then
    (targetText node).map fun text =>
      (nodes.filter fun other => other.label = linkTo node text).foldl (addEdge node) edges
  else some edges

/-- `create_symbolic_link_edges`. -/
def createSymbolicLinkEdges (graph : DataGraph) : Option DataGraph :=
  (graph.nodes.foldlM (linkEdges graph.nodes) graph.edges).map fun edges => { graph with edges }

/-- `_find_edges`. -/
def findEdges (nodes : List Node) (node : Node) (edges : List Edge) (linkedLibName : String) : List Edge :=
  match nodes.find? fun lib => linkedLibName = (PurePath.parse lib.label).name with
  | none => edges
  | some lib => addEdge node edges lib

/-- One pass of the loop in `create_data_graph_edges`. -/
def libraryEdges (nodes : List Node) (s : List Edge × ℕ) (node : Node) : List Edge × ℕ :=
  if node.elfAnalysisMissing then (s.1, s.2 + 1)
  else (node.linkedLibraries.foldl (findEdges nodes node) s.1, s.2)

/-- `create_data_graph_edges`. There is no result where a symbolic link names no target. -/
def createDataGraphEdges (graph : DataGraph) : Option (DataGraph × ℕ) :=
  (createSymbolicLinkEdges graph).map fun linked =>
    let s := linked.nodes.foldl (libraryEdges linked.nodes) (linked.edges, 0)
    ({ linked with edges := s.1 }, s.2)

/-! ## What the edges mean -/

/-- The target is relative, or starts with one slash or at least three and never goes up. -/
def Plain (target : String) : Prop :=
  (PurePath.parse target).isAbsolute = true →
    (PurePath.parse target).anchor = .absolute ∧ ".." ∉ split '/' target

instance instDecidablePlain (target : String) : Decidable (Plain target) :=
  inferInstanceAs (Decidable (_ → _))

/-- The node is a symbolic link that points to the other one. -/
def PointsTo (node other : Node) : Prop :=
  node.group = "inode/symlink" ∧ ∃ target, targetText node = some target ∧
    LeadsTo node.label target other.label ∧ Plain target

/-- The node is linked against a library, and the other one is the first node of this name. -/
def Loads (nodes : List Node) (node other : Node) : Prop :=
  ∃ lib ∈ node.linkedLibraries, ∃ before behind, nodes = before ++ other :: behind ∧
    (PurePath.parse other.label).name = lib ∧ ∀ earlier ∈ before, (PurePath.parse earlier.label).name ≠ lib

/-! ## Targets -/

/-- The comparison of two texts finds the file that the walk ends at. -/
theorem label_eq_linkTo {node other : Node} (hnode : IsFilePath node.label)
    (hother : IsFilePath other.label) (text : String) :
    other.label = linkTo node text ↔ LeadsTo node.label text other.label ∧ Plain text := by
  unfold linkTo Plain
  cases habsolute : (PurePath.parse text).isAbsolute with
  | false => simp [PosixPaths.eq_normpath_iff hnode hother habsolute]
  | true => simp [PosixPaths.eq_str_parse_iff node.label hother habsolute]

/-! ## Edges -/

/-- The edges get further ends, and numbers that go on. -/
structure Appends (edges edges' : List Edge) (pairs : List (String × String)) : Prop where
  ends : (edges'.map fun edge => (edge.source, edge.target)) =
    (edges.map fun edge => (edge.source, edge.target)) ++ pairs
  numbered : edges.map Edge.id = List.range edges.length → edges'.map Edge.id = List.range edges'.length

theorem Appends.refl (edges : List Edge) : Appends edges edges [] := ⟨by simp, id⟩

theorem Appends.trans {edges edges' edges'' : List Edge} {pairs pairs' : List (String × String)}
    (h : Appends edges edges' pairs) (h' : Appends edges' edges'' pairs') :
    Appends edges edges'' (pairs ++ pairs') :=
  ⟨by rw [h'.ends, h.ends, List.append_assoc], h'.numbered ∘ h.numbered⟩

theorem Appends.addEdge (node lib : Node) (edges : List Edge) :
    Appends edges (addEdge node edges lib) [(node.id, lib.id)] := by
  constructor
  · simp [DependencyGraph.addEdge]
  · intro hnumbered
    simp [DependencyGraph.addEdge, hnumbered, List.range_succ]

/-- A loop that appends in every pass appends all of it. -/
theorem Appends.foldl {α : Type} {f : List Edge → α → List Edge} {pairs : α → List (String × String)}
    (h : ∀ edges a, Appends edges (f edges a) (pairs a)) (l : List α) (edges : List Edge) :
    Appends edges (l.foldl f edges) (l.flatMap pairs) := by
  induction l generalizing edges with
  | nil => exact Appends.refl edges
  | cons a l ih =>
      rw [List.foldl_cons, List.flatMap_cons]
      exact (h edges a).trans (ih _)

/-- The ends of the edges that leave a symbolic link. -/
def linkPairs (nodes : List Node) (node : Node) : List (String × String) :=
  if node.group = "inode/symlink" then
    (targetText node).elim [] fun text =>
      (nodes.filter fun other => other.label = linkTo node text).map fun other => (node.id, other.id)
  else []

/-- The ends of the edges that lead to libraries. -/
def libraryPairs (nodes : List Node) (node : Node) : List (String × String) :=
  node.linkedLibraries.flatMap fun linkedLibName =>
    ((nodes.find? fun lib => linkedLibName = (PurePath.parse lib.label).name).map
      fun lib => (node.id, lib.id)).toList

/-- The symbolic link has no target in apostrophes. -/
def Broken (node : Node) : Prop := node.group = "inode/symlink" ∧ targetText node = none

instance instDecidableBroken (node : Node) : Decidable (Broken node) := inferInstanceAs (Decidable (_ ∧ _))

theorem linkEdges_spec (nodes : List Node) (edges : List Edge) (node : Node) :
    (linkEdges nodes edges node = none ↔ Broken node) ∧
      ∀ edges', linkEdges nodes edges node = some edges' → Appends edges edges' (linkPairs nodes node) := by
  unfold linkEdges Broken linkPairs
  by_cases hgroup : node.group = "inode/symlink"
  · rw [if_pos hgroup, if_pos hgroup, Option.map_eq_none_iff]
    refine ⟨by simp [hgroup], ?_⟩
    intro edges' h
    obtain ⟨text, htext, rfl⟩ := Option.map_eq_some_iff.1 h
    have hall := Appends.foldl (fun edges other => Appends.addEdge node other edges)
      (nodes.filter fun other => other.label = linkTo node text) edges
    rw [htext, Option.elim_some, List.map_eq_flatMap]
    exact hall
  · rw [if_neg hgroup, if_neg hgroup]
    refine ⟨by simp [hgroup], ?_⟩
    intro edges' h
    rw [← Option.some.inj h]
    exact Appends.refl edges

/-- The loop over the symbolic links ends early if and only if one of them has no target. -/
theorem foldlM_linkEdges (all nodes : List Node) (edges : List Edge) :
    (nodes.foldlM (linkEdges all) edges = none ↔ ∃ node ∈ nodes, Broken node) ∧
      ∀ edges', nodes.foldlM (linkEdges all) edges = some edges' →
        Appends edges edges' (nodes.flatMap (linkPairs all)) := by
  induction nodes generalizing edges with
  | nil =>
      refine ⟨by simp, ?_⟩
      intro edges' h
      rw [← Option.some.inj h]
      exact Appends.refl edges
  | cons node nodes ih =>
      obtain ⟨hnone, hsome⟩ := linkEdges_spec all edges node
      rw [List.foldlM_cons, List.flatMap_cons, List.exists_mem_cons_iff (a := node)]
      cases hstep : linkEdges all edges node with
      | none =>
          exact ⟨iff_of_true rfl (Or.inl (hnone.1 hstep)), fun edges' h => by simp at h⟩
      | some next =>
          have hright : ¬ Broken node := fun hbroken => by simp [hnone.2 hbroken] at hstep
          obtain ⟨hnone', hsome'⟩ := ih next
          refine ⟨?_, fun edges' h => (hsome next hstep).trans (hsome' edges' h)⟩
          rw [or_iff_right hright, ← hnone']
          rfl

theorem findEdges_appends (nodes : List Node) (node : Node) (edges : List Edge) (linkedLibName : String) :
    Appends edges (findEdges nodes node edges linkedLibName)
      ((nodes.find? fun lib => linkedLibName = (PurePath.parse lib.label).name).map
        fun lib => (node.id, lib.id)).toList := by
  unfold findEdges
  cases nodes.find? fun lib => linkedLibName = (PurePath.parse lib.label).name with
  | none => exact Appends.refl edges
  | some lib => exact Appends.addEdge node lib edges

/-- A file without an ELF analysis is counted, and has no libraries to look for. -/
theorem foldl_libraryEdges (all nodes : List Node) (s : List Edge × ℕ)
    (hmissing : ∀ node ∈ nodes, node.elfAnalysisMissing = true → node.linkedLibraries = []) :
    Appends s.1 (nodes.foldl (libraryEdges all) s).1 (nodes.flatMap (libraryPairs all)) ∧
      (nodes.foldl (libraryEdges all) s).2 = s.2 + nodes.countP Node.elfAnalysisMissing := by
  induction nodes generalizing s with
  | nil => exact ⟨Appends.refl _, rfl⟩
  | cons node nodes ih =>
      obtain ⟨hrest, hcount⟩ := ih (libraryEdges all s node)
        fun other hmem => hmissing other (List.mem_cons_of_mem _ hmem)
      rw [List.foldl_cons, List.flatMap_cons, hcount]
      cases hnode : node.elfAnalysisMissing with
      | true =>
          have hnone : libraryPairs all node = [] := by
            simp [libraryPairs, hmissing node List.mem_cons_self hnode]
          rw [libraryEdges, if_pos hnode] at hrest ⊢
          rw [hnone, List.countP_cons_of_pos hnode]
          exact ⟨hrest, by simp only; omega⟩
      | false =>
          rw [libraryEdges, if_neg (by simp [hnode])] at hrest ⊢
          rw [List.countP_cons_of_neg (by simp [hnode])]
          exact ⟨(Appends.foldl (findEdges_appends all node) node.linkedLibraries s.1).trans hrest, rfl⟩

/-! ## The whole graph -/

theorem mem_nodes {data : List DepGraphData} {whitelist : List String} {node : Node}
    (h : node ∈ (createDataGraphNodesAndGroups data whitelist).nodes) :
    ∃ entry ∈ data, ∃ vpath ∈ entry.virtualFilePaths.getD [], node = entry.node vpath := by
  obtain ⟨entry, hentry, hnode⟩ := List.mem_flatMap.1 h
  obtain ⟨vpath, hvpath, rfl⟩ := List.mem_map.1 hnode
  exact ⟨entry, (List.mem_filter.1 hentry).1, vpath, hvpath, rfl⟩

theorem linkedLibraries_of_missing {data : List DepGraphData} {whitelist : List String} {node : Node}
    (h : node ∈ (createDataGraphNodesAndGroups data whitelist).nodes)
    (hmissing : node.elfAnalysisMissing = true) :
    node.linkedLibraries = [] := by
  obtain ⟨entry, -, vpath, -, rfl⟩ := mem_nodes h
  have hnone : entry.libraries = none := Option.isNone_iff_eq_none.1 hmissing
  simp [DepGraphData.node, hnone]

theorem mem_linkPairs {nodes : List Node} (hpaths : ∀ node ∈ nodes, IsFilePath node.label)
    {pair : String × String} :
    pair ∈ nodes.flatMap (linkPairs nodes) ↔
      ∃ node ∈ nodes, ∃ other ∈ nodes, (node.id, other.id) = pair ∧ PointsTo node other := by
  rw [List.mem_flatMap]
  refine exists_congr fun node => and_congr_right fun hnode => ?_
  unfold linkPairs PointsTo
  by_cases hgroup : node.group = "inode/symlink"
  · rw [if_pos hgroup]
    cases htext : targetText node with
    | none => simp
    | some text =>
        rw [Option.elim_some, List.mem_map]
        constructor
        · rintro ⟨other, hmem, hpair⟩
          obtain ⟨hother, hlabel⟩ := List.mem_filter.1 hmem
          have hleads :=
            (label_eq_linkTo (hpaths node hnode) (hpaths other hother) text).1 (of_decide_eq_true hlabel)
          exact ⟨other, hother, hpair, hgroup, text, rfl, hleads⟩
        · rintro ⟨other, hother, hpair, -, text', heq, hleads⟩
          rw [← Option.some.inj heq] at hleads
          have hlabel := (label_eq_linkTo (hpaths node hnode) (hpaths other hother) text).2 hleads
          exact ⟨other, List.mem_filter.2 ⟨hother, decide_eq_true hlabel⟩, hpair⟩
  · rw [if_neg hgroup]
    simp [hgroup]

theorem mem_libraryPairs {nodes : List Node} {pair : String × String} :
    pair ∈ nodes.flatMap (libraryPairs nodes) ↔
      ∃ node ∈ nodes, ∃ other ∈ nodes, (node.id, other.id) = pair ∧ Loads nodes node other := by
  rw [List.mem_flatMap]
  refine exists_congr fun node => and_congr_right fun hnode => ?_
  unfold libraryPairs Loads
  simp only [List.mem_flatMap, Option.mem_toList, Option.map_eq_some_iff]
  constructor
  · rintro ⟨lib, hlib, other, hfind, hpair⟩
    obtain ⟨hname, before, behind, hnodes, hbefore⟩ := List.find?_eq_some_iff_append.1 hfind
    refine ⟨other, List.mem_of_find?_eq_some hfind, hpair, lib, hlib, before, behind, hnodes,
      (of_decide_eq_true hname).symm, ?_⟩
    intro earlier hmem heq
    simpa [heq] using hbefore earlier hmem
  · rintro ⟨other, hother, hpair, lib, hlib, before, behind, hnodes, hname, hbefore⟩
    refine ⟨lib, hlib, other, List.find?_eq_some_iff_append.2
      ⟨decide_eq_true hname.symm, before, behind, hnodes, ?_⟩, hpair⟩
    intro earlier hmem
    simpa using fun heq => hbefore earlier hmem heq.symm

/-- The graph of files with proper paths cannot be drawn if and only if a symbolic link has no
target. Else the edges are numbered from zero on, they lead from the symbolic links to where
these point and from the programs to their libraries, and nowhere else, and the files without an
ELF analysis are counted once for every path. -/
theorem createDataGraphEdges_spec (dependencyData : List DepGraphData) (whitelist : List String)
    (hpaths : ∀ entry ∈ dependencyData, ∀ vpath ∈ entry.virtualFilePaths.getD [], IsFilePath vpath)
    (graph : DataGraph) (hgraph : graph = createDataGraphNodesAndGroups dependencyData whitelist) :
    (createDataGraphEdges graph = none ↔ ∃ node ∈ graph.nodes, Broken node) ∧
      ∀ graph' missing, createDataGraphEdges graph = some (graph', missing) →
        graph'.nodes = graph.nodes ∧ graph'.groups = graph.groups ∧
        missing = graph.nodes.countP Node.elfAnalysisMissing ∧
        graph'.edges.map Edge.id = List.range graph'.edges.length ∧
        ∀ source target, (∃ edge ∈ graph'.edges, edge.source = source ∧ edge.target = target) ↔
          ∃ node ∈ graph.nodes, ∃ other ∈ graph.nodes, node.id = source ∧ other.id = target ∧
            (PointsTo node other ∨ Loads graph.nodes node other) := by
  have hempty : graph.edges = [] := by
    rw [hgraph]
    rfl
  have hlabels : ∀ node ∈ graph.nodes, IsFilePath node.label := by
    intro node hmem
    rw [hgraph] at hmem
    obtain ⟨entry, hentry, vpath, hvpath, rfl⟩ := mem_nodes hmem
    exact hpaths entry hentry vpath hvpath
  have hmissing : ∀ node ∈ graph.nodes, node.elfAnalysisMissing = true → node.linkedLibraries = [] := by
    intro node hmem
    rw [hgraph] at hmem
    exact linkedLibraries_of_missing hmem
  obtain ⟨hnone, hsome⟩ := foldlM_linkEdges graph.nodes graph.nodes graph.edges
  constructor
  · rw [createDataGraphEdges, createSymbolicLinkEdges, Option.map_eq_none_iff, Option.map_eq_none_iff, hnone]
  · intro graph' missing h
    obtain ⟨linked, hlinked, heq⟩ := Option.map_eq_some_iff.1 h
    obtain ⟨edges, hedges, rfl⟩ := Option.map_eq_some_iff.1 hlinked
    obtain ⟨hlibraries, hcount⟩ := foldl_libraryEdges graph.nodes graph.nodes (edges, 0) hmissing
    obtain ⟨rfl, rfl⟩ := Prod.mk.inj heq
    have hall := (hsome edges hedges).trans hlibraries
    rw [hempty] at hall
    refine ⟨rfl, rfl, by rw [hcount, Nat.zero_add], hall.numbered rfl, ?_⟩
    intro source target
    have hmem := congrArg (fun pairs => (source, target) ∈ pairs) hall.ends
    rw [List.map_nil, List.nil_append, eq_iff_iff, List.mem_append, mem_linkPairs hlabels, mem_libraryPairs,
      List.mem_map] at hmem
    simp only [Prod.mk.injEq] at hmem
    rw [hmem, ← exists_or]
    refine exists_congr fun node => ?_
    rw [← and_or_left]
    refine and_congr_right fun _ => ?_
    rw [← exists_or]
    refine exists_congr fun other => ?_
    tauto

def libc : DepGraphData := ⟨"a_1", "libc.so", some ["/lib/libc.so"], "application/x-sharedlib", "ELF", none⟩

def ls : DepGraphData := ⟨"b_1", "ls", some ["/bin/ls"], "application/x-executable", "ELF", some ["libc.so"]⟩

def dir : DepGraphData :=
  ⟨"c_1", "dir", some ["/usr/sbin/dir"], "inode/symlink", "symbolic link to '../../bin/ls'", none⟩

/-- The mime types of `show_elf_dependency_graph`. -/
def mimeWhitelist : List String :=
  ["application/x-executable", "application/x-pie-executable", "application/x-sharedlib", "inode/symlink"]

/-- A library, a program that uses it and a link to the program. -/
theorem createDataGraphEdges_ls :
    ∃ graph missing,
      createDataGraphEdges (createDataGraphNodesAndGroups [libc, ls, dir] mimeWhitelist) =
        some (graph, missing) ∧
      missing = 2 ∧ (∃ edge ∈ graph.edges, edge.source = "/usr/sbin/dir" ∧ edge.target = "/bin/ls") ∧
      ∃ edge ∈ graph.edges, edge.source = "/bin/ls" ∧ edge.target = "/lib/libc.so" := by
  have hpaths : ∀ entry ∈ [libc, ls, dir], ∀ vpath ∈ entry.virtualFilePaths.getD [], IsFilePath vpath := by
    simp only [List.forall_mem_cons, libc, ls, dir, Option.getD_some]
    exact ⟨⟨⟨["lib", "libc.so"], by decide, rfl⟩, by simp⟩, ⟨⟨["bin", "ls"], by decide, rfl⟩, by simp⟩,
      ⟨⟨["usr", "sbin", "dir"], by decide, rfl⟩, by simp⟩, by simp⟩
  have hnodes : (createDataGraphNodesAndGroups [libc, ls, dir] mimeWhitelist).nodes =
      [libc.node "/lib/libc.so", ls.node "/bin/ls", dir.node "/usr/sbin/dir"] := by decide +kernel
  obtain ⟨hnone, hsome⟩ := createDataGraphEdges_spec [libc, ls, dir] mimeWhitelist hpaths _ rfl
  rw [hnodes] at hnone hsome
  have hdrawn :
      createDataGraphEdges (createDataGraphNodesAndGroups [libc, ls, dir] mimeWhitelist) ≠ none := by
    rw [ne_eq, hnone]
    decide +kernel
  obtain ⟨⟨graph, missing⟩, hgraph⟩ := Option.ne_none_iff_exists'.1 hdrawn
  obtain ⟨-, -, hmissing, -, hedges⟩ := hsome graph missing hgraph
  refine ⟨graph, missing, hgraph, hmissing.trans (by decide +kernel), (hedges _ _).2 ?_, (hedges _ _).2 ?_⟩
  · refine ⟨dir.node "/usr/sbin/dir", by simp, ls.node "/bin/ls", by simp, rfl, rfl, Or.inl ?_⟩
    refine ⟨rfl, "../../bin/ls", ?_⟩
    exact ⟨by decide +kernel, by decide +kernel, by decide +kernel⟩
  · refine ⟨ls.node "/bin/ls", by simp, libc.node "/lib/libc.so", by simp, rfl, rfl, Or.inr ?_⟩
    exact ⟨"libc.so", by simp [ls, DepGraphData.node], [], _, rfl, by decide +kernel, by simp⟩

end FactCore.DependencyGraph
