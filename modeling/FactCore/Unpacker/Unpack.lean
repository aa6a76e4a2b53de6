import Mathlib.Data.Finset.Lattice.Lemmas
import FactCore.Objects.FileObject

/-! # Unpacking one file

`Unpacker.unpack` of `unpacker/unpack.py`: what the extractor found in a file
becomes file objects that know where they come from. What the extractor finds
is arbitrary; that a file object is returned once, never for the container
itself, and with all its paths, is due to `generate_objects_and_store_files`.
-/

namespace FactCore

/-- A file in the extraction directory. -/
structure ExtractedFile where
  uid : Uid
  sha256 : String
  size : Nat
  fileName : String
  /-- `get_relative_object_path` of the file. -/
  virtualPath : VPath
deriving DecidableEq

/-- `file_is_empty`. -/
def ExtractedFile.isEmpty (f : ExtractedFile) : Bool := f.size == 0

namespace Unpacker

/-- The file object of an extracted file that was not found in this container before. -/
def newFileObject (parent : FileObject) (f : ExtractedFile) : FileObject :=
  { FileObject.new f.uid f.sha256 f.size f.fileName with
    parentFirmwareUids := parent.rootUid.elim ∅ fun r => {r} }

/-- `virtual_file_path.setdefault(parent.uid, []).append(path)`. -/
def addPath (parent : Uid) (path : VPath) (fo : FileObject) : FileObject :=
  { fo with virtualFilePath := fo.virtualFilePath.set parent (fo.pathsIn parent ++ [path]) }

/-- One round of the loop in `generate_objects_and_store_files`: the same file
can be contained multiple times, then only its paths are extended. -/
def addExtracted (parent : FileObject) (extracted : Dict Uid FileObject) (f : ExtractedFile) :
    Dict Uid FileObject :=
  if f.isEmpty then extracted
  else extracted.set f.uid
    (addPath parent.uid f.virtualPath ((extracted.get? f.uid).getD (newFileObject parent f)))

/-- `generate_objects_and_store_files`, without the storing. -/
def generateObjects (parent : FileObject) (files : List ExtractedFile) : List FileObject :=
  ((files.foldl (addExtracted parent) ∅).erase parent.uid).values

/-- `Unpacker.unpack`: the file with its included files, and the objects of
these. Nothing is extracted at the depth limit. -/
def unpack (maxDepth : Nat) (fo : FileObject) (files : List ExtractedFile) :
    FileObject × List FileObject :=
  if maxDepth ≤ fo.depth then (fo, [])
  else
    let objects := generateObjects fo files
    (fo.includeFiles objects, objects.map fo.addIncludedFile)

/-! ## The extracted objects -/

/-- A file object that was found in `parent` and nowhere else. -/
structure FoundIn (parent fo : FileObject) : Prop where
  firmware : fo.firmware = none
  parents : fo.parents = []
  roots : fo.parentFirmwareUids = parent.rootUid.elim ∅ fun r => {r}
  paths : ∀ p, p ≠ parent.uid → fo.pathsIn p = []

/-- What the loop has collected: objects found in the parent, under their uids. -/
def Collected (parent : FileObject) (extracted : Dict Uid FileObject) : Prop :=
  ∀ u fo, extracted.get? u = some fo → fo.uid = u ∧ FoundIn parent fo

theorem foundIn_new (parent : FileObject) (f : ExtractedFile) :
    FoundIn parent (newFileObject parent f) := by
  refine ⟨rfl, rfl, rfl, ?_⟩
  intro p _
  rfl

theorem foundIn_addPath {parent fo : FileObject} (path : VPath) (h : FoundIn parent fo) :
    FoundIn parent (addPath parent.uid path fo) := by
  refine ⟨h.firmware, h.parents, h.roots, ?_⟩
  intro p hp
  have hold := h.paths p hp
  unfold FileObject.pathsIn at hold ⊢
  rw [addPath, Dict.get?_set_ne _ _ hp]
  exact hold

theorem mem_pathsIn_addPath {fo : FileObject} {parent : Uid} {path p : VPath} :
    p ∈ (addPath parent path fo).pathsIn parent ↔ p ∈ fo.pathsIn parent ∨ p = path := by
  simp [addPath, FileObject.pathsIn]

theorem collected_addExtracted {parent : FileObject} {extracted : Dict Uid FileObject}
    (f : ExtractedFile) (h : Collected parent extracted) :
    Collected parent (addExtracted parent extracted f) := by
  unfold addExtracted
  split
  · exact h
  · intro u fo hfo
    rw [Dict.get?_set] at hfo
    split at hfo
    · rename_i hu
      cases Option.some.inj hfo
      subst hu
      cases hold : extracted.get? f.uid with
      | none => exact ⟨rfl, foundIn_addPath _ (foundIn_new parent f)⟩
      | some old => exact ⟨(h _ old hold).1, foundIn_addPath _ (h _ old hold).2⟩
    · exact h u fo hfo

theorem collected_foldl {parent : FileObject} (files : List ExtractedFile)
    {extracted : Dict Uid FileObject} (h : Collected parent extracted) :
    Collected parent (files.foldl (addExtracted parent) extracted) := by
  induction files generalizing extracted with
  | nil => exact h
  | cons f rest ih => exact ih (collected_addExtracted f h)

theorem collected_files (parent : FileObject) (files : List ExtractedFile) :
    Collected parent (files.foldl (addExtracted parent) ∅) := by
  apply collected_foldl
  intro u fo hfo
  cases hfo

theorem mem_generateObjects {parent fo : FileObject} {files : List ExtractedFile}
    (h : fo ∈ generateObjects parent files) : fo.uid ≠ parent.uid ∧ FoundIn parent fo := by
  rcases Dict.mem_values.1 h with ⟨u, hu⟩
  rw [Dict.get?_erase] at hu
  split at hu
  · cases hu
  · rename_i hne
    rcases collected_files parent files u fo hu with ⟨huid, hfound⟩
    exact ⟨huid ▸ hne, hfound⟩

/-- The objects have different uids. -/
theorem nodup_generateObjects (parent : FileObject) (files : List ExtractedFile) :
    ((generateObjects parent files).map FileObject.uid).Nodup := by
  have hkeys : (generateObjects parent files).map FileObject.uid =
      ((files.foldl (addExtracted parent) ∅).erase parent.uid).keys := by
    unfold generateObjects Dict.values Dict.keys
    rw [List.map_map]
    apply List.map_congr_left
    rintro ⟨u, fo⟩ hmem
    have hget := Dict.get?_eq_some_iff.2 hmem
    rw [Dict.get?_erase] at hget
    split at hget
    · cases hget
    · exact (collected_files parent files u fo hget).1
  rw [hkeys]
  exact ((files.foldl (addExtracted parent) ∅).erase parent.uid).nodup

/-! ## No path is lost -/

/-- The path of the file is among those collected for its uid. -/
def Recorded (parent : Uid) (extracted : Dict Uid FileObject) (f : ExtractedFile) : Prop :=
  ∃ fo, extracted.get? f.uid = some fo ∧ f.virtualPath ∈ fo.pathsIn parent

theorem recorded_addExtracted {parent : FileObject} {extracted : Dict Uid FileObject}
    {f : ExtractedFile} (g : ExtractedFile) (h : Recorded parent.uid extracted f) :
    Recorded parent.uid (addExtracted parent extracted g) f := by
  rcases h with ⟨fo, hfo, hpath⟩
  unfold addExtracted
  split
  · exact ⟨fo, hfo, hpath⟩
  · by_cases hu : f.uid = g.uid
    · refine ⟨_, by rw [Dict.get?_set, if_pos hu], ?_⟩
      rw [← hu, hfo]
      exact mem_pathsIn_addPath.2 (Or.inl hpath)
    · exact ⟨fo, by rw [Dict.get?_set_ne _ _ hu]; exact hfo, hpath⟩

theorem recorded_self (parent : FileObject) (extracted : Dict Uid FileObject) {f : ExtractedFile}
    (h : f.isEmpty = false) : Recorded parent.uid (addExtracted parent extracted f) f := by
  unfold addExtracted
  rw [if_neg (by simp [h])]
  exact ⟨_, Dict.get?_set_self _ _ _, mem_pathsIn_addPath.2 (Or.inr rfl)⟩

theorem recorded_foldl {parent : FileObject} {files : List ExtractedFile}
    {extracted : Dict Uid FileObject} {f : ExtractedFile}
    (h : Recorded parent.uid extracted f ∨ (f ∈ files ∧ f.isEmpty = false)) :
    Recorded parent.uid (files.foldl (addExtracted parent) extracted) f := by
  induction files generalizing extracted with
  | nil =>
      rcases h with hold | ⟨hmem, -⟩
      · exact hold
      · cases hmem
  | cons g rest ih =>
      apply ih
      rcases h with hold | ⟨hmem, hne⟩
      · exact Or.inl (recorded_addExtracted g hold)
      · rcases List.mem_cons.1 hmem with rfl | hrest
        · exact Or.inl (recorded_self parent extracted hne)
        · exact Or.inr ⟨hrest, hne⟩

/-- Every file that was extracted is among the objects with its path, unless it
is empty or the container itself. -/
theorem generateObjects_complete {parent : FileObject} {files : List ExtractedFile}
    {f : ExtractedFile} (hf : f ∈ files) (hempty : f.isEmpty = false) (hne : f.uid ≠ parent.uid) :
    ∃ fo ∈ generateObjects parent files, fo.uid = f.uid ∧
      f.virtualPath ∈ fo.pathsIn parent.uid := by
  have hrecorded : Recorded parent.uid (files.foldl (addExtracted parent) ∅) f :=
    recorded_foldl (Or.inr ⟨hf, hempty⟩)
  rcases hrecorded with ⟨fo, hfo, hpath⟩
  refine ⟨fo, Dict.mem_values.2 ⟨f.uid, ?_⟩, (collected_files parent files _ fo hfo).1, hpath⟩
  rw [Dict.get?_erase_ne _ hne]
  exact hfo

/-- The paths that are collected under a uid, in the order of the files. -/
theorem pathsIn_foldl (parent : FileObject) (files : List ExtractedFile)
    (extracted : Dict Uid FileObject) (u : Uid) :
    ((files.foldl (addExtracted parent) extracted).get? u).elim [] (FileObject.pathsIn · parent.uid) =
      (extracted.get? u).elim [] (FileObject.pathsIn · parent.uid) ++
        (files.filter fun f => f.isEmpty = false ∧ f.uid = u).map ExtractedFile.virtualPath := by
  induction files generalizing extracted with
  | nil => exact (List.append_nil _).symm
  | cons f rest ih =>
      rw [List.foldl_cons, ih]
      by_cases hempty : f.isEmpty = true
      · simp [addExtracted, hempty]
      · rw [Bool.not_eq_true] at hempty
        by_cases hu : f.uid = u
        · subst hu
          cases hold : extracted.get? f.uid with
          | none => simp [addExtracted, hempty, hold, addPath, FileObject.pathsIn, newFileObject,
              FileObject.new]
          | some old => simp [addExtracted, hempty, hold, addPath, FileObject.pathsIn]
        · have hget : (addExtracted parent extracted f).get? u = extracted.get? u := by
            unfold addExtracted
            rw [if_neg (by simp [hempty]), Dict.get?_set_ne _ _ (Ne.symm hu)]
          simp [hget, hu]

/-- An object has one path for every file with its uid. -/
theorem pathsIn_generateObjects {parent fo : FileObject} {files : List ExtractedFile}
    (h : fo ∈ generateObjects parent files) :
    fo.pathsIn parent.uid =
      (files.filter fun f => f.isEmpty = false ∧ f.uid = fo.uid).map ExtractedFile.virtualPath := by
  rcases Dict.mem_values.1 h with ⟨u, hu⟩
  rw [Dict.get?_erase] at hu
  split at hu
  · cases hu
  · obtain rfl := (collected_files parent files u fo hu).1
    have hpaths := pathsIn_foldl parent files ∅ fo.uid
    rw [hu] at hpaths
    exact hpaths

/-! ## The result of `unpack` -/

/-- An object that `unpack` returns for a file found in `parent`. -/
structure ChildOf (parent fo : FileObject) : Prop where
  ne : fo.uid ≠ parent.uid
  firmware : fo.firmware = none
  rootUid : fo.rootUid = parent.rootUid
  parents : fo.parents = [parent.uid]
  roots : fo.parentFirmwareUids = parent.rootUid.elim ∅ fun r => {r}
  paths : ∀ p, p ≠ parent.uid → fo.pathsIn p = []

theorem unpack_task (maxDepth : Nat) (fo : FileObject) (files : List ExtractedFile) :
    (unpack maxDepth fo files).1 = fo.includeFiles (unpack maxDepth fo files).2 := by
  unfold unpack
  split
  · show fo = fo.includeFiles []
    simp only [FileObject.includeFiles, List.map_nil, List.toFinset_nil, Finset.union_empty]
  · simp [FileObject.includeFiles, List.map_map, Function.comp_def]

theorem mem_unpack {maxDepth : Nat} {fo child : FileObject} {files : List ExtractedFile}
    (h : child ∈ (unpack maxDepth fo files).2) : ChildOf fo child := by
  unfold unpack at h
  split at h
  · cases h
  · rcases List.mem_map.1 h with ⟨item, hitem, rfl⟩
    rcases mem_generateObjects hitem with ⟨hne, hfound⟩
    refine ⟨hne, hfound.firmware, rfl, ?_, hfound.roots, ?_⟩
    · show item.parents ++ [fo.uid] = [fo.uid]
      rw [hfound.parents]
      rfl
    · intro p hp
      rw [FileObject.addIncludedFile_pathsIn]
      exact hfound.paths p hp

theorem nodup_unpack (maxDepth : Nat) (fo : FileObject) (files : List ExtractedFile) :
    ((unpack maxDepth fo files).2.map FileObject.uid).Nodup := by
  unfold unpack
  split
  · exact List.nodup_nil
  · rw [List.map_map]
    exact nodup_generateObjects fo files

/-! ## What is contained in a file -/

/-- The extractor finds the file `v` in `u`, if `content` is what it finds: `v`
is not empty and not `u` itself. -/
def Contains (content : Uid → List ExtractedFile) (u v : Uid) : Prop :=
  v ≠ u ∧ ∃ f ∈ content u, f.isEmpty = false ∧ f.uid = v

theorem mem_foldl_addExtracted {parent : FileObject} {files : List ExtractedFile}
    {extracted : Dict Uid FileObject} {u : Uid}
    (h : u ∈ files.foldl (addExtracted parent) extracted) :
    u ∈ extracted ∨ ∃ f ∈ files, f.isEmpty = false ∧ f.uid = u := by
  induction files generalizing extracted with
  | nil => exact Or.inl h
  | cons f rest ih =>
      rcases ih h with hadded | ⟨g, hg, hug⟩
      · unfold addExtracted at hadded
        split at hadded
        · exact Or.inl hadded
        · rename_i hempty
          rcases Dict.mem_set.1 hadded with rfl | hold
          · exact Or.inr ⟨f, List.mem_cons_self, by simpa using hempty, rfl⟩
          · exact Or.inl hold
      · exact Or.inr ⟨g, List.mem_cons_of_mem _ hg, hug⟩

/-- The objects are those of the files that the extractor has found. -/
theorem contains_of_mem {content : Uid → List ExtractedFile} {parent fo : FileObject}
    (h : fo ∈ generateObjects parent (content parent.uid)) :
    Contains content parent.uid fo.uid := by
  refine ⟨(mem_generateObjects h).1, ?_⟩
  rcases Dict.mem_values.1 h with ⟨u, hu⟩
  rw [Dict.get?_erase] at hu
  split at hu
  · cases hu
  · have huid := (collected_files parent (content parent.uid) u fo hu).1
    rcases mem_foldl_addExtracted (Dict.mem_of_get? hu) with hnone | hfound
    · cases hnone
    · exact huid.symm ▸ hfound

/-- What `unpack` returns is contained in the file, one step deeper, and only
returned above the depth limit. -/
theorem mem_unpack_content {maxDepth : Nat} {content : Uid → List ExtractedFile}
    {fo child : FileObject} (h : child ∈ (unpack maxDepth fo (content fo.uid)).2) :
    fo.depth < maxDepth ∧ child.depth = fo.depth + 1 ∧ Contains content fo.uid child.uid := by
  unfold unpack at h
  split at h
  · cases h
  · rename_i hdepth
    rcases List.mem_map.1 h with ⟨item, hitem, rfl⟩
    have hcontains : Contains content fo.uid item.uid := contains_of_mem hitem
    exact ⟨Nat.lt_of_not_le hdepth, rfl, hcontains⟩

/-- Above the depth limit everything that is contained in the file is returned. -/
theorem unpack_content {maxDepth : Nat} {content : Uid → List ExtractedFile} {fo : FileObject}
    {v : Uid} (hdepth : fo.depth < maxDepth) (h : Contains content fo.uid v) :
    ∃ child ∈ (unpack maxDepth fo (content fo.uid)).2, child.uid = v := by
  rcases h with ⟨hne, f, hf, hempty, rfl⟩
  rcases generateObjects_complete hf hempty hne with ⟨item, hitem, huid, -⟩
  refine ⟨fo.addIncludedFile item, ?_, huid⟩
  unfold unpack
  rw [if_neg (Nat.not_le.2 hdepth)]
  exact List.mem_map_of_mem hitem

end Unpacker

end FactCore
