import Mathlib.Data.Set.Function
import FactCore.Unpacker.Unpack

/-! # From extracted paths to stored file objects

`Unpacker.generate_objects_and_store_files` of `unpacker/unpack.py` as it runs
on the disk: every extracted path is read, hashed, made relative to the
extraction directory, locked and stored, and the objects are merged by uid. The
objects are those of `Unpacker.generateObjects`.

Reading and writing files is left to a library, and the hash to another; they
are parameters here.
-/

namespace FactCore

/-! ## Paths -/

/-- A path as `pathlib` keeps it: its parts, and whether it starts at the root. -/
structure PosixPath where
  absolute : Bool
  parts : List String
deriving DecidableEq

namespace PosixPath

/-- `str(path)`. -/
def str (path : PosixPath) : String :=
  if path.absolute then "/" ++ "/".intercalate path.parts
  else if path.parts = [] then "."
  else "/".intercalate path.parts

/-- `path.relative_to(other)`; there is no result where it raises a `ValueError`. -/
def relativeTo (path other : PosixPath) : Option PosixPath :=
  if path.absolute = other.absolute ∧ other.parts <+: path.parts then
    some ⟨false, path.parts.drop other.parts.length⟩
  else none

/-- `path / name / …` for names without a separator. -/
def join (path : PosixPath) (names : List String) : PosixPath :=
  { path with parts := path.parts ++ names }

theorem relativeTo_join (path : PosixPath) (names : List String) :
    (path.join names).relativeTo path = some ⟨false, names⟩ := by
  simp [relativeTo, join]

theorem join_injective (path : PosixPath) {names names' : List String}
    (h : path.join names = path.join names') : names = names' := by
  have hparts := congrArg PosixPath.parts h
  exact List.append_cancel_left hparts

end PosixPath

/-- `get_relative_object_path`: the first `ValueError` ends the rewriting. -/
def getRelativeObjectPath (path offsetPath : PosixPath) : VPath :=
  let path := match path.relativeTo offsetPath with
    | none => path
    | some inner => (inner.relativeTo ⟨false, ["fact_extracted"]⟩).getD inner
  if path.absolute then path.str else "/" ++ path.str

/-- Below the extraction directory, the path is the one below it. -/
theorem getRelativeObjectPath_join (offsetPath : PosixPath) {names : List String}
    (h : ¬ ["fact_extracted"] <+: names) :
    getRelativeObjectPath (offsetPath.join names) offsetPath = "/" ++ PosixPath.str ⟨false, names⟩ := by
  have hnone : PosixPath.relativeTo ⟨false, names⟩ ⟨false, ["fact_extracted"]⟩ = none := by
    unfold PosixPath.relativeTo
    rw [if_neg (fun hboth => h hboth.2)]
  unfold getRelativeObjectPath
  simp [PosixPath.relativeTo_join, hnone]

/-- The directory that some extractors create does not show. -/
theorem getRelativeObjectPath_fact_extracted (offsetPath : PosixPath) (names : List String) :
    getRelativeObjectPath (offsetPath.join ("fact_extracted" :: names)) offsetPath =
      "/" ++ PosixPath.str ⟨false, names⟩ := by
  have hinner : PosixPath.relativeTo ⟨false, "fact_extracted" :: names⟩ ⟨false, ["fact_extracted"]⟩ =
      some ⟨false, names⟩ := PosixPath.relativeTo_join ⟨false, ["fact_extracted"]⟩ names
  unfold getRelativeObjectPath
  simp [PosixPath.relativeTo_join, hinner]

/-! ## Files -/

/-- The bytes of a file. -/
abbrev Bytes := List UInt8

/-- What is found under a path that is no directory. -/
inductive DiskFile where
  | regular (content : Bytes)
  /-- A link with the content of the file at its end, if there is one that can be read. -/
  | symlink (target : String) (resolved : Option Bytes)
deriving DecidableEq

/-- `file_is_empty`. -/
def fileIsEmpty : DiskFile → Bool
  | .regular content => content.length == 0
  | .symlink _ (some content) => content.length == 0
  | .symlink _ none => false

/-- The files of the storage directory. -/
abbrev FileStorage := PosixPath → Option Bytes

/-- The library functions that touch the bytes of a file. -/
structure FileLibrary where
  sha256 : Bytes → String
  getBinaryFromFile : DiskFile → Bytes
  /-- `write_binary_to_file(binary, path, overwrite=False)`. -/
  writeBinaryToFile : Bytes → PosixPath → FileStorage → FileStorage

/-- The documented behaviour: a link is read as a text that names its target,
and a file that exists is not overwritten. -/
structure FileLibrary.Documented (lib : FileLibrary) : Prop where
  read_regular : ∀ content, lib.getBinaryFromFile (.regular content) = content
  read_symlink : ∀ target resolved, lib.getBinaryFromFile (.symlink target resolved) ≠ []
  write : ∀ binary path storage, lib.writeBinaryToFile binary path storage =
    Function.update storage path (some ((storage path).getD binary))

/-- `create_uid`. -/
def createUid (sha256 : Bytes → String) (binary : Bytes) : Uid :=
  sha256 binary ++ "_" ++ toString binary.length

/-- `FSOrganizer.generate_path_from_uid`. -/
def generatePathFromUid (dataStoragePath : PosixPath) (uid : Uid) : PosixPath :=
  dataStoragePath.join [String.ofList (uid.toList.take 2), uid]

theorem generatePathFromUid_injective (dataStoragePath : PosixPath) {uid uid' : Uid}
    (h : generatePathFromUid dataStoragePath uid = generatePathFromUid dataStoragePath uid') :
    uid = uid' := by
  have hnames := PosixPath.join_injective dataStoragePath h
  simp only [List.cons.injEq] at hnames
  exact hnames.2.1

namespace Unpacker

/-! ## The loop -/

/-- Where the unpacker works: the library, the files on the disk, the extraction
directory and the storage directory. -/
structure Workplace where
  lib : FileLibrary
  fileAt : PosixPath → DiskFile
  extractionDir : PosixPath
  dataStoragePath : PosixPath

namespace Workplace

variable (w : Workplace)

/-- What is read under a path. -/
def contentAt (path : PosixPath) : Bytes := w.lib.getBinaryFromFile (w.fileAt path)

/-- The uid of what is read under a path. -/
def uidAt (path : PosixPath) : Uid := createUid w.lib.sha256 (w.contentAt path)

/-- The path is not skipped. -/
def NonEmpty (path : PosixPath) : Prop := fileIsEmpty (w.fileAt path) = false

instance (path : PosixPath) : Decidable (w.NonEmpty path) := inferInstanceAs (Decidable (_ = _))

/-- `FileObject(file_path=str(path))` with its path in the container. -/
def extractedFile (path : PosixPath) : ExtractedFile where
  uid := w.uidAt path
  sha256 := w.lib.sha256 (w.contentAt path)
  size := (w.contentAt path).length
  fileName := path.parts.getLast?.getD ""
  virtualPath := getRelativeObjectPath path w.extractionDir

end Workplace

/-- What the loop reads and writes: the objects so far, the storage and the
unpacking locks. -/
structure Generated where
  extracted : Dict Uid FileObject
  storage : FileStorage
  locks : Finset Uid

/-- One round of the loop. -/
def generateStep (w : Workplace) (parent : FileObject) (s : Generated) (path : PosixPath) :
    Generated :=
  if fileIsEmpty (w.fileAt path) then s
  else
    let file := w.extractedFile path
    match s.extracted.get? file.uid with
    | some known => { s with extracted := s.extracted.set file.uid (addPath parent.uid file.virtualPath known) }
    | none =>
        { extracted := s.extracted.set file.uid
            (addPath parent.uid file.virtualPath (newFileObject parent file))
          storage := w.lib.writeBinaryToFile (w.contentAt path)
            (generatePathFromUid w.dataStoragePath file.uid) s.storage
          locks := insert file.uid s.locks }

/-- The loop over the extracted paths. -/
def generateRun (w : Workplace) (parent : FileObject) (paths : List PosixPath)
    (storage : FileStorage) (locks : Finset Uid) : Generated :=
  paths.foldl (generateStep w parent) ⟨∅, storage, locks⟩

/-- `generate_objects_and_store_files`: the objects, and the storage afterwards. -/
def generateObjectsAndStoreFiles (w : Workplace) (parent : FileObject) (paths : List PosixPath)
    (storage : FileStorage) (locks : Finset Uid) : List FileObject × FileStorage :=
  let s := generateRun w parent paths storage locks
  ((s.extracted.erase parent.uid).values, s.storage)

variable {w : Workplace} {parent : FileObject} {paths : List PosixPath} {storage : FileStorage}
  {locks : Finset Uid}

namespace Workplace

theorem contentAt_ne_nil (hlib : w.lib.Documented) {path : PosixPath} (h : w.NonEmpty path) :
    w.contentAt path ≠ [] := by
  unfold NonEmpty at h
  unfold contentAt
  cases hfile : w.fileAt path with
  | regular content =>
      rw [hlib.read_regular]
      rintro rfl
      simp [hfile, fileIsEmpty] at h
  | symlink target resolved => exact hlib.read_symlink target resolved

theorem isEmpty_extractedFile (hlib : w.lib.Documented) {path : PosixPath} (h : w.NonEmpty path) :
    (w.extractedFile path).isEmpty = false := by
  have hlength : (w.contentAt path).length ≠ 0 := fun hzero =>
    contentAt_ne_nil hlib h (List.length_eq_zero_iff.1 hzero)
  exact beq_eq_false_iff_ne.2 hlength

end Workplace

/-- A round collects an object just as `addExtracted` does. -/
theorem extracted_generateStep (hlib : w.lib.Documented) (s : Generated) {path : PosixPath}
    (h : w.NonEmpty path) : (generateStep w parent s path).extracted =
      addExtracted parent s.extracted (w.extractedFile path) := by
  unfold generateStep addExtracted
  rw [if_neg (by rw [h]; decide), if_neg (by simp [Workplace.isEmpty_extractedFile hlib h])]
  cases hget : s.extracted.get? (w.extractedFile path).uid with
  | none => simp [hget]
  | some known => simp [hget]

theorem generateStep_of_empty (s : Generated) {path : PosixPath} (h : ¬ w.NonEmpty path) :
    generateStep w parent s path = s := by
  have hempty : fileIsEmpty (w.fileAt path) = true := Bool.eq_true_of_not_eq_false h
  rw [generateStep, if_pos hempty]

/-- The files that the loop does not skip. -/
def Workplace.files (w : Workplace) (paths : List PosixPath) : List ExtractedFile :=
  (paths.filter fun path => w.NonEmpty path).map w.extractedFile

theorem extracted_foldl (hlib : w.lib.Documented) (paths : List PosixPath) (s : Generated) :
    (paths.foldl (generateStep w parent) s).extracted =
      (w.files paths).foldl (addExtracted parent) s.extracted := by
  induction paths generalizing s with
  | nil => rfl
  | cons path rest ih =>
      rw [List.foldl_cons, ih]
      by_cases h : w.NonEmpty path
      · rw [extracted_generateStep hlib s h]
        simp [Workplace.files, h]
      · rw [generateStep_of_empty s h]
        simp [Workplace.files, h]

/-- The objects are those that `generateObjects` makes of the files. -/
theorem generateObjectsAndStoreFiles_fst (hlib : w.lib.Documented) :
    (generateObjectsAndStoreFiles w parent paths storage locks).1 =
      generateObjects parent (w.files paths) := by
  unfold generateObjectsAndStoreFiles generateObjects generateRun
  simp only [extracted_foldl hlib]

/-! ## The storage -/

/-- Every object of the loop so far is locked and lies in the storage, with the
content of a path that was read; what was in the storage before is kept. -/
structure Kept (w : Workplace) (paths : List PosixPath) (storage : FileStorage) (s : Generated) :
    Prop where
  stored : ∀ u ∈ s.extracted, ∃ path ∈ paths, w.NonEmpty path ∧ w.uidAt path = u ∧
    s.storage (generatePathFromUid w.dataStoragePath u) =
      some ((storage (generatePathFromUid w.dataStoragePath u)).getD (w.contentAt path))
  other : ∀ u, u ∉ s.extracted → s.storage (generatePathFromUid w.dataStoragePath u) =
    storage (generatePathFromUid w.dataStoragePath u)
  locked : ∀ u ∈ s.extracted, u ∈ s.locks

theorem kept_generateStep (hlib : w.lib.Documented) {s : Generated} (hs : Kept w paths storage s)
    {path : PosixPath} (hpath : path ∈ paths) :
    Kept w paths storage (generateStep w parent s path) := by
  by_cases h : w.NonEmpty path
  · unfold generateStep
    rw [if_neg (by rw [h]; decide)]
    cases hget : s.extracted.get? (w.extractedFile path).uid with
    | some known =>
        -- the uid is known: nothing is stored, and no key is new
        have hkeys : ∀ u fo, u ∈ s.extracted.set (w.extractedFile path).uid fo ↔ u ∈ s.extracted := by
          intro u fo
          rw [Dict.mem_set, or_iff_right_of_imp]
          rintro rfl
          exact Dict.mem_of_get? hget
        simp only [hget]
        refine ⟨?_, ?_, ?_⟩
        · intro u hu
          exact hs.stored u ((hkeys u _).1 hu)
        · intro u hu
          exact hs.other u fun hold => hu ((hkeys u _).2 hold)
        · intro u hu
          exact hs.locked u ((hkeys u _).1 hu)
    | none =>
        simp only [hget]
        have hnew : (w.extractedFile path).uid ∉ s.extracted := by
          simp [Dict.mem_iff_isSome, hget]
        have hkeep : ∀ u, u ≠ (w.extractedFile path).uid →
            w.lib.writeBinaryToFile (w.contentAt path)
              (generatePathFromUid w.dataStoragePath (w.extractedFile path).uid) s.storage
              (generatePathFromUid w.dataStoragePath u) =
            s.storage (generatePathFromUid w.dataStoragePath u) := by
          intro u hne
          rw [hlib.write, Function.update_of_ne]
          exact fun heq => hne (generatePathFromUid_injective _ heq)
        refine ⟨?_, ?_, ?_⟩
        · intro u hu
          by_cases hne : u = (w.extractedFile path).uid
          · subst hne
            refine ⟨path, hpath, h, rfl, ?_⟩
            show w.lib.writeBinaryToFile _ _ _ _ = _
            rw [hlib.write, Function.update_self, hs.other _ hnew]
          · obtain ⟨q, hq, hnonempty, huid, hstored⟩ := hs.stored u ((Dict.mem_set.1 hu).resolve_left hne)
            exact ⟨q, hq, hnonempty, huid, (hkeep u hne).trans hstored⟩
        · intro u hu
          rw [Dict.mem_set, not_or] at hu
          exact (hkeep u hu.1).trans (hs.other u hu.2)
        · intro u hu
          rcases Dict.mem_set.1 hu with rfl | hold
          · exact Finset.mem_insert_self _ _
          · exact Finset.mem_insert_of_mem (hs.locked u hold)
  · rw [generateStep_of_empty s h]
    exact hs

theorem kept_foldl (hlib : w.lib.Documented) {rest : List PosixPath} (hrest : rest ⊆ paths)
    {s : Generated} (hs : Kept w paths storage s) :
    Kept w paths storage (rest.foldl (generateStep w parent) s) := by
  induction rest generalizing s with
  | nil => exact hs
  | cons path rest ih =>
      rw [List.cons_subset] at hrest
      exact ih hrest.2 (kept_generateStep hlib hs hrest.1)

theorem kept_generateRun (hlib : w.lib.Documented) :
    Kept w paths storage (generateRun w parent paths storage locks) := by
  apply kept_foldl hlib (List.Subset.refl paths)
  refine ⟨?_, fun _ _ => rfl, ?_⟩
  · intro u hu
    cases hu
  · intro u hu
    cases hu

/-! ## The result -/

/-- The contents that the objects have to be told apart by: those of the paths,
that of the container, and the empty one. -/
def Workplace.contents (w : Workplace) (parentContent : Bytes) (paths : List PosixPath) :
    Set Bytes :=
  {content | content = [] ∨ content = parentContent ∨ ∃ path ∈ paths, w.contentAt path = content}

/-- What `generate_objects_and_store_files` owes to its caller: one object for
each content that is neither empty nor that of the container, with the paths of
all files with this content, and its file in the storage. -/
structure RightObjects (w : Workplace) (parent : FileObject) (parentContent : Bytes)
    (paths : List PosixPath) (storage : FileStorage) (result : List FileObject × FileStorage) :
    Prop where
  nodup : (result.1.map FileObject.uid).Nodup
  notParent : ∀ fo ∈ result.1, fo.uid ≠ parent.uid ∧ fo.uid ≠ createUid w.lib.sha256 []
  complete : ∀ path ∈ paths, w.NonEmpty path → w.contentAt path ≠ parentContent →
    ∃ fo ∈ result.1, fo.uid = w.uidAt path
  /-- Every object belongs to a content, with exactly the paths of this content. -/
  object : ∀ fo ∈ result.1, ∃ path ∈ paths, w.NonEmpty path ∧ w.contentAt path ≠ parentContent ∧
    fo.uid = w.uidAt path ∧
    fo.pathsIn parent.uid =
      (paths.filter fun q => w.NonEmpty q ∧ w.contentAt q = w.contentAt path).map
        (getRelativeObjectPath · w.extractionDir) ∧
    (∀ p, p ≠ parent.uid → fo.pathsIn p = []) ∧
    result.2 (generatePathFromUid w.dataStoragePath fo.uid) =
      some ((storage (generatePathFromUid w.dataStoragePath fo.uid)).getD (w.contentAt path))

theorem uidAt_inj {parentContent : Bytes}
    (hinj : Set.InjOn (createUid w.lib.sha256) (w.contents parentContent paths))
    {path q : PosixPath} (hpath : path ∈ paths) (hq : q ∈ paths) :
    w.uidAt path = w.uidAt q ↔ w.contentAt path = w.contentAt q := by
  constructor
  · intro huid
    exact hinj (.inr (.inr ⟨path, hpath, rfl⟩)) (.inr (.inr ⟨q, hq, rfl⟩)) huid
  · intro hcontent
    exact congrArg (createUid w.lib.sha256) hcontent

/-- The paths of the files with one uid are those of the files with one content. -/
theorem paths_files (hlib : w.lib.Documented) {parentContent : Bytes}
    (hinj : Set.InjOn (createUid w.lib.sha256) (w.contents parentContent paths))
    {path : PosixPath} (hpath : path ∈ paths) :
    ((w.files paths).filter fun f => f.isEmpty = false ∧ f.uid = w.uidAt path).map
        ExtractedFile.virtualPath =
      (paths.filter fun q => w.NonEmpty q ∧ w.contentAt q = w.contentAt path).map
        (getRelativeObjectPath · w.extractionDir) := by
  have hfilter : paths.filter (fun q => w.NonEmpty q ∧ w.contentAt q = w.contentAt path) =
      (paths.filter fun q => w.NonEmpty q).filter
        ((fun f : ExtractedFile => decide (f.isEmpty = false ∧ f.uid = w.uidAt path)) ∘
          w.extractedFile) := by
    rw [List.filter_filter]
    apply List.filter_congr
    intro q hq
    apply Bool.eq_iff_iff.2
    by_cases hnonempty : w.NonEmpty q
    · have hsize := Workplace.isEmpty_extractedFile hlib hnonempty
      have huid : (w.extractedFile q).uid = w.uidAt path ↔ w.contentAt q = w.contentAt path :=
        uidAt_inj hinj hq hpath
      simp [hnonempty, hsize, huid]
    · simp [hnonempty]
  rw [hfilter, Workplace.files, List.filter_map, List.map_map]
  rfl

/-- The uid of a returned object is one of the collected ones. -/
theorem uid_mem_extracted (hlib : w.lib.Documented) {fo : FileObject}
    (h : fo ∈ (generateObjectsAndStoreFiles w parent paths storage locks).1) :
    fo.uid ∈ (generateRun w parent paths storage locks).extracted := by
  rcases Dict.mem_values.1 h with ⟨u, hu⟩
  rw [Dict.get?_erase] at hu
  split at hu
  · cases hu
  · have hcollected : Collected parent (generateRun w parent paths storage locks).extracted := by
      rw [generateRun, extracted_foldl hlib]
      exact collected_files parent (w.files paths)
    rw [(hcollected u fo hu).1]
    exact Dict.mem_of_get? hu

/-- Whatever was extracted, the objects are the distinct contents, with all
their paths, and in the storage, as long as the hash tells the contents apart. -/
theorem generateObjectsAndStoreFiles_right (hlib : w.lib.Documented) {parentContent : Bytes}
    (hparent : parent.uid = createUid w.lib.sha256 parentContent)
    (hinj : Set.InjOn (createUid w.lib.sha256) (w.contents parentContent paths)) :
    RightObjects w parent parentContent paths storage
      (generateObjectsAndStoreFiles w parent paths storage locks) := by
  have hobjects : (generateObjectsAndStoreFiles w parent paths storage locks).1 =
      generateObjects parent (w.files paths) := generateObjectsAndStoreFiles_fst hlib
  have hkept : Kept w paths storage (generateRun w parent paths storage locks) :=
    kept_generateRun hlib
  refine ⟨?nodup, ?notParent, ?complete, ?object⟩
  case nodup =>
    rw [hobjects]
    exact nodup_generateObjects parent (w.files paths)
  case notParent =>
    intro fo hfo
    obtain ⟨path, hpath, hnonempty, huid, -⟩ := hkept.stored _ (uid_mem_extracted hlib hfo)
    rw [hobjects] at hfo
    refine ⟨(mem_generateObjects hfo).1, ?_⟩
    intro hempty
    have hnil : w.contentAt path = [] :=
      hinj (.inr (.inr ⟨path, hpath, rfl⟩)) (.inl rfl) (huid.trans hempty)
    exact Workplace.contentAt_ne_nil hlib hnonempty hnil
  case complete =>
    intro path hpath hnonempty hcontent
    have hfile : w.extractedFile path ∈ w.files paths :=
      List.mem_map_of_mem (List.mem_filter.2 ⟨hpath, decide_eq_true hnonempty⟩)
    have hne : w.uidAt path ≠ parent.uid := by
      rw [hparent]
      intro huid
      exact hcontent (hinj (.inr (.inr ⟨path, hpath, rfl⟩)) (.inr (.inl rfl)) huid)
    obtain ⟨fo, hfo, huid, -⟩ := generateObjects_complete hfile
      (Workplace.isEmpty_extractedFile hlib hnonempty) hne
    exact ⟨fo, hobjects ▸ hfo, huid⟩
  case object =>
    intro fo hfo
    obtain ⟨path, hpath, hnonempty, huid, hstored⟩ := hkept.stored _ (uid_mem_extracted hlib hfo)
    rw [hobjects] at hfo
    obtain ⟨hne, hfound⟩ := mem_generateObjects hfo
    refine ⟨path, hpath, hnonempty, ?_, huid.symm, ?_, hfound.paths, hstored⟩
    · rintro rfl
      exact hne (huid.symm.trans hparent.symm)
    · rw [pathsIn_generateObjects hfo, ← huid]
      exact paths_files hlib hinj hpath

/-- Nothing is returned that others may unpack at the same time. -/
theorem locked_generateObjects (hlib : w.lib.Documented) {fo : FileObject}
    (h : fo ∈ (generateObjectsAndStoreFiles w parent paths storage locks).1) :
    fo.uid ∈ (generateRun w parent paths storage locks).locks :=
  (kept_generateRun hlib).locked _ (uid_mem_extracted hlib h)

/-! ## An archive with a duplicate, an empty file and a copy of itself -/

/-- The library on the contents of the example. -/
def tableLibrary : FileLibrary where
  sha256 := fun binary =>
    if binary = [] then "e3b0c44298fc1c149afbf4c8996fb92427ae41e4649b934ca495991b7852b855"
    else if binary = [97] then "ca978112ca1bbdcafac231b39a23dc4da786eff8147c4e72b9807785afee48bb"
    else "3e23e8160039594a33894f6564e1b1348bbd7a0088d42c4acb73eeaed59c009d"
  getBinaryFromFile := fun file => match file with
    | .regular content => content
    | .symlink target _ => "symbolic link -> ".toUTF8.toList ++ target.toUTF8.toList
  writeBinaryToFile := fun binary path storage =>
    Function.update storage path (some ((storage path).getD binary))

theorem tableLibrary_documented : tableLibrary.Documented := by
  refine ⟨fun _ => rfl, ?_, fun _ _ _ => rfl⟩
  intro target resolved hnil
  have hpos : ("symbolic link -> ".toUTF8.toList).length = 0 := by
    rw [(List.append_eq_nil_iff.1 hnil).1]
    rfl
  exact absurd hpos (by decide +kernel)

def exampleDir : PosixPath := ⟨true, ["tmp", "extractor", "files"]⟩

/-- The archive holds `a` itself, `b` twice and an empty file. -/
def exampleWorkplace : Workplace where
  lib := tableLibrary
  fileAt := fun path =>
    if path.parts.getLast? = some "copy" then .regular [97]
    else if path.parts.getLast? = some "empty" then .regular []
    else .regular [98]
  extractionDir := exampleDir
  dataStoragePath := ⟨true, ["media", "data", "fact_fw_data"]⟩

def exampleArchive : FileObject :=
  FileObject.newFirmware (createUid tableLibrary.sha256 [97]) (tableLibrary.sha256 [97]) 1 "archive"
    { deviceName := "d", version := "1", deviceClass := "c", vendor := "v", part := "",
      releaseDate := "2020-01-01", tags := [] }

def examplePaths : List PosixPath :=
  [exampleDir.join ["fact_extracted", "etc", "b"], exampleDir.join ["copy"],
    exampleDir.join ["empty"], exampleDir.join ["b"]]

theorem generateObjectsAndStoreFiles_example :
    RightObjects exampleWorkplace exampleArchive [97] examplePaths (fun _ => none)
      (generateObjectsAndStoreFiles exampleWorkplace exampleArchive examplePaths (fun _ => none) ∅) := by
  refine generateObjectsAndStoreFiles_right tableLibrary_documented rfl ?_
  have hcontents : ∀ content ∈ exampleWorkplace.contents [97] examplePaths,
      content ∈ ([[], [97], [98]] : List Bytes) := by
    rintro content (rfl | rfl | ⟨path, hpath, rfl⟩)
    · decide
    · decide
    · have hall : ∀ path ∈ examplePaths,
          exampleWorkplace.contentAt path ∈ ([[], [97], [98]] : List Bytes) := by decide +kernel
      exact hall path hpath
  have hinj : ∀ c ∈ ([[], [97], [98]] : List Bytes), ∀ d ∈ ([[], [97], [98]] : List Bytes),
      createUid tableLibrary.sha256 c = createUid tableLibrary.sha256 d → c = d := by decide +kernel
  intro c hc d hd heq
  exact hinj c (hcontents c hc) d (hcontents d hd) heq

/-- Only `b` is returned, with both paths. -/
example : ((generateObjectsAndStoreFiles exampleWorkplace exampleArchive examplePaths
    (fun _ => none) ∅).1.map fun fo => fo.pathsIn exampleArchive.uid) = [["/etc/b", "/b"]] := by
  decide +kernel

end Unpacker

end FactCore
