import Mathlib.Data.Finset.Prod
import Mathlib.Data.Finset.Sort
import FactCore.Lib.PosixPaths
import FactCore.Storage.Schema

/-! # The target of a symbolic link

`FrontEndDbInterface.find_link_target` of `storage/db_interface_frontend.py`, and
`_get_link_target` of `web_interface/components/analysis_routes.py`, which puts a link to
the target on the page of a symbolic link.

The database returns one row of those that match, and which one is up to it. The query
does not ask that the path is one that the link leads to in the same container, so for a
link with several containers the file may lie where the link leads in another one.
-/

namespace FactCore.LinkTarget

open PosixPaths (IsFilePath LeadsTo PurePath normpath)

/-! ## The code -/

/-- `target_path.startswith('/')`. -/
def startsAtRoot (targetPath : String) : Bool := "/".toList.isPrefixOf targetPath.toList

/-- `candidate_paths`. -/
def candidatePaths (virtualFilePath : Dict Uid (List VPath)) (targetPath : String) : List VPath :=
  if startsAtRoot targetPath then [targetPath]
  else virtualFilePath.values.flatten.map fun path =>
    normpath ((PurePath.parse path).parent.div (PurePath.parse targetPath)).str

/-- The condition on a row of the join of `virtual_file_path` with `fw_files`. -/
def Matches (virtualFilePath : Dict Uid (List VPath)) (rootUid : Uid) (targetPath : String)
    (row : (Uid × Uid × VPath) × (Uid × Uid)) : Prop :=
  row.2.1 = rootUid ∧ (row.1.1 = row.2.2 ∨ row.1.1 = rootUid) ∧ row.1.1 ∈ virtualFilePath.keys ∧
    row.1.2.2 ∈ candidatePaths virtualFilePath targetPath

instance instDecidableMatches (virtualFilePath : Dict Uid (List VPath)) (rootUid : Uid) (targetPath : String)
    (row : (Uid × Uid × VPath) × (Uid × Uid)) : Decidable (Matches virtualFilePath rootUid targetPath row) :=
  inferInstanceAs (Decidable (_ ∧ _))

/-- The uids that the query selects. -/
def selected (db : Db) (virtualFilePath : Dict Uid (List VPath)) (rootUid : Uid) (targetPath : String) :
    Finset Uid :=
  ((db.virtualFilePath ×ˢ db.fwFiles).filter (Matches virtualFilePath rootUid targetPath)).image
    fun row => row.1.2.1

/-- `find_link_target`. `firstOf` is the choice that the database makes with `limit(1)`. -/
def findLinkTarget (firstOf : Finset Uid → Option Uid) (db : Db) (virtualFilePath : Dict Uid (List VPath))
    (rootUid : Uid) (targetPath : String) : Option Uid :=
  firstOf (selected db virtualFilePath rootUid targetPath)

/-- The documented behaviour of `LIMIT 1`: there is a row unless none is selected. -/
structure Limits (firstOf : Finset Uid → Option Uid) : Prop where
  mem : ∀ {uids uid}, firstOf uids = some uid → uid ∈ uids
  none_iff : ∀ {uids}, firstOf uids = none ↔ uids = ∅

/-- The entries of the result of the plugin `file_type` that are read. -/
structure FileTypeResult where
  mime : Option String
  full : Option String

/-- `_is_link`. -/
def isLink (result : FileTypeResult) : Bool :=
  result.mime = some "inode/symlink" ∧ "symbolic link to '".toList <+: (result.full.getD "").toList

/-- `full_type[full_type.index("'") + 1 : -1]` for a text with an apostrophe. -/
def targetPath (fullType : String) : String :=
  String.ofList ((fullType.toList.dropWhile fun c => c ≠ Char.ofNat 39).tail.dropLast)

/-- `html.escape` for one character. -/
def escapeChar (c : Char) : List Char :=
  if c = '&' then "&amp;".toList
  else if c = '<' then "&lt;".toList
  else if c = '>' then "&gt;".toList
  else if c = '"' then "&quot;".toList
  else if c = Char.ofNat 39 then "&#x27;".toList
  else [c]

/-- `html.escape`. -/
def escape (s : String) : String := String.ofList (s.toList.flatMap escapeChar)

/-- The link on the page. -/
def anchorTag (targetUid rootUid : Uid) (fullType : String) : String :=
  "<a href=\"/analysis/" ++ targetUid ++ "/ro/" ++ rootUid ++ "\">" ++ escape fullType ++ "</a>"

/-- `_get_link_target`. -/
def getLinkTarget (firstOf : Finset Uid → Option Uid) (db : Db) (result : FileTypeResult)
    (virtualFilePath : Dict Uid (List VPath)) (rootUid : Uid) : Option String :=
  if rootUid = "" ∨ isLink result = false then none
  else
    match findLinkTarget firstOf db virtualFilePath rootUid (targetPath (result.full.getD "")) with
    | none => none
    | some targetUid =>
        if targetUid = "" then none else some (anchorTag targetUid rootUid (result.full.getD ""))

/-! ## What the page should offer -/

/-- The container belongs to the firmware, or is the firmware itself. -/
def InFirmware (db : Db) (rootUid parent : Uid) : Prop :=
  (rootUid, parent) ∈ db.fwFiles ∨ parent = rootUid ∧ ∃ file, (rootUid, file) ∈ db.fwFiles

/-- The path is where the link leads: an absolute target is the path itself, and a relative one
is walked from the directory of the link in one of its containers. -/
def Reaches (virtualFilePath : Dict Uid (List VPath)) (target path : String) : Prop :=
  if startsAtRoot target then path = target
  else
    ∃ container links, virtualFilePath.get? container = some links ∧
      ∃ link ∈ links, LeadsTo link target path

/-- The file lies in a container of the link, under a path that the link leads to. -/
def Offered (db : Db) (virtualFilePath : Dict Uid (List VPath)) (rootUid : Uid) (target : String)
    (uid : Uid) : Prop :=
  ∃ parent path, (parent, uid, path) ∈ db.virtualFilePath ∧ parent ∈ virtualFilePath ∧
    InFirmware db rootUid parent ∧ Reaches virtualFilePath target path

/-- The paths come from an extraction, and every file has a uid. -/
structure Extracted (db : Db) (virtualFilePath : Dict Uid (List VPath)) : Prop where
  uids : "" ∉ db.fileObject
  rows : ∀ row ∈ db.virtualFilePath, IsFilePath row.2.2
  links : ∀ container links, virtualFilePath.get? container = some links →
    ∀ link ∈ links, IsFilePath link

/-! ## The query -/

variable {db : Db} {virtualFilePath : Dict Uid (List VPath)} {rootUid uid : Uid} {target path : String}

theorem mem_candidatePaths (h : Extracted db virtualFilePath) (hpath : IsFilePath path) :
    path ∈ candidatePaths virtualFilePath target ↔ Reaches virtualFilePath target path := by
  unfold candidatePaths Reaches
  cases habsolute : startsAtRoot target with
  | true => simp
  | false =>
      -- the parent of the link joined with the target, as `normpath` leaves it, is the walk
      have hrelative : (PurePath.parse target).isAbsolute = false :=
        (PurePath.isAbsolute_parse target).trans habsolute
      simp only [Bool.false_eq_true, if_false, List.mem_map, List.mem_flatten, Dict.mem_values]
      constructor
      · rintro ⟨link, ⟨links, ⟨container, hget⟩, hlink⟩, heq⟩
        have hproper := h.links container links hget link hlink
        have hleads := (PosixPaths.eq_normpath_iff hproper hpath hrelative).1 heq.symm
        exact ⟨container, links, hget, link, hlink, hleads⟩
      · rintro ⟨container, links, hget, link, hlink, hleads⟩
        have hproper := h.links container links hget link hlink
        have heq := (PosixPaths.eq_normpath_iff hproper hpath hrelative).2 hleads
        exact ⟨link, ⟨links, ⟨container, hget⟩, hlink⟩, heq.symm⟩

/-- The query selects the files that the page should offer. -/
theorem mem_selected (h : Extracted db virtualFilePath) :
    uid ∈ selected db virtualFilePath rootUid target ↔ Offered db virtualFilePath rootUid target uid := by
  unfold selected Offered InFirmware Matches
  simp only [Finset.mem_image, Finset.mem_filter, Finset.mem_product, Dict.mem_keys]
  constructor
  · rintro ⟨⟨⟨parent, file, path⟩, root, entry⟩, ⟨⟨hrow, hentry⟩, rfl, hparent, hkey, hcandidate⟩, rfl⟩
    refine ⟨parent, path, hrow, hkey, ?_, (mem_candidatePaths h (h.rows _ hrow)).1 hcandidate⟩
    rcases hparent with hsame | hroot
    · have hsame : parent = entry := hsame
      rw [hsame]
      exact Or.inl hentry
    · exact Or.inr ⟨hroot, entry, hentry⟩
  · rintro ⟨parent, path, hrow, hkey, hfirmware, hreaches⟩
    have hcandidate := (mem_candidatePaths h (h.rows _ hrow)).2 hreaches
    rcases hfirmware with hentry | ⟨hroot, entry, hentry⟩
    · exact ⟨((parent, uid, path), (rootUid, parent)),
        ⟨⟨hrow, hentry⟩, rfl, Or.inl rfl, hkey, hcandidate⟩, rfl⟩
    · -- the row of `fw_files` is that of any file
      exact ⟨((parent, uid, path), (rootUid, entry)),
        ⟨⟨hrow, hentry⟩, rfl, Or.inr hroot, hkey, hcandidate⟩, rfl⟩

/-! ## The page -/

/-- The text of the file type plugin for a link with this target. -/
def fullType (target : String) : String := "symbolic link to '" ++ target ++ "'"

theorem toList_fullType (target : String) :
    (fullType target).toList = "symbolic link to '".toList ++ (target.toList ++ [Char.ofNat 39]) := by
  have hquote : "'".toList = [Char.ofNat 39] := by decide
  unfold fullType
  simp only [String.toList_append, List.append_assoc, hquote]

theorem targetPath_fullType (target : String) : targetPath (fullType target) = target := by
  -- the first quote is that of the text, since the words in front of it have none
  have htext : "symbolic link to '".toList = "symbolic link to ".toList ++ [Char.ofNat 39] := by simp
  have hdrop : (fullType target).toList.dropWhile (fun c => c ≠ Char.ofNat 39) =
      Char.ofNat 39 :: (target.toList ++ [Char.ofNat 39]) := by
    rw [toList_fullType, htext, List.append_assoc, List.dropWhile_append_of_pos (by simp)]
    simp
  rw [targetPath, hdrop, List.tail_cons, List.dropLast_concat, String.ofList_toList]

theorem isLink_fullType (target : String) : isLink ⟨some "inode/symlink", some (fullType target)⟩ = true :=
  decide_eq_true ⟨rfl, by rw [Option.getD_some, toList_fullType]; exact List.prefix_append _ _⟩

/-- The page of a symbolic link has a link if and only if a file lies where the symbolic link
leads, and it leads to such a file. -/
theorem getLinkTarget_spec {firstOf : Finset Uid → Option Uid} (hfirst : Limits firstOf)
    (h : Extracted db virtualFilePath) (hroot : rootUid ≠ "") (target : String) (result : FileTypeResult)
    (hresult : result = ⟨some "inode/symlink", some (fullType target)⟩) :
    (getLinkTarget firstOf db result virtualFilePath rootUid = none ↔
      ∀ uid, ¬ Offered db virtualFilePath rootUid target uid) ∧
    ∀ page, getLinkTarget firstOf db result virtualFilePath rootUid = some page →
      ∃ uid, Offered db virtualFilePath rootUid target uid ∧
        page = anchorTag uid rootUid (fullType target) := by
  subst hresult
  have hcode : getLinkTarget firstOf db ⟨some "inode/symlink", some (fullType target)⟩ virtualFilePath
      rootUid = (firstOf (selected db virtualFilePath rootUid target)).bind fun targetUid =>
        if targetUid = "" then none else some (anchorTag targetUid rootUid (fullType target)) := by
    rw [getLinkTarget, if_neg (by simp [hroot, isLink_fullType]), Option.getD_some, targetPath_fullType,
      findLinkTarget]
    cases firstOf (selected db virtualFilePath rootUid target) <;> rfl
  rw [hcode]
  -- whichever row the database returns, it is one of those that are selected
  cases hchoice : firstOf (selected db virtualFilePath rootUid target) with
  | none =>
      refine ⟨iff_of_true rfl fun uid hoffered => ?_, by simp⟩
      have hin := (mem_selected h).2 hoffered
      rw [hfirst.none_iff.1 hchoice] at hin
      exact Finset.notMem_empty uid hin
  | some uid =>
      have hoffered := (mem_selected h).1 (hfirst.mem hchoice)
      obtain ⟨parent, path, hrow, -⟩ := id hoffered
      -- the foreign key of the row leads to a file object
      have hne : uid ≠ "" := fun heq => h.uids (heq ▸ (db.virtualFilePath_fk _ hrow).2)
      rw [Option.bind_some, if_neg hne]
      refine ⟨iff_of_false (by simp) fun hall => hall uid hoffered, ?_⟩
      intro page hpage
      exact ⟨uid, hoffered, (Option.some.inj hpage).symm⟩

/-- The choice of the first uid in the order of strings. -/
def leastUid (uids : Finset Uid) : Option Uid := (uids.sort (· ≤ ·)).head?

theorem limits_leastUid : Limits leastUid where
  mem := fun h => (Finset.mem_sort _).1 (List.mem_of_head? h)
  none_iff := by
    intro uids
    rw [leastUid, List.head?_eq_none_iff, ← List.toFinset_eq_empty_iff, Finset.sort_toFinset]

def file (uid : Uid) : FileObjectEntry := ⟨uid, uid, 1, 1, [], false⟩

/-- The file objects of a firmware, a program and a link to it. -/
def threeFiles : Db :=
  ((Db.empty.putFileObject "fw_1" (file "fw")).putFileObject "busybox_1" (file "busybox")).putFileObject
    "sh_1" (file "sh")

theorem threeFiles_fwFiles_fk :
    ∀ e ∈ ({("fw_1", "busybox_1"), ("fw_1", "sh_1")} : Finset (Uid × Uid)),
      e.1 ∈ threeFiles.fileObject ∧ e.2 ∈ threeFiles.fileObject := by
  decide +kernel

theorem threeFiles_virtualFilePath_fk :
    ∀ e ∈ ({("fw_1", "busybox_1", "/bin/busybox"), ("fw_1", "sh_1", "/usr/sbin/sh")} :
        Finset (Uid × Uid × VPath)),
      e.1 ∈ threeFiles.fileObject ∧ e.2.1 ∈ threeFiles.fileObject := by
  decide +kernel

/-- The program and the link in the firmware, at their paths. -/
def oneLink : Db :=
  { threeFiles with
    fwFiles := {("fw_1", "busybox_1"), ("fw_1", "sh_1")}
    virtualFilePath := {("fw_1", "busybox_1", "/bin/busybox"), ("fw_1", "sh_1", "/usr/sbin/sh")}
    fwFiles_fk := threeFiles_fwFiles_fk
    virtualFilePath_fk := threeFiles_virtualFilePath_fk }

theorem getLinkTarget_oneLink :
    getLinkTarget leastUid oneLink ⟨some "inode/symlink", some "symbolic link to '../../bin/busybox'"⟩
        ((∅ : Dict Uid (List VPath)).set "fw_1" ["/usr/sbin/sh"]) "fw_1" ≠ none := by
  have hpaths : IsFilePath "/bin/busybox" ∧ IsFilePath "/usr/sbin/sh" :=
    ⟨⟨["bin", "busybox"], by decide, rfl⟩, ["usr", "sbin", "sh"], by decide, rfl⟩
  have hextracted : Extracted oneLink ((∅ : Dict Uid (List VPath)).set "fw_1" ["/usr/sbin/sh"]) := by
    refine ⟨by decide +kernel, ?_, ?_⟩
    · intro row hrow
      simp only [oneLink, Finset.mem_insert, Finset.mem_singleton] at hrow
      rcases hrow with rfl | rfl
      · exact hpaths.1
      · exact hpaths.2
    · intro container links hget link hlink
      rw [Dict.get?_set] at hget
      split at hget
      · rw [← Option.some.inj hget] at hlink
        rw [List.mem_singleton.1 hlink]
        exact hpaths.2
      · rw [Dict.get?_empty] at hget
        cases hget
  have hroot : "fw_1" ≠ "" := by decide
  have hspec := getLinkTarget_spec limits_leastUid hextracted hroot "../../bin/busybox" _ rfl
  intro hnone
  refine hspec.1.1 hnone "busybox_1" ⟨"fw_1", "/bin/busybox", by decide +kernel, by decide +kernel, ?_, ?_⟩
  · exact Or.inr ⟨rfl, "sh_1", by decide +kernel⟩
  · exact ⟨"fw_1", ["/usr/sbin/sh"], by decide +kernel, "/usr/sbin/sh", by decide, by decide +kernel⟩

end FactCore.LinkTarget
