import FactCore.ImportExport.FwExporter

/-! # An exported firmware is imported

The archive that `FwExporter` writes for a firmware is imported by `FwImporter` into any
installation that does not have the firmware. It is shown that nothing raises, and what
the database, the analyses and the storage of the installation hold afterwards: what they
held before, the firmware with its files, and their containment as the paths of the
exported installation have it.

The two halves meet at `Described`, what the archive says about a file.
-/

namespace FactCore.ImportExport

/-! ## One call of `add_object` -/

/-- The row that `add_object` writes. The hash of a row that is there stays. -/
def rowOf (db : Db) (fo : FileObject) : FileObjectEntry :=
  { createFileObjectEntry fo with
    sha256 := ((db.fileObject.get? fo.uid).map FileObjectEntry.sha256).getD fo.sha256 }

theorem addObject_placed {db : Db} {fo : FileObject} (hfile : fo.firmware = none)
    (hplaced : Db.Placed db fo) :
    ∃ db', db.addObject fo = (db', none) ∧ Db.Written db fo (rowOf db fo) db' ∧
      db'.virtualFilePath = db.virtualFilePath ∪ createVfpEntries fo := by
  obtain ⟨db', hwrite⟩ := Db.write_placed (rowOf db fo) hplaced
  refine ⟨db', ?_, Db.write_ok hwrite⟩
  have hnot : fo.isFirmware = false := by simp [FileObject.isFirmware, hfile]
  by_cases hmem : fo.uid ∈ db.fileObject
  · obtain ⟨entry, hentry⟩ := Dict.mem_iff.1 hmem
    have hrow : rowOf db fo = { createFileObjectEntry fo with sha256 := entry.sha256 } := by
      simp [rowOf, hentry]
    rw [hrow] at hwrite
    simp [Db.addObject, Db.saveObject, Db.exist, hmem, Db.updateObject, hfile,
      Db.updateFileObject, hentry, hnot, hwrite]
  · have hrow : rowOf db fo = createFileObjectEntry fo := by
      simp [rowOf, Dict.notMem_iff.1 hmem, createFileObjectEntry]
    rw [hrow] at hwrite
    simp [Db.addObject, Db.saveObject, Db.exist, hmem, Db.insertObject, hfile,
      Db.insertFileObject, hwrite]

/-- What is different after objects were added. -/
structure Added (analyses : Uid → Dict Plugin AnalysisEntry) (b : Backend)
    (calls : List FileObject) (b' : Backend) : Prop where
  rows : ∀ fo ∈ calls, b'.db.fileObject.get? fo.uid = some (rowOf b.db fo)
  otherRows : ∀ u ∉ calls.map FileObject.uid, b'.db.fileObject.get? u = b.db.fileObject.get? u
  firmware : b'.db.firmware = b.db.firmware
  included : ∀ p u, b'.db.Included p u ↔
    b.db.Included p u ∨ ∃ fo ∈ calls, fo.uid = u ∧ p ∈ fo.parents
  roots : ∀ r u, (r, u) ∈ b'.db.fwFiles ↔
    (r, u) ∈ b.db.fwFiles ∨ ∃ fo ∈ calls, fo.uid = u ∧ r ∈ fo.parentFirmwareUids
  paths : ∀ p u path, b'.db.HasPath p u path ↔
    b.db.HasPath p u path ∨ ∃ fo ∈ calls, fo.uid = u ∧ path ∈ fo.pathsIn p
  analysis : ∀ fo ∈ calls, fo.uid ∉ b.db.fileObject →
    b'.analysis.get? fo.uid = some ((analyses fo.uid).map fun _ => AnalysisEntry.ofDict)
  otherAnalysis : ∀ u, u ∈ b.db.fileObject ∨ u ∉ calls.map FileObject.uid →
    b'.analysis.get? u = b.analysis.get? u
  dataStoragePath : b'.dataStoragePath = b.dataStoragePath
  storage : b'.storage = b.storage
  revision : b'.revision = b.revision

section

variable {analyses : Uid → Dict Plugin AnalysisEntry} {b b₁ b' : Backend} {fo : FileObject}
  {calls rest : List FileObject}

theorem addObject_added (hfile : fo.firmware = none) (hplaced : Db.Placed b.db fo) :
    ∃ b', addObject b fo (analyses fo.uid) = (b', none) ∧ Added analyses b [fo] b' := by
  obtain ⟨db', hadd, hw, hpaths⟩ := addObject_placed hfile hplaced
  have hbase : ∀ analysis : Dict Uid (Dict Plugin AnalysisEntry),
      (fo.uid ∉ b.db.fileObject → analysis.get? fo.uid =
        some ((analyses fo.uid).map fun _ => AnalysisEntry.ofDict)) →
      (∀ u, u ∈ b.db.fileObject ∨ u ≠ fo.uid → analysis.get? u = b.analysis.get? u) →
      Added analyses b [fo] { b with db := db', analysis := analysis } := by
    intro analysis hnew hother
    refine ⟨?_, ?_, hw.firmware, ?_, ?_, ?_, ?_, ?_, rfl, rfl, rfl⟩
    · intro fo' hfo'
      rw [List.mem_singleton.1 hfo']
      show db'.fileObject.get? fo.uid = _
      rw [hw.fileObject, Dict.get?_set_self]
    · intro u hu
      have hne : u ≠ fo.uid := by simpa using hu
      show db'.fileObject.get? u = _
      rw [hw.fileObject, Dict.get?_set_ne _ _ hne]
    · intro p u
      show (p, u) ∈ db'.includedFiles ↔ _
      rw [hw.includedFiles]
      simp only [List.mem_singleton, exists_eq_left]
      refine or_congr Iff.rfl ⟨fun h => ⟨h.1.symm, h.2.1⟩, fun h => ?_⟩
      exact ⟨h.1.symm, h.2, hplaced.parents p h.2⟩
    · intro r u
      show (r, u) ∈ db'.fwFiles ↔ _
      rw [hw.fwFiles]
      simp only [List.mem_singleton, exists_eq_left]
      refine or_congr Iff.rfl ⟨fun h => ⟨h.1.symm, h.2.1⟩, fun h => ?_⟩
      exact ⟨h.1.symm, h.2, hplaced.roots r h.2⟩
    · intro p u path
      show (p, u, path) ∈ db'.virtualFilePath ↔ _
      rw [hpaths, Finset.mem_union, mem_createVfpEntries]
      simp only [List.mem_singleton, exists_eq_left]
      exact or_congr Iff.rfl ⟨fun h => ⟨h.1.symm, h.2⟩, fun h => ⟨h.1.symm, h.2⟩⟩
    · intro fo' hfo' hmem
      rw [List.mem_singleton.1 hfo'] at hmem ⊢
      exact hnew hmem
    · intro u hu
      exact hother u (by simpa using hu)
  by_cases hmem : fo.uid ∈ b.db.fileObject
  · refine ⟨{ b with db := db' }, ?_, hbase b.analysis (fun hno => absurd hmem hno) fun _ _ => rfl⟩
    simp [addObject, hadd, Db.exist, hmem]
  · refine ⟨_, ?_, hbase (b.analysis.set fo.uid
      ((analyses fo.uid).map fun _ => AnalysisEntry.ofDict)) ?_ ?_⟩
    · simp [addObject, hadd, Db.exist, hmem]
    · exact fun _ => Dict.get?_set_self _ _ _
    · rintro u (hu | hne)
      · refine Dict.get?_set_ne _ _ ?_
        rintro rfl
        exact hmem hu
      · exact Dict.get?_set_ne _ _ hne

/-- Whatever has been added has a row. -/
theorem Added.mem (h : Added analyses b calls b') {u : Uid} :
    u ∈ b'.db.fileObject ↔ u ∈ b.db.fileObject ∨ u ∈ calls.map FileObject.uid := by
  by_cases hu : u ∈ calls.map FileObject.uid
  · obtain ⟨fo, hfo, rfl⟩ := List.mem_map.1 hu
    exact iff_of_true (Dict.mem_of_get? (h.rows fo hfo)) (.inr hu)
  · simp [Dict.mem_iff, h.otherRows u hu, hu]

theorem Added.cons (h : Added analyses b [fo] b₁) (h' : Added analyses b₁ rest b')
    (hnew : fo.uid ∉ rest.map FileObject.uid) : Added analyses b (fo :: rest) b' := by
  have hother : ∀ fo' ∈ rest, fo'.uid ∉ [fo].map FileObject.uid := by
    intro fo' hfo' hmem
    have heq : fo'.uid = fo.uid := by simpa using hmem
    exact hnew (heq ▸ List.mem_map_of_mem hfo')
  refine ⟨?_, ?_, h'.firmware.trans h.firmware, ?_, ?_, ?_, ?_, ?_,
    h'.dataStoragePath.trans h.dataStoragePath, h'.storage.trans h.storage,
    h'.revision.trans h.revision⟩
  · intro fo' hfo'
    rcases List.mem_cons.1 hfo' with rfl | hfo'
    · rw [h'.otherRows _ hnew, h.rows _ List.mem_cons_self]
    · rw [h'.rows fo' hfo', rowOf, rowOf, h.otherRows _ (hother fo' hfo')]
  · intro u hu
    rw [List.map_cons, List.mem_cons, not_or] at hu
    rw [h'.otherRows u hu.2, h.otherRows u (by simpa using hu.1)]
  · intro p u
    rw [h'.included, h.included, or_assoc]
    simp
  · intro r u
    rw [h'.roots, h.roots, or_assoc]
    simp
  · intro p u path
    rw [h'.paths, h.paths, or_assoc]
    simp
  · intro fo' hfo' hmem
    rcases List.mem_cons.1 hfo' with rfl | hfo'
    · rw [h'.otherAnalysis _ (.inr hnew), h.analysis _ List.mem_cons_self hmem]
    · refine h'.analysis fo' hfo' fun hrow => ?_
      exact (h.mem.1 hrow).elim hmem (hother fo' hfo')
  · rintro u (hu | hu)
    · rw [h'.otherAnalysis u (.inl (h.mem.2 (.inl hu))), h.otherAnalysis u (.inl hu)]
    · rw [List.map_cons, List.mem_cons, not_or] at hu
      rw [h'.otherAnalysis u (.inr hu.2), h.otherAnalysis u (.inr (by simpa using hu.1))]

/-- Objects of which each comes after its parents are all added. -/
theorem addObjects_added (hnodup : (calls.map FileObject.uid).Nodup)
    (hfile : ∀ fo ∈ calls, fo.firmware = none)
    (hparents : ∀ before fo after, calls = before ++ fo :: after →
      ∀ p ∈ fo.parents, p ∈ b.db.fileObject ∨ p ∈ before.map FileObject.uid)
    (hroots : ∀ fo ∈ calls, ∀ r ∈ fo.parentFirmwareUids, r ∈ b.db.fileObject)
    (hpaths : ∀ fo ∈ calls, ∀ p, p ∉ fo.parents → fo.pathsIn p = []) :
    ∃ b', addObjects analyses b calls = (b', none) ∧ Added analyses b calls b' := by
  induction calls generalizing b with
  | nil => exact ⟨b, rfl, by constructor <;> simp⟩
  | cons fo rest ih =>
      rw [List.map_cons, List.nodup_cons] at hnodup
      have hplaced : Db.Placed b.db fo := by
        refine ⟨fun p hp => ?_, hroots fo List.mem_cons_self, hpaths fo List.mem_cons_self⟩
        simpa using hparents [] fo rest rfl p hp
      obtain ⟨b₁, hadd, hfirst⟩ : ∃ b₁, addObject b fo (analyses fo.uid) = (b₁, none) ∧
          Added analyses b [fo] b₁ := addObject_added (hfile fo List.mem_cons_self) hplaced
      obtain ⟨b', hrun, hrest⟩ := ih (b := b₁) hnodup.2
        (fun fo' hfo' => hfile fo' (List.mem_cons_of_mem _ hfo'))
        (by
          intro before fo' after heq p hp
          have hbefore := hparents (fo :: before) fo' after (by rw [heq]; rfl) p hp
          rw [List.map_cons, List.mem_cons, ← or_assoc] at hbefore
          rw [hfirst.mem]
          simpa using hbefore)
        (fun fo' hfo' r hr => hfirst.mem.2 (.inl (hroots fo' (List.mem_cons_of_mem _ hfo') r hr)))
        (fun fo' hfo' => hpaths fo' (List.mem_cons_of_mem _ hfo'))
      refine ⟨b', ?_, hfirst.cons hrest hnodup.1⟩
      rw [addObjects, hadd]
      exact hrun

end

/-! ## What the archive says about a file -/

/-- The files of a firmware, with the firmware. -/
def archiveUids (db : Db) (fw : Uid) : Finset Uid := insert fw (db.getAllFilesInFw fw)

/-- A path of a file of the firmware in the firmware or in another file of it. -/
def HasPathIn (db : Db) (fw parent file : Uid) (path : VPath) : Prop :=
  file ∈ db.getAllFilesInFw fw ∧ parent ∈ archiveUids db fw ∧ db.HasPath parent file path

/-- What is needed for an export: no file of the firmware is a firmware of its own, each one
can be read and is stored under its uid, and none contains itself. -/
structure Exportable (lib : FileLibrary) (source : Backend) (fw : Uid) : Prop where
  firmware : fw ∈ source.db.firmware
  plain : ∀ file ∈ source.db.getAllFilesInFw fw, file ∉ source.db.firmware
  readable : ∀ file ∈ source.db.getAllFilesInFw fw, source.db.Readable file
  content : ∀ uid ∈ archiveUids source.db fw, ∃ content,
    source.content uid = some content ∧ createUid lib.sha256 content = uid
  analysis : ∀ uid ∈ archiveUids source.db fw, ∀ plugin entry,
    ((source.analysis.get? uid).getD ∅).get? plugin = some entry → entry.Stored
  acyclic : Dependencies.Acyclic fun file parent => ∃ path, HasPathIn source.db fw parent file path

/-- The object that the importer makes of a file of the archive. -/
structure Described (source : Backend) (fw : Uid) (fo : FileObject) : Prop where
  mem : fo.uid ∈ source.db.getAllFilesInFw fw
  firmware : fo.firmware = none
  row : ∃ entry, source.db.fileObject.get? fo.uid = some entry ∧ createFileObjectEntry fo =
    { entry with sha256 := hashOfUid fo.uid, depth := 0, isFirmware := false }
  roots : fo.parentFirmwareUids = {fw}
  parents : ∀ p, p ∈ fo.parents ↔ ∃ path, HasPathIn source.db fw p fo.uid path
  paths : ∀ p path, path ∈ fo.pathsIn p ↔ HasPathIn source.db fw p fo.uid path

section

variable {lib : FileLibrary} {orders : Orders} {source : Backend} {fw : Uid}

theorem mem_getAllFilesInFw {db : Db} {file : Uid} :
    file ∈ db.getAllFilesInFw fw ↔ (fw, file) ∈ db.fwFiles := by
  simp [Db.getAllFilesInFw]

theorem Exportable.notMem (h : Exportable lib source fw) : fw ∉ source.db.getAllFilesInFw fw :=
  fun hmem => h.plain fw hmem h.firmware

theorem Exportable.ne_empty (h : Exportable lib source fw) : fw ≠ "" := by
  obtain ⟨content, -, huid⟩ := h.content fw (Finset.mem_insert_self _ _)
  intro hempty
  have hmem : '_' ∈ (createUid lib.sha256 content).toList := by simp [createUid]
  rw [huid, hempty] at hmem
  cases hmem

theorem get?_filterVpfDict (vfpDict : Dict Uid (List VPath)) (parentUids : Finset Uid) (p : Uid) :
    (filterVpfDict vfpDict parentUids).get? p =
      if p ∈ parentUids then vfpDict.get? p else none := by
  apply Option.ext
  intro paths
  rw [Dict.get?_eq_some_iff, filterVpfDict, List.mem_filter, ← Dict.get?_eq_some_iff]
  split_ifs with hp <;> simp [hp]

/-- What is read of a file of the firmware besides its relations. -/
theorem fields_of_mem_objects {uidList : Finset Uid} {objects : List FileObject} {fo : FileObject}
    (hplain : ∀ uid ∈ uidList, uid ∉ source.db.firmware)
    (hok : source.db.getObjectsByUidList orders.rows uidList = .ok objects) (hfo : fo ∈ objects) :
    ∃ entry, source.db.fileObject.get? fo.uid = some entry ∧ fo.fileName = entry.fileName ∧
      fo.size = entry.size ∧ fo.comments = entry.comments ∧ fo.depth = 0 ∧ fo.sha256 = "" := by
  obtain ⟨fileObjects, hmapM, rfl⟩ := Db.getObjectsByUidList_eq_ok.1 hok
  rcases List.mem_append.1 hfo with hfo | hfo
  · obtain ⟨row, hrow, hread⟩ := (Loop.mem_of_mapM_ok hmapM).1 hfo
    have hentry := (Db.mem_objectRows hrow).1.1
    unfold Db.fileObjectFromRow at hread
    split at hread
    · cases hread
    · obtain rfl := Except.ok.inj hread
      exact ⟨row.1.2, hentry, rfl, rfl, rfl, rfl, rfl⟩
  · obtain ⟨hfw, hin⟩ := Db.mem_uids_firmwareFromEntries.1 (List.mem_map_of_mem hfo)
    exact absurd hfw (hplain fo.uid hin)

/-- The exported objects are read as the database has them. -/
theorem described_fromJson {objects : List FileObject} {fo : FileObject}
    (h : Exportable lib source fw)
    (hok : source.db.getObjectsByUidList orders.rows (source.db.getAllFilesInFw fw) = .ok objects)
    (hall : source.db.AllReturned (source.db.getAllFilesInFw fw) objects) (hfo : fo ∈ objects)
    (analyses : Dict Plugin AnalysisEntry) :
    Described source fw (fromJson (toJson orders.uids fo analyses
      (some (archiveUids source.db fw))) (some fw)) := by
  obtain ⟨hmem, -⟩ := (hall.found fo.uid).1 (List.mem_map_of_mem hfo)
  obtain ⟨entry, hentry, hname, hsize, hcomments, hdepth, hhash⟩ :=
    fields_of_mem_objects h.plain hok hfo
  have hget : (source.db.getVfpsForUidList orders.rows (source.db.getAllFilesInFw fw)).get? fo.uid =
      some fo.virtualFilePath := by
    rcases Db.mem_objects hok hfo with hempty | ⟨-, hget⟩
    · obtain ⟨-, ⟨parent, path, hpath⟩, -⟩ : (∃ parent, source.db.Included parent fo.uid) ∧
          (∃ parent path, source.db.HasPath parent fo.uid path) ∧
            ¬source.db.Included fo.uid "" := by
        simpa [Db.Readable, h.plain _ hmem] using h.readable _ hmem
      have hin := ((hall.asStored fo hfo).paths.mem parent path).2 hpath
      rw [hempty] at hin
      cases hin
    · exact hget
  have hpaths : ∀ p path, path ∈ ((filterVpfDict fo.virtualFilePath
      (archiveUids source.db fw)).get? p).getD [] ↔ HasPathIn source.db fw p fo.uid path := by
    intro p path
    have hstored := (hall.asStored fo hfo).paths.mem p path
    rw [get?_filterVpfDict, HasPathIn]
    split_ifs with hp
    · simpa [hp, hmem] using hstored
    · simp [hp]
  refine ⟨hmem, rfl, ⟨entry, hentry, ?_⟩, ?_, ?_, hpaths⟩
  · simp [createFileObjectEntry, fromJson, toJson, FileObject.new, FileObject.isFirmware, hname,
      hsize, hcomments, hdepth, hhash]
  · have hkeep : (some fw).filter (fun uid : Uid => uid ≠ "") = some fw := by
      simp [Option.filter, h.ne_empty]
    show ((some fw).filter (fun uid : Uid => uid ≠ "")).toFinset = {fw}
    rw [hkeep]
    rfl
  · intro p
    show p ∈ (filterVpfDict fo.virtualFilePath (archiveUids source.db fw)).keys ↔ _
    rw [Dict.mem_keys, Dict.mem_iff]
    constructor
    · rintro ⟨list, hlist⟩
      have hlist' := hlist
      rw [get?_filterVpfDict] at hlist'
      split_ifs at hlist' with hp
      obtain ⟨path, hpath⟩ :=
        List.exists_mem_of_ne_nil list (Db.ne_nil_of_getVfpsForUidList hget hlist')
      exact ⟨path, (hpaths p path).1 (by rw [hlist]; exact hpath)⟩
    · rintro ⟨path, hpath⟩
      have hin := (hpaths p path).2 hpath
      cases hlist : (filterVpfDict fo.virtualFilePath (archiveUids source.db fw)).get? p with
      | none => simp [hlist] at hin
      | some list => exact ⟨list, rfl⟩

/-! ## The rounds of the import -/

/-- Each file of the firmware is described once. -/
structure DescribedAll (source : Backend) (fw : Uid) (objects : List FileObject) : Prop where
  once : (objects.map FileObject.uid).Nodup
  mem : ∀ file, file ∈ objects.map FileObject.uid ↔ file ∈ source.db.getAllFilesInFw fw
  described : ∀ fo ∈ objects, Described source fw fo

theorem dict_ofList (objects : List FileObject) :
    (FoDict.ofList objects).dict = objects.foldl (fun d fo => d.set fo.uid fo) ∅ := by
  have hall : ∀ d : FoDict, (objects.foldl FoDict.insert d).dict =
      objects.foldl (fun d fo => d.set fo.uid fo) d.dict := by
    induction objects with
    | nil => exact fun _ => rfl
    | cons fo rest ih => exact fun d => ih (d.insert fo)
  exact hall _

variable {objects : List FileObject} {fo : FileObject} {file parent : Uid}

theorem get?_ofList (hnodup : (objects.map FileObject.uid).Nodup) :
    (FoDict.ofList objects).dict.get? file = some fo ↔ fo ∈ objects ∧ fo.uid = file := by
  rw [dict_ofList]
  constructor
  · intro h
    have hlast := Dict.get?_foldl_assign FileObject.uid id objects ∅ file
    rw [Dict.get?_empty, Option.or_none, Option.map_id] at hlast
    have hmem := List.mem_filter.1 (List.mem_of_getLast? (hlast.symm.trans h))
    exact ⟨hmem.1, of_decide_eq_true hmem.2⟩
  · rintro ⟨hmem, rfl⟩
    exact Dict.get?_foldl_assign_of_mem hnodup hmem

theorem hasPathIn_of_parent (hall : DescribedAll source fw objects)
    (h : FwImporter.Parent (FoDict.ofList objects) file parent) :
    ∃ path, HasPathIn source.db fw parent file path := by
  obtain ⟨fo, hget, hparent⟩ := h
  obtain ⟨hmem, rfl⟩ := (get?_ofList hall.once).1 hget
  exact ((hall.described fo hmem).parents parent).1 hparent

/-- No file of an exported archive lacks a parent. -/
theorem complete_of_described (hall : DescribedAll source fw objects) (file : Uid) :
    FwImporter.Complete (FoDict.ofList objects) fw file := by
  have hparent : ∀ u p, FwImporter.Parent (FoDict.ofList objects) u p →
      FwImporter.InArchive (FoDict.ofList objects) fw p := by
    intro u p h
    obtain ⟨path, -, hin, -⟩ := hasPathIn_of_parent hall h
    rcases Finset.mem_insert.1 hin with rfl | hin
    · exact .inl rfl
    · obtain ⟨fo, hfo, rfl⟩ := List.mem_map.1 ((hall.mem p).2 hin)
      exact .inr (Dict.mem_of_get? ((get?_ofList hall.once).2 ⟨hfo, rfl⟩))
  intro ancestor htrans
  cases htrans with
  | single h => exact hparent _ _ h
  | tail _ h => exact hparent _ _ h

/-- The rounds end, with one call for each file after those for its parents. -/
theorem exists_calls (h : Exportable lib source fw) (hall : DescribedAll source fw objects)
    (order : IterOrder Uid) :
    ∃ calls count, Loop.Terminates (FwImporter.insertObjectsHierarchically order
        (FoDict.ofList objects) fw) (.ok (calls, count)) ∧
      DescribedAll source fw calls ∧
      ∀ before fo after, calls = before ++ fo :: after →
        ∀ p ∈ fo.parents, p = fw ∨ p ∈ before.map FileObject.uid := by
  have huntangled : FwImporter.Untangled (FoDict.ofList objects) fw := by
    intro file hloop
    have hpaths : ∀ u p, FwImporter.WaitsFor (FoDict.ofList objects) fw u p →
        ∃ path, HasPathIn source.db fw p u path :=
      fun u p hwaits => hasPathIn_of_parent hall hwaits.2.1
    exact h.acyclic file (Relation.TransGen.mono hpaths _ _ hloop)
  obtain ⟨calls, count, hrun, hcorrect⟩ := FwImporter.correct_of_untangled order
    (fun file _ => complete_of_described hall file) huntangled
  have hcalls : ∀ fo, fo ∈ calls ↔ fo ∈ objects := by
    intro fo
    rw [hcorrect.exact fo, get?_ofList hall.once]
    exact ⟨fun hfo => hfo.1.1, fun hfo => ⟨⟨hfo, rfl⟩, complete_of_described hall _⟩⟩
  refine ⟨calls, count, hrun, ⟨hcorrect.once, fun file => ?_, fun fo hfo => ?_⟩,
    hcorrect.parents_first⟩
  · rw [← hall.mem file]
    simp only [List.mem_map, hcalls]
  · exact hall.described fo ((hcalls fo).1 hfo)

/-! ## The firmware -/

/-- The firmware as `get_object` returns it. -/
theorem getObject_firmware (orders : Orders) (hfw : fw ∈ source.db.firmware) :
    ∃ fo entry data, getObject orders source fw = some fo ∧
      source.db.fileObject.get? fw = some entry ∧ source.db.firmware.get? fw = some data ∧
      fo.uid = fw ∧ fo.firmware = some (Db.firmwareData data) ∧ fo.fileName = entry.fileName ∧
      fo.size = entry.size ∧ fo.comments = entry.comments ∧ fo.depth = 0 ∧ fo.sha256 = "" := by
  have hmem : fw ∈ (source.db.firmwareFromEntries orders.rows {fw}).map FileObject.uid :=
    Db.mem_uids_firmwareFromEntries.2 ⟨hfw, Finset.mem_singleton_self fw⟩
  have hget : getObject orders source fw =
      (source.db.firmwareFromEntries orders.rows {fw}).head? := by
    simp [getObject, Db.isFirmware, hfw]
  cases hlist : source.db.firmwareFromEntries orders.rows {fw} with
  | nil => simp [hlist] at hmem
  | cons fo rest =>
      have hfo : fo ∈ source.db.firmwareFromEntries orders.rows {fw} := by simp [hlist]
      obtain ⟨⟨uid, data⟩, hrow, hread⟩ := List.mem_filterMap.1 hfo
      obtain ⟨hitem, hin⟩ := List.mem_filter.1 hrow
      obtain ⟨entry, hentry, rfl⟩ := Option.map_eq_some_iff.1 hread
      obtain rfl : uid = fw := by simpa using hin
      exact ⟨_, entry, data, by rw [hget, hlist]; rfl, hentry, Dict.get?_eq_some_iff.2 hitem,
        rfl, rfl, rfl, rfl, rfl, rfl, rfl⟩

/-- Adding a firmware that is new. -/
theorem addObject_newFirmware {b : Backend} {data : FirmwareData}
    (hfw : fo.firmware = some data) (hnew : fo.uid ∉ b.db.fileObject)
    (analyses : Dict Plugin AnalysisEntry) :
    ∃ db, addObject b fo analyses = ({ b with
          db, analysis := b.analysis.set fo.uid (analyses.map fun _ => AnalysisEntry.ofDict) },
        none) ∧
      db.fileObject = b.db.fileObject.set fo.uid (createFileObjectEntry fo) ∧
      db.firmware = b.db.firmware.set fo.uid (createFirmwareEntry data) ∧
      db.includedFiles = b.db.includedFiles ∧ db.fwFiles = b.db.fwFiles ∧
      db.virtualFilePath = b.db.virtualFilePath := by
  have hself : fo.uid ∈ (b.db.putFileObject fo.uid (createFileObjectEntry fo)).fileObject :=
    Dict.mem_set.2 (.inl rfl)
  refine ⟨(b.db.putFileObject fo.uid (createFileObjectEntry fo)).putFirmware fo.uid
    (createFirmwareEntry data), ?_, ?_⟩
  · simp [addObject, Db.addObject, Db.saveObject, Db.exist, hnew, Db.insertObject, hfw,
      Db.insertFirmware]
  · rw [Db.putFirmware, dif_pos hself]
    exact ⟨rfl, rfl, rfl, rfl, rfl⟩

/-! ## Analyses and contents -/

/-- What was read from a row is read from the row that it is written to. -/
theorem toDict_ofDict_toDict {entry : AnalysisEntry} (h : entry.Stored) :
    entry.toDict.ofDict.toDict = entry.toDict := by
  have hsummary : EntryConversion.sanitizeList (entry.summary.getD []) = entry.summary.getD [] := by
    cases hs : entry.summary with
    | none => simp [EntryConversion.sanitizeList]
    | some elements =>
        obtain ⟨hwell, haccepted⟩ := h.summary elements hs
        exact EntryConversion.sanitizeList_of_settled elements hwell
          (EntryConversion.settledList_of_accepted elements haccepted)
  have hresult : EntryConversion.sanitize (entry.result.getD []) = entry.result.getD [] := by
    cases hr : entry.result with
    | none => simp [EntryConversion.sanitize, EntryConversion.sanitizeItems]
    | some items =>
        obtain ⟨hwell, haccepted⟩ := h.result items hr
        rw [EntryConversion.WellFormed] at hwell
        have hsettled := EntryConversion.settledItems_of_accepted items haccepted
        exact EntryConversion.sanitize_of_settled hwell.1
          (fun e he => (EntryConversion.settledItems_iff.1 hsettled e he).1)
          (EntryConversion.entries_of_settled items hwell.2 hsettled)
  simp [AnalysisEntry.toDict, AnalysisEntry.ofDict, hsummary, hresult]

theorem map_toDict_ofDict {analyses : Dict Plugin AnalysisEntry}
    (h : ∀ plugin entry, analyses.get? plugin = some entry → entry.Stored) :
    ((analyses.map fun _ => AnalysisEntry.toDict).map fun _ => AnalysisEntry.ofDict).map
      (fun _ => AnalysisEntry.toDict) = analyses.map fun _ => AnalysisEntry.toDict := by
  have hitems : ∀ item ∈ analyses.items, item.2.toDict.ofDict.toDict = item.2.toDict :=
    fun item hitem => toDict_ofDict_toDict (h item.1 item.2 (Dict.get?_eq_some_iff.2 hitem))
  simp only [Dict.map, List.map_map, Dict.mk.injEq]
  refine List.map_congr_left fun item hitem => ?_
  simp [hitems item hitem]

/-- Of each object, the archive has the analyses that were read with it. -/
theorem analysesOf_map {parentUids : Option (Finset Uid)} {uid : Uid}
    (huid : uid ∈ objects.map FileObject.uid) :
    analysesOf (objects.map fun fo => toJson orders.uids fo (source.processedAnalysis fo.uid)
      parentUids) uid = source.processedAnalysis uid := by
  obtain ⟨fo, hfo, rfl⟩ := List.mem_map.1 huid
  rw [analysesOf]
  cases hlast : ((objects.map fun fo => toJson orders.uids fo (source.processedAnalysis fo.uid)
      parentUids).filter fun json => json.uid = fo.uid).getLast? with
  | none =>
      have hnil := List.filter_eq_nil_iff.1 (List.getLast?_eq_none_iff.1 hlast) _
        (List.mem_map_of_mem hfo)
      simp [toJson] at hnil
  | some json =>
      obtain ⟨hjson, hsame⟩ := List.mem_filter.1 (List.mem_of_getLast? hlast)
      obtain ⟨fo', -, rfl⟩ := List.mem_map.1 hjson
      have heq : fo'.uid = fo.uid := of_decide_eq_true hsame
      simp [toJson, heq]

/-- Storing files changes only the storage, and no file that is there. -/
theorem foldl_storeFile (hlib : lib.Documented) (contents : List Bytes) (b : Backend) :
    ∃ storage, contents.foldl (storeFile lib) b = { b with storage } ∧
      ∀ uid, ({ b with storage } : Backend).content uid =
        (b.content uid).or (contents.find? fun content => createUid lib.sha256 content = uid) := by
  induction contents generalizing b with
  | nil => exact ⟨b.storage, rfl, fun uid => (Option.or_none).symm⟩
  | cons content rest ih =>
      obtain ⟨storage, hfold, hcontent⟩ := ih (storeFile lib b content)
      refine ⟨storage, by rw [List.foldl_cons, hfold]; rfl, fun uid => ?_⟩
      have hfirst : (storeFile lib b content).content uid =
          if createUid lib.sha256 content = uid then some ((b.content uid).getD content)
          else b.content uid := by
        have hpath : generatePathFromUid b.dataStoragePath uid =
            generatePathFromUid b.dataStoragePath (createUid lib.sha256 content) ↔
              createUid lib.sha256 content = uid :=
          ⟨fun h => (generatePathFromUid_injective _ h).symm, fun h => by rw [h]⟩
        show lib.writeBinaryToFile content _ b.storage
          (generatePathFromUid b.dataStoragePath uid) = _
        rw [hlib.write, Function.update_apply]
        by_cases huid : createUid lib.sha256 content = uid
        · rw [if_pos (hpath.2 huid), if_pos huid, huid]
          rfl
        · rw [if_neg (mt hpath.1 huid), if_neg huid]
          rfl
      rw [show ({ b with storage } : Backend) = { storeFile lib b content with storage } by rfl,
        hcontent uid, hfirst, List.find?_cons]
      by_cases huid : createUid lib.sha256 content = uid
      · simp only [huid, if_true, decide_true]
        cases b.content uid <;> rfl
      · simp only [huid, if_false, decide_false]

/-- The contents that are exported can be found by their uids. -/
theorem find?_exported (h : Exportable lib source fw) {contents : List Bytes}
    (hread : (orders.uids.list (archiveUids source.db fw)).mapM (readBytes source) = .ok contents)
    (uid : Uid) : contents.find? (fun content => createUid lib.sha256 content = uid) =
      if uid ∈ archiveUids source.db fw then source.content uid else none := by
  have hof : ∀ content ∈ contents, ∃ u ∈ archiveUids source.db fw,
      source.content u = some content ∧ createUid lib.sha256 content = u := by
    intro content hcontent
    obtain ⟨u, hu, hbytes⟩ := (Loop.mem_of_mapM_ok hread).1 hcontent
    have hmem := (orders.uids.mem _ _).1 hu
    obtain ⟨content', hstored, huid⟩ := h.content u hmem
    rw [readBytes, hstored] at hbytes
    obtain rfl := Except.ok.inj hbytes
    exact ⟨u, hmem, hstored, huid⟩
  cases hfind : contents.find? fun content => createUid lib.sha256 content = uid with
  | none =>
      split_ifs with huid
      · obtain ⟨content, hstored, hcreate⟩ := h.content uid huid
        obtain ⟨content', hcontent', hbytes⟩ :=
          Loop.exists_of_mapM_ok hread ((orders.uids.mem _ _).2 huid)
        rw [readBytes, hstored] at hbytes
        obtain rfl := Except.ok.inj hbytes
        exact absurd hcreate (by simpa using List.find?_eq_none.1 hfind content hcontent')
      · rfl
  | some content =>
      obtain ⟨u, hu, hstored, hcreate⟩ := hof content (List.mem_of_find?_eq_some hfind)
      have hsame : createUid lib.sha256 content = uid := by simpa using List.find?_some hfind
      obtain rfl : u = uid := hcreate.symm.trans hsame
      rw [if_pos hu, hstored]

end

/-! ## The round trip -/

/-- What the target holds after the import: what it held before, and the firmware of the
source with its files. The depth is not exported, a hash is read off the uid, and a file
that was there keeps its hash, its analyses and its content. -/
structure Transferred (source target : Backend) (fw : Uid) (target' : Backend) : Prop where
  rows : ∀ uid ∈ archiveUids source.db fw, ∃ entry, source.db.fileObject.get? uid = some entry ∧
    target'.db.fileObject.get? uid = some { entry with
      sha256 := ((target.db.fileObject.get? uid).map FileObjectEntry.sha256).getD (hashOfUid uid)
      depth := 0
      isFirmware := decide (uid = fw) }
  otherRows : ∀ uid ∉ archiveUids source.db fw,
    target'.db.fileObject.get? uid = target.db.fileObject.get? uid
  firmware : ∀ uid, target'.db.firmware.get? uid =
    if uid = fw then source.db.firmware.get? uid else target.db.firmware.get? uid
  included : ∀ parent file, target'.db.Included parent file ↔
    target.db.Included parent file ∨ ∃ path, HasPathIn source.db fw parent file path
  paths : ∀ parent file path, target'.db.HasPath parent file path ↔
    target.db.HasPath parent file path ∨ HasPathIn source.db fw parent file path
  roots : ∀ root file, (root, file) ∈ target'.db.fwFiles ↔
    (root, file) ∈ target.db.fwFiles ∨ (root = fw ∧ (fw, file) ∈ source.db.fwFiles)
  analyses : ∀ uid, target'.processedAnalysis uid =
    if uid ∈ archiveUids source.db fw ∧ uid ∉ target.db.fileObject then
      source.processedAnalysis uid
    else target.processedAnalysis uid
  content : ∀ uid, target'.content uid = (target.content uid).or
    (if uid ∈ archiveUids source.db fw then source.content uid else none)

section

variable {lib : FileLibrary} {orders : Orders} {source target : Backend} {fw : Uid}
  {fo : FileObject}

/-- The objects of an archive. -/
theorem exists_describedAll (h : Exportable lib source fw) (orders : Orders) :
    ∃ objects, source.db.getObjectsByUidList orders.rows (source.db.getAllFilesInFw fw) =
        .ok objects ∧
      DescribedAll source fw (objects.map fun fo => fromJson (toJson orders.uids fo
        (source.processedAnalysis fo.uid) (some (archiveUids source.db fw))) (some fw)) := by
  obtain ⟨objects, hok, hall⟩ : ∃ objects, source.db.getObjectsByUidList orders.rows
      (source.db.getAllFilesInFw fw) = .ok objects ∧
        source.db.AllReturned (source.db.getAllFilesInFw fw) objects :=
    Db.allReturned_of_readable fun file hfile _ => h.readable file hfile
  have huids : (objects.map fun fo => fromJson (toJson orders.uids fo
      (source.processedAnalysis fo.uid) (some (archiveUids source.db fw))) (some fw)).map
        FileObject.uid = objects.map FileObject.uid := by
    rw [List.map_map]
    rfl
  refine ⟨objects, hok, ⟨?_, fun file => ?_, fun fo hfo => ?_⟩⟩
  · rw [huids]
    exact hall.once
  · rw [huids, hall.found]
    exact and_iff_left_of_imp fun hfile => (source.db.fwFiles_fk _ (mem_getAllFilesInFw.1 hfile)).2
  · obtain ⟨fo', hfo', rfl⟩ := List.mem_map.1 hfo
    exact described_fromJson h hok hall hfo' _

/-- It has paths in its parents only. -/
theorem Described.pathsIn_eq_nil (h : Described source fw fo) (p : Uid) (hp : p ∉ fo.parents) :
    fo.pathsIn p = [] := by
  rw [List.eq_nil_iff_forall_not_mem]
  exact fun path hpath => hp ((h.parents p).2 ⟨path, (h.paths p path).1 hpath⟩)

/-- The target after `add_object` for the firmware. -/
structure WithFirmware (source target : Backend) (fw : Uid) (b : Backend) : Prop where
  rows : ∃ entry, source.db.fileObject.get? fw = some entry ∧ b.db.fileObject =
    target.db.fileObject.set fw
      { entry with sha256 := hashOfUid fw, depth := 0, isFirmware := true }
  firmware : ∃ data, source.db.firmware.get? fw = some data ∧
    b.db.firmware = target.db.firmware.set fw data
  included : b.db.includedFiles = target.db.includedFiles
  roots : b.db.fwFiles = target.db.fwFiles
  paths : b.db.virtualFilePath = target.db.virtualFilePath
  analysis : b.analysis = target.analysis.set fw
    ((source.processedAnalysis fw).map fun _ => AnalysisEntry.ofDict)
  dataStoragePath : b.dataStoragePath = target.dataStoragePath
  storage : b.storage = target.storage

section

variable {b b' : Backend} {calls : List FileObject} {analyses : Uid → Dict Plugin AnalysisEntry}

theorem WithFirmware.get? (h : WithFirmware source target fw b) {uid : Uid} (hne : uid ≠ fw) :
    b.db.fileObject.get? uid = target.db.fileObject.get? uid := by
  obtain ⟨entry, -, hrows⟩ := h.rows
  rw [hrows, Dict.get?_set_ne _ _ hne]

theorem WithFirmware.mem (h : WithFirmware source target fw b) {uid : Uid} :
    uid ∈ b.db.fileObject ↔ uid = fw ∨ uid ∈ target.db.fileObject := by
  obtain ⟨entry, -, hrows⟩ := h.rows
  rw [hrows, Dict.mem_set]

theorem rows_of_added (h : Exportable lib source fw) (hnew : fw ∉ target.db.fileObject)
    (hfw : WithFirmware source target fw b) (hcalls : DescribedAll source fw calls)
    (hadded : Added analyses b calls b') {uid : Uid} (huid : uid ∈ archiveUids source.db fw) :
    ∃ entry, source.db.fileObject.get? uid = some entry ∧
      b'.db.fileObject.get? uid = some { entry with
        sha256 := ((target.db.fileObject.get? uid).map FileObjectEntry.sha256).getD (hashOfUid uid)
        depth := 0
        isFirmware := decide (uid = fw) } := by
  rcases Finset.mem_insert.1 huid with rfl | hfile
  · obtain ⟨entry, hentry, hrows⟩ := hfw.rows
    refine ⟨entry, hentry, ?_⟩
    rw [hadded.otherRows uid fun hmem => h.notMem ((hcalls.mem uid).1 hmem), hrows,
      Dict.get?_set_self, Dict.notMem_iff.1 hnew]
    simp
  · obtain ⟨fo, hfo, rfl⟩ := List.mem_map.1 ((hcalls.mem uid).2 hfile)
    obtain ⟨entry, hentry, hrow⟩ := (hcalls.described fo hfo).row
    have hne : fo.uid ≠ fw := fun heq => h.notMem (heq ▸ hfile)
    have hhash : fo.sha256 = hashOfUid fo.uid := congrArg FileObjectEntry.sha256 hrow
    refine ⟨entry, hentry, ?_⟩
    rw [hadded.rows fo hfo, rowOf, hrow, hfw.get? hne, hhash]
    simp [hne]

theorem analyses_of_added (h : Exportable lib source fw) (hnew : fw ∉ target.db.fileObject)
    (hfw : WithFirmware source target fw b) (hcalls : DescribedAll source fw calls)
    (hadded : Added analyses b calls b')
    (hanalyses : ∀ file ∈ source.db.getAllFilesInFw fw,
      analyses file = source.processedAnalysis file) (uid : Uid) :
    b'.processedAnalysis uid =
      if uid ∈ archiveUids source.db fw ∧ uid ∉ target.db.fileObject then
        source.processedAnalysis uid
      else target.processedAnalysis uid := by
  have hread : ∀ {uid}, uid ∈ archiveUids source.db fw →
      b'.analysis.get? uid =
        some ((source.processedAnalysis uid).map fun _ => AnalysisEntry.ofDict) →
      b'.processedAnalysis uid = source.processedAnalysis uid := by
    intro uid huid hget
    rw [Backend.processedAnalysis, hget]
    exact map_toDict_ofDict (h.analysis uid huid)
  have hsame : ∀ {uid}, uid ≠ fw → b'.analysis.get? uid = b.analysis.get? uid →
      b'.processedAnalysis uid = target.processedAnalysis uid := by
    intro uid hne hget
    rw [Backend.processedAnalysis, hget, hfw.analysis, Dict.get?_set_ne _ _ hne]
    rfl
  by_cases hfirmware : uid = fw
  · subst hfirmware
    have hmem : uid ∈ archiveUids source.db uid := Finset.mem_insert_self _ _
    rw [if_pos ⟨hmem, hnew⟩]
    refine hread hmem ?_
    rw [hadded.otherAnalysis uid (.inl (hfw.mem.2 (.inl rfl))), hfw.analysis, Dict.get?_set_self]
  by_cases hfile : uid ∈ source.db.getAllFilesInFw fw
  · have hmem : uid ∈ archiveUids source.db fw := Finset.mem_insert_of_mem hfile
    by_cases hold : uid ∈ target.db.fileObject
    · rw [if_neg fun hcond => hcond.2 hold]
      exact hsame hfirmware (hadded.otherAnalysis uid (.inl (hfw.mem.2 (.inr hold))))
    · rw [if_pos ⟨hmem, hold⟩]
      obtain ⟨fo, hfo, rfl⟩ := List.mem_map.1 ((hcalls.mem uid).2 hfile)
      refine hread hmem ?_
      rw [← hanalyses _ hfile]
      exact hadded.analysis fo hfo fun hrow => (hfw.mem.1 hrow).elim hfirmware hold
  · have hout : uid ∉ archiveUids source.db fw := by simp [archiveUids, hfirmware, hfile]
    rw [if_neg fun hcond => hout hcond.1]
    exact hsame hfirmware
      (hadded.otherAnalysis uid (.inr fun hmem => hfile ((hcalls.mem uid).1 hmem)))

/-- The firmware and its files were added, and the files stored. -/
theorem transferred_of_added (h : Exportable lib source fw) (hnew : fw ∉ target.db.fileObject)
    (hfw : WithFirmware source target fw b) (hcalls : DescribedAll source fw calls)
    (hadded : Added analyses b calls b')
    (hanalyses : ∀ file ∈ source.db.getAllFilesInFw fw,
      analyses file = source.processedAnalysis file) {storage : FileStorage}
    (hcontent : ∀ uid, ({ b' with storage } : Backend).content uid = (b'.content uid).or
      (if uid ∈ archiveUids source.db fw then source.content uid else none)) :
    Transferred source target fw { b' with storage } := by
  have hcall : ∀ {file}, file ∈ source.db.getAllFilesInFw fw → ∃ fo ∈ calls, fo.uid = file :=
    fun hfile => List.mem_map.1 ((hcalls.mem _).2 hfile)
  have hread : ∀ uid, b'.processedAnalysis uid = _ :=
    analyses_of_added h hnew hfw hcalls hadded hanalyses
  refine ⟨fun uid huid => rows_of_added h hnew hfw hcalls hadded huid, ?_, ?_, ?_, ?_, ?_,
    hread, ?_⟩
  · intro uid huid
    rw [archiveUids, Finset.mem_insert, not_or] at huid
    show b'.db.fileObject.get? uid = _
    rw [hadded.otherRows uid fun hmem => huid.2 ((hcalls.mem uid).1 hmem), hfw.get? huid.1]
  · intro uid
    obtain ⟨data, hdata, hset⟩ := hfw.firmware
    show b'.db.firmware.get? uid = _
    rw [hadded.firmware, hset, Dict.get?_set]
    split_ifs with heq
    · rw [heq, hdata]
    · rfl
  · intro parent file
    show b'.db.Included parent file ↔ _
    rw [hadded.included, Db.Included, hfw.included]
    refine or_congr Iff.rfl ⟨?_, ?_⟩
    · rintro ⟨fo, hfo, rfl, hparent⟩
      exact ((hcalls.described fo hfo).parents parent).1 hparent
    · rintro ⟨path, hpath⟩
      obtain ⟨fo, hfo, rfl⟩ := hcall hpath.1
      exact ⟨fo, hfo, rfl, ((hcalls.described fo hfo).parents parent).2 ⟨path, hpath⟩⟩
  · intro parent file path
    show b'.db.HasPath parent file path ↔ _
    rw [hadded.paths, Db.HasPath, hfw.paths]
    refine or_congr Iff.rfl ⟨?_, ?_⟩
    · rintro ⟨fo, hfo, rfl, hin⟩
      exact ((hcalls.described fo hfo).paths parent path).1 hin
    · intro hpath
      obtain ⟨fo, hfo, rfl⟩ := hcall hpath.1
      exact ⟨fo, hfo, rfl, ((hcalls.described fo hfo).paths parent path).2 hpath⟩
  · intro root file
    show (root, file) ∈ b'.db.fwFiles ↔ _
    rw [hadded.roots, hfw.roots]
    refine or_congr Iff.rfl ⟨?_, ?_⟩
    · rintro ⟨fo, hfo, rfl, hroot⟩
      rw [(hcalls.described fo hfo).roots, Finset.mem_singleton] at hroot
      exact ⟨hroot, mem_getAllFilesInFw.1 (hcalls.described fo hfo).mem⟩
    · rintro ⟨rfl, hfile⟩
      obtain ⟨fo, hfo, rfl⟩ := hcall (mem_getAllFilesInFw.2 hfile)
      refine ⟨fo, hfo, rfl, ?_⟩
      rw [(hcalls.described fo hfo).roots]
      exact Finset.mem_singleton_self _
  · intro uid
    have hold : b'.content uid = target.content uid := by
      rw [Backend.content, hadded.dataStoragePath, hadded.storage, hfw.dataStoragePath, hfw.storage]
      rfl
    rw [hcontent uid, hold]

end

/-- The firmware is added to a target that does not have it. -/
theorem exists_withFirmware (h : Exportable lib source fw) (hnew : fw ∉ target.db.fileObject)
    (orders : Orders) :
    ∃ fo data b, getObject orders source fw = some fo ∧ fo.uid = fw ∧ fo.firmware = some data ∧
      addObject target (firmwareFromJson (toJson orders.uids fo (source.processedAnalysis fw) none)
        data) (source.processedAnalysis fw) = (b, none) ∧
      WithFirmware source target fw b := by
  obtain ⟨fo, entry, data, hget, hentry, hdata, rfl, hfw, hname, hsize, hcomments, hdepth, hhash⟩ :=
    getObject_firmware orders h.firmware
  let firmware := firmwareFromJson
    (toJson orders.uids fo (source.processedAnalysis fo.uid) none) (Db.firmwareData data)
  have hrow : createFileObjectEntry firmware =
      { entry with sha256 := hashOfUid fo.uid, depth := 0, isFirmware := true } := by
    simp [firmware, createFileObjectEntry, firmwareFromJson, fromJson, toJson, FileObject.new,
      FileObject.isFirmware, hname, hsize, hcomments, hdepth, hhash]
  have hnew' : firmware.uid ∉ target.db.fileObject := hnew
  obtain ⟨db, hadd, hrows, hfirmware, hincluded, hroots, hpaths⟩ :=
    addObject_newFirmware rfl hnew' (source.processedAnalysis fo.uid)
  rw [hrow] at hrows
  exact ⟨fo, Db.firmwareData data, _, hget, rfl, hfw, hadd, ⟨entry, hentry, hrows⟩,
    ⟨data, hdata, hfirmware⟩, hincluded, hroots, hpaths, rfl, rfl, rfl⟩

end

/-! ## An archive in a firmware -/

def firmwareUid : Uid := createUid Unpacker.tableLibrary.sha256 [97]

def archiveUid : Uid := createUid Unpacker.tableLibrary.sha256 [98]

def passwdUid : Uid := createUid Unpacker.tableLibrary.sha256 [98, 98]

/-- A file in an archive, with a link to it in the firmware. -/
def objects : List FileObject :=
  [FileObject.newFirmware firmwareUid (hashOfUid firmwareUid) 1 "fw.bin"
      ⟨"router", "1.0", "Router", "vendor", "", "2024-01-01", []⟩,
    { FileObject.new archiveUid (hashOfUid archiveUid) 1 "a.tar" with
      depth := 1
      parents := [firmwareUid]
      parentFirmwareUids := {firmwareUid}
      virtualFilePath := (∅ : Dict Uid (List VPath)).set firmwareUid ["/a.tar"] },
    { FileObject.new passwdUid (hashOfUid passwdUid) 2 "passwd" with
      depth := 2
      parents := [archiveUid, firmwareUid]
      parentFirmwareUids := {firmwareUid}
      virtualFilePath :=
        ((∅ : Dict Uid (List VPath)).set archiveUid ["/etc/passwd"]).set firmwareUid ["/passwd"] }]

/-- `{'file_type': {'summary': ['text'], 'result': {'mime': 'text'}}}` -/
def fileType : Dict Plugin AnalysisEntry :=
  let text := "text".toList.map Char.toNat
  (∅ : Dict Plugin AnalysisEntry).set "file_type"
    ⟨0, "1.0.0", none, some [.str text], none, some [("mime".toList.map Char.toNat, .str text)]⟩

def exporting : Backend where
  db := objects.foldl (fun db fo => (db.addObject fo).1) Db.empty
  analysis := (∅ : Dict Uid (Dict Plugin AnalysisEntry)).set passwdUid fileType
  dataStoragePath := ⟨true, ["media"]⟩
  storage := fun path =>
    [[97], [98], [98, 98]].find? fun content =>
      generatePathFromUid ⟨true, ["media"]⟩ (createUid Unpacker.tableLibrary.sha256 content) = path
  revision := "05d8effce8b3"

def importing : Backend := ⟨Db.empty, ∅, ⟨true, ["data"]⟩, fun _ => none, "05d8effce8b3"⟩

theorem stored_fileType {plugin : Plugin} {entry : AnalysisEntry}
    (h : fileType.get? plugin = some entry) : entry.Stored := by
  rw [fileType, Dict.get?_set] at h
  split_ifs at h
  · obtain rfl := Option.some.inj h
    refine ⟨fun elements helements => ?_, fun items hitems => ?_⟩
    · obtain rfl := Option.some.inj helements
      refine ⟨by simp [EntryConversion.WellFormedList, EntryConversion.WellFormed], ?_⟩
      have htext : EntryConversion.Storable ("text".toList.map Char.toNat) := by
        unfold EntryConversion.Storable
        decide
      simpa [EntryConversion.AcceptedList, EntryConversion.Accepted] using htext
    · obtain rfl := Option.some.inj hitems
      have hstorable : EntryConversion.Storable ("mime".toList.map Char.toNat) ∧
          EntryConversion.Storable ("text".toList.map Char.toNat) := by
        unfold EntryConversion.Storable
        decide
      refine ⟨by simp [EntryConversion.WellFormed, EntryConversion.WellFormedItems,
        EntryConversion.keys], ?_⟩
      simpa [EntryConversion.AcceptedItems, EntryConversion.Accepted] using hstorable
  · cases h

theorem exportable_exporting : Exportable Unpacker.tableLibrary exporting firmwareUid := by
  have hfiles : exporting.db.getAllFilesInFw firmwareUid = {archiveUid, passwdUid} := by
    decide +kernel
  have huids : ∀ uid ∈ archiveUids exporting.db firmwareUid,
      uid = firmwareUid ∨ uid = archiveUid ∨ uid = passwdUid := by
    rw [archiveUids, hfiles]
    simp
  have hincluded : (firmwareUid, archiveUid) ∈ exporting.db.includedFiles ∧
      (archiveUid, passwdUid) ∈ exporting.db.includedFiles ∧
        ∀ e ∈ exporting.db.includedFiles, e.2 ≠ "" := by
    decide +kernel
  have hpaths : (firmwareUid, archiveUid, "/a.tar") ∈ exporting.db.virtualFilePath ∧
      (firmwareUid, passwdUid, "/passwd") ∈ exporting.db.virtualFilePath := by
    decide +kernel
  refine ⟨by decide +kernel, by decide +kernel, ?_, ?_, ?_, ?_⟩
  · intro file hfile
    rw [hfiles, Finset.mem_insert, Finset.mem_singleton] at hfile
    rcases hfile with rfl | rfl
    · rw [Db.Readable, if_neg (by decide +kernel)]
      exact ⟨⟨firmwareUid, hincluded.1⟩, ⟨firmwareUid, "/a.tar", hpaths.1⟩,
        fun hempty => hincluded.2.2 _ hempty rfl⟩
    · rw [Db.Readable, if_neg (by decide +kernel)]
      exact ⟨⟨archiveUid, hincluded.2.1⟩, ⟨firmwareUid, "/passwd", hpaths.2⟩,
        fun hempty => hincluded.2.2 _ hempty rfl⟩
  · intro uid huid
    rcases huids uid huid with rfl | rfl | rfl
    · exact ⟨[97], by decide +kernel, rfl⟩
    · exact ⟨[98], by decide +kernel, rfl⟩
    · exact ⟨[98, 98], by decide +kernel, rfl⟩
  · intro uid huid plugin entry hentry
    rcases huids uid huid with rfl | rfl | rfl
    · have hnone : exporting.analysis.get? firmwareUid = none := by decide +kernel
      rw [hnone] at hentry
      cases hentry
    · have hnone : exporting.analysis.get? archiveUid = none := by decide +kernel
      rw [hnone] at hentry
      cases hentry
    · exact stored_fileType hentry
  · refine Dependencies.acyclic_of_rank (fun uid => if uid = passwdUid then 2 else
      if uid = archiveUid then 1 else 0) ?_
    rintro file parent ⟨path, -, -, hpath⟩
    have hall : ∀ e ∈ exporting.db.virtualFilePath,
        (if e.1 = passwdUid then 2 else if e.1 = archiveUid then 1 else 0) <
          if e.2.1 = passwdUid then 2 else if e.2.1 = archiveUid then 1 else 0 := by
      decide +kernel
    exact hall (parent, file, path) hpath

end FactCore.ImportExport
