import FactCore.Storage.Schema

/-! # The database interface of the backend

`storage/db_interface_backend.py`: inserting and updating objects. Every
method that opens a read-write session is one transaction: it returns the
committed database, or an error, in which case the session is rolled back and
the database is unchanged. Sessions turn every error raised in them into the
generic `DbInterfaceError`.
-/

namespace FactCore

/-- The `DbInterfaceError`s of the modelled methods. -/
inductive DbInterfaceError where
  /-- "Database error when trying to write to the database" -/
  | write
  /-- "Cannot upload file as firmware that is part of another firmware. The
  file you are trying to upload is already part of the following firmware
  images: …" with the uids of these images. -/
  | uploadedAsFile (parentFw : Finset Uid)
deriving DecidableEq

/-- `create_file_object_entry`. -/
def createFileObjectEntry (fo : FileObject) : FileObjectEntry where
  sha256 := fo.sha256
  fileName := fo.fileName
  depth := fo.depth
  size := fo.size
  comments := fo.comments
  isFirmware := fo.isFirmware

/-- `create_firmware_entry`. -/
def createFirmwareEntry (fw : FirmwareData) : FirmwareEntry where
  releaseDate := fw.releaseDate
  version := fw.version
  vendor := fw.vendor
  deviceName := fw.deviceName
  deviceClass := fw.deviceClass
  devicePart := fw.part
  firmwareTags := fw.tags

/-- `create_vfp_entries`: one row for each parent and path. (`sanitize` only
changes paths with null bytes or lone surrogates, which no `VPath` has.) -/
def createVfpEntries (fo : FileObject) : Finset (Uid × Uid × VPath) :=
  (fo.virtualFilePath.items.flatMap fun p => p.2.map fun path => (p.1, fo.uid, path)).toFinset

theorem mem_createVfpEntries {fo : FileObject} {parent file : Uid} {path : VPath} :
    (parent, file, path) ∈ createVfpEntries fo ↔ file = fo.uid ∧ path ∈ fo.pathsIn parent := by
  simp only [createVfpEntries, List.mem_toFinset, List.mem_flatMap, List.mem_map, Prod.mk.injEq]
  constructor
  · rintro ⟨⟨k, paths⟩, hmem, path', hpath, rfl, rfl, rfl⟩
    have hget := Dict.get?_eq_some_iff.2 hmem
    exact ⟨rfl, by simpa [FileObject.pathsIn, hget] using hpath⟩
  · rintro ⟨rfl, hpath⟩
    cases hget : fo.virtualFilePath.get? parent with
    | none => simp [FileObject.pathsIn, hget] at hpath
    | some paths =>
        refine ⟨(parent, paths), Dict.get?_eq_some_iff.1 hget, path, ?_, rfl, rfl, rfl⟩
        simpa [FileObject.pathsIn, hget] using hpath

namespace Db

/-! ## Reading -/

/-- `exists`. -/
def exist (db : Db) (u : Uid) : Bool := decide (u ∈ db.fileObject)

/-- `is_firmware`: asks the firmware table, not the flag. -/
def isFirmware (db : Db) (u : Uid) : Bool := decide (u ∈ db.firmware)

/-- `get_parent_fw`. -/
def getParentFw (db : Db) (u : Uid) : Finset Uid :=
  (db.fwFiles.filter fun e => e.2 = u).image Prod.fst

/-- `get_all_files_in_fw`. -/
def getAllFilesInFw (db : Db) (fw : Uid) : Finset Uid :=
  (db.fwFiles.filter fun e => e.1 = fw).image Prod.snd

/-! ## Writing -/

/-- `_update_entries`: the rows found for a list of uids; an error if the list
is not empty and none of them is found. -/
def updateEntries (db : Db) (uids : Finset Uid) : Except DbInterfaceError (Finset Uid) :=
  let found := uids.filter fun u => u ∈ db.fileObject
  if uids ≠ ∅ ∧ found = ∅ then .error .write else .ok found

/-- Write the row of an object together with `_update_parents`: the rows of its
roots and parents are looked up, and those that are found are related to it. -/
def updateParents (db : Db) (fo : FileObject) (entry : FileObjectEntry) :
    Except DbInterfaceError Db :=
  match db.updateEntries fo.parentFirmwareUids, db.updateEntries fo.parents.toFinset with
  | .ok roots, .ok parents =>
      .ok (((db.putFileObject fo.uid entry).addFwFiles (roots.image fun r => (r, fo.uid))
        ).addIncludedFiles (parents.image fun p => (p, fo.uid)))
  | _, _ => .error .write

/-- Write the virtual file paths of an object. -/
def updateVirtualFilePath (db : Db) (fo : FileObject) : Except DbInterfaceError Db :=
  match db.mergeVirtualFilePaths (createVfpEntries fo) with
  | some db' => .ok db'
  | none => .error .write

/-- `insert_file_object`. -/
def insertFileObject (db : Db) (fo : FileObject) : Except DbInterfaceError Db :=
  if fo.uid ∈ db.fileObject then .error .write
  else (db.updateParents fo (createFileObjectEntry fo)).bind fun db' => db'.updateVirtualFilePath fo

/-- `insert_firmware`. -/
def insertFirmware (db : Db) (fo : FileObject) (fw : FirmwareData) : Except DbInterfaceError Db :=
  if fo.uid ∈ db.fileObject then .error .write
  else .ok ((db.putFileObject fo.uid (createFileObjectEntry fo)).putFirmware fo.uid
    (createFirmwareEntry fw))

/-- `insert_object`. -/
def insertObject (db : Db) (fo : FileObject) : Except DbInterfaceError Db :=
  match fo.firmware with
  | some fw => db.insertFirmware fo fw
  | none => db.insertFileObject fo

/-- `update_firmware`. -/
def updateFirmware (db : Db) (u : Uid) (fw : FirmwareData) : Db :=
  db.putFirmware u (createFirmwareEntry fw)

/-- `update_file_object`. A missing row is only logged. The paths of firmware
objects are not updated because they are not contained in another object. -/
def updateFileObject (db : Db) (fo : FileObject) : Except DbInterfaceError Db :=
  match db.fileObject.get? fo.uid with
  | none => .ok db
  | some entry =>
      let updated := db.updateParents fo { createFileObjectEntry fo with sha256 := entry.sha256 }
      if fo.isFirmware then updated else updated.bind fun db' => db'.updateVirtualFilePath fo

/-- The database after a transaction and the error it raised, if any. -/
def commit (db : Db) : Except DbInterfaceError Db → Db × Option DbInterfaceError
  | .ok db' => (db', none)
  | .error e => (db, some e)

/-- `update_object`. A file that is already part of another firmware cannot be
uploaded as firmware. -/
def updateObject (db : Db) (fo : FileObject) : Db × Option DbInterfaceError :=
  match fo.firmware with
  | some fw =>
      if db.isFirmware fo.uid then
        let db' := db.updateFirmware fo.uid fw
        db'.commit (db'.updateFileObject fo)
      else (db, some (.uploadedAsFile (db.getParentFw fo.uid)))
  | none => db.commit (db.updateFileObject fo)

/-- The second part of `add_object`, after the query whether the object `present`. -/
def saveObject (db : Db) (present : Bool) (fo : FileObject) : Db × Option DbInterfaceError :=
  if present then db.updateObject fo else db.commit (db.insertObject fo)

/-- `add_object`. -/
def addObject (db : Db) (fo : FileObject) : Db × Option DbInterfaceError :=
  db.saveObject (db.exist fo.uid) fo

/-- `add_vfp`. -/
def addVfp (db : Db) (parent child : Uid) (paths : List VPath) : Except DbInterfaceError Db :=
  match db.mergeVirtualFilePaths (paths.map fun path => (parent, child, path)).toFinset with
  | some db' => .ok db'
  | none => .error .write

/-- `add_child_to_parent`: integrity errors are suppressed, those of an edge
that exists already as well as those of a missing file object. -/
def addChildToParent (db : Db) (parent child : Uid) : Db := db.addIncludedFiles {(parent, child)}

/-! ## What the transactions change

One lemma for each method says everything a successful call does to the
tables; later proofs use these and never unfold the methods. -/

theorem updateEntries_ok {db : Db} {uids found : Finset Uid} (h : db.updateEntries uids = .ok found) :
    found = uids.filter (fun u => u ∈ db.fileObject) ∧ (uids.Nonempty → found.Nonempty) := by
  unfold updateEntries at h
  dsimp only at h
  split at h
  · cases h
  · rename_i hcond
    obtain rfl := Except.ok.inj h
    refine ⟨rfl, fun hne => ?_⟩
    rw [Finset.nonempty_iff_ne_empty]
    exact fun hempty => hcond ⟨Finset.nonempty_iff_ne_empty.1 hne, hempty⟩

/-- The effect of writing an object: its row is `entry`, it is related to those
of its roots and parents that have a row, and no other row changes. -/
structure Written (db : Db) (fo : FileObject) (entry : FileObjectEntry) (db' : Db) : Prop where
  fileObject : db'.fileObject = db.fileObject.set fo.uid entry
  firmware : db'.firmware = db.firmware
  fwFiles : ∀ r u, (r, u) ∈ db'.fwFiles ↔
    (r, u) ∈ db.fwFiles ∨ (u = fo.uid ∧ r ∈ fo.parentFirmwareUids ∧ r ∈ db.fileObject)
  includedFiles : ∀ p u, (p, u) ∈ db'.includedFiles ↔
    (p, u) ∈ db.includedFiles ∨ (u = fo.uid ∧ p ∈ fo.parents ∧ p ∈ db.fileObject)
  rooted : fo.parentFirmwareUids.Nonempty → ∃ r ∈ fo.parentFirmwareUids, r ∈ db.fileObject

theorem updateParents_ok {db db' : Db} {fo : FileObject} {entry : FileObjectEntry}
    (h : db.updateParents fo entry = .ok db') :
    Written db fo entry db' ∧ db'.virtualFilePath = db.virtualFilePath := by
  unfold updateParents at h
  split at h
  · rename_i roots parents hroots hparents
    obtain ⟨hr, hrne⟩ := updateEntries_ok hroots
    obtain ⟨hp, -⟩ := updateEntries_ok hparents
    obtain rfl := Except.ok.inj h
    have hself : fo.uid ∈ db.fileObject.set fo.uid entry := Dict.mem_set.2 (Or.inl rfl)
    refine ⟨⟨rfl, rfl, ?_, ?_, ?_⟩, rfl⟩
    · intro r u
      simp only [addIncludedFiles, addFwFiles, putFileObject, hr, Finset.mem_union,
        Finset.mem_filter, Finset.mem_image, Prod.mk.injEq]
      constructor
      · rintro (hold | ⟨⟨r', ⟨hr', hrow⟩, rfl, rfl⟩, -⟩)
        · exact Or.inl hold
        · exact Or.inr ⟨rfl, hr', hrow⟩
      · rintro (hold | ⟨rfl, hr', hrow⟩)
        · exact Or.inl hold
        · exact Or.inr ⟨⟨r, ⟨hr', hrow⟩, rfl, rfl⟩, Dict.mem_set.2 (Or.inr hrow), hself⟩
    · intro p u
      simp only [addIncludedFiles, addFwFiles, putFileObject, hp, Finset.mem_union,
        Finset.mem_filter, Finset.mem_image, Prod.mk.injEq, List.mem_toFinset]
      constructor
      · rintro (hold | ⟨⟨p', ⟨hp', hrow⟩, rfl, rfl⟩, -⟩)
        · exact Or.inl hold
        · exact Or.inr ⟨rfl, hp', hrow⟩
      · rintro (hold | ⟨rfl, hp', hrow⟩)
        · exact Or.inl hold
        · exact Or.inr ⟨⟨p, ⟨hp', hrow⟩, rfl, rfl⟩, Dict.mem_set.2 (Or.inr hrow), hself⟩
    · intro hne
      obtain ⟨r, hmem⟩ := hrne hne
      rw [hr, Finset.mem_filter] at hmem
      exact ⟨r, hmem⟩
  · cases h

theorem mergeVirtualFilePaths_some {db db' : Db} {new : Finset (Uid × Uid × VPath)}
    (h : db.mergeVirtualFilePaths new = some db') :
    db'.fileObject = db.fileObject ∧ db'.firmware = db.firmware ∧ db'.fwFiles = db.fwFiles ∧
      db'.includedFiles = db.includedFiles ∧ db'.virtualFilePath = db.virtualFilePath ∪ new := by
  unfold mergeVirtualFilePaths at h
  split at h
  · obtain rfl := Option.some.inj h
    exact ⟨rfl, rfl, rfl, rfl, rfl⟩
  · cases h

theorem updateVirtualFilePath_ok {db db' : Db} {fo : FileObject}
    (h : db.updateVirtualFilePath fo = .ok db') :
    db'.fileObject = db.fileObject ∧ db'.firmware = db.firmware ∧ db'.fwFiles = db.fwFiles ∧
      db'.includedFiles = db.includedFiles ∧
      db'.virtualFilePath = db.virtualFilePath ∪ createVfpEntries fo := by
  unfold updateVirtualFilePath at h
  split at h
  · rename_i db'' hmerge
    obtain rfl := Except.ok.inj h
    exact mergeVirtualFilePaths_some hmerge
  · cases h

/-- Writing the row, the relations and the paths of an object. -/
theorem write_ok {db db' : Db} {fo : FileObject} {entry : FileObjectEntry}
    (h : ((db.updateParents fo entry).bind fun d => d.updateVirtualFilePath fo) = .ok db') :
    Written db fo entry db' ∧ db'.virtualFilePath = db.virtualFilePath ∪ createVfpEntries fo := by
  cases hparents : db.updateParents fo entry with
  | error e => simp [hparents, Except.bind] at h
  | ok d =>
      rw [hparents] at h
      obtain ⟨hw, hvfp⟩ := updateParents_ok hparents
      obtain ⟨h1, h2, h3, h4, h5⟩ := updateVirtualFilePath_ok h
      refine ⟨⟨h1.trans hw.fileObject, h2.trans hw.firmware, ?_, ?_, hw.rooted⟩, ?_⟩
      · rw [h3]
        exact hw.fwFiles
      · rw [h4]
        exact hw.includedFiles
      · rw [h5, hvfp]

@[simp] theorem commit_ok (db db' : Db) : db.commit (.ok db') = (db', none) := rfl

@[simp] theorem commit_error (db : Db) (e : DbInterfaceError) :
    db.commit (.error e) = (db, some e) := rfl

/-- A successful `insert_file_object` writes the object under a new uid. -/
theorem insertFileObject_ok {db db' : Db} {fo : FileObject} (h : db.insertFileObject fo = .ok db') :
    fo.uid ∉ db.fileObject ∧ Written db fo (createFileObjectEntry fo) db' ∧
      db'.virtualFilePath = db.virtualFilePath ∪ createVfpEntries fo := by
  unfold insertFileObject at h
  split at h
  · cases h
  · rename_i hnew
    exact ⟨hnew, write_ok h⟩

/-- A successful `update_file_object` of a file that is not firmware: the row
is missing and nothing happens, or the object is written. -/
theorem updateFileObject_ok {db db' : Db} {fo : FileObject} (hfo : fo.firmware = none)
    (h : db.updateFileObject fo = .ok db') :
    (fo.uid ∉ db.fileObject ∧ db' = db) ∨
      ∃ entry, entry.isFirmware = false ∧ Written db fo entry db' ∧
        db'.virtualFilePath = db.virtualFilePath ∪ createVfpEntries fo := by
  have hnot : fo.isFirmware = false := by simp [FileObject.isFirmware, hfo]
  unfold updateFileObject at h
  split at h
  · rename_i hnone
    exact Or.inl ⟨Dict.notMem_iff.2 hnone, (Except.ok.inj h).symm⟩
  · rename_i entry _
    simp only [hnot, Bool.false_eq_true, if_false] at h
    refine Or.inr ⟨_, ?_, write_ok h⟩
    simp [createFileObjectEntry, hnot]

/-- What the second part of `add_object` does for a file that is not firmware:
it raises and changes nothing, it updates a row that has vanished, which
changes nothing either, or it writes the object. -/
theorem saveObject_fileObject (db : Db) (present : Bool) {fo : FileObject}
    (hfo : fo.firmware = none) :
    ((∃ e, (db.saveObject present fo).2 = some e) ∧ (db.saveObject present fo).1 = db) ∨
      (present = true ∧ fo.uid ∉ db.fileObject ∧ (db.saveObject present fo).1 = db) ∨
      ((db.saveObject present fo).2 = none ∧ ∃ entry, entry.isFirmware = false ∧
        Written db fo entry (db.saveObject present fo).1 ∧
        (db.saveObject present fo).1.virtualFilePath =
          db.virtualFilePath ∪ createVfpEntries fo) := by
  have hnot : fo.isFirmware = false := by simp [FileObject.isFirmware, hfo]
  cases present with
  | true =>
      simp only [saveObject, if_true, updateObject, hfo]
      cases h : db.updateFileObject fo with
      | error e => exact Or.inl ⟨⟨e, rfl⟩, rfl⟩
      | ok db' =>
          rcases updateFileObject_ok hfo h with ⟨hrow, rfl⟩ | hwritten
          · exact Or.inr (Or.inl ⟨trivial, hrow, rfl⟩)
          · exact Or.inr (Or.inr ⟨rfl, hwritten⟩)
  | false =>
      simp only [saveObject, Bool.false_eq_true, if_false, insertObject, hfo]
      cases h : db.insertFileObject fo with
      | error e => exact Or.inl ⟨⟨e, rfl⟩, rfl⟩
      | ok db' =>
          rcases insertFileObject_ok h with ⟨-, hw⟩
          exact Or.inr (Or.inr ⟨rfl, _, by simp [createFileObjectEntry, hnot], hw⟩)

/-- What `add_object` does for a firmware: it inserts it under a new uid, it
updates an uploaded firmware, or it raises without touching the flag, the
firmware table's keys or the relations. -/
theorem addObject_firmware (db : Db) {fo : FileObject} {fw : FirmwareData}
    (hfo : fo.firmware = some fw) :
    (fo.uid ∉ db.fileObject ∧
        (db.addObject fo).1 = (db.putFileObject fo.uid (createFileObjectEntry fo)).putFirmware fo.uid
          (createFirmwareEntry fw)) ∨
      (fo.uid ∈ db.firmware ∧ ∃ entry, entry.isFirmware = true ∧
        Written (db.updateFirmware fo.uid fw) fo entry (db.addObject fo).1) ∨
      ((db.addObject fo).1 = db.updateFirmware fo.uid fw ∧ fo.uid ∈ db.firmware) ∨
      (db.addObject fo).1 = db := by
  have hfw : fo.isFirmware = true := by simp [FileObject.isFirmware, hfo]
  by_cases hrow : fo.uid ∈ db.fileObject
  · have hadd : db.addObject fo = db.updateObject fo := by
      simp [addObject, exist, hrow, saveObject]
    rw [hadd]
    by_cases hmem : fo.uid ∈ db.firmware
    · have hupdate : db.updateObject fo = (db.updateFirmware fo.uid fw).commit
          ((db.updateFirmware fo.uid fw).updateFileObject fo) := by
        simp [updateObject, hfo, isFirmware, hmem]
      rw [hupdate]
      cases h : (db.updateFirmware fo.uid fw).updateFileObject fo with
      | error e => exact Or.inr (Or.inr (Or.inl ⟨rfl, hmem⟩))
      | ok db' =>
          unfold updateFileObject at h
          split at h
          · obtain rfl := Except.ok.inj h
            exact Or.inr (Or.inr (Or.inl ⟨rfl, hmem⟩))
          · rename_i entry _
            simp only [hfw, if_true] at h
            exact Or.inr (Or.inl ⟨hmem, _, by simp [createFileObjectEntry, hfw],
              (updateParents_ok h).1⟩)
    · refine Or.inr (Or.inr (Or.inr ?_))
      simp [updateObject, hfo, isFirmware, hmem]
  · refine Or.inl ⟨hrow, ?_⟩
    simp [addObject, exist, hrow, saveObject, insertObject, hfo, insertFirmware]

/-! ## Writing only adds

Nothing but a deletion takes a row, an edge or a path out of the database. -/

/-- Every row, edge and path is still there. -/
structure Grows (db db' : Db) : Prop where
  rows : ∀ u ∈ db.fileObject, u ∈ db'.fileObject
  edges : ∀ e ∈ db.includedFiles, e ∈ db'.includedFiles
  paths : ∀ p ∈ db.virtualFilePath, p ∈ db'.virtualFilePath

theorem Grows.refl (db : Db) : Grows db db := ⟨fun _ => id, fun _ => id, fun _ => id⟩

theorem Grows.trans {db db' db'' : Db} (h : Grows db db') (h' : Grows db' db'') : Grows db db'' :=
  ⟨fun u hu => h'.rows u (h.rows u hu), fun e he => h'.edges e (h.edges e he),
    fun p hp => h'.paths p (h.paths p hp)⟩

/-- Every root is still there as well. -/
structure Extends (db db' : Db) : Prop extends Grows db db' where
  roots : ∀ e ∈ db.fwFiles, e ∈ db'.fwFiles

theorem Extends.refl (db : Db) : Extends db db := ⟨Grows.refl db, fun _ => id⟩

theorem Extends.trans {db db' db'' : Db} (h : Extends db db') (h' : Extends db' db'') :
    Extends db db'' :=
  ⟨h.toGrows.trans h'.toGrows, fun e he => h'.roots e (h.roots e he)⟩

theorem putFileObject_extends (db : Db) (u : Uid) (e : FileObjectEntry) :
    Extends db (db.putFileObject u e) :=
  ⟨⟨fun _ hv => Dict.mem_set.2 (Or.inr hv), fun _ => id, fun _ => id⟩, fun _ => id⟩

theorem putFirmware_extends (db : Db) (u : Uid) (e : FirmwareEntry) :
    Extends db (db.putFirmware u e) := by
  unfold putFirmware
  split
  · exact ⟨⟨fun _ => id, fun _ => id, fun _ => id⟩, fun _ => id⟩
  · exact Extends.refl db

theorem written_extends {db db' : Db} {fo : FileObject} {entry : FileObjectEntry}
    (h : Written db fo entry db') (hpaths : ∀ p ∈ db.virtualFilePath, p ∈ db'.virtualFilePath) :
    Extends db db' := by
  refine ⟨⟨?_, ?_, hpaths⟩, ?_⟩
  · intro u hu
    rw [h.fileObject]
    exact Dict.mem_set.2 (Or.inr hu)
  · rintro ⟨p, u⟩ he
    exact (h.includedFiles p u).2 (Or.inl he)
  · rintro ⟨r, u⟩ he
    exact (h.fwFiles r u).2 (Or.inl he)

theorem insertFileObject_extends {db db' : Db} {fo : FileObject}
    (h : db.insertFileObject fo = .ok db') : Extends db db' := by
  rcases insertFileObject_ok h with ⟨-, hw, hvfp⟩
  exact written_extends hw fun p hp => hvfp.symm ▸ Finset.mem_union_left _ hp

theorem updateFileObject_extends {db db' : Db} {fo : FileObject}
    (h : db.updateFileObject fo = .ok db') : Extends db db' := by
  unfold updateFileObject at h
  split at h
  · cases h
    exact Extends.refl db
  · simp only at h
    split at h
    · rcases updateParents_ok h with ⟨hw, hvfp⟩
      exact written_extends hw fun p hp => hvfp.symm ▸ hp
    · rcases write_ok h with ⟨hw, hvfp⟩
      exact written_extends hw fun p hp => hvfp.symm ▸ Finset.mem_union_left _ hp

/-- A transaction only adds if it does so when it is committed. -/
theorem commit_extends {db d : Db} {result : Except DbInterfaceError Db} (hstart : Extends db d)
    (h : ∀ db', result = .ok db' → Extends d db') : Extends db (d.commit result).1 := by
  cases result with
  | error e => exact hstart
  | ok db' => exact hstart.trans (h db' rfl)

/-- The second part of `add_object` only adds, also when it raises. -/
theorem saveObject_extends (db : Db) (present : Bool) (fo : FileObject) :
    Extends db (db.saveObject present fo).1 := by
  cases present with
  | false =>
      refine commit_extends (Extends.refl db) ?_
      intro db' h
      unfold insertObject at h
      split at h
      · unfold insertFirmware at h
        split at h
        · cases h
        · cases h
          exact (putFileObject_extends _ _ _).trans (putFirmware_extends _ _ _)
      · exact insertFileObject_extends h
  | true =>
      show Extends db (db.updateObject fo).1
      unfold updateObject
      split
      · split
        · exact commit_extends (putFirmware_extends _ _ _) fun _ => updateFileObject_extends
        · exact Extends.refl db
      · exact commit_extends (Extends.refl db) fun _ => updateFileObject_extends

/-- An inserted object has a row. -/
theorem insertObject_row {db db' : Db} {fo : FileObject} (h : db.insertObject fo = .ok db') :
    fo.uid ∈ db'.fileObject := by
  unfold insertObject at h
  split at h
  · unfold insertFirmware at h
    split at h
    · cases h
    · cases h
      exact (putFirmware_extends _ _ _).rows _ (Dict.mem_set.2 (Or.inl rfl))
  · rcases insertFileObject_ok h with ⟨-, hw, -⟩
    rw [hw.fileObject]
    exact Dict.mem_set.2 (Or.inl rfl)

/-- A successful second part of `add_object` only adds, and the object has a row
afterwards, unless the query said so wrongly. -/
theorem saveObject_grows {db db' : Db} {present : Bool} {fo : FileObject}
    (h : db.saveObject present fo = (db', none)) :
    Grows db db' ∧ ((present = true → fo.uid ∈ db.fileObject) → fo.uid ∈ db'.fileObject) := by
  have hextends := saveObject_extends db present fo
  rw [h] at hextends
  refine ⟨hextends.toGrows, ?_⟩
  intro hpresent
  cases present with
  | true => exact hextends.rows _ (hpresent rfl)
  | false =>
      simp only [saveObject, Bool.false_eq_true, if_false] at h
      cases hinsert : db.insertObject fo with
      | error e =>
          rw [hinsert] at h
          cases (Prod.mk.inj h).2
      | ok d =>
          rw [hinsert] at h
          cases h
          exact insertObject_row hinsert

/-- A saved file belongs to its roots that have rows. -/
theorem saveObject_roots {db db' : Db} {present : Bool} {fo : FileObject} (hfo : fo.firmware = none)
    (h : db.saveObject present fo = (db', none)) (hpresent : present = true → fo.uid ∈ db.fileObject)
    {r : Uid} (hr : r ∈ fo.parentFirmwareUids) (hrow : r ∈ db.fileObject) :
    (r, fo.uid) ∈ db'.fwFiles := by
  have hsave := saveObject_fileObject db present hfo
  rw [h] at hsave
  rcases hsave with ⟨⟨e, he⟩, -⟩ | ⟨hp, hno, -⟩ | ⟨-, entry, -, hw, -⟩
  · cases he
  · exact absurd (hpresent hp) hno
  · exact (hw.fwFiles r fo.uid).2 (Or.inr ⟨rfl, hr, hrow⟩)

/-- The roots and parents of the file have rows, and it has paths in its parents only. -/
structure Placed (db : Db) (fo : FileObject) : Prop where
  parents : ∀ p ∈ fo.parents, p ∈ db.fileObject
  roots : ∀ r ∈ fo.parentFirmwareUids, r ∈ db.fileObject
  paths : ∀ p, p ∉ fo.parents → fo.pathsIn p = []

theorem updateEntries_placed {db : Db} (uids : Finset Uid) (h : ∀ u ∈ uids, u ∈ db.fileObject) :
    ∃ found, db.updateEntries uids = .ok found := by
  have hall : uids.filter (fun u => u ∈ db.fileObject) = uids := Finset.filter_true_of_mem h
  unfold updateEntries
  rw [hall]
  by_cases hempty : uids = ∅
  · exact ⟨uids, by simp [hempty]⟩
  · exact ⟨uids, by simp [hempty]⟩

/-- Writing an object that is placed does not raise. -/
theorem write_placed {db : Db} {fo : FileObject} (entry : FileObjectEntry) (h : Placed db fo) :
    ∃ db', ((db.updateParents fo entry).bind fun d => d.updateVirtualFilePath fo) = .ok db' := by
  rcases updateEntries_placed _ h.roots with ⟨roots, hroots⟩
  rcases updateEntries_placed fo.parents.toFinset
    (fun p hp => h.parents p (List.mem_toFinset.1 hp)) with ⟨parents, hparents⟩
  have hupdate : ∃ d, db.updateParents fo entry = .ok d := by
    unfold updateParents
    rw [hroots, hparents]
    exact ⟨_, rfl⟩
  rcases hupdate with ⟨d, hd⟩
  rw [hd]
  rcases updateParents_ok hd with ⟨hw, -⟩
  have hall : ∀ e ∈ createVfpEntries fo, e.1 ∈ d.fileObject ∧ e.2.1 ∈ d.fileObject := by
    rintro ⟨p, u, path⟩ he
    rcases mem_createVfpEntries.1 he with ⟨rfl, hpath⟩
    have hparent : p ∈ fo.parents := by
      by_contra hno
      rw [h.paths p hno] at hpath
      cases hpath
    rw [hw.fileObject]
    exact ⟨Dict.mem_set.2 (Or.inr (h.parents p hparent)), Dict.mem_set.2 (Or.inl rfl)⟩
  have hmerge : ∃ d', d.mergeVirtualFilePaths (createVfpEntries fo) = some d' := by
    unfold mergeVirtualFilePaths
    rw [dif_pos hall]
    exact ⟨_, rfl⟩
  rcases hmerge with ⟨d', hd'⟩
  exact ⟨d', by simp [Except.bind, updateVirtualFilePath, hd']⟩

/-- `add_object` of a file that is placed only raises when it inserts a row that
is there by now. -/
theorem saveObject_raises {db : Db} {present : Bool} {fo : FileObject} (hfo : fo.firmware = none)
    (hplaced : Placed db fo) (h : (db.saveObject present fo).2 ≠ none) :
    present = false ∧ fo.uid ∈ db.fileObject := by
  have hnot : fo.isFirmware = false := by simp [FileObject.isFirmware, hfo]
  cases present with
  | true =>
      exfalso
      apply h
      simp only [saveObject, if_true, updateObject, hfo]
      unfold updateFileObject
      split
      · rfl
      · rename_i entry _
        simp only [hnot, Bool.false_eq_true, if_false]
        rcases write_placed { createFileObjectEntry fo with sha256 := entry.sha256 } hplaced with
          ⟨d, hd⟩
        rw [hd]
        rfl
  | false =>
      refine ⟨rfl, ?_⟩
      by_contra hno
      apply h
      simp only [saveObject, Bool.false_eq_true, if_false, insertObject, hfo, insertFileObject,
        if_neg hno]
      rcases write_placed (createFileObjectEntry fo) hplaced with ⟨d, hd⟩
      rw [hd]
      rfl

/-- A saved file has its edges from the parents that have rows, and its paths. -/
theorem saveObject_holds {db db' : Db} {present : Bool} {fo : FileObject} (hfo : fo.firmware = none)
    (h : db.saveObject present fo = (db', none)) (hpresent : present = true → fo.uid ∈ db.fileObject) :
    (∀ p ∈ fo.parents, p ∈ db.fileObject → (p, fo.uid) ∈ db'.includedFiles) ∧
      ∀ p path, path ∈ fo.pathsIn p → (p, fo.uid, path) ∈ db'.virtualFilePath := by
  have hsave := saveObject_fileObject db present hfo
  rw [h] at hsave
  rcases hsave with ⟨⟨e, he⟩, -⟩ | ⟨hp, hrow, -⟩ | ⟨-, entry, -, hw, hvfp⟩
  · cases he
  · exact absurd (hpresent hp) hrow
  · refine ⟨?_, ?_⟩
    · intro p hp hrow
      exact (hw.includedFiles p fo.uid).2 (Or.inr ⟨rfl, hp, hrow⟩)
    · intro p path hpath
      simp only at hvfp
      rw [hvfp]
      exact Finset.mem_union_right _ (mem_createVfpEntries.2 ⟨rfl, hpath⟩)

/-- Nothing is added but the row of the file and edges from its parents. -/
structure Within (db : Db) (fo : FileObject) (db' : Db) : Prop where
  rows : ∀ u ∈ db'.fileObject, u ∈ db.fileObject ∨ u = fo.uid
  edges : ∀ p u, (p, u) ∈ db'.includedFiles → (p, u) ∈ db.includedFiles ∨ (u = fo.uid ∧ p ∈ fo.parents)

theorem putFirmware_tables (db : Db) (u : Uid) (e : FirmwareEntry) :
    (db.putFirmware u e).fileObject = db.fileObject ∧
      (db.putFirmware u e).includedFiles = db.includedFiles := by
  unfold putFirmware
  split
  · exact ⟨rfl, rfl⟩
  · exact ⟨rfl, rfl⟩

theorem within_refl (db : Db) (fo : FileObject) : Within db fo db :=
  ⟨fun _ => Or.inl, fun _ _ => Or.inl⟩

theorem within_written {db db' : Db} {fo : FileObject} {entry : FileObjectEntry}
    (h : Written db fo entry db') : Within db fo db' := by
  refine ⟨?_, ?_⟩
  · intro u hu
    rw [h.fileObject] at hu
    exact (Dict.mem_set.1 hu).symm
  · intro p u he
    rcases (h.includedFiles p u).1 he with hold | ⟨huid, hparent, -⟩
    · exact Or.inl hold
    · exact Or.inr ⟨huid, hparent⟩

theorem updateFileObject_within {db db' : Db} {fo : FileObject}
    (h : db.updateFileObject fo = .ok db') : Within db fo db' := by
  unfold updateFileObject at h
  split at h
  · cases h
    exact within_refl db fo
  · simp only at h
    split at h
    · exact within_written (updateParents_ok h).1
    · exact within_written (write_ok h).1

/-- What a successful second part of `add_object` adds. -/
theorem saveObject_within {db db' : Db} {present : Bool} {fo : FileObject}
    (h : db.saveObject present fo = (db', none)) : Within db fo db' := by
  -- a transaction that is committed has not raised
  have hcommit : ∀ {d : Db} {result : Except DbInterfaceError Db}, d.commit result = (db', none) →
      result = .ok db' := by
    intro d result hc
    cases result with
    | ok db₁ => exact congrArg Except.ok (Prod.mk.inj hc).1
    | error e => cases (Prod.mk.inj hc).2
  cases present with
  | false =>
      have hinsert := hcommit h
      unfold insertObject at hinsert
      split at hinsert
      · rename_i fw hfw
        unfold insertFirmware at hinsert
        split at hinsert
        · cases hinsert
        · cases hinsert
          rcases putFirmware_tables (db.putFileObject fo.uid (createFileObjectEntry fo)) fo.uid
            (createFirmwareEntry fw) with ⟨hrows, hedges⟩
          refine ⟨?_, ?_⟩
          · intro u hu
            rw [hrows] at hu
            exact (Dict.mem_set.1 hu).symm
          · intro p u he
            rw [hedges] at he
            exact Or.inl he
      · exact within_written (insertFileObject_ok hinsert).2.1
  | true =>
      have hupdated : db.updateObject fo = (db', none) := h
      unfold updateObject at hupdated
      split at hupdated
      · rename_i fw hfw
        split at hupdated
        · rcases putFirmware_tables db fo.uid (createFirmwareEntry fw) with ⟨hrows, hedges⟩
          have hwithin := updateFileObject_within (hcommit hupdated)
          refine ⟨?_, ?_⟩
          · intro u hu
            exact hrows ▸ hwithin.rows u hu
          · intro p u he
            exact hedges ▸ hwithin.edges p u he
        · cases (Prod.mk.inj hupdated).2
      · exact updateFileObject_within (hcommit hupdated)

/-- A successful `add_vfp` only adds, and adds the paths. -/
theorem addVfp_extends {db db' : Db} {parent child : Uid} {paths : List VPath}
    (h : db.addVfp parent child paths = .ok db') :
    Extends db db' ∧ ∀ path ∈ paths, (parent, child, path) ∈ db'.virtualFilePath := by
  unfold addVfp at h
  split at h
  · rename_i d hmerge
    cases h
    rcases mergeVirtualFilePaths_some hmerge with ⟨hrows, -, hroots, hedges, hpaths⟩
    refine ⟨⟨⟨?_, ?_, ?_⟩, ?_⟩, ?_⟩
    · intro u hu
      rw [hrows]
      exact hu
    · intro e he
      rw [hedges]
      exact he
    · intro p hp
      rw [hpaths]
      exact Finset.mem_union_left _ hp
    · intro e he
      rw [hroots]
      exact he
    · intro path hpath
      rw [hpaths]
      exact Finset.mem_union_right _ (List.mem_toFinset.2 (List.mem_map.2 ⟨path, hpath, rfl⟩))
  · cases h

/-- `add_child_to_parent` only adds, and adds the edge if both files have rows. -/
theorem addChildToParent_extends (db : Db) (parent child : Uid) :
    Extends db (db.addChildToParent parent child) ∧
      (parent ∈ db.fileObject → child ∈ db.fileObject →
        (parent, child) ∈ (db.addChildToParent parent child).includedFiles) := by
  refine ⟨⟨⟨fun _ => id, ?_, fun _ => id⟩, fun _ => id⟩, ?_⟩
  · intro e he
    exact Finset.mem_union_left _ he
  · intro hparent hchild
    refine Finset.mem_union_right _ (Finset.mem_filter.2 ⟨?_, hparent, hchild⟩)
    exact Finset.mem_singleton.2 rfl

end Db

end FactCore
