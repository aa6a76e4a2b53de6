import FactCore.Lib.Machine
import FactCore.Storage.DbInterfaceBackend

/-! # Deleting firmware, and what happens to uploads

`storage/db_interface_admin.py` with the session event `delete_file_orphans`
of the schema, and the machine whose steps are the calls of `add_object` and
`delete_firmware` in any order.

The flag `is_firmware` of a row is written by `insert_file_object` and
overwritten by every `update_file_object`, the firmware table only by uploads;
the orphan removal after a deletion trusts the flag. `Inv` says that the two
agree, that every other row has a root, and that all roots are uploads. It is
an invariant of the runs in which no file that was uploaded as firmware is
found inside another firmware afterwards; `flag_lost` is a run where one is.
-/

namespace FactCore

namespace Db

/-- `delete_object`: delete a row with its cascades; deleting the firmware row
triggers `delete_file_orphans` in the same session. -/
def deleteObject (db : Db) (uid : Uid) : Db :=
  if uid ∈ db.fileObject then
    let db' := db.deleteFileObjects {uid}
    if uid ∈ db.firmware then db'.deleteFileObjects db'.orphans else db'
  else db

/-- `_find_files_still_in_db`. -/
def findFilesStillInDb (db : Db) (included : Finset Uid) : Finset Uid :=
  included.filter fun u => u ∈ db.fileObject

/-- `delete_firmware`: the new database and, unless the uid is refused, the
files still in the database and the files to be deleted from the file system. -/
def deleteFirmware (db : Db) (uid : Uid) (deleteRootFile : Bool) :
    Db × Option (Finset Uid × Finset Uid) :=
  match db.fileObject.get? uid with
  | none => (db, none)
  | some fw =>
      if fw.isFirmware then
        let included := db.getAllFilesInFw uid
        let db' := db.deleteObject uid
        let stillInDb := db'.findFilesStillInDb included
        let toDelete := included \ stillInDb
        (db', some (stillInDb, if deleteRootFile then insert uid toDelete else toDelete.erase uid))
      else (db, none)

/-! ## What a deletion removes -/

theorem get?_deleteFileObjects {db : Db} {gone : Finset Uid} {u : Uid} :
    (db.deleteFileObjects gone).fileObject.get? u =
      if u ∈ gone then none else db.fileObject.get? u :=
  Dict.get?_eraseAll db.fileObject gone u

theorem mem_fwFiles_deleteFileObjects {db : Db} {gone : Finset Uid} {r u : Uid} :
    (r, u) ∈ (db.deleteFileObjects gone).fwFiles ↔ (r, u) ∈ db.fwFiles ∧ r ∉ gone ∧ u ∉ gone := by
  simp [deleteFileObjects]

theorem mem_firmware_deleteFileObjects {db : Db} {gone : Finset Uid} {u : Uid} :
    u ∈ (db.deleteFileObjects gone).firmware ↔ u ∈ db.firmware ∧ u ∉ gone :=
  Dict.mem_eraseAll

/-- The rows that `delete_object` removes. -/
def removedBy (db : Db) (uid : Uid) : Finset Uid :=
  if uid ∈ db.firmware then insert uid (db.deleteFileObjects {uid}).orphans else {uid}

theorem deleteObject_eq {db : Db} {uid : Uid} (h : uid ∈ db.fileObject) (u : Uid) :
    (db.deleteObject uid).fileObject.get? u =
      if u ∈ db.removedBy uid then none else db.fileObject.get? u := by
  unfold deleteObject removedBy
  rw [if_pos h]
  by_cases hfw : uid ∈ db.firmware
  · simp only [hfw, if_true, get?_deleteFileObjects, Finset.mem_singleton, Finset.mem_insert]
    by_cases hu : u = uid <;> simp [hu]
  · simp only [hfw, if_false, get?_deleteFileObjects]

theorem mem_fwFiles_deleteObject {db : Db} {uid : Uid} (h : uid ∈ db.fileObject) {r u : Uid} :
    (r, u) ∈ (db.deleteObject uid).fwFiles ↔
      (r, u) ∈ db.fwFiles ∧ r ∉ db.removedBy uid ∧ u ∉ db.removedBy uid := by
  unfold deleteObject removedBy
  rw [if_pos h]
  by_cases hfw : uid ∈ db.firmware
  · simp only [hfw, if_true, mem_fwFiles_deleteFileObjects, Finset.mem_singleton,
      Finset.mem_insert, not_or]
    tauto
  · simp only [hfw, if_false, mem_fwFiles_deleteFileObjects]

theorem mem_firmware_deleteObject {db : Db} {uid : Uid} (h : uid ∈ db.fileObject) {u : Uid} :
    u ∈ (db.deleteObject uid).firmware ↔ u ∈ db.firmware ∧ u ∉ db.removedBy uid := by
  unfold deleteObject removedBy
  rw [if_pos h]
  by_cases hfw : uid ∈ db.firmware
  · simp only [hfw, if_true, mem_firmware_deleteFileObjects, Finset.mem_singleton,
      Finset.mem_insert, not_or]
    tauto
  · simp only [hfw, if_false, mem_firmware_deleteFileObjects]

end Db

/-! ## Uploads -/

namespace Uploads

open Tla

/-- A call that changes the set of stored objects. -/
inductive Call where
  | addObject (fo : FileObject)
  | deleteFirmware (uid : Uid) (deleteRootFile : Bool)

/-- One call; a call that raises leaves the database as its transactions left it. -/
def step : Call → Db → Option Db
  | .addObject fo, db => some (db.addObject fo).1
  | .deleteFirmware uid deleteRootFile, db => some (db.deleteFirmware uid deleteRootFile).1

/-- The calls in any order, from an empty database. -/
def machine : Machine Db Call where
  Init := fun db => db = Db.empty
  step := step

/-- The domain: uploads, and files found during unpacking, which carry the uid
of the firmware they were found in. -/
def FromUnpacking : Db → Call → Prop
  | _, .addObject fo => fo.isFirmware = false → fo.parentFirmwareUids.Nonempty
  | _, .deleteFirmware _ _ => True

/-- Within the domain, no file is added under a root that has a row unless this
root is an uploaded firmware and the file itself is not one. -/
def NoUploadInside : Db → Call → Prop
  | db, .addObject fo => (fo.isFirmware = false → fo.parentFirmwareUids.Nonempty) ∧
      ∀ r ∈ fo.parentFirmwareUids, r ∈ db.fileObject →
        r ∈ db.firmware ∧ (fo.isFirmware = false → fo.uid ∉ db.firmware)
  | _, .deleteFirmware _ _ => True

/-- The flag agrees with the firmware table, every other row has a root, and
roots are uploads. -/
structure Inv (db : Db) : Prop where
  flag : ∀ u e, db.fileObject.get? u = some e → (e.isFirmware = true ↔ u ∈ db.firmware)
  rooted : ∀ u e, db.fileObject.get? u = some e → e.isFirmware = false → ∃ r, (r, u) ∈ db.fwFiles
  roots : ∀ r u, (r, u) ∈ db.fwFiles → r ∈ db.firmware

theorem init_inv (db : Db) (h : machine.Init db) : Inv db := by
  obtain rfl : db = Db.empty := h
  refine ⟨?_, ?_, ?_⟩
  · intro u e he
    simp [Db.empty] at he
  · intro u e he
    simp [Db.empty] at he
  · intro r u hru
    simp [Db.empty] at hru

/-! ### One call -/

/-- Writing an object under uploaded roots with a flag that is right for it. -/
theorem written_inv {db db' : Db} {fo : FileObject} {entry : FileObjectEntry}
    (hw : db.Written fo entry db') (hentry : entry.isFirmware = true ↔ fo.uid ∈ db.firmware)
    (hne : entry.isFirmware = false → fo.parentFirmwareUids.Nonempty)
    (hroots : ∀ r ∈ fo.parentFirmwareUids, r ∈ db.fileObject → r ∈ db.firmware)
    (h : Inv db) : Inv db' := by
  refine ⟨?_, ?_, ?_⟩
  · intro u e he
    rw [hw.fileObject, Dict.get?_set] at he
    rw [hw.firmware]
    by_cases hu : u = fo.uid
    · subst hu
      obtain rfl : entry = e := by simpa using he
      exact hentry
    · exact h.flag u e (by simpa [hu] using he)
  · intro u e he hfw
    rw [hw.fileObject, Dict.get?_set] at he
    by_cases hu : u = fo.uid
    · -- a file that is not firmware gets the root that was found
      obtain rfl : entry = e := by simpa [hu] using he
      rcases hw.rooted (hne hfw) with ⟨r, hr, hrow⟩
      exact ⟨r, (hw.fwFiles r u).2 (Or.inr ⟨hu, hr, hrow⟩)⟩
    · rcases h.rooted u e (by simpa [hu] using he) hfw with ⟨r, hr⟩
      exact ⟨r, (hw.fwFiles r u).2 (Or.inl hr)⟩
  · intro r u hru
    rw [hw.firmware]
    rcases (hw.fwFiles r u).1 hru with hold | ⟨-, hr, hrow⟩
    · exact h.roots r u hold
    · exact hroots r hr hrow

/-- Overwriting the metadata of an uploaded firmware. -/
theorem updateFirmware_inv {db : Db} {u : Uid} (fw : FirmwareData) (hu : u ∈ db.firmware)
    (h : Inv db) : Inv (db.updateFirmware u fw) := by
  have hrow : u ∈ db.fileObject := db.firmware_fk u hu
  have hkeys : ∀ v, v ∈ (db.updateFirmware u fw).firmware ↔ v ∈ db.firmware := by
    intro v
    simp only [Db.updateFirmware, Db.putFirmware, hrow, dif_pos, Dict.mem_set]
    constructor
    · rintro (rfl | hv)
      · exact hu
      · exact hv
    · exact Or.inr
  have hobj : (db.updateFirmware u fw).fileObject = db.fileObject := by
    simp [Db.updateFirmware, Db.putFirmware, hrow]
  have hfiles : (db.updateFirmware u fw).fwFiles = db.fwFiles := by
    simp [Db.updateFirmware, Db.putFirmware, hrow]
  refine ⟨?_, ?_, ?_⟩
  · intro v e he
    rw [hkeys]
    exact h.flag v e (hobj ▸ he)
  · intro v e he hfw
    rw [hfiles]
    exact h.rooted v e (hobj ▸ he) hfw
  · intro r v hrv
    rw [hkeys]
    exact h.roots r v (hfiles ▸ hrv)

/-- Writing the rows of an upload. -/
theorem insertFirmware_inv {db : Db} {fo : FileObject} {fe : FirmwareEntry}
    (hfo : fo.isFirmware = true) (h : Inv db) :
    Inv ((db.putFileObject fo.uid (createFileObjectEntry fo)).putFirmware fo.uid fe) := by
  have hself : fo.uid ∈ (db.putFileObject fo.uid (createFileObjectEntry fo)).fileObject :=
    Dict.mem_set.2 (Or.inl rfl)
  have hflag : (createFileObjectEntry fo).isFirmware = true := hfo
  rw [Db.putFirmware, dif_pos hself]
  refine ⟨?_, ?_, ?_⟩
  · intro u e he
    simp only [Db.putFileObject, Dict.get?_set] at he
    simp only [Db.putFileObject, Dict.mem_set]
    by_cases hu : u = fo.uid
    · obtain rfl : createFileObjectEntry fo = e := by simpa [hu] using he
      simp [hu, hflag]
    · simpa [hu] using h.flag u e (by simpa [hu] using he)
  · intro u e he hfw
    simp only [Db.putFileObject, Dict.get?_set] at he
    by_cases hu : u = fo.uid
    · obtain rfl : createFileObjectEntry fo = e := by simpa [hu] using he
      rw [hflag] at hfw
      cases hfw
    · exact h.rooted u e (by simpa [hu] using he) hfw
  · intro r u hru
    simp only [Db.putFileObject, Dict.mem_set]
    exact Or.inr (h.roots r u hru)

theorem addObject_inv {db : Db} {fo : FileObject} (hok : NoUploadInside db (.addObject fo))
    (h : Inv db) : Inv (db.addObject fo).1 := by
  rcases hok with ⟨hne, hroots⟩
  cases hfo : fo.firmware with
  | none =>
      have hnot : fo.isFirmware = false := by simp [FileObject.isFirmware, hfo]
      rcases Db.saveObject_fileObject db (db.exist fo.uid) hfo with
        ⟨-, heq⟩ | ⟨-, -, heq⟩ | ⟨-, entry, hentry, hw, -⟩
      · exact heq.symm ▸ h
      · exact heq.symm ▸ h
      · have hfw : fo.uid ∉ db.firmware := by
          rcases hw.rooted (hne hnot) with ⟨r, hr, hrow⟩
          exact (hroots r hr hrow).2 hnot
        exact written_inv hw (by simp [hentry, hfw]) (fun _ => hne hnot)
          (fun r hr hrow => (hroots r hr hrow).1) h
  | some fw =>
      have hyes : fo.isFirmware = true := by simp [FileObject.isFirmware, hfo]
      rcases Db.addObject_firmware db hfo with
        ⟨-, heq⟩ | ⟨hmem, entry, hentry, hw⟩ | ⟨heq, hmem⟩ | heq
      · exact heq.symm ▸ insertFirmware_inv hyes h
      · have hinv := updateFirmware_inv fw hmem h
        have hkeys : ∀ v, v ∈ db.firmware → v ∈ (db.updateFirmware fo.uid fw).firmware := by
          intro v hv
          simp only [Db.updateFirmware, Db.putFirmware, db.firmware_fk _ hmem, dif_pos, Dict.mem_set]
          exact Or.inr hv
        have hobj : (db.updateFirmware fo.uid fw).fileObject = db.fileObject := by
          simp [Db.updateFirmware, Db.putFirmware, db.firmware_fk _ hmem]
        refine written_inv hw (by simp [hentry, hkeys _ hmem]) (by simp [hentry]) ?_ hinv
        intro r hr hrow
        exact hkeys r (hroots r hr (hobj ▸ hrow)).1
      · exact heq.symm ▸ updateFirmware_inv fw hmem h
      · exact heq.symm ▸ h

/-- A deletion removes the firmware and files that are not firmware: the flag
of an upload protects it. -/
theorem upload_notMem_removedBy {db : Db} {u v : Uid} (h : Inv db) (hu : u ∈ db.firmware)
    (hne : u ≠ v) : u ∉ db.removedBy v := by
  unfold Db.removedBy
  split
  · intro hmem
    rcases Finset.mem_insert.1 hmem with rfl | horphan
    · exact hne rfl
    · rcases (Db.mem_orphans.1 horphan).1 with ⟨e, he, hfw⟩
      rw [Db.get?_deleteFileObjects] at he
      split at he
      · cases he
      · rw [(h.flag u e he).2 hu] at hfw
        cases hfw
  · simpa using hne

theorem deleteObject_inv {db : Db} {v : Uid} (hv : v ∈ db.firmware) (h : Inv db) :
    Inv (db.deleteObject v) := by
  have hrow : v ∈ db.fileObject := db.firmware_fk v hv
  have hkeep : ∀ u, u ∈ db.firmware → u ≠ v → u ∉ db.removedBy v :=
    fun u hu hne => upload_notMem_removedBy h hu hne
  have hvgone : v ∈ db.removedBy v := by simp [Db.removedBy, hv]
  refine ⟨?_, ?_, ?_⟩
  · intro u e he
    rw [Db.deleteObject_eq hrow] at he
    rw [Db.mem_firmware_deleteObject hrow]
    split at he
    · cases he
    · rename_i hstay
      simp [hstay, h.flag u e he]
  · intro u e he hfw
    rw [Db.deleteObject_eq hrow] at he
    split at he
    · cases he
    · rename_i hstay
      -- not being an orphan after the deletion of `v`, the row kept a root other than `v`
      have hroot : ∃ r, (r, u) ∈ (db.deleteFileObjects {v}).fwFiles := by
        by_contra hnone
        have huv : u ≠ v := fun huv => hstay (huv ▸ hvgone)
        apply hstay
        rw [Db.removedBy, if_pos hv, Finset.mem_insert]
        refine Or.inr (Db.mem_orphans.2 ⟨⟨e, ?_, hfw⟩, fun r hr => hnone ⟨r, hr⟩⟩)
        rw [Db.get?_deleteFileObjects]
        simpa [huv] using he
      rcases hroot with ⟨r, hr⟩
      rcases Db.mem_fwFiles_deleteFileObjects.1 hr with ⟨hru, hrv, -⟩
      refine ⟨r, (Db.mem_fwFiles_deleteObject hrow).2 ⟨hru, ?_, hstay⟩⟩
      exact hkeep r (h.roots r u hru) (by simpa using hrv)
  · intro r u hru
    rcases (Db.mem_fwFiles_deleteObject hrow).1 hru with ⟨hold, hr, -⟩
    exact (Db.mem_firmware_deleteObject hrow).2 ⟨h.roots r u hold, hr⟩

/-- `delete_firmware` deletes an uploaded firmware or does nothing. -/
theorem deleteFirmware_cases {db : Db} (v : Uid) (flag : Bool) (h : Inv db) :
    (v ∈ db.firmware ∧ (db.deleteFirmware v flag).1 = db.deleteObject v) ∨
      (db.deleteFirmware v flag).1 = db := by
  unfold Db.deleteFirmware
  cases hget : db.fileObject.get? v with
  | none => exact Or.inr rfl
  | some e =>
      cases hfw : e.isFirmware with
      | true => exact Or.inl ⟨(h.flag v e hget).1 hfw, by simp [hfw]⟩
      | false => exact Or.inr (by simp [hfw])

theorem step_inv (db : Db) (c : Call) (db' : Db) (hok : NoUploadInside db c)
    (hstep : machine.step c db = some db') (h : Inv db) : Inv db' := by
  cases c with
  | addObject fo =>
      have heq : (db.addObject fo).1 = db' := Option.some.inj hstep
      subst heq
      exact addObject_inv hok h
  | deleteFirmware v flag =>
      have heq : (db.deleteFirmware v flag).1 = db' := Option.some.inj hstep
      subst heq
      rcases deleteFirmware_cases v flag h with ⟨hv, heq⟩ | heq
      · exact heq.symm ▸ deleteObject_inv hv h
      · exact heq.symm ▸ h

theorem reach_inv {db : Db} (h : machine.Reach NoUploadInside db) : Inv db :=
  Machine.reach_invariant init_inv step_inv h

/-! ### Every reachable database -/

/-- The flag of a row tells whether it is an uploaded firmware, and every
other row belongs to one. -/
def Consistent (db : Db) : Prop :=
  (∀ u e, db.fileObject.get? u = some e → (e.isFirmware = true ↔ u ∈ db.firmware)) ∧
    ∀ u e, db.fileObject.get? u = some e → e.isFirmware = false →
      ∃ r ∈ db.firmware, (r, u) ∈ db.fwFiles

/-- A call that removes a row of an uploaded firmware is its own deletion. -/
def KeepsUploads (db : Db) (c : Call) (db' : Db) : Prop :=
  ∀ u ∈ db.firmware, u ∉ db'.fileObject ∨ u ∉ db'.firmware → ∃ flag, c = .deleteFirmware u flag

/-- `add_object` removes no firmware. -/
theorem addObject_keeps {db : Db} (fo : FileObject) {u : Uid} (hu : u ∈ db.firmware) :
    u ∈ (db.addObject fo).1.firmware := by
  have hupdate : ∀ fw, fo.uid ∈ db.firmware → u ∈ (db.updateFirmware fo.uid fw).firmware := by
    intro fw hmem
    simp only [Db.updateFirmware, Db.putFirmware, db.firmware_fk _ hmem, dif_pos, Dict.mem_set]
    exact Or.inr hu
  cases hfo : fo.firmware with
  | none =>
      rcases Db.saveObject_fileObject db (db.exist fo.uid) hfo with
        ⟨-, heq⟩ | ⟨-, -, heq⟩ | ⟨-, entry, -, hw, -⟩
      · exact heq.symm ▸ hu
      · exact heq.symm ▸ hu
      · exact hw.firmware.symm ▸ hu
  | some fw =>
      rcases Db.addObject_firmware db hfo with
        ⟨-, heq⟩ | ⟨hmem, entry, -, hw⟩ | ⟨heq, hmem⟩ | heq
      · have hself : fo.uid ∈ (db.putFileObject fo.uid (createFileObjectEntry fo)).fileObject :=
          Dict.mem_set.2 (Or.inl rfl)
        rw [heq, Db.putFirmware, dif_pos hself]
        exact Dict.mem_set.2 (Or.inr hu)
      · rw [hw.firmware]
        exact hupdate fw hmem
      · exact heq.symm ▸ hupdate fw hmem
      · exact heq.symm ▸ hu

theorem step_keepsUploads {db db' : Db} {c : Call} (hstep : machine.step c db = some db')
    (h : Inv db) : KeepsUploads db c db' := by
  intro u hu hgone
  cases c with
  | addObject fo =>
      have heq : (db.addObject fo).1 = db' := Option.some.inj hstep
      subst heq
      have hkept := addObject_keeps fo hu
      rcases hgone with hgone | hgone
      · exact absurd (Db.firmware_fk _ u hkept) hgone
      · exact absurd hkept hgone
  | deleteFirmware v flag =>
      have heq : (db.deleteFirmware v flag).1 = db' := Option.some.inj hstep
      subst heq
      by_cases huv : u = v
      · exact ⟨flag, by rw [huv]⟩
      · exfalso
        have hkept : u ∈ (db.deleteFirmware v flag).1.firmware := by
          rcases deleteFirmware_cases v flag h with ⟨hv, heq⟩ | heq
          · rw [heq, Db.mem_firmware_deleteObject (db.firmware_fk v hv)]
            exact ⟨hu, upload_notMem_removedBy h hu huv⟩
          · exact heq.symm ▸ hu
        rcases hgone with hgone | hgone
        · exact hgone (Db.firmware_fk _ u hkept)
        · exact hgone hkept

/-- Uploads are kept: as long as no uploaded firmware is found as a file of
another firmware, the flag, the roots and the firmware table agree in every
reachable database, and only its own deletion removes an upload. -/
theorem uploads_kept (db : Db) (h : machine.Reach NoUploadInside db) :
    Consistent db ∧ ∀ c db', machine.step c db = some db' → KeepsUploads db c db' := by
  have hinv := reach_inv h
  refine ⟨⟨hinv.flag, ?_⟩, fun c db' hstep => step_keepsUploads hstep hinv⟩
  intro u e he hfw
  rcases hinv.rooted u e he hfw with ⟨r, hr⟩
  exact ⟨r, hinv.roots r u hr, hr⟩

instance : ∀ db c, Decidable (NoUploadInside db c)
  | _, .addObject _ => inferInstanceAs (Decidable (_ ∧ _))
  | _, .deleteFirmware _ _ => inferInstanceAs (Decidable True)

instance : ∀ db c, Decidable (FromUnpacking db c)
  | _, .addObject _ => inferInstanceAs (Decidable (_ → _))
  | _, .deleteFirmware _ _ => inferInstanceAs (Decidable True)

/-- An uploaded router image. -/
def image (uid : Uid) : FileObject :=
  .newFirmware uid uid 1 uid ⟨uid, "1.0", "router", "vendor", "", "1970-01-01", []⟩

/-- A file found directly in the firmware `root`. -/
def fileOf (root uid : Uid) : FileObject :=
  { FileObject.new uid uid 1 uid with
    rootUid := some root
    depth := 1
    parents := [root]
    parentFirmwareUids := {root}
    virtualFilePath := (∅ : Dict Uid (List VPath)).set root ["/" ++ uid] }

/-- Two uploads with a common file, one of which is deleted. -/
def sharedFile : List Call :=
  [.addObject (image "A"), .addObject (image "B"), .addObject (fileOf "A" "x"),
    .addObject (fileOf "B" "x"), .deleteFirmware "B" true]

theorem sharedFile_isSome : (machine.run NoUploadInside sharedFile Db.empty).isSome = true := by
  decide +kernel

/-- The theorem at the end of the run `sharedFile`. -/
theorem uploads_kept_sharedFile :
    Consistent ((machine.run NoUploadInside sharedFile Db.empty).get sharedFile_isSome) ∧
      ∀ c db', machine.step c ((machine.run NoUploadInside sharedFile Db.empty).get
          sharedFile_isSome) = some db' →
        KeepsUploads ((machine.run NoUploadInside sharedFile Db.empty).get sharedFile_isSome) c db' :=
  uploads_kept _ (Machine.reach_get rfl sharedFile_isSome)

/-- The upload `A` is then found as a file in the upload `B`. -/
def uploadInside : List Call :=
  [.addObject (image "A"), .addObject (image "B"), .addObject (fileOf "B" "A")]

theorem uploadInside_isSome :
    (machine.run FromUnpacking uploadInside Db.empty).isSome = true := by
  decide +kernel

/-- Finding an uploaded firmware as a file of another one clears its flag, and
deleting the other firmware removes both of its rows. -/
theorem flag_lost :
    ∃ db, machine.Reach FromUnpacking db ∧ "A" ∈ db.firmware ∧ ¬ Consistent db ∧
      ∃ db', machine.step (.deleteFirmware "B" true) db = some db' ∧ "A" ∉ db'.fileObject ∧
        "A" ∉ db'.firmware ∧ ¬ KeepsUploads db (.deleteFirmware "B" true) db' := by
  refine ⟨_, Machine.reach_get rfl uploadInside_isSome, by decide +kernel, ?_, _, rfl, by decide +kernel,
    by decide +kernel, ?_⟩
  · intro hcons
    have hflag : (((machine.run FromUnpacking uploadInside Db.empty).get
        uploadInside_isSome).fileObject.get? "A").map FileObjectEntry.isFirmware = some false := by decide +kernel
    rcases Option.map_eq_some_iff.1 hflag with ⟨e, he, hfalse⟩
    have htrue := (hcons.1 "A" e he).2 (by decide +kernel)
    rw [hfalse] at htrue
    cases htrue
  · intro hkeeps
    rcases hkeeps "A" (by decide +kernel) (Or.inl (by decide +kernel)) with ⟨flag, heq⟩
    have huid : "B" = "A" := (Call.deleteFirmware.inj heq).1
    exact absurd huid (by decide)

end Uploads

end FactCore
