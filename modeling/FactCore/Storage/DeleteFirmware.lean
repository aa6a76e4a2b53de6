import FactCore.Storage.DbInterfaceAdmin

/-! # What a firmware owns alone

Rows vanish in three ways when a firmware is deleted: its own one, the rows that
refer to it, and the orphans that `delete_file_orphans` finds afterwards. The
list for the file system is the difference of two queries around all that. The
two agree, and they take exactly what belongs to the firmware alone, provided
that the firmware is not itself a file of another one: `delete_object` does not
look at the roots of the firmware it deletes.
-/

namespace FactCore

namespace Db

/-- The flag of a row agrees with the firmware table, and every other row has a
root. -/
structure Owned (db : Db) : Prop where
  flag : ∀ u e, db.fileObject.get? u = some e → (e.isFirmware = true ↔ u ∈ db.firmware)
  rooted : ∀ u e, db.fileObject.get? u = some e → e.isFirmware = false → ∃ r, (r, u) ∈ db.fwFiles

/-- A row that belongs to the firmware `fw` alone: its own one, or that of a file
(which is no firmware itself), without any other root. -/
def BelongsOnlyTo (db : Db) (fw u : Uid) : Prop :=
  (u = fw ∨ u ∈ db.fileObject ∧ u ∉ db.firmware ∧ (fw, u) ∈ db.fwFiles) ∧
    ∀ r, (r, u) ∈ db.fwFiles → r = fw

/-- What the deletion of the firmware `fw` shall do. -/
structure DeletesExactly (db : Db) (fw : Uid) (deleteRootFile : Bool) : Prop where
  removed : ∀ u ∈ db.fileObject,
    u ∉ (db.deleteFirmware fw deleteRootFile).1.fileObject ↔ db.BelongsOnlyTo fw u
  rows : ∀ u ∈ (db.deleteFirmware fw deleteRootFile).1.fileObject,
    (db.deleteFirmware fw deleteRootFile).1.fileObject.get? u = db.fileObject.get? u ∧
      (db.deleteFirmware fw deleteRootFile).1.firmware.get? u = db.firmware.get? u
  edges : ∀ parent ∈ (db.deleteFirmware fw deleteRootFile).1.fileObject,
    ∀ child ∈ (db.deleteFirmware fw deleteRootFile).1.fileObject,
      (parent, child) ∈ (db.deleteFirmware fw deleteRootFile).1.includedFiles ↔
        (parent, child) ∈ db.includedFiles
  roots : ∀ root ∈ (db.deleteFirmware fw deleteRootFile).1.fileObject,
    ∀ file ∈ (db.deleteFirmware fw deleteRootFile).1.fileObject,
      (root, file) ∈ (db.deleteFirmware fw deleteRootFile).1.fwFiles ↔ (root, file) ∈ db.fwFiles
  paths : ∀ parent ∈ (db.deleteFirmware fw deleteRootFile).1.fileObject,
    ∀ file ∈ (db.deleteFirmware fw deleteRootFile).1.fileObject, ∀ path,
      (parent, file, path) ∈ (db.deleteFirmware fw deleteRootFile).1.virtualFilePath ↔
        (parent, file, path) ∈ db.virtualFilePath
  sent : ∃ stillInDb toDelete,
    (db.deleteFirmware fw deleteRootFile).2 = some (stillInDb, toDelete) ∧
      ∀ u, u ∈ toDelete ↔ (u ∈ db.fileObject ∧
        u ∉ (db.deleteFirmware fw deleteRootFile).1.fileObject) ∧
          (deleteRootFile = false → u ≠ fw)

variable {db : Db} {fw u : Uid}

theorem owned_iff : db.Owned ↔ ∀ p ∈ db.fileObject.items,
    (p.2.isFirmware = true ↔ p.1 ∈ db.firmware) ∧
      (p.2.isFirmware = false → ∃ e ∈ db.fwFiles, e.2 = p.1) := by
  constructor
  · rintro h ⟨u, e⟩ hmem
    have he := Dict.get?_eq_some_iff.2 hmem
    refine ⟨h.flag u e he, ?_⟩
    intro hfile
    rcases h.rooted u e he hfile with ⟨r, hr⟩
    exact ⟨(r, u), hr, rfl⟩
  · intro h
    refine ⟨?_, ?_⟩
    · intro u e he
      exact (h (u, e) (Dict.get?_eq_some_iff.1 he)).1
    · intro u e he hfile
      rcases (h (u, e) (Dict.get?_eq_some_iff.1 he)).2 hfile with ⟨⟨r, v⟩, hr, rfl⟩
      exact ⟨r, hr⟩

instance : Decidable db.Owned := decidable_of_iff _ owned_iff.symm

/-! ## What is removed -/

theorem mem_includedFiles_deleteObject (h : fw ∈ db.fileObject) {parent child : Uid} :
    (parent, child) ∈ (db.deleteObject fw).includedFiles ↔
      (parent, child) ∈ db.includedFiles ∧ parent ∉ db.removedBy fw ∧ child ∉ db.removedBy fw := by
  unfold deleteObject removedBy
  rw [if_pos h]
  by_cases hfw : fw ∈ db.firmware
  · simp only [hfw, if_true, deleteFileObjects, Finset.mem_filter, Finset.mem_singleton,
      Finset.mem_insert, not_or]
    tauto
  · simp only [hfw, if_false, deleteFileObjects, Finset.mem_filter]

theorem mem_virtualFilePath_deleteObject (h : fw ∈ db.fileObject) {parent file : Uid}
    {path : VPath} : (parent, file, path) ∈ (db.deleteObject fw).virtualFilePath ↔
      (parent, file, path) ∈ db.virtualFilePath ∧ parent ∉ db.removedBy fw ∧
        file ∉ db.removedBy fw := by
  unfold deleteObject removedBy
  rw [if_pos h]
  by_cases hfw : fw ∈ db.firmware
  · simp only [hfw, if_true, deleteFileObjects, Finset.mem_filter, Finset.mem_singleton,
      Finset.mem_insert, not_or]
    tauto
  · simp only [hfw, if_false, deleteFileObjects, Finset.mem_filter]

theorem get?_firmware_deleteObject (h : fw ∈ db.fileObject) :
    (db.deleteObject fw).firmware.get? u =
      if u ∈ db.removedBy fw then none else db.firmware.get? u := by
  unfold deleteObject removedBy
  rw [if_pos h]
  by_cases hfw : fw ∈ db.firmware
  · simp only [hfw, if_true, deleteFileObjects, Dict.get?_eraseAll, Finset.mem_singleton,
      Finset.mem_insert]
    by_cases hu : u = fw <;> simp [hu]
  · simp only [hfw, if_false, deleteFileObjects, Dict.get?_eraseAll]

theorem mem_deleteObject (h : fw ∈ db.fileObject) :
    u ∈ (db.deleteObject fw).fileObject ↔ u ∈ db.fileObject ∧ u ∉ db.removedBy fw := by
  rw [Dict.mem_iff_isSome, deleteObject_eq h, Dict.mem_iff_isSome]
  by_cases hu : u ∈ db.removedBy fw <;> simp [hu]

/-- The orphans are the files whose only root was the firmware. -/
theorem mem_removedBy (howned : db.Owned) (hfw : fw ∈ db.firmware) :
    u ∈ db.removedBy fw ↔ u = fw ∨ (u ∈ db.fileObject ∧ u ∉ db.firmware ∧ (fw, u) ∈ db.fwFiles ∧
      ∀ r, (r, u) ∈ db.fwFiles → r = fw) := by
  unfold removedBy
  rw [if_pos hfw, Finset.mem_insert, mem_orphans]
  by_cases hu : u = fw
  · simp [hu]
  simp only [hu, false_or, get?_deleteFileObjects, Finset.mem_singleton, if_false]
  constructor
  · rintro ⟨⟨e, he, hflag⟩, hroots⟩
    have honly : ∀ r, (r, u) ∈ db.fwFiles → r = fw := by
      intro r hr
      by_contra hne
      exact hroots r (mem_fwFiles_deleteFileObjects.2 ⟨hr, by simpa using hne, by simpa using hu⟩)
    rcases howned.rooted u e he hflag with ⟨r, hr⟩
    have hself : (fw, u) ∈ db.fwFiles := honly r hr ▸ hr
    refine ⟨Dict.mem_of_get? he, ?_, hself, honly⟩
    intro hmem
    rw [(howned.flag u e he).2 hmem] at hflag
    cases hflag
  · rintro ⟨hrow, hfile, -, honly⟩
    rcases Dict.mem_iff.1 hrow with ⟨e, he⟩
    refine ⟨⟨e, he, ?_⟩, ?_⟩
    · cases hflag : e.isFirmware with
      | false => rfl
      | true => exact absurd ((howned.flag u e he).1 hflag) hfile
    · intro r hr
      rcases mem_fwFiles_deleteFileObjects.1 hr with ⟨hold, hne, -⟩
      exact hne (Finset.mem_singleton.2 (honly r hold))

/-- For a firmware that is no file of another one, what is removed is what
belongs to it alone. -/
theorem removed_iff_belongs (howned : db.Owned) (hfw : fw ∈ db.firmware)
    (hown : ∀ r, (r, fw) ∈ db.fwFiles → r = fw) :
    u ∈ db.removedBy fw ↔ db.BelongsOnlyTo fw u := by
  rw [mem_removedBy howned hfw]
  unfold BelongsOnlyTo
  constructor
  · rintro (rfl | ⟨hrow, hfile, hroot, honly⟩)
    · exact ⟨Or.inl rfl, hown⟩
    · exact ⟨Or.inr ⟨hrow, hfile, hroot⟩, honly⟩
  · rintro ⟨rfl | ⟨hrow, hfile, hroot⟩, honly⟩
    · exact Or.inl rfl
    · exact Or.inr ⟨hrow, hfile, hroot, honly⟩

/-- `delete_firmware` of an uploaded firmware. -/
theorem deleteFirmware_eq (howned : db.Owned) (hfw : fw ∈ db.firmware) (flag : Bool) :
    db.deleteFirmware fw flag = (db.deleteObject fw,
      some ((db.deleteObject fw).findFilesStillInDb (db.getAllFilesInFw fw),
        if flag then insert fw (db.getAllFilesInFw fw \
          (db.deleteObject fw).findFilesStillInDb (db.getAllFilesInFw fw))
        else (db.getAllFilesInFw fw \
          (db.deleteObject fw).findFilesStillInDb (db.getAllFilesInFw fw)).erase fw)) := by
  rcases Dict.mem_iff.1 (db.firmware_fk fw hfw) with ⟨e, he⟩
  unfold deleteFirmware
  simp [he, (howned.flag fw e he).2 hfw]

theorem mem_getAllFilesInFw : u ∈ db.getAllFilesInFw fw ↔ (fw, u) ∈ db.fwFiles := by
  simp only [getAllFilesInFw, Finset.mem_image, Finset.mem_filter, Prod.exists]
  constructor
  · rintro ⟨r, v, ⟨hmem, rfl⟩, rfl⟩
    exact hmem
  · intro hmem
    exact ⟨fw, u, ⟨hmem, rfl⟩, rfl⟩

/-! ## The list for the file system -/

/-- The files of the firmware that are gone, besides the firmware itself. -/
theorem mem_filesGone (howned : db.Owned) (hfw : fw ∈ db.firmware) (hne : u ≠ fw) :
    u ∈ db.getAllFilesInFw fw \ (db.deleteObject fw).findFilesStillInDb (db.getAllFilesInFw fw) ↔
      u ∈ db.fileObject ∧ u ∉ (db.deleteObject fw).fileObject := by
  have hrow := db.firmware_fk fw hfw
  rw [Finset.mem_sdiff, findFilesStillInDb, Finset.mem_filter, mem_getAllFilesInFw,
    mem_deleteObject hrow]
  constructor
  · rintro ⟨hfile, hgone⟩
    exact ⟨(db.fwFiles_fk _ hfile).2, fun hstay => hgone ⟨hfile, hstay⟩⟩
  · rintro ⟨hu, hgone⟩
    have hremoved : u ∈ db.removedBy fw := not_not.1 fun hstay => hgone ⟨hu, hstay⟩
    rcases (mem_removedBy howned hfw).1 hremoved with heq | ⟨-, -, hfile, -⟩
    · exact absurd heq hne
    · exact ⟨hfile, fun hstay => hgone hstay.2⟩

/-- What is sent to the file system are the rows that are gone. -/
theorem sent_eq_gone (howned : db.Owned) (hfw : fw ∈ db.firmware) (flag : Bool) :
    ∃ stillInDb toDelete, (db.deleteFirmware fw flag).2 = some (stillInDb, toDelete) ∧
      ∀ u, u ∈ toDelete ↔ (u ∈ db.fileObject ∧ u ∉ (db.deleteFirmware fw flag).1.fileObject) ∧
        (flag = false → u ≠ fw) := by
  have hrow := db.firmware_fk fw hfw
  have hself : fw ∉ (db.deleteObject fw).fileObject := by
    rw [mem_deleteObject hrow]
    exact fun hstay => hstay.2 ((mem_removedBy howned hfw).2 (Or.inl rfl))
  rw [deleteFirmware_eq howned hfw flag]
  refine ⟨_, _, rfl, ?_⟩
  intro u
  by_cases hu : u = fw
  · subst hu
    cases flag with
    | false => simp
    | true => simp [hrow, hself]
  · have hgone := mem_filesGone howned hfw hu
    cases flag with
    | false =>
        simp only [Bool.false_eq_true, if_false, Finset.mem_erase]
        rw [hgone]
        tauto
    | true =>
        simp only [if_true, Finset.mem_insert]
        rw [hgone]
        simp [hu]

/-! ## The deletion -/

/-- The deletion takes exactly what belongs to the firmware alone if and only if
the firmware is not a file of another one. -/
theorem deletesExactly_iff (howned : db.Owned) (hfw : fw ∈ db.firmware) (deleteRootFile : Bool) :
    db.DeletesExactly fw deleteRootFile ↔ ∀ r, (r, fw) ∈ db.fwFiles → r = fw := by
  have hrow := db.firmware_fk fw hfw
  have heq : (db.deleteFirmware fw deleteRootFile).1 = db.deleteObject fw := by
    rw [deleteFirmware_eq howned hfw]
  constructor
  · -- the row of the firmware is always removed
    intro h r hr
    have hgone : fw ∉ (db.deleteFirmware fw deleteRootFile).1.fileObject := by
      rw [heq, mem_deleteObject hrow]
      exact fun hstay => hstay.2 ((mem_removedBy howned hfw).2 (Or.inl rfl))
    exact ((h.removed fw hrow).1 hgone).2 r hr
  · intro hown
    refine ⟨?_, ?_, ?_, ?_, ?_, sent_eq_gone howned hfw deleteRootFile⟩
    · intro u hu
      rw [heq, mem_deleteObject hrow, ← removed_iff_belongs howned hfw hown]
      simp [hu]
    · intro u hu
      rw [heq, mem_deleteObject hrow] at hu
      rw [heq, deleteObject_eq hrow, get?_firmware_deleteObject hrow, if_neg hu.2, if_neg hu.2]
      exact ⟨rfl, rfl⟩
    · intro parent hparent child hchild
      rw [heq, mem_deleteObject hrow] at hparent hchild
      rw [heq, mem_includedFiles_deleteObject hrow]
      exact and_iff_left ⟨hparent.2, hchild.2⟩
    · intro root hroot file hfile
      rw [heq, mem_deleteObject hrow] at hroot hfile
      rw [heq, mem_fwFiles_deleteObject hrow]
      exact and_iff_left ⟨hroot.2, hfile.2⟩
    · intro parent hparent file hfile path
      rw [heq, mem_deleteObject hrow] at hparent hfile
      rw [heq, mem_virtualFilePath_deleteObject hrow]
      exact and_iff_left ⟨hparent.2, hfile.2⟩

end Db

namespace Uploads

open Tla

/-- Two uploads with a common file and one of their own. -/
def twoUploads : List Call :=
  [.addObject (image "A"), .addObject (image "B"), .addObject (fileOf "A" "x"),
    .addObject (fileOf "B" "x"), .addObject (fileOf "B" "y")]

theorem twoUploads_isSome : (machine.run FromUnpacking twoUploads Db.empty).isSome = true := by
  decide +kernel

/-- The theorem for the deletion of `B` after the run `twoUploads`. -/
theorem deletesExactly_iff_twoUploads :
    ((machine.run FromUnpacking twoUploads Db.empty).get twoUploads_isSome).DeletesExactly "B" true :=
  (Db.deletesExactly_iff (by decide +kernel) (by decide +kernel) true).2 (by
    have hnone : ∀ e ∈ ((machine.run FromUnpacking twoUploads Db.empty).get
        twoUploads_isSome).fwFiles, e.2 = "B" → e.1 = "B" := by decide +kernel
    intro r hr
    exact hnone (r, "B") hr rfl)

/-- The upload `A` is found in the upload `B` and then uploaded once more. -/
def uploadedAgain : List Call :=
  [.addObject (image "A"), .addObject (image "B"), .addObject (fileOf "B" "A"),
    .addObject (image "A")]

/-- A firmware that is also a file of another one is deleted altogether, with its
edge and its path in the other one. -/
theorem sharedFirmware_deleted : ∃ db, machine.Reach FromUnpacking db ∧ db.Owned ∧
    "A" ∈ db.firmware ∧ ¬ db.DeletesExactly "A" true ∧
      ("B", "A") ∈ db.fwFiles ∧ "A" ∉ (db.deleteFirmware "A" true).1.fileObject ∧
        ("B", "A", "/A") ∈ db.virtualFilePath ∧
          ("B", "A", "/A") ∉ (db.deleteFirmware "A" true).1.virtualFilePath := by
  have hinit : machine.Init Db.empty := rfl
  have hrun : ∃ db, machine.Reach FromUnpacking db ∧ db.Owned ∧ "A" ∈ db.firmware ∧
      "A" ∈ db.fileObject ∧ ("B", "A") ∈ db.fwFiles ∧
        "A" ∉ (db.deleteFirmware "A" true).1.fileObject ∧ ("B", "A", "/A") ∈ db.virtualFilePath ∧
          ("B", "A", "/A") ∉ (db.deleteFirmware "A" true).1.virtualFilePath :=
    Machine.exists_reach hinit uploadedAgain (by decide +kernel)
  rcases hrun with ⟨db, hreach, howned, hfirmware, hrow, hshared, hremoved, hpath, hpathRemoved⟩
  refine ⟨db, hreach, howned, hfirmware, fun h => ?_, hshared, hremoved, hpath, hpathRemoved⟩
  have hbelongs := (h.removed "A" hrow).1 hremoved
  exact absurd (hbelongs.2 "B" hshared) (by decide)

end Uploads

end FactCore
