import Mathlib.Data.Finset.Image
import Mathlib.Data.Finset.Union
import FactCore.Objects.FileObject

/-! # The database schema

`storage/schema.py`: the tables that hold the file objects, the firmware
metadata and the relations between files. The foreign keys of the schema are
fields of the structure `Db`, so a state of the database that violates one
cannot be written down: an operation either refuses a row whose foreign key
is not satisfied or, for deletions, removes the dependent rows with it
(`ondelete='CASCADE'`).

The tables of analysis results, comparisons, statistics and templates are not
modelled; nothing here reads them.
-/

namespace FactCore

/-- A row of the table `file_object`. -/
structure FileObjectEntry where
  sha256 : String
  fileName : String
  depth : Nat
  size : Nat
  comments : List Comment
  isFirmware : Bool
deriving DecidableEq, Repr

/-- A row of the table `firmware`. -/
structure FirmwareEntry where
  releaseDate : String
  version : String
  vendor : String
  deviceName : String
  deviceClass : String
  devicePart : String
  firmwareTags : List String
deriving DecidableEq, Repr

/-- The database. `includedFiles` holds pairs (parent, child), `fwFiles` pairs
(root, file) and `virtualFilePath` triples (parent, file, path). -/
structure Db where
  fileObject : Dict Uid FileObjectEntry
  firmware : Dict Uid FirmwareEntry
  includedFiles : Finset (Uid × Uid)
  fwFiles : Finset (Uid × Uid)
  virtualFilePath : Finset (Uid × Uid × VPath)
  firmware_fk : ∀ u, u ∈ firmware → u ∈ fileObject
  includedFiles_fk : ∀ e ∈ includedFiles, e.1 ∈ fileObject ∧ e.2 ∈ fileObject
  fwFiles_fk : ∀ e ∈ fwFiles, e.1 ∈ fileObject ∧ e.2 ∈ fileObject
  virtualFilePath_fk : ∀ e ∈ virtualFilePath, e.1 ∈ fileObject ∧ e.2.1 ∈ fileObject

namespace Db

/-- The empty database. -/
def empty : Db where
  fileObject := ∅
  firmware := ∅
  includedFiles := ∅
  fwFiles := ∅
  virtualFilePath := ∅
  firmware_fk := by intro u hu; simp [Dict.mem_iff] at hu
  includedFiles_fk := by simp
  fwFiles_fk := by simp
  virtualFilePath_fk := by simp

/-! ## Insertions -/

/-- Insert or overwrite a row of `file_object`. -/
def putFileObject (db : Db) (u : Uid) (e : FileObjectEntry) : Db :=
  { db with
    fileObject := db.fileObject.set u e
    firmware_fk := fun v hv => Dict.mem_set.2 (Or.inr (db.firmware_fk v hv))
    includedFiles_fk := fun p hp =>
      ⟨Dict.mem_set.2 (Or.inr (db.includedFiles_fk p hp).1),
        Dict.mem_set.2 (Or.inr (db.includedFiles_fk p hp).2)⟩
    fwFiles_fk := fun p hp =>
      ⟨Dict.mem_set.2 (Or.inr (db.fwFiles_fk p hp).1),
        Dict.mem_set.2 (Or.inr (db.fwFiles_fk p hp).2)⟩
    virtualFilePath_fk := fun p hp =>
      ⟨Dict.mem_set.2 (Or.inr (db.virtualFilePath_fk p hp).1),
        Dict.mem_set.2 (Or.inr (db.virtualFilePath_fk p hp).2)⟩ }

/-- Insert or overwrite a row of `firmware`; refused without a file object. -/
def putFirmware (db : Db) (u : Uid) (e : FirmwareEntry) : Db :=
  if h : u ∈ db.fileObject then
    { db with
      firmware := db.firmware.set u e
      firmware_fk := fun v hv => by
        rcases Dict.mem_set.1 hv with rfl | hv'
        · exact h
        · exact db.firmware_fk v hv' }
  else db

/-- Insert pairs into `fw_files`, leaving out those that violate a foreign key. -/
def addFwFiles (db : Db) (new : Finset (Uid × Uid)) : Db :=
  { db with
    fwFiles := db.fwFiles ∪ new.filter fun e => e.1 ∈ db.fileObject ∧ e.2 ∈ db.fileObject
    fwFiles_fk := fun e he => by
      rcases Finset.mem_union.1 he with he | he
      · exact db.fwFiles_fk e he
      · exact (Finset.mem_filter.1 he).2 }

/-- Insert pairs into `included_files`, leaving out those that violate a foreign key. -/
def addIncludedFiles (db : Db) (new : Finset (Uid × Uid)) : Db :=
  { db with
    includedFiles := db.includedFiles ∪ new.filter fun e => e.1 ∈ db.fileObject ∧ e.2 ∈ db.fileObject
    includedFiles_fk := fun e he => by
      rcases Finset.mem_union.1 he with he | he
      · exact db.includedFiles_fk e he
      · exact (Finset.mem_filter.1 he).2 }

/-- Merge rows into `virtual_file_path`: an integrity error (`none`) if one of
them violates a foreign key. -/
def mergeVirtualFilePaths (db : Db) (new : Finset (Uid × Uid × VPath)) : Option Db :=
  if h : ∀ e ∈ new, e.1 ∈ db.fileObject ∧ e.2.1 ∈ db.fileObject then
    some { db with
      virtualFilePath := db.virtualFilePath ∪ new
      virtualFilePath_fk := fun e he => by
        rcases Finset.mem_union.1 he with he | he
        · exact db.virtualFilePath_fk e he
        · exact h e he }
  else none

/-! ## Deletions -/

/-- Delete the rows of a set of file objects and, by the cascades of the
schema, every row that refers to one of them. -/
def deleteFileObjects (db : Db) (gone : Finset Uid) : Db where
  fileObject := db.fileObject.eraseAll gone
  firmware := db.firmware.eraseAll gone
  includedFiles := db.includedFiles.filter fun e => e.1 ∉ gone ∧ e.2 ∉ gone
  fwFiles := db.fwFiles.filter fun e => e.1 ∉ gone ∧ e.2 ∉ gone
  virtualFilePath := db.virtualFilePath.filter fun e => e.1 ∉ gone ∧ e.2.1 ∉ gone
  firmware_fk := fun u hu => by
    have hu' := Dict.mem_eraseAll.1 hu
    exact Dict.mem_eraseAll.2 ⟨db.firmware_fk u hu'.1, hu'.2⟩
  includedFiles_fk := fun e he => by
    have he' := Finset.mem_filter.1 he
    have hfk := db.includedFiles_fk e he'.1
    exact ⟨Dict.mem_eraseAll.2 ⟨hfk.1, he'.2.1⟩, Dict.mem_eraseAll.2 ⟨hfk.2, he'.2.2⟩⟩
  fwFiles_fk := fun e he => by
    have he' := Finset.mem_filter.1 he
    have hfk := db.fwFiles_fk e he'.1
    exact ⟨Dict.mem_eraseAll.2 ⟨hfk.1, he'.2.1⟩, Dict.mem_eraseAll.2 ⟨hfk.2, he'.2.2⟩⟩
  virtualFilePath_fk := fun e he => by
    have he' := Finset.mem_filter.1 he
    have hfk := db.virtualFilePath_fk e he'.1
    exact ⟨Dict.mem_eraseAll.2 ⟨hfk.1, he'.2.1⟩, Dict.mem_eraseAll.2 ⟨hfk.2, he'.2.2⟩⟩

/-- The files of `fw_files` that belong to no firmware and are not marked as
firmware: what `delete_file_orphans` selects. -/
def orphans (db : Db) : Finset Uid :=
  (db.fileObject.items.filterMap fun p =>
    if p.2.isFirmware = false ∧ ∀ e ∈ db.fwFiles, e.2 ≠ p.1 then some p.1 else none).toFinset

theorem mem_orphans {db : Db} {u : Uid} :
    u ∈ db.orphans ↔
      (∃ e, db.fileObject.get? u = some e ∧ e.isFirmware = false) ∧ ∀ r, (r, u) ∉ db.fwFiles := by
  simp only [orphans, List.mem_toFinset, List.mem_filterMap]
  constructor
  · rintro ⟨⟨v, e⟩, hmem, h⟩
    split at h
    · rename_i hcond
      obtain rfl : v = u := by simpa using h
      exact ⟨⟨e, Dict.get?_eq_some_iff.2 hmem, hcond.1⟩, fun r hr => hcond.2 (r, v) hr rfl⟩
    · cases h
  · rintro ⟨⟨e, he, hfw⟩, hroot⟩
    refine ⟨(u, e), Dict.get?_eq_some_iff.1 he, ?_⟩
    rw [if_pos]
    refine ⟨hfw, ?_⟩
    rintro ⟨r, v⟩ hp heq
    obtain rfl : v = u := heq
    exact hroot r hp

end Db

end FactCore
