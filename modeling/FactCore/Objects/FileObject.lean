import Mathlib.Data.Finset.Insert
import FactCore.Lib.Dict

/-! # File objects

`objects/file.py` and `objects/firmware.py`: the record that travels through
unpacking, analysis and the database. `Firmware` is a subclass of
`FileObject` that adds the metadata of an uploaded image, so it is modelled
by the field `firmware`, and `isinstance(fo, Firmware)` is `fo.isFirmware`.

The bytes of a file are represented by its `uid` (hash and size), which is
what every component modelled here identifies it by. Analysis results are not
part of the record; the components that produce and store them bring their
own.
-/

namespace FactCore

/-- The unique identifier of a file: its SHA256 hash and its size. -/
abbrev Uid := String

/-- The name of an analysis plugin. -/
abbrev Plugin := String

/-- A virtual path of a file inside the container it was extracted from. -/
abbrev VPath := String

/-- A user comment on a file, with the second in which it was written. -/
structure Comment where
  author : String
  comment : String
  time : String
  plugin : String
deriving DecidableEq, Repr

/-- The metadata that `Firmware` adds to a `FileObject`. -/
structure FirmwareData where
  deviceName : String
  version : String
  deviceClass : String
  vendor : String
  part : String
  releaseDate : String
  tags : List String
deriving DecidableEq, Repr

/-- `Firmware.get_hid`. -/
def FirmwareData.getHid (fw : FirmwareData) : String :=
  let part := if fw.part = "" then "" else " - " ++ fw.part
  fw.vendor ++ " " ++ fw.deviceName ++ part ++ " v. " ++ fw.version

/-- A `FileObject`; it is a `Firmware` if it carries firmware metadata. -/
structure FileObject where
  uid : Uid
  firmware : Option FirmwareData
  sha256 : String
  size : Nat
  fileName : String
  depth : Nat
  comments : List Comment
  /-- The direct predecessors from which this object was extracted. -/
  parents : List Uid
  /-- The firmware in whose context the object is processed; only set in the backend. -/
  rootUid : Option Uid
  /-- The firmware images that contain the file. -/
  parentFirmwareUids : Finset Uid
  /-- The files directly contained in this file. -/
  filesIncluded : Finset Uid
  /-- The paths of the file in each of its parents. -/
  virtualFilePath : Dict Uid (List VPath)
  scheduledAnalysis : List Plugin

namespace FileObject

/-- The constructor `FileObject(file_path=…)`: everything that is derived from
the file itself is set, the rest is empty. -/
def new (uid : Uid) (sha256 : String) (size : Nat) (fileName : String) : FileObject where
  uid := uid
  firmware := none
  sha256 := sha256
  size := size
  fileName := fileName
  depth := 0
  comments := []
  parents := []
  rootUid := none
  parentFirmwareUids := ∅
  filesIncluded := ∅
  virtualFilePath := ∅
  scheduledAnalysis := []

/-- An uploaded `Firmware`; its root is the firmware itself. -/
def newFirmware (uid : Uid) (sha256 : String) (size : Nat) (fileName : String)
    (fw : FirmwareData) : FileObject :=
  { new uid sha256 size fileName with firmware := some fw, rootUid := some uid }

/-- `isinstance(fo, Firmware)`. -/
def isFirmware (fo : FileObject) : Bool := fo.firmware.isSome

/-- The paths of the file in one parent. -/
def pathsIn (fo : FileObject) (parent : Uid) : List VPath :=
  (fo.virtualFilePath.get? parent).getD []

/-- `FileObject.add_included_file` as seen by the included file: it gets the
uid of the container as parent and inherits its root, its schedule and its
depth plus one. -/
def addIncludedFile (self item : FileObject) : FileObject :=
  { item with
    parents := item.parents ++ [self.uid]
    rootUid := self.rootUid
    depth := self.depth + 1
    scheduledAnalysis := self.scheduledAnalysis }

/-- `add_included_file` for all extracted files as seen by the container. -/
def includeFiles (self : FileObject) (items : List FileObject) : FileObject :=
  { self with filesIncluded := self.filesIncluded ∪ (items.map FileObject.uid).toFinset }

@[simp] theorem addIncludedFile_uid (self item : FileObject) :
    (addIncludedFile self item).uid = item.uid := rfl

@[simp] theorem addIncludedFile_rootUid (self item : FileObject) :
    (addIncludedFile self item).rootUid = self.rootUid := rfl

@[simp] theorem addIncludedFile_firmware (self item : FileObject) :
    (addIncludedFile self item).firmware = item.firmware := rfl

@[simp] theorem addIncludedFile_pathsIn (self item : FileObject) (parent : Uid) :
    (addIncludedFile self item).pathsIn parent = item.pathsIn parent := rfl

@[simp] theorem includeFiles_uid (self : FileObject) (items : List FileObject) :
    (self.includeFiles items).uid = self.uid := rfl

@[simp] theorem includeFiles_rootUid (self : FileObject) (items : List FileObject) :
    (self.includeFiles items).rootUid = self.rootUid := rfl

@[simp] theorem includeFiles_isFirmware (self : FileObject) (items : List FileObject) :
    (self.includeFiles items).isFirmware = self.isFirmware := rfl

@[simp] theorem includeFiles_pathsIn (self : FileObject) (items : List FileObject) (parent : Uid) :
    (self.includeFiles items).pathsIn parent = self.pathsIn parent := rfl

end FileObject

end FactCore
