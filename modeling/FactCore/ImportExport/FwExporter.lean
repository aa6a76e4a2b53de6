import Mathlib.Data.String.Basic
import FactCore.ImportExport.FwImporter
import FactCore.Storage.AnalysisTable
import FactCore.Storage.EntryConversion
import FactCore.Storage.ObjectsByUidList
import FactCore.Unpacker.GenerateObjects

/-! # Exporting a firmware

`firmware_import_export.py`: `FwExporter` writes the files of a firmware and what the
database knows about them into an archive, and `FwImporter` reads the archive in another
installation. In the archive, an object is what `to_json` makes of it; `from_json` takes
its parents from the paths that are left after `filter_vpf_dict`.

The rounds in which the importer inserts the objects do not read the database, so their
calls of `add_object` are made here after them.
-/

namespace FactCore.ImportExport

/-! ## Installations -/

/-- The dictionary that is stored for an analysis, and its row in the table `analysis`. -/
structure AnalysisEntry where
  analysisDate : Time
  pluginVersion : String
  systemVersion : Option String
  summary : Option (List PyValue)
  tags : Option (List (Text × PyValue))
  result : Option (List (Text × PyValue))

namespace AnalysisEntry

/-- `analysis_entry_to_dict`. -/
def toDict (entry : AnalysisEntry) : AnalysisEntry :=
  { entry with
    summary := some (entry.summary.getD [])
    tags := some (entry.tags.getD [])
    result := some (entry.result.getD []) }

/-- The row that `create_analysis_entries` makes of a dictionary. -/
def ofDict (data : AnalysisEntry) : AnalysisEntry :=
  { data with
    summary := some (EntryConversion.sanitizeList (data.summary.getD []))
    result := some (EntryConversion.sanitize (data.result.getD [])) }

/-- The columns hold what the database accepts. -/
structure Stored (entry : AnalysisEntry) : Prop where
  summary : ∀ elements, entry.summary = some elements →
    EntryConversion.WellFormedList elements ∧ EntryConversion.AcceptedList elements
  result : ∀ items, entry.result = some items →
    EntryConversion.WellFormed (.dict items) ∧ EntryConversion.AcceptedItems items

end AnalysisEntry

/-- A backend with its database, its storage directory and the revision of its schema. -/
structure Backend where
  db : Db
  analysis : Dict Uid (Dict Plugin AnalysisEntry)
  dataStoragePath : PosixPath
  storage : FileStorage
  revision : String

namespace Backend

variable (b : Backend)

/-- `FileObject.processed_analysis` of an object that is loaded. -/
def processedAnalysis (uid : Uid) : Dict Plugin AnalysisEntry :=
  ((b.analysis.get? uid).getD ∅).map fun _ => AnalysisEntry.toDict

/-- What is stored for a file, under the path of `generate_path_from_uid`. -/
def content (uid : Uid) : Option Bytes := b.storage (generatePathFromUid b.dataStoragePath uid)

end Backend

/-- The exceptions of an export or an import. -/
inductive Exc where
  | fileNotFound (uid : Uid)
  /-- `None` has no attribute `to_json`. -/
  | attributeError
  | missingPaths (e : Db.MissingPaths)
  | dbInterface (e : DbInterfaceError)
  | key (e : KeyError)
  /-- The release date of what is no firmware is `None`. -/
  | typeError
deriving DecidableEq

/-! ## Objects as JSON -/

/-- What `to_json` writes; `firmware` are the fields that `Firmware.to_json` adds. -/
structure FileJson where
  comments : List Comment
  depth : ℕ
  fileName : String
  filesIncluded : List Uid
  processedAnalysis : Dict Plugin AnalysisEntry
  sha256 : String
  size : ℕ
  uid : Uid
  virtualFilePath : Dict Uid (List VPath)
  firmware : Option FirmwareData

/-- `filter_vpf_dict`. -/
def filterVpfDict (vfpDict : Dict Uid (List VPath)) (parentUids : Finset Uid) :
    Dict Uid (List VPath) where
  items := vfpDict.items.filter fun e => e.1 ∈ parentUids
  nodup := vfpDict.nodup.sublist (List.filter_sublist.map Prod.fst)

/-- `to_json`. -/
def toJson (order : IterOrder Uid) (fo : FileObject) (processedAnalysis : Dict Plugin AnalysisEntry)
    (vfpParentFilter : Option (Finset Uid)) : FileJson where
  comments := fo.comments
  depth := fo.depth
  fileName := fo.fileName
  filesIncluded := order.list fo.filesIncluded
  processedAnalysis := processedAnalysis
  sha256 := fo.sha256
  size := fo.size
  uid := fo.uid
  virtualFilePath := match vfpParentFilter with
    | some parentUids => filterVpfDict fo.virtualFilePath parentUids
    | none => fo.virtualFilePath
  firmware := fo.firmware

/-- `uid.split('_')[0]`. -/
def hashOfUid (uid : Uid) : String := String.ofList (uid.toList.takeWhile (· ≠ '_'))

/-- `FileObject.from_json`. A hash that is missing is the empty text here. -/
def fromJson (json : FileJson) (rootUid : Option Uid) : FileObject :=
  { FileObject.new json.uid (if json.sha256 = "" then hashOfUid json.uid else json.sha256) json.size
      json.fileName with
    comments := json.comments
    depth := json.depth
    filesIncluded := json.filesIncluded.toFinset
    virtualFilePath := json.virtualFilePath
    parentFirmwareUids := (rootUid.filter fun uid => uid ≠ "").toFinset
    parents := json.virtualFilePath.keys }

/-- `Firmware.from_json`, with the metadata that is found. -/
def firmwareFromJson (json : FileJson) (fw : FirmwareData) : FileObject :=
  { fromJson json none with firmware := some fw }

/-! ## Export -/

/-- `data.json`. -/
structure ExportData where
  dbRevision : String
  files : List FileJson
  firmware : FileJson
  uid : Uid

/-- What `data.json` is read as. -/
inductive DataJson where
  | invalid
  /-- A mandatory key is missing. -/
  | incomplete
  | complete (data : ExportData)

/-- An archive; the names of the files do not matter. -/
structure ZipFile where
  files : List Bytes
  dataJson : Option DataJson

/-- The orders in which the export goes through rows and sets. -/
structure Orders where
  rows : Db.RowOrder
  uids : IterOrder Uid

section

variable (orders : Orders) (b : Backend)

/-- `get_object`. -/
def getObject (uid : Uid) : Option FileObject :=
  if b.db.isFirmware uid then (b.db.firmwareFromEntries orders.rows {uid}).head?
  else (b.db.fileObject.get? uid).map fun entry =>
    Db.populateFoData uid entry none (b.db.childrenOf uid) (orders.uids.list (b.db.parentsOf uid))
      (((b.db.getVfpsForUidList orders.rows {uid}).get? uid).getD ∅) (b.db.getParentFw uid)

/-- `_fetch_db_data`. -/
def fetchDbData (uid : Uid) (allFiles : Finset Uid) : Except Exc ExportData :=
  match getObject orders b uid with
  | none => .error .attributeError
  | some firmware =>
      match b.db.getObjectsByUidList orders.rows allFiles with
      | .error e => .error (.missingPaths e)
      | .ok files => .ok
          { dbRevision := b.revision
            files := files.map fun fo =>
              toJson orders.uids fo (b.processedAnalysis fo.uid) (some (insert uid allFiles))
            firmware := toJson orders.uids firmware (b.processedAnalysis firmware.uid) none
            uid }

/-- `Path(file_path).read_bytes()`. -/
def readBytes (uid : Uid) : Except Exc Bytes :=
  match b.content uid with
  | some content => .ok content
  | none => .error (.fileNotFound uid)

/-- `_export_single_file`. -/
def exportSingleFile (fwUid : Uid) : Except Exc ZipFile := do
  let includedFiles := b.db.getAllFilesInFw fwUid
  let files ← (orders.uids.list (insert fwUid includedFiles)).mapM (readBytes b)
  let data ← fetchDbData orders b fwUid includedFiles
  return { files, dataJson := some (.complete data) }

end

/-! ## Import -/

/-- `add_object`: only a new object brings its analyses with it. -/
def addObject (b : Backend) (fo : FileObject) (processedAnalysis : Dict Plugin AnalysisEntry) :
    Backend × Option Exc :=
  match b.db.addObject fo with
  | (db, some e) => ({ b with db }, some (.dbInterface e))
  | (db, none) =>
      if b.db.exist fo.uid then ({ b with db }, none)
      else
        let entries := processedAnalysis.map fun _ => AnalysisEntry.ofDict
        ({ b with db, analysis := b.analysis.set fo.uid entries }, none)

/-- `add_object` for each object of a list, up to the first exception. -/
def addObjects (analyses : Uid → Dict Plugin AnalysisEntry) : Backend → List FileObject →
    Backend × Option Exc
  | b, [] => (b, none)
  | b, fo :: rest =>
      match addObject b fo (analyses fo.uid) with
      | (b, some e) => (b, some e)
      | (b, none) => addObjects analyses b rest

/-- The analyses of the object that the comprehension of `_import_objects` keeps. -/
def analysesOf (files : List FileJson) (uid : Uid) : Dict Plugin AnalysisEntry :=
  ((files.filter fun json => json.uid = uid).getLast?.map FileJson.processedAnalysis).getD ∅

/-- `_import_objects`, with a bound on the number of rounds. -/
def importObjects (order : IterOrder Uid) (b : Backend) (data : ExportData) (rounds : ℕ) :
    Option (Backend × Option Exc) :=
  match data.firmware.firmware with
  | none => some (b, some (if b.db.exist data.firmware.uid then
      .dbInterface (.uploadedAsFile (b.db.getParentFw data.firmware.uid)) else .typeError))
  | some fw =>
      let firmware := firmwareFromJson data.firmware fw
      let fileObjects :=
        FoDict.ofList (data.files.map fun json => fromJson json (some firmware.uid))
      match addObject b firmware data.firmware.processedAnalysis with
      | (b, some e) => some (b, some e)
      | (b, none) =>
          (FwImporter.insertObjectsHierarchically order fileObjects firmware.uid rounds).map fun
            | .error e => (b, some (.key e))
            | .ok (calls, _) => addObjects (analysesOf data.files) b calls

section

variable (lib : FileLibrary)

/-- `FSOrganizer.store_file(FileObject(binary))`. -/
def storeFile (b : Backend) (binary : Bytes) : Backend :=
  { b with
    storage := lib.writeBinaryToFile binary
      (generatePathFromUid b.dataStoragePath (createUid lib.sha256 binary)) b.storage }

/-- `_import_file`: whether the archive was imported, or an exception. There is no archive
if the file is not in the ZIP format. -/
def importFile (order : IterOrder Uid) (force : Bool) (b : Backend) (zipFile : Option ZipFile)
    (rounds : ℕ) : Option (Backend × Except Exc Bool) :=
  match zipFile with
  | none => some (b, .ok false)
  | some zipFile =>
      match zipFile.dataJson with
      | none | some .invalid | some .incomplete => some (b, .ok false)
      | some (.complete data) =>
          if b.db.isFirmware data.uid then some (b, .ok false)
          else if force = false ∧ data.dbRevision ≠ b.revision then some (b, .ok false)
          else (importObjects order b data rounds).map fun
            | (b, some e) => (b, .error e)
            | (b, none) => (zipFile.files.foldl (storeFile lib) b, .ok true)

end

end FactCore.ImportExport
