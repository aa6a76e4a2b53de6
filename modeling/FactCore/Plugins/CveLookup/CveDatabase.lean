import FactCore.Lib.Dict
import FactCore.Lib.Relation

/-! # From the CVE feed to the database

The plugin `cve_lookup` reads the CVE feed (`internal/data_parsing.py`), stores
it in a database of its own (`internal/database/db_setup.py` with the tables of
`schema.py`), and reads it from there (`db_interface.py`). Scores are left out.

Where the code raises an exception there is no result.
-/

namespace FactCore

namespace CveLookup

/-! ## The feed -/

/-- An entry of `cpeMatch`. A missing bound is an empty text. -/
structure CpeMatch where
  criteria : Option String
  vulnerable : Bool
  versionStartIncluding : Option String
  versionStartExcluding : Option String
  versionEndIncluding : Option String
  versionEndExcluding : Option String
deriving DecidableEq

structure Node where
  cpeMatch : Option (List CpeMatch)

structure Configuration where
  nodes : Option (List Node)

/-- An entry of `descriptions`. -/
structure Description where
  lang : String
  value : String

/-- An item of `cve_items`. -/
structure CveItem where
  id : String
  descriptions : List Description
  configurations : Option (List Configuration)

/-- The tuples that `extract_cpe_data` returns. -/
structure CpeEntry where
  criteria : String
  versionStartIncluding : String
  versionStartExcluding : String
  versionEndIncluding : String
  versionEndExcluding : String
deriving DecidableEq

structure CveEntry where
  cveId : String
  summary : String
  cpeEntries : List CpeEntry
deriving DecidableEq

/-- The entry of a match with its criteria. -/
def CpeMatch.entry (m : CpeMatch) (criteria : String) : CpeEntry where
  criteria := criteria
  versionStartIncluding := m.versionStartIncluding.getD ""
  versionStartExcluding := m.versionStartExcluding.getD ""
  versionEndIncluding := m.versionEndIncluding.getD ""
  versionEndExcluding := m.versionEndExcluding.getD ""

/-- `unique_criteria` and `cpe_entries`. -/
structure Extracted where
  uniqueCriteria : Dict String Bool
  cpeEntries : List CpeEntry

/-- One round of the inner loop of `extract_cpe_data`. -/
def extractStep (s : Extracted) (cpe : CpeMatch) : Extracted :=
  match cpe.criteria with
  | none => s
  | some criteria =>
      if cpe.vulnerable ∧ criteria ∉ s.uniqueCriteria then
        ⟨s.uniqueCriteria.set criteria true, s.cpeEntries ++ [cpe.entry criteria]⟩
      else s

/-- `extract_cpe_data` -/
def extractCpeData (configurations : List Configuration) : List CpeEntry :=
  (configurations.foldl (fun s (configuration : Configuration) =>
    (configuration.nodes.getD []).foldl (fun s (node : Node) =>
      (node.cpeMatch.getD []).foldl extractStep s) s) (⟨∅, []⟩ : Extracted)).cpeEntries

/-- `extract_english_summary`: the first English description that is no rejection. -/
def extractEnglishSummary (descriptions : List Description) : String :=
  ((descriptions.find? fun description =>
    description.lang == "en" && !("** REJECT **".toList.isPrefixOf description.value.toList)).map
      Description.value).getD ""

/-- `extract_data_from_cve` -/
def extractDataFromCve (item : CveItem) : CveEntry where
  cveId := item.id
  summary := extractEnglishSummary item.descriptions
  cpeEntries := extractCpeData (item.configurations.getD [])

/-! ## The tables -/

structure Cve where
  cveId : String
  year : String
  summary : String
deriving DecidableEq

structure Cpe where
  cpeId : String
  vendor : String
  product : String
  version : String
  update : String
deriving DecidableEq

structure Association where
  cveId : String
  cpeId : String
  versionStartIncluding : String
  versionStartExcluding : String
  versionEndIncluding : String
  versionEndExcluding : String
deriving DecidableEq

/-- The database, each table under its primary key. -/
structure CveDb where
  cves : Dict String Cve
  cpes : Dict String Cpe
  associations : Dict (String × String) Association

/-- `CveDb` without rows. -/
def CveDb.empty : CveDb := ⟨∅, ∅, ∅⟩

/-- A row that is to be stored. -/
inductive DbObject where
  | cve (row : Cve)
  | cpe (row : Cpe)
  | association (row : Association)
deriving DecidableEq

/-- A row is added; a primary key that exists is an error. -/
def CveDb.insert (db : CveDb) : DbObject → Option CveDb
  | .cve row => if row.cveId ∈ db.cves then none else some { db with cves := db.cves.set row.cveId row }
  | .cpe row => if row.cpeId ∈ db.cpes then none else some { db with cpes := db.cpes.set row.cpeId row }
  | .association row =>
      if (row.cveId, row.cpeId) ∈ db.associations then none
      else some { db with associations := db.associations.set (row.cveId, row.cpeId) row }

/-- `_save_objects` -/
def saveObjects (db : CveDb) (objects : List DbObject) : Option CveDb :=
  objects.foldlM CveDb.insert db

/-! ## `DbSetup` -/

/-- `replace_wildcards` for one attribute. -/
def replaceWildcard (text : String) : String :=
  if text = "*" then "ANY" else if text = "-" then "N/A" else text

/-- Whether `CPE_SPLIT_REGEX`, `(?<![\\:]):(?!:)|(?<=\\:):`, matches at a colon:
the two characters before it and the one after it decide. -/
def splitsAt (before2 before1 next : Option Char) : Bool :=
  (before1 != some '\\' && before1 != some ':' && next != some ':') ||
    (before2 == some '\\' && before1 == some ':')

/-- `CPE_SPLIT_REGEX.split`, with the two characters before the text and the
part that has been read so far. -/
def splitCpeFrom (before2 before1 : Option Char) (part : List Char) : List Char → List (List Char)
  | [] => [part]
  | c :: rest =>
      if c = ':' ∧ splitsAt before2 before1 rest.head? then
        part :: splitCpeFrom before1 (some c) [] rest
      else splitCpeFrom before1 (some c) (part ++ [c]) rest

/-- `create_cve`; a CVE id without a hyphen has no year. -/
def createCve (item : CveEntry) : Option Cve :=
  (item.cveId.toList.splitOn '-')[1]?.map fun year =>
    ⟨item.cveId, String.ofList year, item.summary⟩

/-- `create_cpe` -/
def createCpe (cpeId : String) : Option Cpe :=
  match ((splitCpeFrom none none [] cpeId.toList).drop 3).map fun part =>
      replaceWildcard (String.ofList part) with
  | vendor :: product :: version :: update :: _ => some ⟨cpeId, vendor, product, version, update⟩
  | _ => none

/-- `create_association` -/
def createAssociation (cveId : String) (entry : CpeEntry) : Association where
  cveId := cveId
  cpeId := entry.criteria
  versionStartIncluding := entry.versionStartIncluding
  versionStartExcluding := entry.versionStartExcluding
  versionEndIncluding := entry.versionEndIncluding
  versionEndExcluding := entry.versionEndExcluding

/-- The rows of one entry of `_create_db_objects_for_cve`; a CPE is created once. -/
def createEntryObjects (cveId : String) (s : List DbObject × List String) (entry : CpeEntry) :
    Option (List DbObject × List String) :=
  if entry.criteria ∈ s.2 then some (s.1 ++ [.association (createAssociation cveId entry)], s.2)
  else
    (createCpe entry.criteria).map fun cpe =>
      (s.1 ++ [.cpe cpe, .association (createAssociation cveId entry)], s.2 ++ [entry.criteria])

/-- `_create_db_objects_for_cve`: the rows, and the CPE ids that exist afterwards. -/
def createDbObjectsForCve (existingCpeIds : List String) (item : CveEntry) :
    Option (List DbObject × List String) :=
  (createCve item).bind fun cve =>
    item.cpeEntries.foldlM (createEntryObjects item.cveId) ([.cve cve], existingCpeIds)

/-- The state of `add_cve_items`. -/
structure AddState where
  db : CveDb
  dbObjects : List DbObject
  existingCveIds : List String
  existingCpeIds : List String

/-- One round of `add_cve_items`. -/
def addCveItem (chunkSize : Nat) (s : AddState) (item : CveEntry) : Option AddState :=
  if item.cveId ∈ s.existingCveIds then some s
  else
    (createDbObjectsForCve s.existingCpeIds item).bind fun created =>
      let dbObjects := s.dbObjects ++ created.1
      if chunkSize ≤ dbObjects.length then
        (saveObjects s.db dbObjects).map fun db =>
          ⟨db, [], s.existingCveIds ++ [item.cveId], created.2⟩
      else some ⟨s.db, dbObjects, s.existingCveIds ++ [item.cveId], created.2⟩

/-- `add_cve_items` for a new database. -/
def addCveItems (chunkSize : Nat) (items : List CveEntry) : Option CveDb :=
  (items.foldlM (addCveItem chunkSize) ⟨CveDb.empty, [], [], []⟩).bind fun s =>
    if s.dbObjects = [] then some s.db else saveObjects s.db s.dbObjects

/-! ## `DbInterface` -/

/-- `match_cpes` -/
def matchCpes (db : CveDb) (products : List String) : Dict String Cpe :=
  (db.cpes.values.filter fun cpe => cpe.product ∈ products).foldl
    (fun d cpe => d.set cpe.cpeId cpe) ∅

/-- `get_cves` -/
def getCves (db : CveDb) (cveIds : List String) : Dict String Cve :=
  (db.cves.values.filter fun cve => cve.cveId ∈ cveIds).foldl (fun d cve => d.set cve.cveId cve) ∅

/-- `get_associations` -/
def getAssociations (db : CveDb) (cpeIds : List String) : Dict String (List Association) :=
  (db.associations.values.filter fun a => a.cpeId ∈ cpeIds).foldl
    (fun d a => d.extend a.cpeId [a]) ∅

/-! ## What is extracted -/

/-- All entries of `cpeMatch` in an item. -/
def CveItem.cpeMatches (item : CveItem) : List CpeMatch :=
  (item.configurations.getD []).flatMap fun configuration =>
    (configuration.nodes.getD []).flatMap fun node => node.cpeMatch.getD []

/-- The vulnerable entries of an item that have a criteria. -/
def CveItem.vulnerableEntries (item : CveItem) : List CpeEntry :=
  item.cpeMatches.filterMap fun m => if m.vulnerable then m.criteria.map m.entry else none

theorem mem_vulnerableEntries {item : CveItem} {entry : CpeEntry} :
    entry ∈ item.vulnerableEntries ↔ ∃ m ∈ item.cpeMatches, m.vulnerable = true ∧
      m.criteria = some entry.criteria ∧ m.entry entry.criteria = entry := by
  simp only [CveItem.vulnerableEntries, List.mem_filterMap]
  constructor
  · rintro ⟨m, hm, heq⟩
    split at heq
    · rename_i hvulnerable
      obtain ⟨criteria, hcriteria, rfl⟩ := Option.map_eq_some_iff.1 heq
      exact ⟨m, hm, hvulnerable, hcriteria, rfl⟩
    · cases heq
  · rintro ⟨m, hm, hvulnerable, hcriteria, heq⟩
    exact ⟨m, hm, by rw [if_pos hvulnerable, hcriteria, Option.map_some, heq]⟩

theorem foldl_extractStep (l : List CpeMatch) (s : Extracted)
    (hs : ∀ c, c ∈ s.uniqueCriteria ↔ c ∈ s.cpeEntries.map CpeEntry.criteria) :
    (l.foldl extractStep s).cpeEntries =
      (l.filterMap fun m => if m.vulnerable then m.criteria.map m.entry else none).foldl
        (Relation.addNew CpeEntry.criteria) s.cpeEntries := by
  induction l generalizing s with
  | nil => rfl
  | cons m l ih =>
      rw [List.foldl_cons]
      cases hcriteria : m.criteria with
      | none =>
          have hstep : extractStep s m = s := by simp only [extractStep, hcriteria]
          have hskip : (if m.vulnerable then m.criteria.map m.entry else none) = none := by
            simp [hcriteria]
          rw [hstep, ih s hs, List.filterMap_cons_none (by exact hskip)]
      | some criteria =>
          cases hvulnerable : m.vulnerable with
          | false =>
              have hstep : extractStep s m = s := by simp [extractStep, hcriteria, hvulnerable]
              have hskip : (if m.vulnerable then m.criteria.map m.entry else none) = none := by
                simp [hvulnerable]
              rw [hstep, ih s hs, List.filterMap_cons_none (by exact hskip)]
          | true =>
              have hkeep : (if m.vulnerable then m.criteria.map m.entry else none) =
                  some (m.entry criteria) := by
                simp [hvulnerable, hcriteria]
              rw [List.filterMap_cons_some (by exact hkeep), List.foldl_cons]
              by_cases hold : criteria ∈ s.uniqueCriteria
              · have hstep : extractStep s m = s := by simp [extractStep, hcriteria, hold]
                have htaken : (m.entry criteria).criteria ∈ s.cpeEntries.map CpeEntry.criteria :=
                  (hs criteria).1 hold
                rw [hstep, ih s hs, Relation.addNew, if_pos htaken]
              · have hstep : extractStep s m =
                    ⟨s.uniqueCriteria.set criteria true, s.cpeEntries ++ [m.entry criteria]⟩ := by
                  simp [extractStep, hcriteria, hvulnerable, hold]
                have hnew : (m.entry criteria).criteria ∉ s.cpeEntries.map CpeEntry.criteria :=
                  fun htaken => hold ((hs criteria).2 htaken)
                rw [hstep, ih, Relation.addNew, if_neg hnew]
                intro c
                rw [Dict.mem_set, hs c, List.map_append, List.mem_append, List.map_singleton,
                  List.mem_singleton, or_comm]
                rfl

/-- Of the vulnerable entries, the first of each criteria is extracted. -/
theorem extractDataFromCve_cpeEntries (item : CveItem) : (extractDataFromCve item).cpeEntries =
    Relation.firstRows CpeEntry.criteria item.vulnerableEntries := by
  have hflat : extractCpeData (item.configurations.getD []) =
      (item.cpeMatches.foldl extractStep ⟨∅, []⟩).cpeEntries := by
    simp only [extractCpeData, CveItem.cpeMatches, List.foldl_flatMap]
  rw [extractDataFromCve, hflat, foldl_extractStep]
  · rfl
  · intro c
    refine iff_of_false ?_ (by simp)
    exact Dict.notMem_empty c

/-! ## What is stored -/

/-- The associations among the rows. -/
def associationsOf (objects : List DbObject) : List Association :=
  objects.filterMap fun object => match object with
    | .association row => some row
    | _ => none

theorem associationsOf_append (objects objects' : List DbObject) :
    associationsOf (objects ++ objects') = associationsOf objects ++ associationsOf objects' :=
  List.filterMap_append

theorem saveObjects_append (db : CveDb) (objects objects' : List DbObject) :
    saveObjects db (objects ++ objects') = (saveObjects db objects).bind (saveObjects · objects') := by
  unfold saveObjects
  rw [List.foldlM_append]
  rfl

/-- Inserting a row changes the table of associations under the key of the row. -/
theorem get?_insert {db db' : CveDb} {object : DbObject} (h : db.insert object = some db')
    (key : String × String) (row : Association) : db'.associations.get? key = some row ↔
      db.associations.get? key = some row ∨
        (row ∈ associationsOf [object] ∧ (row.cveId, row.cpeId) = key) := by
  cases object with
  | cve r =>
      simp only [CveDb.insert] at h
      split at h
      · cases h
      · obtain rfl := Option.some.inj h
        simp [associationsOf]
  | cpe r =>
      simp only [CveDb.insert] at h
      split at h
      · cases h
      · obtain rfl := Option.some.inj h
        simp [associationsOf]
  | association r =>
      simp only [CveDb.insert] at h
      split at h
      · cases h
      · rename_i hnew
        obtain rfl := Option.some.inj h
        have hsingle : associationsOf [DbObject.association r] = [r] := rfl
        show (db.associations.set (r.cveId, r.cpeId) r).get? key = some row ↔ _
        rw [Dict.get?_set, hsingle, List.mem_singleton]
        by_cases hkey : key = (r.cveId, r.cpeId)
        · have hnone : db.associations.get? key = none := by
            rw [hkey]
            exact Dict.notMem_iff.1 hnew
          rw [if_pos hkey, hnone]
          constructor
          · intro heq
            obtain rfl := Option.some.inj heq
            exact .inr ⟨rfl, hkey.symm⟩
          · rintro (hold | ⟨rfl, -⟩)
            · cases hold
            · rfl
        · rw [if_neg hkey]
          constructor
          · exact .inl
          · rintro (hold | ⟨rfl, heq⟩)
            · exact hold
            · exact absurd heq.symm hkey

/-- The rows of the table of associations are those that were saved, each under
its key. -/
theorem get?_saveObjects {db db' : CveDb} {objects : List DbObject}
    (h : saveObjects db objects = some db') (key : String × String) (row : Association) :
    db'.associations.get? key = some row ↔
      db.associations.get? key = some row ∨ (row ∈ associationsOf objects ∧ (row.cveId, row.cpeId) = key) := by
  induction objects generalizing db with
  | nil =>
      obtain rfl : db = db' := Option.some.inj h
      simp [associationsOf]
  | cons object objects ih =>
      rw [saveObjects, List.foldlM_cons] at h
      obtain ⟨db₁, hinsert, hrest⟩ := Option.bind_eq_some_iff.1 h
      have hcons : associationsOf (object :: objects) =
          associationsOf [object] ++ associationsOf objects := associationsOf_append [object] objects
      rw [ih hrest, get?_insert hinsert, hcons, List.mem_append]
      tauto

/-- The rows of an item contain one association for each of its entries. -/
theorem associationsOf_createDbObjects {ids ids' : List String} {item : CveEntry}
    {objects : List DbObject} (h : createDbObjectsForCve ids item = some (objects, ids')) :
    associationsOf objects = item.cpeEntries.map (createAssociation item.cveId) := by
  obtain ⟨cve, -, hfold⟩ := Option.bind_eq_some_iff.1 h
  have hgen : ∀ (entries : List CpeEntry) (s s' : List DbObject × List String),
      entries.foldlM (createEntryObjects item.cveId) s = some s' →
      associationsOf s'.1 = associationsOf s.1 ++ entries.map (createAssociation item.cveId) := by
    intro entries
    induction entries with
    | nil =>
        intro s s' hs
        obtain rfl : s = s' := Option.some.inj hs
        rw [List.map_nil, List.append_nil]
    | cons entry entries ih =>
        intro s s' hs
        rw [List.foldlM_cons] at hs
        obtain ⟨s₁, hstep, hrest⟩ := Option.bind_eq_some_iff.1 hs
        have hone : associationsOf s₁.1 =
            associationsOf s.1 ++ [createAssociation item.cveId entry] := by
          unfold createEntryObjects at hstep
          split at hstep
          · obtain rfl := Option.some.inj hstep
            exact associationsOf_append _ _
          · obtain ⟨cpe, -, rfl⟩ := Option.map_eq_some_iff.1 hstep
            exact associationsOf_append _ _
        rw [ih s₁ s' hrest, hone, List.append_assoc, List.map_cons, List.singleton_append]
  exact hgen _ _ _ hfold

/-- What has been created so far is either saved or waits to be saved: the
associations of the first item of each id. -/
structure AddInv (s : AddState) (items : List CveEntry) : Prop where
  saved : ∃ objects, saveObjects CveDb.empty objects = some s.db ∧
    associationsOf (objects ++ s.dbObjects) =
      (Relation.firstRows CveEntry.cveId items).flatMap fun item =>
        item.cpeEntries.map (createAssociation item.cveId)
  existing : s.existingCveIds = (Relation.firstRows CveEntry.cveId items).map CveEntry.cveId

theorem firstRows_snoc (items : List CveEntry) (item : CveEntry) :
    Relation.firstRows CveEntry.cveId (items ++ [item]) =
      Relation.addNew CveEntry.cveId (Relation.firstRows CveEntry.cveId items) item := by
  rw [Relation.firstRows, List.foldl_append]
  rfl

theorem addCveItem_inv {chunkSize : Nat} {s s' : AddState} {items : List CveEntry} {item : CveEntry}
    (hs : AddInv s items) (h : addCveItem chunkSize s item = some s') : AddInv s' (items ++ [item]) := by
  obtain ⟨⟨objects, hsaved, hassociations⟩, hexisting⟩ := hs
  unfold addCveItem at h
  rw [hexisting] at h
  split at h
  · rename_i hold
    obtain rfl := Option.some.inj h
    have hsame : Relation.firstRows CveEntry.cveId (items ++ [item]) =
        Relation.firstRows CveEntry.cveId items := by
      rw [firstRows_snoc, Relation.addNew, if_pos hold]
    exact ⟨⟨objects, hsaved, by rw [hsame, hassociations]⟩, by rw [hsame, hexisting]⟩
  · rename_i hnew
    have hmore : Relation.firstRows CveEntry.cveId (items ++ [item]) =
        Relation.firstRows CveEntry.cveId items ++ [item] := by
      rw [firstRows_snoc, Relation.addNew, if_neg hnew]
    obtain ⟨⟨created, ids⟩, hcreate, h⟩ := Option.bind_eq_some_iff.1 h
    have hcreated := associationsOf_createDbObjects hcreate
    have hall : associationsOf (objects ++ (s.dbObjects ++ created)) =
        (Relation.firstRows CveEntry.cveId (items ++ [item])).flatMap fun item =>
          item.cpeEntries.map (createAssociation item.cveId) := by
      rw [← List.append_assoc, associationsOf_append, hassociations, hcreated, hmore,
        List.flatMap_append, List.flatMap_singleton]
    simp only at h
    split at h
    · -- the chunk is full and saved
      obtain ⟨db, hsave, rfl⟩ := Option.map_eq_some_iff.1 h
      refine ⟨⟨objects ++ (s.dbObjects ++ created), ?_, ?_⟩, ?_⟩
      · rw [saveObjects_append, hsaved]
        exact hsave
      · rw [List.append_nil, hall]
      · rw [hmore, List.map_append, List.map_singleton]
    · obtain rfl := Option.some.inj h
      refine ⟨⟨objects, hsaved, hall⟩, ?_⟩
      rw [hmore, List.map_append, List.map_singleton]

theorem foldlM_addCveItem_inv {chunkSize : Nat} {s s' : AddState} {items rest : List CveEntry}
    (hs : AddInv s items) (h : rest.foldlM (addCveItem chunkSize) s = some s') :
    AddInv s' (items ++ rest) := by
  induction rest generalizing s items with
  | nil =>
      obtain rfl : s = s' := Option.some.inj h
      rwa [List.append_nil]
  | cons item rest ih =>
      rw [List.foldlM_cons] at h
      obtain ⟨s₁, hstep, hrest⟩ := Option.bind_eq_some_iff.1 h
      have hinv := ih (addCveItem_inv hs hstep) hrest
      rwa [List.append_assoc, List.singleton_append] at hinv

/-- The database holds the associations of the first item of each id. -/
theorem get?_addCveItems {chunkSize : Nat} {items : List CveEntry} {db : CveDb}
    (h : addCveItems chunkSize items = some db) (key : String × String) (row : Association) :
    db.associations.get? key = some row ↔
      ∃ item ∈ Relation.firstRows CveEntry.cveId items, ∃ entry ∈ item.cpeEntries,
        row = createAssociation item.cveId entry ∧ key = (item.cveId, entry.criteria) := by
  obtain ⟨s, hrun, hfinish⟩ := Option.bind_eq_some_iff.1 h
  have hinit : AddInv ⟨CveDb.empty, [], [], []⟩ [] := ⟨⟨[], rfl, rfl⟩, rfl⟩
  obtain ⟨⟨objects, hsaved, hassociations⟩, -⟩ := foldlM_addCveItem_inv hinit hrun
  have hsave : saveObjects CveDb.empty (objects ++ s.dbObjects) = some db := by
    rw [saveObjects_append, hsaved]
    split at hfinish
    · rename_i hnil
      rw [hnil]
      exact hfinish
    · exact hfinish
  rw [get?_saveObjects hsave, hassociations, List.nil_append]
  constructor
  · rintro (hnone | ⟨hmem, hkey⟩)
    · cases hnone
    · obtain ⟨item, hitem, hrow⟩ := List.mem_flatMap.1 hmem
      obtain ⟨entry, hentry, rfl⟩ := List.mem_map.1 hrow
      exact ⟨item, hitem, entry, hentry, rfl, hkey.symm⟩
  · rintro ⟨item, hitem, entry, hentry, rfl, rfl⟩
    exact .inr ⟨List.mem_flatMap.2 ⟨item, hitem, List.mem_map_of_mem hentry⟩, rfl⟩

/-! ## What is read -/

theorem mem_getAssociations {db : CveDb} {cpeIds : List String} {cpeId : String} {row : Association}
    (hrequested : cpeId ∈ cpeIds) :
    row ∈ ((getAssociations db cpeIds).get? cpeId).getD [] ↔
      row ∈ db.associations.values ∧ row.cpeId = cpeId := by
  have hget := Dict.get?_foldl_extend Association.cpeId (fun a => [a])
    (db.associations.values.filter fun a => a.cpeId ∈ cpeIds) ∅ cpeId
  rw [getAssociations, hget]
  by_cases hrow : ∃ a ∈ db.associations.values.filter fun a => a.cpeId ∈ cpeIds, a.cpeId = cpeId
  · rw [if_pos hrow]
    simp only [Dict.get?_empty, Option.getD_none, List.nil_append, Option.getD_some, List.mem_flatMap,
      List.mem_filter, List.mem_singleton, decide_eq_true_eq]
    constructor
    · rintro ⟨a, ⟨⟨ha, -⟩, hid⟩, rfl⟩
      exact ⟨ha, hid⟩
    · rintro ⟨ha, hid⟩
      exact ⟨row, ⟨⟨ha, hid ▸ hrequested⟩, hid⟩, rfl⟩
  · rw [if_neg hrow]
    simp only [Dict.get?_empty, Option.getD_none, List.not_mem_nil, false_iff]
    rintro ⟨ha, hid⟩
    exact hrow ⟨row, List.mem_filter.2 ⟨ha, by simpa [hid] using hrequested⟩, hid⟩

/-- The CPEs are found under their ids. -/
theorem get?_matchCpes {db : CveDb} {products : List String} {cpeId : String} {cpe : Cpe}
    (h : (matchCpes db products).get? cpeId = some cpe) : cpe.cpeId = cpeId := by
  have hgen : ∀ (l : List Cpe) (d : Dict String Cpe), (∀ k c, d.get? k = some c → c.cpeId = k) →
      ∀ k c, (l.foldl (fun d cpe => d.set cpe.cpeId cpe) d).get? k = some c → c.cpeId = k := by
    intro l
    induction l with
    | nil => exact fun d hd => hd
    | cons a l ih =>
        intro d hd
        apply ih
        intro k c hget
        rw [Dict.get?_set] at hget
        split at hget
        · rename_i hk
          rw [← Option.some.inj hget, hk]
        · exact hd k c hget
  refine hgen _ ∅ ?_ cpeId cpe h
  intro k c hget
  cases hget

theorem matchCpes_unique {db : CveDb} {products : List String} {cpe cpe' : Cpe}
    (hcpe : cpe ∈ (matchCpes db products).values) (hcpe' : cpe' ∈ (matchCpes db products).values)
    (hid : cpe.cpeId = cpe'.cpeId) : cpe = cpe' := by
  obtain ⟨k, hk⟩ := Dict.mem_values.1 hcpe
  obtain ⟨k', hk'⟩ := Dict.mem_values.1 hcpe'
  obtain rfl : k = k' := by rw [← get?_matchCpes hk, ← get?_matchCpes hk', hid]
  exact Option.some.inj (hk.symm.trans hk')

end CveLookup

end FactCore
