import FactCore.Plugins.CveLookup.Lookup

/-! # The tables after a feed

`DbSetup.add_cve_items` creates the rows of three tables. The table of associations is
looked at with the feed; here it is shown what the tables of the CVEs and of the CPEs
hold, and that each row that an association refers to is there.
-/

namespace FactCore

namespace CveLookup

open Relation (firstRows)

/-! ## Saving rows -/

def cveOf : DbObject → Option Cve
  | .cve row => some row
  | _ => none

def cpeOf : DbObject → Option Cpe
  | .cpe row => some row
  | _ => none

/-- A table, the rows that are stored in it, and their primary key. -/
structure IsTable {ρ : Type} (table : CveDb → Dict String ρ) (rowOf : DbObject → Option ρ)
    (key : ρ → String) : Prop where
  hit : ∀ db db' object row, db.insert object = some db' → rowOf object = some row →
    key row ∉ table db ∧ table db' = (table db).set (key row) row
  miss : ∀ db db' object, db.insert object = some db' → rowOf object = none → table db' = table db

/-- A row that is inserted is new in its table. -/
theorem insert_cases {db db' : CveDb} {object : DbObject} (h : db.insert object = some db') :
    (∃ row, object = .cve row ∧ row.cveId ∉ db.cves ∧
        db' = { db with cves := db.cves.set row.cveId row }) ∨
      (∃ row, object = .cpe row ∧ row.cpeId ∉ db.cpes ∧
        db' = { db with cpes := db.cpes.set row.cpeId row }) ∨
      ∃ row, object = .association row ∧ (row.cveId, row.cpeId) ∉ db.associations ∧
        db' = { db with associations := db.associations.set (row.cveId, row.cpeId) row } := by
  cases object with
  | cve row =>
      simp only [CveDb.insert] at h
      split at h
      · cases h
      · exact .inl ⟨row, rfl, ‹_›, (Option.some.inj h).symm⟩
  | cpe row =>
      simp only [CveDb.insert] at h
      split at h
      · cases h
      · exact .inr (.inl ⟨row, rfl, ‹_›, (Option.some.inj h).symm⟩)
  | association row =>
      simp only [CveDb.insert] at h
      split at h
      · cases h
      · exact .inr (.inr ⟨row, rfl, ‹_›, (Option.some.inj h).symm⟩)

theorem isTable_cves : IsTable CveDb.cves cveOf Cve.cveId := by
  constructor
  · intro db db' object row hinsert hrow
    rcases insert_cases hinsert with ⟨r, rfl, hnew, rfl⟩ | ⟨r, rfl, -, -⟩ | ⟨r, rfl, -, -⟩
    · obtain rfl : r = row := Option.some.inj hrow
      exact ⟨hnew, rfl⟩
    · cases hrow
    · cases hrow
  · intro db db' object hinsert hrow
    rcases insert_cases hinsert with ⟨r, rfl, -, -⟩ | ⟨r, rfl, -, rfl⟩ | ⟨r, rfl, -, rfl⟩
    · cases hrow
    · rfl
    · rfl

theorem isTable_cpes : IsTable CveDb.cpes cpeOf Cpe.cpeId := by
  constructor
  · intro db db' object row hinsert hrow
    rcases insert_cases hinsert with ⟨r, rfl, -, -⟩ | ⟨r, rfl, hnew, rfl⟩ | ⟨r, rfl, -, -⟩
    · cases hrow
    · obtain rfl : r = row := Option.some.inj hrow
      exact ⟨hnew, rfl⟩
    · cases hrow
  · intro db db' object hinsert hrow
    rcases insert_cases hinsert with ⟨r, rfl, -, rfl⟩ | ⟨r, rfl, -, -⟩ | ⟨r, rfl, -, rfl⟩
    · rfl
    · cases hrow
    · rfl

/-- A table holds the rows that were saved, each under its key. -/
theorem IsTable.get?_saveObjects {ρ : Type} {table : CveDb → Dict String ρ}
    {rowOf : DbObject → Option ρ} {key : ρ → String} (htable : IsTable table rowOf key)
    {db db' : CveDb} {objects : List DbObject} (h : saveObjects db objects = some db')
    {k : String} {row : ρ} : (table db').get? k = some row ↔
      (table db).get? k = some row ∨ (row ∈ objects.filterMap rowOf ∧ key row = k) := by
  induction objects generalizing db with
  | nil =>
      obtain rfl : db = db' := Option.some.inj h
      simp
  | cons object objects ih =>
      rw [saveObjects, List.foldlM_cons] at h
      obtain ⟨db₁, hinsert, hrest⟩ := Option.bind_eq_some_iff.1 h
      rw [ih hrest]
      cases hrow : rowOf object with
      | none => rw [htable.miss db db₁ object hinsert hrow, List.filterMap_cons_none hrow]
      | some r =>
          obtain ⟨hnew, hset⟩ := htable.hit db db₁ object r hinsert hrow
          rw [hset, List.filterMap_cons_some hrow, List.mem_cons, Dict.get?_set]
          by_cases hk : k = key r
          · have hnone : (table db).get? k = none := by
              rw [hk]
              exact Dict.notMem_iff.1 hnew
            rw [if_pos hk, hnone]
            constructor
            · rintro (heq | ⟨hmem, hkey⟩)
              · obtain rfl := Option.some.inj heq
                exact .inr ⟨.inl rfl, hk.symm⟩
              · exact .inr ⟨.inr hmem, hkey⟩
            · rintro (heq | ⟨rfl | hmem, hkey⟩)
              · cases heq
              · exact .inl rfl
              · exact .inr ⟨hmem, hkey⟩
          · rw [if_neg hk]
            refine or_congr Iff.rfl (and_congr_left fun hkey => ?_)
            refine ⟨.inr, fun hmem => hmem.resolve_left ?_⟩
            rintro rfl
            exact hk hkey.symm

/-! ## The rows of one item -/

section

variable {ids ids' : List String} {item : CveEntry} {objects : List DbObject}

/-- What the rows of some entries add: the ids of their CPEs, each with its row unless it is
there. -/
structure CpesCreated (ids : List String) (entries : List CpeEntry) (rows : List Cpe)
    (ids' : List String) : Prop where
  mem : ∀ cpeId, cpeId ∈ ids' ↔ cpeId ∈ ids ∨ cpeId ∈ entries.map CpeEntry.criteria
  created : ∀ row ∈ rows, ∃ cpeId ∈ ids', createCpe cpeId = some row
  all : ∀ cpeId ∈ ids', cpeId ∈ ids ∨ ∃ row ∈ rows, createCpe cpeId = some row

theorem cpesCreated_foldlM {cveId : String} {entries : List CpeEntry}
    {s s' : List DbObject × List String}
    (h : entries.foldlM (createEntryObjects cveId) s = some s') :
    s'.1.filterMap cveOf = s.1.filterMap cveOf ∧
      ∃ rows, s'.1.filterMap cpeOf = s.1.filterMap cpeOf ++ rows ∧
        CpesCreated s.2 entries rows s'.2 := by
  induction entries generalizing s with
  | nil =>
      obtain rfl : s = s' := Option.some.inj h
      exact ⟨rfl, [], by simp, ⟨by simp, by simp, fun cpeId hid => .inl hid⟩⟩
  | cons entry entries ih =>
      rw [List.foldlM_cons] at h
      obtain ⟨s₁, hstep, hrest⟩ := Option.bind_eq_some_iff.1 h
      obtain ⟨hcves, rows, hrows, hcreated⟩ := ih hrest
      unfold createEntryObjects at hstep
      split at hstep
      · -- the CPE is there
        rename_i hold
        obtain rfl := Option.some.inj hstep
        refine ⟨hcves.trans (by simp [cveOf]), rows, hrows.trans (by simp [cpeOf]), ?_⟩
        refine ⟨fun cpeId => ?_, hcreated.created, hcreated.all⟩
        rw [hcreated.mem, List.map_cons, List.mem_cons]
        constructor
        · exact Or.imp_right .inr
        · rintro (hid | rfl | hid)
          · exact .inl hid
          · exact .inl hold
          · exact .inr hid
      · obtain ⟨cpe, hcpe, rfl⟩ := Option.map_eq_some_iff.1 hstep
        refine ⟨hcves.trans (by simp [cveOf]), cpe :: rows, hrows.trans (by simp [cpeOf]), ?_⟩
        refine ⟨fun cpeId => ?_, ?_, ?_⟩
        · rw [hcreated.mem, List.map_cons, List.mem_cons, List.mem_append, List.mem_singleton,
            or_assoc]
        · intro row hrow
          rcases List.mem_cons.1 hrow with rfl | hrow
          · exact ⟨entry.criteria, (hcreated.mem _).2 (.inl (by simp)), hcpe⟩
          · exact hcreated.created row hrow
        · intro cpeId hid
          rcases hcreated.all cpeId hid with hold | ⟨row, hrow, hrowCpe⟩
          · rcases List.mem_append.1 hold with hold | hnew
            · exact .inl hold
            · rw [List.mem_singleton] at hnew
              exact .inr ⟨cpe, List.mem_cons_self, hnew ▸ hcpe⟩
          · exact .inr ⟨row, List.mem_cons_of_mem _ hrow, hrowCpe⟩

theorem createDbObjectsForCve_rows (h : createDbObjectsForCve ids item = some (objects, ids')) :
    (∃ cve, createCve item = some cve ∧ objects.filterMap cveOf = [cve]) ∧
      CpesCreated ids item.cpeEntries (objects.filterMap cpeOf) ids' := by
  obtain ⟨cve, hcve, hfold⟩ := Option.bind_eq_some_iff.1 h
  obtain ⟨hcves, rows, hrows, hcreated⟩ := cpesCreated_foldlM hfold
  refine ⟨⟨cve, hcve, hcves⟩, ?_⟩
  have hempty : ([DbObject.cve cve]).filterMap cpeOf = [] := rfl
  rw [hempty, List.nil_append] at hrows
  rw [hrows]
  exact hcreated

end

/-! ## The rows of a feed -/

/-- The rows that have been created for some items, saved or not. -/
structure RowsInv (s : AddState) (items : List CveEntry) : Prop where
  saved : ∃ objects, saveObjects CveDb.empty objects = some s.db ∧
    (∀ row, row ∈ (objects ++ s.dbObjects).filterMap cveOf ↔
      ∃ item ∈ firstRows CveEntry.cveId items, createCve item = some row) ∧
    ∀ row, row ∈ (objects ++ s.dbObjects).filterMap cpeOf ↔
      ∃ cpeId ∈ s.existingCpeIds, createCpe cpeId = some row
  cveIds : s.existingCveIds = (firstRows CveEntry.cveId items).map CveEntry.cveId
  cpeIds : ∀ cpeId, cpeId ∈ s.existingCpeIds ↔
    ∃ item ∈ firstRows CveEntry.cveId items, cpeId ∈ item.cpeEntries.map CpeEntry.criteria
  cves : ∀ item ∈ firstRows CveEntry.cveId items, ∃ row, createCve item = some row
  cpes : ∀ cpeId ∈ s.existingCpeIds, ∃ row, createCpe cpeId = some row

theorem addCveItem_rowsInv {chunkSize : ℕ} {s s' : AddState} {items : List CveEntry}
    {item : CveEntry} (hs : RowsInv s items) (h : addCveItem chunkSize s item = some s') :
    RowsInv s' (items ++ [item]) := by
  obtain ⟨⟨objects, hsaved, hcveRows, hcpeRows⟩, hcveIds, hcpeIds, hcves, hcpes⟩ := hs
  unfold addCveItem at h
  rw [hcveIds] at h
  split at h
  · rename_i hold
    obtain rfl := Option.some.inj h
    have hsame : firstRows CveEntry.cveId (items ++ [item]) = firstRows CveEntry.cveId items := by
      rw [firstRows_snoc, Relation.addNew, if_pos hold]
    rw [← hsame] at hcveRows hcveIds hcves
    simp only [← hsame] at hcpeIds
    exact ⟨⟨objects, hsaved, hcveRows, hcpeRows⟩, hcveIds, hcpeIds, hcves, hcpes⟩
  · rename_i hnew
    have hmore : firstRows CveEntry.cveId (items ++ [item]) =
        firstRows CveEntry.cveId items ++ [item] := by
      rw [firstRows_snoc, Relation.addNew, if_neg hnew]
    obtain ⟨⟨created, ids⟩, hcreate, h⟩ := Option.bind_eq_some_iff.1 h
    obtain ⟨⟨cve, hcve, hcreatedCves⟩, hcreated⟩ := createDbObjectsForCve_rows hcreate
    have hallCves : ∀ row, row ∈ (objects ++ (s.dbObjects ++ created)).filterMap cveOf ↔
        ∃ item' ∈ firstRows CveEntry.cveId (items ++ [item]), createCve item' = some row := by
      intro row
      rw [← List.append_assoc, List.filterMap_append, List.mem_append, hcveRows, hcreatedCves,
        List.mem_singleton, hmore]
      simp [or_and_right, exists_or, hcve, eq_comm]
    have hallCpes : ∀ row, row ∈ (objects ++ (s.dbObjects ++ created)).filterMap cpeOf ↔
        ∃ cpeId ∈ ids, createCpe cpeId = some row := by
      intro row
      rw [← List.append_assoc, List.filterMap_append, List.mem_append, hcpeRows]
      constructor
      · rintro (⟨cpeId, hid, hrow⟩ | hrow)
        · exact ⟨cpeId, (hcreated.mem _).2 (.inl hid), hrow⟩
        · exact hcreated.created row hrow
      · rintro ⟨cpeId, hid, hrow⟩
        rcases hcreated.all cpeId hid with hold | ⟨row', hrow', hcpe⟩
        · exact .inl ⟨cpeId, hold, hrow⟩
        · obtain rfl : row' = row := Option.some.inj (hcpe.symm.trans hrow)
          exact .inr hrow'
    have hids : ∀ cpeId, cpeId ∈ ids ↔ ∃ item' ∈ firstRows CveEntry.cveId (items ++ [item]),
        cpeId ∈ item'.cpeEntries.map CpeEntry.criteria := by
      intro cpeId
      rw [hcreated.mem, hcpeIds, hmore]
      simp [or_and_right, exists_or]
    have hallItems : ∀ item' ∈ firstRows CveEntry.cveId (items ++ [item]),
        ∃ row, createCve item' = some row := by
      intro item' hitem
      rw [hmore, List.mem_append, List.mem_singleton] at hitem
      rcases hitem with hitem | rfl
      · exact hcves item' hitem
      · exact ⟨cve, hcve⟩
    have hallIds : ∀ cpeId ∈ ids, ∃ row, createCpe cpeId = some row := by
      intro cpeId hid
      rcases hcreated.all cpeId hid with hold | ⟨row, -, hrow⟩
      · exact hcpes cpeId hold
      · exact ⟨row, hrow⟩
    have hcveIds' : (firstRows CveEntry.cveId items).map CveEntry.cveId ++ [item.cveId] =
        (firstRows CveEntry.cveId (items ++ [item])).map CveEntry.cveId := by
      rw [hmore, List.map_append, List.map_singleton]
    simp only at h
    split at h
    · -- the chunk is full and saved
      obtain ⟨db, hsave, rfl⟩ := Option.map_eq_some_iff.1 h
      refine ⟨⟨objects ++ (s.dbObjects ++ created), ?_, ?_, ?_⟩, hcveIds', hids, hallItems, hallIds⟩
      · rw [saveObjects_append, hsaved]
        exact hsave
      · rw [List.append_nil]
        exact hallCves
      · rw [List.append_nil]
        exact hallCpes
    · obtain rfl := Option.some.inj h
      exact ⟨⟨objects, hsaved, hallCves, hallCpes⟩, hcveIds', hids, hallItems, hallIds⟩

theorem foldlM_addCveItem_rowsInv {chunkSize : ℕ} {s s' : AddState} {items rest : List CveEntry}
    (hs : RowsInv s items) (h : rest.foldlM (addCveItem chunkSize) s = some s') :
    RowsInv s' (items ++ rest) := by
  induction rest generalizing s items with
  | nil =>
      obtain rfl : s = s' := Option.some.inj h
      rwa [List.append_nil]
  | cons item rest ih =>
      rw [List.foldlM_cons] at h
      obtain ⟨s₁, hstep, hrest⟩ := Option.bind_eq_some_iff.1 h
      have hinv := ih (addCveItem_rowsInv hs hstep) hrest
      rwa [List.append_assoc, List.singleton_append] at hinv

/-- What the tables of the CVEs and of the CPEs hold. -/
structure TablesOf (items : List CveEntry) (db : CveDb) : Prop where
  cves : ∀ cveId row, db.cves.get? cveId = some row ↔
    ∃ item ∈ firstRows CveEntry.cveId items, createCve item = some row ∧ row.cveId = cveId
  cpes : ∀ cpeId row, db.cpes.get? cpeId = some row ↔
    (∃ item ∈ firstRows CveEntry.cveId items, ∃ id ∈ item.cpeEntries.map CpeEntry.criteria,
      createCpe id = some row) ∧ row.cpeId = cpeId
  cveRows : ∀ item ∈ firstRows CveEntry.cveId items, ∃ row, createCve item = some row
  cpeRows : ∀ item ∈ firstRows CveEntry.cveId items,
    ∀ id ∈ item.cpeEntries.map CpeEntry.criteria, ∃ row, createCpe id = some row

theorem tablesOf_addCveItems {chunkSize : ℕ} {items : List CveEntry} {db : CveDb}
    (h : addCveItems chunkSize items = some db) : TablesOf items db := by
  obtain ⟨s, hrun, hfinish⟩ := Option.bind_eq_some_iff.1 h
  have hinit : RowsInv ⟨CveDb.empty, [], [], []⟩ [] :=
    ⟨⟨[], rfl, by simp [firstRows], by simp⟩, rfl, by simp [firstRows], by simp [firstRows],
      by simp⟩
  have hinv : RowsInv s items := foldlM_addCveItem_rowsInv hinit hrun
  obtain ⟨objects, hsaved, hcveRows, hcpeRows⟩ := hinv.saved
  have hsave : saveObjects CveDb.empty (objects ++ s.dbObjects) = some db := by
    rw [saveObjects_append, hsaved]
    split at hfinish
    · rename_i hnil
      rw [hnil]
      exact hfinish
    · exact hfinish
  refine ⟨fun cveId row => ?_, fun cpeId row => ?_, hinv.cves, fun item hitem id hid => ?_⟩
  · rw [isTable_cves.get?_saveObjects hsave, hcveRows, show CveDb.empty.cves.get? cveId = none from rfl]
    simp only [reduceCtorEq, false_or]
    constructor
    · rintro ⟨⟨item, hitem, hrow⟩, hkey⟩
      exact ⟨item, hitem, hrow, hkey⟩
    · rintro ⟨item, hitem, hrow, hkey⟩
      exact ⟨⟨item, hitem, hrow⟩, hkey⟩
  · rw [isTable_cpes.get?_saveObjects hsave, hcpeRows, show CveDb.empty.cpes.get? cpeId = none from rfl]
    simp only [reduceCtorEq, false_or]
    refine and_congr_left fun _ => ⟨?_, ?_⟩
    · rintro ⟨id, hid, hrow⟩
      obtain ⟨item, hitem, hmem⟩ := (hinv.cpeIds id).1 hid
      exact ⟨item, hitem, id, hmem, hrow⟩
    · rintro ⟨item, hitem, id, hmem, hrow⟩
      exact ⟨id, (hinv.cpeIds id).2 ⟨item, hitem, hmem⟩, hrow⟩
  · exact hinv.cpes id ((hinv.cpeIds id).2 ⟨item, hitem, hid⟩)

end CveLookup

end FactCore
