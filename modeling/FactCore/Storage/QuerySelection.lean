import FactCore.Storage.QueryConversion

/-! # What a query selects, condition by condition

A query is evaluated over joined rows. This file says what that comes to for one
object and one condition: a conjunction selects the objects of which every
condition holds, as long as its conditions on the analysis table ask for one
plugin; a disjunction those of which one condition holds, as long as no join
loses the object and none of its conditions is true of a missing row.
-/

namespace FactCore

namespace QueryConversion

variable {S : Semantics} {db : Database S} {query : Query} {row : Row S} {uid : Uid}

/-! ## The joined rows -/

namespace Query

theorem mem_fileRows : row ∈ fileRows db ↔
    db.fileObject.get? row.uid = some row.file ∧ row.analysis = none ∧ row.firmware = none := by
  rw [fileRows, List.mem_map]
  constructor
  · rintro ⟨e, he, rfl⟩
    exact ⟨Dict.get?_eq_some_iff.2 he, rfl, rfl⟩
  · rintro ⟨hfile, hanalysis, hfirmware⟩
    refine ⟨(row.uid, row.file), Dict.get?_eq_some_iff.1 hfile, ?_⟩
    rw [← hanalysis, ← hfirmware]

theorem mem_withAnalysis {rows : List (Row S)} (hnone : ∀ r ∈ rows, r.analysis = none) :
    row ∈ withAnalysis db rows ↔ { row with analysis := none } ∈ rows ∧
      ∃ plugin entry, db.analysis.get? (row.uid, plugin) = some entry ∧
        row.analysis = some (plugin, entry) := by
  rw [withAnalysis, List.mem_map]
  constructor
  · rintro ⟨⟨r, ⟨uid, plugin⟩, entry⟩, hp, rfl⟩
    rcases Relation.mem_join.1 hp with ⟨hr, he, hon⟩
    obtain rfl : uid = r.uid := by simpa using hon
    refine ⟨?_, plugin, entry, Dict.get?_eq_some_iff.2 he, rfl⟩
    have hbase := hnone r hr
    cases r
    cases hbase
    exact hr
  · rintro ⟨hr, plugin, entry, hentry, hrow⟩
    refine ⟨({ row with analysis := none }, (row.uid, plugin), entry), ?_, ?_⟩
    · exact Relation.mem_join.2 ⟨hr, Dict.get?_eq_some_iff.1 hentry, by simp⟩
    · rw [← hrow]

/-- The row of the firmware table that a joined row carries. -/
def firmwareJoined (db : Database S) (row : Row S) : JoinKind → Prop
  | .inner => ∃ entry, db.firmware.get? row.uid = some entry ∧ row.firmware = some entry
  | .outer => row.firmware = db.firmware.get? row.uid

theorem mem_withFirmware {rows : List (Row S)} (hnone : ∀ r ∈ rows, r.firmware = none)
    (kind : JoinKind) : row ∈ withFirmware db kind rows ↔
      { row with firmware := none } ∈ rows ∧ firmwareJoined db row kind := by
  have hbase : ∀ r ∈ rows, { r with firmware := none } ∈ rows := by
    intro r hr
    have hfirmware := hnone r hr
    cases r
    cases hfirmware
    exact hr
  cases kind with
  | inner =>
      rw [withFirmware, List.mem_map]
      constructor
      · rintro ⟨⟨r, uid, entry⟩, hp, rfl⟩
        rcases Relation.mem_join.1 hp with ⟨hr, he, hon⟩
        obtain rfl : uid = r.uid := by simpa using hon
        exact ⟨hbase r hr, entry, Dict.get?_eq_some_iff.2 he, rfl⟩
      · rintro ⟨hr, entry, hentry, hrow⟩
        refine ⟨({ row with firmware := none }, row.uid, entry), ?_, ?_⟩
        · exact Relation.mem_join.2 ⟨hr, Dict.get?_eq_some_iff.1 hentry, by simp⟩
        · rw [← hrow]
  | outer =>
      rw [withFirmware, List.mem_map]
      constructor
      · rintro ⟨⟨r, e⟩, hp, rfl⟩
        cases e with
        | none =>
            rcases Relation.mem_outerJoin_none.1 hp with ⟨hr, hno⟩
            refine ⟨hbase r hr, ?_⟩
            have hget : db.firmware.get? r.uid = none := by
              rw [Option.eq_none_iff_forall_ne_some]
              intro entry hentry
              simpa using hno (r.uid, entry) (Dict.get?_eq_some_iff.1 hentry)
            exact hget.symm
        | some e =>
            rcases Relation.mem_outerJoin_some.1 hp with ⟨hr, he, hon⟩
            obtain ⟨uid, entry⟩ := e
            obtain rfl : uid = r.uid := by simpa using hon
            exact ⟨hbase r hr, (Dict.get?_eq_some_iff.2 he).symm⟩
      · rintro ⟨hr, hrow⟩
        have hrow : row.firmware = db.firmware.get? row.uid := hrow
        cases hget : db.firmware.get? row.uid with
        | none =>
            refine ⟨({ row with firmware := none }, none), ?_, ?_⟩
            · refine Relation.mem_outerJoin_none.2 ⟨hr, fun e he => ?_⟩
              have hne : e.1 ≠ row.uid := by
                rintro heq
                have hsome : db.firmware.get? row.uid = some e.2 :=
                  Dict.get?_eq_some_iff.2 (by rw [← heq]; exact he)
                rw [hget] at hsome
                cases hsome
              simpa using hne
            · rw [Option.map_none, ← hget, ← hrow]
        | some entry =>
            refine ⟨({ row with firmware := none }, some (row.uid, entry)), ?_, ?_⟩
            · exact Relation.mem_outerJoin_some.2 ⟨hr, Dict.get?_eq_some_iff.1 hget, by simp⟩
            · rw [Option.map_some, ← hget, ← hrow]

/-- The row of the analysis table that a joined row carries. -/
def analysisJoined (db : Database S) (row : Row S) : Bool → Prop
  | true => ∃ plugin entry, db.analysis.get? (row.uid, plugin) = some entry ∧
      row.analysis = some (plugin, entry)
  | false => row.analysis = none

/-- A joined row is a row of `file_object` with what each join adds to it. -/
theorem mem_rows : row ∈ query.rows db ↔
    db.fileObject.get? row.uid = some row.file ∧
    analysisJoined db row query.joinAnalysis ∧
    (∀ kind, query.joinFirmware = some kind → firmwareJoined db row kind) ∧
    (query.joinFirmware = none → row.firmware = none) := by
  have hfile : ∀ r ∈ fileRows db, r.analysis = none := fun r hr => (mem_fileRows.1 hr).2.1
  have hanalysis : ∀ r : Row S, r ∈ (if query.joinAnalysis then withAnalysis db (fileRows db)
      else fileRows db) ↔ db.fileObject.get? r.uid = some r.file ∧
        analysisJoined db r query.joinAnalysis ∧ r.firmware = none := by
    intro r
    cases query.joinAnalysis with
    | false =>
        simp only [Bool.false_eq_true, if_false]
        exact mem_fileRows
    | true =>
        simp only [if_true]
        rw [mem_withAnalysis hfile, mem_fileRows]
        constructor
        · rintro ⟨⟨h₁, -, h₂⟩, h₃⟩
          exact ⟨h₁, h₃, h₂⟩
        · rintro ⟨h₁, h₃, h₂⟩
          exact ⟨⟨h₁, rfl, h₂⟩, h₃⟩
  rw [rows]
  cases hkind : query.joinFirmware with
  | none =>
      simp only [hanalysis]
      simp
  | some kind =>
      have hnone : ∀ r ∈ (if query.joinAnalysis then withAnalysis db (fileRows db)
          else fileRows db), r.firmware = none := fun r hr => ((hanalysis r).1 hr).2.2
      simp only [mem_withFirmware hnone kind, hanalysis]
      constructor
      · rintro ⟨⟨h₁, h₂, -⟩, h₃⟩
        refine ⟨h₁, ?_, ?_, ?_⟩
        · cases hjoin : query.joinAnalysis <;> rw [hjoin] at h₂ <;> exact h₂
        · rintro kind' ⟨⟩
          exact h₃
        · intro h
          cases h
      · rintro ⟨h₁, h₂, h₃, -⟩
        refine ⟨⟨h₁, ?_, trivial⟩, h₃ kind rfl⟩
        cases hjoin : query.joinAnalysis <;> rw [hjoin] at h₂ <;> exact h₂

theorem mem_selected : uid ∈ query.selected db ↔
    ∃ row ∈ query.rows db, query.holds row = true ∧ row.uid = uid := by
  simp only [selected, List.mem_dedup, List.mem_map, matching, List.mem_filter, and_assoc]

end Query

/-! ## The conditions of a query -/

/-- The conditions on the analysis table. -/
def Condition.isAnalysis : Condition → Bool
  | .analysis _ _ => true
  | _ => false

/-- The translation of one entry; a key that is no column of a table is ignored. -/
def conditionOf (key : String) (value : Json) : Except QueryError (Option Condition) :=
  if isAnalysisKey key then some <$> analysisCondition key value
  else if key ∈ firmwareColumns ∧ key ≠ "uid" then some <$> firmwareCondition key value
  else if key ∈ fileColumns then some <$> fileCondition key value
  else .ok none

/-- The condition of an entry, if it is translated. -/
def condition? (key : String) (value : Json) : Option Condition :=
  match conditionOf key value with
  | .ok c => c
  | .error _ => none

/-- The conditions of the entries of one level. -/
def conditionsOf (entries : Entries) : List Condition :=
  entries.items.filterMap fun e => condition? e.1 e.2

/-- No column is the key of an analysis. -/
theorem isAnalysisKey_of_mem {key : String} (h : key ∈ fileColumns ∨ key ∈ firmwareColumns) :
    isAnalysisKey key = false := by
  have hcolumns : ∀ key ∈ fileColumns ++ firmwareColumns, isAnalysisKey key = false := by decide
  exact hcolumns key (List.mem_append.2 h)

/-- Only `uid` is a column of both tables. -/
theorem eq_uid_of_mem {key : String} (hfile : key ∈ fileColumns) (hfw : key ∈ firmwareColumns) :
    key = "uid" := by
  have hcolumns : ∀ key ∈ fileColumns, key ∈ firmwareColumns → key = "uid" := by decide
  exact hcolumns key hfile hfw

theorem map_eq_ok {ε α β : Type} {f : α → β} {x : Except ε α} {y : β} :
    f <$> x = .ok y ↔ ∃ a, x = .ok a ∧ f a = y := by
  cases x <;> simp [Functor.map, Except.map]

theorem bind_eq_ok {ε α β : Type} {x : Except ε α} {f : α → Except ε β} {y : β} :
    (x >>= f) = .ok y ↔ ∃ a, x = .ok a ∧ f a = .ok y := by
  cases x <;> simp [bind, Except.bind]

theorem conditionOf_analysis {key : String} (value : Json) (h : isAnalysisKey key = true) :
    conditionOf key value = some <$> analysisCondition key value := by
  simp [conditionOf, h]

theorem conditionOf_firmware {key : String} (value : Json)
    (h : key ∉ ["uid"] ∧ key ∈ firmwareColumns) :
    conditionOf key value = some <$> firmwareCondition key value := by
  have hne : key ≠ "uid" := by simpa using h.1
  simp [conditionOf, isAnalysisKey_of_mem (.inr h.2), h.2, hne]

theorem conditionOf_file {key : String} (value : Json) (h : key ∈ fileColumns) :
    conditionOf key value = some <$> fileCondition key value := by
  have hfw : ¬ (key ∈ firmwareColumns ∧ key ≠ "uid") := fun hf => hf.2 (eq_uid_of_mem h hf.1)
  simp [conditionOf, isAnalysisKey_of_mem (.inl h), hfw, h]

theorem map_some_eq_ok {ε α : Type} {x : Except ε α} {c : α} :
    some <$> x = .ok (some c) ↔ x = .ok c := by
  simp [map_eq_ok]

theorem exists_map_eq_ok {ε α β : Type} {f : α → β} {x : Except ε α} :
    (∃ o, f <$> x = .ok o) ↔ ∃ c, x = .ok c := by
  simp [map_eq_ok]

/-- An entry that is translated to a condition is found by one of the three searches. -/
theorem searched_of_conditionOf {key : String} {value : Json} {c : Condition}
    (h : conditionOf key value = .ok (some c)) :
    isAnalysisKey key = true ∨ (key ∉ ["uid"] ∧ key ∈ firmwareColumns) ∨ key ∈ fileColumns := by
  unfold conditionOf at h
  split at h
  · exact .inl ‹_›
  · split at h
    · rename_i hfw
      exact .inr (.inl ⟨by simpa using hfw.2, hfw.1⟩)
    · split at h
      · exact .inr (.inr ‹_›)
      · cases h

theorem analysisCondition_kind {key : String} {value : Json} {c : Condition}
    (h : analysisCondition key value = .ok c) : ∃ plugin filter, c = .analysis plugin filter := by
  rcases bind_eq_ok.1 h with ⟨⟨plugin, subkey⟩, -, h⟩
  rcases bind_eq_ok.1 h with ⟨filter, -, h⟩
  cases h
  exact ⟨plugin, filter, rfl⟩

theorem firmwareCondition_kind {key : String} {value : Json} {c : Condition}
    (h : firmwareCondition key value = .ok c) : ∃ filter, c = .firmware filter := by
  unfold firmwareCondition at h
  split at h
  all_goals
    rcases bind_eq_ok.1 h with ⟨filter, -, h⟩
    cases h
    exact ⟨filter, rfl⟩

theorem fileCondition_kind {key : String} {value : Json} {c : Condition}
    (h : fileCondition key value = .ok c) : ∃ filter, c = .file filter := by
  rcases bind_eq_ok.1 h with ⟨filter, -, h⟩
  cases h
  exact ⟨filter, rfl⟩

/-- The query of one level, put together from what its three searches return. -/
theorem build_plain {entries : Entries} {orQuery : Bool} {r : Query × SearchDict} :
    buildQueryFromDict (.plain entries) orQuery = .ok r ↔
    ∃ analysis firmware file,
      ((renameId entries).items.filter fun e => isAnalysisKey e.1).mapM
        (fun e => analysisCondition e.1 e.2) = .ok analysis ∧
      (getSearchKeysFromDict (renameId entries) firmwareColumns ["uid"]).mapM
        (fun e => firmwareCondition e.1 e.2) = .ok firmware ∧
      (getSearchKeysFromDict (renameId entries) fileColumns []).mapM
        (fun e => fileCondition e.1 e.2) = .ok file ∧
      r = (⟨!((renameId entries).items.filter fun e => isAnalysisKey e.1).isEmpty,
        if (getSearchKeysFromDict (renameId entries) firmwareColumns ["uid"]).isEmpty then none
          else some (if orQuery then .outer else .inner),
        analysis ++ firmware ++ file, orQuery⟩, .plain ((renameId entries).map rewritten)) := by
  rw [buildQueryFromDict]
  simp only [bind_eq_ok]
  constructor
  · rintro ⟨analysis, h₁, firmware, h₂, file, h₃, h⟩
    cases h
    exact ⟨analysis, firmware, file, h₁, h₂, h₃, rfl⟩
  · rintro ⟨analysis, firmware, file, h₁, h₂, h₃, rfl⟩
    exact ⟨analysis, h₁, firmware, h₂, file, h₃, rfl⟩

theorem mem_getSearchKeysFromDict {entries : Entries} {table blacklist : List String}
    {e : String × Json} : e ∈ getSearchKeysFromDict entries table blacklist ↔
      e ∈ entries.items ∧ e.1 ∉ blacklist ∧ e.1 ∈ table := by
  simp [getSearchKeysFromDict]

section

variable {entries : Entries} {orQuery : Bool} {d' : SearchDict}

/-- The conditions of the query are those of the entries. -/
theorem mem_conditions (h : buildQueryFromDict (.plain entries) orQuery = .ok (query, d'))
    {c : Condition} : c ∈ query.conditions ↔
      ∃ e ∈ (renameId entries).items, conditionOf e.1 e.2 = .ok (some c) := by
  obtain ⟨analysis, firmware, file, h₁, h₂, h₃, hr⟩ := build_plain.1 h
  obtain ⟨rfl, -⟩ := Prod.mk.inj hr
  show c ∈ analysis ++ firmware ++ file ↔ _
  rw [List.mem_append, List.mem_append, Loop.mem_of_mapM_ok h₁, Loop.mem_of_mapM_ok h₂,
    Loop.mem_of_mapM_ok h₃]
  constructor
  · rintro ((⟨e, he, hc⟩ | ⟨e, he, hc⟩) | ⟨e, he, hc⟩)
    · have he := List.mem_filter.1 he
      refine ⟨e, he.1, ?_⟩
      rw [conditionOf_analysis e.2 he.2, map_some_eq_ok]
      exact hc
    · have he := mem_getSearchKeysFromDict.1 he
      refine ⟨e, he.1, ?_⟩
      rw [conditionOf_firmware e.2 he.2, map_some_eq_ok]
      exact hc
    · have he := mem_getSearchKeysFromDict.1 he
      refine ⟨e, he.1, ?_⟩
      rw [conditionOf_file e.2 he.2.2, map_some_eq_ok]
      exact hc
  · rintro ⟨e, he, hc⟩
    rcases searched_of_conditionOf hc with hkey | hkey | hkey
    · rw [conditionOf_analysis e.2 hkey, map_some_eq_ok] at hc
      exact .inl (.inl ⟨e, List.mem_filter.2 ⟨he, hkey⟩, hc⟩)
    · rw [conditionOf_firmware e.2 hkey, map_some_eq_ok] at hc
      exact .inl (.inr ⟨e, mem_getSearchKeysFromDict.2 ⟨he, hkey⟩, hc⟩)
    · rw [conditionOf_file e.2 hkey, map_some_eq_ok] at hc
      exact .inr ⟨e, mem_getSearchKeysFromDict.2 ⟨he, by simp, hkey⟩, hc⟩

/-- The translation of one level raises iff that of one of its entries does. -/
theorem build_plain_ok_iff : (∃ r, buildQueryFromDict (.plain entries) orQuery = .ok r) ↔
    ∀ e ∈ (renameId entries).items, ∃ o, conditionOf e.1 e.2 = .ok o := by
  constructor
  · rintro ⟨r, hr⟩ e he
    obtain ⟨analysis, firmware, file, h₁, h₂, h₃, -⟩ := build_plain.1 hr
    have hok : ∀ {l : List (String × Json)} {f : String × Json → Except QueryError Condition}
        {rs : List Condition}, l.mapM f = .ok rs → e ∈ l → ∃ c, f e = .ok c := by
      intro l f rs hl hmem
      rcases Loop.exists_of_mapM_ok hl hmem with ⟨c, -, hc⟩
      exact ⟨c, hc⟩
    by_cases hanalysis : isAnalysisKey e.1 = true
    · rw [conditionOf_analysis e.2 hanalysis, exists_map_eq_ok]
      exact hok h₁ (List.mem_filter.2 ⟨he, hanalysis⟩)
    · by_cases hfw : e.1 ∉ ["uid"] ∧ e.1 ∈ firmwareColumns
      · rw [conditionOf_firmware e.2 hfw, exists_map_eq_ok]
        exact hok h₂ (mem_getSearchKeysFromDict.2 ⟨he, hfw⟩)
      · by_cases hfile : e.1 ∈ fileColumns
        · rw [conditionOf_file e.2 hfile, exists_map_eq_ok]
          exact hok h₃ (mem_getSearchKeysFromDict.2 ⟨he, by simp, hfile⟩)
        · have hfw' : ¬ (e.1 ∈ firmwareColumns ∧ e.1 ≠ "uid") :=
            fun hf => hfw ⟨by simpa using hf.2, hf.1⟩
          exact ⟨none, by rw [conditionOf, if_neg hanalysis, if_neg hfw', if_neg hfile]⟩
  · intro h
    have h₁ : ∃ rs, ((renameId entries).items.filter fun e => isAnalysisKey e.1).mapM
        (fun e => analysisCondition e.1 e.2) = .ok rs := by
      refine Loop.exists_mapM_ok fun e he => ?_
      have he := List.mem_filter.1 he
      have hok := h e he.1
      rwa [conditionOf_analysis e.2 he.2, exists_map_eq_ok] at hok
    have h₂ : ∃ rs, (getSearchKeysFromDict (renameId entries) firmwareColumns ["uid"]).mapM
        (fun e => firmwareCondition e.1 e.2) = .ok rs := by
      refine Loop.exists_mapM_ok fun e he => ?_
      have he := mem_getSearchKeysFromDict.1 he
      have hok := h e he.1
      rwa [conditionOf_firmware e.2 he.2, exists_map_eq_ok] at hok
    have h₃ : ∃ rs, (getSearchKeysFromDict (renameId entries) fileColumns []).mapM
        (fun e => fileCondition e.1 e.2) = .ok rs := by
      refine Loop.exists_mapM_ok fun e he => ?_
      have he := mem_getSearchKeysFromDict.1 he
      have hok := h e he.1
      rwa [conditionOf_file e.2 he.2.2, exists_map_eq_ok] at hok
    obtain ⟨analysis, h₁⟩ := h₁
    obtain ⟨firmware, h₂⟩ := h₂
    obtain ⟨file, h₃⟩ := h₃
    exact ⟨_, build_plain.2 ⟨analysis, firmware, file, h₁, h₂, h₃, rfl⟩⟩

/-- The tables that the conditions of a query are about are joined, and no others. -/
structure Query.Joined (query : Query) : Prop where
  analysis : query.joinAnalysis = true ↔ ∃ plugin filter, .analysis plugin filter ∈ query.conditions
  firmware : ∀ kind, query.joinFirmware = some kind ↔
    kind = (if query.any then .outer else .inner) ∧ ∃ filter, .firmware filter ∈ query.conditions

/-- What a search has found is the conditions of its kind. -/
theorem isEmpty_iff_of_mapM {l : List (String × Json)} {f : String × Json → Except QueryError Condition}
    {rs : List Condition} (h : l.mapM f = .ok rs) : l.isEmpty = true ↔ rs = [] := by
  rw [List.isEmpty_iff, ← List.length_eq_zero_iff, ← Loop.length_of_mapM_ok h, List.length_eq_zero_iff]

theorem build_joined (h : buildQueryFromDict (.plain entries) orQuery = .ok (query, d')) :
    query.Joined ∧ query.any = orQuery := by
  obtain ⟨analysis, firmware, file, h₁, h₂, h₃, hr⟩ := build_plain.1 h
  obtain ⟨rfl, -⟩ := Prod.mk.inj hr
  have hanalysis : ∀ c ∈ analysis, ∃ plugin filter, c = .analysis plugin filter := fun c hc => by
    rcases (Loop.mem_of_mapM_ok h₁).1 hc with ⟨e, -, he⟩
    exact analysisCondition_kind he
  have hfirmware : ∀ c ∈ firmware, ∃ filter, c = .firmware filter := fun c hc => by
    rcases (Loop.mem_of_mapM_ok h₂).1 hc with ⟨e, -, he⟩
    exact firmwareCondition_kind he
  have hfile : ∀ c ∈ file, ∃ filter, c = .file filter := fun c hc => by
    rcases (Loop.mem_of_mapM_ok h₃).1 hc with ⟨e, -, he⟩
    exact fileCondition_kind he
  refine ⟨⟨?_, ?_⟩, rfl⟩
  · show (!_) = true ↔ _
    rw [Bool.not_eq_true', ← Bool.not_eq_true, isEmpty_iff_of_mapM h₁]
    constructor
    · intro hne
      rcases List.exists_mem_of_ne_nil _ hne with ⟨c, hc⟩
      obtain ⟨plugin, filter, rfl⟩ := hanalysis c hc
      exact ⟨plugin, filter, List.mem_append_left _ (List.mem_append_left _ hc)⟩
    · rintro ⟨plugin, filter, hmem⟩ rfl
      rcases List.mem_append.1 hmem with hmem | hmem
      · obtain ⟨_, hc⟩ := hfirmware _ hmem
        cases hc
      · obtain ⟨_, hc⟩ := hfile _ hmem
        cases hc
  · intro kind
    show (if _ then none else some _) = some kind ↔ _
    have hsome : (∃ filter, .firmware filter ∈ analysis ++ firmware ++ file) ↔ firmware ≠ [] := by
      constructor
      · rintro ⟨filter, hmem⟩ rfl
        rcases List.mem_append.1 hmem with hmem | hmem
        · rcases List.mem_append.1 hmem with hmem | hmem
          · obtain ⟨_, _, hc⟩ := hanalysis _ hmem
            cases hc
          · cases hmem
        · obtain ⟨_, hc⟩ := hfile _ hmem
          cases hc
      · intro hne
        rcases List.exists_mem_of_ne_nil _ hne with ⟨c, hc⟩
        obtain ⟨filter, rfl⟩ := hfirmware c hc
        exact ⟨filter, List.mem_append_left _ (List.mem_append_right _ hc)⟩
    have hempty := isEmpty_iff_of_mapM h₂
    by_cases hnil : firmware = []
    · rw [if_pos (hempty.2 hnil)]
      constructor
      · intro hno
        cases hno
      · rintro ⟨-, hmem⟩
        exact absurd hnil (hsome.1 hmem)
    · rw [if_neg fun he => hnil (hempty.1 he), Option.some.injEq]
      exact ⟨fun heq => ⟨heq.symm, hsome.2 hnil⟩, fun heq => heq.1.symm⟩

end

/-! ## Conditions of an object -/

/-- A condition holds of an object iff the object has a row of the table that satisfies it. -/
def HoldsOn (db : Database S) (uid : Uid) : Condition → Prop
  | .file filter => ∃ entry, db.fileObject.get? uid = some entry ∧ S.file filter entry = true
  | .firmware filter => ∃ entry, db.firmware.get? uid = some entry ∧ S.firmware filter entry = true
  | .analysis plugin filter =>
      ∃ entry, db.analysis.get? (uid, plugin) = some entry ∧ S.analysis filter entry = true

/-- The conditions on the analysis table ask for rows of one plugin. -/
def OnePlugin (conditions : List Condition) : Prop :=
  ∀ plugin filter plugin' filter', .analysis plugin filter ∈ conditions →
    .analysis plugin' filter' ∈ conditions → plugin = plugin'

section

variable (hjoined : query.Joined)

include hjoined

/-- A conjunction selects the objects of which all conditions hold, because one
joined row carries everything that the conditions ask for. -/
theorem mem_selected_all (hall : query.any = false) (hone : OnePlugin query.conditions) :
    uid ∈ query.selected db ↔
      uid ∈ db.fileObject ∧ ∀ c ∈ query.conditions, HoldsOn db uid c := by
  have hinner : ∀ kind, query.joinFirmware = some kind ↔
      kind = .inner ∧ ∃ filter, .firmware filter ∈ query.conditions := by
    intro kind
    rw [hjoined.firmware kind, hall, if_neg Bool.false_ne_true]
  have hholds : ∀ row : Row S, query.holds row = true ↔ ∀ c ∈ query.conditions, c.holds row = true := by
    intro row
    rw [Query.holds, hall, if_neg Bool.false_ne_true, List.all_eq_true]
  rw [Query.mem_selected]
  constructor
  · rintro ⟨row, hrow, hc, rfl⟩
    obtain ⟨hfile, hanalysis, hfirmware, -⟩ := Query.mem_rows.1 hrow
    refine ⟨Dict.mem_of_get? hfile, fun c hmem => ?_⟩
    have htrue := (hholds row).1 hc c hmem
    cases c with
    | file filter => exact ⟨row.file, hfile, htrue⟩
    | firmware filter =>
        obtain ⟨entry, hentry, hcarried⟩ := hfirmware .inner ((hinner _).2 ⟨rfl, filter, hmem⟩)
        rw [Condition.holds, hcarried] at htrue
        exact ⟨entry, hentry, htrue⟩
    | analysis plugin filter =>
        rw [hjoined.analysis.2 ⟨plugin, filter, hmem⟩] at hanalysis
        obtain ⟨name, entry, hentry, hcarried⟩ := hanalysis
        rw [Condition.holds, hcarried, Bool.and_eq_true, decide_eq_true_eq] at htrue
        exact ⟨entry, by rw [← htrue.2]; exact hentry, htrue.1⟩
  · rintro ⟨hmem, hc⟩
    obtain ⟨file, hfile⟩ := Dict.mem_iff.1 hmem
    -- the analysis row of the one plugin, if a condition asks for it
    have hanalysis : ∃ analysis : Option (Plugin × S.Analysis),
        (∀ firmware, Query.analysisJoined db ⟨uid, file, analysis, firmware⟩ query.joinAnalysis) ∧
        ∀ firmware plugin filter, .analysis plugin filter ∈ query.conditions →
          (Condition.analysis plugin filter).holds ⟨uid, file, analysis, firmware⟩ = true := by
      cases hjoin : query.joinAnalysis with
      | false =>
          refine ⟨none, fun _ => rfl, fun _ plugin filter hin => ?_⟩
          rw [hjoined.analysis.2 ⟨plugin, filter, hin⟩] at hjoin
          cases hjoin
      | true =>
          obtain ⟨plugin, filter, hin⟩ := hjoined.analysis.1 hjoin
          obtain ⟨entry, hentry, -⟩ := hc _ hin
          refine ⟨some (plugin, entry), fun _ => ⟨plugin, entry, hentry, rfl⟩, ?_⟩
          intro _ plugin' filter' hin'
          obtain rfl := hone plugin filter plugin' filter' hin hin'
          obtain ⟨entry', hentry', htrue⟩ := hc _ hin'
          obtain rfl : entry = entry' := Option.some.inj (hentry.symm.trans hentry')
          rw [Condition.holds, Bool.and_eq_true, decide_eq_true_eq]
          exact ⟨htrue, rfl⟩
    have hfirmware : ∃ firmware : Option S.Firmware,
        (∀ analysis, (∀ kind, query.joinFirmware = some kind →
          Query.firmwareJoined db ⟨uid, file, analysis, firmware⟩ kind) ∧
          (query.joinFirmware = none → firmware = none)) ∧
        ∀ analysis filter, .firmware filter ∈ query.conditions →
          (Condition.firmware filter).holds ⟨uid, file, analysis, firmware⟩ = true := by
      cases hjoin : query.joinFirmware with
      | none =>
          refine ⟨none, fun _ => ⟨fun _ hk => (by cases hk), fun _ => rfl⟩, fun _ filter hin => ?_⟩
          rw [(hinner .inner).2 ⟨rfl, filter, hin⟩] at hjoin
          cases hjoin
      | some kind =>
          obtain ⟨rfl, filter, hin⟩ := (hinner kind).1 hjoin
          obtain ⟨entry, hentry, -⟩ := hc _ hin
          refine ⟨some entry, fun _ => ⟨?_, fun hk => by cases hk⟩, ?_⟩
          · rintro _ ⟨⟩
            exact ⟨entry, hentry, rfl⟩
          · intro _ filter' hin'
            obtain ⟨entry', hentry', htrue⟩ := hc _ hin'
            obtain rfl : entry = entry' := Option.some.inj (hentry.symm.trans hentry')
            exact htrue
    obtain ⟨analysis, hanalysis, hanalysisTrue⟩ := hanalysis
    obtain ⟨firmware, hfirmware, hfirmwareTrue⟩ := hfirmware
    refine ⟨⟨uid, file, analysis, firmware⟩, Query.mem_rows.2 ⟨hfile, hanalysis firmware,
      (hfirmware analysis).1, (hfirmware analysis).2⟩, (hholds _).2 fun c hin => ?_, rfl⟩
    cases c with
    | file filter =>
        obtain ⟨entry, hentry, htrue⟩ := hc _ hin
        obtain rfl : file = entry := Option.some.inj (hfile.symm.trans hentry)
        exact htrue
    | firmware filter => exact hfirmwareTrue analysis filter hin
    | analysis plugin filter => exact hanalysisTrue firmware plugin filter hin

/-- A disjunction selects the objects of which one condition holds, unless the
object has no row in a joined analysis table or a condition takes the missing
firmware row of the outer join for a row. -/
theorem mem_selected_any (hany : query.any = true) (hne : query.conditions ≠ [])
    (hrow : query.joinAnalysis = true → (∀ c ∈ query.conditions, c.isAnalysis = true) ∨
      ∃ plugin entry, db.analysis.get? (uid, plugin) = some entry)
    (hnull : (∃ entry, db.firmware.get? uid = some entry) ∨
      ∀ filter, .firmware filter ∈ query.conditions → filter.isNull = false) :
    uid ∈ query.selected db ↔
      uid ∈ db.fileObject ∧ ∃ c ∈ query.conditions, HoldsOn db uid c := by
  have houter : ∀ kind, query.joinFirmware = some kind ↔
      kind = .outer ∧ ∃ filter, .firmware filter ∈ query.conditions := by
    intro kind
    rw [hjoined.firmware kind, hany, if_pos rfl]
  have hholds : ∀ row : Row S, query.holds row = true ↔ ∃ c ∈ query.conditions, c.holds row = true := by
    intro row
    rw [Query.holds, hany, if_pos rfl, List.isEmpty_eq_false_iff.2 hne, Bool.false_or, List.any_eq_true]
  rw [Query.mem_selected]
  constructor
  · rintro ⟨row, hrowMem, hc, rfl⟩
    obtain ⟨hfile, hanalysis, hfirmware, -⟩ := Query.mem_rows.1 hrowMem
    obtain ⟨c, hmem, htrue⟩ := (hholds row).1 hc
    refine ⟨Dict.mem_of_get? hfile, c, hmem, ?_⟩
    cases c with
    | file filter => exact ⟨row.file, hfile, htrue⟩
    | firmware filter =>
        have hcarried : row.firmware = db.firmware.get? row.uid :=
          hfirmware .outer ((houter _).2 ⟨rfl, filter, hmem⟩)
        rw [Condition.holds, hcarried] at htrue
        cases hget : db.firmware.get? row.uid with
        | some entry =>
            rw [hget] at htrue
            exact ⟨entry, hget, htrue⟩
        | none =>
            -- no row at all: only a comparison with null can be true of it
            rw [hget] at htrue
            have htrue : filter.isNull = true := htrue
            rcases hnull with ⟨entry, hentry⟩ | hnull
            · rw [hget] at hentry
              cases hentry
            · have hfalse := hnull filter hmem
              rw [htrue] at hfalse
              cases hfalse
    | analysis plugin filter =>
        rw [hjoined.analysis.2 ⟨plugin, filter, hmem⟩] at hanalysis
        obtain ⟨name, entry, hentry, hcarried⟩ := hanalysis
        rw [Condition.holds, hcarried, Bool.and_eq_true, decide_eq_true_eq] at htrue
        exact ⟨entry, by rw [← htrue.2]; exact hentry, htrue.1⟩
  · rintro ⟨hmem, c, hin, hc⟩
    obtain ⟨file, hfile⟩ := Dict.mem_iff.1 hmem
    have hanalysis : ∃ analysis : Option (Plugin × S.Analysis),
        (∀ firmware, Query.analysisJoined db ⟨uid, file, analysis, firmware⟩ query.joinAnalysis) ∧
        ∀ firmware plugin filter, c = .analysis plugin filter →
          c.holds ⟨uid, file, analysis, firmware⟩ = true := by
      cases c with
      | analysis plugin filter =>
          obtain ⟨entry, hentry, htrue⟩ := hc
          refine ⟨some (plugin, entry), fun _ => ?_, ?_⟩
          · rw [hjoined.analysis.2 ⟨plugin, filter, hin⟩]
            exact ⟨plugin, entry, hentry, rfl⟩
          · intro _ _ _ _
            rw [Condition.holds, Bool.and_eq_true, decide_eq_true_eq]
            exact ⟨htrue, rfl⟩
      | file filter | firmware filter =>
          cases hjoin : query.joinAnalysis with
          | false => exact ⟨none, fun _ => rfl, fun _ _ _ hk => by cases hk⟩
          | true =>
              rcases hrow hjoin with hall | ⟨plugin, entry, hentry⟩
              · have hkind := hall _ hin
                cases hkind
              · exact ⟨some (plugin, entry), fun _ => ⟨plugin, entry, hentry, rfl⟩,
                  fun _ _ _ hk => by cases hk⟩
    have hfirmware : ∃ firmware : Option S.Firmware,
        (∀ analysis, (∀ kind, query.joinFirmware = some kind →
          Query.firmwareJoined db ⟨uid, file, analysis, firmware⟩ kind) ∧
          (query.joinFirmware = none → firmware = none)) ∧
        ∀ analysis filter, c = .firmware filter →
          c.holds ⟨uid, file, analysis, firmware⟩ = true := by
      cases hjoin : query.joinFirmware with
      | none =>
          refine ⟨none, fun _ => ⟨fun _ hk => (by cases hk), fun _ => rfl⟩, ?_⟩
          rintro _ filter rfl
          rw [(houter .outer).2 ⟨rfl, filter, hin⟩] at hjoin
          cases hjoin
      | some kind =>
          obtain ⟨rfl, -⟩ := (houter kind).1 hjoin
          refine ⟨db.firmware.get? uid, fun _ => ⟨?_, fun hk => by cases hk⟩, ?_⟩
          · rintro _ ⟨⟩
            rfl
          · rintro _ filter rfl
            obtain ⟨entry, hentry, htrue⟩ := hc
            rw [Condition.holds, hentry]
            exact htrue
    obtain ⟨analysis, hanalysis, hanalysisTrue⟩ := hanalysis
    obtain ⟨firmware, hfirmware, hfirmwareTrue⟩ := hfirmware
    refine ⟨⟨uid, file, analysis, firmware⟩, Query.mem_rows.2 ⟨hfile, hanalysis firmware,
      (hfirmware analysis).1, (hfirmware analysis).2⟩, (hholds _).2 ⟨c, hin, ?_⟩, rfl⟩
    cases c with
    | file filter =>
        obtain ⟨entry, hentry, htrue⟩ := hc
        obtain rfl : file = entry := Option.some.inj (hfile.symm.trans hentry)
        exact htrue
    | firmware filter => exact hfirmwareTrue analysis filter rfl
    | analysis plugin filter => exact hanalysisTrue firmware plugin filter rfl

/-- A `$or` without a condition selects everything. -/
theorem mem_selected_empty (hany : query.any = true) (hnil : query.conditions = []) :
    uid ∈ query.selected db ↔ uid ∈ db.fileObject := by
  have hholds : ∀ row : Row S, query.holds row = true := fun row => by
    rw [Query.holds, hany, if_pos rfl, hnil, List.isEmpty_nil, Bool.true_or]
  have hanalysis : query.joinAnalysis = false := by
    rw [← Bool.not_eq_true, hjoined.analysis, hnil]
    rintro ⟨_, _, hmem⟩
    cases hmem
  have hfirmware : ∀ kind, query.joinFirmware ≠ some kind := fun kind hk => by
    obtain ⟨-, filter, hmem⟩ := (hjoined.firmware kind).1 hk
    rw [hnil] at hmem
    cases hmem
  rw [Query.mem_selected]
  constructor
  · rintro ⟨row, hrow, -, rfl⟩
    exact Dict.mem_of_get? (Query.mem_rows.1 hrow).1
  · intro hmem
    obtain ⟨file, hfile⟩ := Dict.mem_iff.1 hmem
    refine ⟨⟨uid, file, none, none⟩, Query.mem_rows.2 ⟨hfile, ?_, ?_, fun _ => rfl⟩, hholds _, rfl⟩
    · rw [hanalysis]
      exact rfl
    · exact fun kind hk => absurd hk (hfirmware kind)

end

/-! ## Databases with one object

A server may make anything of a filter. With a truth value for each condition and
one object with rows in the tables, a query is a propositional formula. -/

/-- Conditions are true of a row as an assignment says; an analysis row is its plugin. -/
def truth (a : Condition → Bool) : Semantics where
  File := Unit
  Firmware := Unit
  Analysis := Plugin
  file filter _ := a (.file filter)
  firmware filter _ := a (.firmware filter)
  analysis filter plugin := a (.analysis plugin filter)

/-- The row of the object in the table of its files, or in that of its firmware. -/
def oneRow (present : Bool) : Dict Uid Unit := if present then (∅ : Dict Uid Unit).set "uid" () else ∅

/-- The analysis rows of the object. -/
def pluginRows (plugins : List Plugin) : Dict (Uid × Plugin) Plugin :=
  plugins.foldl (fun d plugin => d.set ("uid", plugin) plugin) ∅

theorem get?_oneRow {present : Bool} {uid : Uid} :
    (oneRow present).get? uid = if present = true ∧ uid = "uid" then some () else none := by
  unfold oneRow
  cases present with
  | false => simp
  | true => simp [Dict.get?_set]

theorem get?_pluginRows {plugins : List Plugin} {uid : Uid} {plugin : Plugin} :
    (pluginRows plugins).get? (uid, plugin) =
      if uid = "uid" ∧ plugin ∈ plugins then some plugin else none := by
  have hfold : ∀ d : Dict (Uid × Plugin) Plugin,
      (plugins.foldl (fun d plugin => d.set ("uid", plugin) plugin) d).get? (uid, plugin) =
        if uid = "uid" ∧ plugin ∈ plugins then some plugin else d.get? (uid, plugin) := by
    induction plugins with
    | nil => intro d; simp
    | cons p rest ih =>
        intro d
        rw [List.foldl_cons, ih]
        by_cases hrest : uid = "uid" ∧ plugin ∈ rest
        · rw [if_pos hrest, if_pos ⟨hrest.1, List.mem_cons_of_mem _ hrest.2⟩]
        · rw [if_neg hrest]
          by_cases hp : uid = "uid" ∧ plugin = p
          · obtain ⟨rfl, rfl⟩ := hp
            rw [Dict.get?_set_self, if_pos ⟨rfl, List.mem_cons_self⟩]
          · have hne : (uid, plugin) ≠ ("uid", p) := fun heq => hp (Prod.mk.inj heq)
            rw [Dict.get?_set_ne _ _ hne, if_neg]
            rintro ⟨huid, hmem⟩
            rcases List.mem_cons.1 hmem with heq | hmem
            · exact hp ⟨huid, heq⟩
            · exact hrest ⟨huid, hmem⟩
  exact hfold ∅

theorem oneRow_fk {present : Bool} {uid : Uid} (h : uid ∈ oneRow present) : uid ∈ oneRow true := by
  obtain ⟨x, hx⟩ := Dict.mem_iff.1 h
  rw [get?_oneRow] at hx
  split at hx
  · rename_i huid
    refine Dict.mem_iff.2 ⟨(), ?_⟩
    rw [get?_oneRow, if_pos ⟨rfl, huid.2⟩]
  · cases hx

theorem pluginRows_fk {plugins : List Plugin} {e : Uid × Plugin} (h : e ∈ pluginRows plugins) :
    e.1 ∈ oneRow true := by
  obtain ⟨uid, plugin⟩ := e
  obtain ⟨x, hx⟩ := Dict.mem_iff.1 h
  rw [get?_pluginRows] at hx
  split at hx
  · rename_i huid
    refine Dict.mem_iff.2 ⟨(), ?_⟩
    rw [get?_oneRow, if_pos ⟨rfl, huid.1⟩]
  · cases hx

theorem noFiles_fk {uids : Dict Uid Unit} (e : Uid × Uid) (h : e ∈ (∅ : Finset (Uid × Uid))) :
    e.1 ∈ uids ∧ e.2 ∈ uids := absurd h (Finset.notMem_empty e)

/-- One object with an analysis row for each of some plugins, and maybe a firmware row. -/
def oneObject (a : Condition → Bool) (plugins : List Plugin) (hasFirmware : Bool) : Database (truth a) where
  fileObject := oneRow true
  firmware := oneRow hasFirmware
  analysis := pluginRows plugins
  fwFiles := ∅
  firmware_fk _ := oneRow_fk
  analysis_fk _ := pluginRows_fk
  fwFiles_fk := noFiles_fk

section

variable {a : Condition → Bool} {plugins : List Plugin} {hasFirmware : Bool}

/-- What a condition asks of the object: a row of its table, and to be assigned true. -/
def AskedOf (a : Condition → Bool) (plugins : List Plugin) (hasFirmware : Bool) (c : Condition) : Prop :=
  a c = true ∧ match c with
    | .file _ => True
    | .firmware _ => hasFirmware = true
    | .analysis plugin _ => plugin ∈ plugins

theorem holdsOn_oneObject {c : Condition} :
    HoldsOn (oneObject a plugins hasFirmware) "uid" c ↔ AskedOf a plugins hasFirmware c := by
  cases c with
  | file filter =>
      show (∃ entry, (oneRow true).get? "uid" = some entry ∧ a (.file filter) = true) ↔ _
      rw [get?_oneRow, if_pos ⟨rfl, rfl⟩]
      constructor
      · rintro ⟨-, -, h⟩
        exact ⟨h, trivial⟩
      · rintro ⟨h, -⟩
        exact ⟨(), rfl, h⟩
  | firmware filter =>
      show (∃ entry, (oneRow hasFirmware).get? "uid" = some entry ∧ a (.firmware filter) = true) ↔ _
      rw [get?_oneRow]
      constructor
      · rintro ⟨entry, hentry, h⟩
        refine ⟨h, ?_⟩
        split at hentry
        · rename_i hfw
          exact hfw.1
        · cases hentry
      · rintro ⟨h, hfw⟩
        have hfw : hasFirmware = true := hfw
        exact ⟨(), by rw [if_pos ⟨hfw, rfl⟩], h⟩
  | analysis plugin filter =>
      show (∃ entry, (pluginRows plugins).get? ("uid", plugin) = some entry ∧
        a (.analysis entry filter) = true) ↔ _
      rw [get?_pluginRows]
      constructor
      · rintro ⟨entry, hentry, h⟩
        split at hentry
        · rename_i hin
          cases hentry
          exact ⟨h, hin.2⟩
        · cases hentry
      · rintro ⟨h, hin⟩
        have hin : plugin ∈ plugins := hin
        exact ⟨plugin, by rw [if_pos ⟨rfl, hin⟩], h⟩

/-- The object is the only one. -/
theorem mem_oneObject {uid : Uid} : uid ∈ (oneObject a plugins hasFirmware).fileObject ↔ uid = "uid" := by
  show uid ∈ oneRow true ↔ _
  rw [Dict.mem_iff, get?_oneRow]
  constructor
  · rintro ⟨x, hx⟩
    split at hx
    · rename_i huid
      exact huid.2
    · cases hx
  · rintro rfl
    exact ⟨(), if_pos ⟨rfl, rfl⟩⟩

end

end QueryConversion

end FactCore
