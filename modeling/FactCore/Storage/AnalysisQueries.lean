import FactCore.Lib.Relation
import FactCore.Storage.Schema

/-! # Queries over the analysis results of a firmware

The table `analysis` beside the tables of the file objects, and
`find_missing_analyses` of `storage/db_interface_frontend.py`: for each firmware
the files that lack a result which the firmware has. The plugins of an object are
aggregated over its rows, so an object without rows is in no group.
-/

namespace FactCore

/-- A tag as it is stored: `Tag.model_dump()` without the name, which is its key. -/
structure Tag where
  value : String
  color : String
  propagate : Bool
deriving DecidableEq, Repr

/-- A row of the table `analysis`. Of the columns beside the primary key only the tags
are read here; they may be null. -/
structure AnalysisEntry where
  tags : Option (Dict String Tag)

/-- The database with the table `analysis`, whose primary key are the file and the plugin. -/
structure AnalysisDb extends Db where
  analysis : Dict (Uid × Plugin) AnalysisEntry
  analysis_fk : ∀ e, e ∈ analysis → e.1 ∈ fileObject

namespace AnalysisDb

/-- `FileObjectEntry.root_firmware.any(uid=uid)`. -/
def inFirmware (db : AnalysisDb) (uid : Uid) (fo : Uid × FileObjectEntry) : Bool :=
  decide ((uid, fo.1) ∈ db.fwFiles)

/-- `_query_all_plugins_of_object`. -/
def queryAllPluginsOfObject (db : AnalysisDb) (queryFilter : Uid × FileObjectEntry → Bool) :
    List (Uid × List Plugin) :=
  let rows := (Relation.join (fun entry fo => decide (entry.1.1 = fo.1)) db.analysis.items
    db.fileObject.items).filter fun row => queryFilter row.2
  Relation.groupBy (fun row => row.1.1.1) (fun row => row.1.1.2) rows

/-- `missing_analyses.setdefault(fw_uid, set()).add(fo_uid)`. -/
def addMissing (missing : Dict Uid (Finset Uid)) (fwUid foUid : Uid) : Dict Uid (Finset Uid) :=
  missing.set fwUid (insert foUid ((missing.get? fwUid).getD ∅))

/-- The inner loop of `find_missing_analyses`, over the files of one firmware. -/
def findMissingInFirmware (fwUid : Uid) (fwPluginList : List Plugin) (missing : Dict Uid (Finset Uid))
    (files : List (Uid × List Plugin)) : Dict Uid (Finset Uid) :=
  files.foldl (fun missing fo =>
    let missingPlugins := fwPluginList.filter fun plugin => plugin ∉ fo.2
    if missingPlugins = [] then missing else addMissing missing fwUid fo.1) missing

/-- `find_missing_analyses`. -/
def findMissingAnalyses (db : AnalysisDb) : Dict Uid (Finset Uid) :=
  (db.queryAllPluginsOfObject fun fo => fo.2.isFirmware).foldl (fun missing fw =>
    findMissingInFirmware fw.1 fw.2 missing (db.queryAllPluginsOfObject (db.inFirmware fw.1))) ∅

variable {db : AnalysisDb} {missing : Dict Uid (Finset Uid)} {uid fwUid foUid w f : Uid} {plugin : Plugin}
  {plugins : List Plugin} {queryFilter : Uid × FileObjectEntry → Bool}

/-! ## The aggregated rows -/

/-- A plugin has stored a result for the file. -/
def Analyzed (db : AnalysisDb) (uid : Uid) (plugin : Plugin) : Prop := (uid, plugin) ∈ db.analysis

/-- The query finds the objects that pass the filter and have a row, with all their plugins. -/
theorem mem_queryAllPluginsOfObject : (uid, plugins) ∈ db.queryAllPluginsOfObject queryFilter →
    (∃ entry, db.fileObject.get? uid = some entry ∧ queryFilter (uid, entry) = true) ∧
      (∃ plugin, db.Analyzed uid plugin) ∧ ∀ plugin, plugin ∈ plugins ↔ db.Analyzed uid plugin := by
  intro h
  obtain ⟨⟨row, hrow, huid⟩, rfl⟩ := Relation.mem_groupBy.1 h
  obtain ⟨⟨⟨u, p⟩, a⟩, v, entry⟩ := row
  obtain rfl : u = uid := huid
  obtain ⟨hjoin, hfilter⟩ := List.mem_filter.1 hrow
  obtain ⟨ha, hfo, hon⟩ := Relation.mem_join.1 hjoin
  obtain rfl : u = v := of_decide_eq_true hon
  refine ⟨⟨entry, Dict.get?_eq_some_iff.2 hfo, hfilter⟩,
    ⟨p, Dict.mem_of_get? (Dict.get?_eq_some_iff.2 ha)⟩, fun plugin => ?_⟩
  rw [List.mem_map]
  constructor
  · rintro ⟨⟨⟨⟨u', p'⟩, a'⟩, fo'⟩, hgroup, rfl⟩
    obtain ⟨hrows, hu'⟩ := List.mem_filter.1 hgroup
    obtain ⟨ha', -, -⟩ := Relation.mem_join.1 (List.mem_filter.1 hrows).1
    obtain rfl : u' = u := of_decide_eq_true hu'
    exact Dict.mem_of_get? (Dict.get?_eq_some_iff.2 ha')
  · intro hplugin
    obtain ⟨a', ha'⟩ := Dict.mem_iff.1 hplugin
    refine ⟨(((u, plugin), a'), (u, entry)), ?_, rfl⟩
    refine List.mem_filter.2 ⟨List.mem_filter.2 ⟨?_, hfilter⟩, decide_eq_true rfl⟩
    exact Relation.mem_join.2 ⟨Dict.get?_eq_some_iff.1 ha', hfo, decide_eq_true rfl⟩

/-- Such objects are in a group. -/
theorem exists_mem_queryAllPluginsOfObject (queryFilter : Uid × FileObjectEntry → Bool)
    {entry : FileObjectEntry} (hfo : db.fileObject.get? uid = some entry)
    (hfilter : queryFilter (uid, entry) = true) (h : db.Analyzed uid plugin) :
    ∃ plugins, (uid, plugins) ∈ db.queryAllPluginsOfObject queryFilter := by
  obtain ⟨a, ha⟩ := Dict.mem_iff.1 h
  refine ⟨_, Relation.mem_groupBy.2 ⟨⟨(((uid, plugin), a), (uid, entry)), ?_, rfl⟩, rfl⟩⟩
  refine List.mem_filter.2 ⟨?_, hfilter⟩
  exact Relation.mem_join.2 ⟨Dict.get?_eq_some_iff.1 ha, Dict.get?_eq_some_iff.1 hfo, decide_eq_true rfl⟩

/-! ## The two loops -/

/-- A file is reported for a firmware. -/
def Reported (missing : Dict Uid (Finset Uid)) (w f : Uid) : Prop := f ∈ (missing.get? w).getD ∅

theorem reported_addMissing :
    Reported (addMissing missing fwUid foUid) w f ↔ (w = fwUid ∧ f = foUid) ∨ Reported missing w f := by
  unfold Reported addMissing
  by_cases hw : w = fwUid
  · rw [hw, Dict.get?_set_self, Option.getD_some, Finset.mem_insert]
    simp only [true_and]
  · rw [Dict.get?_set_ne _ _ hw]
    simp only [hw, false_and, false_or]

/-- Some plugin of the firmware is not among those of the file. -/
def Lacks (fwPlugins foPlugins : List Plugin) : Prop := ∃ plugin ∈ fwPlugins, plugin ∉ foPlugins

theorem reported_findMissingInFirmware {files : List (Uid × List Plugin)} :
    Reported (findMissingInFirmware fwUid plugins missing files) w f ↔
      Reported missing w f ∨ (w = fwUid ∧ ∃ fo ∈ files, fo.1 = f ∧ Lacks plugins fo.2) := by
  unfold findMissingInFirmware
  induction files generalizing missing with
  | nil => simp
  | cons fo rest ih =>
      rw [List.foldl_cons, ih, List.exists_mem_cons_iff]
      have hlacks : plugins.filter (fun plugin => plugin ∉ fo.2) = [] ↔ ¬Lacks plugins fo.2 := by
        simp [List.filter_eq_nil_iff, Lacks]
      by_cases hfo : Lacks plugins fo.2
      · rw [if_neg (fun hnil => hlacks.1 hnil hfo), reported_addMissing]
        constructor
        · rintro ((⟨rfl, rfl⟩ | hm) | ⟨rfl, hrest⟩)
          · exact Or.inr ⟨rfl, Or.inl ⟨rfl, hfo⟩⟩
          · exact Or.inl hm
          · exact Or.inr ⟨rfl, Or.inr hrest⟩
        · rintro (hm | ⟨rfl, ⟨rfl, -⟩ | hrest⟩)
          · exact Or.inl (Or.inr hm)
          · exact Or.inl (Or.inl ⟨rfl, rfl⟩)
          · exact Or.inr ⟨rfl, hrest⟩
      · rw [if_pos (hlacks.2 hfo)]
        constructor
        · rintro (hm | ⟨rfl, hrest⟩)
          · exact Or.inl hm
          · exact Or.inr ⟨rfl, Or.inr hrest⟩
        · rintro (hm | ⟨rfl, ⟨-, hbad⟩ | hrest⟩)
          · exact Or.inl hm
          · exact absurd hbad hfo
          · exact Or.inr ⟨rfl, hrest⟩

theorem reported_foldl {fws : List (Uid × List Plugin)} (files : Uid → List (Uid × List Plugin)) :
    Reported (fws.foldl (fun missing fw => findMissingInFirmware fw.1 fw.2 missing (files fw.1)) missing) w f ↔
      Reported missing w f ∨
        ∃ fw ∈ fws, fw.1 = w ∧ ∃ fo ∈ files w, fo.1 = f ∧ Lacks fw.2 fo.2 := by
  induction fws generalizing missing with
  | nil => simp
  | cons fw rest ih =>
      rw [List.foldl_cons, ih, reported_findMissingInFirmware, List.exists_mem_cons_iff, or_assoc]
      refine or_congr_right (or_congr_left ?_)
      constructor
      · rintro ⟨rfl, hfo⟩
        exact ⟨rfl, hfo⟩
      · rintro ⟨rfl, hfo⟩
        exact ⟨rfl, hfo⟩

/-! ## What is reported -/

/-- The uid is that of an uploaded firmware. -/
def IsFirmware (db : AnalysisDb) (w : Uid) : Prop :=
  ∃ entry, db.fileObject.get? w = some entry ∧ entry.isFirmware = true

/-- The file belongs to the firmware and lacks a result which the firmware has. -/
def Missing (db : AnalysisDb) (w f : Uid) : Prop :=
  db.IsFirmware w ∧ (w, f) ∈ db.fwFiles ∧ ∃ plugin, db.Analyzed w plugin ∧ ¬db.Analyzed f plugin

/-- The files that are reported have a result of some plugin. -/
theorem reported_iff : Reported db.findMissingAnalyses w f ↔ db.Missing w f ∧ ∃ plugin, db.Analyzed f plugin := by
  have hempty : ¬Reported ∅ w f := Finset.notMem_empty f
  rw [findMissingAnalyses, reported_foldl fun w => db.queryAllPluginsOfObject (db.inFirmware w),
    or_iff_right hempty]
  constructor
  · rintro ⟨⟨w', fwPlugins⟩, hfw, rfl, ⟨f', foPlugins⟩, hfo, rfl, plugin, hplugin, hlack⟩
    obtain ⟨hfirmware, -, hfwPlugins⟩ := mem_queryAllPluginsOfObject hfw
    obtain ⟨⟨entry, -, hroot⟩, hanalyzed, hfoPlugins⟩ := mem_queryAllPluginsOfObject hfo
    refine ⟨⟨hfirmware, of_decide_eq_true hroot, plugin, (hfwPlugins plugin).1 hplugin, ?_⟩, hanalyzed⟩
    exact fun hf => hlack ((hfoPlugins plugin).2 hf)
  · rintro ⟨⟨⟨entry, hentry, hfirmware⟩, hroot, plugin, hw, hf⟩, plugin', hf'⟩
    obtain ⟨fwPlugins, hfw⟩ := exists_mem_queryAllPluginsOfObject
      (fun fo => fo.2.isFirmware) hentry hfirmware hw
    obtain ⟨foEntry, hfoEntry⟩ := Dict.mem_iff.1 (db.fwFiles_fk _ hroot).2
    obtain ⟨foPlugins, hfo⟩ := exists_mem_queryAllPluginsOfObject
      (db.inFirmware w) hfoEntry (decide_eq_true hroot) hf'
    refine ⟨(w, fwPlugins), hfw, rfl, (f, foPlugins), hfo, rfl, plugin, ?_, ?_⟩
    · exact ((mem_queryAllPluginsOfObject hfw).2.2 plugin).2 hw
    · exact fun hmem => hf (((mem_queryAllPluginsOfObject hfo).2.2 plugin).1 hmem)

/-- Exactly the missing analyses are reported iff each file of an analyzed firmware has
a row of its own in the analysis table. -/
theorem findMissingAnalyses_iff (db : AnalysisDb) :
    (∀ w f, Reported db.findMissingAnalyses w f ↔ db.Missing w f) ↔
      ∀ w f, db.IsFirmware w → (w, f) ∈ db.fwFiles → (∃ plugin, db.Analyzed w plugin) →
        ∃ plugin, db.Analyzed f plugin := by
  constructor
  · rintro h w f hfirmware hroot ⟨plugin, hw⟩
    by_contra hnone
    have hmissing : db.Missing w f := ⟨hfirmware, hroot, plugin, hw, fun hf => hnone ⟨plugin, hf⟩⟩
    exact hnone (reported_iff.1 ((h w f).2 hmissing)).2
  · intro h w f
    rw [reported_iff, and_iff_left_iff_imp]
    rintro ⟨hfirmware, hroot, plugin, hw, -⟩
    exact h w f hfirmware hroot ⟨plugin, hw⟩

/-- A firmware and a file of it. -/
def imageAndFile : Db :=
  ((Db.empty.putFileObject "w" ⟨"", "fw.img", 0, 1, [], true⟩).putFileObject "f"
    ⟨"", "init", 1, 1, [], false⟩).addFwFiles {("w", "f")}

/-- The rows of a database in which the firmware was analyzed and the file was not. -/
def imageAnalyzed : Dict (Uid × Plugin) AnalysisEntry := Dict.empty.set ("w", "file_type") ⟨none⟩

theorem mem_imageAnalyzed {e : Uid × Plugin} : e ∈ imageAnalyzed ↔ e = ("w", "file_type") := by
  rw [imageAnalyzed, Dict.mem_set, or_iff_left]
  exact Dict.notMem_empty e

theorem imageAnalyzed_fk (e : Uid × Plugin) (h : e ∈ imageAnalyzed) : e.1 ∈ imageAndFile.fileObject := by
  obtain rfl := mem_imageAnalyzed.1 h
  decide

/-- A firmware that was analyzed, and a file of it that was not. -/
def lostFile : AnalysisDb where
  toDb := imageAndFile
  analysis := imageAnalyzed
  analysis_fk := imageAnalyzed_fk

/-- The file without any result is not reported. -/
theorem lostFile_not_reported :
    ¬∀ w f, Reported lostFile.findMissingAnalyses w f ↔ lostFile.Missing w f := by
  intro h
  have hnone : ∀ plugin, ¬lostFile.Analyzed "f" plugin := by
    intro plugin hf
    have heq : "f" = "w" := congrArg Prod.fst (mem_imageAnalyzed.1 hf)
    exact absurd heq (by decide)
  have hmissing : lostFile.Missing "w" "f" :=
    ⟨⟨⟨"", "fw.img", 0, 1, [], true⟩, rfl, rfl⟩, by decide, "file_type", mem_imageAnalyzed.2 rfl, hnone _⟩
  obtain ⟨-, plugin, hf⟩ := reported_iff.1 ((h "w" "f").2 hmissing)
  exact hnone plugin hf

end AnalysisDb

end FactCore
