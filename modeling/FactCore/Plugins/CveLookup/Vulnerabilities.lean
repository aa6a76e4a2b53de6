import Mathlib.Data.List.Infix
import Mathlib.Data.List.ReduceOption
import FactCore.Lib.Paths
import FactCore.Plugins.CveLookup.BusyboxCveFilter
import FactCore.Plugins.CveLookup.CveTables

/-! # The vulnerabilities that are reported

`Lookup.lookup_vulnerabilities` of `internal/lookup.py`: the product is searched in the
CPEs by all phrases of its name, and each association whose range the version lies in is
reported with its CVE. The lookup is traced back to the feed that was stored.

The scores of a CVE are a column that is only handed on; they are a parameter here.
-/

namespace FactCore

namespace CveLookup

open Relation (firstRows)

/-! ## The lookup -/

/-- `CveMatch`, with the items of `scores`. -/
structure CveMatch where
  id : String
  cpeVersion : String
  scores : List (String × String)
deriving DecidableEq

/-- `terms[i:j]` for `i, j in combinations(range(len(terms) + 1), 2)`. -/
def phrases {α : Type} (terms : List α) : List (List α) :=
  (List.range (terms.length + 1)).flatMap fun i =>
    ((List.range (terms.length + 1)).filter fun j => i < j).map fun j => (terms.drop i).take (j - i)

section

variable (u : UnicodeTables)

/-- `'_'.join(words).lower()` -/
def searchTerm (words : List (List Char)) : String :=
  String.ofList (u.lower (['_'].intercalate words))

/-- `_generate_search_terms`, with `str.isdigit` of a character as a parameter. -/
def generateSearchTerms (isDigit : Char → Bool) (productName : String) : List String :=
  ((phrases (productName.toList.splitOn ' ')).map (searchTerm u)).filter fun term =>
    1 < term.length ∧ ¬term.toList.all isDigit

end

/-- The condition on the version as `_build_version_string` writes it. -/
def rangeString (a : Association) : String :=
  let result :=
    if a.versionStartIncluding ≠ "" then a.versionStartIncluding ++ " ≤ version"
    else if a.versionStartExcluding ≠ "" then a.versionStartExcluding ++ " < version"
    else "version"
  if a.versionEndIncluding ≠ "" then result ++ " ≤ " ++ a.versionEndIncluding
  else if a.versionEndExcluding ≠ "" then result ++ " < " ++ a.versionEndExcluding
  else result

/-- `_build_version_string`; without bounds the CPE must be there. -/
def buildVersionString (a : Association) (cpe : Option Cpe) : Option String :=
  if a.hasBoundary then some (rangeString a) else cpe.map Cpe.version

section

variable (u : UnicodeTables) (isDigit : Char → Bool) (cvssScore : String → List (String × String))

/-- One round of the loop of `lookup_vulnerabilities`. -/
def reportOf (cves : Dict String Cve) (cpeMatches : Dict String Cpe) (a : Association) :
    Option (Option CveMatch) :=
  match cves.get? a.cveId with
  | none => some none
  | some cve => (buildVersionString a (cpeMatches.get? a.cpeId)).map fun cpeVersion =>
      some ⟨a.cveId, cpeVersion, cvssScore cve.cveId⟩

/-- `lookup_vulnerabilities` for a file with some content. -/
def lookupVulnerabilities (content : List UInt8) (db : CveDb) (matchAny : Bool)
    (productName requestedVersion : String) : Option (List CveMatch) :=
  let productTerms := generateSearchTerms u isDigit productName
  let version := replaceWildcard requestedVersion
  let cpeMatches := matchCpes db productTerms
  if cpeMatches.values.length = 0 then some []
  else
    let associationMatches := findMatchingAssociations u db matchAny cpeMatches version
    let cves := getCves db (associationMatches.map Association.cveId)
    let cves := if "busybox" ∈ productTerms then filterBusyboxCves u content cves else cves
    (associationMatches.mapM (reportOf cvssScore cves cpeMatches)).map List.reduceOption

/-! ## What should be reported -/

/-- An item of a feed, an entry of it for a CPE, and the CPE. -/
structure Finding where
  item : CveItem
  entry : CpeEntry
  cpe : Cpe

/-- The row that is stored for a finding. -/
def Finding.association (f : Finding) : Association := createAssociation f.item.id f.entry

/-- How a finding is reported. -/
def Finding.report (f : Finding) : CveMatch :=
  ⟨f.item.id, if f.association.hasBoundary then rangeString f.association else f.cpe.version,
    cvssScore f.item.id⟩

/-- The summary names no BusyBox tool, or one that is found in the file, alone before it stands
behind an underscore; if there are no tools in the file, nothing is required. -/
def Relevant (content : List UInt8) (summary : String) : Prop :=
  getBusyboxComponents content = [] ∨ (∀ tool, ¬Names u tool summary) ∨
    ∃ tool ∈ getBusyboxComponents content, tool ∈ group2 ∧
      MentionedBare u tool.toList summary.toList

/-- The version is that of the CPE, or it lies in the range of the entry. -/
def Concerns (matchAny : Bool) (version : String) (entry : CpeEntry) (cpe : Cpe) : Prop :=
  version ∉ ["ANY", "N/A"] ∧
    (cpe.version = version ∨ (version ≠ "ANY, N/A" ∧
      ((entry.Bounded ∧ InRange u entry version) ∨
        (¬entry.Bounded ∧ matchAny = true ∧ cpe.version = "ANY"))))

/-- A finding for a product in a version. The item is the first one of the feed with its id,
and the entry the first vulnerable one of the item for its CPE. -/
structure Finding.Applies (content : List UInt8) (feed : List CveItem) (matchAny : Bool)
    (productName requestedVersion : String) (f : Finding) : Prop where
  item : feed.find? (fun i => i.id = f.item.id) = some f.item
  entry : f.entry ∈ (f.item.entriesFor f.entry.criteria).head?
  cpe : createCpe f.entry.criteria = some f.cpe
  product : ∃ words, words ≠ [] ∧ words <:+: productName.toList.splitOn ' ' ∧
    f.cpe.product = searchTerm u words ∧ 1 < f.cpe.product.length ∧
      ¬f.cpe.product.toList.all isDigit
  version : Concerns u matchAny (replaceWildcard requestedVersion) f.entry f.cpe
  relevant : "busybox" ∈ generateSearchTerms u isDigit productName →
    Relevant u content (extractEnglishSummary f.item.descriptions)

end

/-! ## Search terms -/

theorem mem_phrases {α : Type} {terms words : List α} :
    words ∈ phrases terms ↔ words ≠ [] ∧ words <:+: terms := by
  simp only [phrases, List.mem_flatMap, List.mem_map, List.mem_filter, List.mem_range,
    decide_eq_true_eq]
  constructor
  · rintro ⟨i, hi, j, ⟨hj, hij⟩, rfl⟩
    refine ⟨?_, (List.take_prefix _ _).isInfix.trans (List.drop_suffix _ _).isInfix⟩
    rw [Ne, List.take_eq_nil_iff, List.drop_eq_nil_iff]
    omega
  · rintro ⟨hne, before, after, rfl⟩
    have hpos := List.length_pos_iff.2 hne
    refine ⟨before.length, ?_, before.length + words.length, ⟨?_, by omega⟩, ?_⟩
    · simp only [List.length_append]
      omega
    · simp only [List.length_append]
      omega
    · rw [List.append_assoc, List.drop_left, Nat.add_sub_cancel_left, List.take_left]

theorem mem_generateSearchTerms {u : UnicodeTables} {isDigit : Char → Bool} {productName term : String} :
    term ∈ generateSearchTerms u isDigit productName ↔
      ∃ words, words ≠ [] ∧ words <:+: productName.toList.splitOn ' ' ∧ term = searchTerm u words ∧
        1 < term.length ∧ ¬term.toList.all isDigit := by
  simp only [generateSearchTerms, List.mem_filter, List.mem_map, mem_phrases, decide_eq_true_eq]
  constructor
  · rintro ⟨⟨words, ⟨hne, hinfix⟩, rfl⟩, hlength, hdigit⟩
    exact ⟨words, hne, hinfix, rfl, hlength, hdigit⟩
  · rintro ⟨words, hne, hinfix, rfl, hlength, hdigit⟩
    exact ⟨⟨words, ⟨hne, hinfix⟩, rfl⟩, hlength, hdigit⟩

example : generateSearchTerms asciiTables Pep440.isDigit "Linux Kernel 2" =
    ["linux", "linux_kernel", "linux_kernel_2", "kernel", "kernel_2"] := by
  decide +kernel

/-! ## What is stored for a feed -/

theorem createCve_fields {item : CveEntry} {row : Cve} (h : createCve item = some row) :
    row.cveId = item.cveId ∧ row.summary = item.summary := by
  obtain ⟨year, -, rfl⟩ := Option.map_eq_some_iff.1 h
  exact ⟨rfl, rfl⟩

theorem createCpe_cpeId {cpeId : String} {row : Cpe} (h : createCpe cpeId = some row) :
    row.cpeId = cpeId := by
  unfold createCpe at h
  split at h
  · obtain rfl := Option.some.inj h
    rfl
  · cases h

section

variable {feed : List CveItem} {chunkSize : ℕ} {db : CveDb} {item : CveItem} {e : CpeEntry}
  {a : Association}

theorem mem_firstRows_feed {entry : CveEntry} :
    entry ∈ firstRows CveEntry.cveId (feed.map extractDataFromCve) ↔
      ∃ item, feed.find? (fun i => i.id = item.id) = some item ∧ entry = extractDataFromCve item := by
  rw [Relation.mem_firstRows, List.find?_map, Option.map_eq_some_iff]
  constructor
  · rintro ⟨item, hitem, rfl⟩
    exact ⟨item, hitem, rfl⟩
  · rintro ⟨item, hitem, rfl⟩
    exact ⟨item, hitem, rfl⟩

theorem mem_cpeEntries :
    e ∈ (extractDataFromCve item).cpeEntries ↔ e ∈ (item.entriesFor e.criteria).head? := by
  rw [extractDataFromCve_cpeEntries, Relation.mem_firstRows, CveItem.entriesFor, List.head?_filter]
  rfl

theorem mem_associations_values
    (hstored : addCveItems chunkSize (feed.map extractDataFromCve) = some db) :
    a ∈ db.associations.values ↔ ∃ item e, feed.find? (fun i => i.id = item.id) = some item ∧
      e ∈ (item.entriesFor e.criteria).head? ∧ a = createAssociation item.id e := by
  rw [Dict.mem_values]
  simp only [get?_addCveItems hstored, mem_firstRows_feed]
  constructor
  · rintro ⟨key, _, ⟨item, hitem, rfl⟩, e, he, ha, -⟩
    exact ⟨item, e, hitem, mem_cpeEntries.1 he, ha⟩
  · rintro ⟨item, e, hitem, he, ha⟩
    exact ⟨(item.id, e.criteria), _, ⟨item, hitem, rfl⟩, e, mem_cpeEntries.2 he, ha, rfl⟩

/-- The row of a CVE. -/
theorem exists_cve (hstored : addCveItems chunkSize (feed.map extractDataFromCve) = some db)
    (hitem : feed.find? (fun i => i.id = item.id) = some item) :
    ∃ cve, db.cves.get? item.id = some cve ∧ cve.cveId = item.id ∧
      cve.summary = extractEnglishSummary item.descriptions := by
  have htables := tablesOf_addCveItems hstored
  have hrow : extractDataFromCve item ∈
      firstRows CveEntry.cveId (feed.map extractDataFromCve) :=
    mem_firstRows_feed.2 ⟨item, hitem, rfl⟩
  obtain ⟨cve, hcve⟩ := htables.cveRows _ hrow
  obtain ⟨hid, hsummary⟩ := createCve_fields hcve
  exact ⟨cve, (htables.cves _ _).2 ⟨_, hrow, hcve, hid⟩, hid, hsummary⟩

/-- The row of the CPE of an entry. -/
theorem exists_cpe (hstored : addCveItems chunkSize (feed.map extractDataFromCve) = some db)
    (hitem : feed.find? (fun i => i.id = item.id) = some item)
    (he : e ∈ (item.entriesFor e.criteria).head?) :
    ∃ cpe, createCpe e.criteria = some cpe ∧ db.cpes.get? e.criteria = some cpe := by
  have htables := tablesOf_addCveItems hstored
  have hrow : extractDataFromCve item ∈
      firstRows CveEntry.cveId (feed.map extractDataFromCve) :=
    mem_firstRows_feed.2 ⟨item, hitem, rfl⟩
  have hid : e.criteria ∈ (extractDataFromCve item).cpeEntries.map CpeEntry.criteria :=
    List.mem_map_of_mem (mem_cpeEntries.2 he)
  obtain ⟨cpe, hcpe⟩ := htables.cpeRows _ hrow _ hid
  exact ⟨cpe, hcpe, (htables.cpes _ _).2 ⟨⟨_, hrow, _, hid, hcpe⟩, createCpe_cpeId hcpe⟩⟩

end

/-! ## Reading the tables -/

section

variable {items : List CveEntry} {db : CveDb}

theorem get?_matchCpes_iff (htables : TablesOf items db) {products : List String} {cpeId : String}
    {cpe : Cpe} : (matchCpes db products).get? cpeId = some cpe ↔
      db.cpes.get? cpeId = some cpe ∧ cpe.product ∈ products := by
  rw [matchCpes, Dict.get?_select fun k row hrow => ((htables.cpes k row).1 hrow).2, decide_eq_true_eq]

theorem get?_getCves_iff (htables : TablesOf items db) {cveIds : List String} {cveId : String}
    {cve : Cve} : (getCves db cveIds).get? cveId = some cve ↔
      db.cves.get? cveId = some cve ∧ cve.cveId ∈ cveIds := by
  have hkey : ∀ k row, db.cves.get? k = some row → row.cveId = k := by
    intro k row hrow
    obtain ⟨_, _, _, hid⟩ := (htables.cves k row).1 hrow
    exact hid
  rw [getCves, Dict.get?_select hkey, decide_eq_true_eq]

/-- The CVEs that the filter for BusyBox leaves. -/
theorem get?_filterBusyboxCves {u : UnicodeTables} {content : List UInt8} {cves : Dict String Cve}
    {cveId : String} {cve : Cve} : (filterBusyboxCves u content cves).get? cveId = some cve ↔
      cves.get? cveId = some cve ∧ Relevant u content cve.summary := by
  rw [filterBusyboxCves, Relevant]
  split_ifs with hempty
  · simp [hempty]
  · simp only [hempty, false_or]
    constructor
    · intro hget
      have hcve : cves.get? cveId = some cve := by
        rw [filterCvesByComponent, Dict.get?_filter] at hget
        exact hget.1
      exact ⟨hcve, (get?_filterCvesByComponent u content hcve).1 hget⟩
    · rintro ⟨hcve, hnames⟩
      exact (get?_filterCvesByComponent u content hcve).2 hnames

end

/-! ## The associations that match -/

section

variable {u : UnicodeTables} {feed : List CveItem} {chunkSize : ℕ} {db : CveDb} {matchAny : Bool}
  {terms : List String} {version : String} {cveId : String} {e : CpeEntry}

/-- A row is found if and only if its CPE is one of the product and the version is concerned. -/
theorem mem_findMatchingAssociations_iff {items : List CveEntry} (htables : TablesOf items db) :
    createAssociation cveId e ∈ findMatchingAssociations u db matchAny (matchCpes db terms) version ↔
      createAssociation cveId e ∈ db.associations.values ∧
        ∃ cpe, db.cpes.get? e.criteria = some cpe ∧ cpe.product ∈ terms ∧
          Concerns u matchAny version e cpe := by
  unfold findMatchingAssociations Concerns
  by_cases hplaceholder : version ∈ ["ANY", "N/A"]
  · simp [hplaceholder]
  rw [if_neg hplaceholder]
  simp only [List.mem_flatMap, hplaceholder, not_false_eq_true, true_and]
  have hvalues : ∀ cpe, cpe ∈ (matchCpes db terms).values ↔
      db.cpes.get? cpe.cpeId = some cpe ∧ cpe.product ∈ terms := by
    intro cpe
    rw [Dict.mem_values]
    constructor
    · rintro ⟨k, hk⟩
      rw [get?_matchCpes hk]
      exact (get?_matchCpes_iff htables).1 hk
    · exact fun h => ⟨cpe.cpeId, (get?_matchCpes_iff htables).2 h⟩
  have hrows : ∀ cpe ∈ (matchCpes db terms).values,
      (createAssociation cveId e ∈ ((getAssociations db
        ((matchCpes db terms).values.map Cpe.cpeId)).get? cpe.cpeId).getD [] ↔
          createAssociation cveId e ∈ db.associations.values ∧ e.criteria = cpe.cpeId) :=
    fun cpe hcpe => mem_getAssociations (List.mem_map_of_mem hcpe)
  -- the rows of a CPE in the version that is asked for are all taken, the others by their range
  have hbody : ∀ cpe ∈ (matchCpes db terms).values,
      (createAssociation cveId e ∈ (if cpe.version = version then
          ((getAssociations db ((matchCpes db terms).values.map Cpe.cpeId)).get? cpe.cpeId).getD []
        else versionInBoundaries u db matchAny
          (((getAssociations db ((matchCpes db terms).values.map Cpe.cpeId)).get? cpe.cpeId).getD [])
            version) ↔
        (createAssociation cveId e ∈ db.associations.values ∧ e.criteria = cpe.cpeId) ∧
          (cpe.version = version ∨ (version ≠ "ANY, N/A" ∧
            ((e.Bounded ∧ InRange u e version) ∨
              (¬e.Bounded ∧ matchAny = true ∧ cpe.version = "ANY"))))) := by
    intro cpe hcpe
    have hrow := (hvalues cpe).1 hcpe
    split_ifs with hsame
    · rw [hrows cpe hcpe]
      simp [hsame]
    · by_cases hboth : version = "ANY, N/A"
      · have hno : cpe.version ≠ "ANY, N/A" := hboth ▸ hsame
        simp [versionInBoundaries, hboth, hno]
      · rw [mem_versionInBoundaries hboth, hrows cpe hcpe]
        refine and_congr_right fun hid => ?_
        have hget : db.cpes.get? e.criteria = some cpe := hid.2 ▸ hrow.1
        simp [ReportsEntry, AnyMatch, hget, hsame, hboth]
  constructor
  · rintro ⟨cpe, hcpe, hmem⟩
    obtain ⟨⟨hrow, hid⟩, hversion⟩ := (hbody cpe hcpe).1 hmem
    obtain ⟨hget, hproduct⟩ := (hvalues cpe).1 hcpe
    exact ⟨hrow, cpe, hid ▸ hget, hproduct, hversion⟩
  · rintro ⟨hrow, cpe, hget, hproduct, hversion⟩
    have hid : cpe.cpeId = e.criteria := ((htables.cpes _ _).1 hget).2
    have hcpe : cpe ∈ (matchCpes db terms).values := (hvalues cpe).2 ⟨hid.symm ▸ hget, hproduct⟩
    exact ⟨cpe, hcpe, (hbody cpe hcpe).2 ⟨⟨hrow, hid.symm⟩, hversion⟩⟩

/-- The rows that are read for a CPE are rows of the table. -/
theorem getAssociations_sublist {cpeIds : List String} {cpeId : String} :
    (((getAssociations db cpeIds).get? cpeId).getD []).Sublist db.associations.values := by
  rw [getAssociations, Dict.get?_foldl_extend Association.cpeId fun a => [a]]
  split_ifs
  · simp only [Dict.get?_empty, Option.getD_none, List.nil_append, Option.getD_some,
      List.flatMap_singleton']
    exact List.filter_sublist.trans List.filter_sublist
  · exact List.nil_sublist _

/-- No row is found twice. -/
theorem nodup_findMatchingAssociations
    (hstored : addCveItems chunkSize (feed.map extractDataFromCve) = some db) :
    ((findMatchingAssociations u db matchAny (matchCpes db terms) version).map
      fun a => (a.cveId, a.cpeId)).Nodup := by
  have htables := tablesOf_addCveItems hstored
  have hkeys : (db.associations.values.map fun a => (a.cveId, a.cpeId)).Nodup := by
    have hvalues : (db.associations.values.map fun a => (a.cveId, a.cpeId)) =
        db.associations.keys := by
      refine Dict.map_values fun k a ha => ?_
      obtain ⟨_, -, _, -, rfl, hk⟩ := (get?_addCveItems hstored k a).1 ha
      exact hk.symm
    rw [hvalues]
    exact db.associations.nodup
  have hcpes : ((matchCpes db terms).values.map Cpe.cpeId).Nodup := by
    rw [Dict.map_values fun k cpe hcpe => get?_matchCpes hcpe]
    exact (matchCpes db terms).nodup
  unfold findMatchingAssociations
  split_ifs
  · exact List.nodup_nil
  simp only [List.map_flatMap]
  -- whatever is taken for a CPE, it is taken from the rows of the CPE
  have htaken : ∀ cpe : Cpe, (if cpe.version = version then
      ((getAssociations db ((matchCpes db terms).values.map Cpe.cpeId)).get? cpe.cpeId).getD []
    else versionInBoundaries u db matchAny
      (((getAssociations db ((matchCpes db terms).values.map Cpe.cpeId)).get? cpe.cpeId).getD [])
        version).Sublist
      (((getAssociations db ((matchCpes db terms).values.map Cpe.cpeId)).get? cpe.cpeId).getD []) := by
    intro cpe
    split_ifs
    · exact List.Sublist.refl _
    · unfold versionInBoundaries
      split_ifs
      · exact List.nil_sublist _
      · exact List.filter_sublist
  rw [List.nodup_flatMap]
  refine ⟨fun cpe _ => ?_, ?_⟩
  · exact List.Nodup.sublist (((htaken cpe).trans getAssociations_sublist).map _) hkeys
  · refine (List.pairwise_map.1 hcpes).imp_of_mem ?_
    intro cpe cpe' hcpe hcpe' hne key hkey hkey'
    obtain ⟨a, ha, rfl⟩ := List.mem_map.1 hkey
    obtain ⟨a', ha', heq⟩ := List.mem_map.1 hkey'
    have hid := (mem_getAssociations (List.mem_map_of_mem hcpe)).1 ((htaken cpe).subset ha)
    have hid' := (mem_getAssociations (List.mem_map_of_mem hcpe')).1 ((htaken cpe').subset ha')
    exact hne (hid.2.symm.trans ((Prod.mk.inj heq).2.symm.trans hid'.2))

end

/-! ## What is reported -/

section

variable {u : UnicodeTables} {isDigit : Char → Bool} {cvssScore : String → List (String × String)}
  {content : List UInt8} {feed : List CveItem} {chunkSize : ℕ} {db : CveDb} {matchAny : Bool}
  {productName requestedVersion : String} {a : Association} {f : Finding}

/-- The finding of a row. -/
def findingOf (feed : List CveItem) (a : Association) : Option Finding := do
  let item ← feed.find? fun i => i.id = a.cveId
  let entry ← (item.entriesFor a.cpeId).head?
  let cpe ← createCpe a.cpeId
  return ⟨item, entry, cpe⟩

/-- A row and the finding that it was stored for. -/
structure Stored (feed : List CveItem) (a : Association) (f : Finding) : Prop where
  item : feed.find? (fun i => i.id = f.item.id) = some f.item
  entry : f.entry ∈ (f.item.entriesFor f.entry.criteria).head?
  cpe : createCpe f.entry.criteria = some f.cpe
  row : a = f.association

theorem Stored.findingOf (h : Stored feed a f) : findingOf feed a = some f := by
  obtain ⟨hitem, hentry, hcpe, rfl⟩ := h
  rw [Option.mem_def] at hentry
  show ((feed.find? fun i => i.id = f.item.id).bind fun item =>
    ((item.entriesFor f.entry.criteria).head?).bind fun entry =>
      (createCpe f.entry.criteria).bind fun cpe => some (⟨item, entry, cpe⟩ : Finding)) = some f
  rw [hitem, Option.bind_some, hentry, Option.bind_some, hcpe, Option.bind_some]

/-- Every row has its finding, and the CPE is in the database. -/
theorem exists_stored (hstored : addCveItems chunkSize (feed.map extractDataFromCve) = some db)
    (ha : a ∈ db.associations.values) :
    ∃ f, Stored feed a f ∧ db.cpes.get? f.entry.criteria = some f.cpe := by
  obtain ⟨item, e, hitem, he, rfl⟩ := (mem_associations_values hstored).1 ha
  obtain ⟨cpe, hcpe, hget⟩ := exists_cpe hstored hitem he
  exact ⟨⟨item, e, cpe⟩, ⟨hitem, he, hcpe, rfl⟩, hget⟩

/-- The rows that the lookup finds for a product. -/
def matchesFor (u : UnicodeTables) (isDigit : Char → Bool) (db : CveDb) (matchAny : Bool)
    (productName requestedVersion : String) : List Association :=
  findMatchingAssociations u db matchAny (matchCpes db (generateSearchTerms u isDigit productName))
    (replaceWildcard requestedVersion)

theorem mem_values_of_mem_matchesFor
    (hstored : addCveItems chunkSize (feed.map extractDataFromCve) = some db)
    (ha : a ∈ matchesFor u isDigit db matchAny productName requestedVersion) :
    a ∈ db.associations.values := by
  have heq : a = createAssociation a.cveId ⟨a.cpeId, a.versionStartIncluding,
    a.versionStartExcluding, a.versionEndIncluding, a.versionEndExcluding⟩ := rfl
  rw [matchesFor, heq, mem_findMatchingAssociations_iff (tablesOf_addCveItems hstored)] at ha
  exact ha.1

/-- What is left of a finding besides its relevance. -/
theorem mem_matchesFor (hstored : addCveItems chunkSize (feed.map extractDataFromCve) = some db)
    (hf : Stored feed a f) :
    a ∈ matchesFor u isDigit db matchAny productName requestedVersion ↔
      f.cpe.product ∈ generateSearchTerms u isDigit productName ∧
        Concerns u matchAny (replaceWildcard requestedVersion) f.entry f.cpe := by
  have hrow : a ∈ db.associations.values :=
    (mem_associations_values hstored).2 ⟨f.item, f.entry, hf.item, hf.entry, hf.row⟩
  have hget : db.cpes.get? f.entry.criteria = some f.cpe := by
    obtain ⟨cpe, hcpe, hget⟩ := exists_cpe hstored hf.item hf.entry
    rw [hget, ← hcpe, hf.cpe]
  rw [hf.row, Finding.association] at hrow ⊢
  rw [matchesFor, mem_findMatchingAssociations_iff (tablesOf_addCveItems hstored)]
  constructor
  · rintro ⟨-, cpe, hcpe, hproduct, hversion⟩
    obtain rfl := Option.some.inj (hget.symm.trans hcpe)
    exact ⟨hproduct, hversion⟩
  · rintro ⟨hproduct, hversion⟩
    exact ⟨hrow, f.cpe, hget, hproduct, hversion⟩

/-- Whether the CVE of a finding is left by the filter for BusyBox. -/
def Finding.Relevant (u : UnicodeTables) (isDigit : Char → Bool) (content : List UInt8)
    (productName : String) (f : Finding) : Prop :=
  "busybox" ∈ generateSearchTerms u isDigit productName →
    CveLookup.Relevant u content (extractEnglishSummary f.item.descriptions)

theorem applies_iff : f.Applies u isDigit content feed matchAny productName requestedVersion ↔
    Stored feed f.association f ∧ f.cpe.product ∈ generateSearchTerms u isDigit productName ∧
      Concerns u matchAny (replaceWildcard requestedVersion) f.entry f.cpe ∧
        f.Relevant u isDigit content productName := by
  rw [mem_generateSearchTerms]
  constructor
  · rintro ⟨hitem, hentry, hcpe, hproduct, hversion, hrelevant⟩
    exact ⟨⟨hitem, hentry, hcpe, rfl⟩, hproduct, hversion, hrelevant⟩
  · rintro ⟨⟨hitem, hentry, hcpe, -⟩, hproduct, hversion, hrelevant⟩
    exact ⟨hitem, hentry, hcpe, hproduct, hversion, hrelevant⟩

variable (u isDigit content productName) in
/-- The CVE of a row is left if and only if the finding is relevant. -/
theorem exists_cve_left (hstored : addCveItems chunkSize (feed.map extractDataFromCve) = some db)
    {rows : List Association} (ha : a ∈ rows) (hf : Stored feed a f) :
    ∃ cve, cve.cveId = f.item.id ∧
      ∀ row, (if "busybox" ∈ generateSearchTerms u isDigit productName then
          filterBusyboxCves u content (getCves db (rows.map Association.cveId))
        else getCves db (rows.map Association.cveId)).get? a.cveId = some row ↔
          row = cve ∧ f.Relevant u isDigit content productName := by
  obtain ⟨cve, hget, hid, hsummary⟩ := exists_cve hstored hf.item
  have hcveId : a.cveId = f.item.id := by
    rw [hf.row]
    rfl
  have hcves : ∀ row, (getCves db (rows.map Association.cveId)).get? a.cveId = some row ↔
      row = cve := by
    intro row
    rw [get?_getCves_iff (tablesOf_addCveItems hstored), hcveId, hget]
    constructor
    · rintro ⟨hsame, -⟩
      exact (Option.some.inj hsame).symm
    · rintro rfl
      refine ⟨rfl, ?_⟩
      rw [hid, ← hcveId]
      exact List.mem_map_of_mem ha
  refine ⟨cve, hid, fun row => ?_⟩
  rw [Finding.Relevant]
  split_ifs with hbusybox
  · rw [get?_filterBusyboxCves, hcves, ← hsummary]
    simp only [hbusybox, true_imp_iff]
    refine and_congr_right ?_
    rintro rfl
    rfl
  · simp [hcves, hbusybox]

/-- The report of a row. -/
theorem reportOf_stored {cves : Dict String Cve} {cpeMatches : Dict String Cpe} {cve : Cve}
    [Decidable (f.Relevant u isDigit content productName)] (hf : Stored feed a f)
    (hid : cve.cveId = f.item.id) (hcpe : cpeMatches.get? a.cpeId = some f.cpe)
    (hleft : ∀ row, cves.get? a.cveId = some row ↔
      row = cve ∧ f.Relevant u isDigit content productName) :
    reportOf cvssScore cves cpeMatches a =
      some (if f.Relevant u isDigit content productName then some (f.report cvssScore) else none) := by
  rw [reportOf]
  split_ifs with hrelevant
  · rw [(hleft cve).2 ⟨rfl, hrelevant⟩, hcpe, hf.row]
    simp only [buildVersionString, Finding.report, hid]
    split_ifs <;> rfl
  · have hnone : cves.get? a.cveId = none := by
      refine Option.eq_none_iff_forall_ne_some.2 fun row hrow => ?_
      exact hrelevant ((hleft row).1 hrow).2
    rw [hnone]

theorem reduceOption_map_ite {α β γ : Type} (l : List α) (g : α → Option β) (p : β → Prop)
    [DecidablePred p] (h : β → γ) (hg : ∀ a ∈ l, ∃ b, g a = some b) :
    (l.map fun a => (g a).bind fun b => if p b then some (h b) else none).reduceOption =
      ((l.filterMap g).filter p).map h := by
  induction l with
  | nil => rfl
  | cons a l ih =>
      obtain ⟨b, hb⟩ := hg a List.mem_cons_self
      have hrest := ih fun a' ha' => hg a' (List.mem_cons_of_mem _ ha')
      rw [List.map_cons, List.filterMap_cons_some hb, hb, Option.bind_some, List.filter_cons]
      by_cases hp : p b
      · simp [hp, hrest]
      · simp [hp, hrest]

/-- The findings of rows lead back to the rows. -/
theorem map_association_findings {rows : List Association}
    (hrows : ∀ a ∈ rows, ∃ f, Stored feed a f) :
    (rows.filterMap (findingOf feed)).map Finding.association = rows := by
  induction rows with
  | nil => rfl
  | cons a rows ih =>
      obtain ⟨f, hf⟩ := hrows a List.mem_cons_self
      rw [List.filterMap_cons_some hf.findingOf, List.map_cons, ← hf.row,
        ih fun a' ha' => hrows a' (List.mem_cons_of_mem _ ha')]

end

end CveLookup

end FactCore
