import FactCore.Plugins.CveLookup.CoerceVersion
import FactCore.Plugins.CveLookup.CveDatabase

/-! # Looking up the vulnerabilities of a version

`Lookup._find_matching_associations` of `internal/lookup.py`: which CVEs are
reported for a product in the requested version. A CVE has at most one row for
a CPE in the database, so of several version ranges that the feed gives for one
CPE only one is looked at.
-/

namespace FactCore

namespace CveLookup

open Pep440 (Version)

variable (u : UnicodeTables)

/-! ## The lookup -/

/-- Whether a row has any bound. -/
def Association.hasBoundary (a : Association) : Bool :=
  [a.versionStartIncluding, a.versionStartExcluding, a.versionEndIncluding, a.versionEndExcluding].any
    (· != "")

/-- `Lookup._is_version_in_boundaries` -/
def isVersionInBoundaries (a : Association) (requestedVersion : String) : Bool :=
  [(a.versionStartIncluding, fun v w : Version => decide (v ≤ w)),
    (a.versionStartExcluding, fun v w : Version => decide (v < w)),
    (a.versionEndIncluding, fun v w : Version => decide (w ≤ v)),
    (a.versionEndExcluding, fun v w : Version => decide (w < v))].all fun check =>
      check.1 == "" || compareVersion u check.1.toList requestedVersion.toList check.2

/-- `Lookup._version_in_boundaries` -/
def versionInBoundaries (db : CveDb) (matchAny : Bool) (associations : List Association)
    (requestedVersion : String) : List Association :=
  if requestedVersion = "ANY, N/A" then []
  else associations.filter fun a =>
    if a.hasBoundary then isVersionInBoundaries u a requestedVersion
    else matchAny && (db.cpes.get? a.cpeId).any fun cpe => cpe.version == "ANY"

/-- `Lookup._find_matching_associations` -/
def findMatchingAssociations (db : CveDb) (matchAny : Bool) (cpeMatches : Dict String Cpe)
    (requestedVersion : String) : List Association :=
  if requestedVersion ∈ ["ANY", "N/A"] then []
  else
    let associationsDict := getAssociations db (cpeMatches.values.map Cpe.cpeId)
    cpeMatches.values.flatMap fun cpe =>
      let associations := (associationsDict.get? cpe.cpeId).getD []
      if cpe.version = requestedVersion then associations
      else versionInBoundaries u db matchAny associations requestedVersion

/-! ## Version ranges -/

/-- A bound that is not given, or one that compares with the version as it should. -/
def Satisfies (bound : String) (requestedVersion : String) (op : Version → Version → Prop) : Prop :=
  bound = "" ∨ ∃ v w, coerceVersion u bound.toList = some v ∧
    coerceVersion u requestedVersion.toList = some w ∧ op v w

/-- The version lies in the range of an entry. -/
structure InRange (e : CpeEntry) (requestedVersion : String) : Prop where
  startIncluding : Satisfies u e.versionStartIncluding requestedVersion fun v w => v ≤ w
  startExcluding : Satisfies u e.versionStartExcluding requestedVersion fun v w => v < w
  endIncluding : Satisfies u e.versionEndIncluding requestedVersion fun v w => w ≤ v
  endExcluding : Satisfies u e.versionEndExcluding requestedVersion fun v w => w < v

/-- The entry has at least one bound. -/
def CpeEntry.Bounded (e : CpeEntry) : Prop :=
  e.versionStartIncluding ≠ "" ∨ e.versionStartExcluding ≠ "" ∨ e.versionEndIncluding ≠ "" ∨
    e.versionEndExcluding ≠ ""

/-- The version can be compared: it is a version and no placeholder for one. -/
def Comparable (requestedVersion : String) : Prop :=
  requestedVersion ∉ ["ANY", "N/A", "ANY, N/A"] ∧
    (coerceVersion u requestedVersion.toList).isSome = true

instance (requestedVersion : String) : Decidable (Comparable u requestedVersion) :=
  inferInstanceAs (Decidable (_ ∧ _))

variable {u}

theorem satisfies_iff {bound requestedVersion : String} {op : Version → Version → Prop}
    [∀ v w, Decidable (op v w)] :
    (bound == "" || compareVersion u bound.toList requestedVersion.toList fun v w => decide (op v w)) =
      true ↔ Satisfies u bound requestedVersion op := by
  rw [Bool.or_eq_true, beq_iff_eq, Satisfies, compareVersion]
  apply or_congr_right
  cases hbound : coerceVersion u bound.toList with
  | none => simp
  | some v =>
      cases hrequested : coerceVersion u requestedVersion.toList with
      | none => simp
      | some w => simp

/-- The code decides whether the version lies in the range. -/
theorem isVersionInBoundaries_iff {cveId requestedVersion : String} {e : CpeEntry} :
    isVersionInBoundaries u (createAssociation cveId e) requestedVersion = true ↔
      InRange u e requestedVersion := by
  unfold isVersionInBoundaries createAssociation
  simp only [List.all_cons, List.all_nil, Bool.and_true, Bool.and_eq_true]
  rw [satisfies_iff, satisfies_iff, satisfies_iff, satisfies_iff]
  constructor
  · rintro ⟨hsi, hse, hei, hee⟩
    exact ⟨hsi, hse, hei, hee⟩
  · rintro ⟨hsi, hse, hei, hee⟩
    exact ⟨hsi, hse, hei, hee⟩

theorem hasBoundary_iff {cveId : String} {e : CpeEntry} :
    (createAssociation cveId e).hasBoundary = true ↔ e.Bounded := by
  simp [Association.hasBoundary, createAssociation, CpeEntry.Bounded]

/-! ## What is reported -/

section

variable {db : CveDb} {matchAny : Bool} {products : List String} {cpe : Cpe} {requestedVersion : String}

/-- In the mode `match_any`, a row without bounds counts for a CPE of any version. -/
def AnyMatch (db : CveDb) (matchAny : Bool) (cpeId : String) : Prop :=
  matchAny = true ∧ (db.cpes.get? cpeId).any (fun cpe => cpe.version == "ANY") = true

/-- The row of an entry is reported. -/
def ReportsEntry (u : UnicodeTables) (db : CveDb) (matchAny : Bool) (e : CpeEntry)
    (requestedVersion : String) : Prop :=
  (e.Bounded ∧ InRange u e requestedVersion) ∨ (¬ e.Bounded ∧ AnyMatch db matchAny e.criteria)

theorem mem_versionInBoundaries {associations : List Association} {cveId : String} {e : CpeEntry}
    (hrequested : requestedVersion ≠ "ANY, N/A") :
    createAssociation cveId e ∈ versionInBoundaries u db matchAny associations requestedVersion ↔
      createAssociation cveId e ∈ associations ∧ ReportsEntry u db matchAny e requestedVersion := by
  unfold versionInBoundaries
  rw [if_neg hrequested, List.mem_filter]
  apply and_congr_right'
  have hbounded : (createAssociation cveId e).hasBoundary = true ↔ e.Bounded := hasBoundary_iff
  by_cases hboundary : e.Bounded
  · rw [if_pos (hbounded.2 hboundary), isVersionInBoundaries_iff]
    constructor
    · intro hrange
      exact .inl ⟨hboundary, hrange⟩
    · rintro (⟨-, hrange⟩ | ⟨hunbounded, -⟩)
      · exact hrange
      · exact absurd hboundary hunbounded
  · rw [if_neg (mt hbounded.1 hboundary), Bool.and_eq_true]
    constructor
    · intro hany
      exact .inr ⟨hboundary, hany⟩
    · rintro (⟨hbound, -⟩ | ⟨-, hany⟩)
      · exact absurd hbound hboundary
      · exact hany

/-- The rows of a CPE that are reported. -/
theorem mem_findMatchingAssociations {cveId : String} {e : CpeEntry}
    (hcpe : cpe ∈ (matchCpes db products).values) (hcomparable : Comparable u requestedVersion)
    (hversion : cpe.version ≠ requestedVersion) (he : e.criteria = cpe.cpeId) :
    createAssociation cveId e ∈ findMatchingAssociations u db matchAny (matchCpes db products)
        requestedVersion ↔
      createAssociation cveId e ∈ db.associations.values ∧
        ReportsEntry u db matchAny e requestedVersion := by
  have hplaceholder := hcomparable.1
  simp only [List.mem_cons, List.not_mem_nil, or_false, not_or] at hplaceholder
  obtain ⟨hany, hna, hboth⟩ := hplaceholder
  have hrows : ∀ row : Association, row.cpeId = cpe.cpeId →
      (row ∈ ((getAssociations db ((matchCpes db products).values.map Cpe.cpeId)).get? cpe.cpeId).getD [] ↔
        row ∈ db.associations.values) := by
    intro row hrow
    rw [mem_getAssociations (List.mem_map_of_mem hcpe), and_iff_left hrow]
  have hid : (createAssociation cveId e).cpeId = cpe.cpeId := he
  unfold findMatchingAssociations
  rw [if_neg (by simp [hany, hna])]
  simp only [List.mem_flatMap]
  constructor
  · rintro ⟨cpe', hcpe', hmem⟩
    -- the row belongs to this CPE and to no other
    have hsame : cpe' = cpe := by
      have hrow : createAssociation cveId e ∈
          ((getAssociations db ((matchCpes db products).values.map Cpe.cpeId)).get? cpe'.cpeId).getD [] := by
        split at hmem
        · exact hmem
        · rw [mem_versionInBoundaries hboth] at hmem
          exact hmem.1
      rw [mem_getAssociations (List.mem_map_of_mem hcpe'), hid] at hrow
      exact matchCpes_unique hcpe' hcpe hrow.2.symm
    subst hsame
    rw [if_neg hversion, mem_versionInBoundaries hboth, hrows _ hid] at hmem
    exact hmem
  · rintro ⟨hrow, hreports⟩
    refine ⟨cpe, hcpe, ?_⟩
    rw [if_neg hversion, mem_versionInBoundaries hboth, hrows _ hid]
    exact ⟨hrow, hreports⟩

end

/-! ## Whether a range is lost -/

section

variable {feed : List CveItem} {chunkSize : Nat} {db : CveDb} {matchAny : Bool} {item : CveItem}
  {products : List String} {cpe : Cpe} {requestedVersion : String}

/-- The CVE is reported for the CPE if and only if the version lies in the range
of some vulnerable entry of the feed that has a bound. -/
def RangesKept (u : UnicodeTables) (db : CveDb) (matchAny : Bool) (products : List String)
    (item : CveItem) (cpe : Cpe) (requestedVersion : String) : Prop :=
  (∃ a ∈ findMatchingAssociations u db matchAny (matchCpes db products) requestedVersion,
    a.cveId = item.id ∧ a.cpeId = cpe.cpeId) ↔
  ∃ m ∈ item.cpeMatches, m.vulnerable = true ∧ m.criteria = some cpe.cpeId ∧
    (m.entry cpe.cpeId).Bounded ∧ InRange u (m.entry cpe.cpeId) requestedVersion

/-- The vulnerable entries of an item for a CPE. -/
def CveItem.entriesFor (item : CveItem) (cpeId : String) : List CpeEntry :=
  item.vulnerableEntries.filter fun e => e.criteria = cpeId

/-- The first vulnerable entry for the CPE is reported if any of them has a
range with the version in it, and without bounds only if there is one. -/
def FirstCovers (u : UnicodeTables) (db : CveDb) (matchAny : Bool) (item : CveItem) (cpeId : String)
    (requestedVersion : String) : Prop :=
  ∀ first ∈ (item.entriesFor cpeId).head?,
    ((∃ e ∈ item.entriesFor cpeId, e.Bounded ∧ InRange u e requestedVersion) →
      ReportsEntry u db matchAny first requestedVersion) ∧
    (¬ first.Bounded → AnyMatch db matchAny cpeId →
      ∃ e ∈ item.entriesFor cpeId, e.Bounded ∧ InRange u e requestedVersion)

theorem createAssociation_inj {cveId cveId' : String} {e e' : CpeEntry}
    (h : createAssociation cveId e = createAssociation cveId' e') : e = e' := by
  cases e
  cases e'
  simp only [createAssociation, Association.mk.injEq] at h
  simp [h]

/-- What is kept of an item for a CPE is the first entry. -/
theorem mem_associations (hstored : addCveItems chunkSize (feed.map extractDataFromCve) = some db)
    (hitem : feed.find? (fun i => i.id = item.id) = some item) {row : Association}
    (hcve : row.cveId = item.id) :
    row ∈ db.associations.values ↔
      ∃ first ∈ (item.entriesFor row.cpeId).head?, row = createAssociation item.id first := by
  have hfirst : ∀ e, e ∈ (extractDataFromCve item).cpeEntries ↔
      e ∈ (item.entriesFor e.criteria).head? := by
    intro e
    rw [extractDataFromCve_cpeEntries, Relation.mem_firstRows, CveItem.entriesFor, List.head?_filter]
    rfl
  have hfound : (feed.map extractDataFromCve).find? (fun i => i.cveId = item.id) =
      some (extractDataFromCve item) := by
    rw [List.find?_map]
    exact congrArg (Option.map extractDataFromCve) hitem
  constructor
  · intro hrow
    obtain ⟨key, hkey⟩ := Dict.mem_values.1 hrow
    obtain ⟨entry, hentry, e, he, rfl, -⟩ := (get?_addCveItems hstored key row).1 hkey
    have hsame : entry = extractDataFromCve item := by
      rw [Relation.mem_firstRows, show entry.cveId = item.id from hcve, hfound] at hentry
      exact (Option.some.inj hentry).symm
    subst hsame
    exact ⟨e, (hfirst e).1 he, rfl⟩
  · rintro ⟨e, he, rfl⟩
    refine Dict.mem_values.2 ⟨(item.id, e.criteria), (get?_addCveItems hstored _ _).2 ?_⟩
    refine ⟨extractDataFromCve item, Relation.mem_firstRows.2 hfound, e, (hfirst e).2 he, rfl, rfl⟩

/-- The ranges of a CVE are kept if and only if the first vulnerable entry for
the CPE covers the others. -/
theorem rangesKept_iff (hstored : addCveItems chunkSize (feed.map extractDataFromCve) = some db)
    (hitem : feed.find? (fun i => i.id = item.id) = some item)
    (hcpe : cpe ∈ (matchCpes db products).values) (hcomparable : Comparable u requestedVersion)
    (hversion : cpe.version ≠ requestedVersion) :
    RangesKept u db matchAny products item cpe requestedVersion ↔
      FirstCovers u db matchAny item cpe.cpeId requestedVersion := by
  have hcriteria : ∀ e ∈ item.entriesFor cpe.cpeId, e.criteria = cpe.cpeId := by
    intro e he
    simpa using (List.mem_filter.1 he).2
  have hreported : (∃ a ∈ findMatchingAssociations u db matchAny (matchCpes db products) requestedVersion,
      a.cveId = item.id ∧ a.cpeId = cpe.cpeId) ↔
      ∃ first ∈ (item.entriesFor cpe.cpeId).head?, ReportsEntry u db matchAny first requestedVersion := by
    constructor
    · rintro ⟨a, ha, hcve, hid⟩
      obtain ⟨e, rfl⟩ : ∃ e, a = createAssociation item.id e := by
        rw [← hcve]
        exact ⟨⟨a.cpeId, a.versionStartIncluding, a.versionStartExcluding, a.versionEndIncluding,
          a.versionEndExcluding⟩, rfl⟩
      obtain ⟨hrow, hreports⟩ := (mem_findMatchingAssociations hcpe hcomparable hversion hid).1 ha
      obtain ⟨first, hfirst, heq⟩ := (mem_associations hstored hitem hcve).1 hrow
      rw [hid] at hfirst
      rw [createAssociation_inj heq] at hreports
      exact ⟨first, hfirst, hreports⟩
    · rintro ⟨first, hfirst, hreports⟩
      have hid : first.criteria = cpe.cpeId := hcriteria first (List.mem_of_mem_head? hfirst)
      have hrow : createAssociation item.id first ∈ db.associations.values :=
        (mem_associations hstored hitem rfl).2 ⟨first, by rw [← hid] at hfirst; exact hfirst, rfl⟩
      exact ⟨_, (mem_findMatchingAssociations hcpe hcomparable hversion hid).2 ⟨hrow, hreports⟩, rfl, hid⟩
  have hranges : (∃ m ∈ item.cpeMatches, m.vulnerable = true ∧ m.criteria = some cpe.cpeId ∧
      (m.entry cpe.cpeId).Bounded ∧ InRange u (m.entry cpe.cpeId) requestedVersion) ↔
      ∃ e ∈ item.entriesFor cpe.cpeId, e.Bounded ∧ InRange u e requestedVersion := by
    constructor
    · rintro ⟨m, hm, hvulnerable, hcrit, hrange⟩
      have hentry : m.entry cpe.cpeId ∈ item.vulnerableEntries :=
        mem_vulnerableEntries.2 ⟨m, hm, hvulnerable, hcrit, rfl⟩
      exact ⟨_, List.mem_filter.2 ⟨hentry, by simp [CpeMatch.entry]⟩, hrange⟩
    · rintro ⟨e, he, hrange⟩
      obtain ⟨m, hm, hvulnerable, hcrit, heq⟩ := mem_vulnerableEntries.1 (List.mem_filter.1 he).1
      rw [hcriteria e he] at hcrit heq
      exact ⟨m, hm, hvulnerable, hcrit, heq.symm ▸ hrange⟩
  rw [RangesKept, hreported, hranges, FirstCovers]
  cases hhead : (item.entriesFor cpe.cpeId).head? with
  | none =>
      -- without a vulnerable entry there is neither a row nor a range
      rw [List.head?_eq_none_iff] at hhead
      simp [hhead]
  | some first =>
      have hid : first.criteria = cpe.cpeId := hcriteria first (List.mem_of_mem_head? hhead)
      have hmem : first ∈ item.entriesFor cpe.cpeId := List.mem_of_mem_head? hhead
      simp only [Option.mem_some_iff, exists_eq_left', forall_eq']
      constructor
      · intro hiff
        refine ⟨hiff.2, ?_⟩
        intro hunbounded hany
        exact hiff.1 (.inr ⟨hunbounded, hid.symm ▸ hany⟩)
      · rintro ⟨hcovers, hany⟩
        refine ⟨?_, hcovers⟩
        rintro (⟨hbounded, hrange⟩ | ⟨hunbounded, hanyMatch⟩)
        · exact ⟨first, hmem, hbounded, hrange⟩
        · exact hany hunbounded (hid ▸ hanyMatch)

end

/-! ## Two ranges for one CPE -/

/-- A vulnerable match with a range. -/
def rangeMatch (criteria start stop : String) : CpeMatch where
  criteria := some criteria
  vulnerable := true
  versionStartIncluding := some start
  versionStartExcluding := none
  versionEndIncluding := none
  versionEndExcluding := some stop

def exampleCriteria : String := "cpe:2.3:a:openbsd:openssh:*:*:*:*:*:*:*:*"

/-- A CVE that is fixed in two branches. -/
def twoRanges : CveItem where
  id := "CVE-2024-0001"
  descriptions := []
  configurations := some [⟨some [⟨some
    [rangeMatch exampleCriteria "8.0" "8.9", rangeMatch exampleCriteria "9.0" "9.8"]⟩]⟩]

def exampleCpe : Cpe := ⟨exampleCriteria, "openbsd", "openssh", "ANY", "ANY"⟩

/-- The database of a feed that can be stored. -/
def dbOf (feed : List CveItem) : CveDb :=
  (addCveItems 4096 (feed.map extractDataFromCve)).getD CveDb.empty

theorem addCveItems_dbOf {feed : List CveItem}
    (h : (addCveItems 4096 (feed.map extractDataFromCve)).isSome = true) :
    addCveItems 4096 (feed.map extractDataFromCve) = some (dbOf feed) := by
  obtain ⟨db, hdb⟩ := Option.isSome_iff_exists.1 h
  rw [dbOf, hdb, Option.getD_some]

/-- The second range is lost. -/
theorem twoRanges_not_kept :
    exampleCpe ∈ (matchCpes (dbOf [twoRanges]) ["openssh"]).values ∧ Comparable asciiTables "9.1" ∧
    ¬ RangesKept asciiTables (dbOf [twoRanges]) false ["openssh"] twoRanges exampleCpe "9.1" := by
  refine ⟨by decide +kernel, by decide +kernel, ?_⟩
  intro hkept
  have hnone : findMatchingAssociations asciiTables (dbOf [twoRanges]) false
      (matchCpes (dbOf [twoRanges]) ["openssh"]) "9.1" = [] := by decide +kernel
  have hrange : InRange asciiTables ((rangeMatch exampleCriteria "9.0" "9.8").entry exampleCriteria) "9.1" :=
    isVersionInBoundaries_iff.1
      (show isVersionInBoundaries asciiTables (createAssociation "" _) "9.1" = true by decide +kernel)
  obtain ⟨a, ha, -⟩ := hkept.2 ⟨rangeMatch exampleCriteria "9.0" "9.8", by decide +kernel, rfl, rfl,
    .inl (by decide +kernel), hrange⟩
  rw [hnone] at ha
  cases ha

theorem twoRanges_kept_iff :
    RangesKept asciiTables (dbOf [twoRanges]) false ["openssh"] twoRanges exampleCpe "8.5" ↔
      FirstCovers asciiTables (dbOf [twoRanges]) false twoRanges exampleCriteria "8.5" :=
  rangesKept_iff (addCveItems_dbOf (by decide +kernel)) (by simp) (by decide +kernel)
    (by decide +kernel) (by decide +kernel)

end CveLookup

end FactCore
