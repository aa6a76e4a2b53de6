import FactCore.Storage.QueryDenotation

/-! # The search form

`web_interface/components/database_routes.py` builds a search dict from the fields of
the search form. It is shown for which forms the objects that are found are those that
the form asks for.
-/

namespace FactCore

namespace DatabaseRoutes

open QueryConversion

/-- The fields of the form: those with choices, and those with a text. -/
structure SearchForm where
  choices : String → List String
  text : String → String

/-- `request.form.get(key)`, the first of the choices, is there and not empty. -/
def SearchForm.chosen (form : SearchForm) (key : String) : Bool :=
  (form.choices key).head?.any fun choice => choice != ""

/-- `{operator: operand}` under a key, if the field is filled. -/
def addIf (filled : Bool) (query : Entries) (key operator : String) (operand : Json) : Entries :=
  if filled then query.set key (.object [(operator, operand)]) else query

def addChoices (form : SearchForm) (operator : String) (query : Entries) (field key : String) : Entries :=
  addIf (form.chosen field) query key operator (.array ((form.choices field).map .string))

def addText (form : SearchForm) (query : Entries) (key : String) : Entries :=
  addIf (form.text key != "") query key "$like" (.string (form.text key))

/-- The entries of `_build_search_query`, without `$or`. -/
def besideHash (form : SearchForm) : Entries :=
  let query := ["device_class", "vendor"].foldl (fun query key => addChoices form "$in" query key key) ∅
  let query := ["file_name", "device_name", "version", "release_date"].foldl (addText form) query
  addChoices form "$overlap" query "tags" "firmware_tags"

/-- The hashes of `_add_hash_query_to_query`. -/
def hashTypes : List String := ["md5", "sha1", "sha256", "sha512", "ripemd160", "whirlpool"]

def hashKey (hashType : String) : String := "processed_analysis.file_hashes." ++ hashType

/-- `_add_hash_query_to_query`, what stands under `$or`. -/
def hashQuery (value : String) : Entries :=
  hashTypes.foldl (fun query hashType => query.set (hashKey hashType) (.string value)) ∅

/-- `_build_search_query` -/
def buildSearchQuery (form : SearchForm) : SearchDict :=
  if form.text "hash_value" = "" then .plain (besideHash form)
  else .or (besideHash form) (.plain (hashQuery (form.text "hash_value")))

/-! ## The entries of the form -/

/-- The keys that the form can ask for, with their operators. -/
def formKeys : List (String × String) :=
  [("device_class", "$in"), ("vendor", "$in"), ("file_name", "$like"), ("device_name", "$like"),
    ("version", "$like"), ("release_date", "$like"), ("firmware_tags", "$overlap")]

/-- An entry that the form can ask for. -/
def FormEntry (e : String × Json) : Prop :=
  ∃ operator operand, (e.1, operator) ∈ formKeys ∧ e.2 = .object [(operator, operand)]

section

variable {form : SearchForm} {query : Entries} {key operator value : String} {e : String × Json}

theorem formEntry_addIf (filled : Bool) (operand : Json) (hkey : (key, operator) ∈ formKeys)
    (h : ∀ e ∈ query.items, FormEntry e) : ∀ e ∈ (addIf filled query key operator operand).items, FormEntry e := by
  intro e he
  unfold addIf at he
  split at he
  · have hget := Dict.get?_eq_some_iff.2 he
    rw [Dict.get?_set] at hget
    split at hget
    · rename_i heq
      exact ⟨operator, operand, heq ▸ hkey, (Option.some.inj hget).symm⟩
    · exact h e (Dict.get?_eq_some_iff.1 hget)
  · exact h e he

theorem formEntry_besideHash : ∀ e ∈ (besideHash form).items, FormEntry e := by
  have hchoices : ∀ query : Entries, (∀ e ∈ query.items, FormEntry e) → ∀ key ∈ ["device_class", "vendor"],
      ∀ e ∈ (addChoices form "$in" query key key).items, FormEntry e := by
    intro query hquery key hkey
    have hform : (key, "$in") ∈ formKeys := by
      have hall : ∀ key ∈ ["device_class", "vendor"], (key, "$in") ∈ formKeys := by decide
      exact hall key hkey
    exact formEntry_addIf _ _ hform hquery
  have htext : ∀ query : Entries, (∀ e ∈ query.items, FormEntry e) →
      ∀ key ∈ ["file_name", "device_name", "version", "release_date"],
        ∀ e ∈ (addText form query key).items, FormEntry e := by
    intro query hquery key hkey
    have hform : (key, "$like") ∈ formKeys := by
      have hall : ∀ key ∈ ["file_name", "device_name", "version", "release_date"], (key, "$like") ∈ formKeys := by
        decide
      exact hall key hkey
    exact formEntry_addIf _ _ hform hquery
  unfold besideHash
  apply formEntry_addIf _ _ (by decide)
  apply List.foldlRecOn (motive := fun query : Entries => ∀ e ∈ query.items, FormEntry e) _ _ _ htext
  apply List.foldlRecOn (motive := fun query : Entries => ∀ e ∈ query.items, FormEntry e) _ _ _ hchoices
  intro e he
  cases he

theorem conditionOf_formKey (h : (key, operator) ∈ formKeys) (operand : Json) :
    ∃ c, conditionOf key (.object [(operator, operand)]) = .ok (some c) ∧ c.isAnalysis = false := by
  simp only [formKeys, List.mem_cons, Prod.mk.injEq, List.not_mem_nil, or_false] at h
  rcases h with ⟨rfl, rfl⟩ | ⟨rfl, rfl⟩ | ⟨rfl, rfl⟩ | ⟨rfl, rfl⟩ | ⟨rfl, rfl⟩ | ⟨rfl, rfl⟩ | ⟨rfl, rfl⟩
  all_goals exact ⟨_, rfl, rfl⟩

/-- What the form asks for beside a hash is about the file and its firmware. -/
theorem FormEntry.conditionOf (h : FormEntry e) :
    ∃ c, QueryConversion.conditionOf e.1 e.2 = .ok (some c) ∧ c.isAnalysis = false := by
  obtain ⟨operator, operand, hkey, hvalue⟩ := h
  rw [hvalue]
  exact conditionOf_formKey hkey operand

/-- Its keys are not those of an analysis, and `_id` is none of them. -/
theorem FormEntry.isColumn (h : FormEntry e) : isAnalysisKey e.1 = false ∧ e.1 ≠ "_id" := by
  obtain ⟨operator, -, hkey, -⟩ := h
  have hall : ∀ entry ∈ formKeys, isAnalysisKey entry.1 = false ∧ entry.1 ≠ "_id" := by decide
  exact hall _ hkey

theorem FormEntry.single (h : FormEntry e) : singleValues e.1 e.2 = [e.2] := by
  obtain ⟨operator, operand, -, hvalue⟩ := h
  rw [hvalue]
  simp only [singleValues]
  split
  · rfl
  · rfl

theorem FormEntry.supported (h : FormEntry e) : SupportedEntry e.1 e.2 := by
  have hcanonical : canonical e.1 = e.1 := if_neg h.isColumn.2
  refine ⟨?_, ?_, ?_⟩
  · have hnames : namesOperators e.1 = true := by
      unfold namesOperators
      rw [h.isColumn.1]
    unfold comparable
    split
    · simp [hnames]
    · rfl
  · rw [h.single]
    exact List.cons_ne_nil _ _
  · intro v hv
    rw [h.single] at hv
    obtain rfl := List.mem_singleton.1 hv
    obtain ⟨c, hc, -⟩ := h.conditionOf
    exact ⟨c, by rw [hcanonical, hc]⟩

theorem mem_hashQuery : e ∈ (hashQuery value).items ↔ ∃ hashType ∈ hashTypes, e = (hashKey hashType, .string value) := by
  constructor
  · intro he
    have hget := Dict.get?_eq_some_iff.2 he
    have hkey : e.1 ∈ hashTypes.map hashKey :=
      (Dict.mem_foldl_assign.1 (Dict.mem_of_get? hget)).resolve_right (Dict.notMem_empty e.1)
    obtain ⟨hashType, hmem, hname⟩ := List.mem_map.1 hkey
    rw [hashQuery, Dict.get?_foldl_assign_const hkey] at hget
    exact ⟨hashType, hmem, Prod.ext hname.symm (Option.some.inj hget).symm⟩
  · rintro ⟨hashType, hmem, rfl⟩
    exact Dict.get?_eq_some_iff.1 (Dict.get?_foldl_assign_const (List.mem_map.2 ⟨hashType, hmem, rfl⟩))

/-- A hash of one type is compared with the result of the plugin. -/
def hashCondition (value hashType : String) : Condition :=
  .analysis "file_hashes" ⟨.result [hashType] false, .eq, .string value⟩

theorem conditionOf_hashKey (value : String) {hashType : String} (h : hashType ∈ hashTypes) :
    conditionOf (hashKey hashType) (.string value) = .ok (some (hashCondition value hashType)) ∧
      hashKey hashType ≠ "_id" := by
  simp only [hashTypes, List.mem_cons, List.not_mem_nil, or_false] at h
  rcases h with rfl | rfl | rfl | rfl | rfl | rfl
  all_goals exact ⟨rfl, by decide⟩

theorem stated_hashKey {hashType : String} (h : hashType ∈ hashTypes) :
    stated (hashKey hashType) (.string value) = [hashCondition value hashType] := by
  obtain ⟨hcondition, hid⟩ := conditionOf_hashKey value h
  have hcanonical : canonical (hashKey hashType) = hashKey hashType := if_neg hid
  have hsome : condition? (canonical (hashKey hashType)) (.string value) = some (hashCondition value hashType) := by
    rw [hcanonical, condition?, hcondition]
  rw [stated, show singleValues (hashKey hashType) (.string value) = [.string value] from rfl,
    List.filterMap_cons_some hsome, List.filterMap_nil]

theorem hash_supported {hashType : String} (h : hashType ∈ hashTypes) :
    SupportedEntry (hashKey hashType) (.string value) := by
  obtain ⟨hcondition, hid⟩ := conditionOf_hashKey value h
  refine ⟨rfl, List.cons_ne_nil _ _, fun v hv => ?_⟩
  obtain rfl := List.mem_singleton.1 hv
  exact ⟨hashCondition value hashType, by rw [canonical, if_neg hid, hcondition]⟩

/-- The form asks for supported keys only. -/
theorem buildSearchQuery_supported (form : SearchForm) : (buildSearchQuery form).Supported := by
  have hbeside : ∀ e ∈ (besideHash form).items, SupportedEntry e.1 e.2 := fun e he =>
    (formEntry_besideHash e he).supported
  unfold buildSearchQuery
  split
  · exact hbeside
  · refine ⟨hbeside, fun e he => ?_⟩
    obtain ⟨hashType, hmem, rfl⟩ := mem_hashQuery.1 he
    exact hash_supported hmem

theorem notAnalysis_of_stated {c : Condition} (h : c ∈ statedBy (besideHash form)) : c.isAnalysis = false := by
  obtain ⟨e, he, hc⟩ := List.mem_flatMap.1 h
  have hentry := formEntry_besideHash e he
  obtain ⟨c', hc', hkind⟩ := hentry.conditionOf
  rw [stated, hentry.single, List.mem_filterMap] at hc
  obtain ⟨v, hv, hcondition⟩ := hc
  obtain rfl := List.mem_singleton.1 hv
  rw [canonical, if_neg hentry.isColumn.2, condition?, hc'] at hcondition
  obtain rfl := Option.some.inj hcondition
  exact hkind

theorem idNotMem_besideHash : "_id" ∉ besideHash form := by
  intro hmem
  obtain ⟨operand, hget⟩ := Dict.mem_iff.1 hmem
  exact (formEntry_besideHash _ (Dict.get?_eq_some_iff.1 hget)).isColumn.2 rfl

/-- Without a hash the form finds what it asks for. -/
theorem right_besideHash : (SearchDict.plain (besideHash form)).Right := by
  apply right_of_single (Or.inl idNotMem_besideHash)
  · exact fun e he => (formEntry_besideHash e he).single
  · intro plugin filter _ _ hc _
    have hkind := notAnalysis_of_stated hc
    cases hkind

theorem mem_tested_hash {beside : Entries} {c : Condition} :
    c ∈ (SearchDict.or beside (.plain (hashQuery value))).tested ↔ ∃ hashType ∈ hashTypes, c = hashCondition value hashType := by
  have hid : "_id" ∉ hashQuery value := by
    intro hmem
    obtain ⟨operand, hget⟩ := Dict.mem_iff.1 hmem
    obtain ⟨hashType, htype, heq⟩ := mem_hashQuery.1 (Dict.get?_eq_some_iff.1 hget)
    exact (conditionOf_hashKey value htype).2 (Prod.mk.inj heq).1.symm
  have hsingle : ∀ e ∈ (hashQuery value).items, singleValues e.1 e.2 = [e.2] := by
    intro e he
    obtain ⟨hashType, -, rfl⟩ := mem_hashQuery.1 he
    rfl
  show c ∈ conditionsOf (renameId (hashQuery value)) ↔ _
  rw [mem_conditionsOf_iff_stated (Or.inl hid) hsingle, statedBy, List.mem_flatMap]
  constructor
  · rintro ⟨e, he, hc⟩
    obtain ⟨hashType, hmem, rfl⟩ := mem_hashQuery.1 he
    rw [stated_hashKey hmem] at hc
    exact ⟨hashType, hmem, List.mem_singleton.1 hc⟩
  · rintro ⟨hashType, hmem, rfl⟩
    refine ⟨_, mem_hashQuery.2 ⟨hashType, hmem, rfl⟩, ?_⟩
    rw [stated_hashKey hmem]
    exact List.mem_singleton_self _

/-- With a hash it does if it asks for nothing else. -/
theorem right_hash_iff : (SearchDict.or (besideHash form) (.plain (hashQuery value))).Right ↔
    (besideHash form).items = [] := by
  have hmd5 : "md5" ∈ hashTypes := by decide
  constructor
  · intro hright
    by_contra hne
    obtain ⟨e, he⟩ := List.exists_mem_of_ne_nil _ hne
    obtain ⟨b, hb⟩ := List.exists_mem_of_ne_nil _ (formEntry_besideHash e he).supported.stated_ne_nil
    have hb : b ∈ statedBy (besideHash form) := List.mem_flatMap.2 ⟨e, he, hb⟩
    -- what stands beside the hash is not of the analysis table
    have hkind := notAnalysis_of_stated hb
    rw [hright.alone _ (mem_tested_hash.2 ⟨"md5", hmd5, rfl⟩) b hb] at hkind
    cases hkind
  · intro hnil
    have hbeside : statedBy (besideHash form) = [] := by rw [statedBy, hnil, List.flatMap_nil]
    have halternative : ∀ alternative, alternative ∈ (SearchDict.plain (hashQuery value)).alternatives ↔
        ∃ hashType ∈ hashTypes, alternative = [hashCondition value hashType] := by
      intro alternative
      show alternative ∈ (hashQuery value).items.map _ ↔ _
      rw [List.mem_map]
      constructor
      · rintro ⟨e, he, rfl⟩
        obtain ⟨hashType, hmem, rfl⟩ := mem_hashQuery.1 he
        exact ⟨hashType, hmem, stated_hashKey hmem⟩
      · rintro ⟨hashType, hmem, rfl⟩
        exact ⟨_, mem_hashQuery.2 ⟨hashType, hmem, rfl⟩, stated_hashKey hmem⟩
    refine ⟨List.ne_nil_of_mem (mem_tested_hash.2 ⟨"md5", hmd5, rfl⟩), ?_, ?_, ?_, Or.inl ?_, ?_⟩
    · intro c _ b hb
      rw [hbeside] at hb
      cases hb
    · intro c hc
      obtain ⟨hashType, hmem, rfl⟩ := mem_tested_hash.1 hc
      exact ⟨_, (halternative _).2 ⟨hashType, hmem, rfl⟩, fun x hx => List.mem_singleton.1 hx⟩
    · intro alternative hin
      obtain ⟨hashType, hmem, rfl⟩ := (halternative alternative).1 hin
      exact ⟨_, mem_tested_hash.2 ⟨hashType, hmem, rfl⟩, Or.inr (List.mem_singleton_self _)⟩
    · intro c hc
      obtain ⟨hashType, -, rfl⟩ := mem_tested_hash.1 hc
      rfl
    · intro filter hc
      obtain ⟨hashType, -, heq⟩ := mem_tested_hash.1 hc
      cases heq

/-- The form finds what it asks for exactly if it does not ask for a hash together
with something else. -/
theorem buildSearchQuery_denotes_iff (form : SearchForm) :
    (∀ (S : Semantics) (db : Database S), Denotes S db (buildSearchQuery form)) ↔
      form.text "hash_value" = "" ∨ (besideHash form).items = [] := by
  have hsupported := buildSearchQuery_supported form
  have hright : (buildSearchQuery form).Right ↔ form.text "hash_value" = "" ∨ (besideHash form).items = [] := by
    unfold buildSearchQuery
    split
    · rename_i hhash
      exact iff_of_true right_besideHash (Or.inl hhash)
    · rename_i hhash
      rw [right_hash_iff, or_iff_right hhash]
  rw [← hright]
  exact ⟨right_of_denotes hsupported, fun hright _ _ => denotes_of_right hsupported hright⟩

end

/-! ## A vendor and a hash -/

/-- A server on which a row of a firmware is its vendor and that of an analysis a hash. -/
def hashServer : Semantics where
  File := Unit
  Firmware := String
  Analysis := String
  file _ _ := false
  firmware filter vendor :=
    match filter.operator, filter.operand with
    | .isIn, .array [.string choice] => decide (vendor = choice)
    | _, _ => false
  analysis filter hash :=
    match filter.operator, filter.operand with
    | .eq, .string value => decide (hash = value)
    | _, _ => false

theorem otherVendor_fk (uid : Uid) (h : uid ∈ (∅ : Dict Uid String).set "uid" "other") :
    uid ∈ (∅ : Dict Uid Unit).set "uid" () := by
  rw [Dict.mem_set] at h ⊢
  exact h.imp_right fun hnot => absurd hnot (Dict.notMem_empty uid)

theorem otherHash_fk (e : Uid × Plugin)
    (h : e ∈ (∅ : Dict (Uid × Plugin) String).set ("uid", "file_hashes") "0cc175b9") :
    e.1 ∈ (∅ : Dict Uid Unit).set "uid" () := by
  rw [Dict.mem_set] at h
  rcases h with rfl | h
  · exact Dict.mem_set.2 (Or.inl rfl)
  · exact absurd h (Dict.notMem_empty e)

theorem otherFiles_fk (e : Uid × Uid) (h : e ∈ (∅ : Finset (Uid × Uid))) :
    e.1 ∈ (∅ : Dict Uid Unit).set "uid" () ∧ e.2 ∈ (∅ : Dict Uid Unit).set "uid" () := noFiles_fk e h

/-- One firmware, of another vendor. -/
def otherVendor : Database hashServer where
  fileObject := (∅ : Dict Uid Unit).set "uid" ()
  firmware := (∅ : Dict Uid String).set "uid" "other"
  analysis := (∅ : Dict (Uid × Plugin) String).set ("uid", "file_hashes") "0cc175b9"
  fwFiles := ∅
  firmware_fk := otherVendor_fk
  analysis_fk := otherHash_fk
  fwFiles_fk := otherFiles_fk

def vendorAndHash : SearchForm where
  choices key := if key = "vendor" then ["acme"] else []
  text key := if key = "hash_value" then "0cc175b9" else ""

/-- The firmware is found by its hash, though it is not of the vendor. -/
theorem vendorAndHash_not_denotes : (buildSearchQuery vendorAndHash).Supported ∧
    ¬Denotes hashServer otherVendor (buildSearchQuery vendorAndHash) := by
  refine ⟨buildSearchQuery_supported vendorAndHash, ?_⟩
  rintro ⟨query, d', hbuild, hdenotes⟩
  have hcall : (match buildQueryFromDict (buildSearchQuery vendorAndHash) false with
      | .ok (query, _) => decide ("uid" ∈ query.selected otherVendor)
      | .error _ => false) = true := by decide +kernel
  rw [hbuild] at hcall
  obtain ⟨-, hholds⟩ := (hdenotes "uid").1 (of_decide_eq_true hcall)
  have hor : buildSearchQuery vendorAndHash =
      .or (besideHash vendorAndHash) (.plain (hashQuery "0cc175b9")) := rfl
  have hitems : (besideHash vendorAndHash).items =
      [("vendor", .object [("$in", .array [.string "acme"])])] := rfl
  rw [hor] at hholds
  have hvendor := hholds.1 ("vendor", .object [("$in", .array [.string "acme"])])
    (by rw [hitems]; exact List.mem_singleton_self _)
  obtain ⟨vendor, hget, htrue⟩ := hvendor (.firmware ⟨.attribute "vendor", .isIn, .array [.string "acme"]⟩)
    (List.mem_singleton_self _)
  have hother : otherVendor.firmware.get? "uid" = some "other" := rfl
  rw [hother] at hget
  cases hget
  cases htrue

end DatabaseRoutes

end FactCore
