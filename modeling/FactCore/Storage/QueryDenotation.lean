import FactCore.Storage.DbInterfaceFrontend

/-! # When a query means what its search dict says

The search dicts over the supported keys and operators are translated without an
exception. What their query selects is compared with the meaning of the dict: the
two agree on every database exactly when the dict is one that the translation gets
right. Where it is not, one object is enough to tell them apart.
-/

namespace FactCore

namespace QueryConversion

variable {S : Semantics} {db : Database S} {query : Query} {d d' : SearchDict} {uid : Uid} {c : Condition}

/-! ## Supported entries are translated -/

section

variable {ops : List (String × Json)} {op : String × Json} {key subkey : String} {value : Json}
  {column : Column} {filter : Filter}

theorem named_iff {name : String} : (ops.lookup name).isSome = true ↔ ∃ op ∈ ops, op.1 = name := by
  rw [List.lookup_isSome_iff]
  refine exists_congr fun op => and_congr_right fun _ => ?_
  rw [beq_iff_eq, eq_comm]

theorem mem_of_testedOperator {entry : String × Operator} (h : testedOperator ops = some entry) :
    entry ∈ operators ∧ ∃ op ∈ ops, op.1 = entry.1 := by
  unfold testedOperator at h
  exact ⟨List.mem_of_find?_eq_some h, named_iff.1 (List.find?_eq_some_iff_append.1 h).1⟩

theorem exists_testedOperator {entry : String × Operator} (hentry : entry ∈ operators) (hop : op ∈ ops)
    (hname : op.1 = entry.1) : ∃ tested, testedOperator ops = some tested := by
  rw [← Option.isSome_iff_exists, testedOperator, List.find?_isSome]
  exact ⟨entry, hentry, named_iff.2 ⟨op, hop, hname⟩⟩

/-- The operator of a value with one operator is one of the value with all of them. -/
theorem exists_testedOperator_of_single {entry : String × Operator} (hop : op ∈ ops)
    (h : testedOperator [op] = some entry) : ∃ tested, testedOperator ops = some tested := by
  obtain ⟨hentry, op', hop', hname⟩ := mem_of_testedOperator h
  obtain rfl := List.mem_singleton.1 hop'
  exact exists_testedOperator hentry hop hname

/-- A value is translated iff one of the operators is tested, and that is not
`$exists` on a column without JSON. -/
theorem dictKeyToFilter_ok_iff : (∃ filter, dictKeyToFilter column key (.object ops) = .ok filter) ↔
    ∃ entry, testedOperator ops = some entry ∧ (entry.2 = .hasKey → column.isJson = true) := by
  simp only [dictKeyToFilter]
  rw [firstOperator_eq]
  cases htested : testedOperator ops with
  | none => simp
  | some entry =>
      obtain ⟨operand, hoperand⟩ :=
        Option.isSome_iff_exists.1 (named_iff.2 (mem_of_testedOperator htested).2)
      rw [Option.bind_some, hoperand, Option.map_some]
      obtain ⟨name, operator⟩ := entry
      cases operator with
      | hasKey =>
          cases hjson : column.isJson with
          | true => simp
          | false => simp
      | _ => simp

theorem dictKeyToFilter_of_singles (hne : ops ≠ [])
    (h : ∀ op ∈ ops, ∃ filter, dictKeyToFilter column key (.object [op]) = .ok filter) :
    ∃ filter, dictKeyToFilter column key (.object ops) = .ok filter := by
  have hsame : ∀ entry ∈ operators, ∀ entry' ∈ operators, entry.1 = entry'.1 → entry = entry' := by decide
  obtain ⟨op, hop⟩ := List.exists_mem_of_ne_nil ops hne
  obtain ⟨entry, hentry, -⟩ := dictKeyToFilter_ok_iff.1 (h op hop)
  obtain ⟨tested, htested⟩ := exists_testedOperator_of_single hop hentry
  refine dictKeyToFilter_ok_iff.2 ⟨tested, htested, fun hkey => ?_⟩
  -- the operator that is tested is one of the value, and that is translated by itself
  obtain ⟨hmem, op', hop', hname⟩ := mem_of_testedOperator htested
  obtain ⟨entry', hentry', hjson⟩ := dictKeyToFilter_ok_iff.1 (h op' hop')
  obtain ⟨hmem', op'', hop'', hname'⟩ := mem_of_testedOperator hentry'
  obtain rfl := List.mem_singleton.1 hop''
  obtain rfl := hsame tested hmem entry' hmem' (hname.symm.trans hname')
  exact hjson hkey

theorem getArrayFilter_single {field : String}
    (h : ∃ filter, getArrayFilter field key (.object [op]) = .ok filter) :
    op.1 = "$regex" ∨ op.1 = "$contains" ∨ op.1 = "$overlap" := by
  obtain ⟨filter, h⟩ := h
  obtain ⟨name, operand⟩ := op
  have hnone : ∀ {expected : String}, name ≠ expected → [(name, operand)].lookup expected = none := by
    intro expected hne
    rw [List.lookup_cons, beq_eq_false_iff_ne.2 hne.symm]
    rfl
  by_cases hregex : name = "$regex"
  · exact Or.inl hregex
  · by_cases hcontains : name = "$contains"
    · exact Or.inr (Or.inl hcontains)
    · by_cases hoverlap : name = "$overlap"
      · exact Or.inr (Or.inr hoverlap)
      · simp only [getArrayFilter] at h
        rw [hnone hregex, hnone hcontains, hnone hoverlap] at h
        simp at h

theorem getArrayFilter_of_singles {field : String} (hne : ops ≠ [])
    (h : ∀ op ∈ ops, ∃ filter, getArrayFilter field key (.object [op]) = .ok filter) :
    ∃ filter, getArrayFilter field key (.object ops) = .ok filter := by
  simp only [getArrayFilter]
  by_cases hregex : (ops.lookup "$regex").isSome = true
  · rw [if_pos hregex]
    obtain ⟨op, hop, hname⟩ := named_iff.1 hregex
    have hentry : ("$regex", Operator.regex) ∈ operators := by decide
    obtain ⟨tested, htested⟩ := exists_testedOperator hentry hop hname
    refine dictKeyToFilter_ok_iff.2 ⟨tested, htested, fun hkey => ?_⟩
    obtain ⟨hmem, op', hop', hname'⟩ := mem_of_testedOperator htested
    have hnot : ∀ entry ∈ operators, entry.2 = .hasKey →
        ¬(entry.1 = "$regex" ∨ entry.1 = "$contains" ∨ entry.1 = "$overlap") := by decide
    exact absurd (hname' ▸ getArrayFilter_single (h op' hop')) (hnot tested hmem hkey)
  · rw [if_neg hregex]
    obtain ⟨op, hop⟩ := List.exists_mem_of_ne_nil ops hne
    rcases getArrayFilter_single (h op hop) with hname | hname | hname
    · exact absurd (named_iff.2 ⟨op, hop, hname⟩) hregex
    · obtain ⟨operand, hoperand⟩ := Option.isSome_iff_exists.1 (named_iff.2 ⟨op, hop, hname⟩)
      rw [hoperand]
      exact ⟨_, rfl⟩
    · obtain ⟨operand, hoperand⟩ := Option.isSome_iff_exists.1 (named_iff.2 ⟨op, hop, hname⟩)
      rw [hoperand]
      cases ops.lookup "$contains" with
      | none => exact ⟨_, rfl⟩
      | some _ => exact ⟨_, rfl⟩

theorem addJsonFilter_of_singles (hne : ops ≠ [])
    (h : ∀ op ∈ ops, ∃ filter, addJsonFilter key (.object [op]) subkey = .ok filter) :
    ∃ filter, addJsonFilter key (.object ops) subkey = .ok filter := by
  have hok : ∀ ops : List (String × Json), (∃ filter, addJsonFilter key (.object ops) subkey = .ok filter) ↔
      ∃ entry, testedOperator ops = some entry := by
    intro ops
    simp only [addJsonFilter]
    rw [dictKeyToFilter_ok_iff, testedOperator_sameNames (sameNames_dumpOperands ops)]
    exact exists_congr fun entry => and_iff_left fun _ => rfl
  obtain ⟨op, hop⟩ := List.exists_mem_of_ne_nil ops hne
  obtain ⟨entry, hentry⟩ := (hok [op]).1 (h op hop)
  exact (hok ops).2 (exists_testedOperator_of_single hop hentry)

theorem analysisCondition_ok_iff : (∃ c, analysisCondition key value = .ok c) ↔
    ∃ plugin subkey, splitAnalysisKey key = .ok (plugin, subkey) ∧
      ∃ filter, addAnalysisFilterToQuery key value subkey = .ok filter := by
  constructor
  · rintro ⟨c, hc⟩
    obtain ⟨⟨plugin, subkey⟩, hsplit, hc⟩ := bind_eq_ok.1 hc
    obtain ⟨filter, hfilter, -⟩ := bind_eq_ok.1 hc
    exact ⟨plugin, subkey, hsplit, filter, hfilter⟩
  · rintro ⟨plugin, subkey, hsplit, filter, hfilter⟩
    exact ⟨.analysis plugin filter, bind_eq_ok.2 ⟨(plugin, subkey), hsplit, bind_eq_ok.2 ⟨filter, hfilter, rfl⟩⟩⟩

theorem addAnalysisFilter_of_singles (hne : ops ≠ [])
    (h : ∀ op ∈ ops, ∃ filter, addAnalysisFilterToQuery key (.object [op]) subkey = .ok filter) :
    ∃ filter, addAnalysisFilterToQuery key (.object ops) subkey = .ok filter := by
  unfold addAnalysisFilterToQuery at h ⊢
  split
  · rename_i hcolumn
    split
    · rename_i hsummary
      simp only [if_pos hcolumn, if_pos hsummary] at h
      exact getArrayFilter_of_singles hne h
    · exact ⟨_, rfl⟩
  · rename_i hcolumn
    simp only [if_neg hcolumn] at h
    exact addJsonFilter_of_singles hne h

theorem firmwareCondition_ok_iff : (∃ c, firmwareCondition key value = .ok c) ↔
    ∃ filter, (if key = "firmware_tags" then getArrayFilter "firmware_tags" key value
      else dictKeyToFilter (getColumn key) key value) = .ok filter := by
  unfold firmwareCondition
  split
  · simp only [bind_eq_ok]
    constructor
    · rintro ⟨c, filter, hfilter, -⟩
      exact ⟨filter, hfilter⟩
    · rintro ⟨filter, hfilter⟩
      exact ⟨.firmware filter, filter, hfilter, rfl⟩
  · simp only [bind_eq_ok]
    constructor
    · rintro ⟨c, filter, hfilter, -⟩
      exact ⟨filter, hfilter⟩
    · rintro ⟨filter, hfilter⟩
      exact ⟨.firmware filter, filter, hfilter, rfl⟩

theorem fileCondition_ok_iff : (∃ c, fileCondition key value = .ok c) ↔
    ∃ filter, dictKeyToFilter (getColumn key) key value = .ok filter := by
  unfold fileCondition
  simp only [bind_eq_ok]
  constructor
  · rintro ⟨c, filter, hfilter, -⟩
    exact ⟨filter, hfilter⟩
  · rintro ⟨filter, hfilter⟩
    exact ⟨.file filter, filter, hfilter, rfl⟩

/-- If each operator of a value is translated by itself, the value is. -/
theorem conditionOf_of_singles (hne : ops ≠ [])
    (h : ∀ op ∈ ops, ∃ c, conditionOf key (.object [op]) = .ok (some c)) :
    ∃ c, conditionOf key (.object ops) = .ok (some c) := by
  obtain ⟨op, hop⟩ := List.exists_mem_of_ne_nil ops hne
  obtain ⟨c, hc⟩ := h op hop
  -- the key says of which table the condition is
  rcases searched_of_conditionOf hc with hkey | hkey | hkey
  · simp only [conditionOf_analysis _ hkey, map_some_eq_ok, analysisCondition_ok_iff] at h ⊢
    obtain ⟨plugin, subkey, hsplit, -⟩ := h op hop
    refine ⟨plugin, subkey, hsplit, addAnalysisFilter_of_singles hne fun op' hop' => ?_⟩
    obtain ⟨plugin', subkey', hsplit', hok⟩ := h op' hop'
    rw [hsplit, Except.ok.injEq, Prod.mk.injEq] at hsplit'
    obtain ⟨rfl, rfl⟩ := hsplit'
    exact hok
  · simp only [conditionOf_firmware _ hkey, map_some_eq_ok, firmwareCondition_ok_iff] at h ⊢
    by_cases htags : key = "firmware_tags"
    · simp only [if_pos htags] at h ⊢
      exact getArrayFilter_of_singles hne h
    · simp only [if_neg htags] at h ⊢
      exact dictKeyToFilter_of_singles hne h
  · simp only [conditionOf_file _ hkey, map_some_eq_ok, fileCondition_ok_iff] at h ⊢
    exact dictKeyToFilter_of_singles hne h

/-- A supported entry is translated. -/
theorem SupportedEntry.conditionOf (h : SupportedEntry key value) :
    ∃ c, conditionOf (canonical key) value = .ok (some c) := by
  have hself : singleValues key value = [value] → ∃ c, QueryConversion.conditionOf (canonical key) value =
      .ok (some c) := fun heq => h.translated value (by rw [heq]; exact List.mem_singleton_self value)
  cases value with
  | object ops =>
      by_cases hnames : namesOperators key = true
      · have hsingles : singleValues key (.object ops) = ops.map fun op => .object [op] := if_pos hnames
        have hne : ops ≠ [] := by
          rintro rfl
          exact h.nonempty hsingles
        refine conditionOf_of_singles hne fun op hop => h.translated (.object [op]) ?_
        rw [hsingles]
        exact List.mem_map.2 ⟨op, hop, rfl⟩
      · exact hself (if_neg hnames)
  | _ => exact hself rfl

/-- What a supported entry states is a condition at least. -/
theorem SupportedEntry.stated_ne_nil (h : SupportedEntry key value) : stated key value ≠ [] := by
  obtain ⟨v, hv⟩ := List.exists_mem_of_ne_nil _ h.nonempty
  obtain ⟨c, hc⟩ := h.translated v hv
  apply List.ne_nil_of_mem (a := c)
  exact List.mem_filterMap.2 ⟨v, hv, by rw [condition?, hc]⟩

end

/-! ## Supported dicts are translated -/

/-- An entry after the renaming is one of before, under the new name of its key. -/
theorem mem_renameId {entries : Entries} {e : String × Json} (h : e ∈ (renameId entries).items) :
    ∃ e₀ ∈ entries.items, e = (canonical e₀.1, e₀.2) := by
  unfold renameId at h
  split at h
  · rename_i value hvalue
    have hget := Dict.get?_eq_some_iff.2 h
    by_cases huid : e.1 = "uid"
    · rw [huid, Dict.get?_set_self] at hget
      refine ⟨("_id", value), Dict.get?_eq_some_iff.1 hvalue, Prod.ext huid ?_⟩
      exact (Option.some.inj hget).symm
    · rw [Dict.get?_set_ne _ _ huid, Dict.get?_erase] at hget
      split at hget
      · cases hget
      · rename_i hid
        refine ⟨e, Dict.get?_eq_some_iff.1 hget, ?_⟩
        rw [canonical, if_neg hid]
  · rename_i hnone
    refine ⟨e, h, ?_⟩
    have hid : e.1 ≠ "_id" := by
      intro heq
      have hget := Dict.get?_eq_some_iff.2 h
      rw [heq, hnone] at hget
      cases hget
    rw [canonical, if_neg hid]

theorem SearchDict.Supported.entries (h : d.Supported) : ∀ e ∈ d.entries.items, SupportedEntry e.1 e.2 := by
  induction d with
  | plain entries => exact h
  | or beside sub ih => exact ih h.2

/-- The call returns a query for a supported dict. -/
theorem exists_build (h : d.Supported) : ∃ query d', buildQueryFromDict d false = .ok (query, d') := by
  have hok : ∃ r, buildQueryFromDict (.plain d.entries) (d.isOr || false) = .ok r := by
    refine build_plain_ok_iff.2 fun e he => ?_
    obtain ⟨e₀, he₀, rfl⟩ := mem_renameId he
    obtain ⟨c, hc⟩ := (h.entries e₀ he₀).conditionOf
    exact ⟨some c, hc⟩
  obtain ⟨⟨query, left⟩, hbuild⟩ := hok
  exact ⟨query, d.left, build_iff.2 ⟨rfl, left, hbuild⟩⟩

/-! ## Entries with one operator -/

theorem mem_renameId_iff {entries : Entries} (hid : "_id" ∉ entries ∨ "uid" ∉ entries) {e : String × Json} :
    e ∈ (renameId entries).items ↔ ∃ e₀ ∈ entries.items, e = (canonical e₀.1, e₀.2) := by
  refine ⟨mem_renameId, ?_⟩
  rintro ⟨e₀, he₀, rfl⟩
  have hget := Dict.get?_eq_some_iff.2 he₀
  apply Dict.get?_eq_some_iff.1
  unfold renameId canonical
  cases hvalue : entries.get? "_id" with
  | none =>
      have hne : e₀.1 ≠ "_id" := by
        intro heq
        rw [heq, hvalue] at hget
        cases hget
      rw [if_neg hne]
      exact hget
  | some value =>
      have huid : "uid" ∉ entries := hid.resolve_left fun hnot => hnot (Dict.mem_of_get? hvalue)
      by_cases heq : e₀.1 = "_id"
      · rw [if_pos heq, Dict.get?_set_self, ← hvalue, ← heq]
        exact hget
      · have hne : e₀.1 ≠ "uid" := by
          intro heq
          exact huid (heq ▸ Dict.mem_of_get? hget)
        rw [if_neg heq, Dict.get?_set_ne _ _ hne, Dict.get?_erase_ne _ heq]
        exact hget

/-- Where each value has one operator and `uid` does not stand beside `_id`, what is
stated is tested. -/
theorem mem_conditionsOf_iff_stated {entries : Entries} (hid : "_id" ∉ entries ∨ "uid" ∉ entries)
    (hsingle : ∀ e ∈ entries.items, singleValues e.1 e.2 = [e.2]) :
    c ∈ conditionsOf (renameId entries) ↔ c ∈ statedBy entries := by
  have hstated : ∀ e ∈ entries.items, c ∈ stated e.1 e.2 ↔ conditionOf (canonical e.1) e.2 = .ok (some c) := by
    intro e he
    rw [stated, hsingle e he, List.mem_filterMap]
    simp only [List.mem_singleton, exists_eq_left, condition?]
    cases conditionOf (canonical e.1) e.2 with
    | ok o => simp
    | error error => simp
  rw [mem_conditionsOf, statedBy, List.mem_flatMap]
  constructor
  · rintro ⟨e, he, hc⟩
    obtain ⟨e₀, he₀, rfl⟩ := (mem_renameId_iff hid).1 he
    exact ⟨e₀, he₀, (hstated e₀ he₀).2 hc⟩
  · rintro ⟨e₀, he₀, hc⟩
    exact ⟨_, (mem_renameId_iff hid).2 ⟨e₀, he₀, rfl⟩, (hstated e₀ he₀).1 hc⟩

/-- A dict without `$or`, with one operator in each value and keys of one plugin, is
translated right. -/
theorem right_of_single {entries : Entries} (hid : "_id" ∉ entries ∨ "uid" ∉ entries)
    (hsingle : ∀ e ∈ entries.items, singleValues e.1 e.2 = [e.2]) (hone : OnePlugin (statedBy entries)) :
    (SearchDict.plain entries).Right := by
  have hsame : ∀ c, c ∈ (SearchDict.plain entries).tested ↔ c ∈ statedBy entries :=
    fun _ => mem_conditionsOf_iff_stated hid hsingle
  exact ⟨hsame, fun _ _ _ _ hc hc' => hone _ _ _ _ ((hsame _).1 hc) ((hsame _).1 hc')⟩

/-! ## The meaning over conditions -/

theorem entriesHold_iff {entries : Entries} : (∀ e ∈ entries.items, EntryHolds db uid e) ↔
    ∀ c ∈ statedBy entries, HoldsOn db uid c := by
  constructor
  · intro h c hc
    obtain ⟨e, he, hc⟩ := List.mem_flatMap.1 hc
    exact h e he c hc
  · intro h e he c hc
    exact h c (List.mem_flatMap.2 ⟨e, he, hc⟩)

/-- A `$or` holds iff everything that one of its alternatives states does. -/
theorem someHolds_iff : d.SomeHolds db uid ↔
    ∃ alternative ∈ d.alternatives, ∀ c ∈ alternative, HoldsOn db uid c := by
  have hentries : ∀ entries : Entries, (∃ e ∈ entries.items, EntryHolds db uid e) ↔
      ∃ alternative ∈ entries.items.map fun e => stated e.1 e.2, ∀ c ∈ alternative, HoldsOn db uid c := by
    intro entries
    constructor
    · rintro ⟨e, he, hholds⟩
      exact ⟨stated e.1 e.2, List.mem_map.2 ⟨e, he, rfl⟩, hholds⟩
    · rintro ⟨alternative, hmem, hholds⟩
      obtain ⟨e, he, rfl⟩ := List.mem_map.1 hmem
      exact ⟨e, he, hholds⟩
  induction d with
  | plain entries => exact hentries entries
  | or beside sub ih =>
      rw [SearchDict.SomeHolds, SearchDict.alternatives, hentries beside]
      simp only [List.mem_append, or_and_right, exists_or]
      exact or_congr_right ih

theorem alternatives_ne_nil (h : d.Supported) : ∀ alternative ∈ d.alternatives, alternative ≠ [] := by
  have hentries : ∀ entries : Entries, (∀ e ∈ entries.items, SupportedEntry e.1 e.2) →
      ∀ alternative ∈ entries.items.map fun e => stated e.1 e.2, alternative ≠ [] := by
    intro entries hentries alternative hmem
    obtain ⟨e, he, rfl⟩ := List.mem_map.1 hmem
    exact (hentries e he).stated_ne_nil
  induction d with
  | plain entries => exact hentries entries h
  | or beside sub ih =>
      intro alternative hmem
      rcases List.mem_append.1 hmem with hmem | hmem
      · exact hentries beside h.1 alternative hmem
      · exact ih h.2 alternative hmem

/-! ## Where the translation is right -/

theorem mem_tested (h : buildQueryFromDict d false = .ok (query, d')) : c ∈ query.conditions ↔ c ∈ d.tested :=
  (build_spec h).2.2.2 c

theorem denotes_of_rightAll {entries : Entries} (h : buildQueryFromDict (.plain entries) false = .ok (query, d'))
    (hright : (SearchDict.plain entries).Right) :
    uid ∈ query.selected db ↔ uid ∈ db.fileObject ∧ (SearchDict.plain entries).Holds db uid := by
  obtain ⟨-, hjoined, hall, -⟩ := build_spec h
  have hone : OnePlugin query.conditions := fun _ _ _ _ hc hc' =>
    hright.onePlugin _ _ _ _ ((mem_tested h).1 hc) ((mem_tested h).1 hc')
  have hholds : (SearchDict.plain entries).Holds db uid ↔ ∀ c ∈ statedBy entries, HoldsOn db uid c :=
    entriesHold_iff
  rw [mem_selected_all hjoined hall hone, hholds]
  refine and_congr_right fun _ => forall_congr' fun c => ?_
  rw [mem_tested h, hright.same]

theorem denotes_of_rightAny {beside : Entries} {sub : SearchDict}
    (h : buildQueryFromDict (.or beside sub) false = .ok (query, d'))
    (hright : (SearchDict.or beside sub).Right) :
    uid ∈ query.selected db ↔ uid ∈ db.fileObject ∧ (SearchDict.or beside sub).Holds db uid := by
  obtain ⟨-, hjoined, hany, -⟩ := build_spec h
  have hne : query.conditions ≠ [] := by
    obtain ⟨c, hc⟩ := List.exists_mem_of_ne_nil _ hright.nonempty
    exact List.ne_nil_of_mem ((mem_tested h).2 hc)
  have hrow : query.joinAnalysis = true → (∀ c ∈ query.conditions, c.isAnalysis = true) ∨
      ∃ plugin entry, db.analysis.get? (uid, plugin) = some entry := by
    intro hjoin
    obtain ⟨plugin, filter, hmem⟩ := hjoined.analysis.1 hjoin
    rcases hright.unmixed with hall | hnone
    · exact Or.inl fun c hc => hall c ((mem_tested h).1 hc)
    · have hkind := hnone _ ((mem_tested h).1 hmem)
      cases hkind
  have hnull : (∃ entry, db.firmware.get? uid = some entry) ∨
      ∀ filter, .firmware filter ∈ query.conditions → filter.isNull = false :=
    Or.inr fun filter hmem => hright.notNull filter ((mem_tested h).1 hmem)
  have hholds : (SearchDict.or beside sub).Holds db uid ↔ (∀ c ∈ statedBy beside, HoldsOn db uid c) ∧
      ∃ alternative ∈ sub.alternatives, ∀ c ∈ alternative, HoldsOn db uid c :=
    and_congr entriesHold_iff someHolds_iff
  rw [mem_selected_any hjoined hany hne hrow hnull, hholds]
  refine and_congr_right fun _ => ?_
  constructor
  · rintro ⟨c, hc, hon⟩
    have hc := (mem_tested h).1 hc
    obtain ⟨alternative, halternative, hsingle⟩ := hright.single c hc
    refine ⟨fun b hb => ?_, alternative, halternative, fun x hx => ?_⟩
    · rwa [hright.alone c hc b hb]
    · rwa [hsingle x hx]
  · rintro ⟨hbeside, alternative, halternative, hon⟩
    obtain ⟨c, hc, hmem⟩ := hright.complete alternative halternative
    refine ⟨c, (mem_tested h).2 hc, ?_⟩
    rcases hmem with hmem | hmem
    · exact hbeside c hmem
    · exact hon c hmem

theorem denotes_of_right (h : d.Supported) (hright : d.Right) : Denotes S db d := by
  obtain ⟨query, d', hbuild⟩ := exists_build h
  refine ⟨query, d', hbuild, fun uid => ?_⟩
  cases d with
  | plain entries => exact denotes_of_rightAll hbuild hright
  | or beside sub => exact denotes_of_rightAny hbuild hright

/-! ## Where it is not -/

section

variable {a : Condition → Bool} {plugins : List Plugin} {hasFirmware : Bool}

/-- Of one object the query and the dict say the same. -/
theorem selected_iff_of_denotes (h : buildQueryFromDict d false = .ok (query, d'))
    (hdenotes : Denotes (truth a) (oneObject a plugins hasFirmware) d) :
    "uid" ∈ query.selected (oneObject a plugins hasFirmware) ↔
      d.Holds (oneObject a plugins hasFirmware) "uid" := by
  obtain ⟨query₂, d₂, hbuild, hselected⟩ := hdenotes
  rw [h] at hbuild
  cases hbuild
  rw [hselected, and_iff_right (mem_oneObject.2 rfl)]

/-- What a list of conditions asks of an object with a row for each of them. -/
theorem holdsOn_all_iff {l conditions : List Condition} (hsub : l ⊆ conditions) :
    (∀ c ∈ l, HoldsOn (oneObject a (pluginsOf conditions) true) "uid" c) ↔ ∀ c ∈ l, a c = true := by
  refine forall₂_congr fun c hc => ?_
  rw [holdsOn_oneObject, askedOf_iff (hsub hc)]

/-- A comparison with null is true of the missing row of an outer join. -/
theorem mem_selected_of_isNull (h : query.Joined) (hany : query.any = true) {filter : Filter}
    (hfilter : .firmware filter ∈ query.conditions) (hnull : filter.isNull = true) :
    "uid" ∈ query.selected (oneObject a (pluginsOf query.conditions) false) := by
  have hanalysis : ∃ analysis, Query.analysisJoined (oneObject a (pluginsOf query.conditions) false)
      ⟨"uid", (), analysis, none⟩ query.joinAnalysis := by
    cases hjoin : query.joinAnalysis with
    | false => exact ⟨none, rfl⟩
    | true =>
        obtain ⟨plugin, filter', hmem⟩ := h.analysis.1 hjoin
        have hplugin : plugin ∈ pluginsOf query.conditions := List.mem_filterMap.2 ⟨_, hmem, rfl⟩
        exact ⟨some (plugin, plugin), plugin, plugin, get?_pluginRows.trans (if_pos ⟨rfl, hplugin⟩), rfl⟩
  obtain ⟨analysis, hanalysis⟩ := hanalysis
  refine Query.mem_selected.2 ⟨⟨"uid", (), analysis, none⟩, Query.mem_rows.2 ⟨?_, hanalysis, ?_, fun _ => rfl⟩, ?_, rfl⟩
  · exact get?_oneRow.trans (if_pos ⟨rfl, rfl⟩)
  · intro kind hkind
    obtain ⟨rfl, -⟩ := (h.firmware kind).1 hkind
    rw [hany, if_pos rfl]
    exact (get?_oneRow.trans (if_neg fun hrow => Bool.false_ne_true hrow.1)).symm
  · rw [Query.holds, hany, if_pos rfl, Bool.or_eq_true, List.any_eq_true]
    exact Or.inr ⟨.firmware filter, hfilter, hnull⟩

/-- A conjunction that means the same on every database is translated right. -/
theorem rightAll_of_denotes {entries : Entries}
    (h : buildQueryFromDict (.plain entries) false = .ok (query, d'))
    (hdenotes : ∀ (S : Semantics) (db : Database S), Denotes S db (.plain entries)) :
    (SearchDict.plain entries).Right := by
  obtain ⟨-, hjoined, hall, -⟩ := build_spec h
  have hsub : query.conditions ⊆ query.conditions ++ statedBy entries := List.subset_append_left _ _
  have hfound (a : Condition → Bool) :
      "uid" ∈ query.selected (oneObject a (pluginsOf (query.conditions ++ statedBy entries)) true) ↔
        ∀ c ∈ statedBy entries, a c = true := by
    rw [selected_iff_of_denotes h (hdenotes _ _), ← holdsOn_all_iff (List.subset_append_right _ _)]
    exact entriesHold_iff
  have hone : OnePlugin query.conditions := by
    by_contra htwo
    obtain ⟨row, hrow, hholds, -⟩ := Query.mem_selected.1 ((hfound fun _ => true).2 fun _ _ => rfl)
    have hmatching : row ∈ query.matching _ := List.mem_filter.2 ⟨hrow, hholds⟩
    rw [matching_eq_nil hall htwo] at hmatching
    cases hmatching
  refine ⟨fun c => ?_, fun _ _ _ _ hc hc' => hone _ _ _ _ ((mem_tested h).2 hc) ((mem_tested h).2 hc')⟩
  rw [← mem_tested h]
  apply mem_iff_of_forall_all
  intro a
  rw [← hfound a, selected_all_oneObject hjoined hall hone hsub]

section

variable {beside : Entries} {sub : SearchDict}
  (h : buildQueryFromDict (.or beside sub) false = .ok (query, d'))
  (hdenotes : ∀ (S : Semantics) (db : Database S), Denotes S db (.or beside sub))

include h hdenotes

/-- What an assignment makes of a `$or` on an object without some of its rows. -/
theorem selected_iff_or (a : Condition → Bool) (plugins : List Plugin) (hasFirmware : Bool) :
    "uid" ∈ query.selected (oneObject a plugins hasFirmware) ↔
      (∀ b ∈ statedBy beside, AskedOf a plugins hasFirmware b) ∧
        ∃ alternative ∈ sub.alternatives, ∀ x ∈ alternative, AskedOf a plugins hasFirmware x := by
  rw [selected_iff_of_denotes h (hdenotes _ _)]
  have hholds : (SearchDict.or beside sub).Holds (oneObject a plugins hasFirmware) "uid" ↔ _ :=
    and_congr entriesHold_iff someHolds_iff
  simp only [hholds, holdsOn_oneObject]

/-- If nothing is true, nothing holds. -/
theorem not_selected_of_false (hsupported : sub.Supported) {plugins : List Plugin} {hasFirmware : Bool} :
    "uid" ∉ query.selected (oneObject (fun _ => false) plugins hasFirmware) := by
  intro hselected
  obtain ⟨-, alternative, hmem, hall⟩ := (selected_iff_or h hdenotes _ _ _).1 hselected
  obtain ⟨x, hx⟩ := List.exists_mem_of_ne_nil _ (alternatives_ne_nil hsupported alternative hmem)
  exact Bool.false_ne_true (hall x hx).1

open Classical in
/-- A `$or` that means the same on every database is translated right. -/
theorem rightAny_of_denotes (hsupported : sub.Supported) : (SearchDict.or beside sub).Right := by
  obtain ⟨-, hjoined, hany, -⟩ := build_spec h
  have hne : query.conditions ≠ [] := by
    intro hnil
    have hselected : "uid" ∈ query.selected (oneObject (fun _ => false) [] true) :=
      (mem_selected_empty hjoined hany hnil).2 (mem_oneObject.2 rfl)
    exact not_selected_of_false h hdenotes hsupported hselected
  -- an object with all rows that the dict asks for
  let asked := query.conditions ++ (statedBy beside ++ sub.alternatives.flatten)
  have hbeside : statedBy beside ⊆ asked := fun b hb =>
    List.mem_append_right _ (List.mem_append_left _ hb)
  have halternatives : ∀ alternative ∈ sub.alternatives, alternative ⊆ asked := fun alternative hmem x hx =>
    List.mem_append_right _ (List.mem_append_right _ (List.mem_flatten.2 ⟨alternative, hmem, hx⟩))
  have hfound (a : Condition → Bool) : (∃ c ∈ query.conditions, a c = true) ↔
      (∀ b ∈ statedBy beside, a b = true) ∧
        ∃ alternative ∈ sub.alternatives, ∀ x ∈ alternative, a x = true := by
    rw [← selected_any_oneObject hjoined hany hne (List.subset_append_left _ _), selected_iff_or h hdenotes]
    refine and_congr (forall₂_congr fun b hb => askedOf_iff (hbeside hb)) (exists_congr fun alternative => ?_)
    exact and_congr_right fun hmem => forall₂_congr fun x hx => askedOf_iff (halternatives alternative hmem hx)
  -- only one condition is true
  have honly : ∀ c ∈ query.conditions, (∀ b ∈ statedBy beside, b = c) ∧
      ∃ alternative ∈ sub.alternatives, ∀ x ∈ alternative, x = c := by
    intro c hc
    have htrue := (hfound fun x => decide (x = c)).1 ⟨c, hc, decide_eq_true rfl⟩
    simpa only [decide_eq_true_eq] using htrue
  have hnonempty : (SearchDict.or beside sub).tested ≠ [] := by
    obtain ⟨c, hc⟩ := List.exists_mem_of_ne_nil _ hne
    exact List.ne_nil_of_mem ((mem_tested h).1 hc)
  refine ⟨hnonempty, fun c hc => (honly c ((mem_tested h).2 hc)).1,
    fun c hc => (honly c ((mem_tested h).2 hc)).2, ?_, ?_, ?_⟩
  · intro alternative hmem
    obtain ⟨c, hc, htrue⟩ := (hfound fun x => decide (x ∈ statedBy beside ∨ x ∈ alternative)).2
      ⟨fun b hb => decide_eq_true (Or.inl hb), alternative, hmem, fun x hx => decide_eq_true (Or.inr hx)⟩
    exact ⟨c, (mem_tested h).1 hc, of_decide_eq_true htrue⟩
  · by_contra hmixed
    rw [not_or] at hmixed
    obtain ⟨hnot, hsome⟩ := hmixed
    simp only [not_forall, Bool.not_eq_true, Bool.not_eq_false] at hnot hsome
    obtain ⟨c, hc, hplain⟩ := hnot
    obtain ⟨c', hc', hanalysis⟩ := hsome
    -- an object of which `c` holds, without a row in the analysis table
    have hasked : AskedOf (fun x => decide (x = c)) [] true c := by
      refine ⟨decide_eq_true rfl, ?_⟩
      cases c with
      | file filter => trivial
      | firmware filter => rfl
      | analysis plugin filter => cases hplain
    have hselected : "uid" ∈ query.selected (oneObject (fun x => decide (x = c)) [] true) := by
      rw [selected_iff_or h hdenotes]
      obtain ⟨hb, alternative, hmem, hx⟩ := honly c ((mem_tested h).2 hc)
      exact ⟨fun b hin => (hb b hin).symm ▸ hasked, alternative, hmem, fun x hin => (hx x hin).symm ▸ hasked⟩
    obtain ⟨row, hrow, -, -⟩ := Query.mem_selected.1 hselected
    have hjoin : query.joinAnalysis = true := by
      cases c' with
      | analysis plugin filter => exact hjoined.analysis.2 ⟨plugin, filter, (mem_tested h).2 hc'⟩
      | file filter | firmware filter => cases hanalysis
    have hcarried := (Query.mem_rows.1 hrow).2.1
    rw [hjoin] at hcarried
    obtain ⟨plugin, entry, hentry, -⟩ := hcarried
    have hnone : (pluginRows []).get? (row.uid, plugin) = none :=
      get?_pluginRows.trans (if_neg fun hin => List.not_mem_nil hin.2)
    have hfalse : some entry = none := hentry.symm.trans hnone
    cases hfalse
  · intro filter hfilter
    rw [← Bool.not_eq_true]
    intro hnull
    exact not_selected_of_false h hdenotes hsupported
      (mem_selected_of_isNull hjoined hany ((mem_tested h).2 hfilter) hnull)

end

end

/-- What means the same on every database is translated right. -/
theorem right_of_denotes (h : d.Supported)
    (hdenotes : ∀ (S : Semantics) (db : Database S), Denotes S db d) : d.Right := by
  obtain ⟨query, d', hbuild⟩ := exists_build h
  cases d with
  | plain entries => exact rightAll_of_denotes hbuild hdenotes
  | or beside sub => exact rightAny_of_denotes hbuild hdenotes h.2

/-- The query of a supported dict means what the dict says on every database exactly
when the dict is translated right. -/
theorem denotes_iff_right (h : d.Supported) :
    (∀ (S : Semantics) (db : Database S), Denotes S db d) ↔ d.Right := by
  constructor
  · exact right_of_denotes h
  · intro hright S db
    exact denotes_of_right h hright

/-- Firmware of a vendor or of a version. -/
def vendorOrVersion : SearchDict :=
  .or ∅ (.plain (((∅ : Entries).set "vendor" (.string "acme")).set "version" (.object [("$like", .string "1.0")])))

theorem vendorOrVersion_denotes_iff :
    (∀ (S : Semantics) (db : Database S), Denotes S db vendorOrVersion) ↔ vendorOrVersion.Right := by
  refine denotes_iff_right ⟨fun e he => absurd he List.not_mem_nil, fun e he => ?_⟩
  have he : e ∈ [("vendor", Json.string "acme"), ("version", .object [("$like", .string "1.0")])] := he
  rcases List.mem_pair.1 he with rfl | rfl
  · refine ⟨rfl, List.cons_ne_nil _ _, fun v hv => ?_⟩
    obtain rfl := List.mem_singleton.1 hv
    exact ⟨_, rfl⟩
  · refine ⟨rfl, List.cons_ne_nil _ _, fun v hv => ?_⟩
    obtain rfl := List.mem_singleton.1 hv
    exact ⟨_, rfl⟩

end QueryConversion

end FactCore
