import FactCore.Storage.QueryMeaning

/-! # The list of the matches and their number

`generic_search` and `get_number_of_total_matches` are called with the same search
dict, one after the other, to show a page of results and how many there are. Both
translate the dict, and the translation writes into it, so the second call may
translate something else. It is shown when the number is that of the list.
-/

namespace FactCore

namespace QueryConversion

variable {S : Semantics} {db : Database S} {query query' : Query} {d d' d'' : SearchDict} {orQuery : Bool}

/-! ## The two calls -/

/-- The subquery of `query_parent_firmware`: the root files of the matching rows. -/
def Query.parentUids (query : Query) (db : Database S) : List Uid :=
  db.fileObject.keys.filter fun root => (query.matching db).any fun row =>
    decide ((root, row.uid) ∈ db.fwFiles) || decide (row.uid = root)

/-- `query_parent_firmware`: the firmware in the subquery, or not in it. -/
def Query.parentFirmware (query : Query) (db : Database S) (inverted : Bool) : List Uid :=
  db.firmware.keys.filter fun uid =>
    if inverted then uid ∉ query.parentUids db else uid ∈ query.parentUids db

/-- `search_dict == {}`. -/
def SearchDict.isEmpty : SearchDict → Bool
  | .plain entries => entries.items.isEmpty
  | .or _ _ => false

/-- `generic_search` with `skip=0` and `limit=0`. The search dict is returned as the
call leaves it. -/
def genericSearch (db : Database S) (searchDict : SearchDict) (onlyFoParentFirmware inverted : Bool) :
    Except QueryError (List Uid × SearchDict) :=
  if searchDict.isEmpty then .ok (db.firmware.keys, searchDict)
  else do
    let (query, searchDict) ← buildQueryFromDict searchDict false
    return (if onlyFoParentFirmware then query.parentFirmware db inverted else query.selected db, searchDict)

/-- `get_number_of_total_matches`, with `get_firmware_number` and `get_file_object_number`. -/
def getNumberOfTotalMatches (db : Database S) (searchDict : SearchDict) (onlyParentFirmwares inverted : Bool) :
    Except QueryError (Nat × SearchDict) :=
  if searchDict.isEmpty then .ok (db.firmware.keys.length, searchDict)
  else do
    let (query, searchDict) ← buildQueryFromDict searchDict false
    return (if onlyParentFirmwares then (query.parentFirmware db inverted).length
      else (query.selected db).length, searchDict)

/-- After a list was returned, the number for the same dict is its length. -/
def Agree (S : Semantics) (db : Database S) (d : SearchDict) : Prop :=
  ∀ (onlyFirmware inverted : Bool) (list : List Uid) (d' : SearchDict),
    genericSearch db d onlyFirmware inverted = .ok (list, d') →
      ∃ d'', getNumberOfTotalMatches db d' onlyFirmware inverted = .ok (list.length, d'')

/-! ## What a call leaves of the dict -/

/-- Whether the entries that are reached are those of a `$or`. -/
def SearchDict.isOr : SearchDict → Bool
  | .plain _ => false
  | .or _ _ => true

/-- The entries that are reached, with `_id` under its new name. -/
def SearchDict.reached (d : SearchDict) : Entries := renameId d.entries

/-- The search dict as a call leaves it. -/
def SearchDict.left : SearchDict → SearchDict
  | .plain entries => .plain ((renameId entries).map rewritten)
  | .or beside sub => .or beside sub.left

/-- A call translates the entries that are reached. -/
theorem build_iff : buildQueryFromDict d orQuery = .ok (query, d') ↔
    d' = d.left ∧ ∃ left, buildQueryFromDict (.plain d.entries) (d.isOr || orQuery) = .ok (query, left) := by
  induction d generalizing orQuery d' with
  | plain entries =>
      show _ ↔ _ ∧ ∃ left, buildQueryFromDict (.plain entries) (false || orQuery) = _
      rw [Bool.false_or]
      constructor
      · intro h
        refine ⟨?_, d', h⟩
        obtain ⟨_, _, _, -, -, -, hr⟩ := build_plain.1 h
        exact (Prod.mk.inj hr).2
      · rintro ⟨rfl, left, h⟩
        obtain ⟨_, _, _, -, -, -, hr⟩ := build_plain.1 h
        rw [h, (Prod.mk.inj hr).2]
        rfl
  | or beside sub ih =>
      have hsub : (sub.isOr || true) = true := Bool.or_true _
      rw [buildQueryFromDict, bind_eq_ok]
      constructor
      · rintro ⟨⟨q, sub'⟩, hsub', heq⟩
        cases heq
        obtain ⟨rfl, left, h⟩ := ih.1 hsub'
        rw [hsub] at h
        exact ⟨rfl, left, h⟩
      · rintro ⟨rfl, left, h⟩
        refine ⟨(query, sub.left), ih.2 ⟨rfl, left, ?_⟩, rfl⟩
        rw [hsub]
        exact h

theorem left_entries (d : SearchDict) : d.left.entries = d.reached.map rewritten := by
  induction d with
  | plain entries => rfl
  | or beside sub ih => exact ih

theorem left_isOr (d : SearchDict) : d.left.isOr = d.isOr := by
  cases d with
  | plain entries => rfl
  | or beside sub => rfl

/-! ## The overwritten operands -/

section

variable {ops ops' : List (String × Json)} {name key subkey : String} {value : Json} {plugin : Plugin}

/-- The same operators are named. -/
def SameNames (ops ops' : List (String × Json)) : Prop :=
  ∀ name, (ops'.lookup name).isSome = (ops.lookup name).isSome

theorem dumpOperands_cons_of (rest : List (String × Json)) (operand : Json) (h : name = "$in" ∨ name = "$like") :
    dumpOperands ((name, operand) :: rest) = ((name, operand) :: rest, true) := by
  rw [dumpOperands, if_pos h]

theorem dumpOperands_cons_of_not (rest : List (String × Json)) (operand : Json)
    (h : ¬(name = "$in" ∨ name = "$like")) : dumpOperands ((name, operand) :: rest) =
      ((name, .string operand.dumps) :: (dumpOperands rest).1, (dumpOperands rest).2) := by
  rw [dumpOperands, if_neg h]

theorem sameNames_dumpOperands (ops : List (String × Json)) : SameNames ops (dumpOperands ops).1 := by
  intro name
  induction ops with
  | nil => rfl
  | cons op rest ih =>
      obtain ⟨name', operand⟩ := op
      by_cases h : name' = "$in" ∨ name' = "$like"
      · rw [dumpOperands_cons_of rest operand h]
      · rw [dumpOperands_cons_of_not rest operand h, List.lookup_cons, List.lookup_cons]
        by_cases heq : name = name'
        · simp [heq]
        · rw [beq_eq_false_iff_ne.2 heq]
          exact ih

/-- Whether the column is taken as text depends on the names only. -/
theorem dumpOperands_twice (ops : List (String × Json)) :
    (dumpOperands (dumpOperands ops).1).2 = (dumpOperands ops).2 := by
  induction ops with
  | nil => rfl
  | cons op rest ih =>
      obtain ⟨name', operand⟩ := op
      by_cases h : name' = "$in" ∨ name' = "$like"
      · rw [dumpOperands_cons_of rest operand h, dumpOperands_cons_of rest operand h]
      · rw [dumpOperands_cons_of_not rest operand h]
        show (dumpOperands ((name', _) :: (dumpOperands rest).1)).2 = (dumpOperands rest).2
        rw [dumpOperands_cons_of_not _ _ h]
        exact ih

theorem firstOperator_sameNames (h : SameNames ops ops') :
    (firstOperator ops').map Prod.fst = (firstOperator ops).map Prod.fst := by
  unfold firstOperator
  induction operators with
  | nil => rfl
  | cons entry rest ih =>
      rw [List.findSome?_cons, List.findSome?_cons]
      have hentry := h entry.1
      cases hops : ops.lookup entry.1 with
      | none =>
          rw [hops] at hentry
          have hops' : ops'.lookup entry.1 = none := by
            rw [← Option.not_isSome_iff_eq_none, hentry]
            exact Bool.false_ne_true
          rw [hops']
          exact ih
      | some operand =>
          rw [hops] at hentry
          obtain ⟨operand', hops'⟩ := Option.isSome_iff_exists.1 hentry
          rw [hops']
          rfl

/-- With the same operators the same filters are translated. -/
theorem dictKeyToFilter_sameNames {column : Column} {filter : Filter} (h : SameNames ops ops')
    (hok : dictKeyToFilter column key (.object ops) = .ok filter) :
    ∃ filter', dictKeyToFilter column key (.object ops') = .ok filter' := by
  have hfirst := firstOperator_sameNames h
  simp only [dictKeyToFilter] at hok ⊢
  cases hops : firstOperator ops with
  | none =>
      rw [hops] at hok
      cases hok
  | some found =>
      obtain ⟨operator, operand⟩ := found
      rw [hops] at hfirst hok
      cases hops' : firstOperator ops' with
      | none =>
          rw [hops'] at hfirst
          cases hfirst
      | some found' =>
          obtain ⟨operator', operand'⟩ := found'
          rw [hops'] at hfirst
          obtain rfl : operator' = operator := Option.some.inj hfirst
          cases operator' with
          | hasKey => exact ⟨filter, hok⟩
          | _ => exact ⟨_, rfl⟩

theorem addJsonFilter_dumped {filter : Filter} (hok : addJsonFilter key (.object ops) subkey = .ok filter) :
    ∃ filter', addJsonFilter key (.object (dumpOperands ops).1) subkey = .ok filter' := by
  have hsame := sameNames_dumpOperands ops
  have hsame' := sameNames_dumpOperands (dumpOperands ops).1
  simp only [addJsonFilter] at hok ⊢
  rw [hsame "$exists", dumpOperands_twice]
  exact dictKeyToFilter_sameNames hsame' hok

/-- A value that is overwritten is that of a key with a JSON column. -/
theorem rewritten_cases (key : String) (value : Json) : rewritten key value = value ∨
    ∃ ops plugin subkey, value = .object ops ∧ splitAnalysisKey key = .ok (plugin, subkey) ∧
      isAnalysisKey key = true ∧ subkey ∉ analysisColumns ∧ rewritten key value = .object (dumpOperands ops).1 := by
  unfold rewritten
  split
  · rename_i ops plugin subkey hsplit
    split
    · rename_i h
      exact Or.inr ⟨ops, plugin, subkey, rfl, hsplit, h.1, h.2, rfl⟩
    · exact Or.inl rfl
  · exact Or.inl rfl

theorem analysisCondition_json (value : Json) (hsplit : splitAnalysisKey key = .ok (plugin, subkey))
    (hsubkey : subkey ∉ analysisColumns) :
    analysisCondition key value = .analysis plugin <$> addJsonFilter key value subkey := by
  rw [analysisCondition, hsplit]
  show (addAnalysisFilterToQuery key value subkey >>= fun filter => pure (Condition.analysis plugin filter)) = _
  rw [addAnalysisFilterToQuery, if_neg hsubkey]
  cases addJsonFilter key value subkey with
  | ok filter => rfl
  | error e => rfl

/-- The condition of an overwritten value: the same, or another one for the same plugin. -/
theorem conditionOf_rewritten {c : Condition} (h : conditionOf key value = .ok (some c)) :
    ∃ c', conditionOf key (rewritten key value) = .ok (some c') ∧
      (c' = c ∨ ∃ plugin filter filter', c = .analysis plugin filter ∧ c' = .analysis plugin filter') := by
  rcases rewritten_cases key value with heq | ⟨ops, plugin, subkey, rfl, hsplit, hkey, hsubkey, heq⟩
  · exact ⟨c, by rw [heq, h], Or.inl rfl⟩
  · rw [conditionOf_analysis _ hkey, map_some_eq_ok, analysisCondition_json _ hsplit hsubkey, map_eq_ok] at h
    obtain ⟨filter, hok, rfl⟩ := h
    obtain ⟨filter', hok'⟩ := addJsonFilter_dumped hok
    refine ⟨.analysis plugin filter', ?_, Or.inr ⟨plugin, filter, filter', rfl, rfl⟩⟩
    rw [heq, conditionOf_analysis _ hkey, map_some_eq_ok, analysisCondition_json _ hsplit hsubkey, map_eq_ok]
    exact ⟨filter', hok', rfl⟩

/-- Whether a key is ignored does not depend on the value. -/
theorem conditionOf_ignored {value' : Json} (h : conditionOf key value = .ok none) :
    conditionOf key value' = .ok none := by
  have hnot : ∀ {x : Except QueryError Condition}, some <$> x ≠ .ok none := by
    intro x hx
    obtain ⟨c, -, hc⟩ := map_eq_ok.1 hx
    cases hc
  unfold conditionOf at h ⊢
  split
  · rename_i hkey
    rw [if_pos hkey] at h
    exact absurd h hnot
  · rename_i hkey
    rw [if_neg hkey] at h
    split
    · rename_i hfw
      rw [if_pos hfw] at h
      exact absurd h hnot
    · rename_i hfw
      rw [if_neg hfw] at h
      split
      · rename_i hfile
        rw [if_pos hfile] at h
        exact absurd h hnot
      · rfl

/-! ## Which entries are tested with another operand -/

/-- The operator that a value is tested with, under its name. -/
def testedOperator (ops : List (String × Json)) : Option (String × Operator) :=
  operators.find? fun entry => (ops.lookup entry.1).isSome

/-- The operators whose operands are overwritten: those before the first `$in` or `$like`. -/
def dumpedNames (ops : List (String × Json)) : List String :=
  (ops.map Prod.fst).takeWhile fun name => ¬(name = "$in" ∨ name = "$like")

/-- The value of an entry is tested with an operand that is overwritten. -/
def Overwritten (key : String) (value : Json) : Prop :=
  ∃ ops plugin subkey entry, value = .object ops ∧ isAnalysisKey key = true ∧
    splitAnalysisKey key = .ok (plugin, subkey) ∧ subkey ∉ analysisColumns ∧
    testedOperator ops = some entry ∧ entry.2 ≠ .hasKey ∧ entry.1 ∈ dumpedNames ops

theorem lookup_dumpOperands (h : name ∉ dumpedNames ops) :
    (dumpOperands ops).1.lookup name = ops.lookup name := by
  induction ops with
  | nil => rfl
  | cons op rest ih =>
      obtain ⟨name', operand⟩ := op
      by_cases hlike : name' = "$in" ∨ name' = "$like"
      · rw [dumpOperands_cons_of rest operand hlike]
      · have hnames : dumpedNames ((name', operand) :: rest) = name' :: dumpedNames rest := by
          rw [dumpedNames, List.map_cons, List.takeWhile_cons_of_pos (by simpa using hlike), dumpedNames]
        rw [hnames, List.mem_cons, not_or] at h
        rw [dumpOperands_cons_of_not rest operand hlike, List.lookup_cons, List.lookup_cons,
          beq_eq_false_iff_ne.2 h.1]
        exact ih h.2

theorem dumpedNames_dumpOperands (ops : List (String × Json)) :
    dumpedNames (dumpOperands ops).1 = dumpedNames ops := by
  have hnames : (dumpOperands ops).1.map Prod.fst = ops.map Prod.fst := by
    induction ops with
    | nil => rfl
    | cons op rest ih =>
        obtain ⟨name', operand⟩ := op
        by_cases hlike : name' = "$in" ∨ name' = "$like"
        · rw [dumpOperands_cons_of rest operand hlike]
        · rw [dumpOperands_cons_of_not rest operand hlike, List.map_cons, List.map_cons, ih]
  rw [dumpedNames, hnames, dumpedNames]

theorem firstOperator_eq (ops : List (String × Json)) : firstOperator ops =
    (testedOperator ops).bind fun entry => (ops.lookup entry.1).map fun operand => (entry.2, operand) := by
  unfold firstOperator testedOperator
  induction operators with
  | nil => rfl
  | cons entry rest ih =>
      rw [List.findSome?_cons, List.find?_cons]
      cases hlookup : ops.lookup entry.1 with
      | none => exact ih
      | some operand =>
          show some _ = ((some entry).bind _ : Option (Operator × Json))
          rw [Option.bind_some, hlookup, Option.map_some]

theorem testedOperator_sameNames (h : SameNames ops ops') : testedOperator ops' = testedOperator ops := by
  unfold testedOperator
  exact congrArg (fun p => operators.find? p) (funext fun entry => h entry.1)

/-- Only the operand of the operator that is tested matters, and not even that for `$exists`. -/
theorem dictKeyToFilter_congr {column : Column} (hsame : SameNames ops ops')
    (h : ∀ entry, testedOperator ops = some entry →
      entry.2 = .hasKey ∨ ops'.lookup entry.1 = ops.lookup entry.1) :
    (dictKeyToFilter column key (.object ops')).toOption = (dictKeyToFilter column key (.object ops)).toOption := by
  simp only [dictKeyToFilter]
  rw [firstOperator_eq, firstOperator_eq, testedOperator_sameNames hsame]
  cases htested : testedOperator ops with
  | none => rfl
  | some entry =>
      rw [Option.bind_some, Option.bind_some]
      rcases h entry htested with hkey | hlookup
      · obtain ⟨name, operator⟩ := entry
        obtain rfl : operator = .hasKey := hkey
        have hsome := List.find?_some (p := fun entry : String × Operator => (ops.lookup entry.1).isSome) htested
        have hsome' : (ops'.lookup name).isSome = true := (hsame name).trans hsome
        obtain ⟨operand, hoperand⟩ := Option.isSome_iff_exists.1 hsome
        obtain ⟨operand', hoperand'⟩ := Option.isSome_iff_exists.1 hsome'
        rw [hoperand, hoperand']
        rfl
      · rw [hlookup]
        cases hoperand : ops.lookup entry.1 with
        | none => rfl
        | some operand =>
            rw [Option.map_some]
            cases entry.2 <;> rfl

/-- An entry whose tested operand is not overwritten keeps its condition. -/
theorem condition_rewritten (h : ¬Overwritten key value) :
    condition? key (rewritten key value) = condition? key value := by
  have hoption : ∀ value', condition? key value' = (conditionOf key value').toOption.join := by
    intro value'
    unfold condition?
    cases conditionOf key value' with
    | ok o => cases o <;> rfl
    | error e => rfl
  rcases rewritten_cases key value with heq | ⟨ops, plugin, subkey, rfl, hsplit, hkey, hsubkey, heq⟩
  · rw [heq]
  · have hfilter : (addJsonFilter key (.object (dumpOperands ops).1) subkey).toOption =
        (addJsonFilter key (.object ops) subkey).toOption := by
      have hsame := sameNames_dumpOperands ops
      simp only [addJsonFilter]
      rw [hsame "$exists", dumpOperands_twice]
      refine dictKeyToFilter_congr (sameNames_dumpOperands (dumpOperands ops).1) fun entry htested => ?_
      rw [testedOperator_sameNames hsame] at htested
      by_cases hoperator : entry.2 = .hasKey
      · exact Or.inl hoperator
      · refine Or.inr (lookup_dumpOperands fun hmem => h ?_)
        rw [dumpedNames_dumpOperands] at hmem
        exact ⟨ops, plugin, subkey, entry, rfl, hkey, hsplit, hsubkey, htested, hoperator, hmem⟩
    have htransfer : ∀ {x y : Except QueryError Filter}, x.toOption = y.toOption →
        (some <$> Condition.analysis plugin <$> x).toOption = (some <$> Condition.analysis plugin <$> y).toOption := by
      intro x y hxy
      cases x <;> cases y <;> cases hxy <;> rfl
    rw [hoption, hoption, heq, conditionOf_analysis _ hkey, conditionOf_analysis _ hkey,
      analysisCondition_json _ hsplit hsubkey, analysisCondition_json _ hsplit hsubkey, htransfer hfilter]

end

/-! ## The two queries -/

theorem mem_conditionsOf {entries : Entries} {c : Condition} :
    c ∈ conditionsOf entries ↔ ∃ e ∈ entries.items, conditionOf e.1 e.2 = .ok (some c) := by
  rw [conditionsOf, List.mem_filterMap]
  refine exists_congr fun e => and_congr_right fun _ => ?_
  unfold condition?
  split
  · rename_i o ho
    rw [ho, Except.ok.injEq]
  · rename_i error herror
    rw [herror]
    constructor
    · intro h
      cases h
    · intro h
      cases h

theorem renameId_reached (d : SearchDict) :
    renameId (d.reached.map rewritten) = d.reached.map rewritten := by
  have hnone : d.reached.get? "_id" = none := by
    unfold SearchDict.reached renameId
    split
    · rw [Dict.get?_set_ne _ _ (by decide), Dict.get?_erase_self]
    · assumption
  rw [renameId, Dict.get?_map, hnone, Option.map_none]

theorem mem_reached_rewritten {e : String × Json} : e ∈ (d.reached.map rewritten).items ↔
    ∃ e₀ ∈ d.reached.items, e = (e₀.1, rewritten e₀.1 e₀.2) := by
  rw [Dict.map, List.mem_map]
  exact exists_congr fun e₀ => and_congr_right fun _ => eq_comm

/-- The second call translates the overwritten entries. -/
theorem exists_build_left (h : buildQueryFromDict d false = .ok (query, d')) :
    ∃ query' d'', buildQueryFromDict d.left false = .ok (query', d'') := by
  obtain ⟨-, left, hbuild⟩ := build_iff.1 h
  have hok := build_plain_ok_iff.1 ⟨_, hbuild⟩
  have hleft : ∃ r, buildQueryFromDict (.plain d.left.entries) (d.left.isOr || false) = .ok r := by
    rw [left_entries]
    refine build_plain_ok_iff.2 fun e he => ?_
    rw [renameId_reached] at he
    obtain ⟨e₀, he₀, rfl⟩ := mem_reached_rewritten.1 he
    obtain ⟨o, ho⟩ := hok e₀ he₀
    cases o with
    | none => exact ⟨none, conditionOf_ignored ho⟩
    | some c =>
        obtain ⟨c', hc', -⟩ := conditionOf_rewritten ho
        exact ⟨some c', hc'⟩
  obtain ⟨⟨query', left'⟩, hbuild'⟩ := hleft
  exact ⟨query', d.left.left, build_iff.2 ⟨rfl, left', hbuild'⟩⟩

/-- What a query is, for the entries that are reached. -/
theorem build_spec (h : buildQueryFromDict d false = .ok (query, d')) :
    d' = d.left ∧ query.Joined ∧ query.any = d.isOr ∧ ∀ c, c ∈ query.conditions ↔ c ∈ conditionsOf d.reached := by
  obtain ⟨hd', left, hbuild⟩ := build_iff.1 h
  rw [Bool.or_false] at hbuild
  obtain ⟨hjoined, hany⟩ := build_joined hbuild
  exact ⟨hd', hjoined, hany, fun c => by rw [mem_conditions hbuild, mem_conditionsOf]; rfl⟩

theorem build_left_spec (h : buildQueryFromDict d.left false = .ok (query, d')) :
    query.Joined ∧ query.any = d.isOr ∧
      ∀ c, c ∈ query.conditions ↔ c ∈ conditionsOf (d.reached.map rewritten) := by
  obtain ⟨-, hjoined, hany, hconditions⟩ := build_spec h
  refine ⟨hjoined, by rw [hany, left_isOr], fun c => ?_⟩
  rw [hconditions, SearchDict.reached, left_entries, renameId_reached]

/-- Queries with the same conditions match the same rows. -/
theorem matching_congr (hjoined : query.Joined) (hjoined' : query'.Joined) (hany : query.any = query'.any)
    (h : ∀ c, c ∈ query.conditions ↔ c ∈ query'.conditions) : query.matching db = query'.matching db := by
  have hanalysis : query.joinAnalysis = query'.joinAnalysis := by
    rw [Bool.eq_iff_iff, hjoined.analysis, hjoined'.analysis]
    simp only [h]
  have hfirmware : query.joinFirmware = query'.joinFirmware := by
    refine Option.ext fun kind => ?_
    rw [hjoined.firmware, hjoined'.firmware, hany]
    simp only [h]
  have hrows : query.rows db = query'.rows db := by
    unfold Query.rows
    rw [hanalysis, hfirmware]
  have hempty : query.conditions.isEmpty = query'.conditions.isEmpty := by
    rw [Bool.eq_iff_iff, List.isEmpty_iff, List.isEmpty_iff, List.eq_nil_iff_forall_not_mem,
      List.eq_nil_iff_forall_not_mem]
    simp only [h]
  have hholds : ∀ row : Row S, query.holds row = query'.holds row := by
    intro row
    have hsome : query.conditions.any (Condition.holds row) = query'.conditions.any (Condition.holds row) := by
      rw [Bool.eq_iff_iff, List.any_eq_true, List.any_eq_true]
      simp only [h]
    have hevery : query.conditions.all (Condition.holds row) = query'.conditions.all (Condition.holds row) := by
      rw [Bool.eq_iff_iff, List.all_eq_true, List.all_eq_true]
      simp only [h]
    rw [Query.holds, Query.holds, hany, hempty, hsome, hevery]
  rw [Query.matching, Query.matching, hrows]
  exact List.filter_congr fun row _ => hholds row

/-- One joined row is of one plugin, so a conjunction over two plugins matches nothing. -/
theorem matching_eq_nil (hall : query.any = false) (h : ¬OnePlugin query.conditions) :
    query.matching db = [] := by
  rw [Query.matching, List.filter_eq_nil_iff]
  intro row _ hholds
  apply h
  intro plugin filter plugin' filter' hc hc'
  rw [Query.holds, hall, if_neg Bool.false_ne_true, List.all_eq_true] at hholds
  have htrue := hholds _ hc
  have htrue' := hholds _ hc'
  cases hrow : row.analysis with
  | none =>
      rw [Condition.holds, hrow] at htrue
      cases htrue
  | some entry =>
      rw [Condition.holds, hrow, Bool.and_eq_true, decide_eq_true_eq] at htrue htrue'
      rw [← htrue.2, ← htrue'.2]

/-- The rows that match are all that a result depends on. -/
theorem parentFirmware_congr (h : query.matching db = query'.matching db) (inverted : Bool) :
    query.parentFirmware db inverted = query'.parentFirmware db inverted := by
  unfold Query.parentFirmware Query.parentUids
  rw [h]

theorem selected_congr (h : query.matching db = query'.matching db) : query.selected db = query'.selected db := by
  rw [Query.selected, Query.selected, h]

/-! ## When list and number agree -/

/-- Overwriting the operands leaves the conditions that are tested as they are. -/
def SearchDict.KeepsConditions (d : SearchDict) : Prop :=
  ∀ c, c ∈ conditionsOf d.reached ↔ c ∈ conditionsOf (d.reached.map rewritten)

/-- An entry that keeps its tested operand keeps its condition. -/
theorem keepsConditions_of_not_overwritten (h : ∀ e ∈ d.reached.items, ¬Overwritten e.1 e.2) :
    d.KeepsConditions := by
  intro c
  rw [conditionsOf, conditionsOf, List.mem_filterMap, List.mem_filterMap]
  constructor
  · rintro ⟨e, he, hc⟩
    refine ⟨(e.1, rewritten e.1 e.2), mem_reached_rewritten.2 ⟨e, he, rfl⟩, ?_⟩
    exact (condition_rewritten (h e he)).trans hc
  · rintro ⟨e', he', hc⟩
    obtain ⟨e, he, rfl⟩ := mem_reached_rewritten.1 he'
    exact ⟨e, he, (condition_rewritten (h e he)).symm.trans hc⟩

/-- The conditions are kept, or they are a conjunction over two plugins, which selects
nothing anyway. -/
def SearchDict.Settled (d : SearchDict) : Prop :=
  (d.isOr = false → OnePlugin (conditionsOf d.reached)) → d.KeepsConditions

/-- A condition and what may become of it: another one for the same plugin. -/
def Kin (c c' : Condition) : Prop :=
  c' = c ∨ ∃ plugin filter filter', c = .analysis plugin filter ∧ c' = .analysis plugin filter'

section

variable {c c' : Condition}

theorem exists_kin_of_mem (hc : c ∈ conditionsOf d.reached) :
    ∃ c' ∈ conditionsOf (d.reached.map rewritten), Kin c c' := by
  obtain ⟨e, he, hcondition⟩ := mem_conditionsOf.1 hc
  obtain ⟨c', hc', hkin⟩ := conditionOf_rewritten hcondition
  exact ⟨c', mem_conditionsOf.2 ⟨_, mem_reached_rewritten.2 ⟨e, he, rfl⟩, hc'⟩, hkin⟩

theorem exists_kin_of_mem_rewritten (h : buildQueryFromDict d false = .ok (query, d'))
    (hc' : c' ∈ conditionsOf (d.reached.map rewritten)) : ∃ c ∈ conditionsOf d.reached, Kin c c' := by
  obtain ⟨-, left, hbuild⟩ := build_iff.1 h
  obtain ⟨e', he', hcondition⟩ := mem_conditionsOf.1 hc'
  obtain ⟨e, he, rfl⟩ := mem_reached_rewritten.1 he'
  obtain ⟨o, ho⟩ := build_plain_ok_iff.1 ⟨_, hbuild⟩ e he
  cases o with
  | none =>
      rw [conditionOf_ignored ho] at hcondition
      cases hcondition
  | some c =>
      obtain ⟨c'', hc'', hkin⟩ := conditionOf_rewritten ho
      rw [hcondition] at hc''
      cases hc''
      exact ⟨c, mem_conditionsOf.2 ⟨e, he, ho⟩, hkin⟩

theorem onePlugin_rewritten (h : buildQueryFromDict d false = .ok (query, d'))
    (hone : OnePlugin (conditionsOf d.reached)) : OnePlugin (conditionsOf (d.reached.map rewritten)) := by
  have horigin : ∀ plugin filter, .analysis plugin filter ∈ conditionsOf (d.reached.map rewritten) →
      ∃ filter', .analysis plugin filter' ∈ conditionsOf d.reached := by
    intro plugin filter hmem
    obtain ⟨c, hc, heq | ⟨plugin', filter₁, filter₂, rfl, heq⟩⟩ := exists_kin_of_mem_rewritten h hmem
    · exact ⟨filter, by rw [heq]; exact hc⟩
    · cases heq
      exact ⟨filter₁, hc⟩
  intro plugin filter plugin' filter' hmem hmem'
  obtain ⟨filter₁, h₁⟩ := horigin plugin filter hmem
  obtain ⟨filter₂, h₂⟩ := horigin plugin' filter' hmem'
  exact hone plugin filter₁ plugin' filter₂ h₁ h₂

theorem left_isEmpty (d : SearchDict) : d.left.isEmpty = d.isEmpty := by
  cases d with
  | or beside sub => rfl
  | plain entries =>
      have hlength : ((renameId entries).map rewritten).items.isEmpty = (renameId entries).items.isEmpty := by
        rw [Dict.map, List.isEmpty_map]
      show ((renameId entries).map rewritten).items.isEmpty = entries.items.isEmpty
      rw [hlength]
      unfold renameId
      split
      · rename_i value hvalue
        have hmem : ("_id", value) ∈ entries.items := Dict.get?_eq_some_iff.1 hvalue
        have huid : ("uid", value) ∈ ((entries.erase "_id").set "uid" value).items :=
          Dict.get?_eq_some_iff.1 (Dict.get?_set_self _ _ _)
        rw [List.isEmpty_eq_false_iff.2 (List.ne_nil_of_mem hmem),
          List.isEmpty_eq_false_iff.2 (List.ne_nil_of_mem huid)]
      · rfl

/-- With the conditions settled the second query matches what the first one did. -/
theorem matching_left (h : buildQueryFromDict d false = .ok (query, d'))
    (h' : buildQueryFromDict d.left false = .ok (query', d'')) (hsettled : d.Settled) (db : Database S) :
    query.matching db = query'.matching db := by
  obtain ⟨-, hjoined, hany, hconditions⟩ := build_spec h
  obtain ⟨hjoined', hany', hconditions'⟩ := build_left_spec h'
  by_cases hone : d.isOr = false → OnePlugin (conditionsOf d.reached)
  · refine matching_congr hjoined hjoined' (hany.trans hany'.symm) fun c => ?_
    rw [hconditions, hconditions']
    exact hsettled hone c
  · obtain ⟨hor, htwo⟩ := Classical.not_imp.1 hone
    have htwo₁ : ¬OnePlugin query.conditions := by
      intro hone
      apply htwo
      intro plugin filter plugin' filter' hc hc'
      exact hone _ _ _ _ ((hconditions _).2 hc) ((hconditions _).2 hc')
    have htwo₂ : ¬OnePlugin query'.conditions := by
      intro hone
      apply htwo
      intro plugin filter plugin' filter' hc hc'
      have hkin : ∀ {plugin filter}, .analysis plugin filter ∈ conditionsOf d.reached →
          ∃ filter', .analysis plugin filter' ∈ query'.conditions := by
        intro plugin filter hc
        obtain ⟨c', hc', rfl | ⟨_, _, filter', heq, rfl⟩⟩ := exists_kin_of_mem hc
        · exact ⟨filter, (hconditions' _).2 hc'⟩
        · cases heq
          exact ⟨filter', (hconditions' _).2 hc'⟩
      obtain ⟨filter₁, h₁⟩ := hkin hc
      obtain ⟨filter₂, h₂⟩ := hkin hc'
      exact hone _ _ _ _ h₁ h₂
    rw [matching_eq_nil (hany.trans hor) htwo₁, matching_eq_nil (hany'.trans hor) htwo₂]

theorem genericSearch_eq_ok (hempty : d.isEmpty = false) {onlyFirmware inverted : Bool} {list : List Uid} :
    genericSearch db d onlyFirmware inverted = .ok (list, d') ↔
      ∃ query, buildQueryFromDict d false = .ok (query, d') ∧
        list = if onlyFirmware then query.parentFirmware db inverted else query.selected db := by
  rw [genericSearch, if_neg (by rw [hempty]; exact Bool.false_ne_true), bind_eq_ok]
  constructor
  · rintro ⟨⟨query, left⟩, hbuild, heq⟩
    cases heq
    exact ⟨query, hbuild, rfl⟩
  · rintro ⟨query, hbuild, rfl⟩
    exact ⟨(query, d'), hbuild, rfl⟩

theorem getNumberOfTotalMatches_eq_ok (hempty : d.isEmpty = false) {onlyFirmware inverted : Bool} {n : Nat} :
    getNumberOfTotalMatches db d onlyFirmware inverted = .ok (n, d') ↔
      ∃ query, buildQueryFromDict d false = .ok (query, d') ∧
        n = if onlyFirmware then (query.parentFirmware db inverted).length else (query.selected db).length := by
  rw [getNumberOfTotalMatches, if_neg (by rw [hempty]; exact Bool.false_ne_true), bind_eq_ok]
  constructor
  · rintro ⟨⟨query, left⟩, hbuild, heq⟩
    cases heq
    exact ⟨query, hbuild, rfl⟩
  · rintro ⟨query, hbuild, rfl⟩
    exact ⟨(query, d'), hbuild, rfl⟩

/-- With the conditions settled list and number agree on every database. -/
theorem agree_of_settled (hsettled : d.Settled) : Agree S db d := by
  intro onlyFirmware inverted list d' hlist
  cases hempty : d.isEmpty with
  | true =>
      rw [genericSearch, if_pos hempty] at hlist
      cases hlist
      exact ⟨d, by rw [getNumberOfTotalMatches, if_pos hempty]⟩
  | false =>
      obtain ⟨query, hbuild, rfl⟩ := (genericSearch_eq_ok hempty).1 hlist
      obtain ⟨query', d'', hbuild'⟩ := exists_build_left hbuild
      have hmatching := matching_left hbuild hbuild' hsettled db
      obtain ⟨rfl, -⟩ := build_spec hbuild
      refine ⟨d'', (getNumberOfTotalMatches_eq_ok ((left_isEmpty d).trans hempty)).2 ⟨query', hbuild', ?_⟩⟩
      cases onlyFirmware with
      | true => exact congrArg List.length (parentFirmware_congr hmatching inverted)
      | false => exact congrArg List.length (selected_congr hmatching)

/-! ## Where they differ -/

/-- The plugins that conditions ask for. -/
def pluginsOf (conditions : List Condition) : List Plugin :=
  conditions.filterMap fun
    | .analysis plugin _ => some plugin
    | _ => none

theorem askedOf_iff {a : Condition → Bool} {conditions : List Condition} (hc : c ∈ conditions) :
    AskedOf a (pluginsOf conditions) true c ↔ a c = true := by
  constructor
  · exact fun h => h.1
  · intro h
    refine ⟨h, ?_⟩
    cases c with
    | file filter => trivial
    | firmware filter => rfl
    | analysis plugin filter => exact List.mem_filterMap.2 ⟨_, hc, rfl⟩

/-- Of one object a list has it or is empty. -/
theorem length_selected_oneObject {a : Condition → Bool} {plugins : List Plugin} :
    (query.selected (oneObject a plugins true)).length =
      if "uid" ∈ query.selected (oneObject a plugins true) then 1 else 0 := by
  have hall : ∀ uid ∈ query.selected (oneObject a plugins true), uid = "uid" := by
    intro uid huid
    obtain ⟨row, hrow, -, rfl⟩ := Query.mem_selected.1 huid
    exact mem_oneObject.1 (Dict.mem_of_get? (Query.mem_rows.1 hrow).1)
  have hnodup : (query.selected (oneObject a plugins true)).Nodup := List.nodup_dedup _
  split
  · rename_i hmem
    have hsub : query.selected (oneObject a plugins true) ⊆ ["uid"] :=
      fun uid huid => List.mem_singleton.2 (hall uid huid)
    exact Nat.le_antisymm (hnodup.subperm hsub).length_le (List.length_pos_of_mem hmem)
  · rename_i hnot
    rw [List.length_eq_zero_iff, List.eq_nil_iff_forall_not_mem]
    intro uid huid
    rw [hall uid huid] at huid
    exact hnot huid

/-- If list and number agree, the object is found by both queries or by none. -/
theorem selected_iff_of_agree (hempty : d.isEmpty = false) {a : Condition → Bool} {plugins : List Plugin}
    (h : buildQueryFromDict d false = .ok (query, d')) (h' : buildQueryFromDict d.left false = .ok (query', d''))
    (hagree : Agree (truth a) (oneObject a plugins true) d) :
    "uid" ∈ query.selected (oneObject a plugins true) ↔ "uid" ∈ query'.selected (oneObject a plugins true) := by
  obtain ⟨d₂, hnumber⟩ := hagree false false _ d' ((genericSearch_eq_ok hempty).2 ⟨query, h, rfl⟩)
  obtain ⟨rfl, -⟩ := build_spec h
  obtain ⟨query₂, hbuild₂, hlength⟩ :=
    (getNumberOfTotalMatches_eq_ok ((left_isEmpty d).trans hempty)).1 hnumber
  rw [h'] at hbuild₂
  cases hbuild₂
  simp only [Bool.false_eq_true, if_false] at hlength
  rw [length_selected_oneObject, length_selected_oneObject] at hlength
  by_cases h₁ : "uid" ∈ query.selected (oneObject a plugins true)
  · by_cases h₂ : "uid" ∈ query'.selected (oneObject a plugins true)
    · exact iff_of_true h₁ h₂
    · rw [if_pos h₁, if_neg h₂] at hlength
      cases hlength
  · by_cases h₂ : "uid" ∈ query'.selected (oneObject a plugins true)
    · rw [if_neg h₁, if_pos h₂] at hlength
      cases hlength
    · exact iff_of_false h₁ h₂

/-- What a conjunction finds in a database of one object. -/
theorem selected_all_oneObject {a : Condition → Bool} {conditions : List Condition} (hjoined : query.Joined)
    (hall : query.any = false) (hone : OnePlugin query.conditions) (hsub : query.conditions ⊆ conditions) :
    "uid" ∈ query.selected (oneObject a (pluginsOf conditions) true) ↔ ∀ c ∈ query.conditions, a c = true := by
  rw [mem_selected_all hjoined hall hone, and_iff_right (mem_oneObject.2 rfl)]
  refine forall₂_congr fun c hc => ?_
  rw [holdsOn_oneObject, askedOf_iff (hsub hc)]

/-- What a disjunction finds in a database of one object. -/
theorem selected_any_oneObject {a : Condition → Bool} {conditions : List Condition} (hjoined : query.Joined)
    (hany : query.any = true) (hne : query.conditions ≠ []) (hsub : query.conditions ⊆ conditions) :
    "uid" ∈ query.selected (oneObject a (pluginsOf conditions) true) ↔ ∃ c ∈ query.conditions, a c = true := by
  have hrow : query.joinAnalysis = true → (∀ c ∈ query.conditions, c.isAnalysis = true) ∨
      ∃ plugin entry, (oneObject a (pluginsOf conditions) true).analysis.get? ("uid", plugin) = some entry := by
    intro hjoin
    obtain ⟨plugin, filter, hmem⟩ := hjoined.analysis.1 hjoin
    have hplugin : plugin ∈ pluginsOf conditions := List.mem_filterMap.2 ⟨_, hsub hmem, rfl⟩
    exact Or.inr ⟨plugin, plugin, get?_pluginRows.trans (if_pos ⟨rfl, hplugin⟩)⟩
  have hfirmware : ∃ entry, (oneObject a (pluginsOf conditions) true).firmware.get? "uid" = some entry :=
    ⟨(), (get?_oneRow).trans (if_pos ⟨rfl, rfl⟩)⟩
  rw [mem_selected_any hjoined hany hne hrow (Or.inl hfirmware), and_iff_right (mem_oneObject.2 rfl)]
  refine exists_congr fun c => and_congr_right fun hc => ?_
  rw [holdsOn_oneObject, askedOf_iff (hsub hc)]

open Classical in
/-- Conjunctions that are true under the same assignments are of the same conditions. -/
theorem mem_iff_of_forall_all {l l' : List Condition}
    (h : ∀ a : Condition → Bool, (∀ c ∈ l, a c = true) ↔ ∀ c ∈ l', a c = true) (c : Condition) :
    c ∈ l ↔ c ∈ l' := by
  -- only the conditions of one of them are true
  constructor
  · intro hc
    have htrue := (h fun c => decide (c ∈ l')).2 (fun c hc => decide_eq_true hc) c hc
    exact of_decide_eq_true htrue
  · intro hc
    have htrue := (h fun c => decide (c ∈ l)).1 (fun c hc => decide_eq_true hc) c hc
    exact of_decide_eq_true htrue

open Classical in
/-- Where list and number agree on all databases the conditions are settled. -/
theorem settled_of_agree (h : buildQueryFromDict d false = .ok (query, d'))
    (hagree : ∀ (S : Semantics) (db : Database S), Agree S db d) : d.Settled := by
  intro hone
  obtain ⟨query', d'', h'⟩ := exists_build_left h
  obtain ⟨-, hjoined, hany, hconditions⟩ := build_spec h
  obtain ⟨hjoined', hany', hconditions'⟩ := build_left_spec h'
  suffices hsame : ∀ c, c ∈ query.conditions ↔ c ∈ query'.conditions by
    intro c
    rw [← hconditions, ← hconditions', hsame]
  have hnil : query.conditions = [] ↔ query'.conditions = [] := by
    rw [List.eq_nil_iff_forall_not_mem, List.eq_nil_iff_forall_not_mem]
    simp only [hconditions, hconditions']
    constructor
    · intro hno c' hc'
      obtain ⟨c, hc, -⟩ := exists_kin_of_mem_rewritten h hc'
      exact hno c hc
    · intro hno c hc
      obtain ⟨c', hc', -⟩ := exists_kin_of_mem hc
      exact hno c' hc'
  by_cases hempty : query.conditions = []
  · rw [hempty, hnil.1 hempty]
    exact fun c => Iff.rfl
  have hdict : d.isEmpty = false := by
    cases d with
    | or beside sub => rfl
    | plain entries =>
        rw [← Bool.not_eq_true]
        intro hitems
        apply hempty
        rw [List.eq_nil_iff_forall_not_mem]
        intro c hc
        obtain ⟨e, he, -⟩ := mem_conditionsOf.1 ((hconditions c).1 hc)
        have hitems : entries.items = [] := List.isEmpty_iff.1 hitems
        have hreached : (renameId entries).items = [] := by
          have hnone : entries.get? "_id" = none := by rw [Dict.get?, hitems]; rfl
          rw [renameId, hnone]
          exact hitems
        have he : e ∈ (renameId entries).items := he
        rw [hreached] at he
        exact absurd he List.not_mem_nil
  -- the conditions of both queries, so that the object has all analysis rows
  have hsub : query.conditions ⊆ query.conditions ++ query'.conditions := List.subset_append_left _ _
  have hsub' : query'.conditions ⊆ query.conditions ++ query'.conditions := List.subset_append_right _ _
  have hfound (a : Condition → Bool) :=
    selected_iff_of_agree hdict h h'
      (hagree (truth a) (oneObject a (pluginsOf (query.conditions ++ query'.conditions)) true))
  cases hor : d.isOr with
  | false =>
      have hone₁ : OnePlugin query.conditions := fun _ _ _ _ hc hc' =>
        hone hor _ _ _ _ ((hconditions _).1 hc) ((hconditions _).1 hc')
      have hone₂ : OnePlugin query'.conditions := fun _ _ _ _ hc hc' =>
        onePlugin_rewritten h (hone hor) _ _ _ _ ((hconditions' _).1 hc) ((hconditions' _).1 hc')
      have hiff (a : Condition → Bool) :
          (∀ c ∈ query.conditions, a c = true) ↔ ∀ c ∈ query'.conditions, a c = true := by
        rw [← selected_all_oneObject hjoined (hany.trans hor) hone₁ hsub,
          ← selected_all_oneObject hjoined' (hany'.trans hor) hone₂ hsub']
        exact hfound a
      exact mem_iff_of_forall_all hiff
  | true =>
      have hiff (a : Condition → Bool) :
          (∃ c ∈ query.conditions, a c = true) ↔ ∃ c ∈ query'.conditions, a c = true := by
        rw [← selected_any_oneObject hjoined (hany.trans hor) hempty hsub,
          ← selected_any_oneObject hjoined' (hany'.trans hor) (fun hn => hempty (hnil.2 hn)) hsub']
        exact hfound a
      -- only one condition is true
      intro c
      constructor
      · intro hc
        obtain ⟨c', hc', htrue⟩ := (hiff fun x => decide (x = c)).1 ⟨c, hc, decide_eq_true rfl⟩
        rwa [← of_decide_eq_true htrue]
      · intro hc
        obtain ⟨c', hc', htrue⟩ := (hiff fun x => decide (x = c)).2 ⟨c, hc, decide_eq_true rfl⟩
        rwa [← of_decide_eq_true htrue]

/-- List and number agree on every database exactly when the dict is not translated at
all or its conditions are settled. -/
theorem agree_iff_settled (d : SearchDict) : (∀ (S : Semantics) (db : Database S), Agree S db d) ↔
    ((∃ r, buildQueryFromDict d false = .ok r) → d.Settled) := by
  constructor
  · rintro hagree ⟨⟨query, d'⟩, h⟩
    exact settled_of_agree h hagree
  · intro hsettled S db onlyFirmware inverted list d' hlist
    cases hempty : d.isEmpty with
    | true =>
        rw [genericSearch, if_pos hempty] at hlist
        cases hlist
        exact ⟨d, by rw [getNumberOfTotalMatches, if_pos hempty]⟩
    | false =>
        obtain ⟨query, hbuild, -⟩ := (genericSearch_eq_ok hempty).1 hlist
        exact agree_of_settled (hsettled ⟨_, hbuild⟩) onlyFirmware inverted list d' hlist

end

/-- A server on which an analysis row is the JSON text of the one element that is asked
for; `!=` compares it with the text of the operand. -/
def elementTexts : Semantics where
  File := Unit
  Firmware := Unit
  Analysis := String
  file _ _ := true
  firmware _ _ := true
  analysis filter text :=
    match filter.operator, filter.operand with
    | .ne, .string operand => decide (text ≠ operand)
    | _, _ => false

theorem elementTexts_fk (e : Uid × Plugin)
    (h : e ∈ (∅ : Dict (Uid × Plugin) String).set ("uid", "file_type") "\"text\"") :
    e.1 ∈ (∅ : Dict Uid Unit).set "uid" () := by
  rw [Dict.mem_set] at h
  rcases h with rfl | h
  · exact Dict.mem_set.2 (Or.inl rfl)
  · exact absurd h (Dict.notMem_empty e)

/-- One object whose type was found to be `text`. -/
def textFile : Database elementTexts where
  fileObject := (∅ : Dict Uid Unit).set "uid" ()
  firmware := ∅
  analysis := (∅ : Dict (Uid × Plugin) String).set ("uid", "file_type") "\"text\""
  fwFiles := ∅
  firmware_fk uid h := absurd h (Dict.notMem_empty uid)
  analysis_fk := elementTexts_fk
  fwFiles_fk := noFiles_fk

/-- Everything that is not `text`. -/
def notText : SearchDict :=
  .plain ((∅ : Entries).set "processed_analysis.file_type.mime" (.object [("$ne", .string "text")]))

/-- The list of the objects that are not `text` is empty, their number is one. -/
theorem notText_not_agree : ¬Agree elementTexts textFile notText := by
  intro hagree
  have hcalls : (match genericSearch textFile notText false false with
      | .error _ => false
      | .ok (list, d') =>
          match getNumberOfTotalMatches textFile d' false false with
          | .error _ => false
          | .ok (n, _) => n != list.length) = true := by decide +kernel
  cases hlist : genericSearch textFile notText false false with
  | error e =>
      rw [hlist] at hcalls
      cases hcalls
  | ok r =>
      obtain ⟨list, d'⟩ := r
      obtain ⟨d'', hnumber⟩ := hagree false false list d' hlist
      rw [hlist] at hcalls
      dsimp only at hcalls
      rw [hnumber] at hcalls
      simp at hcalls

end QueryConversion

end FactCore
