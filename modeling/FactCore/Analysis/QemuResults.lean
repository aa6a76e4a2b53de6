import FactCore.Lib.Dict
import FactCore.Lib.Loop
import FactCore.Lib.Replace

/-! # The results of the QEMU plugin

`process_docker_output` with `replace_empty_strings` and `merge_identical_results` of
`plugins/analysis/qemu_exec/code/qemu_exec.py`. The results stand under the parameter
they were obtained with; parameters with the same result are merged two at a time
until all results differ.

Results are compared with `==`, which for dicts does not look at the order of the
items; all that is used of it is that it is an equivalence.
-/

namespace FactCore.QemuResults

open Loop

/-! ## The source's functions -/

/-- `itertools.combinations(l, 2)`. -/
def combinations {α : Type*} : List α → List (α × α)
  | [] => []
  | a :: l => l.map (Prod.mk a) ++ combinations l

variable {ν : Type*}

/-- `EMPTY`. -/
def empty : String := "(no parameter)"

/-- `replace_empty_strings`. -/
def replaceEmptyStrings (dockerOutput : Dict String ν) : Dict String ν :=
  dockerOutput.keys.foldl
    (fun output key =>
      if key = " " then
        match output.get? key with
        | some result => (output.erase key).set empty result
        | none => output
      else output)
    dockerOutput

variable [BEq ν]

/-- The two parameters and the result, if it is the same. -/
def identicalResult (results : Dict String ν) (parameters : String × String) :
    Option (String × String × ν) :=
  match results.get? parameters.1, results.get? parameters.2 with
  | some result, some result' => if result == result' then some (parameters.1, parameters.2, result) else none
  | _, _ => none

/-- `f'{parameter_1}, {parameter_2}'`. -/
def combinedKey (parameter1 parameter2 : String) : String := parameter1 ++ ", " ++ parameter2

/-- One call of `merge_identical_results`: the first pair with identical results is
merged, and the function is called again. -/
def mergeBody (results : Dict String ν) : Dict String ν ⊕ Dict String ν :=
  match (combinations results.keys).findSome? (identicalResult results) with
  | some (parameter1, parameter2, result) =>
      .inl (((results.set (combinedKey parameter1 parameter2) result).erase parameter1).erase parameter2)
  | none => .inr results

/-- `merge_identical_results`, with at most `n` calls. -/
def mergeIdenticalResults (n : Nat) (results : Dict String ν) : Option (Dict String ν) :=
  iterate mergeBody n results

/-- `process_docker_output`; `straceOutput` is what `process_strace_output` stores. -/
def processDockerOutput (straceOutput : Dict String ν → ν) (n : Nat) (dockerOutput : Dict String ν) :
    Option (Dict String ν) :=
  mergeIdenticalResults n
    (replaceEmptyStrings (dockerOutput.set "strace" (straceOutput dockerOutput)))

/-! ## Pairs of a list -/

theorem mem_combinations {α : Type*} {l : List α} {a b : α} :
    (a, b) ∈ combinations l ↔ List.Sublist [a, b] l := by
  induction l with
  | nil => simp [combinations]
  | cons c l ih =>
      simp only [combinations, List.mem_append, List.mem_map, Prod.mk.injEq, ih]
      constructor
      · rintro (⟨_, hb, rfl, rfl⟩ | h)
        · exact (List.singleton_sublist.2 hb).cons_cons _
        · exact h.cons _
      · intro h
        cases h with
        | cons _ h => exact .inr h
        | cons_cons _ h => exact .inl ⟨b, List.singleton_sublist.1 h, rfl, rfl⟩

/-! ## Joined parameters -/

/-- `', '.join(parameters)`. -/
def joined (parameters : List String) : String := ", ".intercalate parameters

/-- The parameters contain no comma. -/
def NoComma (parameters : List String) : Prop := ∀ p ∈ parameters, ',' ∉ p.toList

theorem joined_append {l m : List String} (hl : l ≠ []) (hm : m ≠ []) :
    joined (l ++ m) = combinedKey (joined l) (joined m) :=
  String.intercalate_append_of_ne_nil hl hm

theorem toList_joined_cons {p : String} {l : List String} (hl : l ≠ []) :
    (joined (p :: l)).toList = p.toList ++ ',' :: ' ' :: (joined l).toList := by
  rw [joined, String.intercalate_cons_of_ne_nil hl, String.toList_append, String.toList_append]
  simp [joined]

/-- Parameters without a comma can be read off the joined string. -/
theorem joined_injective {l m : List String} (hl : l ≠ []) (hm : m ≠ []) (hlc : NoComma l)
    (hmc : NoComma m) (h : joined l = joined m) : l = m := by
  induction l generalizing m with
  | nil => exact absurd rfl hl
  | cons p l ih =>
      cases m with
      | nil => exact absurd rfl hm
      | cons q m =>
          have hp : ',' ∉ p.toList := hlc p List.mem_cons_self
          have hq : ',' ∉ q.toList := hmc q List.mem_cons_self
          have hlist := congrArg String.toList h
          by_cases hl0 : l = []
          · by_cases hm0 : m = []
            · subst hl0 hm0
              simpa [joined] using h
            · -- one side has no comma at all
              rw [toList_joined_cons hm0, hl0] at hlist
              have : ',' ∈ p.toList := by
                have hmem : ',' ∈ (joined [p]).toList := by rw [hlist]; simp
                simpa [joined] using hmem
              exact absurd this hp
          · by_cases hm0 : m = []
            · rw [toList_joined_cons hl0, hm0] at hlist
              have : ',' ∈ q.toList := by
                have hmem : ',' ∈ (joined [q]).toList := by rw [← hlist]; simp
                simpa [joined] using hmem
              exact absurd this hq
            · rw [toList_joined_cons hl0, toList_joined_cons hm0] at hlist
              rcases Replace.append_sep_inj hp hq hlist with ⟨hhead, htail⟩
              have hrest : joined l = joined m := String.toList_inj.1 (List.cons.inj htail).2
              rw [String.toList_inj.1 hhead, ih hl0 hm0
                (fun x hx => hlc x (List.mem_cons_of_mem _ hx))
                (fun x hx => hmc x (List.mem_cons_of_mem _ hx)) hrest]

/-! ## One merge -/

theorem exists_perm_cons {α : Type*} {a : α} {l : List α} (h : a ∈ l) : ∃ rest, l.Perm (a :: rest) := by
  rcases List.append_of_mem h with ⟨front, behind, rfl⟩
  exact ⟨front ++ behind, List.perm_middle⟩

omit [BEq ν] in
/-- Two entries are replaced by one under a new key. -/
theorem items_merge {d : Dict String ν} {k k1 k2 : String} {x x1 x2 : ν} {rest : List (String × ν)}
    (h : d.items.Perm ((k1, x1) :: (k2, x2) :: rest)) (hk : k ∉ d) :
    (((d.set k x).erase k1).erase k2).items.Perm (rest ++ [(k, x)]) := by
  have hkeys : (k1 :: k2 :: rest.map Prod.fst).Nodup := (h.map Prod.fst).nodup_iff.1 d.nodup
  rcases List.nodup_cons.1 hkeys with ⟨hk1, hkeys⟩
  rcases List.nodup_cons.1 hkeys with ⟨hk2, -⟩
  have hmem : ∀ e ∈ (k1, x1) :: (k2, x2) :: rest, e.1 ∈ d := by
    intro e he
    exact Dict.mem_of_get? (Dict.get?_eq_some_iff.2 (h.mem_iff.2 he))
  -- the entries that stay have other keys
  have hstay : ∀ e ∈ rest ++ [(k, x)], e.1 ≠ k1 ∧ e.1 ≠ k2 := by
    intro e he
    rcases List.mem_append.1 he with he | he
    · have hfst := List.mem_map_of_mem (f := Prod.fst) he
      refine ⟨fun h1 => hk1 ?_, fun h2 => hk2 (h2 ▸ hfst)⟩
      exact List.mem_cons_of_mem _ (h1 ▸ hfst)
    · obtain rfl := List.mem_singleton.1 he
      have hk1 : k1 ∈ d := hmem (k1, x1) (by simp)
      have hk2 : k2 ∈ d := hmem (k2, x2) (by simp)
      exact ⟨fun h1 => hk ((show k = k1 from h1) ▸ hk1), fun h2 => hk ((show k = k2 from h2) ▸ hk2)⟩
  have hperm : (d.set k x).items.Perm ((k1, x1) :: (k2, x2) :: (rest ++ [(k, x)])) := by
    rw [Dict.items_set_of_notMem x hk]
    exact h.append_right [(k, x)]
  refine ((hperm.filter _).filter _).trans ?_
  rw [List.filter_filter, List.filter_cons_of_neg (by simp), List.filter_cons_of_neg (by simp),
    List.filter_eq_self.2 (by simpa using fun e he => (hstay e he).symm)]

/-- The entries of the dict and the parameters that are merged in each. -/
structure Merged (results d : Dict String ν) (groups : List (List String × ν)) : Prop where
  items : d.items.Perm (groups.map fun g => (joined g.1, g.2))
  parameters : (groups.flatMap Prod.fst).Perm results.keys
  ne_nil : ∀ g ∈ groups, g.1 ≠ []
  same : ∀ g ∈ groups, ∀ p ∈ g.1, ∃ result, results.get? p = some result ∧ result == g.2

variable {results d d' : Dict String ν} {groups groups' : List (List String × ν)}

theorem Merged.perm (h : Merged results d groups) (hperm : groups.Perm groups') :
    Merged results d groups' where
  items := h.items.trans (hperm.map _)
  parameters := (hperm.symm.flatMap_right _).trans h.parameters
  ne_nil g hg := h.ne_nil g (hperm.mem_iff.2 hg)
  same g hg := h.same g (hperm.mem_iff.2 hg)

theorem Merged.noComma (h : Merged results d groups) (hcomma : NoComma results.keys)
    {g : List String × ν} (hg : g ∈ groups) : NoComma g.1 :=
  fun p hp => hcomma p (h.parameters.mem_iff.1 (List.mem_flatMap.2 ⟨g, hg, hp⟩))

/-- Each entry of the dict is one of the groups. -/
theorem Merged.exists_group (h : Merged results d groups) {k : String} {x : ν}
    (hk : d.get? k = some x) : ∃ g ∈ groups, joined g.1 = k ∧ g.2 = x := by
  have hmem := h.items.mem_iff.1 (Dict.get?_eq_some_iff.1 hk)
  rcases List.mem_map.1 hmem with ⟨g, hg, heq⟩
  exact ⟨g, hg, congrArg Prod.fst heq, congrArg Prod.snd heq⟩

/-- The key of two groups together is none of the keys, since no parameter stands in
two groups. -/
theorem Merged.combinedKey_notMem {g1 g2 : List String × ν} (h : Merged results d (g1 :: g2 :: groups))
    (hcomma : NoComma results.keys) : joined (g1.1 ++ g2.1) ∉ d := by
  intro hmem
  rcases Dict.mem_iff.1 hmem with ⟨x, hx⟩
  rcases h.exists_group hx with ⟨g, hg, hkey, -⟩
  have hne1 := h.ne_nil g1 (by simp)
  have hne2 := h.ne_nil g2 (by simp)
  have hboth : NoComma (g1.1 ++ g2.1) := by
    intro p hp
    rcases List.mem_append.1 hp with hp | hp
    · exact h.noComma hcomma (by simp) p hp
    · exact h.noComma hcomma (by simp) p hp
  have heq : g.1 = g1.1 ++ g2.1 :=
    joined_injective (h.ne_nil g hg) (by simp [hne1]) (h.noComma hcomma hg) hboth hkey
  rcases List.mem_cons.1 hg with rfl | hg
  · exact hne2 (List.append_right_eq_self.1 heq.symm)
  rcases List.mem_cons.1 hg with rfl | hg
  · exact hne1 (List.append_left_eq_self.1 heq.symm)
  -- a parameter of the first group would stand in another one, too
  have hnodup : ((g1 :: g2 :: groups).flatMap Prod.fst).Nodup := h.parameters.nodup_iff.2 results.nodup
  rw [List.flatMap_cons, List.nodup_append] at hnodup
  rcases List.exists_mem_of_ne_nil _ hne1 with ⟨p, hp⟩
  apply hnodup.2.2 p hp p _ rfl
  apply List.mem_flatMap.2
  exact ⟨g, List.mem_cons_of_mem _ hg, by rw [heq]; exact List.mem_append_left _ hp⟩

theorem identicalResult_eq_some {parameters : String × String} {p1 p2 : String} {x : ν} :
    identicalResult d parameters = some (p1, p2, x) ↔
      parameters = (p1, p2) ∧ d.get? p1 = some x ∧ ∃ x', d.get? p2 = some x' ∧ x == x' := by
  rcases parameters with ⟨q1, q2⟩
  unfold identicalResult
  constructor
  · intro h
    split at h
    next result result' h1 h2 =>
      split at h
      next hsame =>
        simp only [Option.some.injEq, Prod.mk.injEq] at h
        rcases h with ⟨rfl, rfl, rfl⟩
        exact ⟨rfl, h1, result', h2, hsame⟩
      next => cases h
    next => cases h
  · rintro ⟨heq, h1, x', h2, hsame⟩
    obtain ⟨rfl, rfl⟩ := Prod.mk.inj heq
    simp only [h1, h2, if_pos hsame]

/-- What a call does that merges two entries. -/
theorem mergeBody_inl (h : mergeBody d = .inl d') :
    ∃ p1 p2 x x', List.Sublist [p1, p2] d.keys ∧ d.get? p1 = some x ∧ d.get? p2 = some x' ∧
      x == x' ∧ d' = ((d.set (combinedKey p1 p2) x).erase p1).erase p2 := by
  unfold mergeBody at h
  split at h
  next p1 p2 x hfound =>
    rcases List.exists_of_findSome?_eq_some hfound with ⟨parameters, hmem, hsame⟩
    rcases identicalResult_eq_some.1 hsame with ⟨rfl, h1, x', h2, heq⟩
    exact ⟨p1, p2, x, x', mem_combinations.1 hmem, h1, h2, heq, (Sum.inl.inj h).symm⟩
  next => cases h

/-- A call that merges nothing returns the dict, in which all results differ. -/
theorem mergeBody_inr (h : mergeBody d = .inr d') :
    d' = d ∧ ∀ p1 p2 x x', List.Sublist [p1, p2] d.keys → d.get? p1 = some x →
      d.get? p2 = some x' → (x == x') = false := by
  unfold mergeBody at h
  split at h
  next => cases h
  next hnone =>
    refine ⟨(Sum.inr.inj h).symm, fun p1 p2 x x' hsub h1 h2 => ?_⟩
    have hall := List.findSome?_eq_none_iff.1 hnone (p1, p2) (mem_combinations.2 hsub)
    apply Bool.eq_false_iff.2
    intro hsame
    rw [identicalResult_eq_some.2 ⟨rfl, h1, x', h2, hsame⟩] at hall
    cases hall

/-- Two different groups of a dict. -/
theorem Merged.exists_groups (h : Merged results d groups) {p1 p2 : String} {x x' : ν}
    (hne : p1 ≠ p2) (h1 : d.get? p1 = some x) (h2 : d.get? p2 = some x') :
    ∃ g1 g2 rest, Merged results d (g1 :: g2 :: rest) ∧ joined g1.1 = p1 ∧ joined g2.1 = p2 ∧
      g1.2 = x ∧ g2.2 = x' := by
  rcases h.exists_group h1 with ⟨g1, hg1, rfl, rfl⟩
  rcases h.exists_group h2 with ⟨g2, hg2, rfl, rfl⟩
  rcases exists_perm_cons hg1 with ⟨others, hothers⟩
  have hg2' : g2 ∈ others := by
    rcases List.mem_cons.1 (hothers.mem_iff.1 hg2) with rfl | hmem
    · exact absurd rfl hne
    · exact hmem
  rcases exists_perm_cons hg2' with ⟨rest, hrest⟩
  exact ⟨g1, g2, rest, h.perm (hothers.trans (hrest.cons g1)), rfl, rfl, rfl, rfl⟩

variable [EquivBEq ν]

/-- Merging two entries merges their groups. -/
theorem Merged.mergeBody (h : Merged results d groups) (hcomma : NoComma results.keys)
    (hstep : mergeBody d = .inl d') : ∃ groups', Merged results d' groups' ∧
      d'.items.length < d.items.length := by
  rcases mergeBody_inl hstep with ⟨p1, p2, x, x', hsub, h1, h2, hsame, rfl⟩
  have hne : p1 ≠ p2 := by
    have hnodup : [p1, p2].Nodup := hsub.nodup d.nodup
    simpa using hnodup
  rcases h.exists_groups hne h1 h2 with ⟨g1, g2, rest, hg, rfl, rfl, rfl, rfl⟩
  have hkey : joined (g1.1 ++ g2.1) = combinedKey (joined g1.1) (joined g2.1) :=
    joined_append (hg.ne_nil g1 (by simp)) (hg.ne_nil g2 (by simp))
  have hitems := items_merge (x := g1.2) hg.items (hg.combinedKey_notMem hcomma)
  rw [hkey] at hitems
  refine ⟨rest ++ [(g1.1 ++ g2.1, g1.2)], ⟨?_, ?_, ?_, ?_⟩, ?_⟩
  · rw [List.map_append, List.map_singleton, hkey]
    exact hitems
  · refine List.Perm.trans ?_ hg.parameters
    rw [List.flatMap_append, List.flatMap_singleton, List.flatMap_cons, List.flatMap_cons,
      ← List.append_assoc g1.1]
    exact List.perm_append_comm
  · intro g hmem
    rcases List.mem_append.1 hmem with hmem | hmem
    · exact hg.ne_nil g (by simp [hmem])
    · obtain rfl := List.mem_singleton.1 hmem
      exact fun hnil => hg.ne_nil g1 (by simp) (List.append_eq_nil_iff.1 hnil).1
  · intro g hmem p hp
    rcases List.mem_append.1 hmem with hmem | hmem
    · exact hg.same g (by simp [hmem]) p hp
    · obtain rfl := List.mem_singleton.1 hmem
      rcases List.mem_append.1 hp with hp | hp
      · exact hg.same g1 (by simp) p hp
      · -- the results of the second group are those of the first
        rcases hg.same g2 (by simp) p hp with ⟨result, hresult, heq⟩
        exact ⟨result, hresult, BEq.trans heq (BEq.symm hsame)⟩
  · have hlen := hitems.length_eq
    have hold := hg.items.length_eq
    simp only [List.length_append, List.length_map, List.length_cons, List.length_nil] at hlen hold
    omega

/-! ## All merges -/

omit [EquivBEq ν] in
theorem merged_start [ReflBEq ν] (results : Dict String ν) :
    Merged results results (results.items.map fun e => ([e.1], e.2)) where
  items := by
    rw [List.map_map]
    exact List.Perm.of_eq (by simp [Function.comp_def, joined])
  parameters := by
    rw [List.flatMap_map]
    exact List.Perm.of_eq (by simp [Dict.keys, List.map_eq_flatMap])
  ne_nil := by
    intro g hg
    rcases List.mem_map.1 hg with ⟨e, -, rfl⟩
    exact List.cons_ne_nil _ _
  same := by
    intro g hg p hp
    rcases List.mem_map.1 hg with ⟨⟨k, x⟩, he, rfl⟩
    obtain rfl := List.mem_singleton.1 hp
    exact ⟨x, Dict.get?_eq_some_iff.2 he, BEq.refl x⟩

/-- What `merge_identical_results` promises: one entry for each result, under the
parameters that had it. -/
structure MergedResults (results merged : Dict String ν) : Prop where
  one_entry : ∀ p result, results.get? p = some result → ∃! e, e ∈ merged.items ∧ result == e.2
  parameters : ∀ e ∈ merged.items, ∃ params : List String, params ≠ [] ∧ params.Nodup ∧
    e.1 = joined params ∧ ∀ p, p ∈ params ↔ ∃ result, results.get? p = some result ∧ result == e.2

omit [EquivBEq ν] in
theorem Merged.nodup_group (h : Merged results d groups) {g : List String × ν} (hg : g ∈ groups) :
    g.1.Nodup :=
  (List.nodup_flatMap.1 (h.parameters.nodup_iff.2 results.nodup)).1 g hg

omit [EquivBEq ν] in
/-- Each result is in the group of an entry that is identical to it. -/
theorem Merged.group_of_result (h : Merged results d groups) {p : String} {result : ν}
    (hresult : results.get? p = some result) :
    ∃ g ∈ groups, p ∈ g.1 ∧ (joined g.1, g.2) ∈ d.items ∧ result == g.2 := by
  have hp : p ∈ groups.flatMap Prod.fst :=
    h.parameters.mem_iff.2 (Dict.mem_keys.2 (Dict.mem_of_get? hresult))
  rcases List.mem_flatMap.1 hp with ⟨g, hg, hpg⟩
  rcases h.same g hg p hpg with ⟨result', hresult', hsame⟩
  obtain rfl : result = result' := Option.some.inj (hresult.symm.trans hresult')
  exact ⟨g, hg, hpg, h.items.mem_iff.2 (List.mem_map_of_mem hg), hsame⟩

/-- Where no two entries are identical, identical entries are one. -/
theorem eq_of_differ (hdiffer : ∀ p1 p2 x x', List.Sublist [p1, p2] d.keys → d.get? p1 = some x →
    d.get? p2 = some x' → (x == x') = false) {e e' : String × ν} (he : e ∈ d.items) (he' : e' ∈ d.items)
    (hsame : e.2 == e'.2) : e = e' := by
  have hpairs : d.keys.Pairwise fun p1 p2 =>
      ∀ x x', d.get? p1 = some x → d.get? p2 = some x' → (x == x') = false := by
    apply List.pairwise_iff_forall_sublist.2
    intro p1 p2 hsub x x'
    exact hdiffer p1 p2 x x' hsub
  have hsymm : Std.Symm fun p1 p2 =>
      ∀ x x', d.get? p1 = some x → d.get? p2 = some x' → (x == x') = false := by
    constructor
    intro p1 p2 hp x x' h1 h2
    rw [BEq.comm]
    exact hp x' x h2 h1
  have hget : d.get? e.1 = some e.2 := Dict.get?_eq_some_iff.2 he
  have hget' : d.get? e'.1 = some e'.2 := Dict.get?_eq_some_iff.2 he'
  have hkey : e.1 = e'.1 := by
    apply Decidable.byContradiction
    intro hne
    have hfalse := hpairs.forall (Dict.mem_keys.2 (Dict.mem_of_get? hget))
      (Dict.mem_keys.2 (Dict.mem_of_get? hget')) hne e.2 e'.2 hget hget'
    rw [hsame] at hfalse
    cases hfalse
  rw [← hkey, hget] at hget'
  exact Prod.ext hkey (Option.some.inj hget')

/-- Where no two entries are identical, the groups are what the merge promises. -/
theorem Merged.mergedResults (h : Merged results d groups) (hcomma : NoComma results.keys)
    (hdiffer : ∀ p1 p2 x x', List.Sublist [p1, p2] d.keys → d.get? p1 = some x →
      d.get? p2 = some x' → (x == x') = false) : MergedResults results d := by
  constructor
  · intro p result hresult
    rcases h.group_of_result hresult with ⟨g, -, -, he, hsame⟩
    refine ⟨_, ⟨he, hsame⟩, fun e' he' => ?_⟩
    exact eq_of_differ hdiffer he'.1 he (BEq.trans (BEq.symm he'.2) hsame)
  · intro e he
    rcases List.mem_map.1 (h.items.mem_iff.1 he) with ⟨g, hg, rfl⟩
    refine ⟨g.1, h.ne_nil g hg, h.nodup_group hg, rfl, fun p => ⟨h.same g hg p, ?_⟩⟩
    rintro ⟨result, hresult, hsame⟩
    rcases h.group_of_result hresult with ⟨g', hg', hpg, he', hsame'⟩
    have heq := eq_of_differ hdiffer he' he (BEq.trans (BEq.symm hsame') hsame)
    -- the parameters can be told from the key, since there is no comma in them
    rw [← joined_injective (h.ne_nil g' hg') (h.ne_nil g hg) (h.noComma hcomma hg')
      (h.noComma hcomma hg) (Prod.mk.inj heq).1]
    exact hpg

/-- The calls come to an end, with one entry for each result. -/
theorem exists_merged (results : Dict String ν) (hcomma : NoComma results.keys) :
    ∃ merged, Terminates (fun n => mergeIdenticalResults n results) merged ∧
      MergedResults results merged := by
  -- the groups are kept, and every merge leaves one entry less
  have hstep : ∀ d d', (∃ groups, Merged results d groups) → mergeBody d = .inl d' →
      (∃ groups', Merged results d' groups') ∧ d'.items.length < d.items.length := by
    rintro d d' ⟨groups, h⟩ hbody
    rcases h.mergeBody hcomma hbody with ⟨groups', h', hlt⟩
    exact ⟨⟨groups', h'⟩, hlt⟩
  have hexit : ∀ d d', (∃ groups, Merged results d groups) → mergeBody d = .inr d' →
      MergedResults results d' := by
    rintro d d' ⟨groups, h⟩ hbody
    rcases mergeBody_inr hbody with ⟨rfl, hdiffer⟩
    exact h.mergedResults hcomma hdiffer
  exact iterate_total (fun d => d.items.length) hstep hexit ⟨_, merged_start results⟩

/-- `merge_identical_results` terminates, each result is left in exactly one entry, and
the key of an entry joins the parameters that had its result. -/
theorem mergeIdenticalResults_merges (results : Dict String ν) (hcomma : NoComma results.keys) :
    ∃ merged, Terminates (fun n => mergeIdenticalResults n results) merged ∧
      (∀ p result, results.get? p = some result → ∃! e, e ∈ merged.items ∧ result == e.2) ∧
      ∀ e ∈ merged.items, ∃ params : List String, params ≠ [] ∧ params.Nodup ∧
        e.1 = ", ".intercalate params ∧
        ∀ p, p ∈ params ↔ ∃ result, results.get? p = some result ∧ result == e.2 := by
  rcases exists_merged results hcomma with ⟨merged, hterm, hmerged⟩
  exact ⟨merged, hterm, hmerged.one_entry, hmerged.parameters⟩

/-- A result of a parameter. -/
structure Outcome where
  items : Dict String String

/-- `==` does not look at the order of the items. -/
instance instBEqOutcome : BEq Outcome := ⟨fun a b => a.items.items.isPerm b.items.items⟩

theorem Outcome.beq_iff {a b : Outcome} : a == b ↔ a.items.items.Perm b.items.items :=
  List.isPerm_iff

instance instEquivBEqOutcome : EquivBEq Outcome where
  rfl := Outcome.beq_iff.2 (List.Perm.refl _)
  symm h := Outcome.beq_iff.2 (Outcome.beq_iff.1 h).symm
  trans h h' := Outcome.beq_iff.2 ((Outcome.beq_iff.1 h).trans (Outcome.beq_iff.1 h'))

def helpText : Outcome := ⟨((∅ : Dict String String).set "stdout" "usage").set "return_code" "0"⟩

def helpTextReordered : Outcome :=
  ⟨((∅ : Dict String String).set "return_code" "0").set "stdout" "usage"⟩

def versionText : Outcome := ⟨(∅ : Dict String String).set "stdout" "1.0"⟩

/-- Three parameters print the usage, one the version. -/
def sampleResults : Dict String Outcome :=
  ((((∅ : Dict String Outcome).set "-h" helpText).set "--version" versionText).set "--help"
    helpTextReordered).set "-help" helpText

example : (mergeIdenticalResults 3 sampleResults).map Dict.keys =
    some ["--version", "-help, -h, --help"] := by decide +kernel

theorem mergeIdenticalResults_merges_sample :
    ∃ merged, Terminates (fun n => mergeIdenticalResults n sampleResults) merged ∧
      (∀ p result, sampleResults.get? p = some result →
        ∃! e, e ∈ merged.items ∧ result == e.2) ∧
      ∀ e ∈ merged.items, ∃ params : List String, params ≠ [] ∧ params.Nodup ∧
        e.1 = ", ".intercalate params ∧
        ∀ p, p ∈ params ↔ ∃ result, sampleResults.get? p = some result ∧ result == e.2 :=
  mergeIdenticalResults_merges sampleResults (by unfold NoComma; decide +kernel)

/-! ## Before the merge -/

omit [BEq ν] [EquivBEq ν] in
theorem NoComma.set (h : NoComma d.keys) {key : String} (hkey : ',' ∉ key.toList) (x : ν) :
    NoComma (d.set key x).keys := by
  intro p hp
  rcases Dict.mem_keys_setItem.1 hp with rfl | hp
  · exact hkey
  · exact h p hp

omit [BEq ν] [EquivBEq ν] in
theorem NoComma.erase (h : NoComma d.keys) (key : String) : NoComma (d.erase key).keys := by
  intro p hp
  rcases List.mem_map.1 hp with ⟨e, he, rfl⟩
  exact h e.1 (List.mem_map_of_mem (List.mem_of_mem_filter he))

omit [BEq ν] [EquivBEq ν] in
/-- Renaming the parameter that is a blank brings no comma in. -/
theorem noComma_replaceEmptyStrings (h : NoComma d.keys) : NoComma (replaceEmptyStrings d).keys := by
  unfold replaceEmptyStrings
  apply List.foldlRecOn (motive := fun output : Dict String ν => NoComma output.keys) _ _ h
  intro output houtput key _
  split
  · split
    · exact (houtput.erase key).set (by decide +kernel) _
    · exact houtput
  · exact houtput

theorem processDockerOutput_merges (straceOutput : Dict String ν → ν) (dockerOutput : Dict String ν)
    (hcomma : NoComma dockerOutput.keys) :
    ∃ merged, Terminates (fun n => processDockerOutput straceOutput n dockerOutput) merged ∧
      MergedResults (replaceEmptyStrings (dockerOutput.set "strace" (straceOutput dockerOutput)))
        merged :=
  exists_merged _ (noComma_replaceEmptyStrings (hcomma.set (by decide +kernel) _))

end FactCore.QemuResults
