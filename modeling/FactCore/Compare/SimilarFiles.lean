import FactCore.Compare.FileCoverage

/-! # When the similar files do not depend on the order

A comparison id is sorted, so a comparison is meant to be unordered. The search
for similar files takes the objects in the order of the list: the exclusive files
of the earlier object are compared with the files that the later one contains
directly. It is shown when both directions find the same pairs, and that exactly
then every order of the objects gives the same pairs with the same values.
-/

namespace FactCore.FileCoverage

open ComparisonScheduler (CompareId convertUidListToCompareId)

/-! ## The ids of similar files -/

section

variable {parent parent' file file' : Uid} {p q p' q' : SimilarFileId}

theorem splitSimilarFileId_eq (hparent : IsUid parent) (hfile : IsUid file) :
    splitSimilarFileId (getSimilarFileId file parent) = some (parent, file) := by
  have hjoin : getSimilarFileId file parent = Join.join ':' [parent, file] := by
    apply String.toList_inj.1
    simp [getSimilarFileId, Join.join, List.intercalate]
  have hsplit : Join.split ':' (Join.join ':' [parent, file]) = [parent, file] := by
    refine Join.split_join ?_ (by simp)
    intro part hpart hmem
    have huid : IsUid part := by
      rcases List.mem_cons.1 hpart with rfl | hpart
      · exact hparent
      · rwa [List.mem_singleton.1 hpart]
    rcases huid.char hmem with h | h
    · exact absurd h (by decide)
    · exact absurd h (by decide)
  rw [splitSimilarFileId, hjoin, hsplit]

theorem getSimilarFileId_inj (hparent : IsUid parent) (hfile : IsUid file) (hparent' : IsUid parent')
    (hfile' : IsUid file') (h : getSimilarFileId file parent = getSimilarFileId file' parent') :
    parent = parent' ∧ file = file' := by
  have hsplit := congrArg splitSimilarFileId h
  rw [splitSimilarFileId_eq hparent hfile, splitSimilarFileId_eq hparent' hfile'] at hsplit
  simpa using hsplit

/-- An id of a similar file has no semicolon. -/
theorem notMem_getSimilarFileId (hparent : IsUid parent) (hfile : IsUid file) :
    ';' ∉ (getSimilarFileId file parent).toList := by
  intro hmem
  have hchar : ∀ {uid : Uid}, IsUid uid → ';' ∉ uid.toList := by
    intro uid huid hmem
    rcases huid.char hmem with h | h
    · exact absurd h (by decide)
    · exact absurd h (by decide)
  simp only [getSimilarFileId, String.toList_append, List.mem_append] at hmem
  rcases hmem with (hmem | hmem) | hmem
  · exact hchar hparent hmem
  · exact absurd hmem (by simp)
  · exact hchar hfile hmem

theorem convertUidListToCompareId_pair_comm :
    convertUidListToCompareId [p, q] = convertUidListToCompareId [q, p] :=
  ComparisonScheduler.convertUidListToCompareId_perm (List.Perm.swap q p [])

/-- A comparison id determines the two ids it is made of, but not their order. -/
theorem convertUidListToCompareId_pair (hp : ';' ∉ p.toList) (hq : ';' ∉ q.toList)
    (hp' : ';' ∉ p'.toList) (hq' : ';' ∉ q'.toList)
    (h : convertUidListToCompareId [p, q] = convertUidListToCompareId [p', q']) :
    (p = p' ∧ q = q') ∨ (p = q' ∧ q = p') := by
  have hsplit : ∀ {p q : SimilarFileId}, ';' ∉ p.toList → ';' ∉ q.toList →
      Join.split ';' (convertUidListToCompareId [p, q]) = Join.sorted [p, q] := by
    intro p q hp hq
    refine Join.split_join ?_ ?_
    · intro part hpart
      have hpart := (Join.sorted_perm [p, q]).mem_iff.1 hpart
      rcases List.mem_cons.1 hpart with rfl | hpart
      · exact hp
      · rwa [List.mem_singleton.1 hpart]
    · intro hnil
      have hlen := (Join.sorted_perm [p, q]).length_eq
      simp [hnil] at hlen
  have hsorted : Join.sorted [p, q] = Join.sorted [p', q'] := by
    rw [← hsplit hp hq, ← hsplit hp' hq', h]
  have hperm : [p, q].Perm [p', q'] :=
    (Join.sorted_perm [p, q]).symm.trans (hsorted ▸ Join.sorted_perm [p', q'])
  have hmem : p ∈ [p', q'] := hperm.mem_iff.1 List.mem_cons_self
  rcases List.mem_cons.1 hmem with rfl | hmem
  · exact .inl ⟨rfl, by simpa using (List.perm_cons p).1 hperm⟩
  · obtain rfl := List.mem_singleton.1 hmem
    have hperm := hperm.trans (List.Perm.swap p p' [])
    exact .inr ⟨rfl, by simpa using (List.perm_cons p).1 hperm⟩

end

/-! ## Pairs of a list -/

section

variable {α : Type*} {l : List α} {x y : α}

theorem mem_combinations : (x, y) ∈ combinations l ↔ [x, y].Sublist l := by
  induction l with
  | nil => simp [combinations]
  | cons z rest ih =>
      rw [combinations, List.mem_append, ih, List.sublist_cons_iff]
      constructor
      · rintro (hmem | hsub)
        · obtain ⟨w, hw, heq⟩ := List.mem_map.1 hmem
          obtain ⟨rfl, rfl⟩ := Prod.mk.inj heq
          exact .inr ⟨[w], rfl, List.singleton_sublist.2 hw⟩
        · exact .inl hsub
      · rintro (hsub | ⟨tail, htail, hsub⟩)
        · exact .inr hsub
        · obtain ⟨rfl, rfl⟩ := List.cons.inj htail
          exact .inl (List.mem_map.2 ⟨y, List.singleton_sublist.1 hsub, rfl⟩)

theorem mem_combinations_reverse : (x, y) ∈ combinations l.reverse ↔ (y, x) ∈ combinations l := by
  rw [mem_combinations, mem_combinations, ← List.reverse_sublist, List.reverse_reverse]
  rfl

theorem mem_of_mem_combinations (h : (x, y) ∈ combinations l) : x ∈ l ∧ y ∈ l := by
  have hsub := (mem_combinations.1 h).subset
  exact ⟨hsub List.mem_cons_self, hsub (by simp)⟩

theorem ne_of_mem_combinations (hnodup : l.Nodup) (h : (x, y) ∈ combinations l) : x ≠ y :=
  List.pairwise_iff_forall_sublist.1 hnodup (mem_combinations.1 h)

/-- Two different elements come in one of the two orders. -/
theorem combinations_total (hx : x ∈ l) (hy : y ∈ l) (hne : x ≠ y) :
    (x, y) ∈ combinations l ∨ (y, x) ∈ combinations l := by
  induction l with
  | nil => cases hx
  | cons z rest ih =>
      simp only [combinations, List.mem_append, List.mem_map, Prod.mk.injEq]
      rcases List.mem_cons.1 hx with rfl | hxrest
      · have hyrest := (List.mem_cons.1 hy).resolve_left hne.symm
        exact .inl (.inl ⟨y, hyrest, rfl, rfl⟩)
      · rcases List.mem_cons.1 hy with rfl | hyrest
        · exact .inr (.inl ⟨x, hxrest, rfl, rfl⟩)
        · exact (ih hxrest hyrest).imp .inr .inr

/-- They do not come in both. -/
theorem combinations_asymm (hnodup : l.Nodup) (hxy : (x, y) ∈ combinations l) :
    (y, x) ∉ combinations l := by
  induction l with
  | nil => cases hxy
  | cons z rest ih =>
      obtain ⟨hz, hrest⟩ := List.nodup_cons.1 hnodup
      intro hyx
      simp only [combinations, List.mem_append, List.mem_map, Prod.mk.injEq] at hxy hyx
      rcases hxy with ⟨w, hw, rfl, rfl⟩ | hxy
      · rcases hyx with ⟨v, hv, rfl, rfl⟩ | hyx
        · exact hz hw
        · exact hz (mem_of_mem_combinations hyx).2
      · rcases hyx with ⟨v, hv, rfl, rfl⟩ | hyx
        · exact hz (mem_of_mem_combinations hxy).2
        · exact ih hrest hxy hyx

end

/-! ## What is found -/

/-- The file is in no other object. -/
def Exclusive (foList : List ComparedObject) (x : ComparedObject) (file : Uid) : Prop :=
  file ∈ x.listOfAllIncludedFiles ∧ ∀ y ∈ foList, y ≠ x → file ∉ y.listOfAllIncludedFiles

/-- The hash that the search sees for a file. -/
def hashOf (env : Ssdeep) (foList : List ComparedObject) : Uid → Option String :=
  getSsdeepHashForUidList env (allUids foList)

/-- Both files have a hash, and their similarity `n` exceeds the threshold. -/
def Similar (env : Ssdeep) (foList : List ComparedObject) (file file' : Uid) (n : Nat) : Prop :=
  ∃ hash hash', hashOf env foList file = some hash ∧ hashOf env foList file' = some hash' ∧
    n = env.compare hash hash' ∧ env.ignoreThreshold < n

/-- The search from `x` to `y` finds the file of `x` similar to the file of `y`. -/
def Found (env : Ssdeep) (foList : List ComparedObject) (x y : ComparedObject) (file file' : Uid)
    (n : Nat) : Prop :=
  Exclusive foList x file ∧ file' ∈ y.filesIncluded ∧ hashOf env foList file ≠ some "" ∧
    Similar env foList file file' n

/-- Whenever a file that only `x` contains is similar to a file that `y` contains
directly, the latter is only in `y` as well and has a hash, and `x` contains the
former directly. -/
def Balanced (env : Ssdeep) (foList : List ComparedObject) : Prop :=
  ∀ x ∈ foList, ∀ y ∈ foList, x ≠ y → ∀ file file' n, Exclusive foList x file →
    file' ∈ y.filesIncluded → hashOf env foList file ≠ some "" → Similar env foList file file' n →
    Exclusive foList y file' ∧ hashOf env foList file' ≠ some "" ∧ file ∈ x.filesIncluded

/-- The result of `_get_similar_files` up to the order of the pairs. -/
def similarFilesOf (env : Ssdeep) (order : IterOrder Uid) (foList : List ComparedObject) :
    SimilarFiles :=
  collectSimilarFiles env order foList (getExclusiveFiles order foList)

/-- The unordered pair is among the similar files. -/
def SimilarFiles.HasPair (found : SimilarFiles) (p q : SimilarFileId) : Prop :=
  (p, q) ∈ found.similarFiles ∨ (q, p) ∈ found.similarFiles

/-- Every order of the objects gives the same similar pairs and the same values. -/
def OrderIndependent (env : Ssdeep) (foList : List ComparedObject) : Prop :=
  ∀ (order order' : IterOrder Uid) (foList' : List ComparedObject), foList'.Perm foList →
    (∀ p q, (similarFilesOf env order foList).HasPair p q ↔
      (similarFilesOf env order' foList').HasPair p q) ∧
    ∀ id, (similarFilesOf env order foList).similarity.get? id =
      (similarFilesOf env order' foList').similarity.get? id

section

variable {env : Ssdeep} {order : IterOrder Uid} {foList foList' : List ComparedObject}
  {x y : ComparedObject} {file file' uid : Uid} {n : Nat} {p q : SimilarFileId}

theorem mem_allUids : uid ∈ allUids foList ↔
    ∃ fo ∈ foList, uid = fo.uid ∨ uid ∈ fo.listOfAllIncludedFiles := by
  have hfold : uid ∈ foList.foldr (fun fo uids => fo.listOfAllIncludedFiles ∪ uids) ∅ ↔
      ∃ fo ∈ foList, uid ∈ fo.listOfAllIncludedFiles := by
    induction foList with
    | nil => simp
    | cons fo rest ih => simp [ih]
  rw [allUids, Finset.mem_union, List.mem_toFinset, List.mem_map, hfold]
  grind

theorem hashOf_perm (h : foList'.Perm foList) : hashOf env foList' = hashOf env foList := by
  have hall : allUids foList' = allUids foList := by
    ext uid
    simp only [mem_allUids, h.mem_iff]
  rw [hashOf, hashOf, hall]

theorem found_perm (h : foList'.Perm foList) :
    Found env foList' x y file file' n ↔ Found env foList x y file file' n := by
  unfold Found Exclusive Similar
  simp only [hashOf_perm h, h.mem_iff]

theorem mem_findSimilarFileFor {parentUid : Uid} {entry : (SimilarFileId × SimilarFileId) × Nat} :
    entry ∈ findSimilarFileFor env order file parentUid y (hashOf env foList) ↔
      ∃ file' ∈ y.filesIncluded, hashOf env foList file ≠ some "" ∧
        Similar env foList file file' entry.2 ∧
        entry.1 = (getSimilarFileId file parentUid, getSimilarFileId file' y.uid) := by
  unfold findSimilarFileFor Similar
  cases hfile : hashOf env foList file with
  | none => simp
  | some hash =>
      by_cases hempty : hash = ""
      · simp [hempty]
      · simp only [if_neg hempty, List.mem_filterMap, order.mem]
        refine exists_congr fun file' => and_congr_right fun _ => ?_
        cases hashOf env foList file' with
        | none => simp
        | some hash' =>
            obtain ⟨pair, n⟩ := entry
            simp only [Option.ite_none_right_eq_some, Option.some.injEq, Prod.mk.injEq, ne_eq,
              hempty, not_false_eq_true, true_and, exists_and_left, exists_eq_left']
            grind

theorem mem_getExclusiveFiles (hnodup : (foList.map ComparedObject.uid).Nodup) (hx : x ∈ foList) :
    file ∈ ((getExclusiveFiles order foList).get? x.uid).getD [] ↔ Exclusive foList x file := by
  obtain ⟨l, hget, -, hl⟩ := Coverage.get?_exclusiveNames order
    ComparedObject.listOfAllIncludedFiles hnodup hx
  rw [getExclusiveFiles, hget, Option.getD_some, hl]
  exact and_congr_right fun hfile => Coverage.count_eq_one hnodup.of_map hx hfile

theorem mem_findSimilarFiles (hnodup : (foList.map ComparedObject.uid).Nodup)
    {entry : (SimilarFileId × SimilarFileId) × Nat} :
    entry ∈ findSimilarFiles env order foList (getExclusiveFiles order foList) ↔
      ∃ x y file file', (x, y) ∈ combinations foList ∧ Found env foList x y file file' entry.2 ∧
        entry.1 = (getSimilarFileId file x.uid, getSimilarFileId file' y.uid) := by
  simp only [findSimilarFiles, List.mem_flatMap, Prod.exists]
  constructor
  · rintro ⟨x, y, hxy, file, hfile, hentry⟩
    rw [mem_getExclusiveFiles hnodup (mem_of_mem_combinations hxy).1] at hfile
    obtain ⟨file', hfile', hhash, hsimilar, heq⟩ := mem_findSimilarFileFor.1 hentry
    exact ⟨x, y, file, file', hxy, ⟨hfile, hfile', hhash, hsimilar⟩, heq⟩
  · rintro ⟨x, y, file, file', hxy, ⟨hfile, hfile', hhash, hsimilar⟩, heq⟩
    refine ⟨x, y, hxy, file, ?_, mem_findSimilarFileFor.2 ⟨file', hfile', hhash, hsimilar, heq⟩⟩
    rwa [mem_getExclusiveFiles hnodup (mem_of_mem_combinations hxy).1]

/-! ## The pairs and their values -/

theorem similarFiles_foldl_add (entries : List ((SimilarFileId × SimilarFileId) × Nat))
    (found : SimilarFiles) :
    (entries.foldl SimilarFiles.add found).similarFiles =
      found.similarFiles ++ entries.map Prod.fst := by
  induction entries generalizing found with
  | nil => simp
  | cons entry rest ih =>
      rw [List.foldl_cons, ih, SimilarFiles.add, List.append_assoc]
      rfl

/-- Where equal ids have equal values, the dictionary holds the values of all entries. -/
theorem similarity_foldl_add {entries : List ((SimilarFileId × SimilarFileId) × Nat)}
    {found : SimilarFiles} {id : CompareId}
    (hsame : ∀ e ∈ entries, ∀ e' ∈ entries, convertUidListToCompareId [e.1.1, e.1.2] =
      convertUidListToCompareId [e'.1.1, e'.1.2] → e.2 = e'.2) :
    (entries.foldl SimilarFiles.add found).similarity.get? id = some n ↔
      (∃ e ∈ entries, convertUidListToCompareId [e.1.1, e.1.2] = id ∧ e.2 = n) ∨
      (∀ e ∈ entries, convertUidListToCompareId [e.1.1, e.1.2] ≠ id) ∧
        found.similarity.get? id = some n := by
  induction entries generalizing found with
  | nil => simp
  | cons entry rest ih =>
      have hsameRest : ∀ e ∈ rest, ∀ e' ∈ rest, convertUidListToCompareId [e.1.1, e.1.2] =
          convertUidListToCompareId [e'.1.1, e'.1.2] → e.2 = e'.2 := fun e he e' he' =>
        hsame e (List.mem_cons_of_mem _ he) e' (List.mem_cons_of_mem _ he')
      have hfirst := fun e he => hsame entry List.mem_cons_self e (List.mem_cons_of_mem _ he)
      rw [List.foldl_cons, ih hsameRest, SimilarFiles.add, Dict.get?_set]
      by_cases hid : id = convertUidListToCompareId [entry.1.1, entry.1.2]
      · rw [if_pos hid, Option.some.injEq]
        constructor
        · rintro (⟨e, he, heq, hn⟩ | ⟨-, hn⟩)
          · exact .inl ⟨e, List.mem_cons_of_mem _ he, heq, hn⟩
          · exact .inl ⟨entry, List.mem_cons_self, hid.symm, hn⟩
        · rintro (⟨e, he, heq, hn⟩ | ⟨hnone, -⟩)
          · by_cases hex : ∃ e ∈ rest, convertUidListToCompareId [e.1.1, e.1.2] = id
            · obtain ⟨e', he', heq'⟩ := hex
              have hval := hfirst e' he' (hid.symm.trans heq'.symm)
              rcases List.mem_cons.1 he with rfl | he
              · exact .inl ⟨e', he', heq', hval.symm.trans hn⟩
              · exact .inl ⟨e, he, heq, hn⟩
            · refine .inr ⟨fun e' he' heq' => hex ⟨e', he', heq'⟩, ?_⟩
              rcases List.mem_cons.1 he with rfl | he
              · exact hn
              · exact absurd ⟨e, he, heq⟩ hex
          · exact absurd hid.symm (hnone entry List.mem_cons_self)
      · rw [if_neg hid]
        have hne : convertUidListToCompareId [entry.1.1, entry.1.2] ≠ id := Ne.symm hid
        simp [hne]

/-- The similar pairs with their values, when the search is balanced. -/
def Linked (env : Ssdeep) (foList : List ComparedObject) (p q : SimilarFileId) (n : Nat) : Prop :=
  ∃ x ∈ foList, ∃ y ∈ foList, x ≠ y ∧ ∃ file file', Found env foList x y file file' n ∧
    p = getSimilarFileId file x.uid ∧ q = getSimilarFileId file' y.uid

theorem linked_perm (h : foList'.Perm foList) : Linked env foList' p q n ↔ Linked env foList p q n := by
  unfold Linked
  simp only [h.mem_iff, found_perm h]

theorem linked_of_mem (hnodup : (foList.map ComparedObject.uid).Nodup)
    (h : ((p, q), n) ∈ findSimilarFiles env order foList (getExclusiveFiles order foList)) :
    Linked env foList p q n := by
  obtain ⟨x, y, file, file', hxy, hfound, heq⟩ := (mem_findSimilarFiles hnodup).1 h
  obtain ⟨rfl, rfl⟩ := Prod.mk.inj heq
  obtain ⟨hx, hy⟩ := mem_of_mem_combinations hxy
  exact ⟨x, hx, y, hy, ne_of_mem_combinations hnodup.of_map hxy, file, file', hfound, rfl, rfl⟩

theorem Similar.symm (hsymm : ∀ a b, env.compare a b = env.compare b a)
    (h : Similar env foList file file' n) : Similar env foList file' file n := by
  obtain ⟨hash, hash', hfile, hfile', hn, hlt⟩ := h
  exact ⟨hash', hash, hfile', hfile, hn.trans (hsymm hash hash'), hlt⟩

/-- In a balanced search the pair is found from the other side, too. -/
theorem Found.symm (hsymm : ∀ a b, env.compare a b = env.compare b a)
    (hbalanced : Balanced env foList) (hx : x ∈ foList) (hy : y ∈ foList) (hne : x ≠ y)
    (h : Found env foList x y file file' n) : Found env foList y x file' file n := by
  obtain ⟨hfile, hfile', hhash, hsimilar⟩ := h
  obtain ⟨h₁, h₂, h₃⟩ := hbalanced x hx y hy hne file file' n hfile hfile' hhash hsimilar
  exact ⟨h₁, h₃, h₂, hsimilar.symm hsymm⟩

theorem Linked.symm (hsymm : ∀ a b, env.compare a b = env.compare b a)
    (hbalanced : Balanced env foList) (h : Linked env foList p q n) : Linked env foList q p n := by
  obtain ⟨x, hx, y, hy, hne, file, file', hfound, hp, hq⟩ := h
  exact ⟨y, hy, x, hx, hne.symm, file', file, hfound.symm hsymm hbalanced hx hy hne, hq, hp⟩

/-- A linked pair is found in one of its two orders. -/
theorem mem_of_linked (hnodup : (foList.map ComparedObject.uid).Nodup)
    (hsymm : ∀ a b, env.compare a b = env.compare b a) (hbalanced : Balanced env foList)
    (h : Linked env foList p q n) :
    ((p, q), n) ∈ findSimilarFiles env order foList (getExclusiveFiles order foList) ∨
      ((q, p), n) ∈ findSimilarFiles env order foList (getExclusiveFiles order foList) := by
  obtain ⟨x, hx, y, hy, hne, file, file', hfound, rfl, rfl⟩ := h
  rcases combinations_total hx hy hne with hxy | hyx
  · exact .inl ((mem_findSimilarFiles hnodup).2 ⟨x, y, file, file', hxy, hfound, rfl⟩)
  · exact .inr ((mem_findSimilarFiles hnodup).2 ⟨y, x, file', file, hyx,
      hfound.symm hsymm hbalanced hx hy hne, rfl⟩)

theorem hasPair_iff : (similarFilesOf env order foList).HasPair p q ↔
    ∃ n, ((p, q), n) ∈ findSimilarFiles env order foList (getExclusiveFiles order foList) ∨
      ((q, p), n) ∈ findSimilarFiles env order foList (getExclusiveFiles order foList) := by
  unfold SimilarFiles.HasPair similarFilesOf collectSimilarFiles
  rw [similarFiles_foldl_add]
  simp [exists_or]

theorem hasPair_iff_linked (hnodup : (foList.map ComparedObject.uid).Nodup)
    (hsymm : ∀ a b, env.compare a b = env.compare b a) (hbalanced : Balanced env foList) :
    (similarFilesOf env order foList).HasPair p q ↔ ∃ n, Linked env foList p q n := by
  rw [hasPair_iff]
  constructor
  · rintro ⟨n, h | h⟩
    · exact ⟨n, linked_of_mem hnodup h⟩
    · exact ⟨n, (linked_of_mem hnodup h).symm hsymm hbalanced⟩
  · rintro ⟨n, h⟩
    exact ⟨n, mem_of_linked hnodup hsymm hbalanced h⟩

theorem Found.isUid (h : Found env foList x y file file' n) : IsUid file ∧ IsUid file' :=
  ⟨x.areUids file (Finset.mem_union_right _ h.1.1), y.areUids file' (Finset.mem_union_left _ h.2.1)⟩

theorem Similar.unique {n' : Nat} (h : Similar env foList file file' n)
    (h' : Similar env foList file file' n') : n = n' := by
  obtain ⟨a, b, ha, hb, rfl, -⟩ := h
  obtain ⟨a', b', ha', hb', rfl, -⟩ := h'
  rw [Option.some.inj (ha.symm.trans ha'), Option.some.inj (hb.symm.trans hb')]

/-- The ids tell the objects and the files of a pair. -/
theorem Found.ids_inj {x' y' : ComparedObject} {f f' : Uid} {n' : Nat}
    (hnodup : (foList.map ComparedObject.uid).Nodup) (hx : x ∈ foList) (hy : y ∈ foList)
    (hx' : x' ∈ foList) (hy' : y' ∈ foList) (h : Found env foList x y file file' n)
    (h' : Found env foList x' y' f f' n')
    (hp : getSimilarFileId file x.uid = getSimilarFileId f x'.uid)
    (hq : getSimilarFileId file' y.uid = getSimilarFileId f' y'.uid) :
    x = x' ∧ y = y' ∧ file = f ∧ file' = f' := by
  obtain ⟨hfst, rfl⟩ := getSimilarFileId_inj x.isUid h.isUid.1 x'.isUid h'.isUid.1 hp
  obtain ⟨hsnd, rfl⟩ := getSimilarFileId_inj y.isUid h.isUid.2 y'.isUid h'.isUid.2 hq
  exact ⟨List.inj_on_of_nodup_map hnodup hx hx' hfst, List.inj_on_of_nodup_map hnodup hy hy' hsnd,
    rfl, rfl⟩

/-- Linked pairs with one comparison id have one value. -/
theorem Linked.unique {p' q' : SimilarFileId} {n' : Nat}
    (hnodup : (foList.map ComparedObject.uid).Nodup)
    (hsymm : ∀ a b, env.compare a b = env.compare b a) (hbalanced : Balanced env foList)
    (h : Linked env foList p q n) (h' : Linked env foList p' q' n')
    (hid : convertUidListToCompareId [p, q] = convertUidListToCompareId [p', q']) : n = n' := by
  have hsemicolon : ∀ {p q n}, Linked env foList p q n → ';' ∉ p.toList ∧ ';' ∉ q.toList := by
    rintro p q n ⟨x, -, y, -, -, file, file', hfound, rfl, rfl⟩
    exact ⟨notMem_getSimilarFileId x.isUid hfound.isUid.1,
      notMem_getSimilarFileId y.isUid hfound.isUid.2⟩
  have hsame : ∀ {n'}, Linked env foList p q n' → n = n' := by
    rintro n' ⟨x', hx', y', hy', -, f, f', hfound', hp, hq⟩
    obtain ⟨x, hx, y, hy, -, file, file', hfound, rfl, rfl⟩ := h
    obtain ⟨rfl, rfl, rfl, rfl⟩ := hfound.ids_inj hnodup hx hy hx' hy' hfound' hp hq
    exact hfound.2.2.2.unique hfound'.2.2.2
  rcases convertUidListToCompareId_pair (hsemicolon h).1 (hsemicolon h).2 (hsemicolon h').1
    (hsemicolon h').2 hid with ⟨rfl, rfl⟩ | ⟨rfl, rfl⟩
  · exact hsame h'
  · exact hsame (h'.symm hsymm hbalanced)

/-- In a balanced search the dictionary holds the values of the linked pairs. -/
theorem get?_similarity (hnodup : (foList.map ComparedObject.uid).Nodup)
    (hsymm : ∀ a b, env.compare a b = env.compare b a) (hbalanced : Balanced env foList)
    {id : CompareId} :
    (similarFilesOf env order foList).similarity.get? id = some n ↔
      ∃ p q, Linked env foList p q n ∧ convertUidListToCompareId [p, q] = id := by
  have hlinked : ∀ e ∈ findSimilarFiles env order foList (getExclusiveFiles order foList),
      Linked env foList e.1.1 e.1.2 e.2 := fun e he => linked_of_mem hnodup he
  unfold similarFilesOf collectSimilarFiles
  rw [similarity_foldl_add fun e he e' he' hid =>
    (hlinked e he).unique hnodup hsymm hbalanced (hlinked e' he') hid]
  constructor
  · rintro (⟨e, he, hid, rfl⟩ | ⟨-, hget⟩)
    · exact ⟨e.1.1, e.1.2, hlinked e he, hid⟩
    · simp at hget
  · rintro ⟨p, q, h, hid⟩
    rcases mem_of_linked hnodup hsymm hbalanced h with hmem | hmem
    · exact .inl ⟨_, hmem, hid, rfl⟩
    · exact .inl ⟨_, hmem, convertUidListToCompareId_pair_comm.trans hid, rfl⟩

theorem balanced_perm (h : foList'.Perm foList) : Balanced env foList' ↔ Balanced env foList := by
  unfold Balanced Exclusive Similar
  simp only [hashOf_perm h, h.mem_iff]

/-- A search that does not find the same pairs in the reversed list is not balanced. -/
theorem balanced_of_reverse (hnodup : (foList.map ComparedObject.uid).Nodup)
    (hindependent : OrderIndependent env foList) : Balanced env foList := by
  intro x hx y hy hne file file' n hfile hfile' hhash hsimilar
  have hfound : Found env foList x y file file' n := ⟨hfile, hfile', hhash, hsimilar⟩
  -- `l` is the order in which `x` comes before `y`, `l'` is the other one
  have hsides : ∃ l l' : List ComparedObject, l.Perm foList ∧ l'.Perm foList ∧
      (x, y) ∈ combinations l ∧ (y, x) ∈ combinations l' := by
    have hreverse : foList.reverse.Perm foList := List.reverse_perm foList
    rcases combinations_total hx hy hne with hxy | hyx
    · exact ⟨foList, foList.reverse, .refl _, hreverse, hxy, mem_combinations_reverse.2 hxy⟩
    · exact ⟨foList.reverse, foList, hreverse, .refl _, mem_combinations_reverse.2 hyx, hyx⟩
  obtain ⟨l, l', hl, hl', hxy, hyx⟩ := hsides
  have hnodupl : (l.map ComparedObject.uid).Nodup := (hl.map _).nodup_iff.2 hnodup
  have hnodupl' : (l'.map ComparedObject.uid).Nodup := (hl'.map _).nodup_iff.2 hnodup
  let order := IterOrder.sorted Uid
  have hpair : (similarFilesOf env order l).HasPair
      (getSimilarFileId file x.uid) (getSimilarFileId file' y.uid) :=
    hasPair_iff.2 ⟨n, .inl ((mem_findSimilarFiles hnodupl).2
      ⟨x, y, file, file', hxy, (found_perm hl).2 hfound, rfl⟩)⟩
  have hpair' : (similarFilesOf env order l').HasPair
      (getSimilarFileId file x.uid) (getSimilarFileId file' y.uid) :=
    ((hindependent order order l' hl').1 _ _).1 (((hindependent order order l hl).1 _ _).2 hpair)
  obtain ⟨m, hmem | hmem⟩ := hasPair_iff.1 hpair'
  · -- the pair cannot have been found from `x`, which comes after `y`
    obtain ⟨x', y', f, f', hxy', hfound', heq⟩ := (mem_findSimilarFiles hnodupl').1 hmem
    obtain ⟨hp, hq⟩ := Prod.mk.inj heq
    obtain ⟨hx', hy'⟩ := mem_of_mem_combinations hxy'
    obtain ⟨rfl, rfl, rfl, rfl⟩ := hfound.ids_inj hnodup hx hy (hl'.mem_iff.1 hx')
      (hl'.mem_iff.1 hy') ((found_perm hl').1 hfound') hp hq
    exact absurd hyx (combinations_asymm hnodupl'.of_map hxy')
  · obtain ⟨y', x', f', f, hyx', hfound', heq⟩ := (mem_findSimilarFiles hnodupl').1 hmem
    obtain ⟨hq, hp⟩ := Prod.mk.inj heq
    obtain ⟨hy', hx'⟩ := mem_of_mem_combinations hyx'
    have hfoundSwap := (found_perm hl').1 hfound'
    obtain ⟨hfst, hf⟩ := getSimilarFileId_inj x.isUid hfound.isUid.1 x'.isUid hfoundSwap.isUid.2 hp
    obtain ⟨hsnd, hf'⟩ := getSimilarFileId_inj y.isUid hfound.isUid.2 y'.isUid hfoundSwap.isUid.1 hq
    obtain rfl := List.inj_on_of_nodup_map hnodup hx (hl'.mem_iff.1 hx') hfst
    obtain rfl := List.inj_on_of_nodup_map hnodup hy (hl'.mem_iff.1 hy') hsnd
    rw [← hf, ← hf'] at hfoundSwap
    exact ⟨hfoundSwap.1, hfoundSwap.2.2.1, hfoundSwap.2.1⟩

/-- The similar files are the same for every order of the objects iff the search
is balanced. -/
theorem orderIndependent_iff (hnodup : (foList.map ComparedObject.uid).Nodup)
    (hsymm : ∀ a b, env.compare a b = env.compare b a) :
    OrderIndependent env foList ↔ Balanced env foList := by
  constructor
  · exact balanced_of_reverse hnodup
  · intro hbalanced order order' foList' hperm
    have hnodup' : (foList'.map ComparedObject.uid).Nodup := (hperm.map _).nodup_iff.2 hnodup
    have hbalanced' := (balanced_perm hperm).2 hbalanced
    constructor
    · intro p q
      rw [hasPair_iff_linked hnodup hsymm hbalanced, hasPair_iff_linked hnodup' hsymm hbalanced']
      exact exists_congr fun n => (linked_perm hperm).symm
    · intro id
      apply Option.ext
      intro n
      rw [get?_similarity hnodup hsymm hbalanced, get?_similarity hnodup' hsymm hbalanced']
      exact exists_congr fun p => exists_congr fun q => and_congr_left fun _ => (linked_perm hperm).symm

end

/-! ## A file that is nested in one object only -/

/-- All files are equally similar. -/
def sameHash : Ssdeep where
  stored := fun _ => some "3:hash:hash"
  compare := fun _ _ => 100
  ignoreThreshold := 1

/-- The first object contains its file on a deeper level, the second directly. -/
def nestedFile : List ComparedObject :=
  [uniformObject 10 [] [1] ∅,
    uniformObject 11 [2] [] ∅]

theorem uniformUid_ten_ne : uniformUid 10 ≠ uniformUid 11 := by decide +kernel

/-- The pair is found in one of the two orders only. -/
theorem nestedFile_orderDependent : (nestedFile.map ComparedObject.uid).Nodup ∧
    (∀ a b, sameHash.compare a b = sameHash.compare b a) ∧ ¬ OrderIndependent sameHash nestedFile := by
  have hnodup : (nestedFile.map ComparedObject.uid).Nodup := by
    simp [nestedFile, uniformObject, uniformUid_ten_ne]
  refine ⟨hnodup, fun _ _ => rfl, fun hindependent => ?_⟩
  have hbalanced := balanced_of_reverse hnodup hindependent
  have hmem : uniformUid 1 ∈ (∅ : Finset Uid) := by
    refine (hbalanced (uniformObject 10 [] [1] ∅) (by simp [nestedFile])
      (uniformObject 11 [2] [] ∅) (by simp [nestedFile]) ?_
      (uniformUid 1) (uniformUid 2) 100 ?_ ?_ ?_ ?_).2.2
    · intro heq
      exact absurd (congrArg ComparedObject.uid heq) uniformUid_ten_ne
    · exact ⟨by decide +kernel, by decide +kernel⟩
    · decide +kernel
    · decide +kernel
    · exact ⟨"3:hash:hash", "3:hash:hash", by decide +kernel, by decide +kernel, rfl, by decide⟩
  simp at hmem

/-- Two objects that contain their files directly. -/
def directFiles : List ComparedObject :=
  [uniformObject 10 [1] [] ∅,
    uniformObject 11 [2] [] ∅]

theorem directFiles_orderIndependent_iff :
    OrderIndependent sameHash directFiles ↔ Balanced sameHash directFiles :=
  orderIndependent_iff (by simp [directFiles, uniformObject, uniformUid_ten_ne]) (fun _ _ => rfl)

end FactCore.FileCoverage
