import FactCore.Compare.SimilarFiles

/-! # When the table of similar files keeps every group

`combine_similarity_results` stores each group of similar files under an id made
of the first four characters of the uids. It is shown that the table has one
entry for each group, with the files of that group, iff no two groups agree in
these characters.
-/

namespace FactCore.FileCoverage

open ComparisonScheduler (CompareId)

/-- A group of similar files over the compared objects, with at most one file of
each. -/
def IsGroup (foList : List ComparedObject) (group : List SimilarFileId) : Prop :=
  ∃ members : List (Uid × Uid), group = members.map (fun m => getSimilarFileId m.2 m.1) ∧
    (members.map Prod.fst).Nodup ∧ ∀ m ∈ members, m.1 ∈ foList.map ComparedObject.uid ∧ IsUid m.2

/-- The entry maps every object to the file of the group in it, if there is one. -/
def MatchDict.IsFor (foList : List ComparedObject) (group : List SimilarFileId) (entry : MatchDict) :
    Prop :=
  ∀ fo ∈ foList, ∃ value, entry.files.get? fo.uid = some value ∧
    ∀ file, value = some file ↔ IsUid file ∧ getSimilarFileId file fo.uid ∈ group

/-- The table has exactly one entry for each group, and that is the right one. -/
def NoGroupLost (foList : List ComparedObject) (groups : List (List SimilarFileId))
    (similarity : Dict CompareId Nat) : Prop :=
  ∃ table, combineSimilarityResults groups foList similarity = some table ∧
    ∃ keyOf : List SimilarFileId → String, table.keys.Perm (groups.map keyOf) ∧
      ∀ group ∈ groups, ∃ entry, table.get? (keyOf group) = some entry ∧ entry.IsFor foList group

/-- The first four characters of the uids in a group. -/
def prefixes (group : List SimilarFileId) : List (Option (String × String)) :=
  group.map fun id => (splitSimilarFileId id).map fun m => (firstFour m.1, firstFour m.2)

/-! ## One group -/

section

variable {foList : List ComparedObject} {members members' : List (Uid × Uid)}
  {group group' : List SimilarFileId} {s s' : String}

/-- The ids of a list of files. -/
def idsOf (members : List (Uid × Uid)) : List SimilarFileId :=
  members.map fun m => getSimilarFileId m.2 m.1

theorem foldlM_idsOf {β : Type} {step : β → Uid × Uid → β} {init : β}
    (huids : ∀ m ∈ members, IsUid m.1 ∧ IsUid m.2) :
    (idsOf members).foldlM (fun b id => do
      let m ← splitSimilarFileId id
      pure (step b m)) init = some (members.foldl step init) := by
  induction members generalizing init with
  | nil => rfl
  | cons m rest ih =>
      obtain ⟨hm, hrest⟩ := List.forall_mem_cons.1 huids
      have hsplit := splitSimilarFileId_eq hm.1 hm.2
      rw [idsOf, List.map_cons, List.foldlM_cons, hsplit]
      exact ih hrest

theorem matchFiles_idsOf (huids : ∀ m ∈ members, IsUid m.1 ∧ IsUid m.2) :
    matchFiles foList (idsOf members) = some (members.foldl (fun files m => files.set m.1 (some m.2))
      (foList.foldl (fun files fo => files.set fo.uid none) ∅)) :=
  foldlM_idsOf huids

theorem getSimilarFileGroupId_idsOf (huids : ∀ m ∈ members, IsUid m.1 ∧ IsUid m.2) :
    getSimilarFileGroupId (idsOf members) =
      some (members.foldl (fun s m => s ++ firstFour m.1 ++ firstFour m.2) "") :=
  foldlM_idsOf huids

theorem length_firstFour (h : IsUid s) : (firstFour s).toList.length = 4 := by
  have hlen := h.length
  rw [firstFour, String.toList_ofList, List.length_take]
  omega

theorem toList_foldl_firstFour (init : String) :
    (members.foldl (fun s m => s ++ firstFour m.1 ++ firstFour m.2) init).toList =
      init.toList ++ members.flatMap fun m => (firstFour m.1).toList ++ (firstFour m.2).toList := by
  induction members generalizing init with
  | nil => simp
  | cons m rest ih => simp [ih]

/-- The blocks of four characters can be read off again. -/
theorem flatMap_firstFour_inj (huids : ∀ m ∈ members, IsUid m.1 ∧ IsUid m.2)
    (huids' : ∀ m ∈ members', IsUid m.1 ∧ IsUid m.2)
    (h : (members.flatMap fun m => (firstFour m.1).toList ++ (firstFour m.2).toList) =
      members'.flatMap fun m => (firstFour m.1).toList ++ (firstFour m.2).toList) :
    members.map (fun m => (firstFour m.1, firstFour m.2)) =
      members'.map fun m => (firstFour m.1, firstFour m.2) := by
  induction members generalizing members' with
  | nil =>
      cases members' with
      | nil => rfl
      | cons m rest =>
          have hlen := congrArg List.length h
          have hfour := length_firstFour (huids' m List.mem_cons_self).1
          simp only [List.flatMap_nil, List.flatMap_cons, List.length_nil, List.length_append] at hlen
          omega
  | cons m rest ih =>
      obtain ⟨hm, hrest⟩ := List.forall_mem_cons.1 huids
      have hparent := length_firstFour hm.1
      have hfile := length_firstFour hm.2
      cases members' with
      | nil =>
          have hlen := congrArg List.length h
          simp only [List.flatMap_nil, List.flatMap_cons, List.length_nil, List.length_append] at hlen
          omega
      | cons m' rest' =>
          obtain ⟨hm', hrest'⟩ := List.forall_mem_cons.1 huids'
          rw [List.flatMap_cons, List.flatMap_cons, List.append_assoc, List.append_assoc] at h
          obtain ⟨h₁, h⟩ := List.append_inj h (hparent.trans (length_firstFour hm'.1).symm)
          obtain ⟨h₂, h⟩ := List.append_inj h (hfile.trans (length_firstFour hm'.2).symm)
          rw [List.map_cons, List.map_cons, ih hrest hrest' h, String.toList_inj.1 h₁,
            String.toList_inj.1 h₂]

theorem prefixes_idsOf (huids : ∀ m ∈ members, IsUid m.1 ∧ IsUid m.2) :
    prefixes (idsOf members) = members.map fun m => some (firstFour m.1, firstFour m.2) := by
  rw [prefixes, idsOf, List.map_map]
  refine List.map_congr_left fun m hm => ?_
  simp [splitSimilarFileId_eq (huids m hm).1 (huids m hm).2]

theorem IsGroup.exists_members (h : IsGroup foList group) : ∃ members, group = idsOf members ∧
    (members.map Prod.fst).Nodup ∧ ∀ m ∈ members, IsUid m.1 ∧ IsUid m.2 := by
  obtain ⟨members, hgroup, hnodup, hmembers⟩ := h
  refine ⟨members, hgroup, hnodup, fun m hm => ⟨?_, (hmembers m hm).2⟩⟩
  obtain ⟨fo, -, hfo⟩ := List.mem_map.1 (hmembers m hm).1
  exact hfo ▸ fo.isUid

/-- Two groups have one id iff they agree in the first four characters of the uids. -/
theorem getSimilarFileGroupId_eq_iff (hgroup : IsGroup foList group)
    (hgroup' : IsGroup foList group') :
    getSimilarFileGroupId group = getSimilarFileGroupId group' ↔ prefixes group = prefixes group' := by
  obtain ⟨members, rfl, -, huids⟩ := hgroup.exists_members
  obtain ⟨members', rfl, -, huids'⟩ := hgroup'.exists_members
  rw [getSimilarFileGroupId_idsOf huids, getSimilarFileGroupId_idsOf huids', prefixes_idsOf huids,
    prefixes_idsOf huids', Option.some.injEq, ← String.toList_inj, toList_foldl_firstFour,
    toList_foldl_firstFour, List.append_cancel_left_eq]
  have hsome : ∀ l : List (Uid × Uid), (l.map fun m => some (firstFour m.1, firstFour m.2)) =
      (l.map fun m => (firstFour m.1, firstFour m.2)).map some := by simp
  rw [hsome members, hsome members', List.map_inj_right (fun _ _ => Option.some.inj)]
  constructor
  · exact flatMap_firstFour_inj huids huids'
  · intro h
    have hflat : ∀ l : List (Uid × Uid),
        (l.flatMap fun m => (firstFour m.1).toList ++ (firstFour m.2).toList) =
          (l.map fun m => (firstFour m.1, firstFour m.2)).flatMap fun b =>
            b.1.toList ++ b.2.toList := by simp [List.flatMap_map]
    rw [hflat members, hflat members', h]

/-- The entry of a group maps every object to the right file. -/
theorem exists_entry (hgroup : IsGroup foList group) : ∃ files id,
    matchFiles foList group = some files ∧ getSimilarFileGroupId group = some id ∧
      ∀ similarity, (MatchDict.mk files similarity).IsFor foList group := by
  obtain ⟨members, rfl, hnodup, huids⟩ := hgroup.exists_members
  refine ⟨_, _, matchFiles_idsOf huids, getSimilarFileGroupId_idsOf huids, ?_⟩
  intro similarity fo hfo
  have hmem : ∀ file, IsUid file →
      (getSimilarFileId file fo.uid ∈ idsOf members ↔ (fo.uid, file) ∈ members) := by
    intro file hfile
    rw [idsOf, List.mem_map]
    constructor
    · rintro ⟨m, hm, heq⟩
      obtain ⟨hparent, rfl⟩ := getSimilarFileId_inj (huids m hm).1 (huids m hm).2 fo.isUid hfile heq
      rwa [← hparent]
    · exact fun hm => ⟨_, hm, rfl⟩
  by_cases hex : ∃ file, (fo.uid, file) ∈ members
  · obtain ⟨file, hfile⟩ := hex
    refine ⟨some file, Dict.get?_foldl_assign_of_mem hnodup hfile, fun file' => ?_⟩
    rw [Option.some.injEq]
    constructor
    · rintro rfl
      exact ⟨(huids _ hfile).2, (hmem _ (huids _ hfile).2).2 hfile⟩
    · rintro ⟨huid, hid⟩
      -- an object has at most one file in the group
      exact (Prod.mk.inj (List.inj_on_of_nodup_map hnodup hfile ((hmem _ huid).1 hid) rfl)).2
  · have hnot : fo.uid ∉ members.map Prod.fst := by
      intro hfst
      obtain ⟨m, hm, hparent⟩ := List.mem_map.1 hfst
      exact hex ⟨m.2, hparent ▸ hm⟩
    -- the entry is the `None` from the beginning
    refine ⟨none, ?_, fun file => ?_⟩
    · refine (Dict.get?_foldl_assign_of_notMem hnot).trans ?_
      exact Dict.get?_foldl_assign_const (List.mem_map_of_mem hfo)
    · simp only [reduceCtorEq, false_iff, not_and]
      exact fun huid hid => hex ⟨file, (hmem file huid).1 hid⟩

end

/-! ## The table -/

section

variable {foList : List ComparedObject} {groups : List (List SimilarFileId)}
  {similarity : Dict CompareId Nat}

/-- The id of a group. -/
def groupId (group : List SimilarFileId) : String := (getSimilarFileGroupId group).getD ""

/-- The entry of a group. -/
def groupEntry (foList : List ComparedObject) (similarity : Dict CompareId Nat)
    (group : List SimilarFileId) : MatchDict :=
  ⟨(matchFiles foList group).getD ∅, getSimilarityValue group similarity⟩

theorem groupEntry_isFor {group : List SimilarFileId} (hgroup : IsGroup foList group) :
    (groupEntry foList similarity group).IsFor foList group := by
  obtain ⟨files, id, hfiles, -, hfor⟩ := exists_entry hgroup
  rw [groupEntry, hfiles, Option.getD_some]
  exact hfor _

theorem combineSimilarityResults_eq (hgroups : ∀ group ∈ groups, IsGroup foList group) :
    combineSimilarityResults groups foList similarity = some (groups.foldl (fun table group =>
      table.set (groupId group) (groupEntry foList similarity group)) ∅) := by
  unfold combineSimilarityResults
  generalize (∅ : Dict String MatchDict) = init
  induction groups generalizing init with
  | nil => rfl
  | cons group rest ih =>
      obtain ⟨hgroup, hrest⟩ := List.forall_mem_cons.1 hgroups
      obtain ⟨files, id, hfiles, hid, -⟩ := exists_entry hgroup
      rw [List.foldlM_cons, hfiles, hid, List.foldl_cons, groupEntry, groupId, hfiles, hid]
      exact ih hrest _

theorem nodup_map_groupId_iff (hgroups : ∀ group ∈ groups, IsGroup foList group) :
    (groups.map groupId).Nodup ↔ (groups.map prefixes).Nodup := by
  rw [List.Nodup, List.Nodup, List.pairwise_map, List.pairwise_map]
  refine List.Pairwise.iff_of_mem fun {group group'} hgroup hgroup' => not_congr ?_
  obtain ⟨-, id, -, hid, -⟩ := exists_entry (hgroups group hgroup)
  obtain ⟨-, id', -, hid', -⟩ := exists_entry (hgroups group' hgroup')
  rw [← getSimilarFileGroupId_eq_iff (hgroups group hgroup) (hgroups group' hgroup'), groupId,
    groupId, hid, hid', Option.getD_some, Option.getD_some, Option.some.injEq]

/-- A table with one entry for each group has one id for each group. -/
theorem nodup_of_noGroupLost (hgroups : ∀ group ∈ groups, IsGroup foList group)
    (h : NoGroupLost foList groups similarity) : (groups.map groupId).Nodup := by
  obtain ⟨table, hcombine, keyOf, hperm, -⟩ := h
  obtain rfl := Option.some.inj ((combineSimilarityResults_eq hgroups).symm.trans hcombine)
  exact Dict.nodup_of_length_keys (hperm.length_eq.trans (List.length_map _))

/-- No group is lost iff no two groups agree in the first four characters of
their uids. -/
theorem noGroupLost_iff (hgroups : ∀ group ∈ groups, IsGroup foList group) :
    NoGroupLost foList groups similarity ↔ (groups.map prefixes).Nodup := by
  rw [← nodup_map_groupId_iff hgroups]
  constructor
  · exact nodup_of_noGroupLost hgroups
  · intro hnodup
    refine ⟨_, combineSimilarityResults_eq hgroups, groupId, Dict.keys_foldl_assign_perm hnodup, fun group hgroup => ?_⟩
    exact ⟨_, Dict.get?_foldl_assign_of_mem hnodup hgroup, groupEntry_isFor (hgroups group hgroup)⟩

end

/-! ## Two groups that agree in the first four characters -/

/-- A uid that begins with four ones. -/
def onesUid (n : Nat) : Uid :=
  String.ofList (List.replicate 4 '1' ++ List.replicate 60 (hexDigit n) ++ ['_', '1'])

theorem onesUid_isUid (n : Nat) : IsUid (onesUid n) := by
  refine isUid_ofList (by simp) ?_ (by simp) (by simp [UidPattern.isDigit])
  intro d hd
  rcases List.mem_append.1 hd with hd | hd
  · rw [List.eq_of_mem_replicate hd]
    decide
  · rw [List.eq_of_mem_replicate hd]
    exact isHex_hexDigit n

/-- Two objects with two files each. -/
def twoFilesEach : List ComparedObject :=
  [uniformObject 10 [2, 3] [] ∅,
    uniformObject 11 [2, 3] [] ∅]

/-- The group of a file in the first object and one in the second. -/
def groupOfTwo (file file' : Uid) : List SimilarFileId :=
  [getSimilarFileId file (uniformUid 10), getSimilarFileId file' (uniformUid 11)]

theorem groupOfTwo_isGroup {file file' : Uid} (hfile : IsUid file) (hfile' : IsUid file') :
    IsGroup twoFilesEach (groupOfTwo file file') := by
  refine ⟨[(uniformUid 10, file), (uniformUid 11, file')], rfl, ?_, ?_⟩
  · show [uniformUid 10, uniformUid 11].Nodup
    simp [uniformUid_ten_ne]
  · intro m hm
    rcases List.mem_cons.1 hm with rfl | hm
    · exact ⟨by simp [twoFilesEach, uniformObject], hfile⟩
    · rw [List.mem_singleton.1 hm]
      exact ⟨by simp [twoFilesEach, uniformObject], hfile'⟩

theorem prefixes_groupOfTwo {file file' : Uid} (hfile : IsUid file) (hfile' : IsUid file') :
    prefixes (groupOfTwo file file') =
      [some ("aaaa", firstFour file), some ("bbbb", firstFour file')] := by
  have huids : ∀ m ∈ [(uniformUid 10, file), (uniformUid 11, file')], IsUid m.1 ∧ IsUid m.2 := by
    intro m hm
    rcases List.mem_cons.1 hm with rfl | hm
    · exact ⟨uniformUid_isUid _, hfile⟩
    · rw [List.mem_singleton.1 hm]
      exact ⟨uniformUid_isUid _, hfile'⟩
  have ha : firstFour (uniformUid 10) = "aaaa" := by decide +kernel
  have hb : firstFour (uniformUid 11) = "bbbb" := by decide +kernel
  have hprefixes := prefixes_idsOf huids
  rw [List.map_cons, List.map_singleton, ha, hb] at hprefixes
  exact hprefixes

/-- Two groups of files whose uids begin alike. -/
def alikeGroups : List (List SimilarFileId) :=
  [groupOfTwo (onesUid 2) (onesUid 3), groupOfTwo (onesUid 4) (onesUid 5)]

/-- Both groups get one id, and one of them is lost. -/
theorem alikeGroups_lost : alikeGroups.Nodup ∧ (∀ group ∈ alikeGroups, IsGroup twoFilesEach group) ∧
    ¬ NoGroupLost twoFilesEach alikeGroups ∅ := by
  have hgroups : ∀ group ∈ alikeGroups, IsGroup twoFilesEach group := by
    intro group hgroup
    rcases List.mem_cons.1 hgroup with rfl | hgroup
    · exact groupOfTwo_isGroup (onesUid_isUid _) (onesUid_isUid _)
    · rw [List.mem_singleton.1 hgroup]
      exact groupOfTwo_isGroup (onesUid_isUid _) (onesUid_isUid _)
  refine ⟨by decide +kernel, hgroups, fun h => ?_⟩
  have hnodup := (nodup_map_groupId_iff hgroups).1 (nodup_of_noGroupLost hgroups h)
  have heq : prefixes (groupOfTwo (onesUid 2) (onesUid 3)) =
      prefixes (groupOfTwo (onesUid 4) (onesUid 5)) := by
    rw [prefixes_groupOfTwo (onesUid_isUid _) (onesUid_isUid _),
      prefixes_groupOfTwo (onesUid_isUid _) (onesUid_isUid _)]
    decide +kernel
  rw [alikeGroups, List.map_cons, List.map_singleton, heq] at hnodup
  simp at hnodup

/-- Two groups of files whose uids begin differently. -/
def differentGroups : List (List SimilarFileId) :=
  [groupOfTwo (uniformUid 2) (uniformUid 3), groupOfTwo (uniformUid 3) (uniformUid 2)]

theorem differentGroups_isGroup : ∀ group ∈ differentGroups, IsGroup twoFilesEach group := by
  intro group hgroup
  rcases List.mem_cons.1 hgroup with rfl | hgroup
  · exact groupOfTwo_isGroup (uniformUid_isUid _) (uniformUid_isUid _)
  · rw [List.mem_singleton.1 hgroup]
    exact groupOfTwo_isGroup (uniformUid_isUid _) (uniformUid_isUid _)

theorem differentGroups_noGroupLost_iff :
    NoGroupLost twoFilesEach differentGroups ∅ ↔ (differentGroups.map prefixes).Nodup :=
  noGroupLost_iff differentGroups_isGroup

end FactCore.FileCoverage
