import FactCore.HelperFunctions.Uid
import FactCore.Lib.DictTree
import FactCore.Lib.Join

/-! # Changed text files by directory

`group_path_dict_by_dirs` and `_count_changed_files` of `web_interface/filter.py`: a
dict from virtual paths to pairs of uids becomes a tree of dicts. The directories and
the files of a directory share the keys of one dict.

The paths come from all containers of a firmware, so one may be a file in one
container and a directory in another. Nothing gets lost if and only if this does not
happen and no two paths differ in empty directory names only.
-/

namespace FactCore.ChangedFiles

open DictTree (Apart Distinct DistinctAll FilledAll Items Same assign leaves leavesAll lookup under)

/-- A file in each of the two compared firmware images. -/
abbrev UidPair := Uid × Uid

inductive Exc where
  | attributeError (message : String)
  | typeError (message : String)
deriving DecidableEq

/-- The tree of dicts with lists at its leaves. -/
abbrev Tree := DictTree String (List UidPair)

/-! ## The code -/

/-- `*folders, file = path.split('/')` without the empty folders. -/
def folders (path : String) : List String := (Join.split '/' path).dropLast.filter fun dirName => dirName ≠ ""

def file (path : String) : String := (Join.split '/' path).getLast Join.split_ne_nil

/-- What happens when `current` is a list: it has no method `setdefault` for a further
folder, and the name of the file is no index. -/
def clash : List String → Exc
  | [] => .typeError "list indices must be integers or slices, not str"
  | _ :: _ => .attributeError "'list' object has no attribute 'setdefault'"

/-- One pass of the loop in `group_path_dict_by_dirs`. -/
def addPath (result : Items String (List UidPair)) (item : String × List UidPair) :
    Except Exc (Items String (List UidPair)) :=
  assign clash (folders item.1) (file item.1) item.2 result

/-- `group_path_dict_by_dirs`. -/
def groupPathDictByDirs (data : Dict String (List UidPair)) : Except Exc (Items String (List UidPair)) :=
  data.items.foldlM addPath []

mutual

/-- What a value adds to the count. -/
def countValue : Tree → ℕ
  | .leaf value => value.length
  | .dict ctfDict => countChangedFiles ctfDict

/-- `_count_changed_files`. -/
def countChangedFiles : Items String (List UidPair) → ℕ
  | [] => 0
  | (_, value) :: ctfDict => countValue value + countChangedFiles ctfDict

end

/-! ## What the tree should hold -/

/-- The keys that should lead to the list of a path. -/
def components (path : String) : List String := folders path ++ [file path]

/-- The paths are in no other path's way. -/
def PathsApart (data : Dict String (List UidPair)) : Prop :=
  (data.items.map fun item => components item.1).Pairwise Apart

instance instDecidableApart (a b : List String) : Decidable (Apart a b) :=
  inferInstanceAs (Decidable (¬ _ ∧ ¬ _))

instance instDecidablePathsApart (data : Dict String (List UidPair)) : Decidable (PathsApart data) :=
  inferInstanceAs (Decidable (List.Pairwise _ _))

/-- Each list is where its path says, no pair is missing in the count, and the dict may
have its items in any other order. -/
structure Grouped (data : Dict String (List UidPair)) (result : Items String (List UidPair)) : Prop where
  found : ∀ item ∈ data.items, lookup (components item.1) (.dict result) = some (.leaf item.2)
  count : countChangedFiles result = (data.items.flatMap Prod.snd).length
  order : ∀ data' : Dict String (List UidPair), data'.items.Perm data.items →
    ∃ result', groupPathDictByDirs data' = .ok result' ∧ Same (.dict result) (.dict result')

variable {data : Dict String (List UidPair)} {l : List (String × List UidPair)}
  {result result' : Items String (List UidPair)}

/-! ## Counting -/

theorem flatMap_under (k : String) (l : List (List String × List UidPair)) :
    (under k l).flatMap Prod.snd = l.flatMap Prod.snd := by
  rw [under, List.flatMap_map]

mutual

theorem countValue_eq : ∀ t : Tree, countValue t = ((leaves t).flatMap Prod.snd).length
  | .leaf value => by simp [countValue, leaves]
  | .dict ctfDict => countChangedFiles_eq ctfDict

/-- The count is the number of pairs at the leaves. -/
theorem countChangedFiles_eq : ∀ ctfDict : Items String (List UidPair),
    countChangedFiles ctfDict = ((leavesAll ctfDict).flatMap Prod.snd).length
  | [] => rfl
  | (k, t) :: ctfDict => by
      rw [countChangedFiles, leavesAll, List.flatMap_append, List.length_append, flatMap_under,
        countValue_eq t, countChangedFiles_eq ctfDict]

end

/-! ## The loop -/

/-- The leaf that a path should become. -/
def leafOf (item : String × List UidPair) : List String × List UidPair := (components item.1, item.2)

open scoped List in
/-- What is in the tree at the end, together with what has got lost, is what was added. -/
theorem leaves_of_foldlM (hdistinct : DistinctAll result) (hfilled : FilledAll result)
    (h : l.foldlM addPath result = .ok result') : DistinctAll result' ∧ FilledAll result' ∧
      ∃ lost, (l.map leafOf ++ leavesAll result).Perm (lost ++ leavesAll result') := by
  induction l generalizing result with
  | nil =>
      obtain rfl : result = result' := Except.ok.inj h
      exact ⟨hdistinct, hfilled, [], .refl _⟩
  | cons item l ih =>
      rw [List.foldlM_cons] at h
      cases hadd : addPath result item with
      | error e =>
          rw [hadd] at h
          cases h
      | ok next =>
          rw [hadd] at h
          have hrest : l.foldlM addPath next = .ok result' := h
          rcases DictTree.leaves_assign hdistinct hadd with ⟨gone, kept, hbefore, hafter, -⟩
          rcases ih (DictTree.distinctAll_assign hdistinct hadd)
            (DictTree.filledAll_assign hdistinct hfilled hadd) hrest with ⟨hd, hf, lost, hlost⟩
          -- what this path and the later ones make get lost
          refine ⟨hd, hf, gone ++ lost, ?_⟩
          have hstep : (leafOf item :: leavesAll result).Perm (gone ++ leavesAll next) :=
            (hbefore.cons _).trans (List.perm_middle.symm.trans (hafter.symm.append_left gone))
          rw [List.map_cons, List.cons_append]
          calc leafOf item :: (l.map leafOf ++ leavesAll result)
              ~ l.map leafOf ++ (leafOf item :: leavesAll result) := List.perm_middle.symm
            _ ~ l.map leafOf ++ (gone ++ leavesAll next) := hstep.append_left _
            _ ~ gone ++ (l.map leafOf ++ leavesAll next) := List.perm_append_comm_assoc _ _ _
            _ ~ gone ++ (lost ++ leavesAll result') := hlost.append_left gone
            _ ~ gone ++ lost ++ leavesAll result' := by rw [List.append_assoc]

/-- Paths that are apart from each other and from the leaves are all added. -/
theorem foldlM_of_apart (hdistinct : DistinctAll result)
    (hapart : (l.map fun item => components item.1).Pairwise Apart)
    (hleaves : ∀ p ∈ leavesAll result, ∀ item ∈ l, Apart p.1 (components item.1)) :
    ∃ result', l.foldlM addPath result = .ok result' ∧
      (leavesAll result').Perm (l.map leafOf ++ leavesAll result) := by
  induction l generalizing result with
  | nil => exact ⟨result, rfl, .refl _⟩
  | cons item l ih =>
      rw [List.map_cons, List.pairwise_cons] at hapart
      have hadd : ∃ next, addPath result item = .ok next ∧
          (leavesAll next).Perm (leafOf item :: leavesAll result) :=
        DictTree.assign_of_apart hdistinct fun p hp => hleaves p hp item List.mem_cons_self
      rcases hadd with ⟨next, hnext, hperm⟩
      -- the new leaf is apart from the later paths, too
      have hnextLeaves : ∀ p ∈ leavesAll next, ∀ later ∈ l, Apart p.1 (components later.1) := by
        intro p hp later hlater
        rcases List.mem_cons.1 (hperm.mem_iff.1 hp) with rfl | hold
        · exact hapart.1 _ (List.mem_map_of_mem hlater)
        · exact hleaves p hold later (List.mem_cons_of_mem _ hlater)
      rcases ih (DictTree.distinctAll_assign hdistinct hnext) hapart.2 hnextLeaves with
        ⟨result', hresult', hall⟩
      refine ⟨result', ?_, ?_⟩
      · rw [List.foldlM_cons, hnext]
        exact hresult'
      · rw [List.map_cons, List.cons_append]
        exact hall.trans ((hperm.append_left _).trans List.perm_middle)

/-! ## The whole dict -/

theorem group_of_apart (h : PathsApart data) : ∃ result, groupPathDictByDirs data = .ok result ∧
    (leavesAll result).Perm (data.items.map leafOf) := by
  have hempty : DistinctAll ([] : Items String (List UidPair)) := trivial
  rcases foldlM_of_apart hempty h (fun p hp => absurd hp List.not_mem_nil) with ⟨result, hresult, hperm⟩
  rw [leavesAll, List.append_nil] at hperm
  exact ⟨result, hresult, hperm⟩

theorem leaves_of_group (h : groupPathDictByDirs data = .ok result) :
    DistinctAll result ∧ FilledAll result ∧
      ∃ lost, (data.items.map leafOf).Perm (lost ++ leavesAll result) := by
  have hempty : DistinctAll ([] : Items String (List UidPair)) := trivial
  have hrun := leaves_of_foldlM hempty trivial h
  rwa [leavesAll, List.append_nil] at hrun

theorem flatMap_leafOf (l : List (String × List UidPair)) :
    (l.map leafOf).flatMap Prod.snd = l.flatMap Prod.snd := by
  rw [List.flatMap_map]
  rfl

/-- If no pair is missing in the count, then no list has got lost. -/
theorem apart_of_count (hne : ∀ item ∈ data.items, item.2 ≠ [])
    (hgroup : groupPathDictByDirs data = .ok result)
    (hcount : countChangedFiles result = (data.items.flatMap Prod.snd).length) : PathsApart data := by
  rcases leaves_of_group hgroup with ⟨hdistinct, -, lost, hperm⟩
  have hlengths := (hperm.flatMap_right Prod.snd).length_eq
  rw [flatMap_leafOf, List.flatMap_append, List.length_append, ← hcount, countChangedFiles_eq] at hlengths
  -- no pair is lost, and so no leaf is, since none of them is empty
  have hlost : lost.flatMap Prod.snd = [] := List.length_eq_zero_iff.1 (by omega)
  obtain rfl : lost = [] := List.eq_nil_iff_forall_not_mem.2 fun p hp => by
    rcases List.mem_map.1 (hperm.mem_iff.2 (List.mem_append_left _ hp)) with ⟨item, hitem, rfl⟩
    exact hne item hitem (List.flatMap_eq_nil_iff.1 hlost _ hp)
  have hleaves := DictTree.pairwise_leavesAll result hdistinct
  have hitems := (hperm.symm.pairwise_iff fun h => DictTree.Apart.symm h).1 hleaves
  rw [List.pairwise_map] at hitems
  exact List.pairwise_map.2 hitems

/-- The tree holds all pairs, where they belong and in any order, if and only if the paths
are apart. -/
theorem group_path_dict_by_dirs_iff (hne : ∀ item ∈ data.items, item.2 ≠ []) :
    (∃ result, groupPathDictByDirs data = .ok result ∧ Grouped data result) ↔ PathsApart data := by
  constructor
  · rintro ⟨result, hgroup, hgrouped⟩
    exact apart_of_count hne hgroup hgrouped.count
  · intro h
    rcases group_of_apart h with ⟨result, hgroup, hperm⟩
    rcases leaves_of_group hgroup with ⟨hdistinct, hfilled, -⟩
    refine ⟨result, hgroup, fun item hitem => ?_, ?_, fun data' hitems => ?_⟩
    · refine (DictTree.lookup_eq_leaf_iff (components item.1) (.dict result) hdistinct).2 ?_
      rw [leaves, hperm.mem_iff]
      exact List.mem_map_of_mem hitem
    · rw [countChangedFiles_eq, (hperm.flatMap_right Prod.snd).length_eq, flatMap_leafOf]
    · -- another order of the items gives the same leaves
      have h' : PathsApart data' :=
        ((hitems.map _).pairwise_iff fun h => DictTree.Apart.symm h).2 h
      rcases group_of_apart h' with ⟨result', hgroup', hperm'⟩
      rcases leaves_of_group hgroup' with ⟨hdistinct', hfilled', -⟩
      refine ⟨result', hgroup', DictTree.same_dict result result' hdistinct hdistinct' hfilled hfilled' ?_⟩
      intro p
      rw [hperm.mem_iff, hperm'.mem_iff, (hitems.map leafOf).mem_iff]

/-! ## Two paths -/

def sampleData (path path' : String) (hne : [path, path'].Nodup) : Dict String (List UidPair) :=
  ⟨[(path, [("a_1", "b_1")]), (path', [("c_2", "d_2")])], hne⟩

theorem group_path_dict_by_dirs_sample :
    (∃ result, groupPathDictByDirs (sampleData "/etc/passwd" "/etc/group" (by decide)) = .ok result ∧
        Grouped (sampleData "/etc/passwd" "/etc/group" (by decide)) result) ↔
      PathsApart (sampleData "/etc/passwd" "/etc/group" (by decide)) :=
  group_path_dict_by_dirs_iff (by decide)

/-- A path that is a file in one container and a directory in another. -/
theorem group_path_dict_by_dirs_clash :
    ¬ ∃ result, groupPathDictByDirs (sampleData "/a" "/a/b" (by decide)) = .ok result ∧
      Grouped (sampleData "/a" "/a/b" (by decide)) result := by
  rintro ⟨result, hgroup, hgrouped⟩
  exact absurd (apart_of_count (by decide) hgroup hgrouped.count) (by decide)

end FactCore.ChangedFiles
