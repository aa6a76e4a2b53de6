import Mathlib.Data.Multiset.Bind
import Mathlib.Data.String.Basic
import FactCore.Lib.Paths
import FactCore.Storage.DbInterfaceBackend

/-! # The walks over the file tree

`storage/db_interface_common.py`: `get_all_files_in_fo` descends from a file
object to everything that it includes, level by level;
`get_file_tree_path_for_uid_list` ascends from a list of files to the roots,
first in the database by a recursive query, then in memory by a recursion over
the pairs that the query found. Neither keeps a record of what it has visited.

All three take a bound on the number of rounds or on the depth of the
recursion. The rows of a query are a multiset, since `UNION ALL` keeps
duplicates.
-/

namespace FactCore

namespace Db

/-! ## Included files -/

/-- `FileObjectEntry.included_files`. -/
def childrenOf (db : Db) (uid : Uid) : Finset Uid :=
  (db.includedFiles.filter fun e => e.1 = uid).image Prod.snd

/-- `FileObjectEntry.parent_files`. -/
def parentsOf (db : Db) (uid : Uid) : Finset Uid :=
  (db.includedFiles.filter fun e => e.2 = uid).image Prod.fst

/-- The children of all rows that are found for a set of uids. -/
def includedFilesOf (db : Db) (uidSet : Finset Uid) : Finset Uid :=
  (db.fileObject.keys.toFinset.filter fun uid => uid ∈ uidSet).biUnion db.childrenOf

/-- `_get_files_in_files`. -/
def getFilesInFiles (db : Db) : Nat → Finset Uid → Bool → Option (Finset Uid)
  | 0, _, _ => none
  | n + 1, uidSet, recursive =>
      if uidSet = ∅ then some ∅
      else
        let includedFiles := db.includedFilesOf uidSet
        if recursive && decide (includedFiles ≠ ∅) then
          (getFilesInFiles db n includedFiles true).map fun files => includedFiles ∪ files
        else some includedFiles

/-- `get_all_files_in_fo`. -/
def getAllFilesInFo (db : Db) (fo : FileObject) (n : Nat) : Option (Finset Uid) :=
  (db.getFilesInFiles n fo.filesIncluded true).map fun files =>
    files ∪ insert fo.uid fo.filesIncluded

/-- `get_list_of_all_included_files`. -/
def getListOfAllIncludedFiles (db : Db) (fo : FileObject) (n : Nat) : Option (Finset Uid) :=
  if fo.isFirmware then some (db.getAllFilesInFw fo.uid) else db.getAllFilesInFo fo n

/-! ## Paths in the file tree -/

/-- `top_query`: the pairs whose child is in the list. -/
def topQuery (db : Db) (uidList : List Uid) : Multiset (Uid × Uid) :=
  (db.includedFiles.filter fun e => e.2 ∈ uidList).val

/-- The recursive part of the query: the table joined with the rows that were
found last. -/
def joinParents (db : Db) (child : Multiset (Uid × Uid)) : Multiset (Uid × Uid) :=
  child.bind fun c => (db.includedFiles.filter fun parent => parent.2 = c.1).val

/-- One round of the evaluation of a recursive query: all rows so far and those
of the last round. -/
def unionAllRound (db : Db) (rows : Multiset (Uid × Uid) × Multiset (Uid × Uid)) :
    (Multiset (Uid × Uid) × Multiset (Uid × Uid)) ⊕ Multiset (Uid × Uid) :=
  if rows.2 = 0 then .inr rows.1
  else .inl (rows.1 + db.joinParents rows.2, db.joinParents rows.2)

/-- `bottom_query`. -/
def bottomQuery (db : Db) (uidList : List Uid) (n : Nat) : Option (Multiset (Uid × Uid)) :=
  Loop.iterate db.unionAllRound n (db.topQuery uidList, db.topQuery uidList)

/-- The dictionary `child_to_parents`; a key is present if its set is not empty. -/
def childToParents (pairs : Multiset (Uid × Uid)) (child : Uid) : Finset Uid :=
  ((pairs.filter fun e => e.2 = child).map Prod.fst).toFinset

/-- `_generate_file_tree_path`. -/
def generateFileTreePath (order : IterOrder Uid) (childToParents : Uid → Finset Uid) (n : Nat)
    (uid : Uid) : Option (List (List Uid)) :=
  Paths.collect (fun child => order.list (childToParents child)) n uid

/-- `_convert_tuples_to_path`. -/
def convertTuplesToPath (order : IterOrder Uid) (pairs : Multiset (Uid × Uid)) (uidList : List Uid)
    (n : Nat) : Option (Dict Uid (List (List Uid))) :=
  uidList.foldlM (fun d uid =>
    (generateFileTreePath order (childToParents pairs) n uid).map fun paths => d.set uid paths) ∅

/-- `_remove_paths_lacking_root_uid`. -/
def removePathsLackingRootUid (pathDict : Dict Uid (List (List Uid))) (rootUid : Uid) :
    Dict Uid (List (List Uid)) :=
  (pathDict.map fun _ paths => paths.filter fun path => path.head? = some rootUid).filter
    fun paths => !paths.isEmpty

/-- `get_file_tree_path_for_uid_list`. -/
def getFileTreePathForUidList (db : Db) (order : IterOrder Uid) (uidList : List Uid)
    (rootUid : Option Uid) (n : Nat) : Option (Dict Uid (List (List Uid))) :=
  (db.bottomQuery uidList n).bind fun pairs =>
    (convertTuplesToPath order pairs uidList n).map fun found =>
      let pathDict := found.map fun uid paths => if paths.isEmpty then [[uid]] else paths
      match rootUid with
      | none => pathDict
      | some root => removePathsLackingRootUid pathDict root

/-! ## The relation behind the tables -/

/-- `child` is contained in `parent`. -/
def Included (db : Db) (parent child : Uid) : Prop := (parent, child) ∈ db.includedFiles

variable {db : Db} {uid parent child : Uid}

@[simp] theorem mem_childrenOf : child ∈ db.childrenOf uid ↔ db.Included uid child := by
  simp [childrenOf, Included]

@[simp] theorem mem_parentsOf : parent ∈ db.parentsOf uid ↔ db.Included parent uid := by
  simp [parentsOf, Included]

/-- The containment goes downwards in no cycle that can be reached from the file. -/
def CycleFreeBelow (db : Db) (uid : Uid) : Prop := Paths.CycleFree db.Included uid

/-- The same upwards. -/
def CycleFreeAbove (db : Db) (uid : Uid) : Prop :=
  Paths.CycleFree (fun child parent => db.Included parent child) uid

theorem childrenOf_subset : child ∈ db.childrenOf uid → child ∈ db.includedFiles.image Prod.snd := by
  rw [mem_childrenOf]
  exact fun h => Finset.mem_image_of_mem Prod.snd h

theorem parentsOf_subset : parent ∈ db.parentsOf uid → parent ∈ db.includedFiles.image Prod.fst := by
  rw [mem_parentsOf]
  exact fun h => Finset.mem_image_of_mem Prod.fst h

/-! ## The descent -/

/-- Every parent has a row, so the query finds the children of all uids. -/
theorem includedFilesOf_eq (db : Db) (uidSet : Finset Uid) :
    db.includedFilesOf uidSet = Paths.level db.childrenOf uidSet := by
  ext child
  simp only [includedFilesOf, Paths.level, Finset.mem_biUnion, Finset.mem_filter,
    List.mem_toFinset, Dict.mem_keys, mem_childrenOf]
  constructor
  · rintro ⟨uid, ⟨-, hmem⟩, hchild⟩
    exact ⟨uid, hmem, hchild⟩
  · rintro ⟨uid, hmem, hchild⟩
    exact ⟨uid, ⟨(db.includedFiles_fk _ hchild).1, hmem⟩, hchild⟩

theorem getFilesInFiles_succ (db : Db) (n : Nat) (uidSet : Finset Uid) :
    db.getFilesInFiles (n + 1) uidSet true =
      if uidSet = ∅ then some ∅
      else if Paths.level db.childrenOf uidSet = ∅ then some ∅
      else (db.getFilesInFiles n (Paths.level db.childrenOf uidSet) true).map fun files =>
        Paths.level db.childrenOf uidSet ∪ files := by
  simp only [getFilesInFiles, includedFilesOf_eq, Bool.true_and, decide_eq_true_eq]
  by_cases hempty : Paths.level db.childrenOf uidSet = ∅
  · simp [hempty]
  · simp [hempty]

theorem getFilesInFiles_terminates {n : Nat} {uidSet : Finset Uid}
    (h : (Paths.level db.childrenOf)^[n] uidSet = ∅) :
    ∃ files, Loop.Terminates (fun n => db.getFilesInFiles n uidSet true) files := by
  induction n generalizing uidSet with
  | zero =>
      obtain rfl : uidSet = ∅ := h
      refine ⟨∅, 1, ?_⟩
      intro m hm
      obtain ⟨k, rfl⟩ : ∃ k, m = k + 1 := ⟨m - 1, by omega⟩
      simp only [getFilesInFiles_succ, if_true]
  | succ n ih =>
      rw [Function.iterate_succ_apply] at h
      obtain ⟨files, k, hk⟩ := ih h
      refine ⟨if uidSet = ∅ then ∅ else if Paths.level db.childrenOf uidSet = ∅ then ∅
        else Paths.level db.childrenOf uidSet ∪ files, k + 1, ?_⟩
      intro m hm
      obtain ⟨m, rfl⟩ : ∃ j, m = j + 1 := ⟨m - 1, by omega⟩
      have hrec := hk m (by omega)
      simp only at hrec
      simp only [getFilesInFiles_succ, hrec, Option.map_some]
      split
      · rfl
      · split <;> rfl

theorem level_dies_of_getFilesInFiles {n : Nat} {uidSet files : Finset Uid}
    (h : db.getFilesInFiles n uidSet true = some files) :
    (Paths.level db.childrenOf)^[n] uidSet = ∅ := by
  induction n generalizing uidSet files with
  | zero => cases h
  | succ n ih =>
      rw [getFilesInFiles_succ] at h
      split at h
      · rename_i hempty
        rw [hempty]
        exact Paths.level_iterate_empty
      · rw [Function.iterate_succ_apply]
        split at h
        · rename_i hempty
          rw [hempty]
          exact Paths.level_iterate_empty
        · obtain ⟨files', hrec, -⟩ := Option.map_eq_some_iff.1 h
          exact ih hrec

/-- The descent finds exactly what is contained in one of the files. -/
theorem mem_getFilesInFiles {n : Nat} {uidSet files : Finset Uid}
    (h : db.getFilesInFiles n uidSet true = some files) :
    uid ∈ files ↔ ∃ a ∈ uidSet, Relation.TransGen db.Included a uid := by
  induction n generalizing uidSet files with
  | zero => cases h
  | succ n ih =>
      have hlevel : ∀ b, b ∈ Paths.level db.childrenOf uidSet ↔ ∃ a ∈ uidSet, db.Included a b := by
        simp [Paths.mem_level]
      have hhead : (∃ a ∈ uidSet, Relation.TransGen db.Included a uid) ↔
          ∃ b ∈ Paths.level db.childrenOf uidSet, Relation.ReflTransGen db.Included b uid := by
        simp only [hlevel, Relation.TransGen.head'_iff]
        constructor
        · rintro ⟨a, ha, b, hab, hb⟩
          exact ⟨b, ⟨a, ha, hab⟩, hb⟩
        · rintro ⟨b, ⟨a, ha, hab⟩, hb⟩
          exact ⟨a, ha, b, hab, hb⟩
      rw [hhead]
      rw [getFilesInFiles_succ] at h
      split at h
      · rename_i hempty
        obtain rfl := Option.some.inj h
        simp [hempty, Paths.level]
      · split at h
        · rename_i hempty
          obtain rfl := Option.some.inj h
          simp [hempty]
        · obtain ⟨files', hrec, rfl⟩ := Option.map_eq_some_iff.1 h
          rw [Finset.mem_union, ih hrec]
          simp only [Relation.reflTransGen_iff_eq_or_transGen]
          constructor
          · rintro (hmem | ⟨b, hb, htrans⟩)
            · exact ⟨uid, hmem, Or.inl rfl⟩
            · exact ⟨b, hb, Or.inr htrans⟩
          · rintro ⟨b, hb, rfl | htrans⟩
            · exact Or.inl hb
            · exact Or.inr ⟨b, hb, htrans⟩

/-! ## The recursive query -/

theorem mem_topQuery {e : Uid × Uid} {uidList : List Uid} :
    e ∈ db.topQuery uidList ↔ e ∈ db.includedFiles ∧ e.2 ∈ uidList := by
  simp [topQuery]

theorem mem_joinParents {e : Uid × Uid} {rows : Multiset (Uid × Uid)} :
    e ∈ db.joinParents rows ↔ e ∈ db.includedFiles ∧ ∃ c ∈ rows, e.2 = c.1 := by
  simp only [joinParents, Multiset.mem_bind, Finset.mem_val, Finset.mem_filter]
  constructor
  · rintro ⟨c, hc, he, heq⟩
    exact ⟨he, c, hc, heq⟩
  · rintro ⟨he, c, hc, heq⟩
    exact ⟨c, hc, he, heq⟩

/-- The rows found last are the pairs whose child is on the level. -/
def OnLevel (db : Db) (rows : Multiset (Uid × Uid)) (level : Finset Uid) : Prop :=
  ∀ e, e ∈ rows ↔ e ∈ db.includedFiles ∧ e.2 ∈ level

theorem OnLevel.join {rows : Multiset (Uid × Uid)} {level : Finset Uid} (h : OnLevel db rows level) :
    OnLevel db (db.joinParents rows) (Paths.level db.parentsOf level) := by
  intro e
  rw [mem_joinParents, Paths.mem_level]
  apply and_congr_right
  intro _
  constructor
  · rintro ⟨c, hc, heq⟩
    obtain ⟨hc, hlevel⟩ := (h c).1 hc
    refine ⟨c.2, hlevel, mem_parentsOf.2 ?_⟩
    rw [heq]
    exact hc
  · rintro ⟨child, hchild, hparent⟩
    exact ⟨(e.2, child), (h _).2 ⟨mem_parentsOf.1 hparent, hchild⟩, rfl⟩

theorem OnLevel.eq_zero {rows : Multiset (Uid × Uid)} {level : Finset Uid}
    (h : OnLevel db rows level) : rows = 0 ↔ Paths.level db.parentsOf level = ∅ := by
  rw [Multiset.eq_zero_iff_forall_notMem, Finset.eq_empty_iff_forall_notMem]
  constructor
  · intro hrows parent hparent
    obtain ⟨child, hchild, hparent⟩ := Paths.mem_level.1 hparent
    exact hrows (parent, child) ((h _).2 ⟨mem_parentsOf.1 hparent, hchild⟩)
  · intro hlevel e he
    obtain ⟨he, hchild⟩ := (h e).1 he
    exact hlevel e.1 (Paths.mem_level.2 ⟨e.2, hchild, mem_parentsOf.2 he⟩)

/-- The rounds of the query end when the levels above the list die out. -/
theorem iterate_unionAll (found : Multiset (Uid × Uid)) {rows : Multiset (Uid × Uid)} {level : Finset Uid} {n : Nat}
    (h : OnLevel db rows level) (hlevel : (Paths.level db.parentsOf)^[n] level = ∅) :
    ∃ pairs, Loop.iterate db.unionAllRound (n + 1) (found, rows) = some pairs := by
  induction n generalizing found rows level with
  | zero =>
      obtain rfl : level = ∅ := hlevel
      have hzero : rows = 0 := h.eq_zero.2 (Finset.biUnion_empty)
      exact ⟨found, by simp [Loop.iterate, unionAllRound, hzero]⟩
  | succ n ih =>
      by_cases hzero : rows = 0
      · exact ⟨found, by simp [Loop.iterate, unionAllRound, hzero]⟩
      · rw [Function.iterate_succ_apply] at hlevel
        obtain ⟨pairs, hpairs⟩ := ih (found + db.joinParents rows) h.join hlevel
        refine ⟨pairs, ?_⟩
        rw [Loop.iterate, unionAllRound, if_neg hzero]
        exact hpairs

theorem level_dies_of_unionAll {found rows pairs : Multiset (Uid × Uid)} {level : Finset Uid}
    {n : Nat} (h : OnLevel db rows level)
    (hrun : Loop.iterate db.unionAllRound n (found, rows) = some pairs) :
    (Paths.level db.parentsOf)^[n] level = ∅ := by
  induction n generalizing found rows level with
  | zero => cases hrun
  | succ n ih =>
      rw [Function.iterate_succ_apply]
      by_cases hzero : rows = 0
      · rw [h.eq_zero.1 hzero]
        exact Paths.level_iterate_empty
      · rw [Loop.iterate, unionAllRound, if_neg hzero] at hrun
        exact ih h.join hrun

theorem onLevel_topQuery (uidList : List Uid) :
    OnLevel db (db.topQuery uidList) uidList.toFinset := by
  intro e
  rw [mem_topQuery, List.mem_toFinset]

/-- What the query has found between two rounds: pairs above the list, and all
parents of what was found before the last round. -/
structure QueryInv (db : Db) (uidList : List Uid)
    (rows : Multiset (Uid × Uid) × Multiset (Uid × Uid)) : Prop where
  sound : ∀ e ∈ rows.1, e ∈ db.includedFiles ∧
    ∃ uid ∈ uidList, Relation.ReflTransGen (fun child parent => db.Included parent child) uid e.2
  last : ∀ e ∈ rows.2, e ∈ rows.1
  top : ∀ e ∈ db.includedFiles, e.2 ∈ uidList → e ∈ rows.1
  closed : ∀ e ∈ rows.1, e ∉ rows.2 → ∀ e' ∈ db.includedFiles, e'.2 = e.1 → e' ∈ rows.1

theorem queryInv_round {uidList : List Uid} {rows rows' : Multiset (Uid × Uid) × Multiset (Uid × Uid)}
    (h : QueryInv db uidList rows) (hround : db.unionAllRound rows = .inl rows') :
    QueryInv db uidList rows' := by
  rw [unionAllRound] at hround
  split at hround
  · cases hround
  · obtain rfl := Sum.inl.inj hround
    constructor
    · intro e he
      rcases Multiset.mem_add.1 he with he | he
      · exact h.sound e he
      · obtain ⟨hmem, c, hc, heq⟩ := mem_joinParents.1 he
        obtain ⟨hmem', uid, huid, hreach⟩ := h.sound c (h.last c hc)
        exact ⟨hmem, uid, huid, heq ▸ hreach.tail hmem'⟩
    · intro e he
      exact Multiset.mem_add.2 (Or.inr he)
    · intro e he huid
      exact Multiset.mem_add.2 (Or.inl (h.top e he huid))
    · intro e he hnot e' he' heq
      have hold : e ∈ rows.1 := (Multiset.mem_add.1 he).resolve_right hnot
      by_cases hlast : e ∈ rows.2
      · exact Multiset.mem_add.2 (Or.inr (mem_joinParents.2 ⟨he', e, hlast, heq⟩))
      · exact Multiset.mem_add.2 (Or.inl (h.closed e hold hlast e' he' heq))

/-- The query finds exactly the pairs above the list. -/
theorem mem_bottomQuery {uidList : List Uid} {pairs : Multiset (Uid × Uid)} {n : Nat}
    (h : db.bottomQuery uidList n = some pairs) {e : Uid × Uid} :
    e ∈ pairs ↔ e ∈ db.includedFiles ∧ ∃ uid ∈ uidList,
      Relation.ReflTransGen (fun child parent => db.Included parent child) uid e.2 := by
  have hinit : QueryInv db uidList (db.topQuery uidList, db.topQuery uidList) := by
    constructor
    · intro e he
      obtain ⟨hmem, huid⟩ := mem_topQuery.1 he
      exact ⟨hmem, e.2, huid, Relation.ReflTransGen.refl⟩
    · exact fun e he => he
    · intro e he huid
      exact mem_topQuery.2 ⟨he, huid⟩
    · intro e he hnot
      exact absurd he hnot
  have hexit : ∀ rows r, QueryInv db uidList rows → db.unionAllRound rows = .inr r →
      QueryInv db uidList (r, 0) := by
    intro rows r hinv hround
    rw [unionAllRound] at hround
    split at hround
    · rename_i hzero
      obtain rfl := Sum.inr.inj hround
      rwa [← hzero]
    · cases hround
  have hinv := Loop.iterate_invariant (fun _ _ => queryInv_round) hexit hinit h
  constructor
  · exact hinv.sound e
  · rintro ⟨hmem, uid, huid, hreach⟩
    obtain ⟨parent, child⟩ := e
    change Relation.ReflTransGen _ uid child at hreach
    induction hreach generalizing parent with
    | refl => exact hinv.top _ hmem huid
    | tail _ hstep ih => exact hinv.closed _ (ih _ hstep) (Multiset.notMem_zero _) _ hmem rfl

/-! ## The paths -/

theorem mem_childToParents {pairs : Multiset (Uid × Uid)} :
    parent ∈ childToParents pairs child ↔ (parent, child) ∈ pairs := by
  simp [childToParents]

/-- Above the list, the dictionary holds the parents of each file. -/
theorem childToParents_eq {uidList : List Uid} {pairs : Multiset (Uid × Uid)} {n : Nat}
    (h : db.bottomQuery uidList n = some pairs) (huid : uid ∈ uidList)
    (hreach : Relation.ReflTransGen (fun child parent => db.Included parent child) uid child) :
    childToParents pairs child = db.parentsOf child := by
  ext parent
  rw [mem_childToParents, mem_bottomQuery h, mem_parentsOf]
  constructor
  · exact fun hmem => hmem.1
  · exact fun hmem => ⟨hmem, uid, huid, hreach⟩

/-- The fold over the list assigns to each uid what is found for it. -/
theorem foldlM_set {ν : Type} {f : Uid → Option ν} {g : Uid → ν} {l : List Uid} {d : Dict Uid ν}
    (h : ∀ uid ∈ l, f uid = some (g uid)) :
    l.foldlM (fun d uid => (f uid).map fun x => d.set uid x) d =
      some (l.foldl (fun d uid => d.set uid (g uid)) d) := by
  induction l generalizing d with
  | nil => rfl
  | cons a l ih =>
      rw [List.foldlM_cons, h a List.mem_cons_self]
      exact ih fun uid huid => h uid (List.mem_cons_of_mem _ huid)

section

variable {order : IterOrder Uid} {uidList : List Uid} {pairs : Multiset (Uid × Uid)} {n m : Nat}
  {path : List Uid} {paths : List (List Uid)}

/-- A step from a file to one of its parents in the dictionary. -/
theorem included_of_mem (h : db.bottomQuery uidList n = some pairs)
    (hmem : parent ∈ order.list (childToParents pairs child)) : db.Included parent child :=
  ((mem_bottomQuery h).1 (mem_childToParents.1 ((order.mem _ _).1 hmem))).1

/-- The trails through the dictionary are those through the table. -/
theorem trail_iff (h : db.bottomQuery uidList n = some pairs) (huid : uid ∈ uidList) :
    Paths.Trail (fun child => order.list (childToParents pairs child)) uid path ↔
      Paths.Trail (fun child => order.list (db.parentsOf child)) uid path := by
  constructor
  · intro htrail
    apply htrail.congr
    intro child hreach
    have hup := Relation.ReflTransGen.mono (fun _ _ hmem => included_of_mem h hmem) _ _ hreach
    rw [childToParents_eq h huid hup]
  · intro htrail
    apply htrail.congr
    intro child hreach
    have hup : Relation.ReflTransGen (fun child parent => db.Included parent child) uid child :=
      Relation.ReflTransGen.mono (fun _ _ hmem => mem_parentsOf.1 ((order.mem _ _).1 hmem)) _ _
        hreach
    rw [childToParents_eq h huid hup]

/-- The paths of a file with the fallback for roots are its simple paths from
a root. -/
theorem mem_paths_iff (h : db.bottomQuery uidList n = some pairs) (huid : uid ∈ uidList)
    (hfree : db.CycleFreeAbove uid)
    (hpaths : generateFileTreePath order (childToParents pairs) m uid = some paths) :
    path ∈ (if paths.isEmpty then [[uid]] else paths) ↔
      Paths.RootPath (fun child parent => db.Included parent child) uid path := by
  have hmem := @Paths.mem_collect _ _ _ _ _ path hpaths
  have htrail : path ∈ (if paths.isEmpty then [[uid]] else paths) ↔
      Paths.Trail (fun child => order.list (childToParents pairs child)) uid path := by
    cases hsuccs : order.list (childToParents pairs uid) with
    | nil =>
        rw [Paths.trail_iff_of_nil hsuccs]
        have hnone : paths = [] := by
          rw [List.eq_nil_iff_forall_not_mem]
          intro path' hpath'
          exact ((Paths.mem_collect hpaths).1 hpath').1 hsuccs
        simp [hnone]
    | cons b l =>
        have hne : order.list (childToParents pairs uid) ≠ [] := by simp [hsuccs]
        obtain ⟨path', hpath'⟩ := Paths.exists_trail (Paths.acc_of_collect hpaths)
        have hsome := List.ne_nil_of_mem ((Paths.mem_collect hpaths).2 ⟨hne, hpath'⟩)
        rw [if_neg (fun hempty => hsome (List.isEmpty_iff.1 hempty)), hmem]
        exact and_iff_right hne
  have hrel : (fun child parent => db.Included parent child) =
      fun child parent => parent ∈ order.list (db.parentsOf child) := by
    funext child parent
    rw [order.mem, mem_parentsOf]
  rw [htrail, trail_iff h huid, hrel]
  constructor
  · apply Paths.Trail.rootPath
    rw [← hrel]
    exact hfree
  · exact Paths.RootPath.trail

theorem nodup_paths (hpaths : generateFileTreePath order (childToParents pairs) m uid = some paths) :
    (if paths.isEmpty then [[uid]] else paths).Nodup := by
  split
  · exact List.nodup_singleton _
  · exact Paths.nodup_collect (fun _ => order.nodup _) hpaths

theorem generateFileTreePath_terminates (h : db.bottomQuery uidList n = some pairs)
    (hfree : db.CycleFreeAbove uid) : ∃ paths, Loop.Terminates
      (fun m => generateFileTreePath order (childToParents pairs) m uid) paths := by
  apply (Paths.collect_terminates_iff (db.includedFiles.image Prod.fst) ?_).2
  · exact hfree.mono fun _ _ hmem => included_of_mem h hmem
  · intro child parent hmem
    exact parentsOf_subset (mem_parentsOf.2 (included_of_mem h hmem))

end

/-! ## When the walks end -/

/-- The result of the descent: the object and everything contained in it. -/
def AllFiles (db : Db) (fo : FileObject) (files : Finset Uid) : Prop :=
  ∀ uid, uid ∈ files ↔
    uid = fo.uid ∨ ∃ child ∈ fo.filesIncluded, Relation.ReflTransGen db.Included child uid

/-- The result of the ascent: for each file its simple paths from a root, each once. -/
def AllPaths (db : Db) (uidList : List Uid) (pathDict : Dict Uid (List (List Uid))) : Prop :=
  ∀ uid ∈ uidList, ∃ paths, pathDict.get? uid = some paths ∧ paths.Nodup ∧
    ∀ path, path ∈ paths ↔
      Paths.RootPath (fun child parent => db.Included parent child) uid path

theorem level_children_dies_iff {uidSet : Finset Uid} :
    (∃ n, (Paths.level db.childrenOf)^[n] uidSet = ∅) ↔ ∀ uid ∈ uidSet, db.CycleFreeBelow uid := by
  rw [Paths.level_dies_iff (db.includedFiles.image Prod.snd) fun _ _ => childrenOf_subset]
  simp only [mem_childrenOf]
  exact Iff.rfl

theorem level_parents_dies_iff {uidSet : Finset Uid} :
    (∃ n, (Paths.level db.parentsOf)^[n] uidSet = ∅) ↔ ∀ uid ∈ uidSet, db.CycleFreeAbove uid := by
  rw [Paths.level_dies_iff (db.includedFiles.image Prod.fst) fun _ _ => parentsOf_subset]
  simp only [mem_parentsOf]
  exact Iff.rfl

/-- The descent from a file object ends, with the right result, if and only if
no cycle can be reached downwards. -/
theorem getAllFilesInFo_iff (db : Db) (fo : FileObject) :
    (∃ files, Loop.Terminates (db.getAllFilesInFo fo) files ∧ AllFiles db fo files) ↔
      ∀ child ∈ fo.filesIncluded, db.CycleFreeBelow child := by
  constructor
  · rintro ⟨files, ⟨n, hn⟩, -⟩
    obtain ⟨found, hfound, -⟩ := Option.map_eq_some_iff.1 (hn n (Nat.le_refl n))
    exact level_children_dies_iff.1 ⟨n, level_dies_of_getFilesInFiles hfound⟩
  · intro hfree
    obtain ⟨n, hn⟩ := level_children_dies_iff.2 hfree
    obtain ⟨found, hfound⟩ := getFilesInFiles_terminates hn
    refine ⟨_, hfound.map fun files => files ∪ insert fo.uid fo.filesIncluded, ?_⟩
    obtain ⟨k, hk⟩ := hfound
    intro uid
    rw [Finset.mem_union, Finset.mem_insert, mem_getFilesInFiles (hk k (Nat.le_refl k))]
    simp only [Relation.reflTransGen_iff_eq_or_transGen]
    constructor
    · rintro (⟨child, hchild, htrans⟩ | rfl | hmem)
      · exact Or.inr ⟨child, hchild, Or.inr htrans⟩
      · exact Or.inl rfl
      · exact Or.inr ⟨uid, hmem, Or.inl rfl⟩
    · rintro (rfl | ⟨child, hchild, rfl | htrans⟩)
      · exact Or.inr (Or.inl rfl)
      · exact Or.inr (Or.inr hchild)
      · exact Or.inl ⟨child, hchild, htrans⟩

/-- The ascent from a list of files ends, with the right result, if and only if
no cycle can be reached upwards. -/
theorem getFileTreePathForUidList_iff (db : Db) (order : IterOrder Uid) (uidList : List Uid) :
    (∃ pathDict, Loop.Terminates (db.getFileTreePathForUidList order uidList none) pathDict ∧
      AllPaths db uidList pathDict) ↔ ∀ uid ∈ uidList, db.CycleFreeAbove uid := by
  have hlevel : (∃ n, (Paths.level db.parentsOf)^[n] uidList.toFinset = ∅) ↔
      ∀ uid ∈ uidList, db.CycleFreeAbove uid := by
    rw [level_parents_dies_iff]
    simp only [List.mem_toFinset]
  constructor
  · rintro ⟨pathDict, ⟨n, hn⟩, -⟩
    obtain ⟨pairs, hpairs, -⟩ := Option.bind_eq_some_iff.1 (hn n (Nat.le_refl n))
    exact hlevel.1 ⟨n, level_dies_of_unionAll (onLevel_topQuery uidList) hpairs⟩
  · intro hfree
    obtain ⟨n, hn⟩ := hlevel.2 hfree
    obtain ⟨pairs, hpairs⟩ := iterate_unionAll (db.topQuery uidList)
      (onLevel_topQuery uidList) hn
    have hgen : ∀ uid, ∃ paths, uid ∈ uidList → Loop.Terminates
        (fun m => generateFileTreePath order (childToParents pairs) m uid) paths := by
      intro uid
      by_cases huid : uid ∈ uidList
      · obtain ⟨paths, hpaths⟩ : ∃ paths, Loop.Terminates
            (fun m => generateFileTreePath order (childToParents pairs) m uid) paths :=
          generateFileTreePath_terminates hpairs (hfree uid huid)
        exact ⟨paths, fun _ => hpaths⟩
      · exact ⟨[], fun hmem => absurd hmem huid⟩
    choose g hg using hgen
    obtain ⟨k, hk⟩ := Loop.exists_common_bound hg
    let found : Dict Uid (List (List Uid)) :=
      uidList.foldl (fun (d : Dict Uid (List (List Uid))) uid => d.set uid (g uid)) ∅
    refine ⟨found.map fun uid paths => if paths.isEmpty then [[uid]] else paths,
      ⟨max (n + 1) k, ?_⟩, ?_⟩
    · intro m hm
      have hrows : db.bottomQuery uidList m = some pairs := Loop.iterate_mono hpairs (by omega)
      have hfold : convertTuplesToPath order pairs uidList m = some found :=
        foldlM_set (hk m (by omega))
      rw [getFileTreePathForUidList, hrows, Option.bind_some, hfold]
      rfl
    · intro uid huid
      have hpaths := hk k (Nat.le_refl k) uid huid
      refine ⟨if (g uid).isEmpty then [[uid]] else g uid, ?_, nodup_paths hpaths, ?_⟩
      · rw [Dict.get?_map, Dict.get?_foldl_set, if_pos huid]
        rfl
      · intro path
        exact mem_paths_iff hpairs huid (hfree uid huid) hpaths

/-- Both walks end with the right result exactly where they cannot get into a
cycle of the containment. -/
theorem walks_terminate_iff (db : Db) (order : IterOrder Uid) (fo : FileObject)
    (uidList : List Uid) :
    ((∃ files, Loop.Terminates (db.getAllFilesInFo fo) files ∧ AllFiles db fo files) ↔
      ∀ child ∈ fo.filesIncluded, db.CycleFreeBelow child) ∧
    ((∃ pathDict, Loop.Terminates (db.getFileTreePathForUidList order uidList none) pathDict ∧
      AllPaths db uidList pathDict) ↔ ∀ uid ∈ uidList, db.CycleFreeAbove uid) :=
  ⟨getAllFilesInFo_iff db fo, getFileTreePathForUidList_iff db order uidList⟩

/-- A firmware with an archive `a` that contains an archive `b`. -/
def archives : List FileObject :=
  [FileObject.newFirmware "fw" "fw" 1 "fw" ⟨"d", "v", "c", "v", "", "2024-01-01", []⟩,
    { FileObject.new "a" "a" 1 "a" with parents := ["fw"], parentFirmwareUids := {"fw"} },
    { FileObject.new "b" "b" 1 "b" with
      parents := ["a"], parentFirmwareUids := {"fw"}, filesIncluded := {"a"} }]

/-- The database after `b` turned out to contain `a`, which was unpacked before. -/
def nestedDb : Db :=
  (archives.foldl (fun db fo => (db.addObject fo).1) empty).addChildToParent "b" "a"

theorem nestedDb_included : nestedDb.Included "a" "b" ∧ nestedDb.Included "b" "a" := by
  unfold Included
  decide +kernel

/-- Neither walk ends on nested archives that contain each other. -/
theorem walks_nested :
    (¬ ∃ files, Loop.Terminates (nestedDb.getAllFilesInFo (archives.getLast (by decide))) files ∧
      AllFiles nestedDb (archives.getLast (by decide)) files) ∧
    ¬ ∃ pathDict, Loop.Terminates
      (nestedDb.getFileTreePathForUidList (IterOrder.sorted String) ["a"] none) pathDict ∧
      AllPaths nestedDb ["a"] pathDict := by
  obtain ⟨hab, hba⟩ := nestedDb_included
  rw [getAllFilesInFo_iff, getFileTreePathForUidList_iff]
  constructor
  · intro hfree
    have hcycle := hfree "a" (by decide)
    exact hcycle "a" Relation.ReflTransGen.refl ((Relation.TransGen.single hab).tail hba)
  · intro hfree
    have hup : Relation.TransGen (fun child parent => nestedDb.Included parent child) "a" "a" :=
      Relation.TransGen.tail (b := "b") (Relation.TransGen.single hba) hab
    exact hfree "a" List.mem_cons_self "a" Relation.ReflTransGen.refl hup

end Db

end FactCore
