import Mathlib.Data.String.Basic
import FactCore.Lib.Dependencies
import FactCore.Lib.Loop
import FactCore.Objects.FileObject

/-! # Importing a firmware archive

`firmware_import_export.py`: `FwImporter` reads the file objects of an archive
and inserts them parents first, in rounds. An object that names a parent which
the archive does not contain is an orphan and is removed beforehand. A round
adds every object whose parents have all been added; the rounds go on until no
object is left.

The database is represented by the calls of `add_object`. Sets are iterated in
an order that the language leaves open, so every function takes one.
-/

namespace FactCore

/-- `dict.pop(key)` or `dict[key]` for a key that is not in the dictionary. -/
structure KeyError where
  key : Uid
deriving DecidableEq, Repr

/-- The file objects of an archive by their uid. -/
structure FoDict where
  dict : Dict Uid FileObject
  uid_eq : ∀ {uid fo}, dict.get? uid = some fo → fo.uid = uid

namespace FoDict

/-- The comprehension of `_import_objects`; a later object replaces an earlier
one with the same uid. -/
def insert (d : FoDict) (fo : FileObject) : FoDict where
  dict := d.dict.set fo.uid fo
  uid_eq := by
    intro uid fo' h
    rw [Dict.get?_set] at h
    by_cases huid : uid = fo.uid
    · rw [if_pos huid] at h
      exact Option.some.inj h ▸ huid.symm
    · rw [if_neg huid] at h
      exact d.uid_eq h

def ofList (files : List FileObject) : FoDict :=
  files.foldl insert ⟨∅, fun h => nomatch h⟩

end FoDict

namespace FwImporter

/-- The local variables of `_insert_objects_hierarchically` and the calls of
`add_object` so far. -/
structure ImportState where
  foDict : Dict Uid FileObject
  alreadyAdded : Finset Uid
  calls : List FileObject

/-- The uids that the archive contains: the firmware and its file objects. -/
def allUids (foDict : Dict Uid FileObject) (rootUid : Uid) : Finset Uid :=
  insert rootUid foDict.keys.toFinset

/-- The objects with a parent that the archive does not contain. -/
def orphans (foDict : Dict Uid FileObject) (rootUid : Uid) : Finset Uid :=
  ((foDict.items.filter fun p => p.2.parents.any fun parent =>
    decide (parent ∉ allUids foDict rootUid)).map Prod.fst).toFinset

/-- `fo_dict.pop(uid)`. -/
def pop (foDict : Dict Uid FileObject) (uid : Uid) :
    Except KeyError (FileObject × Dict Uid FileObject) :=
  match foDict.get? uid with
  | none => .error ⟨uid⟩
  | some fo => .ok (fo, foDict.erase uid)

/-- The removal of one orphan. -/
def popOrphan (foDict : Dict Uid FileObject) (uid : Uid) : Except KeyError (Dict Uid FileObject) :=
  (pop foDict uid).map Prod.snd

/-- `addable_uids`: the objects whose parents have all been added. -/
def addableUids (s : ImportState) : Finset Uid :=
  ((s.foDict.values.filter fun fo => fo.parents.all fun parent =>
    decide (parent ∈ s.alreadyAdded)).map FileObject.uid).toFinset

/-- The body of the inner loop. -/
def addObject (s : ImportState) (uid : Uid) : Except KeyError ImportState :=
  (pop s.foDict uid).map fun p =>
    { foDict := p.2, alreadyAdded := insert uid s.alreadyAdded, calls := s.calls ++ [p.1] }

/-- One round of `while fo_dict`. -/
def round (order : IterOrder Uid) (s : ImportState) : ImportState ⊕ Except KeyError ImportState :=
  if s.foDict.items.isEmpty then .inr (.ok s)
  else
    match (order.list (addableUids s)).foldlM addObject s with
    | .error e => .inr (.error e)
    | .ok s' => .inl s'

/-- `_insert_objects_hierarchically` with a bound on the number of rounds: the
calls of `add_object` and the number of objects that it returns. -/
def insertObjectsHierarchically (order : IterOrder Uid) (foDict : FoDict) (rootUid : Uid)
    (rounds : Nat) : Option (Except KeyError (List FileObject × Nat)) :=
  match (order.list (orphans foDict.dict rootUid)).foldlM popOrphan foDict.dict with
  | .error e => some (.error e)
  | .ok kept =>
      (Loop.iterate (round order) rounds
        { foDict := kept, alreadyAdded := {rootUid}, calls := [] }).map
        fun r => r.map fun s => (s.calls, s.alreadyAdded.card)

/-! ## What an import is meant to do -/

section

variable (foDict : FoDict) (rootUid : Uid)

/-- The archive contains the uid. -/
def InArchive (uid : Uid) : Prop := uid = rootUid ∨ uid ∈ foDict.dict

/-- `parent` is one of the parents that the archive gives for `uid`. -/
def Parent (uid parent : Uid) : Prop := ∃ fo, foDict.dict.get? uid = some fo ∧ parent ∈ fo.parents

/-- All ancestors of the object are contained in the archive. -/
def Complete (uid : Uid) : Prop :=
  ∀ ancestor, Relation.TransGen (Parent foDict) uid ancestor → InArchive foDict rootUid ancestor

/-- Every object with only complete ancestors is added, nothing else, each once
and after its parents. -/
structure Correct (calls : List FileObject) : Prop where
  once : (calls.map FileObject.uid).Nodup
  parents_first : ∀ before fo after, calls = before ++ fo :: after →
    ∀ parent ∈ fo.parents, parent = rootUid ∨ parent ∈ before.map FileObject.uid
  exact : ∀ fo, fo ∈ calls ↔
    foDict.dict.get? fo.uid = some fo ∧ Complete foDict rootUid fo.uid

/-- The object is in the archive and so are its parents. -/
def Kept (uid : Uid) : Prop :=
  uid ∈ foDict.dict ∧ ∀ parent, Parent foDict uid parent → InArchive foDict rootUid parent

/-- No object below an orphan is kept: whoever has a missing ancestor has a
missing parent. -/
def NoneStranded : Prop := ∀ uid, Kept foDict rootUid uid → Complete foDict rootUid uid

/-- A kept object waits for its parents other than the firmware. -/
def WaitsFor (uid parent : Uid) : Prop :=
  Kept foDict rootUid uid ∧ Parent foDict uid parent ∧ parent ≠ rootUid

/-- The containment among the kept objects has no cycles, except through the
firmware. -/
def Untangled : Prop := Dependencies.Acyclic (WaitsFor foDict rootUid)

end

/-! ## The membership lemmas -/

section

variable {foDict : FoDict} {rootUid : Uid} {s s' : ImportState} {uid parent : Uid} {fo : FileObject}

theorem mem_allUids : uid ∈ allUids foDict.dict rootUid ↔ InArchive foDict rootUid uid := by
  simp [allUids, InArchive, Dict.mem_keys]

theorem parent_iff (hget : foDict.dict.get? uid = some fo) :
    Parent foDict uid parent ↔ parent ∈ fo.parents := by
  constructor
  · rintro ⟨fo', hget', hparent⟩
    rw [hget] at hget'
    exact Option.some.inj hget' ▸ hparent
  · intro hparent
    exact ⟨fo, hget, hparent⟩

theorem kept_iff (hget : foDict.dict.get? uid = some fo) :
    Kept foDict rootUid uid ↔ ∀ parent ∈ fo.parents, InArchive foDict rootUid parent := by
  constructor
  · intro h parent hparent
    exact h.2 parent ((parent_iff hget).2 hparent)
  · intro h
    refine ⟨Dict.mem_of_get? hget, ?_⟩
    intro parent hparent
    exact h parent ((parent_iff hget).1 hparent)

theorem mem_orphans :
    uid ∈ orphans foDict.dict rootUid ↔ uid ∈ foDict.dict ∧ ¬ Kept foDict rootUid uid := by
  simp only [orphans, List.mem_toFinset, List.mem_map, List.mem_filter, List.any_eq_true,
    decide_eq_true_eq]
  constructor
  · rintro ⟨⟨uid', fo⟩, ⟨hmem, parent, hparent, hout⟩, rfl⟩
    have hget := Dict.get?_eq_some_iff.2 hmem
    refine ⟨Dict.mem_of_get? hget, ?_⟩
    intro hkept
    exact hout (mem_allUids.2 ((kept_iff hget).1 hkept parent hparent))
  · rintro ⟨hmem, hkept⟩
    obtain ⟨fo, hget⟩ := Dict.mem_iff.1 hmem
    rw [kept_iff hget] at hkept
    push Not at hkept
    obtain ⟨parent, hparent, hout⟩ := hkept
    refine ⟨(uid, fo), ⟨Dict.get?_eq_some_iff.1 hget, parent, hparent, ?_⟩, rfl⟩
    exact fun h => hout (mem_allUids.1 h)

theorem Complete.kept (hmem : uid ∈ foDict.dict) (h : Complete foDict rootUid uid) :
    Kept foDict rootUid uid :=
  ⟨hmem, fun parent hparent => h parent (Relation.TransGen.single hparent)⟩

/-! ## The rounds -/

/-- What holds between two calls of `add_object`: the dictionary holds the kept
objects that have not been added, and those that have been added came after
their parents. -/
structure Inv (foDict : FoDict) (rootUid : Uid) (s : ImportState) : Prop where
  left : ∀ uid fo, s.foDict.get? uid = some fo ↔
    foDict.dict.get? uid = some fo ∧ Kept foDict rootUid uid ∧ uid ∉ s.calls.map FileObject.uid
  added : ∀ uid, uid ∈ s.alreadyAdded ↔ uid = rootUid ∨ uid ∈ s.calls.map FileObject.uid
  calls : ∀ fo ∈ s.calls, foDict.dict.get? fo.uid = some fo ∧ Kept foDict rootUid fo.uid
  nodup : (s.calls.map FileObject.uid).Nodup
  ordered : Dependencies.Ordered (WaitsFor foDict rootUid) (s.calls.map FileObject.uid).reverse

/-- The number of objects that are left. -/
def remaining (s : ImportState) : Nat := s.foDict.sum fun _ => 1

/-- The object can be added now. -/
def Addable (s : ImportState) (uid : Uid) : Prop :=
  ∃ fo, s.foDict.get? uid = some fo ∧ ∀ parent ∈ fo.parents, parent ∈ s.alreadyAdded

theorem mem_addableUids (h : Inv foDict rootUid s) : uid ∈ addableUids s ↔ Addable s uid := by
  simp only [addableUids, List.mem_toFinset, List.mem_map, List.mem_filter, List.all_eq_true,
    decide_eq_true_eq]
  constructor
  · rintro ⟨fo, ⟨hmem, hparents⟩, rfl⟩
    obtain ⟨key, hget⟩ := Dict.mem_values.1 hmem
    have hkey : fo.uid = key := foDict.uid_eq ((h.left key fo).1 hget).1
    exact ⟨fo, hkey ▸ hget, hparents⟩
  · rintro ⟨fo, hget, hparents⟩
    have hkey : fo.uid = uid := foDict.uid_eq ((h.left uid fo).1 hget).1
    exact ⟨fo, ⟨Dict.mem_values.2 ⟨uid, hget⟩, hparents⟩, hkey⟩

/-- One call of `add_object` for an object whose parents have been added. -/
theorem addObject_inv (h : Inv foDict rootUid s) (hadd : Addable s uid) :
    ∃ s', addObject s uid = .ok s' ∧ Inv foDict rootUid s' ∧ remaining s = remaining s' + 1 ∧
      ∀ uid', uid' ≠ uid → Addable s uid' → Addable s' uid' := by
  obtain ⟨fo, hget, hparents⟩ := hadd
  obtain ⟨hget₀, hkept, hnew⟩ := (h.left uid fo).1 hget
  have huid : fo.uid = uid := foDict.uid_eq hget₀
  refine ⟨⟨s.foDict.erase uid, insert uid s.alreadyAdded, s.calls ++ [fo]⟩, ?_, ?_, ?_, ?_⟩
  · simp [addObject, pop, hget, Except.map]
  · constructor
    · intro uid' fo'
      by_cases hne : uid' = uid
      · simp [hne, huid]
      · simp [Dict.get?_erase_ne _ hne, h.left, huid, hne]
    · intro uid'
      simp only [Finset.mem_insert, h.added, List.map_append, List.map_cons, List.map_nil,
        List.mem_append, List.mem_singleton, huid]
      tauto
    · intro fo' hfo'
      rcases List.mem_append.1 hfo' with hfo' | hfo'
      · exact h.calls fo' hfo'
      · rw [List.mem_singleton.1 hfo', huid]
        exact ⟨hget₀, hkept⟩
    · simpa [List.nodup_append, h.nodup, huid] using hnew
    · rw [List.map_append, List.reverse_append]
      refine ⟨?_, h.ordered⟩
      rintro parent ⟨-, hparent, hroot⟩
      rw [huid, parent_iff hget₀] at hparent
      have hadded := (h.added parent).1 (hparents parent hparent)
      exact List.mem_reverse.2 (hadded.resolve_left hroot)
  · simp only [remaining]
    rw [Dict.sum_eq_add_erase _ hget, Nat.add_comm]
  · rintro uid' hne ⟨fo', hget', hparents'⟩
    refine ⟨fo', by simp [Dict.get?_erase_ne _ hne, hget'], ?_⟩
    intro parent hparent
    exact Finset.mem_insert_of_mem (hparents' parent hparent)

/-- The inner loop adds all objects that it iterates over. -/
theorem foldlM_addObject {uids : List Uid} (h : Inv foDict rootUid s) (hnodup : uids.Nodup)
    (hadd : ∀ uid ∈ uids, Addable s uid) :
    ∃ s', uids.foldlM addObject s = .ok s' ∧ Inv foDict rootUid s' ∧
      remaining s = remaining s' + uids.length := by
  induction uids generalizing s with
  | nil => exact ⟨s, rfl, h, rfl⟩
  | cons uid uids ih =>
      rcases List.nodup_cons.1 hnodup with ⟨hnot, hnodup⟩
      obtain ⟨t, hstep, ht, hcount, hframe⟩ := addObject_inv h (hadd uid List.mem_cons_self)
      have hadd' : ∀ uid' ∈ uids, Addable t uid' := by
        intro uid' hmem
        have hne : uid' ≠ uid := fun heq => hnot (heq ▸ hmem)
        exact hframe uid' hne (hadd uid' (List.mem_cons_of_mem _ hmem))
      obtain ⟨s', hfold, hs', hcount'⟩ := ih ht hnodup hadd'
      refine ⟨s', ?_, hs', ?_⟩
      · rw [List.foldlM_cons, hstep]
        exact hfold
      · rw [List.length_cons]
        omega

theorem round_inv {order : IterOrder Uid} (h : Inv foDict rootUid s)
    (hround : round order s = .inl s') :
    Inv foDict rootUid s' ∧ remaining s = remaining s' + (addableUids s).card := by
  rw [round] at hround
  split at hround
  · cases hround
  · obtain ⟨t, hfold, ht, hcount⟩ := foldlM_addObject h (order.nodup (addableUids s))
      fun uid hmem => (mem_addableUids h).1 ((order.mem _ uid).1 hmem)
    rw [hfold] at hround
    obtain rfl : t = s' := by simpa using hround
    exact ⟨ht, order.length_list (addableUids s) ▸ hcount⟩

/-- The loop only ends when no object is left. -/
theorem round_exit {order : IterOrder Uid} {r : Except KeyError ImportState} (h : Inv foDict rootUid s)
    (hround : round order s = .inr r) : r = .ok s ∧ s.foDict.items = [] := by
  rw [round] at hround
  split at hround
  · rename_i hempty
    exact ⟨(Sum.inr.inj hround).symm, List.isEmpty_iff.1 hempty⟩
  · obtain ⟨t, hfold, -, -⟩ := foldlM_addObject h (order.nodup (addableUids s))
      fun uid hmem => (mem_addableUids h).1 ((order.mem _ uid).1 hmem)
    rw [hfold] at hround
    cases hround

/-! ## The orphans -/

theorem foldlM_popOrphan {d : Dict Uid FileObject} {uids : List Uid} (hnodup : uids.Nodup)
    (hmem : ∀ uid ∈ uids, uid ∈ d) :
    ∃ d', uids.foldlM popOrphan d = .ok d' ∧
      ∀ uid, d'.get? uid = if uid ∈ uids then none else d.get? uid := by
  induction uids generalizing d with
  | nil => exact ⟨d, rfl, fun uid => by simp⟩
  | cons uid uids ih =>
      rcases List.nodup_cons.1 hnodup with ⟨hnot, hnodup⟩
      obtain ⟨fo, hget⟩ := Dict.mem_iff.1 (hmem uid List.mem_cons_self)
      have hmem' : ∀ uid' ∈ uids, uid' ∈ d.erase uid := by
        intro uid' huid'
        have hne : uid' ≠ uid := fun heq => hnot (heq ▸ huid')
        exact Dict.mem_erase.2 ⟨hne, hmem uid' (List.mem_cons_of_mem _ huid')⟩
      obtain ⟨d', hfold, hd'⟩ := ih hnodup hmem'
      refine ⟨d', ?_, ?_⟩
      · have hpop : popOrphan d uid = .ok (d.erase uid) := by
          simp [popOrphan, pop, hget, Except.map]
        rw [List.foldlM_cons, hpop]
        exact hfold
      · intro uid'
        rw [hd', Dict.get?_erase]
        by_cases heq : uid' = uid
        · simp [heq]
        · simp [heq]

/-- The loop starts with the kept objects. -/
theorem start_inv (order : IterOrder Uid) (foDict : FoDict) (rootUid : Uid) :
    ∃ kept, (order.list (orphans foDict.dict rootUid)).foldlM popOrphan foDict.dict = .ok kept ∧
      Inv foDict rootUid { foDict := kept, alreadyAdded := {rootUid}, calls := [] } := by
  obtain ⟨kept, hfold, hkept⟩ := foldlM_popOrphan (order.nodup (orphans foDict.dict rootUid))
    fun uid hmem => (mem_orphans.1 ((order.mem _ uid).1 hmem)).1
  refine ⟨kept, hfold, ?_⟩
  constructor
  · intro uid fo
    have horphan : uid ∈ order.list (orphans foDict.dict rootUid) ↔
        uid ∈ foDict.dict ∧ ¬ Kept foDict rootUid uid := by
      rw [order.mem, mem_orphans]
    rw [hkept]
    split
    · rename_i hmem
      simp [(horphan.1 hmem).2]
    · rename_i hmem
      rw [horphan] at hmem
      constructor
      · intro hget
        have hk : Kept foDict rootUid uid :=
          Classical.not_not.1 fun hk => hmem ⟨Dict.mem_of_get? hget, hk⟩
        exact ⟨hget, hk, List.not_mem_nil⟩
      · intro hget
        exact hget.1
  · simp
  · simp
  · exact List.nodup_nil
  · trivial

/-- The result of the rounds, once the orphans have been removed. -/
theorem terminates_iff {order : IterOrder Uid} {kept : Dict Uid FileObject}
    {calls : List FileObject} {count : Nat}
    (hfold : (order.list (orphans foDict.dict rootUid)).foldlM popOrphan foDict.dict = .ok kept) :
    Loop.Terminates (insertObjectsHierarchically order foDict rootUid) (.ok (calls, count)) ↔
      ∃ s, Loop.Terminates (fun n => Loop.iterate (round order) n
        { foDict := kept, alreadyAdded := {rootUid}, calls := [] }) (.ok s) ∧
        s.calls = calls ∧ s.alreadyAdded.card = count := by
  constructor
  · rintro ⟨n, hn⟩
    have hrun := hn n (Nat.le_refl n)
    simp only [insertObjectsHierarchically, hfold, Option.map_eq_some_iff] at hrun
    obtain ⟨r, hr, hmap⟩ := hrun
    cases r with
    | error e => cases hmap
    | ok s =>
        obtain ⟨rfl, rfl⟩ : s.calls = calls ∧ s.alreadyAdded.card = count := by
          simpa [Except.map] using hmap
        exact ⟨s, Loop.terminates_of_iterate hr, rfl, rfl⟩
  · rintro ⟨s, ⟨n, hn⟩, rfl, rfl⟩
    refine ⟨n, ?_⟩
    intro m hm
    simp only [insertObjectsHierarchically, hfold, hn m hm, Option.map_some, Except.map]

/-! ## Which imports end -/

/-- What has been waited for is a kept object as well, unless an ancestor is
missing. -/
theorem WaitsFor.kept {uid parent : Uid} (hnone : NoneStranded foDict rootUid)
    (h : WaitsFor foDict rootUid uid parent) : Kept foDict rootUid parent := by
  obtain ⟨hkept, hparent, hroot⟩ := h
  have hmem : parent ∈ foDict.dict := (hkept.2 parent hparent).resolve_left hroot
  refine ⟨hmem, ?_⟩
  intro grandparent hgrand
  exact hnone uid hkept grandparent ((Relation.TransGen.single hparent).tail hgrand)

/-- As long as objects are left, one of them can be added. -/
theorem addable_of_left (hnone : NoneStranded foDict rootUid) (hcycle : Untangled foDict rootUid)
    (h : Inv foDict rootUid s) (hne : s.foDict.items ≠ []) : ∃ uid, uid ∈ addableUids s := by
  have hkeys : s.foDict.keys ≠ [] := by simpa [Dict.keys] using hne
  obtain ⟨uid, hmem, hready⟩ := hcycle.exists_ready hkeys
  obtain ⟨fo, hget⟩ := Dict.mem_iff.1 (Dict.mem_keys.1 hmem)
  obtain ⟨hget₀, hkept, -⟩ := (h.left uid fo).1 hget
  refine ⟨uid, (mem_addableUids h).2 ⟨fo, hget, ?_⟩⟩
  intro parent hparent
  by_cases hroot : parent = rootUid
  · exact (h.added parent).2 (Or.inl hroot)
  -- a parent that is neither added nor left would have to be an orphan
  · have hwaits : WaitsFor foDict rootUid uid parent := ⟨hkept, (parent_iff hget₀).2 hparent, hroot⟩
    have hkept' := hwaits.kept hnone
    obtain ⟨fo', hget'⟩ := Dict.mem_iff.1 hkept'.1
    refine (h.added parent).2 (Or.inr ?_)
    by_contra hnew
    have hleft := (h.left parent fo').2 ⟨hget', hkept', hnew⟩
    exact hready parent hwaits (Dict.mem_keys.2 (Dict.mem_of_get? hleft))

/-- When no object is left, exactly the kept objects have been added. -/
theorem Inv.calls_iff (h : Inv foDict rootUid s) (hempty : s.foDict.items = []) {fo : FileObject} :
    fo ∈ s.calls ↔ foDict.dict.get? fo.uid = some fo ∧ Kept foDict rootUid fo.uid := by
  constructor
  · exact h.calls fo
  · rintro ⟨hget, hkept⟩
    by_contra hnot
    have hnew : fo.uid ∉ s.calls.map FileObject.uid := by
      intro hmem
      obtain ⟨fo', hmem', heq⟩ := List.mem_map.1 hmem
      have hget' := (h.calls fo' hmem').1
      rw [heq, hget] at hget'
      exact hnot (Option.some.inj hget' ▸ hmem')
    have hleft := Dict.get?_eq_some_iff.1 ((h.left fo.uid fo).2 ⟨hget, hkept, hnew⟩)
    rw [hempty] at hleft
    cases hleft

theorem Inv.parents_first (h : Inv foDict rootUid s) (before : List FileObject) (fo : FileObject)
    (after : List FileObject) (hcalls : s.calls = before ++ fo :: after) :
    ∀ parent ∈ fo.parents, parent = rootUid ∨ parent ∈ before.map FileObject.uid := by
  intro parent hparent
  by_cases hroot : parent = rootUid
  · exact Or.inl hroot
  · obtain ⟨hget, hkept⟩ := h.calls fo (by simp [hcalls])
    have hordered := h.ordered
    simp only [hcalls, List.map_append, List.map_cons, List.reverse_append, List.reverse_cons,
      List.append_assoc, List.cons_append, List.nil_append] at hordered
    have hpopped := hordered.split parent ⟨hkept, (parent_iff hget).2 hparent, hroot⟩
    exact Or.inr (List.mem_reverse.1 hpopped)

/-- Without stranded objects and cycles the rounds end, and the import is correct. -/
theorem correct_of_untangled (order : IterOrder Uid) (hnone : NoneStranded foDict rootUid)
    (hcycle : Untangled foDict rootUid) :
    ∃ calls count, Loop.Terminates (insertObjectsHierarchically order foDict rootUid)
      (.ok (calls, count)) ∧ Correct foDict rootUid calls := by
  obtain ⟨kept, hfold, hstart⟩ := start_inv order foDict rootUid
  have hstep : ∀ s s', Inv foDict rootUid s → round order s = .inl s' →
      Inv foDict rootUid s' ∧ remaining s' < remaining s := by
    intro s s' h hround
    obtain ⟨h', hcount⟩ := round_inv h hround
    have hne : s.foDict.items ≠ [] := by
      intro hempty
      simp [round, hempty] at hround
    have hpos := Finset.card_pos.2 (addable_of_left hnone hcycle h hne)
    exact ⟨h', by omega⟩
  have hexit : ∀ s r, Inv foDict rootUid s → round order s = .inr r →
      ∃ t, r = .ok t ∧ Inv foDict rootUid t ∧ t.foDict.items = [] := by
    intro s r h hround
    obtain ⟨rfl, hempty⟩ := round_exit h hround
    exact ⟨s, rfl, h, hempty⟩
  obtain ⟨r, hr, t, rfl, ht, hempty⟩ := Loop.iterate_total remaining hstep hexit hstart
  refine ⟨t.calls, t.alreadyAdded.card, (terminates_iff hfold).2 ⟨t, hr, rfl, rfl⟩,
    ht.nodup, ht.parents_first, ?_⟩
  intro fo
  rw [ht.calls_iff hempty]
  constructor
  · rintro ⟨hget, hkept⟩
    exact ⟨hget, hnone _ hkept⟩
  · rintro ⟨hget, hcomplete⟩
    exact ⟨hget, hcomplete.kept (Dict.mem_of_get? hget)⟩

/-- If the rounds end with a correct import, no object was stranded and there
was no cycle. -/
theorem untangled_of_correct {order : IterOrder Uid} {calls : List FileObject} {count : Nat}
    (hterm : Loop.Terminates (insertObjectsHierarchically order foDict rootUid) (.ok (calls, count)))
    (hcorrect : Correct foDict rootUid calls) :
    NoneStranded foDict rootUid ∧ Untangled foDict rootUid := by
  obtain ⟨kept, hfold, hstart⟩ := start_inv order foDict rootUid
  obtain ⟨s, ⟨n, hn⟩, rfl, -⟩ := (terminates_iff hfold).1 hterm
  have hexit : ∀ s r, Inv foDict rootUid s → round order s = .inr r →
      ∃ t, r = .ok t ∧ Inv foDict rootUid t ∧ t.foDict.items = [] := by
    intro s r h hround
    obtain ⟨rfl, hempty⟩ := round_exit h hround
    exact ⟨s, rfl, h, hempty⟩
  obtain ⟨t, hst, ht, hempty⟩ := Loop.iterate_invariant
    (fun s s' h hround => (round_inv h hround).1) hexit hstart (hn n (Nat.le_refl n))
  obtain rfl : s = t := by simpa using hst
  have hadded : ∀ uid, Kept foDict rootUid uid → uid ∈ s.calls.map FileObject.uid := by
    intro uid hkept
    obtain ⟨fo, hget⟩ := Dict.mem_iff.1 hkept.1
    have huid : fo.uid = uid := foDict.uid_eq hget
    subst huid
    exact List.mem_map_of_mem ((ht.calls_iff hempty).2 ⟨hget, hkept⟩)
  constructor
  · intro uid hkept
    obtain ⟨fo, hfo, rfl⟩ := List.mem_map.1 (hadded uid hkept)
    exact ((hcorrect.exact fo).1 hfo).2
  · intro uid hloop
    obtain ⟨parent, hwaits, -⟩ := Relation.TransGen.head'_iff.1 hloop
    have hmem := List.mem_reverse.2 (hadded uid hwaits.1)
    exact ht.ordered.acyclic (List.nodup_reverse.2 ht.nodup) uid hmem hloop

end

/-- The import ends and is correct if and only if no object below an ignored
orphan is kept and the kept objects do not contain each other in a cycle. -/
theorem import_correct_iff (order : IterOrder Uid) (foDict : FoDict) (rootUid : Uid) :
    (∃ calls count, Loop.Terminates (insertObjectsHierarchically order foDict rootUid)
      (.ok (calls, count)) ∧ Correct foDict rootUid calls) ↔
      NoneStranded foDict rootUid ∧ Untangled foDict rootUid := by
  constructor
  · rintro ⟨calls, count, hterm, hcorrect⟩
    exact untangled_of_correct hterm hcorrect
  · rintro ⟨hnone, hcycle⟩
    exact correct_of_untangled order hnone hcycle

/-- A file and another one inside it, from an archive without the container of
the first. -/
def strandedArchive : FoDict :=
  FoDict.ofList [
    { FileObject.new "dir" "dir" 1 "dir" with parents := ["other"] },
    { FileObject.new "file" "file" 1 "file" with parents := ["dir"] }]

/-- The rounds never end on this archive: the file waits for the ignored orphan. -/
theorem import_stranded : ¬ ∃ calls count, Loop.Terminates
    (insertObjectsHierarchically (IterOrder.sorted String) strandedArchive "root")
      (.ok (calls, count)) ∧ Correct strandedArchive "root" calls := by
  rintro ⟨calls, count, hterm, hcorrect⟩
  obtain ⟨hnone, -⟩ := untangled_of_correct hterm hcorrect
  have hfile : strandedArchive.dict.get? "file" = some
      { FileObject.new "file" "file" 1 "file" with parents := ["dir"] } := rfl
  have hdir : strandedArchive.dict.get? "dir" = some
      { FileObject.new "dir" "dir" 1 "dir" with parents := ["other"] } := rfl
  have hkept : Kept strandedArchive "root" "file" := by
    rw [kept_iff hfile]
    intro parent hparent
    rw [List.mem_singleton.1 hparent]
    exact Or.inr (Dict.mem_of_get? hdir)
  have hparent : Parent strandedArchive "file" "dir" := ⟨_, hfile, List.mem_singleton_self _⟩
  have hgrand : Parent strandedArchive "dir" "other" := ⟨_, hdir, List.mem_singleton_self _⟩
  rcases hnone "file" hkept "other" ((Relation.TransGen.single hparent).tail hgrand) with h | h
  · exact absurd h (by decide)
  · exact absurd h (by decide)

end FwImporter

end FactCore
