import Mathlib.Data.List.Infix
import Mathlib.Data.List.Perm.Basic
import FactCore.Lib.Dict

/-! # Dictionaries of dictionaries of any depth

The values of a dictionary are leaves or dictionaries again. An assignment walks down
a path of keys, makes the dictionaries that are missing and puts a leaf at the end.
It fails if it comes to a leaf on its way, and it overwrites what it finds at its end.

The leaves with their paths say what a tree holds: they are never in the way of each
other, and an assignment adds one and loses those at or below its path.
-/

universe u v w

/-- A leaf or a dictionary of trees. -/
inductive DictTree (κ : Type u) (ν : Type v) where
  | leaf (x : ν)
  | dict (items : List (κ × DictTree κ ν))

namespace DictTree

variable {κ : Type u} {ν : Type v}

/-- The items of a dictionary. -/
abbrev Items (κ : Type u) (ν : Type v) := List (κ × DictTree κ ν)

/-- Put the paths below a key. -/
def under (k : κ) (l : List (List κ × ν)) : List (List κ × ν) := l.map fun p => (k :: p.1, p.2)

mutual

/-- The leaves with the keys that lead to them. -/
def leaves : DictTree κ ν → List (List κ × ν)
  | leaf x => [([], x)]
  | dict items => leavesAll items

def leavesAll : Items κ ν → List (List κ × ν)
  | [] => []
  | (k, t) :: items => under k (leaves t) ++ leavesAll items

end

mutual

/-- The keys of each dictionary are different. -/
def Distinct : DictTree κ ν → Prop
  | leaf _ => True
  | dict items => DistinctAll items

def DistinctAll : Items κ ν → Prop
  | [] => True
  | (k, t) :: items => k ∉ items.map Prod.fst ∧ Distinct t ∧ DistinctAll items

end

mutual

/-- No dictionary in the tree is empty. -/
def Filled : DictTree κ ν → Prop
  | leaf _ => True
  | dict items => items ≠ [] ∧ FilledAll items

def FilledAll : Items κ ν → Prop
  | [] => True
  | (_, t) :: items => Filled t ∧ FilledAll items

end

/-- Neither path leads through the end of the other one. -/
def Apart (a b : List κ) : Prop := ¬ a <+: b ∧ ¬ b <+: a

variable {k : κ} {ks path : List κ} {x : ν} {t t' : DictTree κ ν} {items items' : Items κ ν}

theorem Apart.symm {a b : List κ} (h : Apart a b) : Apart b a := ⟨h.2, h.1⟩

theorem apart_cons {a b : List κ} : Apart (k :: a) (k :: b) ↔ Apart a b := by
  simp [Apart, List.cons_prefix_cons]

theorem apart_of_ne {k' : κ} {a b : List κ} (h : k ≠ k') : Apart (k :: a) (k' :: b) := by
  simp [Apart, List.cons_prefix_cons, h, h.symm]

theorem mem_under {p : List κ × ν} {l : List (List κ × ν)} :
    p ∈ under k l ↔ ∃ path, p.1 = k :: path ∧ (path, p.2) ∈ l := by
  rw [under, List.mem_map]
  constructor
  · rintro ⟨q, hq, rfl⟩
    exact ⟨q.1, rfl, hq⟩
  · rintro ⟨path, hpath, hmem⟩
    exact ⟨(path, p.2), hmem, Prod.ext hpath.symm rfl⟩

theorem distinctAll_iff :
    DistinctAll items ↔ (items.map Prod.fst).Nodup ∧ ∀ p ∈ items, Distinct p.2 := by
  induction items with
  | nil => simp [DistinctAll]
  | cons p items ih =>
      obtain ⟨k, t⟩ := p
      rw [DistinctAll, ih, List.map_cons, List.nodup_cons, List.forall_mem_cons]
      tauto

theorem filledAll_iff : FilledAll items ↔ ∀ p ∈ items, Filled p.2 := by
  induction items with
  | nil => simp [FilledAll]
  | cons p items ih =>
      obtain ⟨k, t⟩ := p
      rw [FilledAll, ih, List.forall_mem_cons]

theorem mem_leavesAll {p : List κ × ν} :
    p ∈ leavesAll items ↔ ∃ k t path, (k, t) ∈ items ∧ p.1 = k :: path ∧ (path, p.2) ∈ leaves t := by
  induction items with
  | nil => simp [leavesAll]
  | cons q items ih =>
      obtain ⟨k, t⟩ := q
      rw [leavesAll, List.mem_append, mem_under, ih]
      constructor
      · rintro (⟨path, hpath, hmem⟩ | ⟨k', t', path, hitem, hpath, hmem⟩)
        · exact ⟨k, t, path, List.mem_cons_self, hpath, hmem⟩
        · exact ⟨k', t', path, List.mem_cons_of_mem _ hitem, hpath, hmem⟩
      · rintro ⟨k', t', path, hitem, hpath, hmem⟩
        rcases List.mem_cons.1 hitem with heq | hitem
        · cases heq
          exact .inl ⟨path, hpath, hmem⟩
        · exact .inr ⟨k', t', path, hitem, hpath, hmem⟩

/-! ## The leaves are apart -/

mutual

theorem pairwise_leaves : ∀ t : DictTree κ ν, Distinct t → (leaves t).Pairwise fun p q => Apart p.1 q.1
  | leaf _, _ => List.pairwise_singleton _ _
  | dict items, h => pairwise_leavesAll items h

theorem pairwise_leavesAll : ∀ items : Items κ ν, DistinctAll items →
    (leavesAll items).Pairwise fun p q => Apart p.1 q.1
  | [], _ => List.Pairwise.nil
  | (k, t) :: items, h => by
      rw [leavesAll, List.pairwise_append]
      refine ⟨?_, pairwise_leavesAll items h.2.2, ?_⟩
      · rw [under, List.pairwise_map]
        exact (pairwise_leaves t h.2.1).imp fun hpq => apart_cons.2 hpq
      · -- paths under different keys part at their first component
        intro p hp q hq
        rcases mem_under.1 hp with ⟨path, hpath, -⟩
        rcases mem_leavesAll.1 hq with ⟨k', t', path', hitem, hpath', -⟩
        rw [hpath, hpath']
        exact apart_of_ne fun heq => h.1 (heq ▸ List.mem_map_of_mem hitem)

end

/-- A tree without empty dictionaries has a leaf. -/
theorem exists_mem_leaves : ∀ t : DictTree κ ν, Filled t → ∃ p, p ∈ leaves t
  | leaf x, _ => ⟨([], x), List.mem_singleton_self _⟩
  | dict [], h => absurd rfl h.1
  | dict ((k, t) :: items), h => by
      rcases exists_mem_leaves t h.2.1 with ⟨p, hp⟩
      exact ⟨(k :: p.1, p.2), mem_leavesAll.2 ⟨k, t, p.1, List.mem_cons_self, rfl, hp⟩⟩

/-! ## Looking up a path -/

variable [DecidableEq κ]

/-- What a path of keys leads to. -/
def lookup : List κ → DictTree κ ν → Option (DictTree κ ν)
  | [], t => some t
  | k :: ks, dict items => (Dict.getItem k items).bind (lookup ks)
  | _ :: _, leaf _ => none

theorem mem_of_getItem (h : DistinctAll items) : Dict.getItem k items = some t ↔ (k, t) ∈ items :=
  Dict.getItem_eq_some_iff (distinctAll_iff.1 h).1

theorem distinct_of_getItem (h : DistinctAll items) (hget : Dict.getItem k items = some t) : Distinct t :=
  (distinctAll_iff.1 h).2 _ ((mem_of_getItem h).1 hget)

/-- The leaves are what is found at the end of their paths. -/
theorem lookup_eq_leaf_iff : ∀ (path : List κ) (t : DictTree κ ν), Distinct t →
    (lookup path t = some (leaf x) ↔ (path, x) ∈ leaves t)
  | [], leaf y, _ => by simp [lookup, leaves, eq_comm]
  | [], dict items, _ => by
      refine iff_of_false (fun h => by cases h) fun h => ?_
      rcases mem_leavesAll.1 h with ⟨k, t, path, -, hpath, -⟩
      cases hpath
  | k :: ks, leaf y, _ => by simp [lookup, leaves]
  | k :: ks, dict items, h => by
      rw [lookup, leaves, mem_leavesAll]
      constructor
      · intro hlookup
        rcases Option.bind_eq_some_iff.1 hlookup with ⟨t, hget, hrest⟩
        exact ⟨k, t, ks, (mem_of_getItem h).1 hget, rfl,
          (lookup_eq_leaf_iff ks t (distinct_of_getItem h hget)).1 hrest⟩
      · rintro ⟨k', t, path, hitem, hpath, hmem⟩
        cases hpath
        have hget := (mem_of_getItem h).2 hitem
        rw [hget, Option.bind_some]
        exact (lookup_eq_leaf_iff ks t (distinct_of_getItem h hget)).2 hmem

/-! ## Assigning a path -/

variable {ε : Type w}

/-- Assign a leaf to a name below a path of keys; `err` is the error that is raised when
the path leads to a leaf and the rest of it is left. -/
def assign (err : List κ → ε) : List κ → κ → ν → Items κ ν → Except ε (Items κ ν)
  | [], name, x, items => .ok (Dict.setItem name (leaf x) items)
  | k :: ks, name, x, items =>
      match Dict.getItem k items with
      | none => (assign err ks name x []).map fun sub => Dict.setItem k (dict sub) items
      | some (dict sub) => (assign err ks name x sub).map fun sub => Dict.setItem k (dict sub) items
      | some (leaf _) => .error (err ks)

/-- The leaves at and below a key. -/
def leavesAt (k : κ) (items : Items κ ν) : List (List κ × ν) :=
  match Dict.getItem k items with
  | some t => leaves t
  | none => []

/-- The items under a key that may be missing: an empty dictionary would be made. -/
def itemsAt (k : κ) (items : Items κ ν) : Option (Items κ ν) :=
  match Dict.getItem k items with
  | some (dict sub) => some sub
  | some (leaf _) => none
  | none => some []

theorem assign_cons (err : List κ → ε) (name : κ) :
    assign err (k :: ks) name x items = match itemsAt k items with
      | some sub => (assign err ks name x sub).map fun sub => Dict.setItem k (dict sub) items
      | none => .error (err ks) := by
  rw [assign, itemsAt]
  cases Dict.getItem k items with
  | none => rfl
  | some t => cases t <;> rfl

theorem leavesAt_of_itemsAt {sub : Items κ ν} (h : itemsAt k items = some sub) :
    leavesAt k items = leavesAll sub := by
  unfold itemsAt at h
  unfold leavesAt
  split at h
  next sub' hget =>
    cases h
    rw [hget]
    rfl
  next => cases h
  next hget =>
    cases h
    rw [hget]
    rfl

theorem distinctAll_itemsAt {sub : Items κ ν} (h : DistinctAll items) (hsub : itemsAt k items = some sub) :
    DistinctAll sub := by
  unfold itemsAt at hsub
  split at hsub
  next sub' hget =>
    cases hsub
    exact distinct_of_getItem h hget
  next => cases hsub
  next =>
    cases hsub
    exact trivial

/-- A key whose items are missing leads to a leaf. -/
theorem leaf_of_itemsAt (h : DistinctAll items) (hnone : itemsAt k items = none) :
    ∃ y, ([k], y) ∈ leavesAll items := by
  unfold itemsAt at hnone
  split at hnone
  next => cases hnone
  next y hget =>
    exact ⟨y, mem_leavesAll.2 ⟨k, leaf y, [], (mem_of_getItem h).1 hget, rfl, List.mem_singleton_self _⟩⟩
  next => cases hnone

theorem filledAll_itemsAt {sub : Items κ ν} (hdistinct : DistinctAll items) (h : FilledAll items)
    (hsub : itemsAt k items = some sub) : FilledAll sub := by
  unfold itemsAt at hsub
  split at hsub
  next sub' hget =>
    cases hsub
    exact (filledAll_iff.1 h _ ((mem_of_getItem hdistinct).1 hget)).2
  next => cases hsub
  next =>
    cases hsub
    exact trivial

/-- The leaves under one key, and the others. -/
theorem leavesAll_perm (h : (items.map Prod.fst).Nodup) :
    (leavesAll items).Perm (under k (leavesAt k items) ++ leavesAll (Dict.eraseItem k items)) := by
  induction items with
  | nil => exact .refl _
  | cons p items ih =>
      obtain ⟨k', t⟩ := p
      rw [List.map_cons, List.nodup_cons] at h
      rw [Dict.eraseItem_cons]
      by_cases hk : k' = k
      · -- the key is the first one and does not come again
        subst hk
        have herase : Dict.eraseItem k' items = items := Dict.eraseItem_of_notMem h.1
        simp [leavesAt, Dict.getItem_cons, herase, leavesAll]
      · have hne : k ≠ k' := fun heq => hk heq.symm
        have hat : leavesAt k ((k', t) :: items) = leavesAt k items := by
          simp [leavesAt, Dict.getItem_cons, hne]
        rw [hat, leavesAll, if_neg hk, leavesAll]
        exact ((ih h.2).append_left _).trans (List.perm_append_comm_assoc _ _ _)

theorem leavesAll_setItem (h : (items.map Prod.fst).Nodup) :
    (leavesAll (Dict.setItem k t items)).Perm (under k (leaves t) ++ leavesAll (Dict.eraseItem k items)) := by
  have hperm := leavesAll_perm (k := k) (Dict.nodup_setItem (k := k) (x := t) h)
  have hat : leavesAt k (Dict.setItem k t items) = leaves t := by
    rw [leavesAt, Dict.getItem_setItem, if_pos rfl]
  have herase : Dict.eraseItem k (Dict.setItem k t items) = Dict.eraseItem k items :=
    congrArg Dict.items (Dict.erase_set ⟨items, h⟩ k t)
  rwa [hat, herase] at hperm

theorem distinctAll_setItem (h : DistinctAll items) (ht : Distinct t) :
    DistinctAll (Dict.setItem k t items) := by
  have hnodup := Dict.nodup_setItem (k := k) (x := t) (distinctAll_iff.1 h).1
  refine distinctAll_iff.2 ⟨hnodup, fun p hp => ?_⟩
  have hget := (Dict.getItem_eq_some_iff hnodup).2 hp
  rw [Dict.getItem_setItem] at hget
  split at hget
  next => exact Option.some_inj.1 hget ▸ ht
  next => exact distinct_of_getItem h hget

theorem filledAll_setItem (hnodup : (items.map Prod.fst).Nodup) (h : FilledAll items) (ht : Filled t) :
    FilledAll (Dict.setItem k t items) := by
  have hnodup' := Dict.nodup_setItem (k := k) (x := t) hnodup
  refine filledAll_iff.2 fun p hp => ?_
  have hget := (Dict.getItem_eq_some_iff hnodup').2 hp
  rw [Dict.getItem_setItem] at hget
  split at hget
  next => exact Option.some_inj.1 hget ▸ ht
  next => exact filledAll_iff.1 h _ ((Dict.getItem_eq_some_iff hnodup).1 hget)

variable {err : List κ → ε} {name : κ}

/-- What an assignment does at a key: it goes on below it. -/
theorem assign_cons_ok (h : assign err (k :: ks) name x items = .ok items') :
    ∃ sub sub', itemsAt k items = some sub ∧ assign err ks name x sub = .ok sub' ∧
      items' = Dict.setItem k (dict sub') items := by
  rw [assign_cons] at h
  cases hsub : itemsAt k items with
  | none =>
      rw [hsub] at h
      cases h
  | some sub =>
      rw [hsub] at h
      cases hrest : assign err ks name x sub with
      | error e =>
          simp only [hrest] at h
          cases h
      | ok sub' =>
          simp only [hrest] at h
          exact ⟨sub, sub', rfl, hrest, (Except.ok.inj h).symm⟩

theorem distinctAll_assign (hdistinct : DistinctAll items) (h : assign err ks name x items = .ok items') :
    DistinctAll items' := by
  induction ks generalizing items items' with
  | nil =>
      obtain rfl := Except.ok.inj h
      exact distinctAll_setItem hdistinct trivial
  | cons k ks ih =>
      rcases assign_cons_ok h with ⟨sub, sub', hsub, hrest, rfl⟩
      exact distinctAll_setItem hdistinct (ih (distinctAll_itemsAt hdistinct hsub) hrest)

omit [DecidableEq κ] in
theorem ne_nil_of_mem_leavesAll {p : List κ × ν} (h : p ∈ leavesAll items) : items ≠ [] := by
  rintro rfl
  exact List.not_mem_nil h

/-- An assignment loses the leaves at and below its path, and adds its own. -/
theorem leaves_assign (hdistinct : DistinctAll items) (h : assign err ks name x items = .ok items') :
    ∃ lost kept, (leavesAll items).Perm (lost ++ kept) ∧
      (leavesAll items').Perm ((ks ++ [name], x) :: kept) ∧ ∀ p ∈ lost, ks ++ [name] <+: p.1 := by
  induction ks generalizing items items' with
  | nil =>
      -- the item is replaced: what was at or below the name is lost
      obtain rfl := Except.ok.inj h
      have hnodup := (distinctAll_iff.1 hdistinct).1
      refine ⟨under name (leavesAt name items), leavesAll (Dict.eraseItem name items), leavesAll_perm hnodup,
        leavesAll_setItem hnodup, fun p hp => ?_⟩
      rcases mem_under.1 hp with ⟨path, hpath, -⟩
      rw [hpath]
      exact List.prefix_append [name] path
  | cons k ks ih =>
      rcases assign_cons_ok h with ⟨sub, sub', hsub, hrest, rfl⟩
      -- only leaves below the key change, and the others are kept
      rcases ih (distinctAll_itemsAt hdistinct hsub) hrest with ⟨lost, kept, hbefore, hafter, hlost⟩
      have hnodup := (distinctAll_iff.1 hdistinct).1
      refine ⟨under k lost, under k kept ++ leavesAll (Dict.eraseItem k items), ?_, ?_, ?_⟩
      · have hsplit := leavesAll_perm (k := k) hnodup
        rw [leavesAt_of_itemsAt hsub] at hsplit
        refine hsplit.trans ?_
        rw [← List.append_assoc, under, under, under, ← List.map_append]
        exact (hbefore.map _).append_right _
      · refine (leavesAll_setItem hnodup).trans ?_
        rw [leaves]
        exact (hafter.map _).append_right _
      · intro p hp
        rcases mem_under.1 hp with ⟨path, hpath, hmem⟩
        rw [hpath, List.cons_append, List.cons_prefix_cons]
        exact ⟨rfl, hlost _ hmem⟩

theorem filledAll_assign (hdistinct : DistinctAll items) (hfilled : FilledAll items)
    (h : assign err ks name x items = .ok items') : FilledAll items' := by
  induction ks generalizing items items' with
  | nil =>
      obtain rfl := Except.ok.inj h
      exact filledAll_setItem (distinctAll_iff.1 hdistinct).1 hfilled trivial
  | cons k ks ih =>
      rcases assign_cons_ok h with ⟨sub, sub', hsub, hrest, rfl⟩
      have hdistinctSub := distinctAll_itemsAt hdistinct hsub
      refine filledAll_setItem (distinctAll_iff.1 hdistinct).1 hfilled
        ⟨?_, ih hdistinctSub (filledAll_itemsAt hdistinct hfilled hsub) hrest⟩
      rcases leaves_assign hdistinctSub hrest with ⟨-, kept, -, hafter, -⟩
      exact ne_nil_of_mem_leavesAll (hafter.mem_iff.2 List.mem_cons_self)

/-- An assignment fails at a leaf on its way. -/
theorem exists_leaf_of_assign_error {e : ε} (hdistinct : DistinctAll items)
    (h : assign err ks name x items = .error e) : ∃ p ∈ leavesAll items, p.1 <+: ks := by
  induction ks generalizing items with
  | nil => cases h
  | cons k ks ih =>
      rw [assign_cons] at h
      cases hsub : itemsAt k items with
      | none =>
          -- the key itself leads to a leaf
          rcases leaf_of_itemsAt hdistinct hsub with ⟨y, hy⟩
          exact ⟨_, hy, List.prefix_append [k] ks⟩
      | some sub =>
          rw [hsub] at h
          cases hrest : assign err ks name x sub with
          | ok sub' =>
              simp only [hrest] at h
              cases h
          | error e' =>
              simp only [hrest] at h
              obtain rfl := Except.error.inj h
              rcases ih (distinctAll_itemsAt hdistinct hsub) hrest with ⟨p, hp, hbegin⟩
              have hsplit := leavesAll_perm (k := k) (distinctAll_iff.1 hdistinct).1
              rw [leavesAt_of_itemsAt hsub] at hsplit
              refine ⟨(k :: p.1, p.2), hsplit.mem_iff.2 (List.mem_append_left _ ?_), ?_⟩
              · exact mem_under.2 ⟨p.1, rfl, hp⟩
              · exact List.cons_prefix_cons.2 ⟨rfl, hbegin⟩

/-- An assignment that is apart from the leaves keeps all of them. -/
theorem assign_of_apart (hdistinct : DistinctAll items)
    (hapart : ∀ p ∈ leavesAll items, Apart p.1 (ks ++ [name])) :
    ∃ items', assign err ks name x items = .ok items' ∧
      (leavesAll items').Perm ((ks ++ [name], x) :: leavesAll items) := by
  cases h : assign err ks name x items with
  | error e =>
      -- the leaf on the way would not be apart
      rcases exists_leaf_of_assign_error hdistinct h with ⟨p, hp, hbegin⟩
      exact absurd (hbegin.trans (List.prefix_append ks [name])) (hapart p hp).1
  | ok items' =>
      rcases leaves_assign hdistinct h with ⟨lost, kept, hbefore, hafter, hlost⟩
      obtain rfl : lost = [] := List.eq_nil_iff_forall_not_mem.2 fun p hp =>
        (hapart p (hbefore.mem_iff.2 (List.mem_append_left _ hp))).2 (hlost p hp)
      exact ⟨items', rfl, hafter.trans (hbefore.symm.cons _)⟩

/-! ## Equal dictionaries -/

/-- Equality of dictionaries does not depend on the order of their items. -/
inductive Same : DictTree κ ν → DictTree κ ν → Prop
  | leaf (x : ν) : Same (leaf x) (leaf x)
  | dict (items items' : Items κ ν)
      (hkeys : ∀ k, Dict.getItem k items = none ↔ Dict.getItem k items' = none)
      (hvalues : ∀ k t t', Dict.getItem k items = some t → Dict.getItem k items' = some t' → Same t t') :
      Same (dict items) (dict items')

theorem mem_leaves_iff_of_getItem (h : DistinctAll items) (hget : Dict.getItem k items = some t)
    {path : List κ} : (path, x) ∈ leaves t ↔ (k :: path, x) ∈ leavesAll items := by
  rw [mem_leavesAll]
  constructor
  · exact fun hmem => ⟨k, t, path, (mem_of_getItem h).1 hget, rfl, hmem⟩
  · rintro ⟨k', t', path', hitem, hpath, hmem⟩
    cases hpath
    obtain rfl : t' = t := Option.some_inj.1 (((mem_of_getItem h).2 hitem).symm.trans hget)
    exact hmem

/-- A key of a dictionary with the same leaves. -/
theorem getItem_ne_none (h : DistinctAll items) (h' : DistinctAll items') (hfilled : FilledAll items)
    (hleaves : ∀ p ∈ leavesAll items, p ∈ leavesAll items') (hget : Dict.getItem k items = some t) :
    Dict.getItem k items' ≠ none := by
  -- a leaf below the key, which the other dictionary must have as well
  rcases exists_mem_leaves t (filledAll_iff.1 hfilled _ ((mem_of_getItem h).1 hget)) with ⟨p, hp⟩
  rcases mem_leavesAll.1 (hleaves _ ((mem_leaves_iff_of_getItem h hget).1 hp)) with
    ⟨k', t', path, hitem, hpath, -⟩
  cases hpath
  rw [(mem_of_getItem h').2 hitem]
  exact Option.some_ne_none t'

mutual

/-- Trees without empty dictionaries are given by their leaves. -/
theorem same_of_leaves : ∀ t t' : DictTree κ ν, Distinct t → Distinct t' → Filled t → Filled t' →
    (∀ p, p ∈ leaves t ↔ p ∈ leaves t') → Same t t'
  | leaf x, leaf y, _, _, _, _, hleaves => by
      have hmem := (hleaves ([], x)).1 (List.mem_singleton_self _)
      cases List.mem_singleton.1 hmem
      exact .leaf x
  | leaf x, dict items', _, _, _, _, hleaves => by
      have hmem : ([], x) ∈ leavesAll items' := (hleaves ([], x)).1 (List.mem_singleton_self _)
      rcases mem_leavesAll.1 hmem with ⟨k, t, path, -, hpath, -⟩
      cases hpath
  | dict items, leaf y, _, _, _, _, hleaves => by
      have hmem : ([], y) ∈ leavesAll items := (hleaves ([], y)).2 (List.mem_singleton_self _)
      rcases mem_leavesAll.1 hmem with ⟨k, t, path, -, hpath, -⟩
      cases hpath
  | dict items, dict items', h, h', hfilled, hfilled', hleaves =>
      same_dict items items' h h' hfilled.2 hfilled'.2 hleaves
termination_by t => sizeOf t

theorem same_dict (items items' : Items κ ν) (h : DistinctAll items) (h' : DistinctAll items')
    (hfilled : FilledAll items) (hfilled' : FilledAll items')
    (hleaves : ∀ p, p ∈ leavesAll items ↔ p ∈ leavesAll items') : Same (dict items) (dict items') := by
  refine .dict items items' (fun k => ?_) fun k t t' hget hget' => ?_
  · constructor
    · intro hnone
      by_contra hsome
      rcases Option.ne_none_iff_exists'.1 hsome with ⟨t', hget'⟩
      exact getItem_ne_none h' h hfilled' (fun p => (hleaves p).2) hget' hnone
    · intro hnone
      by_contra hsome
      rcases Option.ne_none_iff_exists'.1 hsome with ⟨t, hget⟩
      exact getItem_ne_none h h' hfilled (fun p => (hleaves p).1) hget hnone
  · have hitem := (mem_of_getItem h).1 hget
    refine same_of_leaves t t' (distinct_of_getItem h hget) (distinct_of_getItem h' hget')
      (filledAll_iff.1 hfilled _ hitem) (filledAll_iff.1 hfilled' _ ((mem_of_getItem h').1 hget')) ?_
    rintro ⟨path, x⟩
    rw [mem_leaves_iff_of_getItem h hget, mem_leaves_iff_of_getItem h' hget', hleaves]
termination_by sizeOf items
decreasing_by
  have hlt := List.sizeOf_lt_of_mem hitem
  simp only [Prod.mk.sizeOf_spec] at hlt
  omega

end

end DictTree
