import Mathlib.Data.Finset.Union
import Mathlib.Data.List.Chain
import Mathlib.Data.Set.Finite.Lattice
import Mathlib.Order.WellFounded
import FactCore.Lib.Loop

/-! # Walks through a finite graph

`succs a` are the neighbours that a walk visits after `a`. A walk that keeps no
record of what it has visited ends if and only if it cannot get into a cycle.
This is shown for a search by levels, where the next level consists of the
neighbours of the last one, and for the recursion that collects all paths to
the elements without neighbours.
-/

universe u

namespace Paths

variable {α : Type u}

/-! ## Cycles -/

/-- No cycle can be reached. -/
def CycleFree (R : α → α → Prop) (a : α) : Prop :=
  ∀ b, Relation.ReflTransGen R a b → ¬ Relation.TransGen R b b

variable {R : α → α → Prop} {a b : α}

theorem CycleFree.of_rel (h : CycleFree R a) (hab : R a b) : CycleFree R b :=
  fun c hbc => h c (Relation.ReflTransGen.head hab hbc)

theorem CycleFree.mono {R' : α → α → Prop} (hsub : ∀ a b, R' a b → R a b) (h : CycleFree R a) :
    CycleFree R' a := by
  intro b hab hcycle
  exact h b (Relation.ReflTransGen.mono hsub _ _ hab) (Relation.TransGen.mono hsub _ _ hcycle)

theorem not_transGen_of_acc (h : Acc (fun b a => R a b) a) : ¬ Relation.TransGen R a a := by
  induction h with
  | intro a _ ih =>
      intro hcycle
      obtain ⟨b, hab, hba⟩ := Relation.TransGen.head'_iff.1 hcycle
      exact ih b hab (Relation.TransGen.tail' hba hab)

theorem cycleFree_of_acc (h : Acc (fun b a => R a b) a) : CycleFree R a := by
  intro b hab
  apply not_transGen_of_acc
  induction hab with
  | refl => exact h
  | tail _ hbc ih => exact ih.inv hbc

/-- Among finitely many elements, every descent ends unless there is a cycle. -/
theorem acc_of_cycleFree (hfinite : {b | Relation.ReflTransGen R a b}.Finite)
    (h : CycleFree R a) : Acc (fun b a => R a b) a := by
  let S := {b // Relation.ReflTransGen R a b}
  let below : S → S → Prop := fun y x => Relation.TransGen R x.1 y.1
  have htrans : IsTrans S below := ⟨fun _ _ _ hxy hyz => hyz.trans hxy⟩
  have hirrefl : Std.Irrefl below := ⟨fun x => h x.1 x.2⟩
  have hfin : Finite S := hfinite.to_subtype
  have hwf : WellFounded below := Finite.wellFounded_of_trans_of_irrefl below
  suffices hall : ∀ x : S, Acc (fun b a => R a b) x.1 from hall ⟨a, Relation.ReflTransGen.refl⟩
  intro x
  induction x using hwf.induction with
  | _ x ih =>
      constructor
      intro y hxy
      exact ih ⟨y, x.2.tail hxy⟩ (Relation.TransGen.single hxy)

/-- Where every step leads into a finite set, finitely many elements can be reached. -/
theorem finite_reach [DecidableEq α] {all : Finset α} (hall : ∀ a b, R a b → b ∈ all) (a : α) :
    {b | Relation.ReflTransGen R a b}.Finite := by
  apply (insert a all).finite_toSet.subset
  intro b hab
  rcases Relation.ReflTransGen.cases_tail hab with rfl | ⟨c, -, hcb⟩
  · exact Finset.mem_insert_self b all
  · exact Finset.mem_insert_of_mem (hall c b hcb)

/-! ## Search by levels -/

section

variable [DecidableEq α] (succs : α → Finset α)

/-- The neighbours of the elements of a level. -/
def level (S : Finset α) : Finset α := S.biUnion succs

variable {succs} {S : Finset α} {n m : Nat}

theorem mem_level : b ∈ level succs S ↔ ∃ a ∈ S, b ∈ succs a := Finset.mem_biUnion

theorem level_iterate_empty : (level succs)^[n] ∅ = ∅ := by
  induction n with
  | zero => rfl
  | succ n ih => rw [Function.iterate_succ_apply', ih, level, Finset.biUnion_empty]

theorem level_iterate_union {T : Finset α} :
    (level succs)^[n] (S ∪ T) = (level succs)^[n] S ∪ (level succs)^[n] T := by
  induction n generalizing S T with
  | zero => rfl
  | succ n ih =>
      rw [Function.iterate_succ_apply, Function.iterate_succ_apply, Function.iterate_succ_apply,
        ← ih, level, Finset.union_biUnion]
      rfl

/-- A level that has become empty stays empty. -/
theorem level_empty_of_le (h : (level succs)^[n] S = ∅) (hle : n ≤ m) : (level succs)^[m] S = ∅ := by
  obtain ⟨k, rfl⟩ : ∃ k, m = k + n := ⟨m - n, by omega⟩
  rw [Function.iterate_add_apply, h, level_iterate_empty]

/-- If the levels from each element die out, they do so from all together. -/
theorem level_dies_of_forall (h : ∀ a ∈ S, ∃ n, (level succs)^[n] {a} = ∅) :
    ∃ n, (level succs)^[n] S = ∅ := by
  induction S using Finset.induction_on with
  | empty => exact ⟨0, rfl⟩
  | insert a S _ ih =>
      obtain ⟨n, hn⟩ := h a (Finset.mem_insert_self a S)
      obtain ⟨m, hm⟩ := ih fun b hb => h b (Finset.mem_insert_of_mem hb)
      refine ⟨max n m, ?_⟩
      rw [Finset.insert_eq, level_iterate_union, level_empty_of_le hn (Nat.le_max_left n m),
        level_empty_of_le hm (Nat.le_max_right n m), Finset.union_empty]

theorem level_dies_of_acc (h : Acc (fun b a => b ∈ succs a) a) : ∃ n, (level succs)^[n] {a} = ∅ := by
  induction h with
  | intro a _ ih =>
      obtain ⟨n, hn⟩ := level_dies_of_forall (S := succs a) fun b hb => ih b hb
      refine ⟨n + 1, ?_⟩
      rw [Function.iterate_succ_apply, level, Finset.singleton_biUnion]
      exact hn

theorem acc_of_level_dies (h : (level succs)^[n] S = ∅) (ha : a ∈ S) :
    Acc (fun b a => b ∈ succs a) a := by
  induction n generalizing S a with
  | zero =>
      obtain rfl : S = ∅ := h
      exact absurd ha (Finset.notMem_empty a)
  | succ n ih =>
      constructor
      intro b hab
      rw [Function.iterate_succ_apply] at h
      exact ih h (mem_level.2 ⟨a, ha, hab⟩)

/-- The levels die out if and only if no cycle can be reached. -/
theorem level_dies_iff (all : Finset α) (hall : ∀ a b, b ∈ succs a → b ∈ all) :
    (∃ n, (level succs)^[n] S = ∅) ↔ ∀ a ∈ S, CycleFree (fun a b => b ∈ succs a) a := by
  constructor
  · rintro ⟨n, hn⟩ a ha
    exact cycleFree_of_acc (acc_of_level_dies hn ha)
  · intro h
    apply level_dies_of_forall
    intro a ha
    exact level_dies_of_acc (acc_of_cycleFree (finite_reach hall a) (h a ha))

end

/-! ## All paths from the elements without neighbours -/

/-- The paths to `a` from the elements without neighbours, with a bound on the
depth of the recursion: the path to each neighbour, extended by `a`. -/
def collect (succs : α → List α) : Nat → α → Option (List (List α))
  | 0, _ => none
  | n + 1, a =>
      ((succs a).mapM fun b => if (succs b).isEmpty then some [[b]] else collect succs n b).map
        fun paths => paths.flatten.map fun path => path ++ [a]

/-- A path to `a` from an element without neighbours. -/
inductive Trail (succs : α → List α) : α → List α → Prop
  | start {a : α} (h : succs a = []) : Trail succs a [a]
  | extend {a b : α} {path : List α} (hmem : b ∈ succs a) (h : Trail succs b path) :
      Trail succs a (path ++ [a])

/-- A partial function maps a list if it is defined on all of its elements. -/
theorem mapM_eq_some_iff {β γ : Type u} {f : β → Option γ} {l : List β} {r : List γ} :
    l.mapM f = some r ↔ l.map f = r.map some := by
  induction l generalizing r with
  | nil => cases r <;> simp
  | cons b l ih =>
      simp only [List.mapM_cons, Option.bind_eq_bind, Option.bind_eq_some_iff, List.map_cons]
      constructor
      · rintro ⟨c, hc, cs, hcs, hr⟩
        obtain rfl : c :: cs = r := by simpa using hr
        rw [hc, ih.1 hcs, List.map_cons]
      · intro h
        cases r with
        | nil => cases h
        | cons c cs =>
            rw [List.map_cons, List.cons.injEq] at h
            exact ⟨c, h.1, cs, ih.2 h.2, rfl⟩

section

variable {succs : α → List α} {n m : Nat} {paths : List (List α)} {path : List α}

/-- What the recursion makes of one neighbour. -/
def collectAt (succs : α → List α) (n : Nat) (b : α) : Option (List (List α)) :=
  if (succs b).isEmpty then some [[b]] else collect succs n b

theorem collect_succ : collect succs (n + 1) a = ((succs a).mapM (collectAt succs n)).map
    fun paths => paths.flatten.map fun path => path ++ [a] := rfl

/-- From an element without an infinite descent, the recursion ends. -/
theorem collect_terminates (h : Acc (fun b a => b ∈ succs a) a) :
    ∃ paths, Loop.Terminates (fun n => collect succs n a) paths := by
  induction h with
  | intro a _ ih =>
      have hat : ∀ b, ∃ paths, b ∈ succs a →
          Loop.Terminates (fun n => collectAt succs n b) paths := by
        intro b
        by_cases hb : b ∈ succs a
        · by_cases hnil : succs b = []
          · exact ⟨[[b]], fun _ => ⟨0, fun m _ => by simp [collectAt, hnil]⟩⟩
          · obtain ⟨paths, n, hn⟩ := ih b hb
            exact ⟨paths, fun _ => ⟨n, fun m hm => by simp [collectAt, hnil, hn m hm]⟩⟩
        · exact ⟨[], fun h => absurd h hb⟩
      choose g hg using hat
      obtain ⟨n, hn⟩ := Loop.exists_common_bound hg
      refine ⟨((succs a).map g).flatten.map fun path => path ++ [a], n + 1, ?_⟩
      intro m hm
      obtain ⟨k, rfl⟩ : ∃ k, m = k + 1 := ⟨m - 1, by omega⟩
      have hmap : (succs a).mapM (collectAt succs k) = some ((succs a).map g) := by
        rw [mapM_eq_some_iff, List.map_map]
        exact List.map_congr_left fun b hb => hn k (by omega) b hb
      simp only [collect_succ, hmap, Option.map_some]

/-- The recursion ends for `a` if it ends for each neighbour. -/
theorem collect_succ_eq_some (h : collect succs (n + 1) a = some paths) :
    (∀ b ∈ succs a, ∃ l, collectAt succs n b = some l) ∧
      paths = (succs a).flatMap fun b => ((collectAt succs n b).getD []).map (· ++ [a]) := by
  rw [collect_succ, Option.map_eq_some_iff] at h
  obtain ⟨r, hr, rfl⟩ := h
  rw [mapM_eq_some_iff] at hr
  constructor
  · intro b hb
    have hmem : collectAt succs n b ∈ r.map some := hr ▸ List.mem_map_of_mem hb
    obtain ⟨l, -, hl⟩ := List.mem_map.1 hmem
    exact ⟨l, hl.symm⟩
  · have hgetD : r = (succs a).map fun b => (collectAt succs n b).getD [] := by
      have hmap := congrArg (List.map fun x => x.getD []) hr
      simpa [Function.comp_def] using hmap.symm
    rw [hgetD, ← List.flatMap_def, List.map_flatMap]

/-- If the recursion ends, there is no infinite descent. -/
theorem acc_of_collect (h : collect succs n a = some paths) : Acc (fun b a => b ∈ succs a) a := by
  induction n generalizing a paths with
  | zero => cases h
  | succ n ih =>
      constructor
      intro b hb
      obtain ⟨l, hl⟩ := (collect_succ_eq_some h).1 b hb
      rw [collectAt] at hl
      split at hl
      · rename_i hnil
        constructor
        intro c hc
        rw [List.isEmpty_iff.1 hnil] at hc
        cases hc
      · exact ih hl

theorem Trail.getLast? (h : Trail succs a path) : path.getLast? = some a := by
  cases h with
  | start => rfl
  | extend => simp

/-- A path starts at an element without neighbours. -/
theorem Trail.exists_head (h : Trail succs a path) : ∃ r, path.head? = some r ∧ succs r = [] := by
  induction h with
  | start hnil => exact ⟨_, rfl, hnil⟩
  | extend _ htrail ih =>
      obtain ⟨r, hr, hnil⟩ := ih
      exact ⟨r, by rw [List.head?_append, hr]; rfl, hnil⟩

/-- The element at which a longer path starts is a neighbour. -/
theorem Trail.head_mem {r : α} (h : Trail succs a path) (hne : succs a ≠ [])
    (hr : path.head? = some r) : ∃ c, r ∈ succs c := by
  induction h with
  | start hnil => exact absurd hnil hne
  | @extend a b path hmem htrail ih =>
      by_cases hnil : succs b = []
      · cases htrail with
        | start =>
            obtain rfl : b = r := by simpa using hr
            exact ⟨a, hmem⟩
        | extend hmem' =>
            rw [hnil] at hmem'
            cases hmem'
      · refine ih hnil ?_
        obtain ⟨r', hr', -⟩ := htrail.exists_head
        rw [List.head?_append, hr'] at hr
        rw [hr']
        exact hr

/-- The only path to an element without neighbours is the element itself. -/
theorem trail_iff_of_nil (hnil : succs a = []) : Trail succs a path ↔ path = [a] := by
  constructor
  · intro h
    cases h with
    | start => rfl
    | extend hmem =>
        rw [hnil] at hmem
        cases hmem
  · rintro rfl
    exact Trail.start hnil

theorem mem_collectAt_of {l : List (List α)} (h : collectAt succs n b = some l)
    (hcollect : ∀ {paths}, collect succs n b = some paths →
      (path ∈ paths ↔ succs b ≠ [] ∧ Trail succs b path)) : path ∈ l ↔ Trail succs b path := by
  rw [collectAt] at h
  split at h
  · rename_i hnil
    obtain rfl : [[b]] = l := Option.some.inj h
    rw [List.mem_singleton, trail_iff_of_nil (List.isEmpty_iff.1 hnil)]
  · rename_i hne
    rw [hcollect h]
    exact and_iff_right fun hnil => hne (List.isEmpty_iff.2 hnil)

/-- Without an infinite descent there is a path. -/
theorem exists_trail (h : Acc (fun b a => b ∈ succs a) a) : ∃ path, Trail succs a path := by
  induction h with
  | intro a _ ih =>
      cases hsuccs : succs a with
      | nil => exact ⟨[a], Trail.start hsuccs⟩
      | cons b l =>
          have hmem : b ∈ succs a := by simp [hsuccs]
          obtain ⟨path, htrail⟩ := ih b hmem
          exact ⟨path ++ [a], Trail.extend hmem htrail⟩

/-- The recursion collects exactly the paths that extend one to a neighbour. -/
theorem mem_collect (h : collect succs n a = some paths) :
    path ∈ paths ↔ succs a ≠ [] ∧ Trail succs a path := by
  induction n generalizing a paths path with
  | zero => cases h
  | succ n ih =>
      obtain ⟨hall, rfl⟩ := collect_succ_eq_some h
      have hat : ∀ b ∈ succs a, ∀ path', path' ∈ (collectAt succs n b).getD [] ↔
          Trail succs b path' := by
        intro b hb path'
        obtain ⟨l, hl⟩ := hall b hb
        rw [hl, Option.getD_some]
        exact mem_collectAt_of hl fun h => ih h
      simp only [List.mem_flatMap, List.mem_map]
      constructor
      · rintro ⟨b, hb, path', hpath', rfl⟩
        exact ⟨List.ne_nil_of_mem hb, Trail.extend hb ((hat b hb path').1 hpath')⟩
      · rintro ⟨hne, htrail⟩
        cases htrail with
        | start hnil => exact absurd hnil hne
        | @extend _ b path' hb htrail => exact ⟨b, hb, path', (hat b hb path').2 htrail, rfl⟩

theorem mem_collectAt {l : List (List α)} (h : collectAt succs n b = some l) :
    path ∈ l ↔ Trail succs b path :=
  mem_collectAt_of h mem_collect

/-- No path is collected twice. -/
theorem nodup_collect (hnodup : ∀ a, (succs a).Nodup) (h : collect succs n a = some paths) :
    paths.Nodup := by
  induction n generalizing a paths with
  | zero => cases h
  | succ n ih =>
      obtain ⟨hall, rfl⟩ := collect_succ_eq_some h
      rw [List.nodup_flatMap]
      constructor
      · intro b hb
        obtain ⟨l, hl⟩ := hall b hb
        rw [hl, Option.getD_some]
        apply List.Nodup.map (fun _ _ heq => List.append_cancel_right heq)
        rw [collectAt] at hl
        split at hl
        · obtain rfl : [[b]] = l := Option.some.inj hl
          exact List.nodup_singleton _
        · exact ih hl
      · apply (hnodup a).pairwise_of_forall_ne
        intro b hb c hc hne path hpath hpath'
        obtain ⟨l, hl⟩ := hall b hb
        obtain ⟨l', hl'⟩ := hall c hc
        simp only [hl, hl', Option.getD_some, List.mem_map] at hpath hpath'
        obtain ⟨p, hp, rfl⟩ := hpath
        obtain ⟨p', hp', heq⟩ := hpath'
        have hlast := ((mem_collectAt hl).1 hp).getLast?
        rw [← List.append_cancel_right heq, ((mem_collectAt hl').1 hp').getLast?] at hlast
        exact hne (Option.some.inj hlast).symm

/-! ## Paths as lists -/

/-- A simple path to `a` from an element without neighbours; before each
element comes one of its neighbours. -/
structure RootPath (R : α → α → Prop) (a : α) (path : List α) : Prop where
  last : path.getLast? = some a
  chain : path.IsChain fun b c => R c b
  root : ∀ r, path.head? = some r → ∀ b, ¬ R r b
  simple : path.Nodup

theorem Trail.reach (h : Trail succs a path) :
    ∀ b ∈ path, Relation.ReflTransGen (fun a b => b ∈ succs a) a b := by
  induction h with
  | start =>
      intro b hb
      rw [List.mem_singleton.1 hb]
  | extend hmem _ ih =>
      intro c hc
      rcases List.mem_append.1 hc with hc | hc
      · exact Relation.ReflTransGen.head hmem (ih c hc)
      · rw [List.mem_singleton.1 hc]

/-- Where no cycle can be reached, every path is simple. -/
theorem Trail.rootPath (hfree : CycleFree (fun a b => b ∈ succs a) a) (h : Trail succs a path) :
    RootPath (fun a b => b ∈ succs a) a path := by
  induction h with
  | start hnil =>
      constructor
      · rfl
      · exact List.isChain_singleton _
      · intro r hr b hb
        obtain rfl := Option.some.inj hr
        rw [hnil] at hb
        cases hb
      · exact List.nodup_singleton _
  | @extend a b path hmem htrail ih =>
      obtain ⟨hlast, hchain, hroot, hnodup⟩ := ih (hfree.of_rel hmem)
      have hne : path ≠ [] := by
        rintro rfl
        cases hlast
      constructor
      · simp
      · rw [List.isChain_append]
        refine ⟨hchain, List.isChain_singleton _, ?_⟩
        intro c hc d hd
        rw [hlast] at hc
        obtain rfl := Option.some.inj hc
        obtain rfl := Option.some.inj hd
        exact hmem
      · intro r hr
        rw [List.head?_append_of_ne_nil _ hne] at hr
        exact hroot r hr
      · rw [List.nodup_append]
        refine ⟨hnodup, List.nodup_singleton _, ?_⟩
        intro c hc d hd heq
        rw [List.mem_singleton] at hd
        rw [heq, hd] at hc
        exact hfree a Relation.ReflTransGen.refl
          (Relation.TransGen.head' hmem (htrail.reach a hc))

theorem RootPath.trail (h : RootPath (fun a b => b ∈ succs a) a path) : Trail succs a path := by
  obtain ⟨hlast, hchain, hroot, -⟩ := h
  induction path using List.reverseRecOn generalizing a with
  | nil => cases hlast
  | append_singleton path b ih =>
      obtain rfl : b = a := by simpa using hlast
      cases hp : path.getLast? with
      | none =>
          obtain rfl : path = [] := by simpa using hp
          exact Trail.start (List.eq_nil_iff_forall_not_mem.2 (hroot b rfl))
      | some c =>
          have hne : path ≠ [] := by
            rintro rfl
            cases hp
          rw [List.isChain_append] at hchain
          have hmem : c ∈ succs b := hchain.2.2 c hp b rfl
          refine Trail.extend hmem (ih hp hchain.1 ?_)
          intro r hr
          exact hroot r (by rw [List.head?_append_of_ne_nil _ hne]; exact hr)

/-- Only the neighbours of what can be reached matter. -/
theorem Trail.congr {succs' : α → List α} (h : Trail succs a path)
    (heq : ∀ b, Relation.ReflTransGen (fun a b => b ∈ succs a) a b → succs' b = succs b) :
    Trail succs' a path := by
  induction h with
  | start hnil =>
      apply Trail.start
      rw [heq _ Relation.ReflTransGen.refl, hnil]
  | @extend a b path hmem _ ih =>
      have hmem' : b ∈ succs' a := by rwa [heq a Relation.ReflTransGen.refl]
      exact Trail.extend hmem' (ih fun c hc => heq c (Relation.ReflTransGen.head hmem hc))

/-- The recursion ends if and only if no cycle can be reached. -/
theorem collect_terminates_iff [DecidableEq α] (all : Finset α)
    (hall : ∀ a b, b ∈ succs a → b ∈ all) :
    (∃ paths, Loop.Terminates (fun n => collect succs n a) paths) ↔
      CycleFree (fun a b => b ∈ succs a) a := by
  constructor
  · rintro ⟨paths, n, hn⟩
    exact cycleFree_of_acc (acc_of_collect (hn n (Nat.le_refl n)))
  · intro h
    exact collect_terminates (acc_of_cycleFree (finite_reach hall a) h)

end

end Paths
