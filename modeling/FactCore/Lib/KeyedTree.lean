import Mathlib.Data.List.Nodup
import Mathlib.Data.List.Perm.Basic
import Mathlib.Tactic.Common

/-! # Trees whose siblings have keys

A tree has a value at each node, and each value has a key. Adding a tree to the
children of a node merges it with the child of the same key, if there is one.
The trees that are built so from single paths have distinct keys among siblings,
hold at each path of keys the value of the first path that leads through it, and
so do not depend on the order of the paths except for the order of the siblings.
-/

universe u v

namespace KeyedTree

/-- A tree with a value at each node. -/
inductive RoseTree (α : Type u) where
  | node (value : α) (children : List (RoseTree α))

namespace RoseTree

variable {α : Type u}

/-- The value at the root. -/
def value : RoseTree α → α
  | node value _ => value

/-- The trees below the root. -/
def children : RoseTree α → List (RoseTree α)
  | node _ children => children

@[simp] theorem value_node (v : α) (cs : List (RoseTree α)) : (node v cs).value = v := rfl

@[simp] theorem children_node (v : α) (cs : List (RoseTree α)) : (node v cs).children = cs := rfl

end RoseTree

variable {α : Type u} {κ : Type v} [DecidableEq κ]

/-! ## The operations -/

/-- The child with a key. -/
def child? (key : α → κ) (k : κ) (cs : List (RoseTree α)) : Option (RoseTree α) :=
  cs.find? fun c => decide (key c.value = k)

mutual

/-- Add a tree to the children of a node; `grow` is what a new child does to the
value of the node. -/
def add (key : α → κ) (grow : α → α) : RoseTree α → RoseTree α → RoseTree α
  | .node v cs, t =>
      if (child? key (key v) t.children).isSome then
        .node t.value (t.children.map fun c => if key c.value = key v then addAll key grow cs c else c)
      else .node (grow t.value) (t.children ++ [.node v cs])

/-- Add the trees of a list, one after the other. -/
def addAll (key : α → κ) (grow : α → α) : List (RoseTree α) → RoseTree α → RoseTree α
  | [], t => t
  | c :: cs, t => addAll key grow cs (add key grow c t)

end

/-- A tree with one path of values. -/
def chain : α → List α → RoseTree α
  | v, [] => .node v []
  | v, w :: ws => .node v [chain w ws]

/-- The value that a path of keys leads to. -/
def valueIn (key : α → κ) : List (RoseTree α) → List κ → Option α
  | _, [] => none
  | cs, [k] => (child? key k cs).map RoseTree.value
  | cs, k :: k' :: ks => (child? key k cs).bind fun c => valueIn key c.children (k' :: ks)

/-- The value that a path of keys leads to in a single path of values. -/
def pathValue (key : α → κ) : List α → List κ → Option α
  | v :: _, [k] => if k = key v then some v else none
  | v :: vs, k :: k' :: ks => if k = key v then pathValue key vs (k' :: ks) else none
  | _, _ => none

/-- No two siblings have the same key. -/
inductive Distinct (key : α → κ) : RoseTree α → Prop
  | node (v : α) (cs : List (RoseTree α)) (hkeys : (cs.map fun c => key c.value).Nodup)
      (hchildren : ∀ c ∈ cs, Distinct key c) : Distinct key (.node v cs)

/-- The trees differ in the order of the siblings only. -/
inductive SameUpToOrder : RoseTree α → RoseTree α → Prop
  | node (v : α) (cs cs' cs'' : List (RoseTree α)) (hsame : List.Forall₂ SameUpToOrder cs cs'')
      (hperm : cs''.Perm cs') : SameUpToOrder (.node v cs) (.node v cs')

mutual

/-- The nodes without children, with the keys that lead to them. -/
def leaves (key : α → κ) : RoseTree α → List (List κ × α)
  | .node v [] => [([key v], v)]
  | .node v (c :: cs) => (leavesAll key (c :: cs)).map fun l => (key v :: l.1, l.2)

/-- The nodes without children in the trees of a list. -/
def leavesAll (key : α → κ) : List (RoseTree α) → List (List κ × α)
  | [] => []
  | c :: cs => leaves key c ++ leavesAll key cs

end

variable {key : α → κ} {grow : α → α} {k : κ} {ks : List κ} {cs cs' : List (RoseTree α)} {c t : RoseTree α}
  {v w : α} {vs ws : List α}

/-! ## Finding children -/

theorem child?_eq_some (h : child? key k cs = some c) : c ∈ cs ∧ key c.value = k := by
  have hkey := List.find?_some h
  exact ⟨List.mem_of_find?_eq_some h, of_decide_eq_true hkey⟩

theorem child?_eq_none : child? key k cs = none ↔ ∀ c ∈ cs, key c.value ≠ k := by
  simp [child?, List.find?_eq_none]

/-- With distinct keys a child is found under its key. -/
theorem child?_of_mem (hkeys : (cs.map fun c => key c.value).Nodup) (hc : c ∈ cs) :
    child? key (key c.value) cs = some c := by
  cases hfind : child? key (key c.value) cs with
  | none => exact absurd rfl (child?_eq_none.1 hfind c hc)
  | some c' =>
      obtain ⟨hc', hkey⟩ := child?_eq_some hfind
      rw [List.inj_on_of_nodup_map hkeys hc' hc hkey]

theorem child?_append : child? key k (cs ++ [c]) =
    (child? key k cs).or (if k = key c.value then some c else none) := by
  by_cases h : k = key c.value
  · simp [child?, List.find?_append, h]
  · simp [child?, List.find?_append, h, eq_comm]

/-- Replacing the children with one key by trees with the same key. -/
theorem child?_map {k₀ : κ} {f : RoseTree α → RoseTree α} (hf : ∀ c, key (f c).value = key c.value) :
    child? key k (cs.map fun c => if key c.value = k₀ then f c else c) =
      (child? key k cs).map fun c => if k = k₀ then f c else c := by
  induction cs with
  | nil => rfl
  | cons c cs ih =>
      unfold child? at ih ⊢
      rw [List.map_cons, List.find?_cons, List.find?_cons]
      have hkey : key (if key c.value = k₀ then f c else c).value = key c.value := by
        split
        · exact hf c
        · rfl
      rw [hkey]
      by_cases h : key c.value = k
      · simp [h]
      · simp only [decide_eq_false h, ih]

/-! ## What adding keeps -/

theorem addAll_eq_foldl (ns : List (RoseTree α)) (t : RoseTree α) :
    addAll key grow ns t = ns.foldl (fun t n => add key grow n t) t := by
  induction ns generalizing t with
  | nil => rfl
  | cons n ns ih => exact ih _

mutual

theorem key_add (hgrow : ∀ v, key (grow v) = key v) : ∀ n t : RoseTree α,
    key (add key grow n t).value = key t.value
  | .node v cs, t => by
      rw [add]
      split
      · rfl
      · exact hgrow _

theorem key_addAll (hgrow : ∀ v, key (grow v) = key v) : ∀ (cs : List (RoseTree α)) (t : RoseTree α),
    key (addAll key grow cs t).value = key t.value
  | [], t => rfl
  | c :: cs, t => by
      rw [addAll, key_addAll hgrow cs, key_add hgrow c]

end

omit [DecidableEq κ] in
theorem Distinct.keys (h : Distinct key t) : (t.children.map fun c => key c.value).Nodup := by
  cases h with
  | node v cs hkeys _ => exact hkeys

omit [DecidableEq κ] in
theorem Distinct.of_mem (h : Distinct key t) (hc : c ∈ t.children) : Distinct key c := by
  cases h with
  | node v cs _ hchildren => exact hchildren c hc

mutual

/-- Adding a tree with distinct siblings to another one keeps them distinct. -/
theorem distinct_add (hgrow : ∀ v, key (grow v) = key v) : ∀ n t : RoseTree α, Distinct key n →
    Distinct key t → Distinct key (add key grow n t)
  | .node v cs, t, hn, ht => by
      rw [add]
      split
      · constructor
        · have hmap : (t.children.map fun c => if key c.value = key v then addAll key grow cs c
              else c).map (fun c => key c.value) = t.children.map fun c => key c.value := by
            rw [List.map_map]
            refine List.map_congr_left fun c _ => ?_
            show key (if key c.value = key v then addAll key grow cs c else c).value = key c.value
            split
            · exact key_addAll hgrow cs c
            · rfl
          rw [hmap]
          exact ht.keys
        · intro c hc
          obtain ⟨c', hc', rfl⟩ := List.mem_map.1 hc
          split
          · exact distinct_addAll hgrow cs c' (fun d hd => hn.of_mem hd) (ht.of_mem hc')
          · exact ht.of_mem hc'
      · rename_i hnone
        have hnone : child? key (key v) t.children = none := by simpa using hnone
        constructor
        · rw [List.map_append, List.nodup_append]
          refine ⟨ht.keys, by simp, ?_⟩
          intro k hk k' hk' heq
          obtain ⟨c, hc, rfl⟩ := List.mem_map.1 hk
          have hk' : k' = key v := by simpa using hk'
          exact child?_eq_none.1 hnone c hc (heq.trans hk')
        · intro c hc
          rcases List.mem_append.1 hc with hc | hc
          · exact ht.of_mem hc
          · rwa [List.mem_singleton.1 hc]

theorem distinct_addAll (hgrow : ∀ v, key (grow v) = key v) : ∀ (cs : List (RoseTree α)) (t : RoseTree α),
    (∀ c ∈ cs, Distinct key c) → Distinct key t → Distinct key (addAll key grow cs t)
  | [], t, _, ht => ht
  | c :: cs, t, hcs, ht => by
      rw [addAll]
      exact distinct_addAll hgrow cs _ (fun d hd => hcs d (List.mem_cons_of_mem _ hd))
        (distinct_add hgrow c t (hcs c List.mem_cons_self) ht)

end

omit [DecidableEq κ] in
theorem distinct_chain : ∀ (v : α) (ws : List α), Distinct key (chain v ws)
  | v, [] => .node v [] List.nodup_nil fun c hc => absurd hc List.not_mem_nil
  | v, w :: ws => .node v [chain w ws] (List.nodup_singleton _) fun c hc => by
      rw [List.mem_singleton.1 hc]
      exact distinct_chain w ws

/-! ## The values on the paths -/

section

variable {inner : κ → Prop}

/-- The values whose keys are inner are not changed by new children. -/
def Grown (key : α → κ) (grow : α → α) (inner : κ → Prop) (cs : List (RoseTree α)) : Prop :=
  ∀ ks v, valueIn key cs ks = some v → inner (key v) → grow v = v

/-- The keys of all values but the last are inner, that of the last is not, and
the inner values are not changed by new children. -/
def PathOk (key : α → κ) (grow : α → α) (inner : κ → Prop) : List α → Prop
  | [] => False
  | [v] => ¬inner (key v)
  | v :: w :: ws => inner (key v) ∧ grow v = v ∧ PathOk key grow inner (w :: ws)

theorem valueIn_nil : ∀ ks : List κ, valueIn key ([] : List (RoseTree α)) ks = none
  | [] => rfl
  | [_] => rfl
  | _ :: _ :: _ => rfl

theorem valueIn_chain : ∀ (w : α) (ws : List α) (ks : List κ),
    valueIn key [chain w ws] ks = pathValue key (w :: ws) ks
  | w, ws, [] => rfl
  | w, [], [k] => by
      by_cases h : k = key w
      · simp [valueIn, pathValue, child?, chain, h]
      · simp [valueIn, pathValue, child?, chain, h, eq_comm]
  | w, w' :: ws, [k] => by
      by_cases h : k = key w
      · simp [valueIn, pathValue, child?, chain, h]
      · simp [valueIn, pathValue, child?, chain, h, eq_comm]
  | w, [], k :: k' :: ks => by
      by_cases h : k = key w
      · cases ks <;> simp [valueIn, pathValue, child?, chain, h]
      · simp [valueIn, pathValue, child?, chain, h, eq_comm]
  | w, w' :: ws, k :: k' :: ks => by
      by_cases h : k = key w
      · simp only [valueIn, pathValue, child?, chain, h, RoseTree.value_node, List.find?_cons,
          decide_true, if_true, Option.bind_some, RoseTree.children_node]
        exact valueIn_chain w' ws (k' :: ks)
      · simp [valueIn, pathValue, child?, chain, h, eq_comm]

/-- Adding the rest of a path to a node of the path. -/
def addBelow (key : α → κ) (grow : α → α) : List α → RoseTree α → RoseTree α
  | [], t => t
  | w :: ws, t => add key grow (chain w ws) t

theorem value_add (n : RoseTree α) (h : grow t.value = t.value) : (add key grow n t).value = t.value := by
  cases n with
  | node v cs =>
      rw [add]
      split
      · rfl
      · exact h

theorem value_addBelow (h : ws ≠ [] → grow t.value = t.value) :
    (addBelow key grow ws t).value = t.value := by
  cases ws with
  | nil => rfl
  | cons w ws => exact value_add _ (h (List.cons_ne_nil _ _))

theorem key_addBelow (hgrow : ∀ v, key (grow v) = key v) :
    key (addBelow key grow ws t).value = key t.value := by
  cases ws with
  | nil => rfl
  | cons w ws => exact key_add hgrow _ _

theorem children_add_chain : (add key grow (chain w ws) t).children =
    if (child? key (key w) t.children).isSome then
      t.children.map fun c => if key c.value = key w then addBelow key grow ws c else c
    else t.children ++ [chain w ws] := by
  cases ws with
  | nil =>
      rw [chain, add]
      split
      · rfl
      · rfl
  | cons w' ws =>
      rw [chain, add]
      split
      · rfl
      · rfl

theorem Grown.child (h : Grown key grow inner cs) (hc : child? key k cs = some c) :
    Grown key grow inner c.children := by
  intro ks v hv hinner
  cases ks with
  | nil => simp [valueIn] at hv
  | cons k' ks =>
      refine h (k :: k' :: ks) v ?_ hinner
      rw [valueIn, hc]
      exact hv

/-- The value at a path of keys is the old one, or else that of the added path. -/
theorem valueIn_add_chain (hgrow : ∀ v, key (grow v) = key v) (hgrown : Grown key grow inner t.children)
    (hpath : PathOk key grow inner (w :: ws)) (ks : List κ) :
    valueIn key (add key grow (chain w ws) t).children ks =
      (valueIn key t.children ks).or (pathValue key (w :: ws) ks) := by
  induction ws generalizing w t ks with
  | nil =>
      rw [children_add_chain]
      split
      · rename_i hsome
        have hmap : (t.children.map fun c => if key c.value = key w then addBelow key grow [] c else c) =
            t.children := by simp [addBelow]
        rw [hmap]
        obtain ⟨c, hc⟩ := Option.isSome_iff_exists.1 hsome
        match ks with
        | [] => rfl
        | [k] =>
            by_cases hk : k = key w
            · simp [valueIn, pathValue, hk, hc]
            · simp [pathValue, hk]
        | k :: k' :: ks => simp [pathValue]
      · rename_i hnone
        have hnone : child? key (key w) t.children = none := by simpa using hnone
        match ks with
        | [] => rfl
        | [k] =>
            rw [valueIn, child?_append, valueIn]
            by_cases hk : k = key w
            · simp [pathValue, hk, hnone, chain]
            · simp [pathValue, hk, chain]
        | k :: k' :: ks =>
            rw [valueIn, child?_append, valueIn]
            by_cases hk : k = key w
            · simp only [hk, hnone, Option.none_or, chain, RoseTree.value_node, if_true, Option.bind_some,
                RoseTree.children_node, Option.bind_none, pathValue, Option.or_none]
              exact valueIn_nil (k' :: ks)
            · simp [pathValue, hk, chain]
  | cons w' ws ih =>
      obtain ⟨hinner, -, hrest⟩ := hpath
      rw [children_add_chain]
      split
      · rename_i hsome
        obtain ⟨c, hc⟩ := Option.isSome_iff_exists.1 hsome
        have hkey : key c.value = key w := (child?_eq_some hc).2
        -- the existing child is inner as well, so it stays as it is
        have hvalue : (addBelow key grow (w' :: ws) c).value = c.value :=
          value_addBelow fun _ => hgrown [key w] c.value (by simp [valueIn, hc]) (hkey ▸ hinner)
        match ks with
        | [] => rfl
        | [k] =>
            rw [valueIn, child?_map fun c => key_addBelow hgrow, valueIn]
            by_cases hk : k = key w
            · simp [hk, hc, hvalue]
            · simp [pathValue, hk]
        | k :: k' :: ks =>
            rw [valueIn, child?_map fun c => key_addBelow hgrow, valueIn]
            by_cases hk : k = key w
            · simp only [hk, hc, Option.map_some, if_true, Option.bind_some, pathValue]
              exact ih (hgrown.child hc) hrest (k' :: ks)
            · simp [pathValue, hk]
      · rename_i hnone
        have hnone : child? key (key w) t.children = none := by simpa using hnone
        match ks with
        | [] => rfl
        | [k] =>
            rw [valueIn, child?_append, valueIn]
            by_cases hk : k = key w
            · simp [pathValue, hk, hnone, chain]
            · simp [pathValue, hk, chain]
        | k :: k' :: ks =>
            rw [valueIn, child?_append, valueIn]
            by_cases hk : k = key w
            · simp only [hk, hnone, Option.none_or, chain, RoseTree.value_node, if_true, Option.bind_some,
                RoseTree.children_node, Option.bind_none, pathValue]
              exact valueIn_chain w' ws (k' :: ks)
            · simp [pathValue, hk, chain]

/-- On a path the value at inner keys is not changed by new children. -/
theorem PathOk.grow_eq : ∀ {vs : List α} {ks : List κ} {v : α}, PathOk key grow inner vs →
    pathValue key vs ks = some v → inner (key v) → grow v = v
  | [], _, _, h, _, _ => absurd h id
  | [w], [], _, _, hv, _ => by simp [pathValue] at hv
  | [w], [k], v, h, hv, hinner => by
      have hv : w = v := by
        simp only [pathValue] at hv
        split at hv
        · exact Option.some.inj hv
        · cases hv
      exact absurd (hv ▸ hinner) h
  | [w], k :: k' :: ks, _, _, hv, _ => by simp [pathValue] at hv
  | w :: w' :: ws, [], _, _, hv, _ => by simp [pathValue] at hv
  | w :: w' :: ws, [k], v, h, hv, _ => by
      have hv : w = v := by
        simp only [pathValue] at hv
        split at hv
        · exact Option.some.inj hv
        · cases hv
      exact hv ▸ h.2.1
  | w :: w' :: ws, k :: k' :: ks, v, h, hv, hinner => by
      simp only [pathValue] at hv
      split at hv
      · exact h.2.2.grow_eq hv hinner
      · cases hv

/-- A path of keys ends with the key of the value it leads to. -/
theorem getLast?_of_pathValue : ∀ {vs : List α} {ks : List κ} {v : α},
    pathValue key vs ks = some v → ks.getLast? = some (key v)
  | [], _, _, h => by simp [pathValue] at h
  | _ :: _, [], _, h => by simp [pathValue] at h
  | w :: _, [k], v, h => by
      simp only [pathValue] at h
      split at h
      · rename_i hk
        cases h
        rw [hk, List.getLast?_singleton]
      · cases h
  | w :: ws, k :: k' :: ks, v, h => by
      simp only [pathValue] at h
      split at h
      · rw [List.getLast?_cons_cons, getLast?_of_pathValue h]
      · cases h

/-- A node that is a single path. -/
def IsPath (key : α → κ) (grow : α → α) (inner : κ → Prop) (n : RoseTree α) : Prop :=
  ∃ w ws, n = chain w ws ∧ PathOk key grow inner (w :: ws)

theorem grown_add (hgrow : ∀ v, key (grow v) = key v) (hgrown : Grown key grow inner t.children)
    {n : RoseTree α} (hn : IsPath key grow inner n) : Grown key grow inner (add key grow n t).children := by
  obtain ⟨w, ws, rfl, hpath⟩ := hn
  intro ks v hv hinner
  rw [valueIn_add_chain hgrow hgrown hpath] at hv
  rcases Option.or_eq_some_iff.1 hv with hv | ⟨-, hv⟩
  · exact hgrown ks v hv hinner
  · exact hpath.grow_eq hv hinner

/-- After the paths of a list were added, a path of keys leads to the old value or
to that of the first path it is on. -/
theorem valueIn_addAll (hgrow : ∀ v, key (grow v) = key v) (ks : List κ) :
    ∀ (ns : List (RoseTree α)) (t : RoseTree α),
    (∀ n ∈ ns, IsPath key grow inner n) → Grown key grow inner t.children →
    valueIn key (addAll key grow ns t).children ks =
      (valueIn key t.children ks).or (ns.findSome? fun n => valueIn key [n] ks)
  | [], t, _, _ => by rw [addAll, List.findSome?_nil, Option.or_none]
  | n :: ns, t, hns, hgrown => by
      have hn := hns n List.mem_cons_self
      rw [addAll, valueIn_addAll hgrow ks ns _ (fun m hm => hns m (List.mem_cons_of_mem _ hm))
        (grown_add hgrow hgrown hn)]
      obtain ⟨w, ws, rfl, hpath⟩ := hn
      rw [valueIn_add_chain hgrow hgrown hpath, List.findSome?_cons, valueIn_chain, Option.or_assoc]
      cases pathValue key (w :: ws) ks with
      | none => rfl
      | some v => rfl

theorem valueIn_addAll_empty (hgrow : ∀ v, key (grow v) = key v) {ns : List (RoseTree α)} {r : α}
    (hns : ∀ n ∈ ns, IsPath key grow inner n) (ks : List κ) :
    valueIn key (addAll key grow ns (.node r [])).children ks =
      ns.findSome? fun n => valueIn key [n] ks := by
  rw [valueIn_addAll hgrow ks ns _ hns]
  · rw [RoseTree.children_node, valueIn_nil, Option.none_or]
  · intro ks v hv
    rw [RoseTree.children_node, valueIn_nil] at hv
    cases hv

/-- No two paths have different values at the same keys. -/
def Agree (key : α → κ) (ns : List (RoseTree α)) : Prop :=
  ∀ n ∈ ns, ∀ m ∈ ns, ∀ ks v w, valueIn key [n] ks = some v → valueIn key [m] ks = some w → v = w

theorem findSome?_valueIn {ns : List (RoseTree α)} (hagree : Agree key ns) (ks : List κ) :
    (ns.findSome? fun n => valueIn key [n] ks) = some v ↔ ∃ n ∈ ns, valueIn key [n] ks = some v := by
  constructor
  · exact List.exists_of_findSome?_eq_some
  · rintro ⟨n, hn, hv⟩
    cases hfind : ns.findSome? fun n => valueIn key [n] ks with
    | none =>
        have hnone := List.findSome?_eq_none_iff.1 hfind n hn
        rw [hv] at hnone
        cases hnone
    | some w =>
        obtain ⟨m, hm, hw⟩ := List.exists_of_findSome?_eq_some hfind
        rw [hagree n hn m hm ks v w hv hw]

/-- The values at the paths of keys do not depend on the order of the paths. -/
theorem valueIn_addAll_perm (hgrow : ∀ v, key (grow v) = key v) {ns ns' : List (RoseTree α)} {r : α}
    (hns : ∀ n ∈ ns, IsPath key grow inner n) (hagree : Agree key ns) (hperm : ns.Perm ns') (ks : List κ) :
    valueIn key (addAll key grow ns (.node r [])).children ks =
      valueIn key (addAll key grow ns' (.node r [])).children ks := by
  have hns' : ∀ n ∈ ns', IsPath key grow inner n := fun n hn => hns n (hperm.mem_iff.2 hn)
  have hagree' : Agree key ns' := fun n hn m hm =>
    hagree n (hperm.mem_iff.2 hn) m (hperm.mem_iff.2 hm)
  rw [valueIn_addAll_empty hgrow hns, valueIn_addAll_empty hgrow hns']
  refine Option.ext fun v => ?_
  rw [findSome?_valueIn hagree, findSome?_valueIn hagree']
  constructor
  · rintro ⟨n, hn, hv⟩
    exact ⟨n, hperm.mem_iff.1 hn, hv⟩
  · rintro ⟨n, hn, hv⟩
    exact ⟨n, hperm.mem_iff.2 hn, hv⟩

end

/-! ## The value at the root -/

theorem value_addAll (ns : List (RoseTree α)) (t : RoseTree α) (ht : grow t.value = t.value) :
    (addAll key grow ns t).value = t.value := by
  induction ns generalizing t with
  | nil => rfl
  | cons n ns ih =>
      have hn : (add key grow n t).value = t.value := value_add n ht
      rw [addAll, ih _ (by rw [hn, ht]), hn]

/-- A new child changes the value of a node without children, further ones do not. -/
theorem value_addAll_empty (hgrow : ∀ v, grow (grow v) = grow v) (ns : List (RoseTree α)) (r : α) :
    (addAll key grow ns (.node r [])).value = if ns = [] then r else grow r := by
  cases ns with
  | nil => rfl
  | cons n ns =>
      have hn : (add key grow n (.node r [])).value = grow r := by
        cases n with
        | node v cs => rfl
      rw [addAll, value_addAll ns _ (by rw [hn, hgrow]), hn, if_neg (List.cons_ne_nil _ _)]

/-! ## Trees with the same values -/

theorem valueIn_cons {k' : κ} (hc : child? key k cs = some c) :
    valueIn key cs (k :: k' :: ks) = valueIn key c.children (k' :: ks) := by
  rw [valueIn, hc, Option.bind_some]

theorem child?_of_valueIn (h : valueIn key cs [k] = some v) :
    ∃ c, child? key k cs = some c ∧ c.value = v := by
  rw [valueIn] at h
  exact Option.map_eq_some_iff.1 h

/-- Trees with distinct siblings are the same up to the order of the siblings when the
paths of keys lead to the same values. -/
theorem sameUpToOrder : ∀ t t' : RoseTree α, Distinct key t → Distinct key t' → t.value = t'.value →
    (∀ ks, valueIn key t.children ks = valueIn key t'.children ks) → SameUpToOrder t t'
  | .node v cs, .node v' cs', ht, ht', hvalue, hsame => by
      cases hvalue
      simp only [RoseTree.children_node] at hsame
      have hnodup : (cs.map fun c => key c.value).Nodup := ht.keys
      have hnodup' : (cs'.map fun c => key c.value).Nodup := ht'.keys
      have hpartner : ∀ c ∈ cs, ∃ c', child? key (key c.value) cs' = some c' ∧ c'.value = c.value := by
        intro c hc
        apply child?_of_valueIn
        rw [← hsame, valueIn, child?_of_mem hnodup hc]
        rfl
      -- each child next to the one with its key in the other tree
      let partner : RoseTree α → RoseTree α := fun c => (child? key (key c.value) cs').getD c
      have hvalues : ∀ c ∈ cs, (partner c).value = c.value := by
        intro c hc
        obtain ⟨c', hc', hv⟩ := hpartner c hc
        show ((child? key (key c.value) cs').getD c).value = c.value
        rw [hc', Option.getD_some, hv]
      refine .node v cs cs' (cs.map partner) ?_ ?_
      · rw [List.forall₂_map_right_iff, List.forall₂_same]
        intro c hc
        obtain ⟨c', hc', hv⟩ := hpartner c hc
        have hpart : partner c = c' := by
          show (child? key (key c.value) cs').getD c = c'
          rw [hc', Option.getD_some]
        rw [hpart]
        refine sameUpToOrder c c' (ht.of_mem hc) (ht'.of_mem (child?_eq_some hc').1) hv.symm ?_
        intro ks
        cases ks with
        | nil => rfl
        | cons k ks =>
            rw [← valueIn_cons (child?_of_mem hnodup hc), ← valueIn_cons hc', hsame]
      · have hkeys : ((cs.map partner).map fun c => key c.value) = cs.map fun c => key c.value := by
          rw [List.map_map]
          exact List.map_congr_left fun c hc => congrArg key (hvalues c hc)
        have hpartners : (cs.map partner).Nodup := by
          apply List.Nodup.of_map fun c => key c.value
          rw [hkeys]
          exact hnodup
        apply (List.perm_ext_iff_of_nodup hpartners (List.Nodup.of_map _ hnodup')).2
        intro c'
        constructor
        · intro hc'
          obtain ⟨c, hc, rfl⟩ := List.mem_map.1 hc'
          obtain ⟨c', hc', -⟩ := hpartner c hc
          show (child? key (key c.value) cs').getD c ∈ cs'
          rw [hc']
          exact (child?_eq_some hc').1
        · intro hc'
          have hfound := child?_of_mem hnodup' hc'
          obtain ⟨c, hc, hv⟩ : ∃ c, child? key (key c'.value) cs = some c ∧ c.value = c'.value := by
            apply child?_of_valueIn
            rw [hsame, valueIn, hfound]
            rfl
          refine List.mem_map.2 ⟨c, (child?_eq_some hc).1, ?_⟩
          show (child? key (key c.value) cs').getD c = c'
          rw [hv, hfound]
          rfl
termination_by t => sizeOf t
decreasing_by
  have hlt := List.sizeOf_lt_of_mem hc
  simp only [RoseTree.node.sizeOf_spec]
  omega

/-! ## Leaves -/

/-- A path of keys leads to a value and no further. -/
def IsLeaf (key : α → κ) (cs : List (RoseTree α)) (ks : List κ) (v : α) : Prop :=
  valueIn key cs ks = some v ∧ ∀ k, valueIn key cs (ks ++ [k]) = none

theorem not_isLeaf_nil : ¬IsLeaf key cs [] v := by
  intro h
  have hv : valueIn key cs [] = some v := h.1
  rw [valueIn] at hv
  cases hv

theorem valueIn_eq_none (h : child? key k cs = none) : valueIn key cs (k :: ks) = none := by
  cases ks with
  | nil => rw [valueIn, h, Option.map_none]
  | cons k' ks => rw [valueIn, h, Option.bind_none]

theorem valueIn_head (h : key c.value = k) :
    valueIn key (c :: cs) (k :: ks) = valueIn key [c] (k :: ks) := by
  have hchild : child? key k (c :: cs) = child? key k [c] := by simp [child?, h]
  cases ks with
  | nil => rw [valueIn, valueIn, hchild]
  | cons k' ks => rw [valueIn, valueIn, hchild]

theorem valueIn_tail (h : key c.value ≠ k) :
    valueIn key (c :: cs) (k :: ks) = valueIn key cs (k :: ks) := by
  have hchild : child? key k (c :: cs) = child? key k cs := by simp [child?, h]
  cases ks with
  | nil => rw [valueIn, valueIn, hchild]
  | cons k' ks => rw [valueIn, valueIn, hchild]

/-- A leaf below one of distinct siblings is below the first or below the others. -/
theorem isLeaf_cons (hkeys : ((c :: cs).map fun c => key c.value).Nodup) :
    IsLeaf key (c :: cs) ks v ↔ IsLeaf key [c] ks v ∨ IsLeaf key cs ks v := by
  cases ks with
  | nil =>
      constructor
      · exact fun h => absurd h not_isLeaf_nil
      · rintro (h | h)
        · exact absurd h not_isLeaf_nil
        · exact absurd h not_isLeaf_nil
  | cons k ks =>
      by_cases hk : key c.value = k
      · have hfirst : IsLeaf key (c :: cs) (k :: ks) v ↔ IsLeaf key [c] (k :: ks) v := by
          simp only [IsLeaf, List.cons_append, valueIn_head hk]
        have hnone : child? key k cs = none := by
          rw [child?_eq_none]
          intro d hd hkey
          apply (List.nodup_cons.1 hkeys).1
          exact List.mem_map.2 ⟨d, hd, hkey.trans hk.symm⟩
        have hothers : ¬IsLeaf key cs (k :: ks) v := by
          intro h
          have hv := h.1
          rw [valueIn_eq_none hnone] at hv
          cases hv
        rw [hfirst, or_iff_left hothers]
      · have hothers : IsLeaf key (c :: cs) (k :: ks) v ↔ IsLeaf key cs (k :: ks) v := by
          simp only [IsLeaf, List.cons_append, valueIn_tail hk]
        have hfirst : ¬IsLeaf key [c] (k :: ks) v := by
          intro h
          have hv := h.1
          rw [valueIn_tail hk, valueIn_nil] at hv
          cases hv
        rw [hothers, or_iff_right hfirst]

theorem isLeaf_single : IsLeaf key [.node v []] ks w ↔ ks = [key v] ∧ w = v := by
  have hv : ∀ ks, valueIn key [.node v []] ks = pathValue key [v] ks := valueIn_chain v []
  simp only [IsLeaf, hv]
  match ks with
  | [] => simp [pathValue]
  | [k] => simp [pathValue, eq_comm]
  | k :: k' :: ks => simp [pathValue]

theorem isLeaf_below : IsLeaf key [.node v (c :: cs)] ks w ↔
    ∃ ks', ks = key v :: ks' ∧ IsLeaf key (c :: cs) ks' w := by
  have hchild : child? key (key v) [.node v (c :: cs)] = some (.node v (c :: cs)) := by simp [child?]
  cases ks with
  | nil =>
      constructor
      · exact fun h => absurd h not_isLeaf_nil
      · rintro ⟨ks', hks, -⟩
        cases hks
  | cons k ks =>
      by_cases hk : key v = k
      · cases hk
        have hbelow : IsLeaf key [.node v (c :: cs)] (key v :: ks) w ↔ IsLeaf key (c :: cs) ks w := by
          cases ks with
          | nil =>
              -- the node has a child, so the path may go on
              constructor
              · intro h
                have hnone := h.2 (key c.value)
                rw [List.singleton_append, valueIn_cons hchild, RoseTree.children_node, valueIn] at hnone
                simp [child?] at hnone
              · exact fun h => absurd h not_isLeaf_nil
          | cons k' ks =>
              simp only [IsLeaf, List.cons_append, valueIn_cons hchild, RoseTree.children_node]
        rw [hbelow]
        constructor
        · exact fun h => ⟨ks, rfl, h⟩
        · rintro ⟨ks', hks, h⟩
          cases hks
          exact h
      · constructor
        · intro h
          have hv := h.1
          rw [valueIn_tail hk, valueIn_nil] at hv
          cases hv
        · rintro ⟨ks', hks, -⟩
          cases hks
          exact absurd rfl hk

mutual

theorem mem_leaves : ∀ t : RoseTree α, Distinct key t → ∀ ks v, (ks, v) ∈ leaves key t ↔ IsLeaf key [t] ks v
  | .node v [], _, ks, w => by
      rw [leaves, List.mem_singleton, Prod.mk.injEq, isLeaf_single]
  | .node v (c :: cs), ht, ks, w => by
      rw [leaves, List.mem_map, isLeaf_below]
      have hbelow := mem_leavesAll (c :: cs) ht.keys fun d hd => ht.of_mem hd
      constructor
      · rintro ⟨⟨ks', w'⟩, hl, heq⟩
        cases heq
        exact ⟨ks', rfl, (hbelow ks' w').1 hl⟩
      · rintro ⟨ks', rfl, hl⟩
        exact ⟨(ks', w), (hbelow ks' w).2 hl, rfl⟩

/-- The listed leaves of trees with distinct keys are their leaves. -/
theorem mem_leavesAll : ∀ cs : List (RoseTree α), (cs.map fun c => key c.value).Nodup →
    (∀ c ∈ cs, Distinct key c) → ∀ ks v, (ks, v) ∈ leavesAll key cs ↔ IsLeaf key cs ks v
  | [], _, _, ks, w => by
      rw [leavesAll, IsLeaf, valueIn_nil]
      simp
  | c :: cs, hkeys, hcs, ks, w => by
      have hrest := mem_leavesAll cs (List.nodup_cons.1 hkeys).2
        (fun d hd => hcs d (List.mem_cons_of_mem _ hd)) ks w
      rw [leavesAll, List.mem_append, mem_leaves c (hcs c List.mem_cons_self), hrest, isLeaf_cons hkeys]

end

omit [DecidableEq κ] in
theorem head_leaves (t : RoseTree α) : ∀ l ∈ leaves key t, l.1.head? = some (key t.value) := by
  match t with
  | .node v [] =>
      intro l hl
      rw [leaves, List.mem_singleton] at hl
      rw [hl]
      rfl
  | .node v (c :: cs) =>
      intro l hl
      rw [leaves] at hl
      obtain ⟨l', -, rfl⟩ := List.mem_map.1 hl
      rfl

omit [DecidableEq κ] in
theorem head_leavesAll : ∀ cs : List (RoseTree α), ∀ l ∈ leavesAll key cs,
    ∃ c ∈ cs, l.1.head? = some (key c.value)
  | [], l, hl => by
      rw [leavesAll] at hl
      exact absurd hl List.not_mem_nil
  | c :: cs, l, hl => by
      rw [leavesAll] at hl
      rcases List.mem_append.1 hl with hl | hl
      · exact ⟨c, List.mem_cons_self, head_leaves c l hl⟩
      · obtain ⟨d, hd, hhead⟩ := head_leavesAll cs l hl
        exact ⟨d, List.mem_cons_of_mem _ hd, hhead⟩

omit [DecidableEq κ] in
mutual

theorem nodup_leaves : ∀ t : RoseTree α, Distinct key t → ((leaves key t).map Prod.fst).Nodup
  | .node v [], _ => by
      rw [leaves]
      exact List.nodup_singleton _
  | .node v (c :: cs), ht => by
      have hbelow := nodup_leavesAll (c :: cs) ht.keys fun d hd => ht.of_mem hd
      have hmap : ((leavesAll key (c :: cs)).map fun l => (key v :: l.1, l.2)).map Prod.fst =
          ((leavesAll key (c :: cs)).map Prod.fst).map (key v :: ·) := by
        rw [List.map_map, List.map_map]
        rfl
      rw [leaves, hmap]
      exact hbelow.map fun _ _ h => (List.cons.inj h).2

/-- No two leaves of trees with distinct keys are at the same path. -/
theorem nodup_leavesAll : ∀ cs : List (RoseTree α), (cs.map fun c => key c.value).Nodup →
    (∀ c ∈ cs, Distinct key c) → ((leavesAll key cs).map Prod.fst).Nodup
  | [], _, _ => by
      rw [leavesAll]
      exact List.nodup_nil
  | c :: cs, hkeys, hcs => by
      rw [leavesAll, List.map_append, List.nodup_append]
      refine ⟨nodup_leaves c (hcs c List.mem_cons_self), nodup_leavesAll cs (List.nodup_cons.1 hkeys).2
        fun d hd => hcs d (List.mem_cons_of_mem _ hd), ?_⟩
      intro ks hks ks' hks' heq
      obtain ⟨l, hl, rfl⟩ := List.mem_map.1 hks
      obtain ⟨l', hl', rfl⟩ := List.mem_map.1 hks'
      obtain ⟨d, hd, hhead⟩ := head_leavesAll cs l' hl'
      rw [← heq, head_leaves c l hl] at hhead
      apply (List.nodup_cons.1 hkeys).1
      exact List.mem_map.2 ⟨d, hd, (Option.some.inj hhead).symm⟩

end

omit [DecidableEq κ] in
theorem leaves_chain : ∀ (w : α) (ws : List α),
    leaves key (chain w ws) = [((w :: ws).map key, (w :: ws).getLast (List.cons_ne_nil _ _))]
  | w, [] => by
      rw [chain, leaves]
      rfl
  | w, w' :: ws => by
      have hrest := leaves_chain w' ws
      rw [chain, leaves, leavesAll, leavesAll, hrest]
      rfl

omit [DecidableEq κ] in
/-- The value at the end of a path is not inner. -/
theorem PathOk.getLast {inner : κ → Prop} : ∀ {w : α} {ws : List α},
    PathOk key grow inner (w :: ws) → ¬inner (key ((w :: ws).getLast (List.cons_ne_nil _ _)))
  | _, [], h => h
  | _, _ :: _, h => h.2.2.getLast

/-- The values before another one on a path are inner. -/
theorem PathOk.before {inner : κ → Prop} : ∀ {vs : List α} {k : κ} {ks : List κ} {k' : κ} {w : α},
    PathOk key grow inner vs → pathValue key vs (k :: ks ++ [k']) = some w →
    ∃ v, pathValue key vs (k :: ks) = some v ∧ inner (key v)
  | [], _, _, _, _, h, _ => absurd h id
  | [v], _, [], _, _, _, hw => by simp [pathValue] at hw
  | [v], _, _ :: _, _, _, _, hw => by simp [pathValue] at hw
  | v :: v' :: vs, k, [], k', w, h, hw => by
      simp only [List.cons_append, List.nil_append, pathValue] at hw
      split at hw
      · rename_i hk
        exact ⟨v, by rw [pathValue, if_pos hk], h.1⟩
      · cases hw
  | v :: v' :: vs, k, k₁ :: ks, k', w, h, hw => by
      simp only [List.cons_append, pathValue] at hw
      split at hw
      · rename_i hk
        obtain ⟨u, hu, hinner⟩ := h.2.2.before hw
        exact ⟨u, by rw [pathValue, if_pos hk, hu], hinner⟩
      · cases hw

/-- The leaves of the tree built from paths are the ends of the paths. -/
theorem mem_leavesAll_addAll {inner : κ → Prop} (hgrow : ∀ v, key (grow v) = key v)
    {ns : List (RoseTree α)} {r : α}
    (hns : ∀ n ∈ ns, IsPath key grow inner n) (hagree : Agree key ns) :
    (ks, v) ∈ leavesAll key (addAll key grow ns (.node r [])).children ↔ ∃ n ∈ ns, (ks, v) ∈ leaves key n := by
  have hdistinct : ∀ n ∈ ns, Distinct key n := by
    intro n hn
    obtain ⟨w, ws, rfl, -⟩ := hns n hn
    exact distinct_chain w ws
  have hempty : Distinct key (.node r [] : RoseTree α) := distinct_chain r []
  have htree := distinct_addAll hgrow ns _ hdistinct hempty
  have hvalues : ∀ ks u, valueIn key (addAll key grow ns (.node r [])).children ks = some u ↔
      ∃ n ∈ ns, valueIn key [n] ks = some u := by
    intro ks u
    rw [valueIn_addAll_empty hgrow hns]
    exact findSome?_valueIn hagree ks
  rw [mem_leavesAll _ htree.keys fun c hc => htree.of_mem hc]
  constructor
  · rintro ⟨hv, hend⟩
    obtain ⟨n, hn, hvn⟩ := (hvalues ks v).1 hv
    refine ⟨n, hn, (mem_leaves n (hdistinct n hn) ks v).2 ⟨hvn, fun k => ?_⟩⟩
    cases hk : valueIn key [n] (ks ++ [k]) with
    | none => rfl
    | some u =>
        have hu := (hvalues (ks ++ [k]) u).2 ⟨n, hn, hk⟩
        rw [hend k] at hu
        cases hu
  · rintro ⟨n, hn, hl⟩
    have hleaf := (mem_leaves n (hdistinct n hn) ks v).1 hl
    refine ⟨(hvalues ks v).2 ⟨n, hn, hleaf.1⟩, fun k => ?_⟩
    cases hk : valueIn key (addAll key grow ns (.node r [])).children (ks ++ [k]) with
    | none => rfl
    | some u =>
        obtain ⟨m, hm, hu⟩ := (hvalues (ks ++ [k]) u).1 hk
        exfalso
        cases ks with
        | nil => exact not_isLeaf_nil hleaf
        | cons k₀ ks =>
            -- a path that leads further has an inner value here
            obtain ⟨w, ws, rfl, hpath⟩ := hns m hm
            rw [valueIn_chain] at hu
            obtain ⟨v', hv', hinner⟩ := hpath.before hu
            rw [← valueIn_chain] at hv'
            have hsame := hagree n hn _ hm (k₀ :: ks) v v' hleaf.1 hv'
            obtain ⟨w₁, ws₁, rfl, hpath₁⟩ := hns n hn
            rw [leaves_chain, List.mem_singleton] at hl
            apply hpath₁.getLast
            rw [← (Prod.mk.inj hl).2, hsame]
            exact hinner

end KeyedTree
