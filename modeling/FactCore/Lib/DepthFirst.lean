import Mathlib.Data.Finset.Card
import Mathlib.Data.List.Nodup
import Mathlib.Data.List.Perm.Basic
import Mathlib.Logic.Relation

/-! # Depth-first search with a visited list

A search that collects values. A node is skipped if its key was seen before;
otherwise it is expanded into values and further nodes, from left to right. The
expansion of a node may raise, which ends the search, or not end itself.

The values found are those of the nodes that were expanded, each node once; the
search returns if only finitely many keys can be reached, whether or not there are
cycles; and it misses nothing if different nodes have different keys.
-/

universe u v w x

namespace DepthFirst

variable {α : Type u} {β : Type v} {κ : Type w} {ε : Type x}

/-- An expansion: values and nodes in their order. -/
abbrev Parts (α : Type u) (β : Type v) := List (List β ⊕ α)

/-- The outcome of a search: what was found, and the keys seen by then. -/
abbrev Outcome (β : Type v) (κ : Type w) (ε : Type x) := Option (Except ε (List β × List κ))

/-- What comes after a search that returns. -/
def andThen (outcome : Outcome β κ ε) (f : List β → List κ → Outcome β κ ε) : Outcome β κ ε :=
  match outcome with
  | none => none
  | some (.error e) => some (.error e)
  | some (.ok (found, seen)) => f found seen

theorem andThen_eq_ok {outcome : Outcome β κ ε} {f : List β → List κ → Outcome β κ ε}
    {r : List β × List κ} : andThen outcome f = some (.ok r) ↔
      ∃ found seen, outcome = some (.ok (found, seen)) ∧ f found seen = some (.ok r) := by
  rcases outcome with _ | _ | ⟨found, seen⟩ <;> simp [andThen]

/-- The loop over the parts. -/
def visitAll (visit : α → List κ → Outcome β κ ε) : Parts α β → List κ → Outcome β κ ε
  | [], seen => some (.ok ([], seen))
  | .inl values :: rest, seen =>
      andThen (visitAll visit rest seen) fun found seen' => some (.ok (values ++ found, seen'))
  | .inr a :: rest, seen =>
      andThen (visit a seen) fun values seen' =>
        andThen (visitAll visit rest seen') fun found seen'' =>
          some (.ok (values ++ found, seen''))

variable [DecidableEq κ] (key : α → κ) (expand : α → Option (Except ε (Parts α β)))

/-- The search from a node. -/
def visit : Nat → α → List κ → Outcome β κ ε
  | 0, _, _ => none
  | n + 1, a, seen =>
      if key a ∈ seen then some (.ok ([], seen))
      else
        match expand a with
        | none => none
        | some (.error e) => some (.error e)
        | some (.ok parts) => visitAll (visit n) parts (seen ++ [key a])

/-! ## What was expanded -/

/-- The values that a node has itself. -/
def own (parts : Parts α β) : List β := parts.flatMap fun part => part.elim id fun _ => []

/-- The nodes of an expansion. -/
def nodes (parts : Parts α β) : List α := parts.filterMap fun part => part.getRight?

/-- The second node is in the expansion of the first. -/
def Next (a b : α) : Prop := ∃ parts, expand a = some (.ok parts) ∧ b ∈ nodes parts

/-- The node can be reached. -/
def Reachable (a b : α) : Prop := Relation.ReflTransGen (Next expand) a b

/-- The values of the expanded nodes. -/
def valuesOf (a : α) : List β :=
  match expand a with
  | some (.ok parts) => own parts
  | _ => []

/-- What a search did: the nodes it expanded. -/
structure Expanded (starts : List α) (seen : List κ) (found : List β) (seen' : List κ)
    (order : List α) : Prop where
  keys : seen' = seen ++ order.map key
  nodup : (order.map key).Nodup
  fresh : ∀ a ∈ order, key a ∉ seen
  values : found.Perm (order.flatMap (valuesOf expand))
  reachable : ∀ b ∈ order, ∃ a ∈ starts, Reachable expand a b
  closed : ∀ b ∈ order, ∀ c, Next expand b c → key c ∈ seen'
  started : ∀ a ∈ starts, key a ∈ seen'

variable {key expand}

theorem nodes_cons_inl (values : List β) (rest : Parts α β) :
    nodes (.inl values :: rest) = nodes rest := rfl

theorem nodes_cons_inr (a : α) (rest : Parts α β) :
    nodes (.inr a :: rest) = a :: nodes rest := rfl

theorem own_cons_inl (values : List β) (rest : Parts α β) :
    own (.inl values :: rest) = values ++ own rest := rfl

theorem own_cons_inr (a : α) (rest : Parts α β) : own (.inr a :: rest) = own rest := rfl

omit [DecidableEq κ] in
/-- One search after the other. -/
theorem Expanded.append {starts starts' : List α} {seen seen' seen'' : List κ}
    {found found' : List β} {order order' : List α}
    (h : Expanded key expand starts seen found seen' order)
    (h' : Expanded key expand starts' seen' found' seen'' order') :
    Expanded key expand (starts ++ starts') seen (found ++ found') seen'' (order ++ order') where
  keys := by rw [h'.keys, h.keys, List.map_append, List.append_assoc]
  nodup := by
    rw [List.map_append]
    refine h.nodup.append h'.nodup fun k hk hk' => ?_
    obtain ⟨a, ha, rfl⟩ := List.mem_map.1 hk'
    refine h'.fresh a ha ?_
    rw [h.keys]
    exact List.mem_append_right _ hk
  fresh := by
    intro a ha hseen
    rcases List.mem_append.1 ha with ha | ha
    · exact h.fresh a ha hseen
    · refine h'.fresh a ha ?_
      rw [h.keys]
      exact List.mem_append_left _ hseen
  values := by
    rw [List.flatMap_append]
    exact h.values.append h'.values
  reachable := by
    intro b hb
    rcases List.mem_append.1 hb with hb | hb
    · obtain ⟨a, ha, hab⟩ := h.reachable b hb
      exact ⟨a, List.mem_append_left _ ha, hab⟩
    · obtain ⟨a, ha, hab⟩ := h'.reachable b hb
      exact ⟨a, List.mem_append_right _ ha, hab⟩
  closed := by
    intro b hb c hc
    rcases List.mem_append.1 hb with hb | hb
    · rw [h'.keys]
      exact List.mem_append_left _ (h.closed b hb c hc)
    · exact h'.closed b hb c hc
  started := by
    intro a ha
    rcases List.mem_append.1 ha with ha | ha
    · rw [h'.keys]
      exact List.mem_append_left _ (h.started a ha)
    · exact h'.started a ha

omit [DecidableEq κ] in
/-- The loop over the parts, given what the search from each node does. -/
theorem expanded_visitAll {search : α → List κ → Outcome β κ ε}
    (hsearch : ∀ a seen found seen', search a seen = some (.ok (found, seen')) →
      ∃ order, Expanded key expand [a] seen found seen' order)
    {parts : Parts α β} {seen : List κ} {found : List β} {seen' : List κ}
    (h : visitAll search parts seen = some (.ok (found, seen'))) :
    ∃ found' order, found.Perm (own parts ++ found') ∧
      Expanded key expand (nodes parts) seen found' seen' order := by
  induction parts generalizing seen found with
  | nil =>
      obtain ⟨rfl, rfl⟩ : [] = found ∧ seen = seen' := by simpa [visitAll] using h
      exact ⟨[], [], by simp [own], by simp, by simp, by simp, by simp, by simp, by simp,
        by simp [nodes]⟩
  | cons part rest ih =>
      cases part with
      | inl values =>
          obtain ⟨found₁, seen₁, hrest, hok⟩ := andThen_eq_ok.1 h
          obtain ⟨rfl, rfl⟩ : values ++ found₁ = found ∧ seen₁ = seen' := by simpa using hok
          obtain ⟨found', order, hperm, hexp⟩ := ih hrest
          refine ⟨found', order, ?_, by rwa [nodes_cons_inl]⟩
          rw [own_cons_inl, List.append_assoc]
          exact hperm.append_left _
      | inr a =>
          obtain ⟨values, seen₁, ha, hafter⟩ := andThen_eq_ok.1 h
          obtain ⟨found₁, seen₂, hrest, hok⟩ := andThen_eq_ok.1 hafter
          obtain ⟨rfl, rfl⟩ : values ++ found₁ = found ∧ seen₂ = seen' := by simpa using hok
          obtain ⟨order, hexp⟩ := hsearch a seen values seen₁ ha
          obtain ⟨found', order', hperm, hexp'⟩ := ih hrest
          refine ⟨values ++ found', order ++ order', ?_, ?_⟩
          · rw [own_cons_inr]
            refine (hperm.append_left values).trans ?_
            rw [← List.append_assoc, ← List.append_assoc]
            exact List.perm_append_comm.append_right _
          · rw [nodes_cons_inr]
            exact hexp.append hexp'

/-- What the search from a node expands. -/
theorem expanded_visit {n : Nat} {a : α} {seen : List κ} {found : List β} {seen' : List κ}
    (h : visit key expand n a seen = some (.ok (found, seen'))) :
    ∃ order, Expanded key expand [a] seen found seen' order := by
  induction n generalizing a seen found seen' with
  | zero => cases h
  | succ n ih =>
      rw [visit] at h
      by_cases hseen : key a ∈ seen
      · rw [if_pos hseen] at h
        obtain ⟨rfl, rfl⟩ : [] = found ∧ seen = seen' := by simpa using h
        exact ⟨[], by simp, by simp, by simp, by simp, by simp, by simp, by simpa using hseen⟩
      · rw [if_neg hseen] at h
        cases hexpand : expand a with
        | none => simp [hexpand] at h
        | some outcome =>
            cases outcome with
            | error e => simp [hexpand] at h
            | ok parts =>
                rw [hexpand] at h
                obtain ⟨found', order, hperm, hexp⟩ :=
                  expanded_visitAll (fun _ _ _ _ => ih) h
                have hseen' : seen' = seen ++ key a :: order.map key := by
                  rw [hexp.keys, List.append_assoc, List.singleton_append]
                refine ⟨a :: order, hseen', ?_, ?_, ?_, ?_, ?_, ?_⟩
                · rw [List.map_cons, List.nodup_cons]
                  refine ⟨fun hmem => ?_, hexp.nodup⟩
                  obtain ⟨b, hb, hkey⟩ := List.mem_map.1 hmem
                  exact hexp.fresh b hb (by simp [hkey])
                · intro b hb
                  rcases List.mem_cons.1 hb with rfl | hb
                  · exact hseen
                  · exact fun hmem => hexp.fresh b hb (List.mem_append_left _ hmem)
                · have hown : valuesOf expand a = own parts := by simp [valuesOf, hexpand]
                  rw [List.flatMap_cons, hown]
                  exact hperm.trans (hexp.values.append_left _)
                · intro b hb
                  rcases List.mem_cons.1 hb with rfl | hb
                  · exact ⟨b, List.mem_cons_self, .refl⟩
                  · obtain ⟨c, hc, hcb⟩ := hexp.reachable b hb
                    exact ⟨a, List.mem_cons_self, .head ⟨parts, hexpand, hc⟩ hcb⟩
                · intro b hb c hc
                  rcases List.mem_cons.1 hb with rfl | hb
                  · obtain ⟨parts', hparts', hc⟩ := hc
                    rw [hexpand] at hparts'
                    cases hparts'
                    exact hexp.started c hc
                  · exact hexp.closed b hb c hc
                · simp [hseen']

/-! ## Soundness and completeness -/

/-- A value that is found is a value of a node that can be reached. -/
theorem exists_of_mem_visit {n : Nat} {a : α} {seen seen' : List κ} {found : List β} {x : β}
    (h : visit key expand n a seen = some (.ok (found, seen'))) (hx : x ∈ found) :
    ∃ b, Reachable expand a b ∧ x ∈ valuesOf expand b := by
  obtain ⟨order, hexp⟩ := expanded_visit h
  obtain ⟨b, hb, hxb⟩ := List.mem_flatMap.1 (hexp.values.mem_iff.1 hx)
  obtain ⟨a', ha', hab⟩ := hexp.reachable b hb
  rw [List.mem_singleton.1 ha'] at hab
  exact ⟨b, hab, hxb⟩

/-- With a key for each node that can be reached, the search expands exactly these
nodes, each of them once. -/
theorem exists_order {n : Nat} {a : α} {found : List β} {seen' : List κ}
    (h : visit key expand n a [] = some (.ok (found, seen')))
    (hkey : ∀ b c, Reachable expand a b → Reachable expand a c → key b = key c → b = c) :
    ∃ order : List α, order.Nodup ∧ (∀ b, b ∈ order ↔ Reachable expand a b) ∧
      found.Perm (order.flatMap (valuesOf expand)) := by
  obtain ⟨order, hexp⟩ := expanded_visit h
  have hreach : ∀ b ∈ order, Reachable expand a b := by
    intro b hb
    obtain ⟨a', ha', hab⟩ := hexp.reachable b hb
    rwa [List.mem_singleton.1 ha'] at hab
  -- a key that was seen belongs to a node that was expanded
  have hmem : ∀ b, Reachable expand a b → key b ∈ seen' → b ∈ order := by
    intro b hb hseen
    rw [hexp.keys, List.nil_append] at hseen
    obtain ⟨c, hc, hcb⟩ := List.mem_map.1 hseen
    rwa [← hkey c b (hreach c hc) hb hcb]
  refine ⟨order, .of_map key hexp.nodup, fun b => ⟨hreach b, fun hb => ?_⟩, hexp.values⟩
  induction hb with
  | refl => exact hmem a .refl (hexp.started a List.mem_cons_self)
  | tail hb hnext ih => exact hmem _ (hb.tail hnext) (hexp.closed _ ih _ hnext)

/-! ## Termination -/

omit [DecidableEq κ] in
theorem exists_visitAll {search : α → List κ → Outcome β κ ε} {P : List κ → Prop}
    {parts : Parts α β}
    (hsearch : ∀ a ∈ nodes parts, ∀ seen, P seen → ∃ found seen',
      search a seen = some (.ok (found, seen')) ∧ P seen') {seen : List κ} (hseen : P seen) :
    ∃ found seen', visitAll search parts seen = some (.ok (found, seen')) ∧ P seen' := by
  induction parts generalizing seen with
  | nil => exact ⟨[], seen, rfl, hseen⟩
  | cons part rest ih =>
      cases part with
      | inl values =>
          obtain ⟨found, seen', hrest, hP⟩ := ih hsearch hseen
          exact ⟨values ++ found, seen', by simp [visitAll, andThen, hrest], hP⟩
      | inr a =>
          obtain ⟨values, seen', ha, hP⟩ := hsearch a List.mem_cons_self seen hseen
          obtain ⟨found, seen'', hrest, hP'⟩ :=
            ih (fun b hb => hsearch b (List.mem_cons_of_mem _ hb)) hP
          exact ⟨values ++ found, seen'', by simp [visitAll, andThen, ha, hrest], hP'⟩

/-- If only keys of a finite set can be reached and no expansion raises, the search
returns. -/
theorem visit_returns {keys : Finset κ} {n : Nat} {a : α} {seen : List κ}
    (hkeys : ∀ b, Reachable expand a b → key b ∈ keys)
    (hexpand : ∀ b, Reachable expand a b → ∃ parts, expand b = some (.ok parts))
    (hn : (keys \ seen.toFinset).card < n) :
    ∃ found seen', visit key expand n a seen = some (.ok (found, seen')) ∧ seen ⊆ seen' := by
  induction n generalizing a seen with
  | zero => omega
  | succ n ih =>
      rw [visit]
      by_cases hseen : key a ∈ seen
      · rw [if_pos hseen]
        exact ⟨[], seen, rfl, List.Subset.refl _⟩
      · rw [if_neg hseen]
        obtain ⟨parts, hparts⟩ := hexpand a .refl
        rw [hparts]
        have hin : key a ∈ keys \ seen.toFinset :=
          Finset.mem_sdiff.2 ⟨hkeys a .refl, by simpa using hseen⟩
        -- below the node, its key is no longer free
        have hless : ∀ seen', seen ++ [key a] ⊆ seen' → (keys \ seen'.toFinset).card < n := by
          intro seen' hsub
          have hsubset : keys \ seen'.toFinset ⊆ (keys \ seen.toFinset).erase (key a) := by
            intro k hk
            obtain ⟨hk, hk'⟩ := Finset.mem_sdiff.1 hk
            rw [List.mem_toFinset] at hk'
            refine Finset.mem_erase.2 ⟨?_, Finset.mem_sdiff.2 ⟨hk, ?_⟩⟩
            · rintro rfl
              exact hk' (hsub (by simp))
            · rw [List.mem_toFinset]
              exact fun hmem => hk' (hsub (List.mem_append_left _ hmem))
          have hcard := Finset.card_le_card hsubset
          rw [Finset.card_erase_of_mem hin] at hcard
          have hpos : 0 < (keys \ seen.toFinset).card := Finset.card_pos.2 ⟨_, hin⟩
          omega
        have hbelow : ∀ b ∈ nodes parts, ∀ seen', seen ++ [key a] ⊆ seen' → ∃ found seen'',
            visit key expand n b seen' = some (.ok (found, seen'')) ∧
              seen ++ [key a] ⊆ seen'' := by
          intro b hb seen' hsub
          have hab : Next expand a b := ⟨parts, hparts, hb⟩
          obtain ⟨found, seen'', hvisit, hsub'⟩ := ih
            (fun c hc => hkeys c (.head hab hc)) (fun c hc => hexpand c (.head hab hc))
            (hless seen' hsub)
          exact ⟨found, seen'', hvisit, List.Subset.trans hsub hsub'⟩
        obtain ⟨found, seen', hall, hsub⟩ := exists_visitAll hbelow (List.Subset.refl _)
        exact ⟨found, seen', hall, List.Subset.trans (List.subset_append_left _ _) hsub⟩

end DepthFirst
