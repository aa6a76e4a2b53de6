import FactCore.Lib.Regex

/-! # Runs of a unit

An expression `r{n,}` whose unit `r` matches some texts, the units, in one way only. If a
unit has a mark at its front that does not occur in its rest, the matches from left to right are
all maximal runs of at least `n` units.
-/

universe u

namespace Regex

variable {α : Type u} [DecidableEq α]

/-- `r{n,}`. -/
def atLeast (r : Regex α) (n : Nat) : Regex α := times r n ++ star true r

/-- The matches from left to right, each with the offset where it starts, after some characters
of an earlier match; for an expression that does not match the empty text. -/
def spansFrom (r : Regex α) : Nat → Nat → List α → List (Nat × List α)
  | _, _, [] => []
  | offset, skip + 1, _ :: s => spansFrom r (offset + 1) skip s
  | offset, 0, x :: s =>
      match matchFront r (x :: s) with
      | some (_, rest) => (offset, (x :: s).take (s.length + 1 - rest.length)) ::
          spansFrom r (offset + 1) (s.length - rest.length) s
      | none => spansFrom r (offset + 1) 0 s

/-- `match.start()` and `match.group()` of each match of `re.finditer`. -/
def spans (r : Regex α) (s : List α) : List (Nat × List α) := spansFrom r 0 0 s

section

variable {r : Regex α} {c : Captures α} {w rest s : List α} {offset skip : Nat}

theorem spansFrom_skip (x : α) (s : List α) :
    spansFrom r offset (skip + 1) (x :: s) = spansFrom r (offset + 1) skip s := rfl

theorem spansFrom_zero (x : α) (s : List α) :
    spansFrom r offset 0 (x :: s) =
      match matchFront r (x :: s) with
      | some (_, rest) => (offset, (x :: s).take (s.length + 1 - rest.length)) ::
          spansFrom r (offset + 1) (s.length - rest.length) s
      | none => spansFrom r (offset + 1) 0 s := rfl

theorem spansFrom_length (l : List α) :
    spansFrom r offset l.length (l ++ rest) = spansFrom r (offset + l.length) 0 rest := by
  induction l generalizing offset with
  | nil => rfl
  | cons x l ih =>
      rw [List.length_cons, List.cons_append, spansFrom_skip, ih]
      congr 1
      omega

/-- A match at the front is found, and the search goes on behind it. -/
theorem spansFrom_of_matchFront (h : matchFront r (w ++ rest) = some (c, rest)) (hne : w ≠ []) :
    spansFrom r offset 0 (w ++ rest) = (offset, w) :: spansFrom r (offset + w.length) 0 rest := by
  obtain ⟨x, w, rfl⟩ := List.exists_cons_of_ne_nil hne
  have hlen : (w ++ rest).length - rest.length = w.length := by
    rw [List.length_append]
    omega
  have htake : (x :: (w ++ rest)).take ((w ++ rest).length + 1 - rest.length) = x :: w := by
    rw [show (w ++ rest).length + 1 - rest.length = (x :: w).length by
      rw [List.length_append, List.length_cons]; omega, ← List.cons_append, List.take_left]
  rw [List.cons_append] at h
  rw [List.cons_append, spansFrom_zero, h]
  simp only [htake, hlen, spansFrom_length, List.length_cons]
  congr 2
  omega

/-- A piece in which no match starts is skipped. -/
theorem spansFrom_of_no_match {l : List α}
    (h : ∀ a b, l = a ++ b → b ≠ [] → matchFront r (b ++ rest) = none) :
    spansFrom r offset 0 (l ++ rest) = spansFrom r (offset + l.length) 0 rest := by
  induction l generalizing offset with
  | nil => rfl
  | cons x l ih =>
      have hfront := h [] (x :: l) rfl (List.cons_ne_nil x l)
      rw [List.cons_append] at hfront
      rw [List.cons_append, spansFrom_zero, hfront]
      refine (ih fun a b hl hb => h (x :: a) b (by rw [hl]; rfl) hb).trans ?_
      rw [List.length_cons]
      congr 1
      omega

/-- The matches stand one behind the other. -/
theorem pairwise_spansFrom :
    (∀ span ∈ spansFrom r offset skip s, offset + skip ≤ span.1) ∧
      (spansFrom r offset skip s).Pairwise fun a b => a.1 + a.2.length ≤ b.1 := by
  induction s generalizing offset skip with
  | nil => cases skip <;> exact ⟨fun span hspan => absurd hspan List.not_mem_nil, .nil⟩
  | cons x s ih =>
      cases skip with
      | succ skip =>
          refine ⟨fun span hspan => ?_, ih.2⟩
          have hle := (@ih (offset + 1) skip).1 span hspan
          omega
      | zero =>
          rw [spansFrom_zero]
          split
          next c rest hfront =>
            -- the characters of the match are skipped before the next one is looked for
            have hafter := @ih (offset + 1) (s.length - rest.length)
            have hlen : ((x :: s).take (s.length + 1 - rest.length)).length ≤
                s.length - rest.length + 1 := by
              rw [List.length_take]
              omega
            refine ⟨fun span hspan => ?_, List.pairwise_cons.2 ⟨fun span hspan => ?_, hafter.2⟩⟩
            · rcases List.mem_cons.1 hspan with rfl | hspan
              · exact Nat.le_refl _
              · have hle := hafter.1 span hspan
                omega
            · have hle := hafter.1 span hspan
              show offset + ((x :: s).take (s.length + 1 - rest.length)).length ≤ span.1
              omega
          next =>
            have hafter := @ih (offset + 1) 0
            exact ⟨fun span hspan => by have hle := hafter.1 span hspan; omega, hafter.2⟩

theorem pairwise_spans : (spans r s).Pairwise fun a b => a.1 + a.2.length ≤ b.1 :=
  pairwise_spansFrom.2

end

/-! ## Units -/

/-- What a unit is: `r` matches it in one way, whatever follows, and matches nothing else. It
has a mark at its front that does not occur in its rest. -/
structure Units (r : Regex α) (IsUnit : List α → Prop) : Prop where
  hit : ∀ c u rest, IsUnit u → runs r (c, u ++ rest) = [(c, rest)]
  miss : ∀ c s, (∀ u, IsUnit u → ¬u <+: s) → runs r (c, s) = []
  marked : ∃ mark : α → Prop, ∀ u, IsUnit u →
    ∃ x tail, u = x :: tail ∧ mark x ∧ ∀ y ∈ tail, ¬mark y

/-- Units one behind the other, as many as there are between the two texts. -/
structure MaximalRun (IsUnit : List α → Prop) (n : Nat) (before w after : List α) : Prop where
  units : ∃ us : List (List α), (∀ u ∈ us, IsUnit u) ∧ n ≤ us.length ∧ w = us.flatten
  left : ∀ u, IsUnit u → ¬u <:+ before
  right : ∀ u, IsUnit u → ¬u <+: after

/-- No unit starts before a place of a text and ends at it or behind it. -/
def Passed (IsUnit : List α → Prop) (before s : List α) : Prop :=
  ∀ v v', IsUnit (v ++ v') → v ≠ [] → v <:+ before → ¬v' <+: s

namespace Units

variable {r : Regex α} {IsUnit : List α → Prop} {c : Captures α} {n offset : Nat}
  {u v w s t rest a b before : List α} {us ws : List (List α)}

theorem ne_nil (hr : Units r IsUnit) (hu : IsUnit u) : u ≠ [] := by
  obtain ⟨mark, hmark⟩ := hr.marked
  obtain ⟨x, tail, rfl, -, -⟩ := hmark u hu
  exact List.cons_ne_nil x tail

/-- Only one unit is at the front of a text. -/
theorem append_inj (hr : Units r IsUnit) (hu : IsUnit u) (hv : IsUnit v)
    (h : u ++ s = v ++ t) : u = v ∧ s = t := by
  have hrest : [(([] : Captures α), s)] = [([], t)] := by
    rw [← hr.hit [] u s hu, ← hr.hit [] v t hv, h]
  obtain rfl : s = t := by simpa using hrest
  exact ⟨List.append_cancel_right h, rfl⟩

/-- A text is a run of units and something that no unit is at the front of. -/
theorem exists_chain (hr : Units r IsUnit) (s : List α) :
    ∃ (us : List (List α)) (rest : List α), (∀ u ∈ us, IsUnit u) ∧ s = us.flatten ++ rest ∧
      ∀ u, IsUnit u → ¬u <+: rest := by
  induction hlen : s.length using Nat.strong_induction_on generalizing s with
  | _ m ih =>
      by_cases hfront : ∃ u, IsUnit u ∧ u <+: s
      · obtain ⟨u, hu, t, rfl⟩ := hfront
        have hpos : 0 < u.length := List.length_pos_iff.2 (hr.ne_nil hu)
        rw [List.length_append] at hlen
        obtain ⟨us, rest, hus, rfl, hrest⟩ := ih t.length (by omega) t rfl
        refine ⟨u :: us, rest, ?_, by simp, hrest⟩
        intro u' hu'
        rcases List.mem_cons.1 hu' with rfl | hu'
        · exact hu
        · exact hus u' hu'
      · refine ⟨[], s, fun u hu => absurd hu List.not_mem_nil, rfl, fun u hu hpre => ?_⟩
        exact hfront ⟨u, hu, hpre⟩

/-- Two such divisions of a text are the same. -/
theorem chain_unique (hr : Units r IsUnit) (hus : ∀ u ∈ us, IsUnit u) (hws : ∀ u ∈ ws, IsUnit u)
    (hs : ∀ u, IsUnit u → ¬u <+: s) (ht : ∀ u, IsUnit u → ¬u <+: t)
    (h : us.flatten ++ s = ws.flatten ++ t) : us = ws ∧ s = t := by
  induction us generalizing ws with
  | nil =>
      cases ws with
      | nil => exact ⟨rfl, h⟩
      | cons v ws =>
          have hpre : v <+: s := ⟨ws.flatten ++ t, by simpa using h.symm⟩
          exact absurd hpre (hs v (hws v List.mem_cons_self))
  | cons u us ih =>
      have hu := hus u List.mem_cons_self
      cases ws with
      | nil =>
          have hpre : u <+: t := ⟨us.flatten ++ s, by simpa using h⟩
          exact absurd hpre (ht u hu)
      | cons v ws =>
          rw [List.flatten_cons, List.flatten_cons, List.append_assoc, List.append_assoc] at h
          obtain ⟨rfl, hrest⟩ := hr.append_inj hu (hws v List.mem_cons_self) h
          obtain ⟨rfl, rfl⟩ := ih (fun u' hu' => hus u' (List.mem_cons_of_mem _ hu'))
            (fun u' hu' => hws u' (List.mem_cons_of_mem _ hu')) hrest
          exact ⟨rfl, rfl⟩

/-- Where a unit starts in a run, a unit of the run starts. -/
theorem exists_border (hr : Units r IsUnit) (hus : ∀ u ∈ us, IsUnit u)
    (hrest : ∀ u, IsUnit u → ¬u <+: rest) (hu : IsUnit u)
    (h : us.flatten ++ rest = a ++ (u ++ b)) (hle : a.length ≤ us.flatten.length) :
    ∃ us₁ us₂, us = us₁ ++ us₂ ∧ us₂ ≠ [] ∧ a = us₁.flatten := by
  induction us generalizing a with
  | nil =>
      obtain rfl : a = [] := List.length_eq_zero_iff.1 (Nat.le_zero.1 hle)
      exact absurd ⟨b, h.symm⟩ (hrest u hu)
  | cons v us ih =>
      by_cases hempty : a = []
      · exact ⟨[], v :: us, rfl, List.cons_ne_nil v us, hempty⟩
      rw [List.flatten_cons, List.append_assoc] at h
      obtain ⟨a', rfl⟩ : v <+: a := by
        rcases List.append_eq_append_iff.1 h with ⟨a', ha, -⟩ | ⟨tail, hv, htail⟩
        · exact ⟨a', ha.symm⟩
        · -- the mark of the unit would be in the rest of `v`
          cases tail with
          | nil => exact ⟨[], by simpa using hv⟩
          | cons y tail =>
              obtain ⟨mark, hmark⟩ := hr.marked
              obtain ⟨x, u', rfl, hx, -⟩ := hmark u hu
              obtain ⟨x', v', rfl, -, hv'⟩ := hmark v (hus v List.mem_cons_self)
              obtain ⟨z, a, rfl⟩ := List.exists_cons_of_ne_nil hempty
              obtain ⟨-, rfl⟩ := List.cons.inj hv
              obtain ⟨rfl, -⟩ := List.cons.inj htail
              exact absurd hx (hv' x (by simp))
      rw [List.append_assoc, List.append_cancel_left_eq] at h
      rw [List.length_append, List.flatten_cons, List.length_append] at hle
      obtain ⟨us₁, us₂, rfl, hne, rfl⟩ :=
        ih (fun u' hu' => hus u' (List.mem_cons_of_mem _ hu')) h (by omega)
      exact ⟨v :: us₁, us₂, rfl, hne, rfl⟩

/-! ## The expression on a run -/

theorem runs_times (hr : Units r IsUnit) (hus : ∀ u ∈ us, IsUnit u)
    (hrest : ∀ u, IsUnit u → ¬u <+: rest) (n : Nat) :
    runs (times r n) (c, us.flatten ++ rest) =
      if n ≤ us.length then [(c, (us.drop n).flatten ++ rest)] else [] := by
  induction n generalizing us with
  | zero => simp [times, runs]
  | succ n ih =>
      cases us with
      | nil =>
          have hmiss : runs r (c, rest) = [] := hr.miss c rest hrest
          show (runs r (c, rest)).flatMap (runs (times r n)) = _
          rw [hmiss, if_neg (by simp)]
          rfl
      | cons u us =>
          have hhit := hr.hit c u (us.flatten ++ rest) (hus u List.mem_cons_self)
          rw [List.flatten_cons, List.append_assoc]
          show (runs r (c, u ++ (us.flatten ++ rest))).flatMap (runs (times r n)) = _
          rw [hhit, List.flatMap_singleton, ih fun u' hu' => hus u' (List.mem_cons_of_mem _ hu')]
          simp

theorem rounds (hr : Units r IsUnit) (hus : ∀ u ∈ us, IsUnit u)
    (hrest : ∀ u, IsUnit u → ¬u <+: rest) : Rounds r (c, us.flatten ++ rest) (c, rest) := by
  induction us with
  | nil => exact .stop (hr.miss c rest hrest)
  | cons u us ih =>
      have hu := hus u List.mem_cons_self
      have hhit := hr.hit c u (us.flatten ++ rest) hu
      rw [List.flatten_cons, List.append_assoc]
      have hone : Determined r (c, u ++ (us.flatten ++ rest)) (c, us.flatten ++ rest) := by
        constructor <;> simp [hhit]
      refine .next hone ?_ (ih fun u' hu' => hus u' (List.mem_cons_of_mem _ hu'))
      have hpos : 0 < u.length := List.length_pos_iff.2 (hr.ne_nil hu)
      simp only [List.length_append]
      omega

/-- At the front of a run, the expression takes the whole run or does not match. -/
theorem matchFront_chain (hr : Units r IsUnit) (hus : ∀ u ∈ us, IsUnit u)
    (hrest : ∀ u, IsUnit u → ¬u <+: rest) :
    matchFront (atLeast r n) (us.flatten ++ rest) =
      if n ≤ us.length then some ([], rest) else none := by
  show ((runs (times r n) ([], us.flatten ++ rest)).flatMap (runs (star true r))).head? = _
  rw [hr.runs_times hus hrest]
  split_ifs with hle
  · rw [List.flatMap_singleton]
    exact head_star (hr.rounds (fun u hu => hus u (List.mem_of_mem_drop hu)) hrest)
  · rfl

theorem matchFront_eq_none (hr : Units r IsUnit) (hn : 0 < n)
    (hs : ∀ u, IsUnit u → ¬u <+: s) : matchFront (atLeast r n) s = none := by
  have hchain : matchFront (atLeast r n) (([] : List (List α)).flatten ++ s) = _ :=
    hr.matchFront_chain (by simp) hs
  rwa [List.flatten_nil, List.nil_append, if_neg (by simp; omega)] at hchain

/-! ## The search -/

/-- The search over a run. -/
theorem spansFrom_chain (hr : Units r IsUnit) (hn : 0 < n) (hus : ∀ u ∈ us, IsUnit u)
    (hrest : ∀ u, IsUnit u → ¬u <+: rest) :
    spansFrom (atLeast r n) offset 0 (us.flatten ++ rest) =
      (if n ≤ us.length then [(offset, us.flatten)] else []) ++
        spansFrom (atLeast r n) (offset + us.flatten.length) 0 rest := by
  split_ifs with hle
  · have hne : us.flatten ≠ [] := by
      obtain ⟨u, us, rfl⟩ := List.exists_cons_of_length_pos (Nat.lt_of_lt_of_le hn hle)
      intro hnil
      exact hr.ne_nil (hus u List.mem_cons_self) (List.append_eq_nil_iff.1 hnil).1
    refine spansFrom_of_matchFront (c := []) ?_ hne
    rw [hr.matchFront_chain hus hrest, if_pos hle]
  · refine spansFrom_of_no_match fun a b hab hne => ?_
    by_cases hfront : ∃ u, IsUnit u ∧ u <+: b ++ rest
    · -- behind some units of the run
      obtain ⟨u, hu, t, ht⟩ := hfront
      have hle' : a.length ≤ us.flatten.length := by simp [hab]
      obtain ⟨us₁, us₂, rfl, -, rfl⟩ := hr.exists_border hus hrest hu
        (by rw [hab, List.append_assoc, ht]) hle'
      obtain rfl : us₂.flatten = b := by simpa using hab
      rw [hr.matchFront_chain (fun u' hu' => hus u' (List.mem_append_right _ hu')) hrest, if_neg]
      rw [List.length_append] at hle
      omega
    · exact hr.matchFront_eq_none hn fun u hu hpre => hfront ⟨u, hu, hpre⟩

/-- The search over something that no unit is at the front of. -/
theorem spansFrom_cons (hr : Units r IsUnit) (hn : 0 < n) {x : α}
    (hs : ∀ u, IsUnit u → ¬u <+: x :: s) :
    spansFrom (atLeast r n) offset 0 (x :: s) = spansFrom (atLeast r n) (offset + 1) 0 s := by
  rw [spansFrom_zero, hr.matchFront_eq_none hn hs]

/-- The run at a place is passed with the character behind it. -/
theorem passed_next (hr : Units r IsUnit) (hus : ∀ u ∈ us, IsUnit u) {x : α}
    (hrest : ∀ u, IsUnit u → ¬u <+: x :: rest)
    (hpassed : Passed IsUnit before (us.flatten ++ x :: rest)) :
    Passed IsUnit (before ++ us.flatten ++ [x]) rest := by
  rintro v v' hunit hne ⟨before', hv⟩ ⟨after, rfl⟩
  rw [List.append_assoc] at hv
  by_cases hbefore : ∃ a, a ≠ [] ∧ v = a ++ (us.flatten ++ [x]) ∧ a <:+ before
  · obtain ⟨a, ha, rfl, hsuffix⟩ := hbefore
    refine hpassed a (us.flatten ++ x :: v') (by simpa using hunit) ha hsuffix ⟨after, by simp⟩
  · -- the unit starts in the run or behind it
    obtain ⟨a, hrun⟩ : ∃ a, us.flatten ++ [x] = a ++ v := by
      rcases List.append_eq_append_iff.1 hv with ⟨a, rfl, hrun⟩ | ⟨a, -, hrun⟩
      · by_cases hnil : a = []
        · exact ⟨[], by simpa [hnil] using hrun.symm⟩
        · exact absurd ⟨a, hnil, hrun, List.suffix_append _ _⟩ hbefore
      · exact ⟨a, hrun⟩
    have hlen := congrArg List.length hrun
    rw [List.length_append, List.length_append, List.length_singleton] at hlen
    have hpos := List.length_pos_iff.2 hne
    have hwhole : us.flatten ++ x :: (v' ++ after) = a ++ ((v ++ v') ++ after) := by
      rw [List.append_cons, hrun]
      simp
    obtain ⟨us₁, us₂, rfl, hne₂, rfl⟩ := hr.exists_border hus hrest hunit hwhole (by omega)
    obtain ⟨u, us₂, rfl⟩ := List.exists_cons_of_ne_nil hne₂
    rw [List.flatten_append, List.append_assoc, List.append_cancel_left_eq, List.flatten_cons,
      List.append_assoc] at hwhole
    obtain ⟨rfl, -⟩ := hr.append_inj (hus u (by simp)) hunit hwhole
    simp only [List.length_append, List.flatten_append, List.flatten_cons] at hlen
    omega

/-- A run with nothing of a unit around it is the run at the front, or it starts behind that. -/
theorem maximalRun_front (hr : Units r IsUnit) (hn : 0 < n) (hus : ∀ u ∈ us, IsUnit u)
    (hrest : ∀ u, IsUnit u → ¬u <+: rest) (h : us.flatten ++ rest = a ++ (w ++ b))
    (hrun : MaximalRun IsUnit n (before ++ a) w b) :
    (a = [] ∧ w = us.flatten ∧ b = rest ∧ n ≤ us.length) ∨ us.flatten.length < a.length := by
  obtain ⟨⟨ws, hws, hle, rfl⟩, hleft, hright⟩ := hrun
  by_cases hlt : us.flatten.length < a.length
  · exact .inr hlt
  obtain ⟨u, ws', rfl⟩ := List.exists_cons_of_length_pos (Nat.lt_of_lt_of_le hn hle)
  have hu := hws u List.mem_cons_self
  have hunit : us.flatten ++ rest = a ++ (u ++ (ws'.flatten ++ b)) := by simpa using h
  obtain ⟨us₁, us₂, rfl, -, rfl⟩ := hr.exists_border hus hrest hu hunit (by omega)
  -- a unit of the run before would be at the left
  obtain rfl : us₁ = [] := by
    rcases List.eq_nil_or_concat us₁ with hnil | ⟨init, v, rfl⟩
    · exact hnil
    · have hv : IsUnit v := hus v (by simp)
      refine absurd ?_ (hleft v hv)
      exact ⟨before ++ init.flatten, by simp⟩
  obtain ⟨rfl, rfl⟩ := hr.chain_unique (by simpa using hus) hws hrest hright (by simpa using h)
  exact .inl ⟨rfl, by simp, rfl, by simpa using hle⟩

theorem mem_spansFrom (hr : Units r IsUnit) (hn : 0 < n) (hpassed : Passed IsUnit before s)
    {start : Nat} : (start, w) ∈ spansFrom (atLeast r n) before.length 0 s ↔
      ∃ a b, s = a ++ (w ++ b) ∧ start = before.length + a.length ∧
        MaximalRun IsUnit n (before ++ a) w b := by
  induction hlen : s.length using Nat.strong_induction_on generalizing before s with
  | _ m ih =>
      obtain ⟨us, rest, hus, rfl, hrest⟩ := hr.exists_chain s
      rw [hr.spansFrom_chain hn hus hrest, List.mem_append]
      have hfront : n ≤ us.length → MaximalRun IsUnit n (before ++ []) us.flatten rest := by
        intro hle
        refine ⟨⟨us, hus, hle, rfl⟩, fun u hu hsuffix => ?_, hrest⟩
        rw [List.append_nil] at hsuffix
        exact hpassed u [] (by simpa using hu) (hr.ne_nil hu) hsuffix List.nil_prefix
      have hhere : (start, w) ∈ (if n ≤ us.length then [(before.length, us.flatten)] else []) ↔
          n ≤ us.length ∧ start = before.length ∧ w = us.flatten := by
        split_ifs with hle <;> simp [hle]
      rw [hhere]
      cases rest with
      | nil =>
          constructor
          · rintro (⟨hle, rfl, rfl⟩ | hnil)
            · exact ⟨[], [], by simp, rfl, hfront hle⟩
            · exact absurd hnil List.not_mem_nil
          · rintro ⟨a, b, hab, rfl, hrun⟩
            rcases hr.maximalRun_front hn hus hrest hab hrun with ⟨rfl, rfl, -, hle⟩ | hlt
            · exact .inl ⟨hle, rfl, rfl⟩
            · have hlen' := congrArg List.length hab
              simp only [List.length_append, List.length_nil] at hlen'
              omega
      | cons x rest =>
          have hnext := ih rest.length
            (by rw [← hlen, List.length_append, List.length_cons]; omega)
            (hr.passed_next hus hrest hpassed) rfl
          rw [List.length_append, List.length_append, List.length_singleton] at hnext
          rw [hr.spansFrom_cons hn hrest, hnext]
          constructor
          · rintro (⟨hle, rfl, rfl⟩ | ⟨a, b, rfl, rfl, hrun⟩)
            · exact ⟨[], x :: rest, rfl, rfl, hfront hle⟩
            · refine ⟨us.flatten ++ x :: a, b, by simp, ?_, by simpa using hrun⟩
              simp only [List.length_append, List.length_cons]
              omega
          · rintro ⟨a, b, hab, rfl, hrun⟩
            rcases hr.maximalRun_front hn hus hrest hab hrun with ⟨rfl, rfl, -, hle⟩ | hlt
            · exact .inl ⟨hle, rfl, rfl⟩
            · obtain ⟨a, rfl⟩ : us.flatten ++ [x] <+: a := by
                have hfirst : us.flatten ++ [x] <+: us.flatten ++ x :: rest := ⟨rest, by simp⟩
                refine List.prefix_of_prefix_length_le hfirst ⟨w ++ b, hab.symm⟩ ?_
                rw [List.length_append, List.length_singleton]
                omega
              refine .inr ⟨a, b, by simpa using hab, ?_, by simpa using hrun⟩
              simp only [List.length_append, List.length_singleton]
              omega

/-- The matches are all maximal runs of at least `n` units. -/
theorem mem_spans (hr : Units r IsUnit) (hn : 0 < n) {start : Nat} :
    (start, w) ∈ spans (atLeast r n) s ↔
      ∃ a b, s = a ++ (w ++ b) ∧ start = a.length ∧ MaximalRun IsUnit n a w b := by
  have hpassed : Passed IsUnit [] s := by
    intro v v' _ hne hsuffix
    exact absurd (List.suffix_nil.1 hsuffix) hne
  simpa [spans] using hr.mem_spansFrom hn hpassed

end Units

end Regex
