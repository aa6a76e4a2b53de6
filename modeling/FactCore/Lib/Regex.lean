import Mathlib.Data.List.Infix

/-! # Regular expressions

A backtracking matcher as scripting languages have it: the ways in which an expression
matches at the front of a text, in the order in which they are tried, with the texts
of its groups. The first of them is the match.

`Matches` says the same without an order, as a relation between the text that is
consumed, the text behind it and the groups before and after. A repetition takes
rounds that consume something only.
-/

universe u

/-- A regular expression over characters `α`. -/
inductive Regex (α : Type u) where
  | empty
  | cls (p : α → Bool)
  | seq (r s : Regex α)
  | alt (r s : Regex α)
  | star (greedy : Bool) (r : Regex α)
  | group (n : Nat) (r : Regex α)
  | backref (n : Nat)
  | ahead (p : List α → Bool)

namespace Regex

variable {α : Type u}

instance instAppendRegex : Append (Regex α) := ⟨seq⟩

instance instOrOpRegex : OrOp (Regex α) := ⟨alt⟩

/-- The texts of the groups, the latest first. -/
abbrev Captures (α : Type u) := List (Nat × List α)

/-! ## Derived forms -/

/-- A fixed text. -/
def lit [DecidableEq α] : List α → Regex α
  | [] => empty
  | x :: l => cls (fun y => decide (y = x)) ++ lit l

/-- `r?`. -/
def opt (r : Regex α) : Regex α := r ||| empty

/-- `r+`. -/
def plus (r : Regex α) : Regex α := r ++ star true r

/-- `r+?`. -/
def plusLazy (r : Regex α) : Regex α := r ++ star false r

/-- `r{n}`. -/
def times (r : Regex α) : Nat → Regex α
  | 0 => empty
  | n + 1 => r ++ times r n

/-- `r{0,n}`. -/
def upTo (r : Regex α) : Nat → Regex α
  | 0 => empty
  | n + 1 => opt (r ++ upTo r n)

/-- `r{n,m}`. -/
def between (r : Regex α) (n m : Nat) : Regex α := times r n ++ upTo r (m - n)

/-! ## The matcher -/

/-- The rounds of a repetition, at most `n` of them. -/
def starRuns (greedy : Bool) (round : Captures α × List α → List (Captures α × List α)) :
    Nat → Captures α × List α → List (Captures α × List α)
  | 0, st => [st]
  | n + 1, st =>
      let more := ((round st).filter fun st' => decide (st'.2.length < st.2.length)).flatMap
        (starRuns greedy round n)
      if greedy then more ++ [st] else st :: more

/-- The groups and the rest of the text after each way to match, in the order of the
attempts. -/
def runs [DecidableEq α] : Regex α → Captures α × List α → List (Captures α × List α)
  | empty, st => [st]
  | cls _, (_, []) => []
  | cls p, (c, x :: s) => if p x then [(c, s)] else []
  | seq r s, st => (runs r st).flatMap (runs s)
  | alt r s, st => runs r st ++ runs s st
  | star greedy r, st => starRuns greedy (runs r) st.2.length st
  | group n r, st =>
      (runs r st).map fun st' => ((n, st.2.take (st.2.length - st'.2.length)) :: st'.1, st'.2)
  | backref n, (c, s) =>
      match c.lookup n with
      | some w => if w <+: s then [(c, s.drop w.length)] else []
      | none => []
  | ahead p, (c, s) => if p s then [(c, s)] else []

/-- The match at the front of a text: its groups and what is left behind it. -/
def matchFront [DecidableEq α] (r : Regex α) (s : List α) : Option (Captures α × List α) :=
  (runs r ([], s)).head?

/-- All matches from left to right, after some characters of an earlier match; for an
expression that does not match the empty text. -/
def findallFrom [DecidableEq α] (r : Regex α) : Nat → List α → List (List α)
  | _, [] => []
  | skip + 1, _ :: s => findallFrom r skip s
  | 0, x :: s =>
      match matchFront r (x :: s) with
      | some (_, rest) =>
          (x :: s).take (s.length + 1 - rest.length) :: findallFrom r (s.length - rest.length) s
      | none => findallFrom r 0 s

/-- `re.findall`, for an expression without groups. -/
def findall [DecidableEq α] (r : Regex α) (s : List α) : List (List α) := findallFrom r 0 s

/-- `re.split` at the first match only: what stands before it and behind it. -/
def splitOnce [DecidableEq α] (r : Regex α) : List α → Option (List α × List α)
  | [] => (matchFront r []).map fun found => ([], found.2)
  | x :: s =>
      match matchFront r (x :: s) with
      | some (_, rest) => some ([], rest)
      | none => (splitOnce r s).map fun parts => (x :: parts.1, parts.2)

/-! ## What matches -/

/-- The expression matches `w` in front of `rest`, and turns the groups `c` into `c'`. -/
inductive Matches : Regex α → Captures α → List α → List α → Captures α → Prop
  | empty {c : Captures α} {rest : List α} : Matches empty c [] rest c
  | cls {p : α → Bool} {c : Captures α} {x : α} {rest : List α} : p x = true →
      Matches (cls p) c [x] rest c
  | seq {r s : Regex α} {c c' c'' : Captures α} {w w' rest : List α} :
      Matches r c w (w' ++ rest) c' → Matches s c' w' rest c'' → Matches (seq r s) c (w ++ w') rest c''
  | altLeft {r s : Regex α} {c c' : Captures α} {w rest : List α} :
      Matches r c w rest c' → Matches (alt r s) c w rest c'
  | altRight {r s : Regex α} {c c' : Captures α} {w rest : List α} :
      Matches s c w rest c' → Matches (alt r s) c w rest c'
  | starNil {greedy : Bool} {r : Regex α} {c : Captures α} {rest : List α} :
      Matches (star greedy r) c [] rest c
  | starCons {greedy : Bool} {r : Regex α} {c c' c'' : Captures α} {w w' rest : List α} : w ≠ [] →
      Matches r c w (w' ++ rest) c' → Matches (star greedy r) c' w' rest c'' →
      Matches (star greedy r) c (w ++ w') rest c''
  | group {n : Nat} {r : Regex α} {c c' : Captures α} {w rest : List α} :
      Matches r c w rest c' → Matches (group n r) c w rest ((n, w) :: c')
  | backref {n : Nat} {c : Captures α} {w rest : List α} : c.lookup n = some w →
      Matches (backref n) c w rest c
  | ahead {p : List α → Bool} {c : Captures α} {rest : List α} : p rest = true →
      Matches (ahead p) c [] rest c

variable {r s : Regex α} {p : α → Bool} {c c' c'' : Captures α} {w w' rest text : List α} {greedy : Bool}

theorem matches_empty : Matches empty c w rest c' ↔ w = [] ∧ c' = c := by
  constructor
  · intro h
    cases h
    exact ⟨rfl, rfl⟩
  · rintro ⟨rfl, rfl⟩
    exact .empty

theorem matches_cls : Matches (cls p) c w rest c' ↔ ∃ x, w = [x] ∧ p x = true ∧ c' = c := by
  constructor
  · intro h
    cases h with
    | cls hp => exact ⟨_, rfl, hp, rfl⟩
  · rintro ⟨x, rfl, hp, rfl⟩
    exact .cls hp

theorem matches_append : Matches (r ++ s) c w rest c'' ↔
    ∃ w1 w2 c', w = w1 ++ w2 ∧ Matches r c w1 (w2 ++ rest) c' ∧ Matches s c' w2 rest c'' := by
  constructor
  · intro h
    cases h with
    | seq h1 h2 => exact ⟨_, _, _, rfl, h1, h2⟩
  · rintro ⟨w1, w2, c', rfl, h1, h2⟩
    exact .seq h1 h2

theorem matches_or : Matches (r ||| s) c w rest c' ↔ Matches r c w rest c' ∨ Matches s c w rest c' := by
  constructor
  · intro h
    cases h with
    | altLeft h => exact .inl h
    | altRight h => exact .inr h
  · rintro (h | h)
    · exact .altLeft h
    · exact .altRight h

theorem matches_group {n : Nat} : Matches (group n r) c w rest c'' ↔
    ∃ c', Matches r c w rest c' ∧ c'' = (n, w) :: c' := by
  constructor
  · intro h
    cases h with
    | group h => exact ⟨_, h, rfl⟩
  · rintro ⟨c', h, rfl⟩
    exact .group h

theorem matches_backref {n : Nat} :
    Matches (backref n) c w rest c' ↔ c.lookup n = some w ∧ c' = c := by
  constructor
  · intro h
    cases h with
    | backref h => exact ⟨h, rfl⟩
  · rintro ⟨h, rfl⟩
    exact .backref h

theorem matches_ahead {p : List α → Bool} :
    Matches (ahead p) c w rest c' ↔ w = [] ∧ p rest = true ∧ c' = c := by
  constructor
  · intro h
    cases h with
    | ahead h => exact ⟨rfl, h, rfl⟩
  · rintro ⟨rfl, h, rfl⟩
    exact .ahead h

theorem matches_star : Matches (star greedy r) c w rest c'' ↔ (w = [] ∧ c'' = c) ∨
    ∃ w1 w2 c', w1 ≠ [] ∧ w = w1 ++ w2 ∧ Matches r c w1 (w2 ++ rest) c' ∧
      Matches (star greedy r) c' w2 rest c'' := by
  constructor
  · intro h
    cases h with
    | starNil => exact .inl ⟨rfl, rfl⟩
    | starCons hne h1 h2 => exact .inr ⟨_, _, _, hne, rfl, h1, h2⟩
  · rintro (⟨rfl, rfl⟩ | ⟨w1, w2, c', hne, rfl, h1, h2⟩)
    · exact .starNil
    · exact .starCons hne h1 h2

/-! ## Character classes -/

/-- A repeated class matches the texts of the class. -/
theorem matches_star_cls :
    Matches (star greedy (cls p)) c w rest c' ↔ (∀ x ∈ w, p x = true) ∧ c' = c := by
  constructor
  · intro h
    generalize hr : star greedy (cls p) = r at h
    induction h with
    | starNil => exact ⟨fun x hx => absurd hx List.not_mem_nil, rfl⟩
    | starCons hne h1 h2 ih1 ih2 =>
        cases hr
        rcases matches_cls.1 h1 with ⟨x, rfl, hx, rfl⟩
        rcases ih2 rfl with ⟨hall, rfl⟩
        refine ⟨fun y hy => ?_, rfl⟩
        rcases List.mem_cons.1 hy with rfl | hy
        · exact hx
        · exact hall y hy
    | _ => cases hr
  · rintro ⟨hall, rfl⟩
    induction w with
    | nil => exact .starNil
    | cons x w ih =>
        have hx : Matches (cls p) c' [x] (w ++ rest) c' := .cls (hall x List.mem_cons_self)
        exact .starCons (List.cons_ne_nil x []) hx
          (ih fun y hy => hall y (List.mem_cons_of_mem x hy))

theorem matches_plus_cls :
    Matches (plus (cls p)) c w rest c' ↔ w ≠ [] ∧ (∀ x ∈ w, p x = true) ∧ c' = c := by
  rw [plus, matches_append]
  constructor
  · rintro ⟨w1, w2, c1, rfl, h1, h2⟩
    rcases matches_cls.1 h1 with ⟨x, rfl, hx, rfl⟩
    rcases matches_star_cls.1 h2 with ⟨hall, rfl⟩
    refine ⟨List.cons_ne_nil x w2, fun y hy => ?_, rfl⟩
    rcases List.mem_cons.1 hy with rfl | hy
    · exact hx
    · exact hall y hy
  · rintro ⟨hne, hall, rfl⟩
    rcases List.exists_cons_of_ne_nil hne with ⟨x, w, rfl⟩
    refine ⟨[x], w, c', rfl, .cls (hall x List.mem_cons_self), matches_star_cls.2 ⟨?_, rfl⟩⟩
    exact fun y hy => hall y (List.mem_cons_of_mem x hy)

theorem matches_plusLazy_cls :
    Matches (plusLazy (cls p)) c w rest c' ↔ w ≠ [] ∧ (∀ x ∈ w, p x = true) ∧ c' = c := by
  have hplus : Matches (plusLazy (cls p)) c w rest c' ↔ Matches (plus (cls p)) c w rest c' := by
    rw [plusLazy, plus, matches_append, matches_append]
    simp only [matches_star_cls]
  exact hplus.trans matches_plus_cls

theorem matches_times_cls {n : Nat} :
    Matches (times (cls p) n) c w rest c' ↔ w.length = n ∧ (∀ x ∈ w, p x = true) ∧ c' = c := by
  induction n generalizing w with
  | zero =>
      rw [times, matches_empty]
      constructor
      · rintro ⟨rfl, rfl⟩
        exact ⟨rfl, fun x hx => absurd hx List.not_mem_nil, rfl⟩
      · rintro ⟨hlen, -, rfl⟩
        exact ⟨List.length_eq_zero_iff.1 hlen, rfl⟩
  | succ n ih =>
      rw [times, matches_append]
      constructor
      · rintro ⟨w1, w2, c1, rfl, h1, h2⟩
        rcases matches_cls.1 h1 with ⟨x, rfl, hx, rfl⟩
        rcases ih.1 h2 with ⟨rfl, hall, rfl⟩
        refine ⟨rfl, fun y hy => ?_, rfl⟩
        rcases List.mem_cons.1 hy with rfl | hy
        · exact hx
        · exact hall y hy
      · rintro ⟨hlen, hall, rfl⟩
        cases w with
        | nil => cases hlen
        | cons x w =>
            refine ⟨[x], w, c', rfl, .cls (hall x List.mem_cons_self), ih.2 ⟨?_, ?_, rfl⟩⟩
            · simpa using hlen
            · exact fun y hy => hall y (List.mem_cons_of_mem x hy)

theorem matches_opt : Matches (opt r) c w rest c' ↔ Matches r c w rest c' ∨ w = [] ∧ c' = c := by
  rw [opt, matches_or, matches_empty]

theorem forall_of_matches_upTo_cls {n : Nat} (h : Matches (upTo (cls p) n) c w rest c') :
    (∀ x ∈ w, p x = true) ∧ c' = c := by
  induction n generalizing w c with
  | zero =>
      rcases matches_empty.1 h with ⟨rfl, rfl⟩
      exact ⟨fun x hx => absurd hx List.not_mem_nil, rfl⟩
  | succ n ih =>
      rcases matches_opt.1 h with h | ⟨rfl, rfl⟩
      · rcases matches_append.1 h with ⟨w1, w2, c1, rfl, h1, h2⟩
        rcases matches_cls.1 h1 with ⟨x, rfl, hx, rfl⟩
        rcases ih h2 with ⟨hall, rfl⟩
        refine ⟨fun y hy => ?_, rfl⟩
        rcases List.mem_cons.1 hy with rfl | hy
        · exact hx
        · exact hall y hy
      · exact ⟨fun x hx => absurd hx List.not_mem_nil, rfl⟩

theorem forall_of_matches_between_cls {n m : Nat} (h : Matches (between (cls p) n m) c w rest c') :
    (∀ x ∈ w, p x = true) ∧ c' = c := by
  rcases matches_append.1 h with ⟨w1, w2, c1, rfl, h1, h2⟩
  rcases matches_times_cls.1 h1 with ⟨-, hall1, rfl⟩
  rcases forall_of_matches_upTo_cls h2 with ⟨hall2, rfl⟩
  exact ⟨fun x hx => (List.mem_append.1 hx).elim (hall1 x) (hall2 x), rfl⟩

variable [DecidableEq α]

theorem matches_lit {l : List α} : Matches (lit l) c w rest c' ↔ w = l ∧ c' = c := by
  induction l generalizing w with
  | nil => exact matches_empty
  | cons x l ih =>
      rw [lit, matches_append]
      constructor
      · rintro ⟨w1, w2, c1, rfl, h1, h2⟩
        rcases matches_cls.1 h1 with ⟨y, rfl, hy, rfl⟩
        rcases ih.1 h2 with ⟨rfl, rfl⟩
        exact ⟨by simpa using hy, rfl⟩
      · rintro ⟨rfl, rfl⟩
        exact ⟨[x], l, c', rfl, .cls (by simp), ih.2 ⟨rfl, rfl⟩⟩

/-! ## The matcher finds what matches -/

omit [DecidableEq α] in
theorem mem_starRuns_succ {round : Captures α × List α → List (Captures α × List α)} {n : Nat}
    {st st' : Captures α × List α} : st' ∈ starRuns greedy round (n + 1) st ↔
      st' = st ∨ ∃ mid ∈ round st, mid.2.length < st.2.length ∧ st' ∈ starRuns greedy round n mid := by
  have hmore : st' ∈ ((round st).filter fun mid => decide (mid.2.length < st.2.length)).flatMap
      (starRuns greedy round n) ↔
      ∃ mid ∈ round st, mid.2.length < st.2.length ∧ st' ∈ starRuns greedy round n mid := by
    simp only [List.mem_flatMap, List.mem_filter, decide_eq_true_eq, and_assoc]
  rw [starRuns]
  split
  · rw [List.mem_append, List.mem_singleton, hmore, or_comm]
  · rw [List.mem_cons, hmore]

/-- If the rounds are right, so is the repetition. -/
theorem mem_starRuns
    (hround : ∀ c s c' rest, (c', rest) ∈ runs r (c, s) ↔ ∃ w, s = w ++ rest ∧ Matches r c w rest c')
    {n : Nat} (hn : text.length ≤ n) :
    (c', rest) ∈ starRuns greedy (runs r) n (c, text) ↔
      ∃ w, text = w ++ rest ∧ Matches (star greedy r) c w rest c' := by
  induction n generalizing c text with
  | zero =>
      obtain rfl : text = [] := List.length_eq_zero_iff.1 (Nat.le_zero.1 hn)
      rw [starRuns, List.mem_singleton, Prod.mk.injEq]
      constructor
      · rintro ⟨rfl, rfl⟩
        exact ⟨[], rfl, .starNil⟩
      · rintro ⟨w, htext, h⟩
        rcases List.append_eq_nil_iff.1 htext.symm with ⟨rfl, rfl⟩
        rcases matches_star.1 h with ⟨-, rfl⟩ | ⟨w1, w2, c1, hne, hw, -, -⟩
        · exact ⟨rfl, rfl⟩
        · exact absurd (List.append_eq_nil_iff.1 hw.symm).1 hne
  | succ n ih =>
      rw [mem_starRuns_succ]
      constructor
      · rintro (heq | ⟨⟨c1, mid⟩, hmid, hlt, hrest⟩)
        · obtain ⟨rfl, rfl⟩ := Prod.mk.inj heq
          exact ⟨[], rfl, .starNil⟩
        · rcases (hround c text c1 mid).1 hmid with ⟨w1, rfl, h1⟩
          have hne : w1 ≠ [] := by
            rintro rfl
            simp at hlt
          simp only [List.length_append] at hlt hn
          rcases (ih (by omega)).1 hrest with ⟨w2, rfl, h2⟩
          exact ⟨w1 ++ w2, (List.append_assoc w1 w2 rest).symm, .starCons hne h1 h2⟩
      · rintro ⟨w, rfl, h⟩
        rcases matches_star.1 h with ⟨rfl, rfl⟩ | ⟨w1, w2, c1, hne, rfl, h1, h2⟩
        · exact .inl rfl
        · have hpos := List.length_pos_iff.2 hne
          simp only [List.length_append] at hn
          refine .inr ⟨(c1, w2 ++ rest), (hround _ _ _ _).2 ⟨w1, by simp, h1⟩, ?_, ?_⟩
          · simp only [List.length_append]
            omega
          · exact (ih (by rw [List.length_append]; omega)).2 ⟨w2, rfl, h2⟩

/-- The matcher finds exactly the ways in which an expression matches. -/
theorem mem_runs : (c', rest) ∈ runs r (c, text) ↔ ∃ w, text = w ++ rest ∧ Matches r c w rest c' := by
  induction r generalizing c c' text rest with
  | empty =>
      rw [runs, List.mem_singleton, Prod.mk.injEq]
      constructor
      · rintro ⟨rfl, rfl⟩
        exact ⟨[], rfl, .empty⟩
      · rintro ⟨w, rfl, h⟩
        rcases matches_empty.1 h with ⟨rfl, rfl⟩
        exact ⟨rfl, rfl⟩
  | cls p =>
      cases text with
      | nil =>
          rw [runs]
          constructor
          · exact fun h => absurd h List.not_mem_nil
          · rintro ⟨w, htext, h⟩
            rcases matches_cls.1 h with ⟨x, rfl, -⟩
            cases htext
      | cons x text =>
          rw [runs]
          constructor
          · intro h
            split at h
            next hp =>
              obtain ⟨rfl, rfl⟩ := Prod.mk.inj (List.mem_singleton.1 h)
              exact ⟨[x], rfl, .cls hp⟩
            next => cases h
          · rintro ⟨w, htext, h⟩
            rcases matches_cls.1 h with ⟨y, rfl, hp, rfl⟩
            obtain ⟨rfl, rfl⟩ := List.cons.inj htext
            rw [if_pos hp]
            exact List.mem_singleton_self _
  | seq r s ihr ihs =>
      rw [runs, List.mem_flatMap]
      constructor
      · rintro ⟨⟨c1, mid⟩, hmid, hrest⟩
        rcases ihr.1 hmid with ⟨w1, rfl, h1⟩
        rcases ihs.1 hrest with ⟨w2, rfl, h2⟩
        exact ⟨w1 ++ w2, (List.append_assoc w1 w2 rest).symm, .seq h1 h2⟩
      · rintro ⟨w, rfl, h⟩
        rcases matches_append.1 h with ⟨w1, w2, c1, rfl, h1, h2⟩
        exact ⟨(c1, w2 ++ rest), ihr.2 ⟨w1, by simp, h1⟩, ihs.2 ⟨w2, rfl, h2⟩⟩
  | alt r s ihr ihs =>
      rw [runs, List.mem_append, ihr, ihs]
      constructor
      · rintro (⟨w, hw, h⟩ | ⟨w, hw, h⟩)
        · exact ⟨w, hw, .altLeft h⟩
        · exact ⟨w, hw, .altRight h⟩
      · rintro ⟨w, hw, h⟩
        exact (matches_or.1 h).imp (fun h => ⟨w, hw, h⟩) (fun h => ⟨w, hw, h⟩)
  | star greedy r ih =>
      -- rounds that match nothing add nothing, so the length of the text bounds the others
      rw [runs]
      exact mem_starRuns (fun c s c' rest => ih) (Nat.le_refl _)
  | group n r ih =>
      -- the group is what was read since it began
      have htake : ∀ w rest : List α, (w ++ rest).take ((w ++ rest).length - rest.length) = w := by
        intro w rest
        rw [List.length_append, Nat.add_sub_cancel, List.take_left]
      rw [runs, List.mem_map]
      constructor
      · rintro ⟨⟨c1, mid⟩, hmid, heq⟩
        rcases ih.1 hmid with ⟨w, rfl, h⟩
        obtain ⟨rfl, rfl⟩ := Prod.mk.inj heq
        refine ⟨w, rfl, ?_⟩
        simp only [htake]
        exact .group h
      · rintro ⟨w, rfl, h⟩
        rcases matches_group.1 h with ⟨c1, hr, rfl⟩
        exact ⟨(c1, rest), ih.2 ⟨w, rfl, hr⟩, by simp only [htake]⟩
  | backref n =>
      rw [runs]
      constructor
      · intro h
        split at h
        next w hw =>
          split at h
          next hpre =>
            obtain ⟨rfl, rfl⟩ := Prod.mk.inj (List.mem_singleton.1 h)
            exact ⟨w, (List.prefix_iff_eq_append.1 hpre).symm, .backref hw⟩
          next => cases h
        next => cases h
      · rintro ⟨w, rfl, h⟩
        rcases matches_backref.1 h with ⟨hw, rfl⟩
        simp [hw]
  | ahead p =>
      rw [runs]
      constructor
      · intro h
        split at h
        next hp =>
          obtain ⟨rfl, rfl⟩ := Prod.mk.inj (List.mem_singleton.1 h)
          exact ⟨[], rfl, .ahead hp⟩
        next => cases h
      · rintro ⟨w, rfl, h⟩
        rcases matches_ahead.1 h with ⟨rfl, hp, rfl⟩
        rw [List.nil_append, if_pos hp]
        exact List.mem_singleton_self _

/-- What the matcher returns is a match. -/
theorem matches_of_matchFront (h : matchFront r text = some (c, rest)) :
    ∃ w, text = w ++ rest ∧ Matches r [] w rest c :=
  mem_runs.1 (List.mem_of_head? h)

theorem matchFront_eq_none : matchFront r text = none ↔
    ∀ w rest c, text = w ++ rest → ¬ Matches r [] w rest c := by
  rw [matchFront, List.head?_eq_none_iff, List.eq_nil_iff_forall_not_mem]
  constructor
  · intro h w rest c htext hmatch
    exact h (c, rest) (mem_runs.2 ⟨w, htext, hmatch⟩)
  · rintro h ⟨c, rest⟩ hmem
    rcases mem_runs.1 hmem with ⟨w, htext, hmatch⟩
    exact h w rest c htext hmatch

/-- Where there is only one way to match, the matcher returns it. -/
theorem matchFront_of_unique (h : Matches r [] w rest c) (htext : text = w ++ rest)
    (hunique : ∀ w' rest' c', text = w' ++ rest' → Matches r [] w' rest' c' → rest' = rest ∧ c' = c) :
    matchFront r text = some (c, rest) := by
  cases hfront : matchFront r text with
  | none => exact absurd h (matchFront_eq_none.1 hfront w rest c htext)
  | some found =>
      rcases found with ⟨c', rest'⟩
      rcases matches_of_matchFront hfront with ⟨w', htext', h'⟩
      rcases hunique w' rest' c' htext' h' with ⟨rfl, rfl⟩
      rfl

/-- Each text that is found matches. -/
theorem matches_of_mem_findallFrom {n : Nat} (h : w ∈ findallFrom r n text) :
    ∃ rest c, Matches r [] w rest c := by
  induction text generalizing n with
  | nil =>
      cases n <;> exact absurd h List.not_mem_nil
  | cons x text ih =>
      cases n with
      | succ n => exact ih h
      | zero =>
          rw [findallFrom] at h
          split at h
          next c rest hfront =>
            rcases List.mem_cons.1 h with rfl | h
            · rcases matches_of_matchFront hfront with ⟨w, htext, hmatch⟩
              refine ⟨rest, c, ?_⟩
              have hlen := congrArg List.length htext
              rw [List.length_cons, List.length_append] at hlen
              rw [htext, show text.length + 1 - rest.length = w.length by omega, List.take_left]
              exact hmatch
            · exact ih h
          next => exact ih h

theorem matches_of_mem_findall (h : w ∈ findall r text) : ∃ rest c, Matches r [] w rest c :=
  matches_of_mem_findallFrom h

theorem isInfix_of_mem_findallFrom {n : Nat} (h : w ∈ findallFrom r n text) : w <:+: text := by
  induction text generalizing n with
  | nil =>
      cases n <;> exact absurd h List.not_mem_nil
  | cons x text ih =>
      cases n with
      | succ n => exact List.infix_cons (ih h)
      | zero =>
          rw [findallFrom] at h
          split at h
          next =>
            rcases List.mem_cons.1 h with rfl | h
            · exact (List.take_prefix _ _).isInfix
            · exact List.infix_cons (ih h)
          next => exact List.infix_cons (ih h)

/-- What is found is a part of the text. -/
theorem isInfix_of_mem_findall (h : w ∈ findall r text) : w <:+: text := isInfix_of_mem_findallFrom h

/-! ## Texts in pieces -/

theorem findallFrom_length (l : List α) : findallFrom r l.length (l ++ rest) = findallFrom r 0 rest := by
  induction l with
  | nil => rfl
  | cons x l ih => exact ih

/-- A match at the front is found, and the search goes on behind it. -/
theorem findall_of_matchFront (h : matchFront r (w ++ rest) = some (c, rest)) (hne : w ≠ []) :
    findall r (w ++ rest) = w :: findall r rest := by
  rcases List.exists_cons_of_ne_nil hne with ⟨x, w, rfl⟩
  have hlen : (w ++ rest).length - rest.length = w.length := by
    rw [List.length_append]
    omega
  have htake : (x :: (w ++ rest)).take ((w ++ rest).length + 1 - rest.length) = x :: w := by
    rw [show (w ++ rest).length + 1 - rest.length = (x :: w).length by
      rw [List.length_append, List.length_cons]; omega, ← List.cons_append, List.take_left]
  rw [List.cons_append] at h
  rw [findall, List.cons_append, findallFrom, h]
  simp only [htake, hlen, findallFrom_length]
  rfl

/-- A piece in which no match starts is skipped. -/
theorem findall_of_no_match {l : List α}
    (h : ∀ a b, l = a ++ b → b ≠ [] → matchFront r (b ++ rest) = none) :
    findall r (l ++ rest) = findall r rest := by
  induction l with
  | nil => rfl
  | cons x l ih =>
      have hfront := h [] (x :: l) rfl (List.cons_ne_nil x l)
      rw [List.cons_append] at hfront
      rw [findall, List.cons_append, findallFrom, hfront]
      exact ih fun a b hl hb => h (x :: a) b (by rw [hl]; rfl) hb

/-- The text is split where the first match starts. -/
theorem splitOnce_append {l behind : List α}
    (h : ∀ a b, l = a ++ b → b ≠ [] → matchFront r (b ++ rest) = none)
    (hfront : matchFront r rest = some (c, behind)) : splitOnce r (l ++ rest) = some (l, behind) := by
  induction l with
  | nil =>
      cases rest with
      | nil => rw [List.nil_append, splitOnce, hfront, Option.map_some]
      | cons x rest => rw [List.nil_append, splitOnce, hfront]
  | cons x l ih =>
      have hnone := h [] (x :: l) rfl (List.cons_ne_nil x l)
      rw [List.cons_append] at hnone
      have hrest := ih fun a b hl hb => h (x :: a) b (by rw [hl]; rfl) hb
      rw [List.cons_append, splitOnce, hnone, hrest]
      rfl

/-! ## Expressions with one way to match -/

/-- There is exactly one thing that the expression can leave. -/
def Determined (r : Regex α) (st st' : Captures α × List α) : Prop :=
  runs r st ≠ [] ∧ ∀ x ∈ runs r st, x = st'

theorem determined_of_unique (h : Matches r c w rest c')
    (hunique : ∀ w' rest' c'', w ++ rest = w' ++ rest' → Matches r c w' rest' c'' →
      rest' = rest ∧ c'' = c') : Determined r (c, w ++ rest) (c', rest) := by
  constructor
  · exact List.ne_nil_of_mem (mem_runs.2 ⟨w, rfl, h⟩)
  · rintro ⟨c'', rest'⟩ hx
    rcases mem_runs.1 hx with ⟨w', htext, h'⟩
    rcases hunique w' rest' c'' htext h' with ⟨rfl, rfl⟩
    rfl

variable {st st' mid : Captures α × List α}

/-- Behind an expression with one way to match the next one decides. -/
theorem Determined.head_append (h : Determined r st mid) :
    (runs (r ++ s) st).head? = (runs s mid).head? := by
  rcases List.exists_cons_of_ne_nil h.1 with ⟨x, l, hruns⟩
  have hall : ∀ y ∈ x :: l, y = mid := by
    rw [← hruns]
    exact h.2
  have hflat : runs (r ++ s) st = (x :: l).flatMap (runs s) := by
    rw [← hruns]
    rfl
  rw [hflat]
  clear hruns hflat
  -- every element of the list gives the same
  generalize hl : x :: l = l' at hall ⊢
  have hne : l' ≠ [] := by
    rw [← hl]
    exact List.cons_ne_nil x l
  clear hl
  induction l' with
  | nil => exact absurd rfl hne
  | cons y l' ih =>
      rw [List.flatMap_cons, hall y List.mem_cons_self, List.head?_append]
      cases hmid : (runs s mid).head? with
      | some found => rfl
      | none =>
          rw [Option.none_or]
          cases l' with
          | nil => rfl
          | cons y' l' =>
              rw [ih (fun z hz => hall z (List.mem_cons_of_mem y hz)) (List.cons_ne_nil y' l'), hmid]

/-- The rounds of a greedy repetition of such an expression, until it does not match any
more. -/
inductive Rounds (r : Regex α) : Captures α × List α → Captures α × List α → Prop
  | stop {st : Captures α × List α} : runs r st = [] → Rounds r st st
  | next {st mid st' : Captures α × List α} : Determined r st mid → mid.2.length < st.2.length →
      Rounds r mid st' → Rounds r st st'

theorem head_starRuns (h : Rounds r st st') {n : Nat} (hn : st.2.length ≤ n) :
    (starRuns true (runs r) n st).head? = some st' := by
  induction h generalizing n with
  | stop hstop =>
      cases n with
      | zero => rfl
      | succ n => simp [starRuns, hstop]
  | @next st mid st' hdet hlt _ ih =>
      cases n with
      | zero => omega
      | succ n =>
          rcases List.exists_cons_of_ne_nil hdet.1 with ⟨x, l, hruns⟩
          obtain rfl : x = mid := hdet.2 x (by rw [hruns]; exact List.mem_cons_self)
          have hfilter : ((runs r st).filter fun st' => decide (st'.2.length < st.2.length)) =
              x :: l.filter fun st' => decide (st'.2.length < st.2.length) := by
            rw [hruns, List.filter_cons_of_pos (by simpa using hlt)]
          rw [starRuns, if_pos rfl, hfilter, List.flatMap_cons, List.head?_append, List.head?_append,
            ih (by omega)]
          rfl

/-- A greedy repetition takes all rounds. -/
theorem head_star (h : Rounds r st st') : (runs (star true r) st).head? = some st' := by
  rw [runs]
  exact head_starRuns h (Nat.le_refl _)

/-- The first way through a sequence, if the first way through its front leads on. -/
theorem head_append (hr : (runs r st).head? = some mid) (hs : (runs s mid).head? = some st') :
    (runs (r ++ s) st).head? = some st' := by
  rcases List.head?_eq_some_iff.1 hr with ⟨more, hmore⟩
  change ((runs r st).flatMap (runs s)).head? = some st'
  rw [hmore, List.flatMap_cons, List.head?_append, hs]
  rfl

/-- A class is repeated up to a character that does not belong to it. -/
theorem rounds_cls (hw : ∀ x ∈ w, p x = true) (hrest : ∀ x ∈ rest.head?, p x = false) :
    Rounds (cls p) (c, w ++ rest) (c, rest) := by
  induction w with
  | nil =>
      apply Rounds.stop
      cases rest with
      | nil => rfl
      | cons x rest =>
          rw [List.nil_append, runs, if_neg]
          rw [hrest x rfl]
          exact Bool.false_ne_true
  | cons x w ih =>
      have hruns : runs (cls p) (c, x :: (w ++ rest)) = [(c, w ++ rest)] := by
        rw [runs, if_pos (hw x List.mem_cons_self)]
      have hone : Determined (cls p) (c, x :: (w ++ rest)) (c, w ++ rest) := by
        constructor
        · rw [hruns]
          exact List.cons_ne_nil _ _
        · intro found hfound
          rw [hruns] at hfound
          exact List.mem_singleton.1 hfound
      apply Rounds.next hone
      · exact Nat.lt_succ_self _
      · exact ih fun y hy => hw y (List.mem_cons_of_mem x hy)

/-! ## The first way -/

theorem head_cls {x : α} (hx : p x = true) :
    (runs (cls p) (c, x :: rest)).head? = some (c, rest) := by
  rw [runs, if_pos hx]
  rfl

/-- Whatever follows, the first way is to match just `w`, and it leaves the groups. -/
def Takes (r : Regex α) (w : List α) : Prop :=
  ∀ c rest, (runs r (c, w ++ rest)).head? = some (c, rest)

theorem Takes.append (h : Takes r w) (h' : Takes s w') : Takes (r ++ s) (w ++ w') := by
  intro c rest
  rw [List.append_assoc]
  exact head_append (h c _) (h' c rest)

theorem takes_lit (l : List α) : Takes (lit l) l := by
  intro c rest
  induction l with
  | nil => rfl
  | cons x l ih => exact head_append (head_cls (decide_eq_true rfl)) ih

theorem takes_times_cls {n : Nat} (hlen : w.length = n) (hw : ∀ x ∈ w, p x = true) :
    Takes (times (cls p) n) w := by
  intro c rest
  induction w generalizing n with
  | nil =>
      obtain rfl : 0 = n := hlen
      rfl
  | cons x w ih =>
      cases n with
      | zero => cases hlen
      | succ n =>
          refine head_append (head_cls (hw x List.mem_cons_self)) ?_
          exact ih (Nat.succ.inj hlen) fun y hy => hw y (List.mem_cons_of_mem x hy)

/-- A class is repeated as often as possible. -/
theorem head_plus_cls (hne : w ≠ []) (hw : ∀ x ∈ w, p x = true)
    (hrest : ∀ x ∈ rest.head?, p x = false) :
    (runs (plus (cls p)) (c, w ++ rest)).head? = some (c, rest) := by
  rcases List.exists_cons_of_ne_nil hne with ⟨x, w, rfl⟩
  refine head_append (head_cls (hw x List.mem_cons_self)) (head_star (rounds_cls ?_ hrest))
  exact fun y hy => hw y (List.mem_cons_of_mem x hy)

theorem head_group (n : Nat) (h : (runs r (c, w ++ rest)).head? = some (c', rest)) :
    (runs (group n r) (c, w ++ rest)).head? = some ((n, w) :: c', rest) := by
  rw [runs, List.head?_map, h]
  simp

/-! ## The groups of all matches -/

/-- The groups of all matches from left to right, after some characters of an earlier
match; for an expression that does not match the empty text. -/
def finditerFrom (r : Regex α) : Nat → List α → List (Captures α)
  | _, [] => []
  | skip + 1, _ :: s => finditerFrom r skip s
  | 0, x :: s =>
      match matchFront r (x :: s) with
      | some (c, rest) => c :: finditerFrom r (s.length - rest.length) s
      | none => finditerFrom r 0 s

/-- `re.finditer`, with the groups of each match. -/
def finditer (r : Regex α) (s : List α) : List (Captures α) := finditerFrom r 0 s

theorem finditerFrom_length (l : List α) :
    finditerFrom r l.length (l ++ rest) = finditerFrom r 0 rest := by
  induction l with
  | nil => rfl
  | cons x l ih => exact ih

/-- A match at the front is found, and the search goes on behind it. -/
theorem finditer_of_matchFront (h : matchFront r (w ++ rest) = some (c, rest)) (hne : w ≠ []) :
    finditer r (w ++ rest) = c :: finditer r rest := by
  rcases List.exists_cons_of_ne_nil hne with ⟨x, w, rfl⟩
  have hlen : (w ++ rest).length - rest.length = w.length := by
    rw [List.length_append]
    omega
  rw [List.cons_append] at h
  rw [finditer, List.cons_append, finditerFrom, h]
  simp only [hlen, finditerFrom_length]
  rfl

/-- A piece in which no match starts is skipped. -/
theorem finditer_of_no_match {l : List α}
    (h : ∀ a b, l = a ++ b → b ≠ [] → matchFront r (b ++ rest) = none) :
    finditer r (l ++ rest) = finditer r rest := by
  induction l with
  | nil => rfl
  | cons x l ih =>
      have hfront := h [] (x :: l) rfl (List.cons_ne_nil x l)
      rw [List.cons_append] at hfront
      rw [finditer, List.cons_append, finditerFrom, hfront]
      exact ih fun a b hl hb => h (x :: a) b (by rw [hl]; rfl) hb

end Regex
