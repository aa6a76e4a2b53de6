import Mathlib.Tactic.Common

/-! # While loops

A loop repeats a body that either goes on with a new state or returns.
`iterate` runs it for a bounded number of rounds, so that it can be executed on
concrete states; `Terminates` says that every sufficient bound gives the same
result. The rule `iterate_total` is total correctness: an invariant, a measure
that every round decreases, and what the invariant says about the result.
-/

universe u v w

namespace Loop

variable {σ : Type u} {ρ : Type v}

/-- At most `n` rounds of a loop; `none` if it has not returned by then. -/
def iterate (body : σ → σ ⊕ ρ) : Nat → σ → Option ρ
  | 0, _ => none
  | n + 1, s =>
      match body s with
      | .inl s' => iterate body n s'
      | .inr r => some r

/-- With enough rounds the result is `r`. -/
def Terminates (run : Nat → Option ρ) (r : ρ) : Prop := ∃ n, ∀ m, n ≤ m → run m = some r

variable {body : σ → σ ⊕ ρ} {s : σ} {r : ρ} {n m : Nat}

/-- More rounds do not change the result. -/
theorem iterate_mono (h : iterate body n s = some r) (hle : n ≤ m) : iterate body m s = some r := by
  induction n generalizing s m with
  | zero => cases h
  | succ n ih =>
      obtain ⟨k, rfl⟩ : ∃ k, m = k + 1 := ⟨m - 1, by omega⟩
      simp only [iterate] at h ⊢
      cases hbody : body s with
      | inl s' =>
          rw [hbody] at h
          exact ih h (by omega)
      | inr r' =>
          rw [hbody] at h
          exact h

theorem terminates_of_iterate (h : iterate body n s = some r) :
    Terminates (fun m => iterate body m s) r :=
  ⟨n, fun _ hle => iterate_mono h hle⟩

/-- A loop ends if it does after one round. -/
theorem Terminates.of_step {s' : σ} (hbody : body s = .inl s')
    (h : Terminates (fun n => iterate body n s') r) : Terminates (fun n => iterate body n s) r := by
  rcases h with ⟨n, hn⟩
  refine ⟨n + 1, fun m hle => ?_⟩
  cases m with
  | zero => omega
  | succ m =>
      simp only [iterate, hbody]
      exact hn m (by omega)

/-- A loop ends in the round in which it returns. -/
theorem Terminates.of_return (hbody : body s = .inr r) : Terminates (fun n => iterate body n s) r := by
  refine ⟨1, fun m hle => ?_⟩
  cases m with
  | zero => omega
  | succ m => simp only [iterate, hbody]

theorem Terminates.unique {run : Nat → Option ρ} {r' : ρ} (h : Terminates run r)
    (h' : Terminates run r') : r = r' := by
  rcases h with ⟨n, hn⟩
  rcases h' with ⟨n', hn'⟩
  have hr := hn (max n n') (Nat.le_max_left _ _)
  have hr' := hn' (max n n') (Nat.le_max_right _ _)
  exact Option.some.inj (hr.symm.trans hr')

theorem Terminates.map {τ : Type v} {run : Nat → Option ρ} (f : ρ → τ) (h : Terminates run r) :
    Terminates (fun n => (run n).map f) (f r) := by
  rcases h with ⟨n, hn⟩
  refine ⟨n, ?_⟩
  intro m hle
  simp only [hn m hle, Option.map_some]

/-- For finitely many computations that end there is a bound for all of them. -/
theorem exists_common_bound {α : Type w} {run : α → Nat → Option ρ} {g : α → ρ} {l : List α}
    (h : ∀ a ∈ l, Terminates (run a) (g a)) : ∃ n, ∀ m, n ≤ m → ∀ a ∈ l, run a m = some (g a) := by
  induction l with
  | nil => exact ⟨0, fun m _ a ha => absurd ha List.not_mem_nil⟩
  | cons b l ih =>
      obtain ⟨n, hn⟩ := h b List.mem_cons_self
      obtain ⟨k, hk⟩ := ih fun c hc => h c (List.mem_cons_of_mem _ hc)
      refine ⟨max n k, ?_⟩
      intro m hm c hc
      rcases List.mem_cons.1 hc with rfl | hc
      · exact hn m (by omega)
      · exact hk m (by omega) c hc

/-- What a body keeps holds of the result, however many rounds it took. -/
theorem iterate_invariant {Inv : σ → Prop} {Post : ρ → Prop}
    (hstep : ∀ s s', Inv s → body s = .inl s' → Inv s')
    (hexit : ∀ s r, Inv s → body s = .inr r → Post r) (hinv : Inv s)
    (h : iterate body n s = some r) : Post r := by
  induction n generalizing s with
  | zero => cases h
  | succ n ih =>
      simp only [iterate] at h
      cases hbody : body s with
      | inl s' =>
          rw [hbody] at h
          exact ih (hstep s s' hinv hbody) h
      | inr r' =>
          rw [hbody] at h
          exact Option.some.inj h ▸ hexit s r' hinv hbody

/-- Total correctness: every round keeps the invariant and decreases the measure. -/
theorem iterate_total {Inv : σ → Prop} {Post : ρ → Prop} (μ : σ → Nat)
    (hstep : ∀ s s', Inv s → body s = .inl s' → Inv s' ∧ μ s' < μ s)
    (hexit : ∀ s r, Inv s → body s = .inr r → Post r) (hinv : Inv s) :
    ∃ r, Terminates (fun n => iterate body n s) r ∧ Post r := by
  suffices h : ∀ k s, Inv s → μ s < k → ∃ r, iterate body k s = some r by
    rcases h (μ s + 1) s hinv (Nat.lt_succ_self _) with ⟨r, hr⟩
    refine ⟨r, terminates_of_iterate hr, ?_⟩
    exact iterate_invariant (fun s s' hi hb => (hstep s s' hi hb).1) hexit hinv hr
  intro k
  induction k with
  | zero =>
      intro s _ hlt
      omega
  | succ k ih =>
      intro s hi hlt
      cases hbody : body s with
      | inl s' =>
          rcases hstep s s' hi hbody with ⟨hi', hdec⟩
          rcases ih s' hi' (by omega) with ⟨r, hr⟩
          exact ⟨r, by simp only [iterate, hbody, hr]⟩
      | inr r => exact ⟨r, by simp only [iterate, hbody]⟩

/-! ## Loops that raise

A loop over a list whose body raises on some elements, which `P` excludes. -/

section

variable {ε β : Type*} {α : Type*} {f : β → α → Except ε β} {P : α → Prop} {l : List α} {b r : β}

/-- If the body raises on no element, the loop is the fold of what it returns. -/
theorem foldlM_ok {g : β → α → β} (hok : ∀ b a, P a → f b a = .ok (g b a)) (h : ∀ a ∈ l, P a) :
    l.foldlM f b = .ok (l.foldl g b) := by
  induction l generalizing b with
  | nil => rfl
  | cons a l ih =>
      rw [List.foldlM_cons, hok b a (h a List.mem_cons_self), List.foldl_cons]
      exact ih fun a' ha' => h a' (List.mem_cons_of_mem _ ha')

/-- A loop that ends normally has met no element on which the body raises. -/
theorem of_foldlM_ok (herror : ∀ b a r, f b a = .ok r → P a) (h : l.foldlM f b = .ok r) :
    ∀ a ∈ l, P a := by
  induction l generalizing b with
  | nil => exact fun a ha => absurd ha List.not_mem_nil
  | cons a l ih =>
      rw [List.foldlM_cons] at h
      cases hfirst : f b a with
      | error e =>
          rw [hfirst] at h
          cases h
      | ok b' =>
          rw [hfirst] at h
          intro a' ha'
          rcases List.mem_cons.1 ha' with rfl | ha'
          · exact herror b a' b' hfirst
          · exact ih h a' ha'

/-- A comprehension returns the list of what its body returns on each element. -/
theorem mapM_ok_iff {g : α → Except ε β} {rs : List β} :
    l.mapM g = .ok rs ↔ l.map g = rs.map .ok := by
  induction l generalizing rs with
  | nil =>
      rw [List.mapM_nil, List.map_nil]
      constructor
      · intro h
        obtain rfl : [] = rs := by simpa [pure, Except.pure] using h
        rfl
      · intro h
        obtain rfl : rs = [] := List.map_eq_nil_iff.1 h.symm
        rfl
  | cons a l ih =>
      rw [List.mapM_cons, List.map_cons]
      cases hfirst : g a with
      | error e => cases rs <;> simp [bind, Except.bind]
      | ok b =>
          cases hrest : l.mapM g with
          | error e =>
              have hno : ∀ rs : List β, l.map g ≠ rs.map .ok := fun rs h => by
                rw [ih.2 h] at hrest
                cases hrest
              cases rs with
              | nil => simp [bind, Except.bind]
              | cons b' rs => simp [bind, Except.bind, hno rs]
          | ok bs =>
              have hbs : l.map g = bs.map .ok := ih.1 hrest
              cases rs with
              | nil => simp [bind, Except.bind, pure, Except.pure]
              | cons b' rs =>
                  have hok : Function.Injective (Except.ok : β → Except ε β) :=
                    fun x y h => by cases h; rfl
                  have hinj : bs.map (.ok : β → Except ε β) = rs.map .ok ↔ bs = rs :=
                    List.map_inj_right fun x y h => hok h
                  simp [bind, Except.bind, pure, Except.pure, hbs, hinj]

theorem mem_of_mapM_ok {g : α → Except ε β} {rs : List β} (h : l.mapM g = .ok rs) {y : β} :
    y ∈ rs ↔ ∃ a ∈ l, g a = .ok y := by
  have hmem : y ∈ rs ↔ (.ok y : Except ε β) ∈ rs.map .ok := by simp
  rw [hmem, ← mapM_ok_iff.1 h, List.mem_map]

/-- Each element has its result. -/
theorem exists_of_mapM_ok {g : α → Except ε β} {rs : List β} (h : l.mapM g = .ok rs) {a : α} (ha : a ∈ l) :
    ∃ y ∈ rs, g a = .ok y := by
  have hmem : g a ∈ l.map g := List.mem_map_of_mem ha
  rw [mapM_ok_iff.1 h] at hmem
  rcases List.mem_map.1 hmem with ⟨y, hy, heq⟩
  exact ⟨y, hy, heq.symm⟩

theorem length_of_mapM_ok {g : α → Except ε β} {rs : List β} (h : l.mapM g = .ok rs) :
    rs.length = l.length := by
  have hlength := congrArg List.length (mapM_ok_iff.1 h)
  rw [List.length_map, List.length_map] at hlength
  exact hlength.symm

/-- What the body keeps of each element, the comprehension keeps. -/
theorem map_of_mapM_ok {γ : Type*} {g : α → Except ε β} {rs : List β} {key : α → γ} {key' : β → γ}
    (hkey : ∀ a y, g a = .ok y → key' y = key a) (h : l.mapM g = .ok rs) : rs.map key' = l.map key := by
  have hmap := mapM_ok_iff.1 h
  clear h
  induction l generalizing rs with
  | nil =>
      obtain rfl : rs = [] := List.map_eq_nil_iff.1 hmap.symm
      rfl
  | cons a l ih =>
      cases rs with
      | nil => cases hmap
      | cons y rs =>
          rw [List.map_cons, List.map_cons, List.cons.injEq] at hmap
          rw [List.map_cons, List.map_cons, ih hmap.2, hkey a y hmap.1]

/-- A comprehension whose body raises on no element returns. -/
theorem exists_mapM_ok {g : α → Except ε β} (h : ∀ a ∈ l, ∃ y, g a = .ok y) :
    ∃ rs, l.mapM g = .ok rs := by
  induction l with
  | nil => exact ⟨[], mapM_ok_iff.2 rfl⟩
  | cons a l ih =>
      obtain ⟨y, hy⟩ := h a List.mem_cons_self
      obtain ⟨rs, hrs⟩ := ih fun a' ha' => h a' (List.mem_cons_of_mem _ ha')
      refine ⟨y :: rs, mapM_ok_iff.2 ?_⟩
      rw [List.map_cons, List.map_cons, hy, mapM_ok_iff.1 hrs]

/-- A comprehension returns, with what belongs to each element, if and only if its body
does. -/
theorem mapM_keyed_iff {γ : Type*} {g : α → Except ε β} {key : α → γ} {key' : β → γ} :
    (∃ rs, l.mapM g = .ok rs ∧ rs.map key' = l.map key) ↔
      ∀ a ∈ l, ∃ y, g a = .ok y ∧ key' y = key a := by
  constructor
  · rintro ⟨rs, hrs, hkeys⟩
    rw [mapM_ok_iff] at hrs
    induction l generalizing rs with
    | nil => exact fun a ha => absurd ha List.not_mem_nil
    | cons a l ih =>
        cases rs with
        | nil => cases hrs
        | cons y rs =>
            rw [List.map_cons, List.map_cons, List.cons.injEq] at hrs hkeys
            intro a' ha'
            rcases List.mem_cons.1 ha' with rfl | ha'
            · exact ⟨y, hrs.1, hkeys.1⟩
            · exact ih rs hrs.2 hkeys.2 a' ha'
  · intro h
    induction l with
    | nil => exact ⟨[], mapM_ok_iff.2 rfl, rfl⟩
    | cons a l ih =>
        rcases h a List.mem_cons_self with ⟨y, hy, hkey⟩
        rcases ih fun a' ha' => h a' (List.mem_cons_of_mem _ ha') with ⟨rs, hrs, hkeys⟩
        refine ⟨y :: rs, mapM_ok_iff.2 ?_, ?_⟩
        · rw [List.map_cons, List.map_cons, hy, mapM_ok_iff.1 hrs]
        · rw [List.map_cons, List.map_cons, hkey, hkeys]

/-- A comprehension raises what its body raises on the first element on which it does. -/
theorem mapM_eq_error_iff {g : α → Except ε β} {e : ε} : l.mapM g = .error e ↔
    ∃ front a back, l = front ++ a :: back ∧ (∀ b ∈ front, ∃ y, g b = .ok y) ∧ g a = .error e := by
  induction l with
  | nil =>
      rw [List.mapM_nil]
      constructor
      · intro h
        cases h
      · rintro ⟨front, a, back, hl, -⟩
        exact absurd hl.symm (List.append_ne_nil_of_right_ne_nil front (List.cons_ne_nil a back))
  | cons a l ih =>
      rw [List.mapM_cons]
      cases hfirst : g a with
      | error e' =>
          constructor
          · intro h
            obtain rfl : e' = e := Except.error.inj h
            exact ⟨[], a, l, rfl, fun b hb => absurd hb List.not_mem_nil, hfirst⟩
          · rintro ⟨front, a', back, hl, hfront, ha'⟩
            cases front with
            | nil =>
                obtain rfl : a = a' := (List.cons.inj hl).1
                rw [hfirst] at ha'
                obtain rfl : e' = e := Except.error.inj ha'
                rfl
            | cons b front =>
                obtain rfl : a = b := (List.cons.inj hl).1
                rcases hfront a List.mem_cons_self with ⟨y, hy⟩
                rw [hfirst] at hy
                cases hy
      | ok y =>
          have hrest : (do let ys ← l.mapM g; pure (y :: ys) : Except ε (List β)) = .error e ↔
              l.mapM g = .error e := by
            cases l.mapM g with
            | error e' => rfl
            | ok ys =>
                constructor
                · intro h
                  cases h
                · intro h
                  cases h
          refine hrest.trans (ih.trans ?_)
          constructor
          · rintro ⟨front, a', back, rfl, hfront, ha'⟩
            refine ⟨a :: front, a', back, rfl, ?_, ha'⟩
            exact List.forall_mem_cons.2 ⟨⟨y, hfirst⟩, hfront⟩
          · rintro ⟨front, a', back, hl, hfront, ha'⟩
            cases front with
            | nil =>
                obtain rfl : a = a' := (List.cons.inj hl).1
                rw [hfirst] at ha'
                cases ha'
            | cons b front =>
                obtain ⟨rfl, rfl⟩ := List.cons.inj hl
                exact ⟨front, a', back, rfl, fun c hc => hfront c (List.mem_cons_of_mem a hc), ha'⟩

/-- `any` over answers that are all there. -/
theorem anyM_ok {g : α → Except ε Bool} {h : α → Bool} (hok : ∀ a ∈ l, g a = .ok (h a)) :
    l.anyM g = .ok (l.any h) := by
  induction l with
  | nil => rfl
  | cons a l ih =>
      have hrest := ih fun b hb => hok b (List.mem_cons_of_mem a hb)
      rw [List.anyM, hok a List.mem_cons_self, List.any_cons]
      change (match h a with | true => pure true | false => l.anyM g) = _
      cases h a with
      | true => rfl
      | false => exact hrest

/-- `all` over answers that are all there. -/
theorem allM_ok {g : α → Except ε Bool} {h : α → Bool} (hok : ∀ a ∈ l, g a = .ok (h a)) :
    l.allM g = .ok (l.all h) := by
  induction l with
  | nil => rfl
  | cons a l ih =>
      have hrest := ih fun b hb => hok b (List.mem_cons_of_mem a hb)
      rw [List.allM, hok a List.mem_cons_self, List.all_cons]
      change (match h a with | true => l.allM g | false => pure false) = _
      cases h a with
      | true => exact hrest
      | false => rfl

/-- `any` finds an element with the answer, if all answers are there. -/
theorem exists_anyM_ok {g : α → Except ε Bool} (hok : ∀ a ∈ l, ∃ b, g a = .ok b) :
    ∃ b, l.anyM g = .ok b ∧ (b = true ↔ ∃ a ∈ l, g a = .ok true) := by
  have hanswer : ∀ a ∈ l, g a = .ok ((g a).toOption.getD false) := by
    intro a ha
    rcases hok a ha with ⟨b, hb⟩
    rw [hb]
    rfl
  refine ⟨_, anyM_ok hanswer, ?_⟩
  rw [List.any_eq_true]
  constructor
  · rintro ⟨a, ha, htrue⟩
    exact ⟨a, ha, by rw [hanswer a ha, htrue]⟩
  · rintro ⟨a, ha, htrue⟩
    exact ⟨a, ha, by rw [htrue]; rfl⟩

/-- `any` raises if no answer ends it before. -/
theorem anyM_eq_error {g : α → Except ε Bool} {e : ε} (hall : ∀ a ∈ l, g a = .ok false ∨ g a = .error e)
    (hraises : ∃ a ∈ l, g a = .error e) : l.anyM g = .error e := by
  induction l with
  | nil =>
      rcases hraises with ⟨a, ha, -⟩
      exact absurd ha List.not_mem_nil
  | cons a l ih =>
      rw [List.anyM]
      rcases hall a List.mem_cons_self with hfalse | herror
      · rw [hfalse]
        apply ih fun b hb => hall b (List.mem_cons_of_mem a hb)
        rcases hraises with ⟨b, hb, hberror⟩
        rcases List.mem_cons.1 hb with rfl | hb
        · rw [hfalse] at hberror
          cases hberror
        · exact ⟨b, hb, hberror⟩
      · rw [herror]
        rfl

end

end Loop
