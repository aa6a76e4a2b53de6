import Mathlib.Algebra.GroupWithZero.Nat
import Mathlib.Data.Finset.Lattice.Fold
import Mathlib.Order.Lattice.Nat
import FactCore.Lib.Dict
import FactCore.Lib.Forest

/-! # Terminating a process and its children

`terminate_process_and_children` of `helperFunctions/process.py`. The recursion lists the
children of a process, sends it SIGTERM, waits, does the same to each child and kills the
process if it is still there. It stops at a process that no longer exists.

Between two system calls the world moves on: processes exit and give birth to others.
The processes are numbered in the order of their birth, and a number is never used
again (`psutil` compares the start times). A child whose parent is gone gets another
parent, which is none of the tree, so it is listed no more.

It is shown that the call ends if only finitely many processes are born meanwhile, that
only processes of the tree get a signal, and which of them survive: those below a process
that exited before it was its turn.
-/

namespace FactCore.ProcessTree

/-- What happens on its own between two system calls. -/
inductive Event where
  | exits (p : ℕ)
  /-- The next process is born. -/
  | forks
deriving DecidableEq

/-- By whom each process is born, and what happens before each system call. -/
structure World extends Forest where
  events : ℕ → List Event

/-- The living processes, the number of the next one, the number of system calls so far
and the processes that got SIGTERM. -/
structure State where
  alive : Finset ℕ
  next : ℕ
  time : ℕ
  signalled : List ℕ
  born : ∀ p ∈ alive, p < next

namespace State

/-- Process `p` is gone. -/
def without (s : State) (p : ℕ) : State where
  alive := s.alive.erase p
  next := s.next
  time := s.time
  signalled := s.signalled
  born := fun q hq => s.born q (Finset.mem_of_mem_erase hq)

/-- The next process is born if its parent lives. -/
def fork (world : World) (s : State) : State where
  alive := if (world.parent s.next).all (· ∈ s.alive) then insert s.next s.alive else s.alive
  next := s.next + 1
  time := s.time
  signalled := s.signalled
  born := by
    intro q hq
    split at hq
    · rcases Finset.mem_insert.1 hq with rfl | hq
      · exact Nat.lt_succ_self _
      · exact Nat.lt_succ_of_lt (s.born q hq)
    · exact Nat.lt_succ_of_lt (s.born q hq)

def happen (world : World) (s : State) : Event → State
  | .exits p => s.without p
  | .forks => s.fork world

/-- The world moves on until the next system call. -/
def pass (world : World) (s : State) : State :=
  { (world.events s.time).foldl (happen world) s with time := s.time + 1 }

/-- `process.children(recursive=False)`. -/
def children (world : World) (order : IterOrder ℕ) (s : State) (p : ℕ) : List ℕ :=
  order.list (s.alive.filter fun c => world.parent c = some p)

/-- `process.terminate()`. -/
def signal (s : State) (p : ℕ) : State := { s with signalled := s.signalled ++ [p] }

end State

/-- `terminate_process_and_children`. The first argument bounds the depth of the
recursion. Of the system calls, `children`, `terminate` and `wait` come in this order,
and `is_running` and `kill` after the children. -/
def terminateProcessAndChildren (world : World) (order : IterOrder ℕ) :
    ℕ → ℕ → State → Option State
  | 0, _, _ => none
  | n + 1, p, s =>
      let s := s.pass world
      if p ∈ s.alive then
        let children := s.children world order p
        let s := s.pass world
        if p ∈ s.alive then
          let s := (s.signal p).pass world
          (children.foldlM (fun s child => terminateProcessAndChildren world order n child s)
            s).map fun s => (s.pass world).without p
        else some s
      else some s

/-! ## What a step of the world changes -/

/-- The process exits on its own. -/
def World.Exits (world : World) (p : ℕ) : Prop := ∃ t, Event.exits p ∈ world.events t

/-- From one state to a later one, apart from the signals: nobody is born twice, and who
is gone exited on its own or is one of those given. -/
structure Later (world : World) (gone : ℕ → Prop) (s s' : State) : Prop where
  next : s.next ≤ s'.next
  alive : ∀ x ∈ s'.alive, x < s.next → x ∈ s.alive
  gone : ∀ x ∈ s.alive, x ∉ s'.alive → gone x ∨ world.Exits x

namespace Later

variable {world : World} {gone gone' : ℕ → Prop} {s s' s'' : State}

theorem refl (s : State) : Later world gone s s :=
  ⟨le_rfl, fun _ hx _ => hx, fun _ hx hx' => absurd hx hx'⟩

theorem trans (h : Later world gone s s') (h' : Later world gone s' s'') :
    Later world gone s s'' where
  next := h.next.trans h'.next
  alive := fun x hx hlt => h.alive x (h'.alive x hx (hlt.trans_le h.next)) hlt
  gone := by
    intro x hx hx''
    by_cases hx' : x ∈ s'.alive
    · exact h'.gone x hx' hx''
    · exact h.gone x hx hx'

theorem mono (h : Later world gone s s') (hgone : ∀ x, gone x → gone' x) :
    Later world gone' s s' :=
  ⟨h.next, h.alive, fun x hx hx' => (h.gone x hx hx').imp_left (hgone x)⟩

/-- Who is dead stays dead. -/
theorem dead (h : Later world gone s s') {x : ℕ} (hlt : x < s.next) (hx : x ∉ s.alive) :
    x ∉ s'.alive := fun hx' => hx (h.alive x hx' hlt)

theorem without {p : ℕ} (h : gone p ∨ world.Exits p) : Later world gone s (s.without p) where
  next := le_rfl
  alive := fun x hx _ => Finset.mem_of_mem_erase hx
  gone := by
    intro x hx hx'
    by_cases heq : x = p
    · exact heq ▸ h
    · exact absurd (Finset.mem_erase.2 ⟨heq, hx⟩) hx'

theorem fork : Later world gone s (s.fork world) where
  next := Nat.le_succ _
  alive := by
    intro x hx hlt
    have hne : x ≠ s.next := Nat.ne_of_lt hlt
    simp only [State.fork] at hx
    split at hx
    · exact (Finset.mem_insert.1 hx).resolve_left hne
    · exact hx
  gone := by
    intro x hx hx'
    refine absurd ?_ hx'
    simp only [State.fork]
    split
    · exact Finset.mem_insert_of_mem hx
    · exact hx

theorem signal (p : ℕ) : Later world gone s (s.signal p) :=
  ⟨le_rfl, fun _ hx _ => hx, fun _ hx hx' => absurd hx hx'⟩

end Later

variable {world : World} {order : IterOrder ℕ} {gone : ℕ → Prop} {s s' : State} {p : ℕ}

variable (gone) in
theorem later_foldl {events : List Event}
    (h : ∀ p, Event.exits p ∈ events → world.Exits p) :
    Later world gone s (events.foldl (State.happen world) s) ∧
      (events.foldl (State.happen world) s).signalled = s.signalled := by
  induction events generalizing s with
  | nil => exact ⟨Later.refl s, rfl⟩
  | cons event rest ih =>
      obtain ⟨hlater, hsignalled⟩ := ih (s := s.happen world event)
        fun p hp => h p (List.mem_cons_of_mem _ hp)
      cases event with
      | exits p =>
          have hexits : world.Exits p := h p List.mem_cons_self
          exact ⟨(Later.without (.inr hexits)).trans hlater, hsignalled⟩
      | forks => exact ⟨Later.fork.trans hlater, hsignalled⟩

theorem later_pass : Later world gone s (s.pass world) := by
  have hexits : ∀ p, Event.exits p ∈ world.events s.time → world.Exits p :=
    fun _ hp => ⟨s.time, hp⟩
  obtain ⟨hlater, -⟩ := later_foldl gone (s := s) hexits
  exact ⟨hlater.next, hlater.alive, hlater.gone⟩

@[simp] theorem signalled_pass : (s.pass world).signalled = s.signalled := by
  have hexits : ∀ p, Event.exits p ∈ world.events s.time → world.Exits p :=
    fun _ hp => ⟨s.time, hp⟩
  exact (later_foldl (fun _ => True) (s := s) hexits).2

@[simp] theorem signalled_signal : (s.signal p).signalled = s.signalled ++ [p] := rfl

@[simp] theorem signalled_without : (s.without p).signalled = s.signalled := rfl

theorem mem_children {c : ℕ} :
    c ∈ s.children world order p ↔ c ∈ s.alive ∧ world.parent c = some p := by
  rw [State.children, order.mem, Finset.mem_filter]

/-! ## One call -/

/-- The process was not killed by the call, but is gone. -/
def Escaped (s : State) (q : ℕ) : Prop := q ∉ s.signalled ∧ q ∉ s.alive

/-- What a call for the processes `roots` does: only processes below them get a signal
or are killed by it, the roots are dead in the end, and whoever else survives is below
a process that escaped. -/
structure Ended (world : World) (roots : List ℕ) (s s' : State) : Prop where
  later : Later world (· ∈ s'.signalled) s s'
  signalled : ∃ new, s'.signalled = s.signalled ++ new ∧
    ∀ q ∈ new, ∃ r ∈ roots, world.Below r q
  dead : ∀ r ∈ roots, r ∉ s'.alive
  escaped : ∀ r ∈ roots, (∀ q ∈ s.signalled, ¬ world.Below r q) →
    ∀ x ∈ s'.alive, x < s.next → world.Below r x →
      ∃ q, world.Below r q ∧ world.Below q x ∧ q ≠ x ∧ Escaped s' q

/-- Nothing happens to a process that is gone. -/
theorem ended_of_gone (hlater : Later world (fun _ => False) s s')
    (hsignalled : s'.signalled = s.signalled) (hdead : p ∉ s'.alive) :
    Ended world [p] s s' where
  later := hlater.mono fun _ h => h.elim
  signalled := ⟨[], by simp [hsignalled], by simp⟩
  dead := by simpa using hdead
  escaped := by
    intro r hr hfresh x hx hlt hbelow
    obtain rfl := List.mem_singleton.1 hr
    refine ⟨r, .refl r, hbelow, ?_, ?_, hdead⟩
    · rintro rfl
      exact hdead hx
    · rw [hsignalled]
      exact fun hmem => hfresh r hmem (.refl r)

/-- The calls for the children of a process, one after the other. -/
theorem ended_foldlM {call : ℕ → State → Option State} {l : List ℕ} (hnodup : l.Nodup)
    (hparent : ∀ c ∈ l, world.parent c = some p)
    (hcall : ∀ c ∈ l, ∀ t t', c < t.next → call c t = some t' → Ended world [c] t t')
    (hborn : ∀ c ∈ l, c < s.next)
    (h : l.foldlM (fun s c => call c s) s = some s') : Ended world l s s' := by
  induction l generalizing s with
  | nil =>
      obtain rfl : s = s' := by simpa using h
      exact ⟨Later.refl s, ⟨[], by simp, by simp⟩, by simp, by simp⟩
  | cons c rest ih =>
      rw [List.foldlM_cons] at h
      cases hfirst : call c s with
      | none => simp [hfirst] at h
      | some s₁ =>
          rw [hfirst] at h
          have hc := hparent c List.mem_cons_self
          obtain ⟨hnotMem, hrest⟩ := List.nodup_cons.1 hnodup
          have hended := hcall c List.mem_cons_self s s₁ (hborn c List.mem_cons_self) hfirst
          have hnext : s.next ≤ s₁.next := hended.later.next
          have hends : Ended world rest s₁ s' := by
            refine ih hrest (fun d hd => hparent d (List.mem_cons_of_mem _ hd)) ?_ ?_ h
            · exact fun d hd => hcall d (List.mem_cons_of_mem _ hd)
            · exact fun d hd => (hborn d (List.mem_cons_of_mem _ hd)).trans_le hnext
          obtain ⟨new, hnew, hnewBelow⟩ := hended.signalled
          obtain ⟨new', hnew', hnewBelow'⟩ := hends.signalled
          have hapart : ∀ d ∈ rest, ∀ q, world.Below c q → ¬ world.Below d q := by
            intro d hd q hq
            refine Forest.below_apart hc (hparent d (List.mem_cons_of_mem _ hd)) ?_ hq
            rintro rfl
            exact hnotMem hd
          have hsub : ∀ q ∈ s₁.signalled, q ∈ s'.signalled := by
            intro q hq
            rw [hnew']
            exact List.mem_append_left _ hq
          refine ⟨(hended.later.mono hsub).trans hends.later, ⟨new ++ new', ?_, ?_⟩, ?_, ?_⟩
          · rw [hnew', hnew, List.append_assoc]
          · intro q hq
            rcases List.mem_append.1 hq with hq | hq
            · obtain ⟨r, hr, hbelow⟩ := hnewBelow q hq
              exact ⟨c, List.mem_cons_self, List.mem_singleton.1 hr ▸ hbelow⟩
            · obtain ⟨d, hd, hbelow⟩ := hnewBelow' q hq
              exact ⟨d, List.mem_cons_of_mem _ hd, hbelow⟩
          · intro d hd
            rcases List.mem_cons.1 hd with rfl | hd
            · refine hends.later.dead ((hborn d List.mem_cons_self).trans_le hnext) ?_
              exact hended.dead d List.mem_cons_self
            · exact hends.dead d hd
          · intro d hd hfresh x hx hlt hbelow
            have hlt₁ : x < s₁.next := hlt.trans_le hnext
            rcases List.mem_cons.1 hd with rfl | hd
            · -- what escaped the first call is not reached by the later ones
              obtain ⟨q, hq, hqx, hne, hquiet, hgone⟩ := hended.escaped d List.mem_cons_self
                hfresh x (hends.later.alive x hx hlt₁) hlt hbelow
              refine ⟨q, hq, hqx, hne, ?_, hends.later.dead (hqx.le.trans_lt hlt₁) hgone⟩
              rw [hnew', List.mem_append, not_or]
              refine ⟨hquiet, fun hmem => ?_⟩
              obtain ⟨d', hd', hbelow'⟩ := hnewBelow' q hmem
              exact hapart d' hd' q hq hbelow'
            · refine hends.escaped d hd ?_ x hx hlt₁ hbelow
              intro q hq
              rw [hnew, List.mem_append] at hq
              rcases hq with hq | hq
              · exact hfresh q hq
              · obtain ⟨r, hr, hbelow'⟩ := hnewBelow q hq
                exact hapart d hd q (List.mem_singleton.1 hr ▸ hbelow')

/-- A call that comes to the children and to the end: `a` is the state in which the
children were listed, `t` the one after SIGTERM and `d` the one after the children. -/
theorem ended_of_children {a t d : State} (hp : p < s.next)
    (ha : Later world (fun _ => False) s a) (ht : Later world (fun _ => False) a t)
    (hsignalled : t.signalled = s.signalled ++ [p])
    (hends : Ended world (a.children world order p) t d) :
    Ended world [p] s ((d.pass world).without p) := by
  obtain ⟨new, hnew, hnewBelow⟩ := hends.signalled
  have hall : ((d.pass world).without p).signalled = s.signalled ++ (p :: new) := by
    rw [signalled_without, signalled_pass, hnew, hsignalled, List.append_assoc]
    rfl
  have hmem : p ∈ ((d.pass world).without p).signalled := by
    rw [hall]
    simp
  have hlast : Later world (· ∈ ((d.pass world).without p).signalled) d
      ((d.pass world).without p) := later_pass.trans (.without (.inl hmem))
  have hchildren : Later world (· ∈ ((d.pass world).without p).signalled) t d := by
    refine hends.later.mono fun x hx => ?_
    rwa [signalled_without, signalled_pass]
  have hfirst : Later world (· ∈ ((d.pass world).without p).signalled) s a :=
    ha.mono fun _ h => h.elim
  have hsent : Later world (· ∈ ((d.pass world).without p).signalled) a t :=
    ht.mono fun _ h => h.elim
  have hdead : p ∉ ((d.pass world).without p).alive := Finset.notMem_erase p _
  refine ⟨hfirst.trans (hsent.trans (hchildren.trans hlast)), ⟨p :: new, hall, ?_⟩, ?_, ?_⟩
  · intro q hq
    refine ⟨p, List.mem_singleton_self p, ?_⟩
    rcases List.mem_cons.1 hq with rfl | hq
    · exact .refl q
    · obtain ⟨c, hc, hbelow⟩ := hnewBelow q hq
      exact (Forest.below_child (mem_children.1 hc).2).trans hbelow
  · simpa using hdead
  · intro r hr hfresh x hx hlt hbelow
    obtain rfl := List.mem_singleton.1 hr
    have hnextA : s.next ≤ a.next := ha.next
    have hnextT : a.next ≤ t.next := ht.next
    have hnextD : t.next ≤ d.next := hends.later.next
    obtain ⟨c, hc, hcx⟩ := hbelow.exists_child (by rintro rfl; exact hdead hx)
    have hcs : c < s.next := hcx.le.trans_lt hlt
    have hxd : x ∈ d.alive := hlast.alive x hx (by omega)
    by_cases hlisted : c ∈ a.children world order r
    · obtain ⟨q, hq, hqx, hne, hquiet, hgone⟩ := hends.escaped c hlisted (by
          intro q hq
          rw [hsignalled, List.mem_append, List.mem_singleton] at hq
          rcases hq with hq | rfl
          · exact fun h => hfresh q hq ((Forest.below_child hc).trans h)
          · exact Forest.not_below_child hc) x hxd (by omega) hcx
      have hq' : q < d.next := by
        have := hqx.le
        omega
      refine ⟨q, (Forest.below_child hc).trans hq, hqx, hne, ?_, hlast.dead hq' hgone⟩
      rwa [signalled_without, signalled_pass]
    · -- the child was gone before the children were listed
      have hgone : c ∉ a.alive := fun h => hlisted (mem_children.2 ⟨h, hc⟩)
      have hgone' : c ∉ ((d.pass world).without r).alive :=
        (hsent.trans (hchildren.trans hlast)).dead (hcs.trans_le hnextA) hgone
      refine ⟨c, Forest.below_child hc, hcx, ?_, ?_, hgone'⟩
      · rintro rfl
        exact hgone' hx
      · rw [hall, List.mem_append, List.mem_cons, not_or, not_or]
        refine ⟨fun h => hfresh c h (Forest.below_child hc), ?_, fun h => ?_⟩
        · exact Nat.ne_of_gt (world.older c r hc)
        · obtain ⟨c', hc', hbelow'⟩ := hnewBelow c h
          refine Forest.below_apart (mem_children.1 hc').2 hc ?_ hbelow' (.refl c)
          rintro rfl
          exact hlisted hc'

/-- The specification of the call, by induction on its depth. -/
theorem ended_of_terminate {n : ℕ} : ∀ {p : ℕ} {s s' : State}, p < s.next →
    terminateProcessAndChildren world order n p s = some s' → Ended world [p] s s' := by
  induction n with
  | zero => simp [terminateProcessAndChildren]
  | succ n ih =>
      intro p s s' hp h
      rw [terminateProcessAndChildren] at h
      have ha : Later world (fun _ => False) s (s.pass world) := later_pass
      generalize hsa : s.pass world = a at h ha
      have hsignalledA : a.signalled = s.signalled := by rw [← hsa, signalled_pass]
      by_cases hpa : p ∈ a.alive
      · simp only [hpa, if_true] at h
        have hb : Later world (fun _ => False) a (a.pass world) := later_pass
        generalize hsb : a.pass world = b at h hb
        have hsignalledB : b.signalled = s.signalled := by
          rw [← hsb, signalled_pass, hsignalledA]
        by_cases hpb : p ∈ b.alive
        · simp only [hpb, if_true] at h
          obtain ⟨d, hd, rfl⟩ := Option.map_eq_some_iff.1 h
          have ht : Later world (fun _ => False) b ((b.signal p).pass world) :=
            (Later.signal p).trans later_pass
          have hsent : ((b.signal p).pass world).signalled = s.signalled ++ [p] := by
            rw [signalled_pass, signalled_signal, hsignalledB]
          have hends : Ended world (a.children world order p) ((b.signal p).pass world) d := by
            refine ended_foldlM (order.nodup _) (fun c hc => (mem_children.1 hc).2) ?_ ?_ hd
            · exact fun c _ t t' hct ht' => ih hct ht'
            · intro c hc
              exact (a.born c (mem_children.1 hc).1).trans_le (hb.trans ht).next
          exact ended_of_children hp ha (hb.trans ht) hsent hends
        · rw [if_neg hpb] at h
          cases h
          exact ended_of_gone (ha.trans hb) hsignalledB hpb
      · rw [if_neg hpa] at h
        cases h
        exact ended_of_gone ha hsignalledA hpa

/-! ## The recursion ends -/

/-- How many processes are born before the next `t` system calls. -/
def births (world : World) (time t : ℕ) : ℕ :=
  ((List.range t).map fun k => (world.events (time + k)).count .forks).sum

/-- Never more than `N` processes are born. -/
def Fits (world : World) (N : ℕ) (s : State) : Prop :=
  ∀ t, s.next + births world s.time t ≤ N

theorem births_succ {time t : ℕ} : births world time (t + 1) =
    (world.events time).count .forks + births world (time + 1) t := by
  simp [births, List.range_succ_eq_map, Function.comp_def, Nat.add_assoc, Nat.add_comm 1]

theorem next_foldl {events : List Event} :
    (events.foldl (State.happen world) s).next = s.next + events.count .forks := by
  induction events generalizing s with
  | nil => rfl
  | cons event rest ih =>
      rw [List.foldl_cons, ih]
      cases event with
      | exits p => simp [State.happen, State.without]
      | forks =>
          simp only [State.happen, State.fork, List.count_cons_self]
          omega

theorem Fits.next_le {N : ℕ} (h : Fits world N s) : s.next ≤ N := by
  have := h 0
  omega

theorem Fits.pass {N : ℕ} (h : Fits world N s) : Fits world N (s.pass world) := by
  intro t
  have hnext : (s.pass world).next = s.next + (world.events s.time).count .forks := next_foldl
  have htime : (s.pass world).time = s.time + 1 := rfl
  have hall := h (t + 1)
  rw [births_succ] at hall
  rw [hnext, htime]
  omega

theorem Fits.signal {N : ℕ} (h : Fits world N s) (p : ℕ) : Fits world N (s.signal p) := h

theorem Fits.without {N : ℕ} (h : Fits world N s) (p : ℕ) : Fits world N (s.without p) := h

theorem exists_foldlM {inv : State → Prop} {call : ℕ → State → Option State} {l : List ℕ}
    (hcall : ∀ c ∈ l, ∀ t, inv t → ∃ t', call c t = some t' ∧ inv t') (h : inv s) :
    ∃ s', l.foldlM (fun s c => call c s) s = some s' ∧ inv s' := by
  induction l generalizing s with
  | nil => exact ⟨s, rfl, h⟩
  | cons c rest ih =>
      obtain ⟨s₁, hs₁, hinv⟩ := hcall c List.mem_cons_self s h
      obtain ⟨s', hs', hinv'⟩ := ih (fun d hd => hcall d (List.mem_cons_of_mem _ hd)) hinv
      exact ⟨s', by rw [List.foldlM_cons, hs₁]; exact hs', hinv'⟩

/-- A child has a greater number than its parent, so the depth is bounded. -/
theorem exists_terminate {N n : ℕ} : ∀ {p : ℕ} {s : State}, p < s.next → N < p + n →
    Fits world N s →
    ∃ s', terminateProcessAndChildren world order n p s = some s' ∧ Fits world N s' := by
  induction n with
  | zero =>
      intro p s hp hn hfits
      have := hfits.next_le
      omega
  | succ n ih =>
      intro p s hp hn hfits
      rw [terminateProcessAndChildren]
      have ha : Fits world N (s.pass world) := hfits.pass
      have hb : Fits world N ((s.pass world).pass world) := ha.pass
      by_cases hpa : p ∈ (s.pass world).alive
      · by_cases hpb : p ∈ ((s.pass world).pass world).alive
        · have ht : Fits world N ((((s.pass world).pass world).signal p).pass world) :=
            (hb.signal p).pass
          have hlater : Later world (fun _ => True) (s.pass world)
              ((((s.pass world).pass world).signal p).pass world) :=
            later_pass.trans ((Later.signal p).trans later_pass)
          have hcall : ∀ c ∈ (s.pass world).children world order p, ∀ t,
              Fits world N t ∧ (s.pass world).next ≤ t.next →
              ∃ t', terminateProcessAndChildren world order n c t = some t' ∧
                Fits world N t' ∧ (s.pass world).next ≤ t'.next := by
            rintro c hc t ⟨hfitsT, hle⟩
            obtain ⟨halive, hparent⟩ := mem_children.1 hc
            have hct : c < t.next := ((s.pass world).born c halive).trans_le hle
            have hpc : p < c := world.older c p hparent
            obtain ⟨t', ht', hfits'⟩ := ih hct (by omega) hfitsT
            exact ⟨t', ht', hfits', hle.trans (ended_of_terminate hct ht').later.next⟩
          obtain ⟨d, hd, hfitsD, -⟩ := exists_foldlM hcall ⟨ht, hlater.next⟩
          refine ⟨(d.pass world).without p, ?_, hfitsD.pass.without p⟩
          simp only [hpa, hpb, if_true, hd, Option.map_some]
        · exact ⟨_, by simp only [hpa, hpb, if_true, if_false], hb⟩
      · exact ⟨_, by simp only [hpa, if_false], ha⟩

/-! ## Who survives -/

/-- If no more than finitely many processes are born, the call ends. Then the process is
dead, the call has sent signals only to processes of its tree, and everybody else who is
gone exited on its own. A process of the tree that was there from the start survives
only below one that exited on its own, or was gone before, and never got a signal. -/
theorem terminateProcessAndChildren_spec (world : World) (order : IterOrder ℕ) {p : ℕ}
    {s : State} (hp : p < s.next) (hfresh : s.signalled = []) :
    (∀ N, Fits world N s →
      ∃ n s', terminateProcessAndChildren world order n p s = some s') ∧
    ∀ n s', terminateProcessAndChildren world order n p s = some s' →
      p ∉ s'.alive ∧
      (∀ q ∈ s'.signalled, world.Below p q) ∧
      (∀ x ∈ s.alive, x ∉ s'.alive → x ∈ s'.signalled ∨ world.Exits x) ∧
      ∀ x ∈ s'.alive, x < s.next → world.Below p x →
        ∃ q, world.Below p q ∧ world.Below q x ∧ q ≠ x ∧ q ∉ s'.signalled ∧
          (q ∉ s.alive ∨ world.Exits q) := by
  refine ⟨fun N hN => ?_, fun n s' h => ?_⟩
  · have hdepth : N < p + (N + 1) := by omega
    obtain ⟨s', hs', -⟩ := exists_terminate hp hdepth hN
    exact ⟨N + 1, s', hs'⟩
  · have hended : Ended world [p] s s' := ended_of_terminate hp h
    obtain ⟨new, hnew, hbelow⟩ := hended.signalled
    refine ⟨hended.dead p List.mem_cons_self, ?_, hended.later.gone, ?_⟩
    · intro q hq
      rw [hnew, hfresh, List.nil_append] at hq
      obtain ⟨r, hr, hrq⟩ := hbelow q hq
      exact List.mem_singleton.1 hr ▸ hrq
    · intro x hx hlt hpx
      obtain ⟨q, hq, hqx, hne, hquiet, hgone⟩ :=
        hended.escaped p List.mem_cons_self (by simp [hfresh]) x hx hlt hpx
      refine ⟨q, hq, hqx, hne, hquiet, ?_⟩
      by_cases hqs : q ∈ s.alive
      · exact .inr ((hended.later.gone q hqs hgone).resolve_left hquiet)
      · exact .inl hqs

/-! ## A process that exits with its parent -/

/-- Process 0 has the children 1 and 3, they have one child each, and process 1 exits
while the call waits for process 0. -/
def family : World where
  parent i := if i = 1 ∨ i = 3 then some 0 else if i = 2 then some 1 else if i = 4 then some 3
    else none
  older := by grind
  events t := if t = 2 then [.exits 1] else []

/-- Sets of numbers from the smallest on. -/
def ascending : IterOrder ℕ where
  list s := (List.range (s.sup id + 1)).filter (· ∈ s)
  nodup _ := List.nodup_range.filter _
  mem := by
    intro s a
    have hle : a ∈ s → a ≤ s.sup id := fun ha => Finset.le_sup (f := id) ha
    simp only [List.mem_filter, List.mem_range, decide_eq_true_eq]
    exact ⟨fun h => h.2, fun h => ⟨Nat.lt_succ_of_le (hle h), h⟩⟩

/-- All of them live. -/
def allAlive : State := ⟨{0, 1, 2, 3, 4}, 5, 0, [], by decide⟩

/-- What is left of them. -/
def afterwards : State :=
  (terminateProcessAndChildren family ascending 3 0 allAlive).getD allAlive

example : afterwards.alive = {2} ∧ afterwards.signalled = [0, 3, 4] := by decide +kernel

theorem terminateProcessAndChildren_family :
    ∃ q, family.Below 0 q ∧ family.Below q 2 ∧ q ≠ 2 ∧ q ∉ afterwards.signalled ∧
      (q ∉ allAlive.alive ∨ family.Exits q) := by
  have hrun : terminateProcessAndChildren family ascending 3 0 allAlive = some afterwards := by
    have hsome : (terminateProcessAndChildren family ascending 3 0 allAlive).isSome = true := by
      decide +kernel
    obtain ⟨s, hs⟩ := Option.isSome_iff_exists.1 hsome
    simp [afterwards, hs]
  have hsurvives : 2 ∈ afterwards.alive := by decide +kernel
  have hbelow : family.Below 0 2 :=
    (Forest.below_child (c := 1) (by decide)).trans (Forest.below_child (by decide))
  have hborn : 0 < allAlive.next := by decide
  exact ((terminateProcessAndChildren_spec family ascending hborn rfl).2 3 afterwards
    hrun).2.2.2 2 hsurvives (by decide) hbelow

end FactCore.ProcessTree
