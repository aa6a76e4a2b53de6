import FactCore.Scheduler.ExtractionWorkers

/-! # The invariant of the extraction workers

What holds between any two steps of the loop, the threads and the daemon, and
one lemma for each step. A worker keeps its port and its docker containers, a
live thread keeps its worker busy, and the loop changes only the container of a
worker whose thread is dead.
-/

namespace FactCore.ExtractionWorkers

open Tla

/-! ## The daemon -/

/-- Ids are fresh, and the containers of a worker are on its port. -/
structure Docker.Sound (cfg : Config) (d : Docker) : Prop where
  running : ∀ k ∈ d.running, k < d.nextId
  ours : ∀ k ∈ d.ours, k < d.nextId
  removed : ∀ k ∈ d.removed, k < d.nextId
  gone : ∀ k ∈ d.removed, k ∉ d.running
  port : ∀ k r i, d.running.get? k = some r → d.ours.get? k = some i →
    r.hostPorts = [toString (cfg.basePort + i)]

namespace ExtractionContainer

/-- The container object of the worker `i`, with a container of this worker, if any. -/
structure Of (cfg : Config) (d : Docker) (i : Nat) (c : ExtractionContainer) : Prop where
  id : c.id = i
  port : c.port = cfg.basePort + i
  ours : ∀ k, c.containerId = some k → d.ours.get? k = some i

/-- At most one container has been removed, and it was on the port of `c`. -/
def Freed (c : ExtractionContainer) (d d' : Docker) : Prop :=
  d' = d ∨ ∃ k r, d.running.get? k = some r ∧ c.hasSamePort r = true ∧ d' = d.remove k

/-- What `start` can do: nothing new runs, or a new container runs for `c`. -/
inductive Starts (cfg : Config) (c : ExtractionContainer) (d : Docker) :
    Docker → Except Raised ExtractionContainer → Prop
  | raised (e : Raised) {d' : Docker} (h : c.Freed d d') : Starts cfg c d d' (.error e)
  | dropped : Starts cfg c d d (.ok c)
  | runs {d' : Docker} (h : c.Freed d d') :
      Starts cfg c d (c.runOn cfg d') (.ok { c with containerId := some d'.nextId })

theorem starts_of_startContainer {cfg : Config} {answer : RunAnswer} {c : ExtractionContainer}
    {d d' : Docker} (h : c.Freed d d') :
    Starts cfg c d (c.startContainer cfg answer d').1 (c.startContainer cfg answer d').2 := by
  cases answer with
  | started => exact .runs h
  | portAllocated => exact .raised _ h
  | apiError => exact .raised _ h
  | raises => exact .raised _ h

theorem starts_of_recover {cfg : Config} {answers : Answers} {c : ExtractionContainer}
    {d : Docker} :
    Starts cfg c d (c.recoverFromPortInUse cfg answers d).1
      (c.recoverFromPortInUse cfg answers d).2 := by
  unfold recoverFromPortInUse
  cases hfind : d.running.items.find? fun p =>
      isExtractorContainer cfg p.2 && c.hasSamePort p.2 with
  | none => exact .raised _ (.inl rfl)
  | some p =>
      have hrunning : d.running.get? p.1 = some p.2 :=
        Dict.get?_eq_some_iff.2 (List.mem_of_find?_eq_some hfind)
      have hport : c.hasSamePort p.2 = true := by
        have := List.find?_some hfind
        simp only [Bool.and_eq_true] at this
        exact this.2
      cases hstop : answers.recoverStopFails with
      | true => exact .raised _ (.inl rfl)
      | false => exact starts_of_startContainer (.inr ⟨p.1, p.2, hrunning, hport, rfl⟩)

/-- The specification of `start`. -/
theorem starts (cfg : Config) (answers : Answers) (c : ExtractionContainer) (d : Docker) :
    Starts cfg c d (c.start cfg answers d).1 (c.start cfg answers d).2 := by
  unfold start
  by_cases hid : c.containerId.isSome
  · rw [if_pos hid]
    exact .raised _ (.inl rfl)
  · rw [if_neg hid]
    cases hrun : answers.run with
    | started => exact .runs (.inl rfl)
    | portAllocated => exact starts_of_recover
    | apiError => exact .dropped
    | raises => exact .raised _ (.inl rfl)

end ExtractionContainer

open ExtractionContainer

/-- Ports are told apart by their decimal strings. -/
theorem toString_injective {m n : Nat} (h : toString m = toString n) : m = n := by
  have hdigits : (Nat.repr m).toList = (Nat.repr n).toList := congrArg String.toList h
  rw [Nat.toList_repr, Nat.toList_repr] at hdigits
  rw [← Nat.ofDigitChars_ten_toDigits (n := m), hdigits, Nat.ofDigitChars_ten_toDigits]

namespace Docker.Sound

variable {cfg : Config} {d d' : Docker} {c : ExtractionContainer}

theorem remove (h : d.Sound cfg) {k : Nat} (hk : k ∈ d.running) : (d.remove k).Sound cfg where
  running := fun k' hk' => h.running k' ((Dict.mem_erase.1 hk').2)
  ours := h.ours
  removed := by
    intro k' hk'
    rcases List.mem_append.1 hk' with hk' | hk'
    · exact h.removed k' hk'
    · rw [List.mem_singleton.1 hk']
      exact h.running k hk
  gone := by
    intro k' hk' hrunning
    obtain ⟨hne, hrunning⟩ := Dict.mem_erase.1 hrunning
    rcases List.mem_append.1 hk' with hk' | hk'
    · exact h.gone k' hk' hrunning
    · exact hne (List.mem_singleton.1 hk')
  port := by
    intro k' r i hr hi
    by_cases hne : k' = k
    · simp [Docker.remove, hne] at hr
    · exact h.port k' r i (by rwa [Docker.remove, Dict.get?_erase_ne _ hne] at hr) hi

theorem freed (h : d.Sound cfg) (hfreed : c.Freed d d') : d'.Sound cfg := by
  rcases hfreed with rfl | ⟨k, r, hrunning, _, rfl⟩
  · exact h
  · exact h.remove (Dict.mem_of_get? hrunning)

/-- A new container has an id that nobody has seen. -/
theorem run (h : d.Sound cfg) (hport : c.port = cfg.basePort + c.id) :
    (c.runOn cfg d).Sound cfg where
  running := by
    intro k hk
    show k < d.nextId + 1
    rcases Dict.mem_set.1 hk with rfl | hk
    · omega
    · have := h.running k hk
      omega
  ours := by
    intro k hk
    show k < d.nextId + 1
    rcases Dict.mem_set.1 hk with rfl | hk
    · omega
    · have := h.ours k hk
      omega
  removed := by
    intro k hk
    show k < d.nextId + 1
    have := h.removed k hk
    omega
  gone := by
    intro k hk hrunning
    rcases Dict.mem_set.1 hrunning with rfl | hrunning
    · exact absurd (h.removed _ hk) (Nat.lt_irrefl _)
    · exact h.gone k hk hrunning
  port := by
    intro k r i hr hi
    by_cases hk : k = d.nextId
    · subst hk
      obtain rfl : _ = r := by simpa [runOn] using hr
      obtain rfl : c.id = i := by simpa [runOn] using hi
      simp [hport]
    · exact h.port k r i (by rwa [runOn, Dict.get?_set_ne _ _ hk] at hr)
        (by rwa [runOn, Dict.get?_set_ne _ _ hk] at hi)

theorem starts {r : Except Raised ExtractionContainer} (h : d.Sound cfg)
    (hport : c.port = cfg.basePort + c.id) (hstarts : Starts cfg c d d' r) : d'.Sound cfg := by
  cases hstarts with
  | raised e hfreed => exact h.freed hfreed
  | dropped => exact h
  | runs hfreed => exact (h.freed hfreed).run hport

/-- Containers vanish without the scheduler. -/
theorem dies (h : d.Sound cfg) (k : Nat) :
    ({ d with running := d.running.erase k } : Docker).Sound cfg where
  running := fun k' hk' => h.running k' (Dict.mem_erase.1 hk').2
  ours := h.ours
  removed := h.removed
  gone := fun k' hk' hrunning => h.gone k' hk' (Dict.mem_erase.1 hrunning).2
  port := by
    intro k' r i hr hi
    by_cases hne : k' = k
    · simp [hne] at hr
    · exact h.port k' r i (by rwa [Dict.get?_erase_ne _ hne] at hr) hi

/-- Other programs start containers. -/
theorem foreignRun (h : d.Sound cfg) (r : DockerContainer) :
    ({ d with
      running := d.running.set d.nextId r
      nextId := d.nextId + 1 } : Docker).Sound cfg where
  running := by
    intro k hk
    show k < d.nextId + 1
    rcases Dict.mem_set.1 hk with rfl | hk
    · omega
    · have := h.running k hk
      omega
  ours := fun k hk => Nat.lt_succ_of_lt (h.ours k hk)
  removed := fun k hk => Nat.lt_succ_of_lt (h.removed k hk)
  gone := by
    intro k hk hrunning
    rcases Dict.mem_set.1 hrunning with rfl | hrunning
    · exact absurd (h.removed _ hk) (Nat.lt_irrefl _)
    · exact h.gone k hk hrunning
  port := by
    intro k r' i hr hi
    by_cases hk : k = d.nextId
    · subst hk
      exact absurd (h.ours _ (Dict.mem_of_get? hi)) (Nat.lt_irrefl _)
    · exact h.port k r' i (by rwa [Dict.get?_set_ne _ _ hk] at hr) hi

end Docker.Sound

/-! ## The invariant -/

/-- The tasks that `check_pending` has still to check. -/
def Loop.rest : Loop → List (Nat × Nat)
  | .checking rest | .stopping _ _ rest | .starting _ _ rest | .storing _ _ rest => rest
  | _ => []

/-- The worker that `check_pending` is at, with a dead thread. -/
def Loop.current : Loop → Option Nat
  | .stopping worker _ _ | .starting worker _ _ | .storing worker _ _ | .raised _ worker =>
      some worker
  | _ => none

/-- The worker whose container is stopped and not yet replaced. -/
def Loop.busy : Loop → Option Nat
  | .starting worker _ _ | .storing worker _ _ | .raised _ worker => some worker
  | _ => none

theorem Loop.current_of_busy {l : Loop} {w : Nat} (h : l.busy = some w) : l.current = some w := by
  cases l <;> first | exact h | cases h

/-- The task of the worker is pending, but its thread is dead. -/
def State.Dead (s : State) (w : Nat) : Prop :=
  ∃ tid, s.pendingTasks.get? w = some tid ∧ tid ∉ s.threads

/-- The container that `workers` still lists for the worker was removed. -/
def State.Replaced (s : State) (w : Nat) : Prop :=
  ∀ c, s.workers[w]? = some c → ∀ k, c.containerId = some k → k ∈ s.docker.removed

/-- What holds between the steps. -/
structure Inv (cfg : Config) (s : State) : Prop where
  docker : s.docker.Sound cfg
  failed : ∀ k ∈ s.log.failed, k < s.docker.nextId
  worker : ∀ i (c : ExtractionContainer), s.workers[i]? = some c → c.Of cfg s.docker i
  kept : ∀ i c k, s.workers[i]? = some c → c.containerId = some k → s.loop.busy ≠ some i →
    k ∉ s.docker.removed
  usable : ∀ i c k, s.workers[i]? = some c → c.containerId = some k → s.loop.busy ≠ some i →
    k ∈ s.log.failed → s.exceptions i = 1
  thread : ∀ tid th, s.threads.get? tid = some th →
    s.workers[th.container.id]? = some th.container ∧
      s.pendingTasks.get? th.container.id = some tid ∧
      s.exceptions th.container.id = if th.failed then 1 else 0
  flag : ∀ i, s.exceptions i = 0 ∨ s.exceptions i = 1
  idle : ∀ i, i ∉ s.pendingTasks → s.exceptions i = 0
  known : ∀ i tid, s.pendingTasks.get? i = some tid → tid < s.nextThread
  listed : ∀ i tid, s.pendingTasks.get? i = some tid → i < s.workers.length
  fresh : ∀ tid ∈ s.threads, tid < s.nextThread
  rest : (s.loop.rest.map Prod.fst).Nodup ∧
    ∀ p ∈ s.loop.rest, s.pendingTasks.get? p.1 = some p.2
  current : ∀ w, s.loop.current = some w → s.Dead w ∧ w ∉ s.loop.rest.map Prod.fst
  stopping : ∀ w c rest, s.loop = .stopping w c rest → s.workers[w]? = some c
  starting : ∀ w c rest, s.loop = .starting w c rest →
    c.Of cfg s.docker w ∧ c.containerId = none ∧ s.exceptions w = 0 ∧ s.Replaced w
  storing : ∀ w c rest, s.loop = .storing w c rest →
    c.Of cfg s.docker w ∧ s.exceptions w = 0 ∧ s.Replaced w ∧
      ∀ k, c.containerId = some k → k ∉ s.docker.removed ∧ k ∉ s.log.failed
  getting : ∀ c, s.loop = .getting c → s.workers[c.id]? = some c ∧ c.id ∉ s.pendingTasks
  recorded : ∀ k i, k ∈ s.docker.running → s.docker.ours.get? k = some i →
    (∃ c, s.workers[i]? = some c ∧ c.containerId = some k) ∨
      ∃ c rest, s.loop = .storing i c rest ∧ c.containerId = some k
  tasks : s.log.handed ++ s.inQueue = s.log.puts

namespace Inv

variable {cfg : Config} {s : State}

/-- The loop is at no worker with a live thread. -/
theorem not_current (h : Inv cfg s) {tid : Nat} {th : Thread}
    (hth : s.threads.get? tid = some th) : s.loop.current ≠ some th.container.id := by
  intro hcurrent
  obtain ⟨⟨tid', hpending, hdead⟩, -⟩ := h.current _ hcurrent
  rw [(h.thread tid th hth).2.1] at hpending
  cases hpending
  exact hdead (Dict.mem_of_get? hth)

/-- Only the loop moves, and it changes no container. -/
theorem setLoop (h : Inv cfg s) {l : Loop} (hbusy : s.loop.busy = none)
    (hstart : ∀ w c rest, l ≠ .starting w c rest) (hstore : ∀ w c rest, l ≠ .storing w c rest)
    (hrest : (l.rest.map Prod.fst).Nodup ∧ ∀ p ∈ l.rest, s.pendingTasks.get? p.1 = some p.2)
    (hcurrent : ∀ w, l.current = some w → s.Dead w ∧ w ∉ l.rest.map Prod.fst)
    (hstopping : ∀ w c rest, l = .stopping w c rest → s.workers[w]? = some c)
    (hgetting : ∀ c, l = .getting c → s.workers[c.id]? = some c ∧ c.id ∉ s.pendingTasks) :
    Inv cfg { s with loop := l } where
  docker := h.docker
  failed := h.failed
  worker := h.worker
  kept := fun i c k hc hk _ => h.kept i c k hc hk (by simp [hbusy])
  usable := fun i c k hc hk _ => h.usable i c k hc hk (by simp [hbusy])
  thread := h.thread
  flag := h.flag
  idle := h.idle
  known := h.known
  listed := h.listed
  fresh := h.fresh
  rest := hrest
  current := hcurrent
  stopping := hstopping
  starting := fun w c rest hl => absurd hl (hstart w c rest)
  storing := fun w c rest hl => absurd hl (hstore w c rest)
  getting := hgetting
  recorded := by
    intro k i hk hi
    rcases h.recorded k i hk hi with hc | ⟨c, rest, hl, -⟩
    · exact .inl hc
    · -- a container that is not stored yet makes its worker busy
      rw [hl] at hbusy
      cases hbusy
  tasks := h.tasks

/-- A round of the loop begins. -/
theorem nextRound (h : Inv cfg s) (hbusy : s.loop.busy = none) : Inv cfg s.nextRound := by
  refine h.setLoop hbusy (by simp) (by simp) ⟨s.pendingTasks.nodup, ?_⟩ (by simp [Loop.current])
    (by simp) (by simp)
  intro p hp
  exact Dict.get?_eq_some_iff.2 hp

/-- Something else happens at the daemon. -/
theorem setDocker (h : Inv cfg s) {d : Docker} (hd : d.Sound cfg)
    (hnext : s.docker.nextId ≤ d.nextId) (hours : d.ours = s.docker.ours)
    (hremoved : d.removed = s.docker.removed)
    (hrunning : ∀ k, k ∈ d.running → k ∈ d.ours → k ∈ s.docker.running) :
    Inv cfg { s with docker := d } where
  docker := hd
  failed := fun k hk => Nat.lt_of_lt_of_le (h.failed k hk) hnext
  worker := fun i c hc => ⟨(h.worker i c hc).id, (h.worker i c hc).port,
    by simpa [hours] using (h.worker i c hc).ours⟩
  kept := by simpa [hremoved] using h.kept
  usable := h.usable
  thread := h.thread
  flag := h.flag
  idle := h.idle
  known := h.known
  listed := h.listed
  fresh := h.fresh
  rest := h.rest
  current := h.current
  stopping := h.stopping
  starting := by
    intro w c rest hl
    obtain ⟨hof, hnone, hflag, hold⟩ := h.starting w c rest hl
    exact ⟨⟨hof.id, hof.port, by simpa [hours] using hof.ours⟩, hnone, hflag,
      by simpa [State.Replaced, hremoved] using hold⟩
  storing := by
    intro w c rest hl
    obtain ⟨hof, hflag, hold, hnew⟩ := h.storing w c rest hl
    exact ⟨⟨hof.id, hof.port, by simpa [hours] using hof.ours⟩, hflag,
      by simpa [State.Replaced, hremoved] using hold, by simpa [hremoved] using hnew⟩
  getting := h.getting
  recorded := by
    intro k i hk hi
    exact h.recorded k i (hrunning k hk (Dict.mem_of_get? hi)) (by simpa [hours] using hi)
  tasks := h.tasks

/-! ## Checking a worker -/

/-- The task of a worker whose thread has ended well is popped. -/
theorem popped (h : Inv cfg s) (hbusy : s.loop.busy = none) {w tid : Nat}
    {rest : List (Nat × Nat)} (hw : s.pendingTasks.get? w = some tid) (hdead : tid ∉ s.threads)
    (hflag : s.exceptions w ≠ 1) (hnodup : w ∉ rest.map Prod.fst ∧ (rest.map Prod.fst).Nodup)
    (hrest : ∀ p ∈ rest, s.pendingTasks.get? p.1 = some p.2) :
    Inv cfg { s with pendingTasks := s.pendingTasks.erase w, loop := .checking rest } where
  docker := h.docker
  failed := h.failed
  worker := h.worker
  kept := fun i c k hc hk _ => h.kept i c k hc hk (by simp [hbusy])
  usable := fun i c k hc hk _ => h.usable i c k hc hk (by simp [hbusy])
  thread := by
    intro tid' th hth
    obtain ⟨hworker, hpending, hexc⟩ := h.thread tid' th hth
    have hne : th.container.id ≠ w := by
      rintro rfl
      rw [hpending] at hw
      cases hw
      exact hdead (Dict.mem_of_get? hth)
    exact ⟨hworker, by rwa [Dict.get?_erase_ne _ hne], hexc⟩
  flag := h.flag
  idle := by
    intro i hi
    by_cases hiw : i = w
    · subst hiw
      exact (h.flag i).resolve_right hflag
    · refine h.idle i fun hmem => hi (Dict.mem_erase.2 ⟨hiw, hmem⟩)
  known := by
    intro i tid' hi
    by_cases hiw : i = w
    · simp [hiw] at hi
    · exact h.known i tid' (by rwa [Dict.get?_erase_ne _ hiw] at hi)
  listed := by
    intro i tid' hi
    by_cases hiw : i = w
    · simp [hiw] at hi
    · exact h.listed i tid' (by rwa [Dict.get?_erase_ne _ hiw] at hi)
  fresh := h.fresh
  rest := by
    refine ⟨hnodup.2, fun p hp => ?_⟩
    have hne : p.1 ≠ w := by
      rintro rfl
      exact hnodup.1 (List.mem_map_of_mem hp)
    rw [Dict.get?_erase_ne _ hne]
    exact hrest p hp
  current := fun w hw => by cases hw
  stopping := fun w c rest hl => by cases hl
  starting := fun w c rest hl => by cases hl
  storing := fun w c rest hl => by cases hl
  getting := fun c hl => by cases hl
  recorded := by
    intro k i hk hi
    rcases h.recorded k i hk hi with hc | ⟨c, rest, hl, -⟩
    · exact .inl hc
    · rw [hl] at hbusy
      cases hbusy
  tasks := h.tasks

theorem checkPending (h : Inv cfg s) {w tid : Nat} {rest : List (Nat × Nat)}
    (hl : s.loop = .checking ((w, tid) :: rest)) :
    Inv cfg (ExtractionWorkers.checkPending w tid rest s) := by
  have hbusy : s.loop.busy = none := by simp [hl, Loop.busy]
  obtain ⟨hnodup, hpending⟩ : (((w, tid) :: rest).map Prod.fst).Nodup ∧
      ∀ p ∈ (w, tid) :: rest, s.pendingTasks.get? p.1 = some p.2 := by
    simpa [hl, Loop.rest] using h.rest
  have hw : s.pendingTasks.get? w = some tid := hpending (w, tid) List.mem_cons_self
  rw [List.map_cons, List.nodup_cons] at hnodup
  have hrest : ∀ p ∈ rest, s.pendingTasks.get? p.1 = some p.2 :=
    fun p hp => hpending p (List.mem_cons_of_mem _ hp)
  unfold ExtractionWorkers.checkPending
  by_cases hlive : tid ∈ s.threads
  · rw [if_pos hlive]
    exact h.setLoop hbusy (by simp) (by simp) ⟨hnodup.2, hrest⟩ (by simp [Loop.current])
      (by simp) (by simp)
  · rw [if_neg hlive]
    have hdead : s.Dead w := ⟨tid, hw, hlive⟩
    cases hc : s.workers[w]? with
    | none =>
        refine h.setLoop hbusy (by simp) (by simp) (by simp [Loop.rest]) ?_ (by simp) (by simp)
        intro w' hw'
        cases hw'
        exact ⟨hdead, by simp [Loop.rest]⟩
    | some c =>
        have hid : c.id = w := (h.worker w c hc).id
        dsimp only
        by_cases hflag : s.exceptions c.id = 1
        · rw [if_pos hflag]
          refine h.setLoop hbusy (by simp) (by simp) ⟨hnodup.2, hrest⟩ ?_ ?_ (by simp)
          · intro w' hw'
            cases hw'
            exact ⟨hdead, hnodup.1⟩
          · intro w' c' rest' hl'
            cases hl'
            exact hc
        · rw [if_neg hflag]
          rw [hid] at hflag
          exact h.popped hbusy hw hlive hflag hnodup hrest

/-! ## A restart -/

/-- The container of a worker is stopped. -/
theorem stopped (h : Inv cfg s) {w k : Nat} {c : ExtractionContainer} {rest : List (Nat × Nat)}
    (hl : s.loop = .stopping w c rest) (hk : c.containerId = some k) (hk' : k ∈ s.docker.running) :
    Inv cfg { s with
      docker := s.docker.remove k
      exceptions := Function.update s.exceptions c.id 0
      loop := .starting w { c with containerId := none } rest } := by
  have hbusy : s.loop.busy = none := by simp [hl, Loop.busy]
  have hrest := h.rest
  have hc : s.workers[w]? = some c := h.stopping w c rest hl
  have hof : c.Of cfg s.docker w := h.worker w c hc
  have hcurrent : s.loop.current = some w := by simp [hl, Loop.current]
  obtain ⟨hdead, hnotin⟩ := h.current w hcurrent
  rw [hl] at hrest hnotin
  have hid : c.id = w := hof.id
  subst hid
  -- a container of another worker is not the one that is removed
  have hother : ∀ i c', s.workers[i]? = some c' → c'.containerId = some k → i = c.id := by
    intro i c' hc' hk'
    have hi := (h.worker i c' hc').ours k hk'
    rw [hof.ours k hk] at hi
    exact (Option.some.inj hi).symm
  refine ⟨h.docker.remove hk', h.failed, fun i c' hc' => ⟨(h.worker i c' hc').id,
    (h.worker i c' hc').port, (h.worker i c' hc').ours⟩, ?_, ?_, ?_, ?_, ?_, h.known, h.listed,
    h.fresh, hrest, ?_, by simp, ?_, by simp, by simp, ?_, h.tasks⟩
  · intro i c' k' hc' hk'' hne hmem
    rcases List.mem_append.1 hmem with hmem | hmem
    · exact h.kept i c' k' hc' hk'' (by simp [hbusy]) hmem
    · obtain rfl := List.mem_singleton.1 hmem
      exact hne (congrArg some (hother i c' hc' hk'').symm)
  · intro i c' k' hc' hk'' hne hmem
    have hi : i ≠ c.id := fun hi => hne (congrArg some hi.symm)
    show Function.update s.exceptions c.id 0 i = 1
    rw [Function.update_of_ne hi]
    exact h.usable i c' k' hc' hk'' (by simp [hbusy]) hmem
  · intro tid th hth
    obtain ⟨hworker, hpending, hexc⟩ := h.thread tid th hth
    have hne : th.container.id ≠ c.id := fun he => h.not_current hth (by rw [hcurrent, he])
    exact ⟨hworker, hpending, (Function.update_of_ne hne _ _).trans hexc⟩
  · intro i
    by_cases hi : i = c.id
    · exact .inl (by simp [hi])
    · simpa [Function.update_of_ne hi] using h.flag i
  · intro i hi
    by_cases hi' : i = c.id
    · simp [hi']
    · simpa [Function.update_of_ne hi'] using h.idle i hi
  · intro w' hw'
    obtain rfl : c.id = w' := Option.some.inj hw'
    exact ⟨hdead, hnotin⟩
  · intro w' c' rest' hl'
    obtain ⟨rfl, rfl, rfl⟩ : c.id = w' ∧ { c with containerId := none } = c' ∧ rest = rest' := by
      simpa using hl'
    refine ⟨⟨rfl, hof.port, by simp⟩, rfl, by simp, ?_⟩
    intro c' hc' k' hk''
    obtain rfl : c = c' := Option.some.inj (hc.symm.trans hc')
    obtain rfl : k = k' := Option.some.inj (hk.symm.trans hk'')
    exact List.mem_append_right _ List.mem_cons_self
  · intro k' i hk'' hi
    rcases h.recorded k' i (Dict.mem_erase.1 hk'').2 hi with hc' | ⟨c', rest', hl', -⟩
    · exact .inl hc'
    · rw [hl] at hl'
      cases hl'

theorem restartStop (h : Inv cfg s) {stopFails : Bool} {w : Nat} {c : ExtractionContainer}
    {rest : List (Nat × Nat)} (hl : s.loop = .stopping w c rest) :
    Inv cfg (ExtractionWorkers.restartStop stopFails w c rest s) := by
  have hraised : ∀ e, Inv cfg { s with loop := .raised e w } := by
    intro e
    refine h.setLoop (by simp [hl, Loop.busy]) (by simp) (by simp) (by simp [Loop.rest]) ?_
      (by simp) (by simp)
    intro w' hw'
    obtain rfl : w = w' := Option.some.inj hw'
    exact ⟨(h.current w (by simp [hl, Loop.current])).1, by simp [Loop.rest]⟩
  unfold ExtractionWorkers.restartStop ExtractionContainer.stop
  cases hk : c.containerId with
  | none => exact hraised _
  | some k =>
      dsimp only
      by_cases hrunning : k ∈ s.docker.running
      · rw [if_pos hrunning]
        cases stopFails with
        | true => exact hraised _
        | false => exact h.stopped hl hk hrunning
      · rw [if_neg hrunning]
        exact hraised _

/-- A container in the way of the worker is removed: it is of no other worker. -/
theorem freed (h : Inv cfg s) {w : Nat} {c : ExtractionContainer} {rest : List (Nat × Nat)}
    {d : Docker} (hl : s.loop = .starting w c rest) (hfreed : c.Freed s.docker d) :
    Inv cfg { s with docker := d } := by
  rcases hfreed with rfl | ⟨k, r, hrunning, hport, rfl⟩
  · exact h
  obtain ⟨hof, hnone, hflag, hold⟩ := h.starting w c rest hl
  have hbusy : s.loop.busy = some w := by simp [hl, Loop.busy]
  refine ⟨h.docker.remove (Dict.mem_of_get? hrunning), h.failed,
    fun i c' hc' => ⟨(h.worker i c' hc').id, (h.worker i c' hc').port, (h.worker i c' hc').ours⟩,
    ?_, h.usable, h.thread, h.flag, h.idle, h.known, h.listed, h.fresh, h.rest, h.current,
    h.stopping, ?_, ?_, h.getting, ?_, h.tasks⟩
  · intro i c' k' hc' hk' hne hmem
    rcases List.mem_append.1 hmem with hmem | hmem
    · exact h.kept i c' k' hc' hk' hne hmem
    · obtain rfl := List.mem_singleton.1 hmem
      -- the port tells whose container it is
      have hports := h.docker.port k' r i hrunning ((h.worker i c' hc').ours k' hk')
      have heq : toString (cfg.basePort + i) = toString c.port := by
        simpa [ExtractionContainer.hasSamePort, hports] using hport
      have hi := toString_injective heq
      rw [hof.port] at hi
      exact hne (hbusy.trans (congrArg some (by omega)))
  · intro w' c' rest' hl'
    rw [hl] at hl'
    cases hl'
    exact ⟨⟨hof.id, hof.port, hof.ours⟩, hnone, hflag,
      fun c' hc' k' hk' => List.mem_append_left _ (hold c' hc' k' hk')⟩
  · intro w' c' rest' hl'
    rw [hl] at hl'
    cases hl'
  · intro k' i hk' hi
    exact h.recorded k' i (Dict.mem_erase.1 hk').2 hi

/-- The loop holds a container object without a container. -/
theorem dropped (h : Inv cfg s) {w : Nat} {c : ExtractionContainer} {rest : List (Nat × Nat)}
    (hl : s.loop = .starting w c rest) : Inv cfg { s with loop := .storing w c rest } := by
  obtain ⟨hof, hnone, hflag, hold⟩ := h.starting w c rest hl
  have hrest := h.rest
  have hcurrent := h.current w (by simp [hl, Loop.current])
  have hbusy : s.loop.busy = some w := by simp [hl, Loop.busy]
  rw [hl] at hrest hcurrent
  refine ⟨h.docker, h.failed, h.worker,
    fun i c' k hc' hk hne => h.kept i c' k hc' hk (by rwa [hbusy]),
    fun i c' k hc' hk hne => h.usable i c' k hc' hk (by rwa [hbusy]),
    h.thread, h.flag, h.idle, h.known, h.listed, h.fresh, hrest, ?_, by simp, by simp, ?_, by simp,
    ?_, h.tasks⟩
  · intro w' hw'
    obtain rfl : w = w' := Option.some.inj hw'
    exact hcurrent
  · intro w' c' rest' hl'
    cases hl'
    exact ⟨hof, hflag, hold, by simp [hnone]⟩
  · intro k i hk hi
    rcases h.recorded k i hk hi with hc' | ⟨c', rest', hl', -⟩
    · exact .inl hc'
    · rw [hl] at hl'
      cases hl'

/-- A new container runs, and the loop holds it. -/
theorem runs (h : Inv cfg s) {w : Nat} {c : ExtractionContainer} {rest : List (Nat × Nat)}
    (hl : s.loop = .starting w c rest) :
    Inv cfg { s with
      docker := c.runOn cfg s.docker
      loop := .storing w { c with containerId := some s.docker.nextId } rest } := by
  obtain ⟨hof, hnone, hflag, hold⟩ := h.starting w c rest hl
  have hrest := h.rest
  have hcurrent := h.current w (by simp [hl, Loop.current])
  have hbusy : s.loop.busy = some w := by simp [hl, Loop.busy]
  rw [hl] at hrest hcurrent
  have hid : c.id = w := hof.id
  -- what belonged to a worker before belongs to it still
  have hours : ∀ k i, s.docker.ours.get? k = some i →
      (c.runOn cfg s.docker).ours.get? k = some i := by
    intro k i hk
    have hne : k ≠ s.docker.nextId := Nat.ne_of_lt (h.docker.ours k (Dict.mem_of_get? hk))
    rwa [ExtractionContainer.runOn, Dict.get?_set_ne _ _ hne]
  have hnew : (c.runOn cfg s.docker).ours.get? s.docker.nextId = some w := by
    simp [ExtractionContainer.runOn, hid]
  refine ⟨h.docker.run (by rw [hof.port, hid]), fun k hk => Nat.lt_succ_of_lt (h.failed k hk), ?_,
    fun i c' k hc' hk hne => h.kept i c' k hc' hk (by rwa [hbusy]),
    fun i c' k hc' hk hne => h.usable i c' k hc' hk (by rwa [hbusy]),
    h.thread, h.flag, h.idle, h.known, h.listed, h.fresh, hrest, ?_, by simp, by simp, ?_, by simp,
    ?_, h.tasks⟩
  · intro i c' hc'
    exact ⟨(h.worker i c' hc').id, (h.worker i c' hc').port,
      fun k hk => hours k i ((h.worker i c' hc').ours k hk)⟩
  · intro w' hw'
    obtain rfl : w = w' := Option.some.inj hw'
    exact hcurrent
  · intro w' c' rest' hl'
    cases hl'
    refine ⟨⟨hid, hof.port, ?_⟩, hflag, hold, ?_⟩
    · intro k hk
      obtain rfl : s.docker.nextId = k := Option.some.inj hk
      exact hnew
    · intro k hk
      obtain rfl : s.docker.nextId = k := Option.some.inj hk
      exact ⟨fun hmem => absurd (h.docker.removed _ hmem) (Nat.lt_irrefl _),
        fun hmem => absurd (h.failed _ hmem) (Nat.lt_irrefl _)⟩
  · intro k i hk hi
    rcases Dict.mem_set.1 hk with rfl | hk
    · obtain rfl : w = i := Option.some.inj (hnew.symm.trans hi)
      exact .inr ⟨_, _, rfl, rfl⟩
    · have hne : k ≠ s.docker.nextId := Nat.ne_of_lt (h.docker.running k hk)
      have hi' : s.docker.ours.get? k = some i := by
        rwa [ExtractionContainer.runOn, Dict.get?_set_ne _ _ hne] at hi
      rcases h.recorded k i hk hi' with hc' | ⟨c', rest', hl', -⟩
      · exact .inl hc'
      · rw [hl] at hl'
        cases hl'

/-- The restart raises. -/
theorem raised (h : Inv cfg s) {w : Nat} {c : ExtractionContainer} {rest : List (Nat × Nat)}
    (hl : s.loop = .starting w c rest) (e : Raised) : Inv cfg { s with loop := .raised e w } := by
  have hbusy : s.loop.busy = some w := by simp [hl, Loop.busy]
  refine ⟨h.docker, h.failed, h.worker,
    fun i c' k hc' hk hne => h.kept i c' k hc' hk (by rwa [hbusy]),
    fun i c' k hc' hk hne => h.usable i c' k hc' hk (by rwa [hbusy]),
    h.thread, h.flag, h.idle, h.known, h.listed, h.fresh, by simp [Loop.rest], ?_, by simp,
    by simp, by simp, by simp, ?_, h.tasks⟩
  · intro w' hw'
    obtain rfl : w = w' := Option.some.inj hw'
    exact ⟨(h.current w (by simp [hl, Loop.current])).1, by simp [Loop.rest]⟩
  · intro k i hk hi
    rcases h.recorded k i hk hi with hc' | ⟨c', rest', hl', -⟩
    · exact .inl hc'
    · rw [hl] at hl'
      cases hl'

theorem restartStart (h : Inv cfg s) {answers : Answers} {w : Nat} {c : ExtractionContainer}
    {rest : List (Nat × Nat)} (hl : s.loop = .starting w c rest) :
    Inv cfg (ExtractionWorkers.restartStart cfg answers w c rest s) := by
  unfold ExtractionWorkers.restartStart
  have hstarts := ExtractionContainer.starts cfg answers c s.docker
  generalize c.start cfg answers s.docker = result at hstarts
  obtain ⟨d, r⟩ := result
  cases hstarts with
  | raised e hfreed => exact (h.freed hl hfreed).raised hl e
  | dropped => exact h.dropped hl
  | runs hfreed => exact (h.freed hl hfreed).runs hl

/-- The restarted container takes the place of the old one. -/
theorem store (h : Inv cfg s) {w : Nat} {c : ExtractionContainer} {rest : List (Nat × Nat)}
    (hl : s.loop = .storing w c rest) : Inv cfg (ExtractionWorkers.store w c rest s) := by
  obtain ⟨hof, hflag, hold, hnew⟩ := h.storing w c rest hl
  have hrest := h.rest
  obtain ⟨⟨tid, hw, hdead⟩, hnotin⟩ := h.current w (by simp [hl, Loop.current])
  rw [hl] at hrest hnotin
  have hbusy : s.loop.busy = some w := by simp [hl, Loop.busy]
  have hset : ∀ i c', (s.workers.set w c)[i]? = some c' →
      (i = w ∧ c' = c) ∨ (i ≠ w ∧ s.workers[i]? = some c') := by
    intro i c' hc'
    rw [List.getElem?_set] at hc'
    by_cases hi : w = i
    · rw [if_pos hi] at hc'
      split at hc'
      · exact .inl ⟨hi.symm, (Option.some.inj hc').symm⟩
      · cases hc'
    · rw [if_neg hi] at hc'
      exact .inr ⟨Ne.symm hi, hc'⟩
  have hbusy_ne : ∀ i, i ≠ w → s.loop.busy ≠ some i := by
    intro i hi he
    rw [hbusy] at he
    exact hi (Option.some.inj he).symm
  unfold ExtractionWorkers.store
  refine ⟨h.docker, h.failed, ?_, ?_, ?_, ?_, h.flag, ?_, ?_, ?_, h.fresh, ?_,
    by simp [Loop.current], by simp, by simp, by simp, by simp, ?_, h.tasks⟩
  · intro i c' hc'
    rcases hset i c' hc' with ⟨rfl, rfl⟩ | ⟨-, hc'⟩
    · exact hof
    · exact h.worker i c' hc'
  · intro i c' k hc' hk _
    rcases hset i c' hc' with ⟨rfl, rfl⟩ | ⟨hi, hc'⟩
    · exact (hnew k hk).1
    · exact h.kept i c' k hc' hk (hbusy_ne i hi)
  · intro i c' k hc' hk _ hfailed
    rcases hset i c' hc' with ⟨rfl, rfl⟩ | ⟨hi, hc'⟩
    · exact absurd hfailed (hnew k hk).2
    · exact h.usable i c' k hc' hk (hbusy_ne i hi) hfailed
  · intro tid' th hth
    obtain ⟨hworker, hpending, hexc⟩ := h.thread tid' th hth
    have hne : th.container.id ≠ w := fun he =>
      h.not_current hth (by rw [Loop.current_of_busy hbusy, he])
    refine ⟨?_, by rwa [Dict.get?_erase_ne _ hne], hexc⟩
    rw [List.getElem?_set, if_neg (Ne.symm hne)]
    exact hworker
  · intro i hi
    by_cases hiw : i = w
    · rw [hiw]
      exact hflag
    · exact h.idle i fun hmem => hi (Dict.mem_erase.2 ⟨hiw, hmem⟩)
  · intro i tid' hi
    by_cases hiw : i = w
    · simp [hiw] at hi
    · exact h.known i tid' (by rwa [Dict.get?_erase_ne _ hiw] at hi)
  · intro i tid' hi
    rw [List.length_set]
    by_cases hiw : i = w
    · simp [hiw] at hi
    · exact h.listed i tid' (by rwa [Dict.get?_erase_ne _ hiw] at hi)
  · refine ⟨hrest.1, fun p hp => ?_⟩
    have hne : p.1 ≠ w := by
      rintro rfl
      exact hnotin (List.mem_map_of_mem hp)
    rw [Dict.get?_erase_ne _ hne]
    exact hrest.2 p hp
  · intro k i hk hi
    rcases h.recorded k i hk hi with ⟨c', hc', hk'⟩ | ⟨c', rest', hl', hk'⟩
    · by_cases hiw : i = w
      · -- the container that `workers` listed is not running any more
        subst hiw
        exact absurd hk (h.docker.gone k (hold c' hc' k hk'))
      · refine .inl ⟨c', ?_, hk'⟩
        rw [List.getElem?_set, if_neg (Ne.symm hiw)]
        exact hc'
    · rw [hl] at hl'
      cases hl'
      refine .inl ⟨c, ?_, hk'⟩
      have hlt : w < s.workers.length := h.listed w tid hw
      rw [List.getElem?_set, if_pos rfl, if_pos hlt]

/-! ## Handing out a task -/

theorem getFreeWorker (h : Inv cfg s) (hl : s.loop = .choosing) :
    Inv cfg (ExtractionWorkers.getFreeWorker s) := by
  have hbusy : s.loop.busy = none := by simp [hl, Loop.busy]
  unfold ExtractionWorkers.getFreeWorker
  cases hfind : s.workers.find? fun c => decide (c.id ∉ s.pendingTasks) with
  | none => exact h.nextRound hbusy
  | some c =>
      refine h.setLoop hbusy (by simp) (by simp) (by simp [Loop.rest]) (by simp [Loop.current])
        (by simp) ?_
      intro c' hl'
      obtain rfl : c = c' := by simpa using hl'
      obtain ⟨i, hi⟩ := List.mem_iff_getElem?.1 (List.mem_of_find?_eq_some hfind)
      have hid : c.id = i := (h.worker i c hi).id
      exact ⟨by rw [hid, hi], by simpa using List.find?_some hfind⟩

theorem startThread (h : Inv cfg s) {c : ExtractionContainer} {s' : State}
    (hl : s.loop = .getting c) (hstep : ExtractionWorkers.startThread c s = some s') :
    Inv cfg s' := by
  obtain ⟨hc, hfree⟩ := h.getting c hl
  have hbusy : s.loop.busy = none := by simp [hl, Loop.busy]
  unfold ExtractionWorkers.startThread at hstep
  cases hqueue : s.inQueue with
  | nil => simp [hqueue] at hstep
  | cons task rest =>
      rw [hqueue] at hstep
      obtain rfl := Option.some.inj hstep
      have hflag : s.exceptions c.id = 0 := h.idle c.id hfree
      have hid : c.id < s.workers.length := (List.getElem?_eq_some_iff.1 hc).1
      refine ⟨h.docker, h.failed, h.worker,
        fun i c' k hc' hk _ => h.kept i c' k hc' hk (by simp [hbusy]),
        fun i c' k hc' hk _ => h.usable i c' k hc' hk (by simp [hbusy]),
        ?_, h.flag, ?_, ?_, ?_, ?_, ⟨Dict.nodup _, fun p hp => Dict.get?_eq_some_iff.2 hp⟩,
        by simp [State.nextRound, Loop.current], by simp [State.nextRound],
        by simp [State.nextRound], by simp [State.nextRound], by simp [State.nextRound], ?_, ?_⟩
      · intro tid th hth
        change (s.threads.set s.nextThread ⟨task, c, false⟩).get? tid = some th at hth
        change _ ∧ (s.pendingTasks.set c.id s.nextThread).get? th.container.id = some tid ∧ _
        by_cases htid : tid = s.nextThread
        · -- the new thread works on a free worker, whose flag is reset
          subst htid
          obtain rfl : _ = th := Option.some.inj ((Dict.get?_set_self _ _ _).symm.trans hth)
          exact ⟨hc, Dict.get?_set_self _ _ _, hflag⟩
        · rw [Dict.get?_set_ne _ _ htid] at hth
          obtain ⟨hworker, hpending, hexc⟩ := h.thread tid th hth
          have hne : th.container.id ≠ c.id := by
            intro he
            rw [he] at hpending
            exact hfree (Dict.mem_of_get? hpending)
          exact ⟨hworker, by rwa [Dict.get?_set_ne _ _ hne], hexc⟩
      · intro i hi
        exact h.idle i fun hmem => hi (Dict.mem_set.2 (.inr hmem))
      · intro i tid hi
        change (s.pendingTasks.set c.id s.nextThread).get? i = some tid at hi
        show tid < s.nextThread + 1
        by_cases hic : i = c.id
        · rw [hic, Dict.get?_set_self] at hi
          have := Option.some.inj hi
          omega
        · have := h.known i tid (by rwa [Dict.get?_set_ne _ _ hic] at hi)
          omega
      · intro i tid hi
        change (s.pendingTasks.set c.id s.nextThread).get? i = some tid at hi
        by_cases hic : i = c.id
        · rw [hic]
          exact hid
        · exact h.listed i tid (by rwa [Dict.get?_set_ne _ _ hic] at hi)
      · intro tid htid
        show tid < s.nextThread + 1
        rcases Dict.mem_set.1 htid with rfl | htid
        · omega
        · have := h.fresh tid htid
          omega
      · intro k i hk hi
        rcases h.recorded k i hk hi with hc' | ⟨c', rest', hl', -⟩
        · exact .inl hc'
        · rw [hl] at hl'
          cases hl'
      · show (s.log.handed ++ [task]) ++ rest = s.log.puts
        rw [← h.tasks, hqueue, List.append_assoc, List.singleton_append]

/-! ## The threads -/

theorem extractionError (h : Inv cfg s) {tid : Nat} {s' : State}
    (hstep : ExtractionWorkers.extractionError tid s = some s') : Inv cfg s' := by
  unfold ExtractionWorkers.extractionError at hstep
  cases hth : s.threads.get? tid with
  | none => simp [hth] at hstep
  | some th =>
      obtain ⟨task, c, failed⟩ := th
      rw [hth] at hstep
      cases failed with
      | true => cases hstep
      | false =>
          obtain rfl := Option.some.inj hstep
          obtain ⟨hc, hpending, -⟩ := h.thread tid _ hth
          change s.workers[c.id]? = some c at hc
          change s.pendingTasks.get? c.id = some tid at hpending
          have hof : c.Of cfg s.docker c.id := h.worker c.id c hc
          have hcurrent : s.loop.current ≠ some c.id := h.not_current hth
          -- a container that fails now is the one of this worker
          have hown : ∀ k ∈ c.containerId.toList, s.docker.ours.get? k = some c.id := by
            intro k hk
            exact hof.ours k (by simpa using hk)
          have hmem : ∀ t, t ∈ s.threads.set tid ⟨task, c, true⟩ ↔ t ∈ s.threads := by
            intro t
            rw [Dict.mem_set]
            refine ⟨?_, .inr⟩
            rintro (rfl | ht)
            · exact Dict.mem_of_get? hth
            · exact ht
          have hexc : ∀ i, i ≠ c.id →
              Function.update s.exceptions c.id 1 i = s.exceptions i :=
            fun i hi => Function.update_of_ne hi _ _
          refine ⟨h.docker, ?_, h.worker, h.kept, ?_, ?_, ?_, ?_, h.known, h.listed, ?_, h.rest, ?_,
            h.stopping, ?_, ?_, h.getting, h.recorded, h.tasks⟩
          · intro k hk
            rcases List.mem_append.1 hk with hk | hk
            · exact h.failed k hk
            · exact h.docker.ours k (Dict.mem_of_get? (hown k hk))
          · intro i c' k hc' hk hne hk'
            show Function.update s.exceptions c.id 1 i = 1
            by_cases hi : i = c.id
            · simp [hi]
            · rw [hexc i hi]
              rcases List.mem_append.1 hk' with hk' | hk'
              · exact h.usable i c' k hc' hk hne hk'
              · have := (h.worker i c' hc').ours k hk
                rw [hown k hk'] at this
                exact absurd (Option.some.inj this).symm hi
          · intro tid' th' hth'
            change (s.threads.set tid ⟨task, c, true⟩).get? tid' = some th' at hth'
            by_cases ht : tid' = tid
            · subst ht
              obtain rfl : _ = th' := Option.some.inj ((Dict.get?_set_self _ _ _).symm.trans hth')
              exact ⟨hc, hpending, by simp⟩
            · rw [Dict.get?_set_ne _ _ ht] at hth'
              obtain ⟨hworker, hpending', hexc'⟩ := h.thread tid' th' hth'
              have hne : th'.container.id ≠ c.id := by
                intro he
                rw [he, hpending] at hpending'
                exact ht (Option.some.inj hpending').symm
              exact ⟨hworker, hpending', (hexc _ hne).trans hexc'⟩
          · intro i
            by_cases hi : i = c.id
            · exact .inr (by simp [hi])
            · simpa [hexc i hi] using h.flag i
          · intro i hi
            have hne : i ≠ c.id := by
              rintro rfl
              exact hi (Dict.mem_of_get? hpending)
            exact (hexc i hne).trans (h.idle i hi)
          · intro t ht
            exact h.fresh t ((hmem t).1 ht)
          · intro w hw
            obtain ⟨⟨t, hpt, hdead⟩, hnotin⟩ := h.current w hw
            exact ⟨⟨t, hpt, fun ht => hdead ((hmem t).1 ht)⟩, hnotin⟩
          · intro w c' rest hl
            change s.loop = .starting w c' rest at hl
            obtain ⟨hof', hnone, hflag, hold⟩ := h.starting w c' rest hl
            have hne : w ≠ c.id := by
              rintro rfl
              exact hcurrent (by simp [hl, Loop.current])
            exact ⟨hof', hnone, (hexc w hne).trans hflag, hold⟩
          · intro w c' rest hl
            change s.loop = .storing w c' rest at hl
            obtain ⟨hof', hflag, hold, hnew⟩ := h.storing w c' rest hl
            have hne : w ≠ c.id := by
              rintro rfl
              exact hcurrent (by simp [hl, Loop.current])
            refine ⟨hof', (hexc w hne).trans hflag, hold, fun k hk => ⟨(hnew k hk).1, ?_⟩⟩
            intro hk'
            rcases List.mem_append.1 hk' with hk' | hk'
            · exact (hnew k hk).2 hk'
            · have := hof'.ours k hk
              rw [hown k hk'] at this
              exact hne (Option.some.inj this).symm

theorem finish (h : Inv cfg s) {tid : Nat} {s' : State}
    (hstep : ExtractionWorkers.finish tid s = some s') : Inv cfg s' := by
  unfold ExtractionWorkers.finish at hstep
  split at hstep
  case isFalse => cases hstep
  obtain rfl := Option.some.inj hstep
  have hmem : ∀ t, t ∈ s.threads.erase tid → t ∈ s.threads := fun t ht => (Dict.mem_erase.1 ht).2
  refine ⟨h.docker, h.failed, h.worker, h.kept, h.usable, ?_, h.flag, h.idle, h.known, h.listed,
    fun t ht => h.fresh t (hmem t ht), h.rest, ?_, h.stopping, h.starting, h.storing, h.getting,
    h.recorded, h.tasks⟩
  · intro t th hth
    by_cases ht : t = tid
    · simp [ht] at hth
    · exact h.thread t th (by rwa [Dict.get?_erase_ne _ ht] at hth)
  · intro w hw
    obtain ⟨⟨t, hpt, hdead⟩, hnotin⟩ := h.current w hw
    exact ⟨⟨t, hpt, fun ht => hdead (hmem t ht)⟩, hnotin⟩

/-! ## Every step -/

theorem loopStep (h : Inv cfg s) {answers : Answers} {s' : State}
    (hstep : ExtractionWorkers.loopStep cfg answers s = some s') : Inv cfg s' := by
  unfold ExtractionWorkers.loopStep at hstep
  cases hl : s.loop with
  | checking rest =>
      rw [hl] at hstep
      cases rest with
      | nil =>
          obtain rfl := Option.some.inj hstep
          exact h.setLoop (by simp [hl, Loop.busy]) (by simp) (by simp) (by simp [Loop.rest])
            (by simp [Loop.current]) (by simp) (by simp)
      | cons p rest =>
          obtain rfl := Option.some.inj hstep
          exact h.checkPending hl
  | stopping w c rest =>
      rw [hl] at hstep
      obtain rfl := Option.some.inj hstep
      exact h.restartStop hl
  | starting w c rest =>
      rw [hl] at hstep
      obtain rfl := Option.some.inj hstep
      exact h.restartStart hl
  | storing w c rest =>
      rw [hl] at hstep
      obtain rfl := Option.some.inj hstep
      exact h.store hl
  | choosing =>
      rw [hl] at hstep
      obtain rfl := Option.some.inj hstep
      exact h.getFreeWorker hl
  | getting c =>
      rw [hl] at hstep
      exact h.startThread hl hstep
  | raised e w =>
      rw [hl] at hstep
      cases hstep

theorem timeout (h : Inv cfg s) {s' : State} (hstep : ExtractionWorkers.timeout s = some s') :
    Inv cfg s' := by
  unfold ExtractionWorkers.timeout at hstep
  split at hstep
  · rename_i c hl
    obtain rfl := Option.some.inj hstep
    exact h.nextRound (by simp [hl, Loop.busy])
  · cases hstep

theorem step (h : Inv cfg s) {a : Action} {s' : State}
    (hstep : ExtractionWorkers.step cfg a s = some s') : Inv cfg s' := by
  cases a with
  | put task =>
      obtain rfl := Option.some.inj hstep
      refine ⟨h.docker, h.failed, h.worker, h.kept, h.usable, h.thread, h.flag, h.idle, h.known,
        h.listed, h.fresh, h.rest, h.current, h.stopping, h.starting, h.storing, h.getting,
        h.recorded, ?_⟩
      show s.log.handed ++ (s.inQueue ++ [task]) = s.log.puts ++ [task]
      rw [← List.append_assoc, h.tasks]
  | loop answers => exact h.loopStep hstep
  | timeout => exact h.timeout hstep
  | extractionError tid => exact h.extractionError hstep
  | finish tid => exact h.finish hstep
  | dies k =>
      obtain rfl := Option.some.inj hstep
      exact h.setDocker (h.docker.dies k) (Nat.le_refl _) rfl rfl
        fun k' hk' _ => (Dict.mem_erase.1 hk').2
  | foreignRun r =>
      obtain rfl := Option.some.inj hstep
      refine h.setDocker (h.docker.foreignRun r) (Nat.le_succ _) rfl rfl ?_
      intro k hk hours
      rcases Dict.mem_set.1 hk with rfl | hk
      · exact absurd (h.docker.ours _ hours) (Nat.lt_irrefl _)
      · exact hk

end Inv

end FactCore.ExtractionWorkers
