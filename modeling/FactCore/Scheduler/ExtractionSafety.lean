import FactCore.Scheduler.ExtractionInvariants

/-! # Exclusive and fresh extraction containers

Over all interleavings, a live thread has its worker to itself, the scheduler
does not stop the container it works in, and a container in which an extraction
has failed is given to no other task. What the scheduler started and what is
still running belongs to a worker. With a daemon that answers, every restart goes
through, however often extractions fail.
-/

namespace FactCore.ExtractionWorkers

open Tla ExtractionContainer

/-! ## The start -/

/-- What `create_containers` has done after `n` workers. -/
structure Created (cfg : Config) (n : Nat) (d : Docker) (workers : List ExtractionContainer) :
    Prop where
  docker : d.Sound cfg
  length : workers.length = n
  worker : ∀ i (c : ExtractionContainer), workers[i]? = some c → c.Of cfg d i
  kept : ∀ (i : Nat) (c : ExtractionContainer) k, workers[i]? = some c →
    c.containerId = some k → k ∉ d.removed
  recorded : ∀ k i, k ∈ d.running → d.ours.get? k = some i →
    ∃ c, workers[i]? = some c ∧ c.containerId = some k

namespace Created

variable {cfg : Config} {n : Nat} {d d' : Docker} {workers : List ExtractionContainer}

theorem zero (h : d.Fresh) : Created cfg 0 d [] where
  docker := by
    refine ⟨h.running, by simp [h.ours, Dict.notMem_empty], by simp [h.removed],
      by simp [h.removed], ?_⟩
    intro k r i _ hi
    simp [h.ours] at hi
  length := rfl
  worker := by simp
  kept := by simp
  recorded := by simp [h.ours]

/-- A container on the port of the next worker is removed. -/
theorem freed (h : Created cfg n d workers) (hfreed : (new cfg n).Freed d d') :
    Created cfg n d' workers := by
  rcases hfreed with rfl | ⟨k, r, hrunning, hport, rfl⟩
  · exact h
  refine ⟨h.docker.remove (Dict.mem_of_get? hrunning), h.length,
    fun i c hc => ⟨(h.worker i c hc).id, (h.worker i c hc).port, (h.worker i c hc).ours⟩, ?_,
    fun k' i hk' hi => h.recorded k' i (Dict.mem_erase.1 hk').2 hi⟩
  intro i c k' hc hk' hmem
  rcases List.mem_append.1 hmem with hmem | hmem
  · exact h.kept i c k' hc hk' hmem
  · obtain rfl := List.mem_singleton.1 hmem
    have hports := h.docker.port k' r i hrunning ((h.worker i c hc).ours k' hk')
    have heq : toString (cfg.basePort + i) = toString (cfg.basePort + n) := by
      simpa [ExtractionContainer.hasSamePort, hports, new] using hport
    have hi := toString_injective heq
    have hlt : i < workers.length := (List.getElem?_eq_some_iff.1 hc).1
    rw [h.length] at hlt
    omega

theorem getElem?_append_singleton {c c' : ExtractionContainer} {i : Nat}
    (h : Created cfg n d workers) (hc : (workers ++ [c])[i]? = some c') :
    workers[i]? = some c' ∨ (i = n ∧ c' = c) := by
  rcases Nat.lt_or_ge i workers.length with hi | hi
  · rw [List.getElem?_append_left hi] at hc
    exact .inl hc
  · rw [List.getElem?_append_right hi, List.getElem?_singleton] at hc
    split at hc
    · have := h.length
      exact .inr ⟨by omega, (Option.some.inj hc).symm⟩
    · cases hc

theorem getElem?_append_of_some {c c' : ExtractionContainer} {i : Nat}
    (hc : workers[i]? = some c) : (workers ++ [c'])[i]? = some c := by
  rw [List.getElem?_append_left (List.getElem?_eq_some_iff.1 hc).1]
  exact hc

/-- The next worker gets no container. -/
theorem dropped (h : Created cfg n d workers) : Created cfg (n + 1) d (workers ++ [new cfg n]) where
  docker := h.docker
  length := by simp [h.length]
  worker := by
    intro i c hc
    rcases h.getElem?_append_singleton hc with hc | ⟨rfl, rfl⟩
    · exact h.worker i c hc
    · exact ⟨rfl, rfl, by simp [new]⟩
  kept := by
    intro i c k hc hk
    rcases h.getElem?_append_singleton hc with hc | ⟨rfl, rfl⟩
    · exact h.kept i c k hc hk
    · cases hk
  recorded := by
    intro k i hk hi
    obtain ⟨c, hc, hk'⟩ := h.recorded k i hk hi
    exact ⟨c, getElem?_append_of_some hc, hk'⟩

/-- The next worker gets a new container. -/
theorem runs (h : Created cfg n d workers) :
    Created cfg (n + 1) ((new cfg n).runOn cfg d)
      (workers ++ [{ new cfg n with containerId := some d.nextId }]) where
  docker := h.docker.run rfl
  length := by simp [h.length]
  worker := by
    intro i c hc
    rcases h.getElem?_append_singleton hc with hc | ⟨rfl, rfl⟩
    · refine ⟨(h.worker i c hc).id, (h.worker i c hc).port, ?_⟩
      intro k hk
      have hours := (h.worker i c hc).ours k hk
      have hne : k ≠ d.nextId := Nat.ne_of_lt (h.docker.ours k (Dict.mem_of_get? hours))
      rwa [runOn, Dict.get?_set_ne _ _ hne]
    · refine ⟨rfl, rfl, ?_⟩
      intro k hk
      obtain rfl : d.nextId = k := Option.some.inj hk
      exact Dict.get?_set_self _ _ _
  kept := by
    intro i c k hc hk
    rcases h.getElem?_append_singleton hc with hc | ⟨rfl, rfl⟩
    · exact h.kept i c k hc hk
    · obtain rfl : d.nextId = k := Option.some.inj hk
      exact fun hmem => Nat.lt_irrefl _ (h.docker.removed _ hmem)
  recorded := by
    intro k i hk hi
    by_cases hne : k = d.nextId
    · subst hne
      obtain rfl : n = i := Option.some.inj ((Dict.get?_set_self _ _ _).symm.trans hi)
      refine ⟨{ new cfg n with containerId := some d.nextId }, ?_, rfl⟩
      simp [← h.length]
    · obtain ⟨c, hc, hk'⟩ := h.recorded k i ((Dict.mem_set.1 hk).resolve_left hne)
        (by rwa [runOn, Dict.get?_set_ne _ _ hne] at hi)
      exact ⟨c, getElem?_append_of_some hc, hk'⟩

/-- `create_containers`, worker by worker. -/
theorem createContainers {answers : Nat → Answers} (hd : d.Fresh) :
    ∀ n {d'} {workers}, ExtractionWorkers.createContainers cfg answers d n = (d', .ok workers) →
      Created cfg n d' workers
  | 0, d', workers, h => by
      obtain ⟨rfl, rfl⟩ : d = d' ∧ [] = workers := by
        simpa [ExtractionWorkers.createContainers] using h
      exact zero hd
  | n + 1, d', workers, h => by
      rw [ExtractionWorkers.createContainers] at h
      cases hn : ExtractionWorkers.createContainers cfg answers d n with
      | mk d₁ r =>
          cases r with
          | error e => simp [hn] at h
          | ok workers₁ =>
              have hcreated : Created cfg n d₁ workers₁ := createContainers hd n hn
              have hstarts := ExtractionContainer.starts cfg (answers n) (new cfg n) d₁
              rw [hn] at h
              dsimp only at h
              generalize (new cfg n).start cfg (answers n) d₁ = result at h hstarts
              obtain ⟨d₂, r⟩ := result
              cases hstarts with
              | raised e hfreed => simp at h
              | dropped =>
                  obtain ⟨rfl, rfl⟩ := by simpa using h
                  exact hcreated.dropped
              | runs hfreed =>
                  obtain ⟨rfl, rfl⟩ := by simpa using h
                  exact (hcreated.freed hfreed).runs

end Created

theorem inv_init {cfg : Config} {s : State} (h : (machine cfg).Init s) : Inv cfg s := by
  obtain ⟨d, answers, d', workers, hd, hcreate, rfl⟩ := h
  have hcreated := Created.createContainers hd cfg.processes hcreate
  refine ⟨hcreated.docker, by simp [State.init], hcreated.worker,
    fun i c k hc hk _ => hcreated.kept i c k hc hk, by simp [State.init], by simp [State.init],
    by simp [State.init], by simp [State.init], by simp [State.init], by simp [State.init],
    by simp [State.init, Dict.notMem_empty], by simp [State.init, Loop.rest],
    by simp [State.init, Loop.current],
    by simp [State.init], by simp [State.init], by simp [State.init], by simp [State.init],
    fun k i hk hi => .inl (hcreated.recorded k i hk hi), rfl⟩

theorem inv_reach {cfg : Config} {s : State} (h : (machine cfg).Reach Machine.anyStep s) :
    Inv cfg s :=
  Machine.reach_invariant (fun _ => inv_init) (fun _ _ _ _ hstep hinv => hinv.step hstep) h

/-! ## Steps that go through -/

/-- The daemon does what it is told, and the containers of the scheduler stay. -/
def Calm (s : State) : Action → Prop
  | .loop answers => answers.stopFails = false ∧ answers.run = .started
  | .dies k => k ∉ s.docker.ours
  | _ => True

instance (s : State) (a : Action) : Decidable (Calm s a) := by
  unfold Calm
  split <;> infer_instance

/-! ## A run with a failed extraction -/

/-- Two workers. -/
def twoWorkers : Config := ⟨"fact_extractor", 9900, 2⟩

/-- A daemon without containers. -/
def emptyDocker : Docker := ⟨∅, 0, ∅, []⟩

/-- Their start. -/
def started : State :=
  match createContainers twoWorkers (fun _ => {}) emptyDocker 2 with
  | (d, .ok workers) => .init workers d
  | (d, .error _) => .init [] d

theorem init_started : (machine twoWorkers).Init started :=
  ⟨emptyDocker, fun _ => {}, _, _, ⟨by simp [emptyDocker, Dict.notMem_empty], rfl, rfl⟩, rfl, rfl⟩

/-- The first task fails, its worker is restarted, and both workers get a task. -/
def failedRun : List Action :=
  [.put 7, .loop {}, .loop {}, .loop {}, .extractionError 0, .finish 0,
    .loop {}, .loop {}, .loop {}, .loop {}, .loop {}, .loop {}, .put 8, .loop {},
    .loop {}, .loop {}, .loop {}, .put 9, .loop {}]

/-- The state at its end. -/
def atTheEnd : State :=
  ((machine twoWorkers).run Calm failedRun started).getD started

theorem steps_failedRun : (machine twoWorkers).Steps Calm started failedRun atTheEnd := by
  have hsome : ((machine twoWorkers).run Calm failedRun started).isSome = true := by
    decide +kernel
  obtain ⟨s, hs⟩ := Option.isSome_iff_exists.1 hsome
  have hend : atTheEnd = s := by simp [atTheEnd, hs]
  rw [hend]
  exact Machine.steps_of_run hs

theorem reach_atTheEnd : (machine twoWorkers).Reach Machine.anyStep atTheEnd :=
  ⟨started, failedRun, init_started, steps_failedRun.mono fun _ _ _ => trivial⟩

example : atTheEnd.docker.removed = [0] ∧ atTheEnd.log.failed = [0] ∧
    atTheEnd.docker.running.keys = [1, 2] ∧ atTheEnd.log.handed = [7, 8, 9] := by
  decide +kernel

/-! ## Safety -/

/-- The worker has a running container. -/
def State.Running (s : State) (c : ExtractionContainer) : Prop :=
  ∃ k, c.containerId = some k ∧ k ∈ s.docker.running

/-- No restart has failed. -/
structure Steady (s : State) : Prop where
  raised : ∀ e w, s.loop ≠ .raised e w
  running : ∀ i c, s.workers[i]? = some c → s.loop.busy ≠ some i → s.Running c
  storing : ∀ w c rest, s.loop = .storing w c rest → s.Running c

namespace Steady

variable {cfg : Config} {s : State}

/-- Steps that leave the workers and the loop alone. -/
theorem frame (h : Steady s) {s' : State} (hworkers : s'.workers = s.workers)
    (hloop : s'.loop = s.loop)
    (hrunning : ∀ k ∈ s.docker.running, k ∈ s.docker.ours → k ∈ s'.docker.running)
    (hinv : Inv cfg s) : Steady s' where
  raised := fun e w => by simpa [hloop] using h.raised e w
  running := by
    intro i c hc hbusy
    rw [hworkers] at hc
    rw [hloop] at hbusy
    obtain ⟨k, hk, hk'⟩ := h.running i c hc hbusy
    exact ⟨k, hk, hrunning k hk' (Dict.mem_of_get? ((hinv.worker i c hc).ours k hk))⟩
  storing := by
    intro w c rest hl
    rw [hloop] at hl
    obtain ⟨k, hk, hk'⟩ := h.storing w c rest hl
    exact ⟨k, hk, hrunning k hk' (Dict.mem_of_get? ((hinv.storing w c rest hl).1.ours k hk))⟩

/-- The loop moves to a place where no restart is under way. -/
theorem setLoop (h : Steady s) (hbusy : s.loop.busy = none) {s' : State}
    (hworkers : s'.workers = s.workers) (hdocker : s'.docker = s.docker)
    (hraised : ∀ e w, s'.loop ≠ .raised e w) (hstoring : ∀ w c rest, s'.loop ≠ .storing w c rest) :
    Steady s' where
  raised := hraised
  running := by
    intro i c hc _
    rw [hworkers] at hc
    obtain ⟨k, hk, hk'⟩ := h.running i c hc (by simp [hbusy])
    exact ⟨k, hk, by rwa [hdocker]⟩
  storing := fun w c rest hl => absurd hl (hstoring w c rest)

theorem checkPending (h : Steady s) (hinv : Inv cfg s) {w tid : Nat} {rest : List (Nat × Nat)}
    (hl : s.loop = .checking ((w, tid) :: rest)) :
    Steady (ExtractionWorkers.checkPending w tid rest s) := by
  have hbusy : s.loop.busy = none := by simp [hl, Loop.busy]
  have hpending : s.pendingTasks.get? w = some tid :=
    hinv.rest.2 (w, tid) (by simp [hl, Loop.rest])
  unfold ExtractionWorkers.checkPending
  by_cases hlive : tid ∈ s.threads
  · rw [if_pos hlive]
    exact h.setLoop hbusy rfl rfl (by simp) (by simp)
  · rw [if_neg hlive]
    have hlt : w < s.workers.length := hinv.listed w tid hpending
    rw [List.getElem?_eq_getElem hlt]
    dsimp only
    by_cases hflag : s.exceptions s.workers[w].id = 1
    · rw [if_pos hflag]
      exact h.setLoop hbusy rfl rfl (by simp) (by simp)
    · rw [if_neg hflag]
      exact h.setLoop hbusy rfl rfl (by simp) (by simp)

/-- The container of the worker is running, so it can be stopped. -/
theorem restartStop (h : Steady s) (hinv : Inv cfg s) {w : Nat} {c : ExtractionContainer}
    {rest : List (Nat × Nat)} (hl : s.loop = .stopping w c rest) :
    Steady (ExtractionWorkers.restartStop false w c rest s) := by
  have hbusy : s.loop.busy = none := by simp [hl, Loop.busy]
  have hc : s.workers[w]? = some c := hinv.stopping w c rest hl
  obtain ⟨k, hk, hrunning⟩ := h.running w c hc (by simp [hbusy])
  unfold ExtractionWorkers.restartStop ExtractionContainer.stop
  simp only [hk, hrunning, if_true, removeContainer, Bool.false_eq_true, if_false]
  refine ⟨by simp, ?_, by simp⟩
  intro i c' hc' hne
  have hi : i ≠ w := fun hi => hne (by simp [Loop.busy, hi])
  obtain ⟨k', hk', hrunning'⟩ := h.running i c' hc' (by simp [hbusy])
  refine ⟨k', hk', Dict.mem_erase.2 ⟨?_, hrunning'⟩⟩
  rintro rfl
  have howner := (hinv.worker w c hc).ours k' hk
  rw [(hinv.worker i c' hc').ours k' hk'] at howner
  exact hi (Option.some.inj howner)

theorem restartStart (h : Steady s) (hinv : Inv cfg s) {answers : Answers}
    (hrun : answers.run = .started) {w : Nat} {c : ExtractionContainer} {rest : List (Nat × Nat)}
    (hl : s.loop = .starting w c rest) :
    Steady (ExtractionWorkers.restartStart cfg answers w c rest s) := by
  obtain ⟨-, hnone, -⟩ := hinv.starting w c rest hl
  unfold ExtractionWorkers.restartStart ExtractionContainer.start
  simp only [hnone, Option.isSome_none, Bool.false_eq_true, if_false, hrun, startContainer]
  refine ⟨by simp, ?_, ?_⟩
  · intro i c' hc' hne
    obtain ⟨k, hk, hrunning⟩ := h.running i c' hc' (by simpa [hl, Loop.busy] using hne)
    exact ⟨k, hk, Dict.mem_set.2 (.inr hrunning)⟩
  · intro w' c' rest' hl'
    cases hl'
    exact ⟨s.docker.nextId, rfl, Dict.mem_set.2 (.inl rfl)⟩

theorem store (h : Steady s) {w : Nat} {c : ExtractionContainer} {rest : List (Nat × Nat)}
    (hl : s.loop = .storing w c rest) : Steady (ExtractionWorkers.store w c rest s) := by
  refine ⟨by simp [ExtractionWorkers.store], ?_, by simp [ExtractionWorkers.store]⟩
  intro i c' hc' _
  change (s.workers.set w c)[i]? = some c' at hc'
  rw [List.getElem?_set] at hc'
  by_cases hi : w = i
  · rw [if_pos hi] at hc'
    split at hc'
    · obtain rfl := Option.some.inj hc'
      exact h.storing w c rest hl
    · cases hc'
  · rw [if_neg hi] at hc'
    exact h.running i c' hc' (by simpa [hl, Loop.busy] using hi)

theorem loopStep (h : Steady s) (hinv : Inv cfg s) {answers : Answers} {s' : State}
    (hcalm : answers.stopFails = false ∧ answers.run = .started)
    (hstep : ExtractionWorkers.loopStep cfg answers s = some s') : Steady s' := by
  unfold ExtractionWorkers.loopStep at hstep
  cases hl : s.loop with
  | checking rest =>
      rw [hl] at hstep
      cases rest with
      | nil =>
          obtain rfl := Option.some.inj hstep
          exact h.setLoop (by simp [hl, Loop.busy]) rfl rfl (by simp) (by simp)
      | cons p rest =>
          obtain rfl := Option.some.inj hstep
          exact h.checkPending hinv hl
  | stopping w c rest =>
      rw [hl] at hstep
      obtain rfl := Option.some.inj hstep
      rw [hcalm.1]
      exact h.restartStop hinv hl
  | starting w c rest =>
      rw [hl] at hstep
      obtain rfl := Option.some.inj hstep
      exact h.restartStart hinv hcalm.2 hl
  | storing w c rest =>
      rw [hl] at hstep
      obtain rfl := Option.some.inj hstep
      exact h.store hl
  | choosing =>
      rw [hl] at hstep
      obtain rfl := Option.some.inj hstep
      unfold ExtractionWorkers.getFreeWorker
      split
      · exact h.setLoop (by simp [hl, Loop.busy]) rfl rfl (by simp) (by simp)
      · exact h.setLoop (by simp [hl, Loop.busy]) rfl rfl (by simp [State.nextRound])
          (by simp [State.nextRound])
  | getting c =>
      rw [hl] at hstep
      change ExtractionWorkers.startThread c s = some s' at hstep
      unfold ExtractionWorkers.startThread at hstep
      split at hstep
      · cases hstep
      · obtain rfl := Option.some.inj hstep
        exact h.setLoop (by simp [hl, Loop.busy]) rfl rfl (by simp [State.nextRound])
          (by simp [State.nextRound])
  | raised e w => exact absurd hl (h.raised e w)

theorem step (h : Steady s) (hinv : Inv cfg s) {a : Action} {s' : State} (hcalm : Calm s a)
    (hstep : ExtractionWorkers.step cfg a s = some s') : Steady s' := by
  cases a with
  | put task =>
      obtain rfl := Option.some.inj hstep
      exact h.frame rfl rfl (fun _ hk _ => hk) hinv
  | loop answers => exact h.loopStep hinv hcalm hstep
  | timeout =>
      change ExtractionWorkers.timeout s = some s' at hstep
      unfold ExtractionWorkers.timeout at hstep
      split at hstep
      · rename_i c hl
        obtain rfl := Option.some.inj hstep
        exact h.setLoop (by simp [hl, Loop.busy]) rfl rfl (by simp [State.nextRound])
          (by simp [State.nextRound])
      · cases hstep
  | extractionError tid =>
      change ExtractionWorkers.extractionError tid s = some s' at hstep
      unfold ExtractionWorkers.extractionError at hstep
      split at hstep
      · obtain rfl := Option.some.inj hstep
        exact h.frame rfl rfl (fun _ hk _ => hk) hinv
      · cases hstep
  | finish tid =>
      change ExtractionWorkers.finish tid s = some s' at hstep
      unfold ExtractionWorkers.finish at hstep
      split at hstep
      · obtain rfl := Option.some.inj hstep
        exact h.frame rfl rfl (fun _ hk _ => hk) hinv
      · cases hstep
  | dies k =>
      obtain rfl := Option.some.inj hstep
      refine h.frame rfl rfl (fun k' hk' hours => Dict.mem_erase.2 ⟨?_, hk'⟩) hinv
      rintro rfl
      exact hcalm hours
  | foreignRun r =>
      obtain rfl := Option.some.inj hstep
      exact h.frame rfl rfl (fun k hk _ => Dict.mem_set.2 (.inr hk)) hinv

end Steady

end FactCore.ExtractionWorkers
