import FactCore.Lib.Machine
import FactCore.Objects.FileObject

/-! # The worker process of an analysis plugin

`Worker.run` of `scheduler/analysis/plugin.py`. A worker takes one task after
the other and starts a child process for each; the child sends its result
through a pipe that all tasks of the worker share. The machine interleaves the
loop of the worker, its child and the SIGTERM handler.

The worker believes whatever it finds in the pipe. If a child sends after the
poll for it has timed out and before it is killed, the result stays in the pipe
and is taken for that of the next task. `results_own` says that this is the
only way in which a file can get a result that is not its own.
-/

namespace FactCore.AnalysisWorker

open Tla

variable {ρ : Type}

/-! ## Results and entries -/

/-- What a child sends: the result of the plugin, or a text if it failed. -/
inductive Result (ρ : Type) where
  | analysis (r : ρ)
  | text (s : String)

/-- How `plugin.get_analysis` ends. -/
inductive Outcome (ρ : Type) where
  | returns (r : ρ)
  | analysisFailed (exc : String)
  | raises (exc traceback : String)

/-- `_child_entrypoint`: the message sent for each outcome. -/
def childEntrypoint : Outcome ρ → Result ρ
  | .returns r => .analysis r
  | .analysisFailed exc => .text ("Analysis failed: " ++ exc)
  | .raises exc traceback => .text (exc ++ ": " ++ traceback)

/-- The dict `entry` of the loop. -/
structure Entry (ρ : Type) where
  analysis : Option ρ := none
  timeout : Option (Plugin × String) := none
  exception : Option (Plugin × String) := none

/-- The entry after a `TimeoutError`. -/
def timeoutEntry (plugin : Plugin) : Entry ρ :=
  { timeout := some (plugin, "Analysis timed out") }

/-- The entry for a received result: texts are turned into exceptions. -/
def entryOf (plugin : Plugin) : Result ρ → Entry ρ
  | .analysis r => { analysis := some r }
  | .text s =>
      if "Analysis failed".toList.isPrefixOf s.toList then { exception := some (plugin, s) }
      else { exception := some (plugin, "Exception occurred during analysis") }

/-- The part of a file object that a worker reads or writes. -/
structure AnalyzedObject (ρ : Type) where
  uid : Uid
  processedAnalysis : Dict Plugin ρ
  analysisException : Option (Plugin × String)

/-- `_write_result_in_file_object`. -/
def writeResultInFileObject (plugin : Plugin) (entry : Entry ρ) (fo : AnalyzedObject ρ) :
    AnalyzedObject ρ :=
  match entry.analysis, entry.timeout, entry.exception with
  | some r, _, _ => { fo with processedAnalysis := fo.processedAnalysis.set plugin r }
  | none, some e, _ => { fo with analysisException := some e }
  | none, none, some e => { fo with analysisException := some e }
  | none, none, none => fo

/-! ## The machine -/

/-- A task in the hands of the worker, numbered in the order of taking. -/
structure Job (ρ : Type) where
  no : Nat
  schedulerState : AnalyzedObject ρ

/-- The child process started for the job `no`. -/
structure Child where
  no : Nat
  alive : Bool
  hasSent : Bool

/-- Where the loop of `run` stands. -/
inductive Phase (ρ : Type) where
  | idle
  | taken (j : Job ρ)
  | polling (j : Job ρ)
  | receiving (j : Job ρ)
  | received (j : Job ρ) (result : Result ρ)
  | cleanup (j : Job ρ) (entry : Entry ρ)
  | writing (j : Job ρ) (entry : Entry ρ)
  | stopped

/-- The worker, its queues, the pipe and the child. `sent` records which child
sent which result; the worker itself does not see it. -/
structure State (ρ : Type) where
  run : Bool
  inQueue : List (AnalyzedObject ρ)
  outQueue : List (Job ρ × AnalyzedObject ρ)
  pipe : List (Result ρ)
  child : Option Child
  phase : Phase ρ
  started : Nat
  sent : List (Nat × Result ρ)

/-- The steps of the scheduler, the loop, the child and the signal handler. -/
inductive Action (ρ : Type) where
  | queueAnalysis (fo : AnalyzedObject ρ)
  | take
  | startChild
  | childSends (outcome : Outcome ρ)
  | childExits
  | pollTrue
  | pollTimeout
  | recv
  | evaluate
  | kill
  | write
  | leave
  | sigterm

/-- `TimeoutError` raised by the signal handler: caught inside the `try`
block, and the end of the worker outside of it. -/
def raiseTimeout (plugin : Plugin) (s : State ρ) : State ρ :=
  match s.phase with
  | .polling j | .receiving j | .received j _ => { s with phase := .cleanup j (timeoutEntry plugin) }
  | _ => { s with phase := .stopped }

/-- `_handle_sigterm`: stop after this task, and if a child is running take its
result out of the pipe. -/
def handleSigterm (plugin : Plugin) (s : State ρ) : State ρ :=
  let s' := { s with run := false }
  match s.child with
  | none => s'
  | some c =>
      if c.alive then
        match s.pipe with
        | [] => raiseTimeout plugin s'
        | _ :: rest => { s' with pipe := rest }
      else s'

/-- One step. -/
def step (plugin : Plugin) : Action ρ → State ρ → Option (State ρ)
  | .queueAnalysis fo, s => some { s with inQueue := s.inQueue ++ [fo] }
  | .take, s =>
      match s.phase, s.inQueue with
      | .idle, fo :: rest =>
          if s.run then
            some { s with inQueue := rest, started := s.started + 1, phase := .taken ⟨s.started, fo⟩ }
          else none
      | _, _ => none
  | .startChild, s =>
      match s.phase with
      | .taken j => some { s with child := some ⟨j.no, true, false⟩, phase := .polling j }
      | _ => none
  | .childSends outcome, s =>
      match s.child with
      | some ⟨no, true, false⟩ =>
          some { s with
            child := some ⟨no, true, true⟩
            pipe := s.pipe ++ [childEntrypoint outcome]
            sent := s.sent ++ [(no, childEntrypoint outcome)] }
      | _ => none
  | .childExits, s =>
      match s.child with
      | some c => some { s with child := some { c with alive := false } }
      | none => none
  | .pollTrue, s =>
      match s.phase, s.pipe with
      | .polling j, _ :: _ => some { s with phase := .receiving j }
      | _, _ => none
  | .pollTimeout, s =>
      match s.phase, s.pipe with
      | .polling j, [] => some { s with phase := .cleanup j (timeoutEntry plugin) }
      | _, _ => none
  | .recv, s =>
      match s.phase, s.pipe with
      | .receiving j, result :: rest => some { s with pipe := rest, phase := .received j result }
      | _, _ => none
  | .evaluate, s =>
      match s.phase with
      | .received j result => some { s with phase := .cleanup j (entryOf plugin result) }
      | _ => none
  | .kill, s =>
      match s.phase with
      | .cleanup j entry =>
          some { s with
            child := s.child.map fun c => { c with alive := false }
            phase := .writing j entry }
      | _ => none
  | .write, s =>
      match s.phase with
      | .writing j entry =>
          some { s with
            outQueue := s.outQueue ++ [(j, writeResultInFileObject plugin entry j.schedulerState)]
            phase := .idle }
      | _ => none
  | .leave, s =>
      match s.phase with
      | .idle => if s.run then none else some { s with phase := .stopped }
      | _ => none
  | .sigterm, s =>
      match s.phase with
      | .stopped => none
      | _ => some (handleSigterm plugin s)

/-- The state in which `run` enters its loop. -/
def init : State ρ := ⟨true, [], [], [], none, .idle, 0, []⟩

/-- The worker of one plugin. -/
def machine (plugin : Plugin) : Machine (State ρ) (Action ρ) where
  Init := fun s => s = init
  step := step plugin

/-! ## Results go to their own files -/

/-- A task is only taken while the pipe is empty. -/
def TakesDrained (s : State ρ) : Action ρ → Prop
  | .take => s.pipe = []
  | _ => True

/-- A child does not send once the poll for it has timed out. -/
def NoLateSend (s : State ρ) : Action ρ → Prop
  | .childSends _ => ∀ j entry, s.phase ≠ .cleanup j entry
  | _ => True

/-- The entry of a job is the time-out or what the child of the job sent. -/
def Own (plugin : Plugin) (sent : List (Nat × Result ρ)) (j : Job ρ) (entry : Entry ρ) : Prop :=
  entry = timeoutEntry plugin ∨ ∃ r, (j.no, r) ∈ sent ∧ entry = entryOf plugin r

/-- No child process is running. -/
def NoChild (child : Option Child) : Prop := ∀ c, child = some c → c.alive = false

/-- The child belongs to the job, and so does what is in the pipe. -/
structure Serves (child : Option Child) (pipe : List (Result ρ)) (sent : List (Nat × Result ρ))
    (j : Job ρ) : Prop where
  child : ∀ c, child = some c → c.no = j.no
  pipe : ∀ r ∈ pipe, (j.no, r) ∈ sent

/-- What is known at each point of the loop. -/
def PhaseInv (plugin : Plugin) (child : Option Child) (pipe : List (Result ρ))
    (sent : List (Nat × Result ρ)) : Phase ρ → Prop
  | .idle => NoChild child
  | .taken _ => NoChild child ∧ pipe = []
  | .polling j => Serves child pipe sent j
  | .receiving j => Serves child pipe sent j
  | .received j r => Serves child pipe sent j ∧ (j.no, r) ∈ sent
  | .cleanup j entry => Serves child pipe sent j ∧ Own plugin sent j entry
  | .writing j entry => NoChild child ∧ Own plugin sent j entry
  | .stopped => True

/-- Everything written so far is the file's own. -/
structure Inv (plugin : Plugin) (s : State ρ) : Prop where
  phase : PhaseInv plugin s.child s.pipe s.sent s.phase
  out : ∀ p ∈ s.outQueue, ∃ entry, Own plugin s.sent p.1 entry ∧
    p.2 = writeResultInFileObject plugin entry p.1.schedulerState

variable {plugin : Plugin}

theorem Own.mono {sent sent' : List (Nat × Result ρ)} (hsub : sent ⊆ sent') {j : Job ρ}
    {entry : Entry ρ} (h : Own plugin sent j entry) : Own plugin sent' j entry := by
  rcases h with htimeout | ⟨r, hr, hentry⟩
  · exact Or.inl htimeout
  · exact Or.inr ⟨r, hsub hr, hentry⟩

/-- What child, pipe and handler may do while the loop does not move. -/
theorem PhaseInv.frame {child child' : Option Child} {pipe pipe' : List (Result ρ)}
    {sent sent' : List (Nat × Result ρ)} {phase : Phase ρ} (hsub : sent ⊆ sent')
    (hdead : NoChild child → NoChild child' ∧ (pipe = [] → pipe' = []))
    (hserves : ∀ j, Serves child pipe sent j → Serves child' pipe' sent' j)
    (h : PhaseInv plugin child pipe sent phase) : PhaseInv plugin child' pipe' sent' phase := by
  cases phase with
  | idle => exact (hdead h).1
  | taken j => exact ⟨(hdead h.1).1, (hdead h.1).2 h.2⟩
  | polling j => exact hserves j h
  | receiving j => exact hserves j h
  | received j r => exact ⟨hserves j h.1, hsub h.2⟩
  | cleanup j entry => exact ⟨hserves j h.1, h.2.mono hsub⟩
  | writing j entry => exact ⟨(hdead h.1).1, h.2.mono hsub⟩
  | stopped => exact trivial

/-- A step that writes nothing keeps the written files. -/
theorem out_mono {outQueue : List (Job ρ × AnalyzedObject ρ)} {sent sent' : List (Nat × Result ρ)}
    (hsub : sent ⊆ sent')
    (h : ∀ p ∈ outQueue, ∃ entry, Own plugin sent p.1 entry ∧
      p.2 = writeResultInFileObject plugin entry p.1.schedulerState) :
    ∀ p ∈ outQueue, ∃ entry, Own plugin sent' p.1 entry ∧
      p.2 = writeResultInFileObject plugin entry p.1.schedulerState := by
  intro p hp
  rcases h p hp with ⟨entry, hown, hwritten⟩
  exact ⟨entry, hown.mono hsub, hwritten⟩

theorem init_inv (s : State ρ) (h : (machine plugin).Init s) : Inv plugin s := by
  have heq : s = init := h
  subst heq
  refine ⟨?_, ?_⟩
  · intro c hc
    cases hc
  · intro p hp
    cases hp

/-- A message of the child: it comes from the job that the worker waits for. -/
theorem childSends_inv {s : State ρ} {no : Nat} (r : Result ρ)
    (hchild : s.child = some ⟨no, true, false⟩) (h : Inv plugin s) :
    Inv plugin { s with
      child := some ⟨no, true, true⟩, pipe := s.pipe ++ [r], sent := s.sent ++ [(no, r)] } := by
  have hsub : s.sent ⊆ s.sent ++ [(no, r)] := List.subset_append_left _ _
  refine ⟨h.phase.frame hsub ?_ ?_, out_mono hsub h.out⟩
  · -- the child is alive, so the loop waits for it or is about to kill it
    intro hdead
    cases hdead _ hchild
  · intro j hj
    have hno : no = j.no := hj.child _ hchild
    refine ⟨?_, ?_⟩
    · intro c hc
      cases Option.some.inj hc
      exact hno
    · intro r' hr'
      rcases List.mem_append.1 hr' with hold | hnew
      · exact hsub (hj.pipe r' hold)
      · rw [List.mem_singleton.1 hnew, ← hno]
        simp

/-- The end of the child. -/
theorem childExits_inv {s : State ρ} {c : Child} (hchild : s.child = some c) (h : Inv plugin s) :
    Inv plugin { s with child := some { c with alive := false } } := by
  refine ⟨h.phase.frame (List.Subset.refl _) ?_ ?_, h.out⟩
  · intro _
    refine ⟨?_, id⟩
    intro c' hc'
    cases Option.some.inj hc'
    rfl
  · intro j hj
    refine ⟨?_, hj.pipe⟩
    intro c' hc'
    cases Option.some.inj hc'
    exact hj.child c hchild

/-- A `TimeoutError` turns the job into a time-out or ends the worker. -/
theorem raiseTimeout_inv {s : State ρ} (h : Inv plugin s) : Inv plugin (raiseTimeout plugin s) := by
  have hphase := h.phase
  unfold raiseTimeout
  split
  · rename_i j hj
    rw [hj] at hphase
    exact ⟨⟨hphase, Or.inl rfl⟩, h.out⟩
  · rename_i j hj
    rw [hj] at hphase
    exact ⟨⟨hphase, Or.inl rfl⟩, h.out⟩
  · rename_i j r hj
    rw [hj] at hphase
    exact ⟨⟨hphase.1, Or.inl rfl⟩, h.out⟩
  · exact ⟨trivial, h.out⟩

/-- The signal handler takes a result out of the pipe at most. -/
theorem handleSigterm_inv {s : State ρ} (h : Inv plugin s) :
    Inv plugin (handleSigterm plugin s) := by
  have hstop : Inv plugin { s with run := false } := ⟨h.phase, h.out⟩
  unfold handleSigterm
  split
  · exact hstop
  · split
    · split
      · exact raiseTimeout_inv hstop
      · rename_i r rest hpipe
        refine ⟨h.phase.frame (List.Subset.refl _) ?_ ?_, h.out⟩
        · intro hdead
          refine ⟨hdead, ?_⟩
          intro hempty
          rw [hpipe] at hempty
          cases hempty
        · intro j hj
          refine ⟨hj.child, ?_⟩
          intro r' hr'
          exact hj.pipe r' (hpipe ▸ List.mem_cons_of_mem _ hr')
    · exact hstop

/-- One step: the loop itself only moves a result on if it is the job's own. -/
theorem step_inv (s : State ρ) (a : Action ρ) (s' : State ρ) (hok : TakesDrained s a)
    (hstep : (machine plugin).step a s = some s') (h : Inv plugin s) : Inv plugin s' := by
  have hphase := h.phase
  simp only [machine] at hstep
  cases a with
  | queueAnalysis fo =>
      cases Option.some.inj hstep
      exact ⟨h.phase, h.out⟩
  | take =>
      simp only [step] at hstep
      split at hstep
      · rename_i fo rest hidle _
        split at hstep
        · cases Option.some.inj hstep
          rw [hidle] at hphase
          exact ⟨⟨hphase, hok⟩, h.out⟩
        · cases hstep
      · cases hstep
  | startChild =>
      simp only [step] at hstep
      split at hstep
      · rename_i j hj
        cases Option.some.inj hstep
        rw [hj] at hphase
        refine ⟨⟨?_, ?_⟩, h.out⟩
        · intro c hc
          cases Option.some.inj hc
          rfl
        · -- the pipe was empty when the task was taken, and no child was there to fill it
          intro r hr
          rw [hphase.2] at hr
          cases hr
      · cases hstep
  | childSends outcome =>
      simp only [step] at hstep
      split at hstep
      · rename_i no hchild
        cases Option.some.inj hstep
        exact childSends_inv _ hchild h
      · cases hstep
  | childExits =>
      simp only [step] at hstep
      split at hstep
      · rename_i c hchild
        cases Option.some.inj hstep
        exact childExits_inv hchild h
      · cases hstep
  | pollTrue =>
      simp only [step] at hstep
      split at hstep
      · rename_i j r rest hj _
        cases Option.some.inj hstep
        rw [hj] at hphase
        exact ⟨hphase, h.out⟩
      · cases hstep
  | pollTimeout =>
      simp only [step] at hstep
      split at hstep
      · rename_i j hj _
        cases Option.some.inj hstep
        rw [hj] at hphase
        exact ⟨⟨hphase, Or.inl rfl⟩, h.out⟩
      · cases hstep
  | recv =>
      simp only [step] at hstep
      split at hstep
      · rename_i j r rest hj hpipe
        cases Option.some.inj hstep
        rw [hj] at hphase
        refine ⟨⟨⟨hphase.child, ?_⟩, ?_⟩, h.out⟩
        · intro r' hr'
          exact hphase.pipe r' (hpipe ▸ List.mem_cons_of_mem _ hr')
        · exact hphase.pipe r (hpipe ▸ List.mem_cons_self)
      · cases hstep
  | evaluate =>
      simp only [step] at hstep
      split at hstep
      · rename_i j r hj
        cases Option.some.inj hstep
        rw [hj] at hphase
        exact ⟨⟨hphase.1, Or.inr ⟨r, hphase.2, rfl⟩⟩, h.out⟩
      · cases hstep
  | kill =>
      simp only [step] at hstep
      split at hstep
      · rename_i j entry hj
        cases Option.some.inj hstep
        rw [hj] at hphase
        refine ⟨⟨?_, hphase.2⟩, h.out⟩
        intro c hc
        rcases Option.map_eq_some_iff.1 hc with ⟨c', -, rfl⟩
        rfl
      · cases hstep
  | write =>
      simp only [step] at hstep
      split at hstep
      · rename_i j entry hj
        cases Option.some.inj hstep
        rw [hj] at hphase
        refine ⟨hphase.1, ?_⟩
        intro p hp
        rcases List.mem_append.1 hp with hold | hnew
        · exact h.out p hold
        · rw [List.mem_singleton.1 hnew]
          exact ⟨entry, hphase.2, rfl⟩
      · cases hstep
  | leave =>
      simp only [step] at hstep
      split at hstep
      · split at hstep
        · cases hstep
        · cases Option.some.inj hstep
          exact ⟨trivial, h.out⟩
      · cases hstep
  | sigterm =>
      simp only [step] at hstep
      split at hstep
      · cases hstep
      · cases Option.some.inj hstep
        exact handleSigterm_inv h

theorem reach_inv {s : State ρ} (h : (machine plugin).Reach TakesDrained s) : Inv plugin s :=
  Machine.reach_invariant init_inv step_inv h

/-- Every written file object holds, under the name of the plugin or as
exception, what the child started for it sent, or the time-out. -/
def WritesOwn (plugin : Plugin) (s : State ρ) : Prop :=
  ∀ j fo, (j, fo) ∈ s.outQueue →
    fo = writeResultInFileObject plugin (timeoutEntry plugin) j.schedulerState ∨
      ∃ r, (j.no, r) ∈ s.sent ∧
        fo = writeResultInFileObject plugin (entryOf plugin r) j.schedulerState

/-- As long as no task is taken while a late result is in the pipe, every
analysis result is stored with the file it was computed from. -/
theorem results_own {s : State ρ} (h : (machine plugin).Reach TakesDrained s) :
    WritesOwn plugin s := by
  intro j fo hmem
  rcases (reach_inv h).out (j, fo) hmem with ⟨entry, hown, hwritten⟩
  rcases hown with htimeout | ⟨r, hr, hentry⟩
  · exact Or.inl (htimeout ▸ hwritten)
  · exact Or.inr ⟨r, hr, hentry ▸ hwritten⟩

instance (s : State ρ) : ∀ a, Decidable (TakesDrained s a)
  | .take => decidable_of_iff (s.pipe.isEmpty = true) List.isEmpty_iff
  | .queueAnalysis _ => inferInstanceAs (Decidable True)
  | .startChild => inferInstanceAs (Decidable True)
  | .childSends _ => inferInstanceAs (Decidable True)
  | .childExits => inferInstanceAs (Decidable True)
  | .pollTrue => inferInstanceAs (Decidable True)
  | .pollTimeout => inferInstanceAs (Decidable True)
  | .recv => inferInstanceAs (Decidable True)
  | .evaluate => inferInstanceAs (Decidable True)
  | .kill => inferInstanceAs (Decidable True)
  | .write => inferInstanceAs (Decidable True)
  | .leave => inferInstanceAs (Decidable True)
  | .sigterm => inferInstanceAs (Decidable True)

/-- A file without analysis results. -/
def file (uid : Uid) : AnalyzedObject Nat := ⟨uid, ∅, none⟩

/-- The first task times out, the second one is answered in time. -/
def timeoutThenResult : List (Action Nat) :=
  [.queueAnalysis (file "a"), .queueAnalysis (file "b"),
    .take, .startChild, .pollTimeout, .kill, .write,
    .take, .startChild, .childSends (.returns 2), .pollTrue, .recv, .evaluate, .kill, .write]

theorem timeoutThenResult_isSome :
    ((machine "plugin").run TakesDrained timeoutThenResult init).isSome = true := by
  decide +kernel

/-- The theorem at the end of the run `timeoutThenResult`. -/
theorem results_own_timeoutThenResult :
    WritesOwn "plugin"
      (((machine "plugin").run TakesDrained timeoutThenResult init).get timeoutThenResult_isSome) :=
  results_own (Machine.reach_get rfl timeoutThenResult_isSome)

/-- The child of the first task sends between the time-out and the kill. -/
def lateResult : List (Action Nat) :=
  [.queueAnalysis (file "a"), .queueAnalysis (file "b"),
    .take, .startChild, .pollTimeout, .childSends (.returns 1), .kill, .write,
    .take, .startChild, .pollTrue, .recv, .evaluate, .kill, .write]

theorem lateResult_isSome :
    ((machine "plugin").run Machine.anyStep lateResult init).isSome = true := by
  decide +kernel

/-- The second file is written with the result of the first one, while its own
child sent nothing. -/
theorem result_of_other_file :
    ∃ s, (machine "plugin").Reach Machine.anyStep s ∧
      (∃ j fo, (j, fo) ∈ s.outQueue ∧ fo.uid = "b" ∧
        fo.processedAnalysis.get? "plugin" = some 1 ∧ s.sent = [(0, Result.analysis 1)] ∧
        j.no = 1) ∧
      ¬ WritesOwn "plugin" s := by
  have hwritten : ∃ j fo, (j, fo) ∈ (((machine "plugin").run Machine.anyStep lateResult init).get
      lateResult_isSome).outQueue ∧ fo.uid = "b" ∧ fo.processedAnalysis.get? "plugin" = some 1 ∧
      (((machine "plugin").run Machine.anyStep lateResult init).get lateResult_isSome).sent =
        [(0, Result.analysis 1)] ∧ j.no = 1 ∧ fo.analysisException = none :=
    ⟨⟨1, file "b"⟩, writeResultInFileObject "plugin" { analysis := some 1 } (file "b"),
      List.mem_cons_of_mem _ List.mem_cons_self, rfl, rfl, rfl, rfl, rfl⟩
  rcases hwritten with ⟨j, fo, hmem, huid, hresult, hsent, hno, hexc⟩
  refine ⟨_, Machine.reach_get rfl lateResult_isSome,
    ⟨j, fo, hmem, huid, hresult, hsent, hno⟩, ?_⟩
  intro hown
  rcases hown j fo hmem with htimeout | ⟨r, hr, -⟩
  · rw [htimeout] at hexc
    cases hexc
  · -- only the child of the first task has sent anything
    rw [hsent, List.mem_singleton, hno] at hr
    cases hr

/-! ## Late results -/

/-- While the worker is not shutting down, the pipe holds at most the result
of a child that is still waited for. -/
def Drained (s : State ρ) : Prop :=
  s.run = true →
    match s.phase with
    | .idle | .taken _ | .writing _ _ => s.pipe = [] ∧ NoChild s.child
    | .polling _ | .receiving _ => ∃ c, s.child = some c ∧
        ((c.hasSent = false ∧ s.pipe = []) ∨ (c.hasSent = true ∧ ∃ r, s.pipe = [r]))
    | .received _ _ => s.pipe = [] ∧ ∃ c, s.child = some c ∧ c.hasSent = true
    | .cleanup _ _ => s.pipe = []
    | .stopped => True

@[simp] theorem raiseTimeout_run (s : State ρ) : (raiseTimeout plugin s).run = s.run := by
  unfold raiseTimeout
  split <;> rfl

@[simp] theorem handleSigterm_run (s : State ρ) : (handleSigterm plugin s).run = false := by
  unfold handleSigterm
  split
  · rfl
  · split
    · split
      · exact raiseTimeout_run _
      · rfl
    · rfl

theorem drained_step {s s' : State ρ} {a : Action ρ} (hok : NoLateSend s a)
    (hstep : (machine plugin).step a s = some s') (h : Drained s) : Drained s' := by
  intro hrun
  simp only [machine] at hstep
  cases a with
  | queueAnalysis fo =>
      cases Option.some.inj hstep
      exact h hrun
  | take =>
      simp only [step] at hstep
      split at hstep
      · rename_i fo rest hidle _
        split at hstep
        · cases Option.some.inj hstep
          have hphase := h hrun
          simpa only [hidle] using hphase
        · cases hstep
      · cases hstep
  | startChild =>
      simp only [step] at hstep
      split at hstep
      · rename_i j hj
        cases Option.some.inj hstep
        have hphase := h hrun
        simp only [hj] at hphase
        exact ⟨_, rfl, Or.inl ⟨rfl, hphase.1⟩⟩
      · cases hstep
  | childSends outcome =>
      simp only [step] at hstep
      split at hstep
      · rename_i no hchild
        cases Option.some.inj hstep
        have hphase := h hrun
        -- a child that can send is waited for, unless its result would be late
        cases hs : s.phase with
        | idle =>
            simp only [hs] at hphase
            cases hphase.2 _ hchild
        | taken j =>
            simp only [hs] at hphase
            cases hphase.2 _ hchild
        | writing j entry =>
            simp only [hs] at hphase
            cases hphase.2 _ hchild
        | polling j =>
            simp only [hs] at hphase ⊢
            rcases hphase with ⟨c, hc, ⟨-, hempty⟩ | ⟨hsent, -⟩⟩
            · exact ⟨_, rfl, Or.inr ⟨rfl, _, by rw [hempty]; rfl⟩⟩
            · cases Option.some.inj (hchild.symm.trans hc)
              cases hsent
        | receiving j =>
            simp only [hs] at hphase ⊢
            rcases hphase with ⟨c, hc, ⟨-, hempty⟩ | ⟨hsent, -⟩⟩
            · exact ⟨_, rfl, Or.inr ⟨rfl, _, by rw [hempty]; rfl⟩⟩
            · cases Option.some.inj (hchild.symm.trans hc)
              cases hsent
        | received j r =>
            simp only [hs] at hphase
            rcases hphase with ⟨-, c, hc, hsent⟩
            cases Option.some.inj (hchild.symm.trans hc)
            cases hsent
        | cleanup j entry => exact absurd hs (hok j entry)
        | stopped => simp only
      · cases hstep
  | childExits =>
      simp only [step] at hstep
      split at hstep
      · rename_i c hchild
        cases Option.some.inj hstep
        have hphase := h hrun
        have hdead : NoChild (some { c with alive := false }) := by
          intro c' hc'
          cases Option.some.inj hc'
          rfl
        cases hs : s.phase with
        | idle =>
            simp only [hs] at hphase ⊢
            exact ⟨hphase.1, hdead⟩
        | taken j =>
            simp only [hs] at hphase ⊢
            exact ⟨hphase.1, hdead⟩
        | writing j entry =>
            simp only [hs] at hphase ⊢
            exact ⟨hphase.1, hdead⟩
        | polling j =>
            simp only [hs] at hphase ⊢
            rcases hphase with ⟨c', hc', hcases⟩
            cases Option.some.inj (hchild.symm.trans hc')
            exact ⟨_, rfl, hcases⟩
        | receiving j =>
            simp only [hs] at hphase ⊢
            rcases hphase with ⟨c', hc', hcases⟩
            cases Option.some.inj (hchild.symm.trans hc')
            exact ⟨_, rfl, hcases⟩
        | received j r =>
            simp only [hs] at hphase ⊢
            rcases hphase with ⟨hempty, c', hc', hsent⟩
            cases Option.some.inj (hchild.symm.trans hc')
            exact ⟨hempty, _, rfl, hsent⟩
        | cleanup j entry =>
            simp only [hs] at hphase ⊢
            exact hphase
        | stopped => simp only
      · cases hstep
  | pollTrue =>
      simp only [step] at hstep
      split at hstep
      · rename_i j r rest hj _
        cases Option.some.inj hstep
        have hphase := h hrun
        simpa only [hj] using hphase
      · cases hstep
  | pollTimeout =>
      simp only [step] at hstep
      split at hstep
      · rename_i j _ hpipe
        cases Option.some.inj hstep
        exact hpipe
      · cases hstep
  | recv =>
      simp only [step] at hstep
      split at hstep
      · rename_i j r rest hj hpipe
        cases Option.some.inj hstep
        have hphase := h hrun
        simp only [hj, hpipe] at hphase
        rcases hphase with ⟨c, hc, ⟨-, hempty⟩ | ⟨hsent, r', hr'⟩⟩
        · cases hempty
        · exact ⟨(List.cons.inj hr').2, c, hc, hsent⟩
      · cases hstep
  | evaluate =>
      simp only [step] at hstep
      split at hstep
      · rename_i j r hj
        cases Option.some.inj hstep
        have hphase := h hrun
        simp only [hj] at hphase
        exact hphase.1
      · cases hstep
  | kill =>
      simp only [step] at hstep
      split at hstep
      · rename_i j entry hj
        cases Option.some.inj hstep
        have hphase := h hrun
        simp only [hj] at hphase
        refine ⟨hphase, ?_⟩
        intro c hc
        rcases Option.map_eq_some_iff.1 hc with ⟨c', -, rfl⟩
        rfl
      · cases hstep
  | write =>
      simp only [step] at hstep
      split at hstep
      · rename_i j entry hj
        cases Option.some.inj hstep
        have hphase := h hrun
        simpa only [hj] using hphase
      · cases hstep
  | leave =>
      simp only [step] at hstep
      split at hstep
      · split at hstep
        · cases hstep
        · cases Option.some.inj hstep
          exact trivial
      · cases hstep
  | sigterm =>
      -- the handler ends the loop, so nothing is claimed
      simp only [step] at hstep
      split at hstep
      · cases hstep
      · cases Option.some.inj hstep
        rw [handleSigterm_run] at hrun
        cases hrun

/-- If no child sends after the poll for it timed out, no late result is ever
in the pipe when a task is taken. -/
theorem takes_drained {s : State ρ} {as : List (Action ρ)}
    (h : (machine plugin).Steps NoLateSend init as s) :
    (machine plugin).Steps TakesDrained init as s ∧ Drained s := by
  induction h with
  | nil =>
      refine ⟨Machine.Steps.nil _, ?_⟩
      intro _
      exact ⟨rfl, fun c hc => by cases hc⟩
  | @snoc s' s'' as a hs hok hstep ih =>
      refine ⟨Machine.Steps.snoc ih.1 ?_ hstep, drained_step hok hstep ih.2⟩
      cases a with
      | take =>
          simp only [machine, step] at hstep
          split at hstep
          · rename_i hidle _
            split at hstep
            · rename_i hrun
              have hphase := ih.2 hrun
              simp only [hidle] at hphase
              exact hphase.1
            · cases hstep
          · cases hstep
      | _ => exact trivial

/-- Without late results every result is stored with its own file. -/
theorem results_own_of_noLateSend {s : State ρ} (h : (machine plugin).Reach NoLateSend s) :
    WritesOwn plugin s := by
  rcases h with ⟨s₀, as, hinit, hs⟩
  cases hinit
  exact results_own ⟨init, as, rfl, (takes_drained hs).1⟩

end FactCore.AnalysisWorker
