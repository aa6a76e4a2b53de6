import FactCore.Scheduler.UnpackingInvariants
import FactCore.Scheduler.AnalysisQueue

/-! # Unpacking and analysis together

The unpacking scheduler and the analysis scheduler as the backend connects them
in `start_fact_backend.py`: `post_unpack` is `start_analysis_of_object`, and both
use the same unpacking locks. A thread of the extraction process that calls
`post_unpack` goes on when the call returns. `generate_objects_and_store_files`
is taken apart here, since it sets the locks one by one while other threads and
the analysis go on.

Every run is a run of the unpacking scheduler (`reach_unpacking`).
-/

namespace FactCore.Backend

open Tla

/-! ## State -/

/-- The state of the backend. -/
structure State where
  unpacking : Unpacking.State
  analysis : AnalysisQueue.State
  /-- The files that a thread has gone through in `generate_objects_and_store_files`. -/
  generated : Dict Nat (List ExtractedFile)

namespace State

/-- The backend after `start`. -/
def init (db : Db) : State := ⟨.init db, .init, ∅⟩

/-- The files that the thread has gone through. -/
def filesOf (s : State) (tid : Nat) : List ExtractedFile := (s.generated.get? tid).getD []

/-- All queues are empty, and no thread, call or process works on anything. -/
def Idle (s : State) : Prop :=
  s.unpacking.Idle ∧ s.analysis.processQueue = [] ∧ s.analysis.working.items = [] ∧
    s.analysis.calls.items = [] ∧ s.analysis.statusQueue = []

instance (s : State) : Decidable s.Idle := inferInstanceAs (Decidable (_ ∧ _))

end State

/-! ## Steps -/

inductive Action where
  /-- A step of the unpacking scheduler. -/
  | unpacking (a : Unpacking.Action)
  /-- `generate_objects_and_store_files` goes through a file. -/
  | generate (tid : Nat) (f : ExtractedFile)
  /-- `unpack` returns. -/
  | unpack (tid : Nat)
  /-- `post_unpack` is called. -/
  | postUnpack (tid : Nat)
  /-- A step of the analysis scheduler. -/
  | analysis (a : AnalysisQueue.Action)

/-- The steps of the unpacking scheduler in which the analysis takes no part. An
`ExtractionError` comes before the first file, `DbInterfaceError`s come from
`add_object`, and a thread goes on when `post_unpack` has returned. -/
def State.permits (s : State) : Unpacking.Action → Bool
  | .unpack _ _ | .postUnpack _ => false
  | .extractionError tid => decide (tid ∉ s.generated)
  | .dbInterfaceError tid =>
      (s.unpacking.threads.get? tid).all fun th => th.phase.stage != some .posting
  | .fetch tid => decide ((.unpacking, tid) ∉ s.analysis.calls)
  | _ => true

/-- The steps of the analysis scheduler in which unpacking takes no part. -/
def permitsAnalysis : AnalysisQueue.Action → Bool
  | .start _ _ | .setLock _ => false
  | _ => true

/-- With an exception in a thread its files are gone. -/
def keepFiles (generated : Dict Nat (List ExtractedFile)) :
    Unpacking.Action → Dict Nat (List ExtractedFile)
  | .raises tid => generated.erase tid
  | _ => generated

/-- A step of the unpacking scheduler. -/
def unpackingStep (maxDepth : Nat) (a : Unpacking.Action) (s : State) : Option State :=
  if s.permits a then
    (Unpacking.step maxDepth a s.unpacking).map fun u =>
      { s with unpacking := u, generated := keepFiles s.generated a }
  else none

/-- One round of `generate_objects_and_store_files`: the lock is set for a file
that was not found in this container before. -/
def generate (maxDepth : Nat) (tid : Nat) (f : ExtractedFile) (s : State) : Option State :=
  match s.unpacking.threads.get? tid with
  | some ⟨task, .unpacking⟩ =>
      if task.depth < maxDepth then
        let extracted := (s.filesOf tid).foldl (Unpacker.addExtracted task) ∅
        some { s with
          analysis := if f.isEmpty ∨ f.uid ∈ extracted then s.analysis
            else s.analysis.setUnpackingLock f.uid
          generated := s.generated.set tid (s.filesOf tid ++ [f]) }
      else none
  | _ => none

/-- `unpack` returns with the objects of the files. -/
def unpack (maxDepth : Nat) (tid : Nat) (s : State) : Option State :=
  (Unpacking.unpackReturns maxDepth tid (s.filesOf tid) s.unpacking).map fun u =>
    { s with unpacking := u, generated := s.generated.erase tid }

/-- The call of `start_analysis_of_object` begins. -/
def postUnpack (tid : Nat) (s : State) : Option State :=
  match s.unpacking.threads.get? tid, Unpacking.postUnpack tid s.unpacking with
  | some th, some u =>
      (AnalysisQueue.start tid th.task s.analysis).map fun an =>
        { s with unpacking := u, analysis := an }
  | _, _ => none

/-- A step of the analysis scheduler. -/
def analysisStep (plugins : Plugins) (a : AnalysisQueue.Action) (s : State) : Option State :=
  if permitsAnalysis a then
    (AnalysisQueue.step plugins a s.analysis).map fun an => { s with analysis := an }
  else none

/-- One step. -/
def step (maxDepth : Nat) (plugins : Plugins) : Action → State → Option State
  | .unpacking a => unpackingStep maxDepth a
  | .generate tid f => generate maxDepth tid f
  | .unpack tid => unpack maxDepth tid
  | .postUnpack tid => postUnpack tid
  | .analysis a => analysisStep plugins a

/-- The backend, from any database. -/
def machine (maxDepth : Nat) (plugins : Plugins) : Machine State Action where
  Init := fun s => ∃ db, s = State.init db
  step := step maxDepth plugins

/-! ## What a step can do -/

/-- All steps, by those of the two schedulers. -/
inductive Next (maxDepth : Nat) (plugins : Plugins) (s : State) : Action → State → Prop
  | unpacking {a : Unpacking.Action} {u : Unpacking.State} (hpermits : s.permits a = true)
      (hnext : Unpacking.Next maxDepth s.unpacking a u) :
      Next maxDepth plugins s (.unpacking a)
        { s with unpacking := u, generated := keepFiles s.generated a }
  | generateNew {tid : Nat} {f : ExtractedFile} {task : FileObject}
      (hget : s.unpacking.threads.get? tid = some ⟨task, .unpacking⟩)
      (hdepth : task.depth < maxDepth) (hempty : f.isEmpty = false)
      (hnew : f.uid ∉ (s.filesOf tid).foldl (Unpacker.addExtracted task) ∅) :
      Next maxDepth plugins s (.generate tid f) { s with
        analysis := s.analysis.setUnpackingLock f.uid
        generated := s.generated.set tid (s.filesOf tid ++ [f]) }
  | generateKnown {tid : Nat} {f : ExtractedFile} {task : FileObject}
      (hget : s.unpacking.threads.get? tid = some ⟨task, .unpacking⟩)
      (hdepth : task.depth < maxDepth)
      (hknown : f.isEmpty = true ∨ f.uid ∈ (s.filesOf tid).foldl (Unpacker.addExtracted task) ∅) :
      Next maxDepth plugins s (.generate tid f) { s with
        generated := s.generated.set tid (s.filesOf tid ++ [f]) }
  | unpack {tid : Nat} {u : Unpacking.State}
      (hnext : Unpacking.Next maxDepth s.unpacking (.unpack tid (s.filesOf tid)) u) :
      Next maxDepth plugins s (.unpack tid)
        { s with unpacking := u, generated := s.generated.erase tid }
  | postUnpack {tid : Nat} {task : FileObject} {phase : Unpacking.Phase} {u : Unpacking.State}
      {an : AnalysisQueue.State} (hget : s.unpacking.threads.get? tid = some ⟨task, phase⟩)
      (hnext : Unpacking.Next maxDepth s.unpacking (.postUnpack tid) u)
      (hstart : AnalysisQueue.Next plugins s.analysis (.start tid task) an) :
      Next maxDepth plugins s (.postUnpack tid) { s with unpacking := u, analysis := an }
  | analysis {a : AnalysisQueue.Action} {an : AnalysisQueue.State}
      (hpermits : permitsAnalysis a = true) (hnext : AnalysisQueue.Next plugins s.analysis a an) :
      Next maxDepth plugins s (.analysis a) { s with analysis := an }

variable {maxDepth : Nat} {plugins : Plugins} {s s' : State} {a : Action}

/-- Every step is one of the listed ones. -/
theorem next_of_step (h : (machine maxDepth plugins).step a s = some s') :
    Next maxDepth plugins s a s' := by
  cases a with
  | unpacking a =>
      have hstep : unpackingStep maxDepth a s = some s' := h
      unfold unpackingStep at hstep
      split at hstep
      · rename_i hpermits
        rcases Option.map_eq_some_iff.1 hstep with ⟨u, hu, rfl⟩
        exact Next.unpacking hpermits (Unpacking.next_of_step hu)
      · cases hstep
  | generate tid f =>
      have hstep : generate maxDepth tid f s = some s' := h
      unfold generate at hstep
      split at hstep
      · rename_i task hget
        split at hstep
        · rename_i hdepth
          cases Option.some.inj hstep
          split
          · rename_i hknown
            exact Next.generateKnown hget hdepth hknown
          · rename_i hnot
            have hempty : f.isEmpty = false := by simpa using fun hf => hnot (Or.inl hf)
            exact Next.generateNew hget hdepth hempty fun hmem => hnot (Or.inr hmem)
        · cases hstep
      · cases hstep
  | unpack tid =>
      rcases Option.map_eq_some_iff.1 h with ⟨u, hu, rfl⟩
      have hstep : (Unpacking.machine maxDepth).step (.unpack tid (s.filesOf tid)) s.unpacking =
          some u := hu
      exact Next.unpack (Unpacking.next_of_step hstep)
  | postUnpack tid =>
      have hstep : postUnpack tid s = some s' := h
      unfold postUnpack at hstep
      split at hstep
      · rename_i th u hget hu
        rcases Option.map_eq_some_iff.1 hstep with ⟨an, han, rfl⟩
        have hpost : (Unpacking.machine maxDepth).step (.postUnpack tid) s.unpacking = some u := hu
        have hstart : (AnalysisQueue.machine plugins).step (.start tid th.task) s.analysis =
            some an := han
        exact Next.postUnpack hget (Unpacking.next_of_step hpost)
          (AnalysisQueue.next_of_step hstart)
      · cases hstep
  | analysis a =>
      have hstep : analysisStep plugins a s = some s' := h
      unfold analysisStep at hstep
      split at hstep
      · rename_i hpermits
        rcases Option.map_eq_some_iff.1 hstep with ⟨an, han, rfl⟩
        exact Next.analysis hpermits (AnalysisQueue.next_of_step han)
      · cases hstep

/-! ## The unpacking scheduler in the backend -/

/-- What a step of the backend is for the unpacking scheduler. -/
def State.unpackingAction (s : State) : Action → Option Unpacking.Action
  | .unpacking a => some a
  | .unpack tid => some (.unpack tid (s.filesOf tid))
  | .postUnpack tid => some (.postUnpack tid)
  | .generate _ _ | .analysis _ => none

/-- The unpacking scheduler takes the step too, or does not see it. -/
theorem step_unpacking (h : (machine maxDepth plugins).step a s = some s') :
    (∃ b, s.unpackingAction a = some b ∧
        (Unpacking.machine maxDepth).step b s.unpacking = some s'.unpacking) ∨
      s.unpackingAction a = none ∧ s'.unpacking = s.unpacking := by
  cases a with
  | unpacking b =>
      have hstep : unpackingStep maxDepth b s = some s' := h
      unfold unpackingStep at hstep
      split at hstep
      · rcases Option.map_eq_some_iff.1 hstep with ⟨u, hu, rfl⟩
        exact Or.inl ⟨b, rfl, hu⟩
      · cases hstep
  | generate tid f =>
      refine Or.inr ⟨rfl, ?_⟩
      cases next_of_step h with
      | generateNew => rfl
      | generateKnown => rfl
  | unpack tid =>
      rcases Option.map_eq_some_iff.1 h with ⟨u, hu, rfl⟩
      exact Or.inl ⟨_, rfl, hu⟩
  | postUnpack tid =>
      have hstep : postUnpack tid s = some s' := h
      unfold postUnpack at hstep
      split at hstep
      · rename_i th u hget hu
        rcases Option.map_eq_some_iff.1 hstep with ⟨an, -, rfl⟩
        exact Or.inl ⟨_, rfl, hu⟩
      · cases hstep
  | analysis b =>
      refine Or.inr ⟨rfl, ?_⟩
      cases next_of_step h with
      | analysis => rfl

/-- Every run of the backend is a run of the unpacking scheduler. -/
theorem reach_unpacking {ok : State → Action → Prop}
    {okUnpacking : Unpacking.State → Unpacking.Action → Prop}
    (hok : ∀ s a b, ok s a → s.unpackingAction a = some b → okUnpacking s.unpacking b)
    (h : (machine maxDepth plugins).Reach ok s) :
    (Unpacking.machine maxDepth).Reach okUnpacking s.unpacking := by
  have hinit : ∀ s, (machine maxDepth plugins).Init s →
      ∃ u, (Unpacking.machine maxDepth).Init u ∧ s.unpacking = u := by
    rintro s ⟨db, rfl⟩
    exact ⟨_, ⟨db, rfl⟩, rfl⟩
  have hstep : ∀ s a s' u, ok s a → (machine maxDepth plugins).step a s = some s' →
      s.unpacking = u → ∃ bs u', (Unpacking.machine maxDepth).Steps okUnpacking u bs u' ∧
        s'.unpacking = u' := by
    rintro s a s' u hs hstep rfl
    rcases step_unpacking hstep with ⟨b, hb, hstep'⟩ | ⟨-, hsame⟩
    · exact ⟨[b], _, Machine.Steps.single (hok s a b hs hb) hstep', rfl⟩
    · exact ⟨[], _, Machine.Steps.nil _, hsame⟩
  rcases Machine.reach_simulation hinit hstep h with ⟨u, hu, rfl⟩
  exact hu

/-- The invariant of the unpacking scheduler holds in the backend. -/
theorem reach_basic {ok : State → Action → Prop} (h : (machine maxDepth plugins).Reach ok s) :
    Unpacking.Basic s.unpacking := by
  have hreach : (Unpacking.machine maxDepth).Reach Machine.anyStep s.unpacking :=
    reach_unpacking (fun _ _ _ _ _ => trivial) h
  exact Unpacking.reach_basic hreach

/-! ## Threads that generate objects -/

/-- A thread that has gone through files is in `unpack`, above the depth limit. -/
def Generating (maxDepth : Nat) (s : State) : Prop :=
  ∀ tid ∈ s.generated, ∃ task, s.unpacking.threads.get? tid = some ⟨task, .unpacking⟩ ∧
    task.depth < maxDepth

/-- A thread in `unpack` stays there until it returns or raises. -/
theorem next_inUnpack {u u' : Unpacking.State} {b : Unpacking.Action} {tid : Nat}
    {task : FileObject} (hnext : Unpacking.Next maxDepth u b u')
    (hget : u.threads.get? tid = some ⟨task, .unpacking⟩) :
    u'.threads.get? tid = some ⟨task, .unpacking⟩ ∨ b = .extractionError tid ∨ b = .raises tid ∨
      ∃ files, b = .unpack tid files := by
  by_cases hown : b.thread = some tid
  · right
    cases hnext with
    | extractionError =>
        obtain rfl := Option.some.inj hown
        exact Or.inl rfl
    | raises =>
        obtain rfl := Option.some.inj hown
        exact Or.inr (Or.inl rfl)
    | unpack =>
        obtain rfl := Option.some.inj hown
        exact Or.inr (Or.inr ⟨_, rfl⟩)
    | startThread hqueue hfree =>
        obtain rfl := Option.some.inj hown
        exact absurd (Dict.mem_of_get? hget) hfree
    | dbInterfaceError db hget' hphase =>
        obtain rfl := Option.some.inj hown
        cases hget.symm.trans hget'
        exact hphase.elim
    | addTask | cancelAbsent | cancelTest | cancelRaises | cancelPop => cases hown
    | enterKnown hget' | enterNew hget' | enterFile hget' | enterSkip hget' | storeEntry hget'
    | query hget' | save hget' | postUnpack hget' | raisesLocked hget' | fetchNone hget'
    | fetch hget' | dbCall hget' | writeBackPop hget' | writeBackKeyError hget'
    | writeBackSet hget' | put hget' | finish hget' =>
        obtain rfl := Option.some.inj hown
        cases hget.symm.trans hget'
  · exact Or.inl ((Unpacking.next_other hnext hown).trans hget)

theorem step_generating (hstep : (machine maxDepth plugins).step a s = some s')
    (h : Generating maxDepth s) : Generating maxDepth s' := by
  cases next_of_step hstep with
  | @unpacking b u hpermits hnext =>
      intro tid htid
      have hold : tid ∈ s.generated := by
        have hmem : tid ∈ keepFiles s.generated b := htid
        unfold keepFiles at hmem
        split at hmem
        · exact (Dict.mem_erase.1 hmem).2
        · exact hmem
      rcases h tid hold with ⟨task, hget, hdepth⟩
      rcases next_inUnpack hnext hget with hstays | rfl | rfl | ⟨files, rfl⟩
      · exact ⟨task, hstays, hdepth⟩
      · -- nothing was generated before an `ExtractionError`
        exact absurd hold (of_decide_eq_true hpermits)
      · exact absurd rfl (Dict.mem_erase.1 htid).1
      · cases hpermits
  | @generateNew tid f task hget hdepth =>
      intro t ht
      rcases Dict.mem_set.1 ht with rfl | hold
      · exact ⟨task, hget, hdepth⟩
      · exact h t hold
  | @generateKnown tid f task hget hdepth =>
      intro t ht
      rcases Dict.mem_set.1 ht with rfl | hold
      · exact ⟨task, hget, hdepth⟩
      · exact h t hold
  | @unpack tid u hnext =>
      intro t ht
      rcases Dict.mem_erase.1 ht with ⟨hne, hold⟩
      rcases h t hold with ⟨task, hget, hdepth⟩
      have hother : u.threads.get? t = s.unpacking.threads.get? t := by
        refine Unpacking.next_other hnext ?_
        intro heq
        exact hne (Option.some.inj heq).symm
      exact ⟨task, hother.trans hget, hdepth⟩
  | @postUnpack tid task phase u an hget hnext hstart =>
      intro t ht
      rcases h t ht with ⟨task', hget', hdepth⟩
      rcases next_inUnpack hnext hget' with hstays | heq | heq | ⟨files, heq⟩
      · exact ⟨task', hstays, hdepth⟩
      · cases heq
      · cases heq
      · cases heq
  | analysis => exact h

theorem reach_generating {ok : State → Action → Prop}
    (h : (machine maxDepth plugins).Reach ok s) : Generating maxDepth s := by
  refine Machine.reach_invariant ?_ (fun _ _ _ _ hstep => step_generating hstep) h
  rintro s ⟨db, rfl⟩ tid htid
  cases htid

end FactCore.Backend
