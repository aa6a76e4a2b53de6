import FactCore.Scheduler.Backend
import FactCore.Scheduler.UnpackingTotals

/-! # Unpacking locks

The unpacker sets the lock of a file when it has found it in a container, so that
it is not deleted before it is analyzed, and the lock is released when a process
takes the file up. It is set for each container in which the file is found, but
what was found may be forgotten on its way: if the file is known already, if its
firmware is gone, after a `DbInterfaceError`, and when its analysis is dropped.

`underway` counts the occurrences of a file that will be taken up if nothing
goes wrong. A step changes it only by what it forgets; so the locks are all
released in the end if nothing is forgotten that is locked and has no other
occurrence under way.
-/

namespace FactCore.Backend

open Tla Unpacking

/-! ## Occurrences under way -/

/-- The stages of an object that is still to be handed to the analysis. -/
def comes : Stage → Bool → Bool
  | .updating, _ | .recording, _ => false
  | _, _ => true

/-- Counts the objects of a file that are still to be handed to the analysis. -/
def comingWeight (u : Uid) : Stage → FileObject → Nat := weight comes (fun _ => true) u

/-- The files that a thread has to hand to the analysis, or to put into the queue. -/
def coming (th : Thread) : List Uid :=
  match th.phase with
  | .started | .initializing | .unpacking => [th.task.uid]
  | .querying extracted | .saving _ extracted | .posting extracted =>
      th.task.uid :: extracted.map FileObject.uid
  | .updating extracted => extracted.map FileObject.uid
  | .recording _ _ kept | .scheduling kept => kept.map FileObject.uid

/-- The file is among those that were gone through, and not empty. -/
def FoundIn (files : List ExtractedFile) (u : Uid) : Prop :=
  ∃ f ∈ files, f.isEmpty = false ∧ f.uid = u

instance (files : List ExtractedFile) (u : Uid) : Decidable (FoundIn files u) :=
  inferInstanceAs (Decidable (∃ f ∈ files, _))

/-- The object will be taken up, if it is not dropped. -/
def ToBeTaken (u : Uid) (x : FileObject × Bool) : Prop :=
  x.1.uid = u ∧ (x.2 = true ∨ x.1.scheduledAnalysis ≠ [])

instance (u : Uid) (x : FileObject × Bool) : Decidable (ToBeTaken u x) :=
  inferInstanceAs (Decidable (_ ∧ _))

/-- How many occurrences of a file are under way to the processes that take objects up. -/
def State.underway (s : State) (u : Uid) : Nat :=
  total (comingWeight u) s.unpacking.held +
    s.generated.sum (fun files => if FoundIn files u then 1 else 0) +
      s.analysis.held.countP (ToBeTaken u)

/-! ## What a step forgets -/

/-- The files that a step of the unpacking scheduler forgets: a file whose
firmware has no entry is skipped; after a `DbInterfaceError` neither the file nor
what was found in it goes on; and what is known already, or found too late, is not
unpacked again. -/
def forgetsUnpacking (s : Unpacking.State) : Unpacking.Action → List Uid
  | .enter tid =>
      match s.threads.get? tid with
      | some ⟨task, .started⟩ =>
          if task.isFirmware = false ∧ s.entryOf task.rootUid = none then [task.uid] else []
      | _ => []
  | .dbInterfaceError tid => (s.threads.get? tid).elim [] coming
  | .fetch tid =>
      match s.threads.get? tid with
      | some ⟨task, .updating extracted⟩ =>
          (extracted.map FileObject.uid).filter fun u =>
            (s.entryOf task.rootUid).all fun p => decide (u ∈ p.2.remaining ∪ p.2.done)
      | _ => []
  | _ => []

/-- `_check_further_process_or_complete` drops an object with analyses left if its
firmware is not in progress. -/
def dropped (s : AnalysisQueue.State) (x : FileObject × Bool) : List Uid :=
  if (x.2 = true ∨ x.1.scheduledAnalysis ≠ []) ∧ s.goesOn x.1 = false then [x.1.uid] else []

/-- The files that a step of the analysis scheduler forgets. An object whose last
analysis is unscheduled is not taken up again either. -/
def forgetsAnalysis (s : AnalysisQueue.State) : AnalysisQueue.Action → List Uid
  | .check caller _ _ =>
      match s.calls.get? caller with
      | some ⟨_, next :: _⟩ => dropped s next
      | _ => []
  | .finish i => (s.working.get? i).elim [] fun fo => dropped s (fo, false)
  | .unschedule i plugin =>
      (s.working.get? i).elim [] fun fo =>
        if fo.scheduledAnalysis ≠ [] ∧ fo.scheduledAnalysis.erase plugin = [] then [fo.uid] else []
  | _ => []

/-- The files that a step forgets. -/
def State.forgets (s : State) : Action → List Uid
  | .unpacking a => forgetsUnpacking s.unpacking a
  | .analysis a => forgetsAnalysis s.analysis a
  | _ => []

/-- Nothing is cancelled, and nothing is raised but `ExtractionError`s and
`DbInterfaceError`s. -/
def Ordinary : Action → Prop
  | .unpacking (.raises _) | .unpacking (.cancelTest _) | .unpacking .cancelPop => False
  | .analysis (.cancel _) => False
  | _ => True

instance : (a : Action) → Decidable (Ordinary a)
  | .unpacking (.raises _) | .unpacking (.cancelTest _) | .unpacking .cancelPop =>
      instDecidableFalse
  | .unpacking (.addTask _) | .unpacking (.startThread _) | .unpacking (.enter _)
  | .unpacking (.storeEntry _) | .unpacking (.unpack _ _) | .unpacking (.extractionError _)
  | .unpacking (.query _) | .unpacking (.save _) | .unpacking (.postUnpack _)
  | .unpacking (.dbInterfaceError _) | .unpacking (.fetch _) | .unpacking (.dbCall _)
  | .unpacking (.writeBack _) | .unpacking (.put _) | .unpacking (.finish _) => instDecidableTrue
  | .analysis (.cancel _) => instDecidableFalse
  | .analysis (.start _ _) | .analysis (.update _ _ _ _) | .analysis (.check _ _ _)
  | .analysis (.returnFrom _) | .analysis (.take _ _) | .analysis (.addAnalysis _ _)
  | .analysis (.unschedule _ _) | .analysis (.finish _) | .analysis (.deliver _ _)
  | .analysis (.setLock _) => instDecidableTrue
  | .generate _ _ | .unpack _ | .postUnpack _ => instDecidableTrue

/-- What the step forgets is not locked, or another occurrence of it is under way. -/
def NothingLost (s : State) (a : Action) : Prop :=
  Ordinary a ∧ ∀ u ∈ s.forgets a, u ∈ s.analysis.unpackingLocks →
    (s.forgets a).count u < s.underway u

instance (s : State) (a : Action) : Decidable (NothingLost s a) :=
  inferInstanceAs (Decidable (_ ∧ _))


/-! ## The unpacking scheduler -/

section Unpacking

variable {maxDepth : Nat} {u : Unpacking.State} {u' : Unpacking.State} {b : Unpacking.Action}
  {tid : Nat} {task task' : FileObject} {phase phase' : Phase} {x root : Uid}
  {cu : CurrentlyUnpacked}

theorem sum_comingWeight {stage : Stage} (h : ∀ fw, comes stage fw = true)
    (objects : List FileObject) :
    (objects.map (comingWeight x stage)).sum = (objects.map FileObject.uid).count x := by
  induction objects with
  | nil => rfl
  | cons fo rest ih =>
      have hfo : comingWeight x stage fo = if fo.uid = x then 1 else 0 := by
        simp [comingWeight, weight, h]
      rw [List.map_cons, List.sum_cons, ih, hfo, List.map_cons, List.count_cons, add_comm]
      simp [beq_iff_eq]

/-- A thread counts for the files that it has under way. -/
theorem total_thread (task : FileObject) (phase : Phase) (x : Uid) :
    total (comingWeight x) (phase.held task) = (coming ⟨task, phase⟩).count x := by
  have htask : ∀ {stage : Stage}, (∀ fw, comes stage fw = true) →
      comingWeight x stage task = [task.uid].count x := by
    intro stage hstage
    have hsum := sum_comingWeight (x := x) hstage [task]
    simpa using hsum
  have hnot : ∀ {stage : Stage}, (∀ fw, comes stage fw = false) →
      comingWeight x stage task = 0 := fun hstage => weight_eq_zero hstage
  have hwith : ∀ {stage : Stage} (extracted : List FileObject), (∀ fw, comes stage fw = true) →
      total (comingWeight x) ((stage, task) ::ₘ ↑(extracted.map (Prod.mk Stage.extracted))) =
        (task.uid :: extracted.map FileObject.uid).count x := by
    intro stage extracted hstage
    rw [total_cons, total_map, sum_comingWeight (fun _ => rfl), htask hstage,
      ← List.count_append, List.singleton_append]
  cases phase with
  | started => exact (total_singleton _ _ _).trans (htask fun _ => rfl)
  | initializing => exact (total_singleton _ _ _).trans (htask fun _ => rfl)
  | unpacking => exact (total_singleton _ _ _).trans (htask fun _ => rfl)
  | querying extracted => exact hwith extracted fun _ => rfl
  | saving present extracted => exact hwith extracted fun _ => rfl
  | posting extracted => exact hwith extracted fun _ => rfl
  | updating extracted =>
      rw [Phase.held, total_cons, total_map, sum_comingWeight (fun _ => rfl), hnot fun _ => rfl,
        zero_add]
      rfl
  | recording entry calls kept =>
      rw [Phase.held, total_cons, total_map, sum_comingWeight (fun _ => rfl), hnot fun _ => rfl,
        zero_add]
      rfl
  | scheduling kept => exact (total_map _ _ _).trans (sum_comingWeight (fun _ => rfl) kept)

/-- The firmware that a step brings in. -/
def brings : Unpacking.Action → List Uid
  | .addTask fw => [fw.uid]
  | _ => []

/-- A thread that goes on to something else. -/
theorem total_goesOn (x : Uid) (hget : u.threads.get? tid = some ⟨task, phase⟩)
    (hthreads : u'.threads = u.threads.set tid ⟨task', phase'⟩) (hqueue : u'.inQueue = u.inQueue) :
    total (comingWeight x) u'.held + (coming ⟨task, phase⟩).count x =
      total (comingWeight x) u.held + (coming ⟨task', phase'⟩).count x := by
  have hmoved := total_moved (comingWeight x) hget hthreads hqueue
  rw [total_thread, total_thread] at hmoved
  exact hmoved

/-- A thread that keeps what it has under way. -/
theorem total_keeps (x : Uid) (hget : u.threads.get? tid = some ⟨task, phase⟩)
    (hthreads : u'.threads = u.threads.set tid ⟨task', phase'⟩) (hqueue : u'.inQueue = u.inQueue)
    (hsame : coming ⟨task', phase'⟩ = coming ⟨task, phase⟩) :
    total (comingWeight x) u'.held = total (comingWeight x) u.held := by
  have hgoes := total_goesOn x hget hthreads hqueue
  rw [hsame] at hgoes
  exact Nat.add_right_cancel hgoes

/-- A thread that ends. -/
theorem total_gone (x : Uid) (hget : u.threads.get? tid = some ⟨task, phase⟩)
    (hthreads : u'.threads = u.threads.erase tid) (hqueue : u'.inQueue = u.inQueue) :
    total (comingWeight x) u'.held + (coming ⟨task, phase⟩).count x =
      total (comingWeight x) u.held := by
  have hended := total_ended (comingWeight x) hget hthreads hqueue
  rw [total_thread] at hended
  exact hended

theorem comingWeight_queued (fo : FileObject) (x : Uid) :
    comingWeight x .queued fo = [fo.uid].count x := by
  have hsum : ([fo].map (comingWeight x .queued)).sum = ([fo].map FileObject.uid).count x :=
    sum_comingWeight (fun _ => rfl) [fo]
  simpa using hsum

/-- A file that is put into the queue. -/
theorem total_queued {fo : FileObject} (x : Uid) (hthreads : u'.threads = u.threads)
    (hqueue : u'.inQueue = u.inQueue ++ [fo]) :
    total (comingWeight x) u'.held = total (comingWeight x) u.held + [fo.uid].count x := by
  rw [total_added (comingWeight x) hthreads hqueue, comingWeight_queued]

/-- A file that a thread puts into the queue. -/
theorem total_putBack {fo : FileObject} {rest : List FileObject} (x : Uid)
    (hget : u.threads.get? tid = some ⟨task, .scheduling (fo :: rest)⟩)
    (hthreads : u'.threads = u.threads.set tid ⟨task, .scheduling rest⟩)
    (hqueue : u'.inQueue = u.inQueue ++ [fo]) :
    total (comingWeight x) u'.held = total (comingWeight x) u.held := by
  have hput := total_put (comingWeight x) hget hthreads hqueue
  rw [total_thread, total_thread, comingWeight_queued] at hput
  have hcount : (coming ⟨task, .scheduling (fo :: rest)⟩).count x =
      [fo.uid].count x + (coming ⟨task, .scheduling rest⟩).count x := by
    rw [← List.count_append]
    rfl
  omega

/-- A task that a thread takes from the queue. -/
theorem total_taken {rest : List FileObject} (x : Uid) (hqueue : u.inQueue = task :: rest)
    (hfree : tid ∉ u.threads) (hthreads : u'.threads = u.threads.set tid ⟨task, .started⟩)
    (hrest : u'.inQueue = rest) :
    total (comingWeight x) u'.held = total (comingWeight x) u.held := by
  have hstarted := total_started (comingWeight x) hqueue hfree hthreads hrest
  have hsame : comingWeight x .started task = comingWeight x .queued task :=
    weight_congr rfl rfl rfl
  rw [hsame] at hstarted
  exact Nat.add_right_cancel hstarted

/-- A file is kept if it was extracted and is not known. -/
theorem mem_kept_iff {extracted : List FileObject} (hchildren : Children task extracted) :
    x ∈ (updateCurrentlyUnpacked cu task extracted).kept.map FileObject.uid ↔
      x ∈ extracted.map FileObject.uid ∧ x ∉ cu.remaining ∪ cu.done := by
  constructor
  · intro hx
    rcases List.mem_map.1 hx with ⟨fo, hfo, rfl⟩
    rcases updateCurrentlyUnpacked_new hfo with ⟨hrem, hdone, -⟩
    refine ⟨List.mem_map_of_mem ((updateCurrentlyUnpacked_kept cu task extracted).subset hfo), ?_⟩
    exact fun hmem => (Finset.mem_union.1 hmem).elim hrem hdone
  · rintro ⟨hx, hnew⟩
    rcases List.mem_map.1 hx with ⟨fo, hfo, rfl⟩
    have hne := (hchildren.child fo hfo).ne
    rw [Finset.mem_union, not_or] at hnew
    rcases @updateCurrentlyUnpacked_known cu task fo extracted hfo hne with hrem | hdone
    · rw [updateCurrentlyUnpacked_remaining, Finset.mem_erase, Finset.mem_union] at hrem
      rcases hrem.2 with hold | hkept
      · exact absurd hold hnew.1
      · exact List.mem_toFinset.1 hkept
    · rw [updateCurrentlyUnpacked_done, Finset.mem_insert] at hdone
      exact absurd hdone (not_or.2 ⟨hne, hnew.2⟩)

/-- Of what was extracted the new files are kept, the others are forgotten. -/
theorem count_kept {extracted : List FileObject} (hchildren : Children task extracted)
    (cu : CurrentlyUnpacked) (x : Uid) :
    ((updateCurrentlyUnpacked cu task extracted).kept.map FileObject.uid).count x +
        ((extracted.map FileObject.uid).filter fun v =>
          decide (v ∈ cu.remaining ∪ cu.done)).count x =
      (extracted.map FileObject.uid).count x := by
  have hkept := (hchildren.sublist (updateCurrentlyUnpacked_kept cu task extracted)).nodup
  rw [hkept.count, hchildren.nodup.count, (hchildren.nodup.filter _).count]
  simp only [List.mem_filter, mem_kept_iff hchildren, decide_eq_true_eq]
  by_cases hx : x ∈ extracted.map FileObject.uid <;> by_cases hold : x ∈ cu.remaining ∪ cu.done <;>
    simp [hx, hold]

/-- A thread that forgets some of what it has extracted. -/
theorem total_records {extracted kept : List FileObject} {entry : CurrentlyUnpacked}
    {calls : List DbCall} {forgotten : List Uid} (x : Uid)
    (hget : u.threads.get? tid = some ⟨task, .updating extracted⟩)
    (hthreads : u'.threads = u.threads.set tid ⟨task, .recording entry calls kept⟩)
    (hqueue : u'.inQueue = u.inQueue)
    (hcount : (kept.map FileObject.uid).count x + forgotten.count x =
      (extracted.map FileObject.uid).count x) :
    total (comingWeight x) u'.held + forgotten.count x = total (comingWeight x) u.held := by
  have hgoes := total_goesOn x hget hthreads hqueue
  simp only [coming] at hgoes
  omega

/-- A thread that has unpacked its task. -/
theorem total_unpacks {extracted : List FileObject} (x : Uid)
    (hget : u.threads.get? tid = some ⟨task, .unpacking⟩)
    (hthreads : u'.threads = u.threads.set tid ⟨task', .querying extracted⟩)
    (hqueue : u'.inQueue = u.inQueue) (huid : task'.uid = task.uid) :
    total (comingWeight x) u'.held =
      total (comingWeight x) u.held + (extracted.map FileObject.uid).count x := by
  have hgoes := total_goesOn x hget hthreads hqueue
  have hcoming : coming ⟨task', .querying extracted⟩ =
      coming ⟨task, .unpacking⟩ ++ extracted.map FileObject.uid := by
    simp only [coming, huid, List.singleton_append]
  rw [hcoming, List.count_append] at hgoes
  omega

/-- A thread that hands its task to the analysis. -/
theorem total_posts {extracted : List FileObject} (x : Uid)
    (hget : u.threads.get? tid = some ⟨task, .posting extracted⟩)
    (hthreads : u'.threads = u.threads.set tid ⟨task, .updating extracted⟩)
    (hqueue : u'.inQueue = u.inQueue) :
    total (comingWeight x) u'.held + [task.uid].count x = total (comingWeight x) u.held := by
  have hgoes := total_goesOn x hget hthreads hqueue
  have hcoming : coming ⟨task, .posting extracted⟩ =
      [task.uid] ++ coming ⟨task, .updating extracted⟩ := rfl
  rw [hcoming, List.count_append] at hgoes
  omega

/-- What `unpack` returns comes in addition to its task. -/
theorem next_unpack {files : List ExtractedFile} (x : Uid)
    (hnext : Unpacking.Next maxDepth u (.unpack tid files) u') :
    ∃ task, u.threads.get? tid = some ⟨task, .unpacking⟩ ∧
      total (comingWeight x) u'.held = total (comingWeight x) u.held +
        ((Unpacker.unpack maxDepth task files).2.map FileObject.uid).count x := by
  cases hnext with
  | @unpack tid files task hget =>
      have huid : (Unpacker.unpack maxDepth task files).1.uid = task.uid := by
        rw [Unpacker.unpack_task]
        rfl
      exact ⟨task, hget, total_unpacks x (u := u) hget rfl rfl huid⟩

/-- A thread that calls `post_unpack` hands its task to the analysis. -/
theorem next_postUnpack (x : Uid) (hnext : Unpacking.Next maxDepth u (.postUnpack tid) u') :
    ∃ task extracted, u.threads.get? tid = some ⟨task, .posting extracted⟩ ∧
      total (comingWeight x) u'.held + [task.uid].count x = total (comingWeight x) u.held := by
  cases hnext with
  | @postUnpack tid task extracted hget =>
      exact ⟨task, extracted, hget, total_posts x (u := u) hget rfl rfl⟩

/-- What the unpacking scheduler has under way changes by what a step brings in
and what it forgets. The objects that `unpack` returns and the call of
`post_unpack` are treated with the steps of the backend. -/
theorem next_coming (hnext : Unpacking.Next maxDepth u b u') (hbasic : Basic u)
    (hunpack : ∀ tid files, b ≠ .unpack tid files) (hpost : ∀ tid, b ≠ .postUnpack tid)
    (hraises : ∀ tid, b ≠ .raises tid) (x : Uid) :
    total (comingWeight x) u'.held + (forgetsUnpacking u b).count x =
      total (comingWeight x) u.held + (brings b).count x := by
  cases hnext with
  | @addTask fw =>
      have huid : [fw.uid] = [FileObject.uid { fw with rootUid := some fw.uid }] := rfl
      rw [brings, huid]
      exact total_queued x (u := u) rfl rfl
  | @startThread tid task rest hqueue hfree =>
      exact total_taken x (u := u) hqueue hfree rfl rfl
  | @enterKnown tid task hget hfw hlock hmem =>
      have hforgets : forgetsUnpacking u (.enter tid) = [] := by
        simp [forgetsUnpacking, hget, hfw]
      rw [hforgets]
      exact total_keeps x (u := u) hget rfl rfl rfl
  | @enterNew tid task hget hfw hlock hnew =>
      have hforgets : forgetsUnpacking u (.enter tid) = [] := by
        simp [forgetsUnpacking, hget, hfw]
      rw [hforgets]
      exact total_keeps x (u := u) hget rfl rfl rfl
  | @enterFile tid task root cu hget hfw hroot hentry =>
      have hforgets : forgetsUnpacking u (.enter tid) = [] := by
        simp [forgetsUnpacking, hget, State.entryOf, hroot, hentry]
      rw [hforgets]
      exact total_keeps x (u := u) hget rfl rfl rfl
  | @enterSkip tid task hget hfw hentry =>
      have hforgets : forgetsUnpacking u (.enter tid) = coming ⟨task, .started⟩ := by
        simp [forgetsUnpacking, hget, hfw, hentry, coming]
      rw [hforgets]
      exact total_gone x (u := u) hget rfl rfl
  | storeEntry hget => exact total_keeps x (u := u) hget rfl rfl rfl
  | unpack => exact absurd rfl (hunpack _ _)
  | extractionError hget => exact total_keeps x (u := u) hget rfl rfl rfl
  | query hget => exact total_keeps x (u := u) hget rfl rfl rfl
  | save hget => exact total_keeps x (u := u) hget rfl rfl rfl
  | postUnpack => exact absurd rfl (hpost _)
  | @dbInterfaceError tid task phase db hget hphase =>
      have hforgets : forgetsUnpacking u (.dbInterfaceError tid) = coming ⟨task, phase⟩ := by
        simp [forgetsUnpacking, hget]
      rw [hforgets]
      show _ = total _ _ + (coming ⟨task, .updating []⟩).count x
      exact total_goesOn x (u := u) hget rfl rfl
  | raises => exact absurd rfl (hraises _)
  | raisesLocked => exact absurd rfl (hraises _)
  | @fetchNone tid task extracted hget hlock hentry =>
      have hforgets : forgetsUnpacking u (.fetch tid) = coming ⟨task, .updating extracted⟩ := by
        simp [forgetsUnpacking, hget, hentry, coming]
      rw [hforgets]
      show _ = total _ _ + (coming ⟨task, .scheduling []⟩).count x
      exact total_goesOn x (u := u) hget rfl rfl
  | @fetch tid task extracted root cu hget hlock hroot hentry =>
      have hchildren : Children task extracted := hbasic.ok _ _ _ hget
      have hforgets : forgetsUnpacking u (.fetch tid) =
          (extracted.map FileObject.uid).filter fun v =>
            decide (v ∈ cu.remaining ∪ cu.done) := by
        simp [forgetsUnpacking, hget, State.entryOf, hroot, hentry]
      rw [hforgets]
      exact total_records x (u := u) hget rfl rfl (count_kept hchildren cu x)
  | dbCall hget => exact total_keeps x (u := u) hget rfl rfl rfl
  | writeBackPop hget => exact total_keeps x (u := u) hget rfl rfl rfl
  | @writeBackKeyError tid task root entry kept hget hroot hempty hgone =>
      -- what is kept remains to be unpacked, so nothing is kept here
      have hkept : kept = [] := by
        cases kept with
        | nil => rfl
        | cons fo rest =>
            have hok : PhaseOk task (.recording entry [] (fo :: rest)) := hbasic.ok _ _ _ hget
            have hmem := hok.2.2 fo List.mem_cons_self
            rw [hempty] at hmem
            exact absurd hmem (Finset.notMem_empty _)
      subst hkept
      exact total_gone x (u := u) hget rfl rfl
  | writeBackSet hget => exact total_keeps x (u := u) hget rfl rfl rfl
  | @put tid task fo rest hget =>
      exact total_putBack x (u := u) hget rfl rfl
  | finish hget => exact total_gone x (u := u) hget rfl rfl
  | cancelAbsent => rfl
  | cancelTest => rfl
  | cancelRaises => rfl
  | cancelPop => rfl

end Unpacking

/-! ## The analysis scheduler -/

section Analysis

variable {plugins : Plugins} {s s' : AnalysisQueue.State} {b : AnalysisQueue.Action} {x : Uid}

/-- The analyses that `schedule_analysis_tasks` gives to an object, and nothing else. -/
theorem scheduleMandatory_eq {shuffled : Shuffled} {rounds : Nat} {requested : List Plugin}
    {fo fo' : FileObject}
    (hfree : ∀ d, ¬ TaskScheduler.DependsOn plugins "file_type" d)
    (h : AnalysisQueue.scheduleMandatory plugins shuffled rounds requested fo = some fo') :
    fo' = { fo with scheduledAnalysis := fo'.scheduledAnalysis } ∧ fo'.scheduledAnalysis ≠ [] := by
  unfold AnalysisQueue.scheduleMandatory at h
  split at h
  · rename_i schedule hschedule
    cases Option.some.inj h
    exact ⟨rfl, List.ne_nil_of_mem (TaskScheduler.fileType_scheduled hfree hschedule)⟩
  · cases h

/-- A call checks an object with the uid, the root and the kind of the one that it has. -/
theorem nextObject_eq {shuffled : Shuffled} {rounds : Nat} {requested : List Plugin}
    {next : FileObject × Bool} {fo : FileObject}
    (hfree : ∀ d, ¬ TaskScheduler.DependsOn plugins "file_type" d)
    (h : AnalysisQueue.nextObject plugins shuffled rounds requested next = some fo) :
    fo = { next.1 with scheduledAnalysis := fo.scheduledAnalysis } ∧
      (fo.scheduledAnalysis ≠ [] ↔ next.2 = true ∨ next.1.scheduledAnalysis ≠ []) := by
  rcases next with ⟨old, toSchedule⟩
  cases toSchedule with
  | true =>
      rcases scheduleMandatory_eq hfree h with ⟨heq, hne⟩
      exact ⟨heq, iff_of_true hne (Or.inl rfl)⟩
  | false =>
      cases Option.some.inj h
      exact ⟨rfl, by simp⟩

/-- An object of the file counts if it will be taken up. -/
theorem countP_cons (x : Uid) (y : FileObject × Bool) (held : Multiset (FileObject × Bool)) :
    (y ::ₘ held).countP (ToBeTaken x) =
      held.countP (ToBeTaken x) +
        (if y.2 = true ∨ y.1.scheduledAnalysis ≠ [] then [y.1.uid] else []).count x := by
  rw [Multiset.countP_cons]
  by_cases hcomes : y.2 = true ∨ y.1.scheduledAnalysis ≠ []
  · by_cases huid : y.1.uid = x
    · simp [ToBeTaken, hcomes, huid]
    · simp [ToBeTaken, hcomes, huid]
  · simp [ToBeTaken, hcomes]

/-- An object that is checked goes into the queue, unless it is completed or dropped. -/
theorem countP_check (s : AnalysisQueue.State) (sender : AnalysisQueue.Sender) (fo : FileObject)
    (x : Uid) :
    (s.checkFurtherProcessOrComplete sender fo).held.countP (ToBeTaken x) +
        (dropped s (fo, false)).count x =
      ((fo, false) ::ₘ s.held).countP (ToBeTaken x) := by
  rw [countP_cons]
  rcases AnalysisQueue.check_cases s sender fo with
    ⟨hempty, heq⟩ | ⟨hne, hgoes, heq⟩ | ⟨hne, hgoes, heq⟩
  · rw [heq]
    simp [dropped, hempty]
    rfl
  · have hheld : (s.checkFurtherProcessOrComplete sender fo).held = (fo, true) ::ₘ s.held := by
      rw [heq]
      exact AnalysisQueue.heldIn_push
    rw [hheld, countP_cons]
    simp [dropped, hgoes, hne]
  · rw [heq]
    simp [dropped, hgoes, hne]

theorem countP_le_of_add {more held held' : Multiset (FileObject × Bool)} {k : Nat}
    (h : held' = more + held) :
    held.countP (ToBeTaken x) ≤ held'.countP (ToBeTaken x) + k := by
  rw [h, Multiset.countP_add]
  omega

theorem countP_le_of_eq {held held' : Multiset (FileObject × Bool)} {k : Nat} (h : held' = held) :
    held.countP (ToBeTaken x) ≤ held'.countP (ToBeTaken x) + k := by
  rw [h]
  exact Nat.le_add_right _ _

/-- What the analysis scheduler has under way to its processes is lost only by what a
step forgets, or because the file is taken up. -/
theorem next_toBeTaken (hnext : AnalysisQueue.Next plugins s b s')
    (hfree : ∀ d, ¬ TaskScheduler.DependsOn plugins "file_type" d)
    (hlock : x ∈ s'.unpackingLocks) :
    s.held.countP (ToBeTaken x) ≤
      s'.held.countP (ToBeTaken x) + (forgetsAnalysis s b).count x := by
  cases hnext with
  | start hunused => exact countP_le_of_add (AnalysisQueue.heldIn_begin hunused _)
  | update hunused => exact countP_le_of_add (AnalysisQueue.heldIn_begin hunused _)
  | @check caller shuffled rounds requested next rest fo hget hobject =>
      rcases nextObject_eq hfree hobject with ⟨heq, hcomes⟩
      have hheld : s.held = next ::ₘ AnalysisQueue.State.held
          { s with calls := s.calls.set caller ⟨requested, rest⟩ } := AnalysisQueue.heldIn_next hget
      have hforgets : forgetsAnalysis s (.check caller shuffled rounds) = dropped s next := by
        simp [forgetsAnalysis, hget]
      have huid : fo.uid = next.1.uid := by rw [heq]
      have hgoes : s.goesOn fo = s.goesOn next.1 := by
        rw [heq]
        rfl
      have hdropped : dropped { s with calls := s.calls.set caller ⟨requested, rest⟩ } (fo, false) =
          dropped s next := by
        show (if (false = true ∨ fo.scheduledAnalysis ≠ []) ∧ s.goesOn fo = false then [fo.uid]
          else []) = _
        rw [hgoes, huid]
        simp only [Bool.false_eq_true, false_or, hcomes]
        rfl
      have hcheck := countP_check { s with calls := s.calls.set caller ⟨requested, rest⟩ }
        caller.1 fo x
      have hsame : (if (fo, false).2 = true ∨ (fo, false).1.scheduledAnalysis ≠ [] then
          [(fo, false).1.uid] else []) =
          if next.2 = true ∨ next.1.scheduledAnalysis ≠ [] then [next.1.uid] else [] := by
        simp only [Bool.false_eq_true, false_or, hcomes, huid]
      rw [hdropped, countP_cons, hsame] at hcheck
      rw [hheld, countP_cons, hforgets]
      omega
  | returnFrom hget => exact countP_le_of_eq (AnalysisQueue.heldIn_return hget)
  | @take before after i fo hqueue hunused =>
      -- the lock of the file is released
      have hne : fo.uid ≠ x := by
        rintro rfl
        exact Finset.notMem_erase _ _ hlock
      have hheld : s.held = (fo, true) ::ₘ
          AnalysisQueue.heldIn (before ++ after) s.working s.calls := by
        rw [AnalysisQueue.State.held, hqueue, AnalysisQueue.heldIn_mid]
      have hcount : s.held.countP (ToBeTaken x) =
          (AnalysisQueue.heldIn (before ++ after) s.working s.calls).countP (ToBeTaken x) := by
        rw [hheld, countP_cons]
        simp [hne]
      have hafter : AnalysisQueue.heldIn (before ++ after) (s.working.set i
          { fo with scheduledAnalysis := fo.scheduledAnalysis.dropLast }) s.calls =
          {({ fo with scheduledAnalysis := fo.scheduledAnalysis.dropLast }, false)} +
            AnalysisQueue.heldIn (before ++ after) s.working s.calls := by
        rw [AnalysisQueue.heldIn_set_working, Dict.erase_of_notMem hunused,
          ← Multiset.singleton_add]
      exact hcount.le.trans (countP_le_of_add hafter)
  | addAnalysis => exact countP_le_of_eq rfl
  | @unschedule i plugin fo hget =>
      have hheld : s.held = (fo, false) ::ₘ
          AnalysisQueue.heldIn s.processQueue (s.working.erase i) s.calls :=
        AnalysisQueue.heldIn_working hget
      have hforgets : forgetsAnalysis s (.unschedule i plugin) =
          if fo.scheduledAnalysis ≠ [] ∧ fo.scheduledAnalysis.erase plugin = [] then [fo.uid]
          else [] := by
        simp [forgetsAnalysis, hget]
      show _ ≤ (AnalysisQueue.heldIn s.processQueue (s.working.set i
        { fo with scheduledAnalysis := fo.scheduledAnalysis.erase plugin }) s.calls).countP _ + _
      rw [hheld, AnalysisQueue.heldIn_set_working, countP_cons, countP_cons, hforgets]
      by_cases hlast : fo.scheduledAnalysis.erase plugin = []
      · by_cases hempty : fo.scheduledAnalysis = [] <;> simp [hlast, hempty]
      · have hne : fo.scheduledAnalysis ≠ [] := by
          intro hempty
          exact hlast (by rw [hempty]; rfl)
        simp [hlast, hne]
  | @finish i fo hget =>
      have hheld : s.held = (fo, false) ::ₘ AnalysisQueue.State.held
          { s with working := s.working.erase i } := AnalysisQueue.heldIn_working hget
      have hforgets : forgetsAnalysis s (.finish i) = dropped s (fo, false) := by
        simp [forgetsAnalysis, hget]
      have hcheck := countP_check { s with working := s.working.erase i } .other fo x
      have hdropped : dropped { s with working := s.working.erase i } (fo, false) =
          dropped s (fo, false) := rfl
      rw [hdropped] at hcheck
      rw [hheld, hforgets]
      exact hcheck.ge
  | deliver => exact countP_le_of_eq rfl
  | deliverRaises => exact countP_le_of_eq rfl
  | cancel => exact countP_le_of_eq rfl
  | setLock => exact countP_le_of_eq rfl

/-- An object whose analysis is started will be taken up. -/
theorem next_start {tid : Nat} {fo : FileObject} (x : Uid)
    (hnext : AnalysisQueue.Next plugins s (.start tid fo) s') :
    s'.held.countP (ToBeTaken x) = s.held.countP (ToBeTaken x) + [fo.uid].count x := by
  cases hnext with
  | start hunused =>
      have hheld : AnalysisQueue.heldIn s.processQueue s.working
          (s.calls.set (.unpacking, tid) ⟨fo.scheduledAnalysis, [(fo, true)]⟩) =
          (fo, true) ::ₘ s.held := AnalysisQueue.heldIn_begin hunused _
      show (AnalysisQueue.heldIn s.processQueue s.working
        (s.calls.set (.unpacking, tid) ⟨fo.scheduledAnalysis, [(fo, true)]⟩)).countP _ = _
      rw [hheld, countP_cons]
      simp

/-- Only the unpacker sets locks. -/
theorem next_locks (hnext : AnalysisQueue.Next plugins s b s') (hlock : x ∈ s'.unpackingLocks) :
    x ∈ s.unpackingLocks ∨ b = .setLock x := by
  cases hnext with
  | update => exact Or.inl (Finset.mem_of_mem_erase hlock)
  | take => exact Or.inl (Finset.mem_of_mem_erase hlock)
  | setLock => exact (Finset.mem_insert.1 hlock).elim (fun heq => Or.inr (heq ▸ rfl)) Or.inl
  | @check caller shuffled rounds requested next rest fo hget hobject =>
      rcases AnalysisQueue.check_cases
        { s with calls := s.calls.set caller ⟨requested, rest⟩ } caller.1 fo with
        ⟨-, heq⟩ | ⟨-, -, heq⟩ | ⟨-, -, heq⟩ <;>
      · rw [heq] at hlock
        exact Or.inl hlock
  | @finish i fo hget =>
      rcases AnalysisQueue.check_cases { s with working := s.working.erase i } .other fo with
        ⟨-, heq⟩ | ⟨-, -, heq⟩ | ⟨-, -, heq⟩ <;>
      · rw [heq] at hlock
        exact Or.inl hlock
  | _ => exact Or.inl hlock

end Analysis

/-! ## The backend -/

variable {maxDepth : Nat} {plugins : Plugins} {s s' : State} {a : Action} {x : Uid}

/-- What `unpack` returns are the files that were gone through, but for the container. -/
theorem mem_unpack_iff {files : List ExtractedFile} {task : FileObject} {x : Uid}
    (hdepth : files ≠ [] → task.depth < maxDepth) :
    x ∈ (Unpacker.unpack maxDepth task files).2.map FileObject.uid ↔
      FoundIn files x ∧ x ≠ task.uid := by
  constructor
  · intro hx
    rcases List.mem_map.1 hx with ⟨child, hchild, rfl⟩
    rcases @Unpacker.mem_unpack_content maxDepth (fun _ => files) task child hchild with
      ⟨-, -, hne, hfound⟩
    exact ⟨hfound, hne⟩
  · rintro ⟨hfound, hne⟩
    have hfiles : files ≠ [] := by
      rintro rfl
      rcases hfound with ⟨f, hf, -⟩
      cases hf
    have hcontains : Unpacker.Contains (fun _ => files) task.uid x := ⟨hne, hfound⟩
    rcases Unpacker.unpack_content (hdepth hfiles) hcontains with ⟨child, hchild, rfl⟩
    exact List.mem_map_of_mem hchild

/-- A thread has no more under way than the scheduler. -/
theorem count_coming_le {u : Unpacking.State} {tid : Nat} {th : Thread} (x : Uid)
    (hget : u.threads.get? tid = some th) :
    (coming th).count x ≤ total (comingWeight x) u.held := by
  rcases th with ⟨task, phase⟩
  rw [held_thread hget, total_add, total_thread]
  exact Nat.le_add_right _ _

/-- How many threads have gone through the file. -/
def generating (generated : Dict Nat (List ExtractedFile)) (x : Uid) : Nat :=
  generated.sum fun files => if FoundIn files x then 1 else 0

theorem generating_eq (s : State) (tid : Nat) (x : Uid) :
    generating s.generated x =
      (if FoundIn (s.filesOf tid) x then 1 else 0) + generating (s.generated.erase tid) x := by
  unfold generating State.filesOf
  cases hget : s.generated.get? tid with
  | none =>
      have hnot : ¬ FoundIn [] x := by
        rintro ⟨f, hf, -⟩
        cases hf
      rw [Dict.erase_of_notMem (Dict.notMem_iff.2 hget)]
      simp [hnot]
  | some files =>
      rw [Dict.sum_eq_add_erase _ hget]
      rfl

theorem generating_set (s : State) (tid : Nat) (f : ExtractedFile) (x : Uid) :
    generating s.generated x ≤ generating (s.generated.set tid (s.filesOf tid ++ [f])) x ∧
      (f.isEmpty = false → f.uid = x →
        0 < generating (s.generated.set tid (s.filesOf tid ++ [f])) x) := by
  have hset : generating (s.generated.set tid (s.filesOf tid ++ [f])) x =
      (if FoundIn (s.filesOf tid ++ [f]) x then 1 else 0) + generating (s.generated.erase tid) x :=
    Dict.sum_set _ _ _ _
  rw [hset, generating_eq s tid x]
  constructor
  · by_cases hold : FoundIn (s.filesOf tid) x
    · have hnew : FoundIn (s.filesOf tid ++ [f]) x := by
        rcases hold with ⟨g, hg, hfound⟩
        exact ⟨g, List.mem_append_left _ hg, hfound⟩
      rw [if_pos hold, if_pos hnew]
    · rw [if_neg hold]
      omega
  · intro hempty huid
    have hnew : FoundIn (s.filesOf tid ++ [f]) x :=
      ⟨f, List.mem_append_right _ (List.mem_singleton_self f), hempty, huid⟩
    rw [if_pos hnew]
    omega

theorem underway_eq (s : State) (x : Uid) : s.underway x =
    total (comingWeight x) s.unpacking.held + generating s.generated x +
      s.analysis.held.countP (ToBeTaken x) := rfl

/-- A file whose lock is set is under way. -/
def LocksUnderway (s : State) : Prop := ∀ x ∈ s.analysis.unpackingLocks, 0 < s.underway x

/-- No occurrence is lost when `unpack` returns. -/
theorem underway_unpack {u : Unpacking.State} {tid : Nat} (hgenerating : Generating maxDepth s)
    (hnext : Unpacking.Next maxDepth s.unpacking (.unpack tid (s.filesOf tid)) u)
    (hunderway : 0 < s.underway x) :
    0 < State.underway { s with unpacking := u, generated := s.generated.erase tid } x := by
  rcases next_unpack x hnext with ⟨task, hget, htotal⟩
  rw [underway_eq] at hunderway ⊢
  rw [generating_eq s tid x] at hunderway
  have hdepth : s.filesOf tid ≠ [] → task.depth < maxDepth := by
    intro hne
    have hmem : tid ∈ s.generated := by
      by_contra hnot
      exact hne (by simp [State.filesOf, Dict.notMem_iff.1 hnot])
    rcases hgenerating tid hmem with ⟨task', hget', hdepth⟩
    cases hget.symm.trans hget'
    exact hdepth
  have hiff := @mem_unpack_iff maxDepth (s.filesOf tid) task x hdepth
  have htask : [task.uid].count x ≤ total (comingWeight x) s.unpacking.held :=
    count_coming_le x hget
  show 0 < total (comingWeight x) u.held + generating (s.generated.erase tid) x +
    s.analysis.held.countP (ToBeTaken x)
  by_cases hfound : FoundIn (s.filesOf tid) x
  · by_cases hself : x = task.uid
    · -- the container is still there, even if it contains itself
      have hcount : [task.uid].count x = 1 := by simp [hself]
      omega
    · have hcount := List.count_pos_iff.2 (hiff.2 ⟨hfound, hself⟩)
      omega
  · rw [if_neg hfound] at hunderway
    omega

/-- No occurrence is lost when `post_unpack` is called. -/
theorem underway_postUnpack {u : Unpacking.State} {an : AnalysisQueue.State} {tid : Nat}
    {task : FileObject} {phase : Phase}
    (hget : s.unpacking.threads.get? tid = some ⟨task, phase⟩)
    (hnext : Unpacking.Next maxDepth s.unpacking (.postUnpack tid) u)
    (hstart : AnalysisQueue.Next plugins s.analysis (.start tid task) an) :
    State.underway { s with unpacking := u, analysis := an } x = s.underway x := by
  rcases next_postUnpack x hnext with ⟨task', extracted, hget', htotal⟩
  cases hget.symm.trans hget'
  have hheld := next_start x hstart
  rw [underway_eq, underway_eq]
  show total (comingWeight x) u.held + generating s.generated x + an.held.countP (ToBeTaken x) = _
  omega

/-- A locked file stays under way, if the step forgets none that should not be. -/
theorem step_locksUnderway (hstep : (machine maxDepth plugins).step a s = some s')
    (hfree : ∀ d, ¬ TaskScheduler.DependsOn plugins "file_type" d) (hok : NothingLost s a)
    (hbasic : Basic s.unpacking) (hgenerating : Generating maxDepth s) (h : LocksUnderway s) :
    LocksUnderway s' := by
  rcases hok with ⟨hordinary, hforgets⟩
  intro x hx
  -- what is forgotten of a locked file is less than what is under way
  have hleft : x ∈ s.analysis.unpackingLocks → (s.forgets a).count x < s.underway x := by
    intro hlock
    by_cases hmem : x ∈ s.forgets a
    · exact hforgets x hmem hlock
    · rw [List.count_eq_zero.2 hmem]
      exact h x hlock
  cases next_of_step hstep with
  | @unpacking b u hpermits hnext =>
      have hraises : ∀ tid, b ≠ .raises tid := by
        rintro tid rfl
        exact hordinary
      have hcoming := next_coming hnext hbasic
        (fun tid files heq => by subst heq; cases hpermits)
        (fun tid heq => by subst heq; cases hpermits) hraises x
      have hkeep : keepFiles s.generated b = s.generated := by
        unfold keepFiles
        split
        · exact absurd rfl (hraises _)
        · rfl
      have hcount : (forgetsUnpacking s.unpacking b).count x < s.underway x := hleft hx
      rw [underway_eq] at hcount ⊢
      show 0 < total (comingWeight x) u.held + generating (keepFiles s.generated b) x +
        s.analysis.held.countP (ToBeTaken x)
      rw [hkeep]
      omega
  | @generateNew tid f task hget hdepth hempty hnew =>
      rcases generating_set s tid f x with ⟨hle, hfound⟩
      have hgenerated : 0 < total (comingWeight x) s.unpacking.held +
          generating (s.generated.set tid (s.filesOf tid ++ [f])) x +
            s.analysis.held.countP (ToBeTaken x) := by
        rcases Finset.mem_insert.1 hx with rfl | hlock
        · have hpos := hfound hempty rfl
          omega
        · have hold := h x hlock
          rw [underway_eq] at hold
          omega
      exact hgenerated
  | @generateKnown tid f task hget hdepth hknown =>
      have hle := (generating_set s tid f x).1
      have hold := h x hx
      rw [underway_eq] at hold ⊢
      show 0 < total (comingWeight x) s.unpacking.held +
        generating (s.generated.set tid (s.filesOf tid ++ [f])) x +
          s.analysis.held.countP (ToBeTaken x)
      omega
  | unpack hnext => exact underway_unpack hgenerating hnext (h x hx)
  | @postUnpack tid task phase u an hget hnext hstart =>
      rw [underway_postUnpack hget hnext hstart]
      rcases next_locks hstart hx with hlock | heq
      · exact h x hlock
      · cases heq
  | @analysis b an hpermits hnext =>
      rcases next_locks hnext hx with hlock | rfl
      · have htaken := next_toBeTaken hnext hfree hx
        have hcount : (forgetsAnalysis s.analysis b).count x < s.underway x := hleft hlock
        rw [underway_eq] at hcount ⊢
        show 0 < total (comingWeight x) s.unpacking.held + generating s.generated x +
          an.held.countP (ToBeTaken x)
        omega
      · cases hpermits

theorem reach_locksUnderway (hfree : ∀ d, ¬ TaskScheduler.DependsOn plugins "file_type" d)
    (h : (machine maxDepth plugins).Reach NothingLost s) : LocksUnderway s := by
  have hinit : ∀ s, (machine maxDepth plugins).Init s → LocksUnderway s := by
    rintro s ⟨db, rfl⟩ x hx
    exact absurd hx (Finset.notMem_empty x)
  have hJ : ∀ s, (machine maxDepth plugins).Reach NothingLost s →
      Basic s.unpacking ∧ Generating maxDepth s :=
    fun s hs => ⟨reach_basic hs, reach_generating hs⟩
  exact Machine.reach_invariant_with hJ hinit
    (fun _ _ _ hok hstep hinv => step_locksUnderway hstep hfree hok hinv.1 hinv.2) h

/-- Nothing is under way in an idle backend. -/
theorem underway_of_idle (hgenerating : Generating maxDepth s) (hidle : s.Idle) (x : Uid) :
    s.underway x = 0 := by
  rcases hidle with ⟨hunpacking, hqueue, hworking, hcalls, -⟩
  have hgenerated : s.generated.items = [] := by
    cases hitems : s.generated.items with
    | nil => rfl
    | cons p rest =>
        have hget : s.generated.get? p.1 = some p.2 := by
          rw [Dict.get?_eq_some_iff, hitems]
          exact List.mem_cons_self
        rcases hgenerating p.1 (Dict.mem_of_get? hget) with ⟨task, hthread, -⟩
        have hmem := Dict.get?_eq_some_iff.1 hthread
        rw [hunpacking.2] at hmem
        cases hmem
  rw [underway_eq, held_of_idle hunpacking, total_zero]
  unfold generating AnalysisQueue.State.held AnalysisQueue.heldIn Dict.sum
  rw [hgenerated, hqueue, hworking, hcalls]
  rfl

/-- No unpacking lock is left in an idle backend, if nothing was forgotten that was
locked and had no other occurrence under way. -/
theorem locks_released (hfree : ∀ d, ¬ TaskScheduler.DependsOn plugins "file_type" d)
    (h : (machine maxDepth plugins).Reach NothingLost s) (hidle : s.Idle) :
    s.analysis.unpackingLocks = ∅ := by
  apply Finset.eq_empty_of_forall_notMem
  intro x hx
  have hpos := reach_locksUnderway hfree h x hx
  rw [underway_of_idle (reach_generating h) hidle] at hpos
  exact absurd hpos (Nat.lt_irrefl 0)

/-! ## A file in the firmware and in a container of it -/

def packedFile : ExtractedFile := ⟨"file", "file", 1, "file", "/file"⟩

def packedBox : ExtractedFile := ⟨"box", "box", 3, "box", "/box"⟩

/-- A thread takes a task and saves it, with the files that are found in it. -/
def saveTask (files : List ExtractedFile) : List Action :=
  files.map (.generate 0) ++ [.unpack 0, .unpacking (.query 0), .unpacking (.save 0)]

/-- The thread calls `post_unpack`, which returns. -/
def startAnalysis : List Action :=
  [.postUnpack 0, .analysis (.deliver 0 0),
    .analysis (.check (.unpacking, 0) TaskScheduler.unshuffled 5),
    .analysis (.returnFrom (.unpacking, 0))]

/-- A file is unpacked, whose entry needs some calls to the database. -/
def unpackFile (files : List ExtractedFile) (calls : Nat) : List Action :=
  [.unpacking (.startThread 0), .unpacking (.enter 0)] ++ saveTask files ++ startAnalysis ++
    [.unpacking (.fetch 0)] ++ List.replicate calls (.unpacking (.dbCall 0)) ++
    [.unpacking (.writeBack 0), .unpacking (.finish 0)]

/-- The firmware is unpacked, and contains the file and the box. -/
def unpackFirmware : List Action :=
  [.unpacking (.addTask image), .unpacking (.startThread 0), .unpacking (.enter 0),
    .unpacking (.storeEntry 0)] ++ saveTask [packedFile, packedBox] ++ startAnalysis ++
    [.unpacking (.fetch 0), .unpacking (.writeBack 0), .unpacking (.put 0), .unpacking (.put 0),
      .unpacking (.finish 0)]

/-- The objects in the queue are taken up and checked, one after the other. -/
def analyze (n : Nat) : List Action :=
  (List.replicate n [.analysis (.take 0 0), .analysis (.finish 0)]).flatten

/-- The box is unpacked before the file in it is analyzed. -/
def boxFirst : List Action :=
  unpackFirmware ++ unpackFile [] 0 ++ unpackFile [packedFile] 2 ++ analyze 6 ++
    List.replicate 3 (.analysis (.deliver 0 0))

theorem init_empty : (machine 8 TaskScheduler.somePlugins).Init (State.init Db.empty) :=
  ⟨Db.empty, rfl⟩

theorem fileType_free : ∀ d, ¬ TaskScheduler.DependsOn TaskScheduler.somePlugins "file_type" d :=
  TaskScheduler.somePlugins_closed.fileType_free

/-- The theorem at the end of the run `boxFirst`. -/
theorem locks_released_boxFirst : ∃ s : State,
    (machine 8 TaskScheduler.somePlugins).Reach NothingLost s ∧ s.Idle ∧
      "file" ∈ s.unpacking.db.fileObject ∧ s.analysis.unpackingLocks = ∅ := by
  have hrun : ∃ s : State, (machine 8 TaskScheduler.somePlugins).Reach NothingLost s ∧ s.Idle ∧
      "file" ∈ s.unpacking.db.fileObject := Machine.exists_reach init_empty boxFirst (by decide +kernel)
  rcases hrun with ⟨s, hreach, hidle, hfile⟩
  exact ⟨s, hreach, hidle, hfile, locks_released fileType_free hreach hidle⟩

/-- The file is analyzed before the box is unpacked. -/
def boxLast : List Action :=
  unpackFirmware ++ unpackFile [] 0 ++ analyze 4 ++ unpackFile [packedFile] 2 ++ analyze 2 ++
    List.replicate 3 (.analysis (.deliver 0 0))

/-- The lock that is set for the box is never released. -/
theorem lock_left : ∃ s : State,
    (machine 8 TaskScheduler.somePlugins).Reach (fun _ a => Ordinary a) s ∧ s.Idle ∧
      s.analysis.unpackingLocks = {"file"} :=
  Machine.exists_reach init_empty boxLast (by decide +kernel)

end FactCore.Backend
