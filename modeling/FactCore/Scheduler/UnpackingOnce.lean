import FactCore.Scheduler.UnpackingBooks

/-! # Every file is unpacked once

A run of one firmware in which nothing is cancelled and only
`ExtractionError`s are raised. The uids that have become known to the
bookkeeping are put into the queue once, unpacked once and posted once: for
each of these three the log and the file objects that still have it ahead of
them add up to one.
-/

namespace FactCore.Unpacking

open Tla Unpacker

/-- Nothing is raised but `ExtractionError`s, nothing is cancelled, and no
further firmware is submitted. -/
def Undisturbed (_ : State) : Action → Prop
  | .addTask _ | .dbInterfaceError _ | .raises _ | .cancelTest _ | .cancelPop => False
  | _ => True

instance (s : State) : (a : Action) → Decidable (Undisturbed s a)
  | .addTask _ | .dbInterfaceError _ | .raises _ | .cancelTest _ | .cancelPop => instDecidableFalse
  | .startThread _ | .enter _ | .storeEntry _ | .unpack _ _ | .extractionError _ | .query _
  | .save _ | .postUnpack _ | .fetch _ | .dbCall _ | .writeBack _ | .put _
  | .finish _ => instDecidableTrue

/-- What happens to every file once. -/
inductive Tally where
  | put
  | unpacked
  | posted

/-- The files to which it has happened. -/
def Tally.log : Tally → Log → List Uid
  | .put, log => log.puts
  | .unpacked, log => log.unpacked
  | .posted, log => log.posted

/-- The stages of the file objects to which it is still to happen. -/
def Tally.pending : Tally → Stage → Bool
  | _, .recorded | _, .scheduled => true
  | .unpacked, .queued | .unpacked, .started | .unpacked, .initializing
  | .unpacked, .unpacking => true
  | .posted, .queued | .posted, .started | .posted, .initializing | .posted, .unpacking
  | .posted, .querying | .posted, .saving | .posted, .posting => true
  | _, _ => false

/-- Counts the file objects with the uid to which it is still to happen. -/
def Tally.weight (t : Tally) : Uid → Stage → FileObject → Nat :=
  Unpacking.weight (fun stage _ => t.pending stage) fun _ => true

/-- The log of one run of the firmware `fw`, in which the uids `known` have
become known. -/
structure Once (fw : Uid) (s : State) (known : Finset Uid) : Prop where
  counted : ∀ (t : Tally) u, (t.log s.log).count u + total (t.weight u) s.held =
    if u ∈ known then 1 else 0
  returned : ∀ u ∈ s.log.returned, u ∈ known ∨ ∃ fo, (Stage.extracted, fo) ∈ s.held ∧ fo.uid = u
  books : ∀ cu, s.books fw = some cu → known = cu.remaining ∪ cu.done
  fresh : 0 < total (newWeight fw fw) s.held → known = {fw}

variable {s s' : State} {tid : Nat} {task fo : FileObject} {phase : Phase} {u fw : Uid}
  {known : Finset Uid}

/-- The file belongs to the firmware. -/
def Of (fw : Uid) (fo : FileObject) : Prop := fo.rootUid = some fw

theorem inherited_of (fw : Uid) : Inherited (Of fw) :=
  ⟨fun _ _ hchild htask => hchild.rootUid.trans htask, fun _ _ htask => htask⟩

/-! ## Extracted objects -/

/-- The files that a thread has extracted but not yet recorded. -/
def Phase.extracted : Phase → List FileObject
  | .querying extracted | .saving _ extracted | .posting extracted
  | .updating extracted => extracted
  | _ => []

theorem extracted_mem_held : (Stage.extracted, fo) ∈ phase.held task ↔ fo ∈ phase.extracted := by
  cases phase <;> simp [Phase.held, Phase.extracted]

/-- An extracted object is in the thread that extracted it. -/
theorem extracted_mem {fo : FileObject} : (Stage.extracted, fo) ∈ s.held ↔
    ∃ tid task phase, s.threads.get? tid = some ⟨task, phase⟩ ∧ fo ∈ phase.extracted := by
  rw [mem_held]
  constructor
  · rintro (⟨g, -, heq⟩ | ⟨tid, task, phase, hget, hmem⟩)
    · cases heq
    · exact ⟨tid, task, phase, hget, extracted_mem_held.1 hmem⟩
  · rintro ⟨tid, task, phase, hget, hmem⟩
    exact Or.inr ⟨tid, task, phase, hget, extracted_mem_held.2 hmem⟩

/-- A step that takes no extracted object away from its thread. -/
theorem extracted_moved {task' : FileObject} {phase' : Phase}
    (hget : s.threads.get? tid = some ⟨task, phase⟩)
    (hthreads : s'.threads = s.threads.set tid ⟨task', phase'⟩)
    (hextracted : ∀ g ∈ phase.extracted, g ∈ phase'.extracted) {fo : FileObject}
    (h : (Stage.extracted, fo) ∈ s.held) : (Stage.extracted, fo) ∈ s'.held := by
  rcases extracted_mem.1 h with ⟨t, task'', phase'', hget'', hmem⟩
  by_cases ht : t = tid
  · subst ht
    cases hget.symm.trans hget''
    exact extracted_mem.2 ⟨t, task', phase', by rw [hthreads, Dict.get?_set_self],
      hextracted fo hmem⟩
  · exact extracted_mem.2 ⟨t, task'', phase'', by rw [hthreads, Dict.get?_set_ne _ _ ht, hget''],
      hmem⟩

/-! ## Pending file objects -/

theorem pending_extracted (t : Tally) : t.pending .extracted = false := by
  cases t <;> rfl

theorem pending_kept (t : Tally) : t.pending .recorded = true ∧ t.pending .scheduled = true := by
  cases t <;> exact ⟨rfl, rfl⟩

theorem pending_recording (t : Tally) : t.pending .recording = false := by
  cases t <;> rfl

theorem tally_weight (t : Tally) (stage : Stage) (fo : FileObject) :
    t.weight u stage fo = if t.pending stage = true ∧ fo.uid = u then 1 else 0 := by
  simp [Tally.weight, weight]

/-- A thread that keeps nothing has at most its task pending. -/
theorem pending_task (t : Tally) {stage : Stage} (hstage : phase.stage = some stage)
    (hkept : phase.kept = []) :
    total (t.weight u) (phase.held task) =
      if t.pending stage = true ∧ task.uid = u then 1 else 0 := by
  rw [← tally_weight]
  exact total_task (fun _ => pending_extracted t) hstage hkept

/-- A recording thread has pending what it keeps. -/
theorem pending_recorded (t : Tally) {entry : CurrentlyUnpacked} {calls : List DbCall}
    {kept : List FileObject} (hchildren : Children task kept) :
    total (t.weight u) ((Phase.recording entry calls kept).held task) =
      if u ∈ kept.map FileObject.uid then 1 else 0 := by
  have hkept : (kept.map (t.weight u .recorded)).sum = _ := sum_weight_children hchildren
  simp only [Phase.held]
  rw [total_cons, total_map, hkept, tally_weight, pending_recording]
  simp [pending_kept]

theorem pending_scheduled (t : Tally) {kept : List FileObject} (hchildren : Children task kept) :
    total (t.weight u) ((Phase.scheduling kept).held task) =
      if u ∈ kept.map FileObject.uid then 1 else 0 := by
  have hkept : (kept.map (t.weight u .scheduled)).sum = _ := sum_weight_children hchildren
  rw [total_scheduling, hkept]
  simp [pending_kept]

/-! ## Steps -/

/-- A step after which every file is still accounted for, with the same known
uids. -/
theorem once_frame
    (hcounted : ∀ (t : Tally) u, (t.log s'.log).count u + total (t.weight u) s'.held =
      (t.log s.log).count u + total (t.weight u) s.held)
    (hreturned : ∀ u ∈ s'.log.returned, u ∈ s.log.returned ∨
      ∃ fo, (Stage.extracted, fo) ∈ s'.held ∧ fo.uid = u)
    (hextracted : ∀ fo, (Stage.extracted, fo) ∈ s.held → (Stage.extracted, fo) ∈ s'.held)
    (hbooks : ∀ cu, s'.books fw = some cu → known = cu.remaining ∪ cu.done)
    (hnew : total (newWeight fw fw) s'.held ≤ total (newWeight fw fw) s.held)
    (h : Once fw s known) : Once fw s' known := by
  refine ⟨?_, ?_, ?_, ?_⟩
  · intro t u
    rw [hcounted]
    exact h.counted t u
  · intro u hu
    rcases hreturned u hu with hold | hfound
    · rcases h.returned u hold with hknown | ⟨fo, hfo, huid⟩
      · exact Or.inl hknown
      · exact Or.inr ⟨fo, hextracted fo hfo, huid⟩
    · exact Or.inr hfound
  · exact hbooks
  · intro hpos
    exact h.fresh (by omega)

/-- A thread moves on, with the entry of its firmware unchanged. -/
theorem once_moved {task' : FileObject} {phase' : Phase}
    (hget : s.threads.get? tid = some ⟨task, phase⟩)
    (hthreads : s'.threads = s.threads.set tid ⟨task', phase'⟩) (hqueue : s'.inQueue = s.inQueue)
    (hcount : ∀ (t : Tally) u, (t.log s'.log).count u + total (t.weight u) (phase'.held task') =
      (t.log s.log).count u + total (t.weight u) (phase.held task))
    (hreturned : ∀ u ∈ s'.log.returned, u ∈ s.log.returned ∨
      u ∈ phase'.extracted.map FileObject.uid)
    (hextracted : ∀ g ∈ phase.extracted, g ∈ phase'.extracted)
    (hbooks : ∀ cu, s'.books fw = some cu → known = cu.remaining ∪ cu.done)
    (hnew : total (newWeight fw fw) (phase'.held task') ≤
      total (newWeight fw fw) (phase.held task)) (h : Once fw s known) : Once fw s' known := by
  refine once_frame ?_ ?_ (fun fo => extracted_moved hget hthreads hextracted) hbooks ?_ h
  · intro t u
    have hmoved := total_moved (t.weight u) hget hthreads hqueue
    have hown := hcount t u
    omega
  · intro u hu
    rcases hreturned u hu with hold | hfound
    · exact Or.inl hold
    · rcases List.mem_map.1 hfound with ⟨fo, hfo, huid⟩
      exact Or.inr ⟨fo, extracted_mem.2 ⟨tid, task', phase', by rw [hthreads, Dict.get?_set_self],
        hfo⟩, huid⟩
  · have hmoved := total_moved (newWeight fw fw) hget hthreads hqueue
    omega

theorem Once.same_books (h : Once fw s known) (hsame : s'.books fw = s.books fw) :
    ∀ cu, s'.books fw = some cu → known = cu.remaining ∪ cu.done := by
  intro cu hcu
  exact h.books cu (hsame ▸ hcu)

/-- A thread moves on with its task, and is logged for what is not pending any more. -/
theorem once_task {task' : FileObject} {phase' : Phase} {stage stage' : Stage}
    (hget : s.threads.get? tid = some ⟨task, phase⟩)
    (hthreads : s'.threads = s.threads.set tid ⟨task', phase'⟩) (hqueue : s'.inQueue = s.inQueue)
    (hstage : phase.stage = some stage) (hkept : phase.kept = [])
    (hstage' : phase'.stage = some stage') (hkept' : phase'.kept = [])
    (huid : task'.uid = task.uid) (hfw : task'.isFirmware = task.isFirmware)
    (hroot : task'.rootUid = task.rootUid)
    (hlog : ∀ t : Tally, t.log s'.log =
      if t.pending stage = t.pending stage' then t.log s.log else t.log s.log ++ [task.uid])
    (hpending : ∀ t : Tally, t.pending stage' = true → t.pending stage = true)
    (hreturned : ∀ u ∈ s'.log.returned, u ∈ s.log.returned ∨
      u ∈ phase'.extracted.map FileObject.uid)
    (hextracted : ∀ g ∈ phase.extracted, g ∈ phase'.extracted)
    (hbooks : ∀ cu, s'.books fw = some cu → known = cu.remaining ∪ cu.done)
    (hnew : ∀ b, stage'.isNew b = true → stage.isNew b = true) (h : Once fw s known) :
    Once fw s' known := by
  refine once_moved hget hthreads hqueue ?_ hreturned hextracted hbooks ?_ h
  · intro t u
    rw [pending_task t hstage hkept, pending_task t hstage' hkept', hlog, huid]
    have hdone := hpending t
    by_cases heq : t.pending stage = t.pending stage'
    · rw [if_pos heq, heq]
    · rw [if_neg heq, List.count_append, List.count_singleton]
      by_cases hu : task.uid = u
      · cases hp : t.pending stage <;> cases hp' : t.pending stage' <;> simp_all
      · simp [hu]
  · have hbefore : total (newWeight fw fw) (phase.held task) = newWeight fw fw stage task :=
      total_task (fun _ => rfl) hstage hkept
    have hafter : total (newWeight fw fw) (phase'.held task') = newWeight fw fw stage' task' :=
      total_task (fun _ => rfl) hstage' hkept'
    rw [hbefore, hafter]
    unfold newWeight weight
    rw [hfw, hroot, huid]
    split
    · rename_i hall
      rw [if_pos ⟨hnew _ hall.1, hall.2⟩]
    · exact Nat.zero_le _

/-- The extracted objects become known: those that are kept are new, the others
were known before. -/
theorem once_fetch {extracted : List FileObject} {cu : CurrentlyUnpacked} (hbasic : Basic s)
    (hbooksInv : Books s) (hget : s.threads.get? tid = some ⟨task, .updating extracted⟩)
    (hfree : s.syncLock = none) (hroot : task.rootUid = some fw)
    (hentry : s.currentlyExtracted.get? fw = some cu)
    (hthreads : s'.threads = s.threads.set tid ⟨task, .recording
      (updateCurrentlyUnpacked cu task extracted).entry
      (updateCurrentlyUnpacked cu task extracted).calls
      (updateCurrentlyUnpacked cu task extracted).kept⟩)
    (hqueue : s'.inQueue = s.inQueue) (hlog : s'.log = s.log) (hlock : s'.syncLock = some tid)
    (h : Once fw s known) :
    Once fw s' (known ∪ ((updateCurrentlyUnpacked cu task extracted).kept.map
      FileObject.uid).toFinset) := by
  have hextracted : Children task extracted := hbasic.ok _ _ _ hget
  have hchildren := hextracted.sublist (updateCurrentlyUnpacked_kept cu task extracted)
  have hbooks : s.books fw = some cu := by
    rw [books_of_no_copy (copy_free hfree fw)]
    exact hentry
  have hknown : known = cu.remaining ∪ cu.done := h.books cu hbooks
  have hmine : task.uid ∈ cu.remaining := by
    have hx : (Stage.updating, task) ∈ s.held := held_of_thread hget (task_mem_held rfl)
    have hmem := hbooksInv.mem_remaining hx hroot rfl
    rwa [remaining_of_books hbooks] at hmem
  have hbooks' : s'.books fw = some (updateCurrentlyUnpacked cu task extracted).entry :=
    books_recording hthreads hlock hroot
  have hentry' : known ∪ ((updateCurrentlyUnpacked cu task extracted).kept.map
      FileObject.uid).toFinset = (updateCurrentlyUnpacked cu task extracted).entry.remaining ∪
        (updateCurrentlyUnpacked cu task extracted).entry.done := by
    rw [updateCurrentlyUnpacked_remaining, updateCurrentlyUnpacked_done, hknown]
    ext v
    simp only [Finset.mem_union, Finset.mem_erase, Finset.mem_insert]
    by_cases hv : v = task.uid
    · simp [hv, hmine]
    · simp only [hv, ne_eq, not_false_eq_true, true_and, false_or]
      tauto
  refine ⟨?_, ?_, ?_, ?_⟩
  · intro t u
    have hmoved := total_moved (t.weight u) hget hthreads hqueue
    have hcounted := h.counted t u
    rw [pending_recorded t hchildren, pending_task t rfl rfl] at hmoved
    rw [hlog]
    have hno : t.pending .updating = false := by cases t <;> rfl
    rw [hno] at hmoved
    by_cases hkept : u ∈ (updateCurrentlyUnpacked cu task extracted).kept.map FileObject.uid
    · -- a kept file was unknown
      have hunknown : u ∉ known := by
        rcases List.mem_map.1 hkept with ⟨fo, hfo, rfl⟩
        rcases updateCurrentlyUnpacked_new hfo with ⟨hrem, hdone, -⟩
        rw [hknown, Finset.mem_union]
        exact fun hmem => hmem.elim hrem hdone
      rw [if_neg hunknown] at hcounted
      rw [if_pos (Finset.mem_union_right _ (List.mem_toFinset.2 hkept))]
      simp only [hkept, if_true, Bool.false_eq_true, false_and, if_false] at hmoved
      omega
    · have hiff : u ∈ known ∪ ((updateCurrentlyUnpacked cu task extracted).kept.map
          FileObject.uid).toFinset ↔ u ∈ known := by
        rw [Finset.mem_union, List.mem_toFinset]
        exact or_iff_left hkept
      simp only [hkept, Bool.false_eq_true, false_and, if_false] at hmoved
      simp only [hiff]
      omega
  · intro u hu
    rw [hlog] at hu
    rcases h.returned u hu with hold | ⟨fo, hfo, rfl⟩
    · exact Or.inl (Finset.mem_union_left _ hold)
    · rcases extracted_mem.1 hfo with ⟨t, task', phase', hget'', hmem⟩
      by_cases ht : t = tid
      · -- an object of this thread is remaining or done by now
        subst ht
        cases hget.symm.trans hget''
        refine Or.inl ?_
        rw [hentry', Finset.mem_union]
        exact updateCurrentlyUnpacked_known hmem (hextracted.child fo hmem).ne
      · refine Or.inr ⟨fo, extracted_mem.2 ⟨t, task', phase', ?_, hmem⟩, rfl⟩
        rw [hthreads, Dict.get?_set_ne _ _ ht, hget'']
  · intro cu' hcu'
    rw [hbooks'] at hcu'
    cases hcu'
    exact hentry'
  · -- there is no firmware without entry
    intro hpos
    have hmoved := total_moved (newWeight fw fw) hget hthreads hqueue
    rw [newWeight_recording] at hmoved
    have hnone := hbooksInv.fresh fw fw (by omega)
    rw [hbooks] at hnone
    cases hnone

/-- What is kept stays pending until it is in the queue. -/
theorem once_writeBack {entry : CurrentlyUnpacked} {kept : List FileObject} (hbasic : Basic s)
    (hget : s.threads.get? tid = some ⟨task, .recording entry [] kept⟩)
    (hthreads : s'.threads = s.threads.set tid ⟨task, .scheduling kept⟩)
    (hqueue : s'.inQueue = s.inQueue) (hlog : s'.log = s.log)
    (hbooks : ∀ cu, s'.books fw = some cu → known = cu.remaining ∪ cu.done)
    (h : Once fw s known) : Once fw s' known := by
  have hchildren : Children task kept := (hbasic.ok _ _ _ hget).1
  refine once_moved hget hthreads hqueue ?_ (fun u hu => Or.inl (hlog ▸ hu)) ?_ hbooks ?_ h
  · intro t u
    rw [pending_recorded t hchildren, pending_scheduled t hchildren, hlog]
  · intro g hg
    cases hg
  · rw [newWeight_recording, newWeight_scheduling]

theorem once_dbCall {entry : CurrentlyUnpacked} {calls calls' : List DbCall}
    {kept : List FileObject} (hbasic : Basic s)
    (hget : s.threads.get? tid = some ⟨task, .recording entry calls kept⟩)
    (hthreads : s'.threads = s.threads.set tid ⟨task, .recording entry calls' kept⟩)
    (hqueue : s'.inQueue = s.inQueue) (hlog : s'.log = s.log) (hlock : s'.syncLock = s.syncLock)
    (hentries : s'.currentlyExtracted = s.currentlyExtracted) (h : Once fw s known) :
    Once fw s' known := by
  have hchildren : Children task kept := (hbasic.ok _ _ _ hget).1
  have hcopy := copy_moved hget hthreads hlock fun _ => rfl
  refine once_moved hget hthreads hqueue ?_ (fun u hu => Or.inl (hlog ▸ hu)) ?_
    (h.same_books (books_same (hcopy fw) hentries)) ?_ h
  · intro t u
    rw [pending_recorded t hchildren, pending_recorded t hchildren, hlog]
  · intro g hg
    cases hg
  · rw [newWeight_recording, newWeight_recording]

/-- A put is logged, and leaves unpacking and posting pending. -/
theorem once_put {rest : List FileObject} (hbasic : Basic s)
    (hget : s.threads.get? tid = some ⟨task, .scheduling (fo :: rest)⟩)
    (hthreads : s'.threads = s.threads.set tid ⟨task, .scheduling rest⟩)
    (hqueue : s'.inQueue = s.inQueue ++ [fo])
    (hlog : s'.log = { s.log with puts := s.log.puts ++ [fo.uid] })
    (hlock : s'.syncLock = s.syncLock) (hentries : s'.currentlyExtracted = s.currentlyExtracted)
    (h : Once fw s known) : Once fw s' known := by
  have hcopy := copy_moved hget hthreads hlock fun _ => rfl
  have hchildren : Children task (fo :: rest) := hbasic.ok _ _ _ hget
  have hfile : fo.isFirmware = false := by
    simp [FileObject.isFirmware, (hchildren.child fo List.mem_cons_self).firmware]
  refine once_frame ?_ ?_ ?_ (h.same_books (books_same (hcopy fw) hentries)) ?_ h
  · intro t u
    have hput := total_put (t.weight u) hget hthreads hqueue
    rw [total_scheduling, total_scheduling, List.map_cons, List.sum_cons, tally_weight,
      tally_weight, (pending_kept t).2] at hput
    rw [hlog]
    cases t with
    | put =>
        simp only [Tally.log, Tally.pending, List.count_append, List.count_singleton] at hput ⊢
        by_cases hu : fo.uid = u
        · simp [hu] at hput ⊢
          omega
        · simp [hu] at hput ⊢
          omega
    | unpacked =>
        simp only [Tally.log, Tally.pending] at hput ⊢
        omega
    | posted =>
        simp only [Tally.log, Tally.pending] at hput ⊢
        omega
  · intro u hu
    rw [hlog] at hu
    exact Or.inl hu
  · intro g hg
    refine extracted_moved hget hthreads ?_ hg
    intro k hk
    cases hk
  · have hput := total_put (newWeight fw fw) hget hthreads hqueue
    have hzero : newWeight fw fw .queued fo = 0 := by
      simp [newWeight, weight, Stage.isNew, hfile]
    rw [newWeight_scheduling, newWeight_scheduling] at hput
    omega

theorem once_started {rest : List FileObject} (hqueue : s.inQueue = task :: rest)
    (hfree : tid ∉ s.threads) (hthreads : s'.threads = s.threads.set tid ⟨task, .started⟩)
    (hrest : s'.inQueue = rest) (hlog : ∀ t : Tally, t.log s'.log = t.log s.log)
    (hreturned : s'.log.returned = s.log.returned) (hlock : s'.syncLock = s.syncLock)
    (hentries : s'.currentlyExtracted = s.currentlyExtracted) (h : Once fw s known) :
    Once fw s' known := by
  have hcopy := copy_started hfree hthreads hlock fun _ => rfl
  refine once_frame ?_ (fun u hu => Or.inl (hreturned ▸ hu)) ?_
    (h.same_books (books_same (hcopy fw) hentries)) ?_ h
  · intro t u
    have hstarted := total_started (t.weight u) hqueue hfree hthreads hrest
    have hsame : t.pending .queued = t.pending .started := by cases t <;> rfl
    rw [tally_weight, tally_weight, hsame] at hstarted
    rw [hlog]
    omega
  · intro g hg
    rcases extracted_mem.1 hg with ⟨t, task', phase', hget, hmem⟩
    have ht : t ≠ tid := by
      rintro rfl
      exact hfree (Dict.mem_of_get? hget)
    exact extracted_mem.2 ⟨t, task', phase', by rw [hthreads, Dict.get?_set_ne _ _ ht, hget], hmem⟩
  · have hstarted := total_started (newWeight fw fw) hqueue hfree hthreads hrest
    have hsame : newWeight fw fw .queued task = newWeight fw fw .started task :=
      weight_congr rfl rfl rfl
    omega

/-- A thread that is done ends. -/
theorem once_finish (hget : s.threads.get? tid = some ⟨task, .scheduling []⟩)
    (hthreads : s'.threads = s.threads.erase tid) (hqueue : s'.inQueue = s.inQueue)
    (hlog : s'.log = s.log) (hlock : s'.syncLock = s.syncLock)
    (hentries : s'.currentlyExtracted = s.currentlyExtracted) (h : Once fw s known) :
    Once fw s' known := by
  have hcopy := copy_ended hget hthreads hlock fun _ => rfl
  refine once_frame ?_ (fun u hu => Or.inl (hlog ▸ hu)) ?_
    (h.same_books (books_same (hcopy fw) hentries)) ?_ h
  · intro t u
    have hended := total_ended (t.weight u) hget hthreads hqueue
    rw [total_scheduling] at hended
    rw [hlog]
    simpa using hended
  · intro g hg
    rcases extracted_mem.1 hg with ⟨t, task', phase', hget', hmem⟩
    have ht : t ≠ tid := by
      rintro rfl
      cases hget.symm.trans hget'
      cases hmem
    exact extracted_mem.2 ⟨t, task', phase', by rw [hthreads, Dict.get?_erase_ne _ ht, hget'], hmem⟩
  · have hended := total_ended (newWeight fw fw) hget hthreads hqueue
    omega

theorem next_once {maxDepth : Nat} {a : Action} (hnext : Next maxDepth s a s')
    (hok : Undisturbed s a) (hbasic : Basic s) (hcancel : CancelInv s) (hbooks : Books s)
    (hof : s.All (Of fw)) (h : Once fw s known) : ∃ known', Once fw s' known' := by
  have hframe : ∀ {s' : State}, (∀ root, s'.copy root = s.copy root) →
      s'.currentlyExtracted = s.currentlyExtracted →
      ∀ cu, s'.books fw = some cu → known = cu.remaining ∪ cu.done :=
    fun hcopy hentries => h.same_books (books_same (hcopy fw) hentries)
  cases hnext with
  | addTask hfw => exact hok.elim
  | startThread hqueue hfree =>
      exact ⟨known, once_started (s := s) hqueue hfree rfl rfl (fun t => by cases t <;> rfl) rfl
        rfl rfl h⟩
  | enterKnown hget hfw hlock hmem =>
      -- a firmware that is submitted again while it is being unpacked
      have hnone := hbooks.none_of_new hbasic (held_of_thread hget (task_mem_held rfl)) hfw rfl
      rw [books_of_no_copy (copy_free hlock _)] at hnone
      exact absurd hmem (Dict.notMem_iff.2 hnone)
  | enterNew hget hfw hlock hnew =>
      refine ⟨known, once_task (s := s) hget rfl rfl rfl rfl rfl rfl rfl rfl rfl
        (fun t => by cases t <;> rfl) (fun t ht => by cases t <;> exact ht) (fun _ => Or.inl)
        (fun _ hg => hg) (hframe ?_ rfl) (fun _ hb => hb) h⟩
      intro root
      rw [copy_free hlock]
      exact (copy_held rfl (Dict.get?_set_self _ _ _) root).trans rfl
  | enterFile hget hfile hroot hentry =>
      exact ⟨known, once_task (s := s) hget rfl rfl rfl rfl rfl rfl rfl rfl rfl
        (fun t => by cases t <;> rfl) (fun t ht => by cases t <;> exact ht) (fun _ => Or.inl)
        (fun _ hg => hg) (hframe (copy_moved hget rfl rfl fun _ => rfl) rfl)
        (fun _ hb => by cases hb) h⟩
  | @enterSkip tid task hget hfile hentry =>
      have hopen : Stage.started.isOpen task.isFirmware = true := by rw [hfile]; rfl
      exact absurd hentry (hbooks.entry_found hbasic hcancel hget rfl hopen)
  | @storeEntry tid task hget =>
      -- only the firmware itself is known
      have hfw : task.isFirmware = true := hbasic.ok _ _ _ hget
      have hself := (hbasic.rooted.task _ _ _ hget).firmware hfw
      have huid : task.uid = fw := by
        have hroot : task.rootUid = some fw := hof.task _ _ _ hget
        rw [hself] at hroot
        exact Option.some.inj hroot
      have hpos : 0 < total (newWeight fw fw) s.held := by
        refine (total_pos _).2 ⟨(.initializing, task), held_of_thread hget (task_mem_held rfl), ?_⟩
        exact weight_pos.2 ⟨hfw, by simp [hself, huid], huid⟩
      refine ⟨known, once_task (s := s) hget rfl rfl rfl rfl rfl rfl rfl rfl rfl
        (fun t => by cases t <;> rfl) (fun t ht => by cases t <;> exact ht) (fun _ => Or.inl)
        (fun _ hg => hg) ?_ (fun _ hb => by cases hb) h⟩
      intro cu hcu
      rw [books_of_no_copy (copy_free rfl fw)] at hcu
      have hentry : (s.currentlyExtracted.set task.uid (.new task.uid)).get? fw = some cu := hcu
      rw [huid, Dict.get?_set_self] at hentry
      cases hentry
      exact (h.fresh hpos).trans (Finset.union_empty _).symm
  | @unpack tid files task hget =>
      refine ⟨known, once_task (s := s) hget rfl rfl rfl rfl rfl rfl ?_ ?_ ?_
        (fun t => by cases t <;> rfl) (fun t ht => by cases t <;> first | exact ht | rfl) ?_
        (fun _ hg => by cases hg) (hframe (copy_moved hget rfl rfl fun _ => rfl) rfl)
        (fun _ hb => hb) h⟩
      · rw [unpack_task, FileObject.includeFiles_uid]
      · rw [unpack_task, FileObject.includeFiles_isFirmware]
      · rw [unpack_task, FileObject.includeFiles_rootUid]
      · intro u hu
        exact List.mem_append.1 hu
  | extractionError hget =>
      exact ⟨known, once_task (s := s) hget rfl rfl rfl rfl rfl rfl rfl rfl rfl
        (fun t => by cases t <;> rfl) (fun t ht => by cases t <;> first | exact ht | rfl)
        (fun _ => Or.inl) (fun _ hg => hg) (hframe (copy_moved hget rfl rfl fun _ => rfl) rfl)
        (fun _ hb => hb) h⟩
  | query hget =>
      exact ⟨known, once_task (s := s) hget rfl rfl rfl rfl rfl rfl rfl rfl rfl
        (fun t => by cases t <;> rfl) (fun t ht => by cases t <;> exact ht) (fun _ => Or.inl)
        (fun _ hg => hg) (hframe (copy_moved hget rfl rfl fun _ => rfl) rfl) (fun _ hb => hb) h⟩
  | save hget hsave =>
      exact ⟨known, once_task (s := s) hget rfl rfl rfl rfl rfl rfl rfl rfl rfl
        (fun t => by cases t <;> rfl) (fun t ht => by cases t <;> exact ht) (fun _ => Or.inl)
        (fun _ hg => hg) (hframe (copy_moved hget rfl rfl fun _ => rfl) rfl) (fun _ hb => hb) h⟩
  | postUnpack hget =>
      exact ⟨known, once_task (s := s) hget rfl rfl rfl rfl rfl rfl rfl rfl rfl
        (fun t => by cases t <;> rfl) (fun t ht => by cases t <;> first | exact ht | rfl)
        (fun _ => Or.inl) (fun _ hg => hg) (hframe (copy_moved hget rfl rfl fun _ => rfl) rfl)
        (fun _ hb => hb) h⟩
  | dbInterfaceError db hget hphase => exact hok.elim
  | raises hget hphase => exact hok.elim
  | raisesLocked hget => exact hok.elim
  | fetchNone hget hlock hentry =>
      exact absurd hentry (hbooks.entry_found hbasic hcancel hget rfl rfl)
  | @fetch tid task extracted root cu hget hlock hroot hentry =>
      have hfw : some fw = some root := (hof.task _ _ _ hget).symm.trans hroot
      cases hfw
      exact ⟨_, once_fetch (s := s) hbasic hbooks hget hlock hroot hentry rfl rfl rfl rfl h⟩
  | dbCall hget hcall =>
      exact ⟨known, once_dbCall (s := s) hbasic hget rfl rfl rfl rfl rfl h⟩
  | @writeBackPop tid task root entry kept hget hroot hempty hmem =>
      have hfw : some fw = some root := (hof.task _ _ _ hget).symm.trans hroot
      cases hfw
      refine ⟨known, once_writeBack (s := s) hbasic hget rfl rfl rfl ?_ h⟩
      intro cu hcu
      rw [books_of_no_copy (copy_free rfl fw)] at hcu
      have hgone : (s.currentlyExtracted.erase fw).get? fw = some cu := hcu
      rw [Dict.get?_erase_self] at hgone
      cases hgone
  | writeBackKeyError hget hroot hempty hgone =>
      exact absurd (hcancel.recorded _ _ _ _ _ _ hget hroot) hgone
  | @writeBackSet tid task root entry kept hget hroot hne =>
      have hfw : some fw = some root := (hof.task _ _ _ hget).symm.trans hroot
      cases hfw
      refine ⟨known, once_writeBack (s := s) hbasic hget rfl rfl rfl ?_ h⟩
      intro cu hcu
      rw [books_of_no_copy (copy_free rfl fw)] at hcu
      have hset : (s.currentlyExtracted.set fw entry).get? fw = some cu := hcu
      rw [Dict.get?_set_self] at hset
      cases hset
      refine h.books entry (books_of_copy ?_)
      rw [copy_recording hbasic hget hroot, if_pos rfl]
  | put hget =>
      exact ⟨known, once_put (s := s) hbasic hget rfl rfl rfl rfl rfl h⟩
  | finish hget =>
      exact ⟨known, once_finish (s := s) hget rfl rfl rfl rfl rfl h⟩
  | cancelAbsent hidle hgone => exact hok.elim
  | cancelTest hidle hmem => exact hok.elim
  | cancelRaises hcancelling hgone => exact hok.elim
  | cancelPop hcancelling hmem => exact hok.elim

/-! ## One firmware -/

/-- The scheduler, from any database, after one firmware was submitted. -/
def single (maxDepth : Nat) (fw : FileObject) : Machine State Action where
  Init := fun s => ∃ db, addTask fw (State.init db) = some s
  step := step maxDepth

theorem undisturbed_steady {a : Action} (h : Undisturbed s a) : Steady s a := by
  cases a with
  | addTask fw => exact h.elim
  | raises tid => exact h.elim
  | cancelTest root => exact h.elim
  | cancelPop => exact h.elim
  | _ => trivial

/-- The runs of one firmware are runs of the scheduler. -/
theorem reach_of_single {maxDepth : Nat} {fw : FileObject}
    (h : (single maxDepth fw).Reach Undisturbed s) : (machine maxDepth).Reach Steady s := by
  rcases h with ⟨s₀, as, ⟨db, hadd⟩, hsteps⟩
  induction hsteps with
  | nil =>
      have hinit : (machine maxDepth).Reach Steady (State.init db) :=
        ⟨_, [], ⟨db, rfl⟩, Machine.Steps.nil _⟩
      exact hinit.step (a := .addTask fw) ⟨rfl, rfl⟩ hadd
  | snoc _ hok hstep ih => exact ih.step (undisturbed_steady hok) hstep

/-- The invariants of every run of one firmware. -/
structure Single (fw : FileObject) (s : State) : Prop where
  basic : Basic s
  cancel : CancelInv s
  books : Books s
  of : s.All (Of fw.uid)

theorem addTask_eq_some {fw : FileObject} (h : addTask fw s = some s') :
    fw.isFirmware = true ∧ s' = { s with
      inQueue := s.inQueue ++ [{ fw with rootUid := some fw.uid }]
      log := { s.log with puts := s.log.puts ++ [fw.uid] } } := by
  unfold addTask at h
  split at h
  · rename_i hfw
    exact ⟨hfw, (Option.some.inj h).symm⟩
  · cases h

theorem init_of {maxDepth : Nat} {fw : FileObject} (s : State) (h : (single maxDepth fw).Init s) :
    s.All (Of fw.uid) := by
  rcases h with ⟨db, hadd⟩
  rcases addTask_eq_some hadd with ⟨-, rfl⟩
  refine ⟨?_, ?_⟩
  · intro fo hfo
    rw [List.mem_singleton.1 hfo]
    rfl
  · intro tid task phase hget
    cases hget

theorem reach_single {maxDepth : Nat} {fw : FileObject}
    (h : (single maxDepth fw).Reach Undisturbed s) : Single fw s := by
  have hall : ∀ t, (single maxDepth fw).Reach Undisturbed t →
      Basic t ∧ CancelInv t ∧ Books t := by
    intro t ht
    have hreach := reach_of_single ht
    exact ⟨reach_basic hreach, reach_cancelInv_steady hreach, reach_books hreach⟩
  have hof : s.All (Of fw.uid) := by
    refine Machine.reach_invariant_with hall init_of ?_ h
    intro t a t' hok hstep hinv hof
    refine next_all (inherited_of fw.uid) (next_of_step hstep) ?_ hinv.1.ok hof
    intro fw' ha
    subst ha
    exact hok.elim
  rcases hall s h with ⟨hbasic, hcancel, hbooks⟩
  exact ⟨hbasic, hcancel, hbooks, hof⟩

/-- A firmware that was submitted to an idle scheduler is all that is known. -/
theorem once_added (fo : FileObject) (hheld : s.held = 0) (hlog : s.log = {})
    (hnone : s.books fo.uid = none) (hthreads : s'.threads = s.threads)
    (hqueue : s'.inQueue = s.inQueue ++ [fo]) (hlog' : s'.log = { s.log with puts := [fo.uid] })
    (hbooks : s'.books fo.uid = s.books fo.uid) : Once fo.uid s' {fo.uid} := by
  refine ⟨?_, ?_, ?_, fun _ => rfl⟩
  · intro t u
    rw [total_added (t.weight u) hthreads hqueue, hheld, hlog', hlog, total_zero, tally_weight]
    by_cases hu : fo.uid = u
    · subst hu
      cases t <;> simp [Tally.log, Tally.pending]
    · have hne : ¬ u = fo.uid := fun heq => hu heq.symm
      cases t <;> simp [Tally.log, Tally.pending, hu, hne]
  · intro u hu
    rw [hlog', hlog] at hu
    cases hu
  · intro cu hcu
    rw [hbooks, hnone] at hcu
    cases hcu

theorem init_once {maxDepth : Nat} {fw : FileObject} (s : State)
    (h : (single maxDepth fw).Init s) : ∃ known, Once fw.uid s known := by
  rcases h with ⟨db, hadd⟩
  rcases addTask_eq_some hadd with ⟨-, rfl⟩
  exact ⟨{fw.uid}, once_added (s := State.init db) { fw with rootUid := some fw.uid }
    rfl rfl rfl rfl rfl rfl rfl⟩

theorem reach_once {maxDepth : Nat} {fw : FileObject}
    (h : (single maxDepth fw).Reach Undisturbed s) : ∃ known, Once fw.uid s known := by
  refine Machine.reach_invariant_with (J := Single fw) (fun t ht => reach_single ht) init_once ?_ h
  intro t a t' hok hstep hinv hex
  rcases hex with ⟨known, honce⟩
  exact next_once (next_of_step hstep) hok hinv.basic hinv.cancel hinv.books hinv.of honce

/-- No file is put into the queue twice. -/
theorem Once.nodup_puts (h : Once fw s known) : s.log.puts.Nodup := by
  rw [List.nodup_iff_count_le_one]
  intro u
  have hcounted : s.log.puts.count u + total (Tally.put.weight u) s.held =
      if u ∈ known then 1 else 0 := h.counted .put u
  split at hcounted <;> omega

/-- When nothing is on its way any more, the files that were returned have been
counted once each. -/
theorem Once.counted_idle (h : Once fw s known) (hidle : s.Idle) (t : Tally)
    (hu : u ∈ s.log.returned) : (t.log s.log).count u = 1 := by
  have hheld := held_of_idle hidle
  have hknown : u ∈ known := by
    rcases h.returned u hu with hknown | ⟨fo, hfo, -⟩
    · exact hknown
    · rw [hheld] at hfo
      cases Multiset.notMem_zero _ hfo
  have hcounted := h.counted t u
  rw [hheld, total_zero, if_pos hknown] at hcounted
  exact hcounted

end FactCore.Unpacking
