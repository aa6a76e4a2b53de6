import FactCore.Scheduler.UnpackingComplete

/-! # Files that several firmware share

`add_object` asks in one transaction whether a file exists and inserts or
updates it in another one. When two workers have found the same file in
different firmware, both may be told that it does not exist; the insert of the
second one raises, and `work_thread` answers to that by forgetting what was
extracted. As long as no insert comes too late in this way, every call is
recorded and what was extracted is scheduled, for any number of firmware,
threads and interleavings. The calls are kept in a history of the run.
-/

namespace FactCore.Unpacking

open Tla Unpacker

/-! ## Calls and puts -/

/-- A call of `add_object` by `work_thread`, with the files extracted from the task. -/
structure AddCall where
  task : FileObject
  extracted : List FileObject

/-- The calls that were made and the file objects that were put into the queue. -/
structure History where
  calls : List AddCall := []
  puts : List FileObject := []

/-- What a step adds to the history. -/
def record (a : Action) (s : State) (history : History) : History :=
  match a with
  | .addTask fw =>
      { history with puts := history.puts ++ [{ fw with rootUid := some fw.uid }] }
  | .query tid =>
      match s.threads.get? tid with
      | some ⟨task, .querying extracted⟩ =>
          { history with calls := history.calls ++ [⟨task, extracted⟩] }
      | _ => history
  | .put tid =>
      match s.threads.get? tid with
      | some ⟨_, .scheduling (fo :: _)⟩ => { history with puts := history.puts ++ [fo] }
      | _ => history
  | _ => history

/-- The scheduler with the history of its run. -/
def observed (maxDepth : Nat) : Machine (State × History) Action :=
  (machine maxDepth).withHistory {} record

/-- The database raises an error in the second part of `add_object`. -/
def State.databaseRaises (s : State) (tid : Nat) : Bool :=
  (s.threads.get? tid).any fun th =>
    match th.phase with
    | .saving present _ => (s.db.saveObject present th.task).2.isSome
    | _ => false

/-- The thread is about to insert a row that has been inserted since its query. -/
def State.insertsLate (s : State) (tid : Nat) : Bool :=
  (s.threads.get? tid).any fun th =>
    match th.phase with
    | .saving present _ => !present && decide (th.task.uid ∈ s.db.fileObject)
    | _ => false

/-- The thread finds the entry of its firmware. -/
def State.findsEntry (s : State) (tid : Nat) : Bool :=
  (s.threads.get? tid).all fun th => (s.entryOf th.task.rootUid).isSome

/-- Nothing is raised but `ExtractionError`s and the errors of the database in
`add_object`, and the firmware of a file that is recorded is still being unpacked. -/
def OnlyDbErrors (s : State) : Action → Prop
  | .raises _ => False
  | .dbInterfaceError tid => s.databaseRaises tid = true
  | .fetch tid => s.findsEntry tid = true
  | _ => True

instance (s : State) : (a : Action) → Decidable (OnlyDbErrors s a)
  | .raises _ => instDecidableFalse
  | .dbInterfaceError tid => inferInstanceAs (Decidable (s.databaseRaises tid = true))
  | .fetch tid => inferInstanceAs (Decidable (s.findsEntry tid = true))
  | .addTask _ | .startThread _ | .enter _ | .storeEntry _ | .unpack _ _ | .extractionError _
  | .query _ | .save _ | .postUnpack _ | .dbCall _ | .writeBack _ | .put _ | .finish _
  | .cancelTest _ | .cancelPop => instDecidableTrue

/-- The thread whose call raises a `DbInterfaceError`. -/
def Action.failing : Action → Option Nat
  | .dbInterfaceError tid => some tid
  | _ => none

/-- No thread inserts a row that has been inserted since its query. -/
def NoLateInsert (s : State) (a : Action) : Prop :=
  OnlyDbErrors s a ∧ ∀ tid ∈ a.failing, s.insertsLate tid = false

instance (s : State) (a : Action) : Decidable (NoLateInsert s a) :=
  inferInstanceAs (Decidable (_ ∧ _))

/-- The database knows the root firmware of the file, its parents and its paths. -/
structure Recorded (db : Db) (fo : FileObject) : Prop where
  roots : ∀ root ∈ fo.rootUid, (root, fo.uid) ∈ db.fwFiles
  edges : ∀ parent ∈ fo.parents, (parent, fo.uid) ∈ db.includedFiles
  paths : ∀ parent, ∀ path ∈ fo.pathsIn parent, (parent, fo.uid, path) ∈ db.virtualFilePath

/-- The file was put into the queue for the firmware, or a thread is going to. -/
def Scheduled (p : State × History) (root : Option Uid) (u : Uid) : Prop :=
  (∃ fo ∈ p.2.puts, fo.uid = u ∧ fo.rootUid = root) ∨
    ∃ tid th, p.1.threads.get? tid = some th ∧ ∃ fo ∈ th.phase.kept, fo.uid = u ∧ fo.rootUid = root

/-! ## What a thread relies on -/

/-- A thread that has made the call is on its way to record it, or to record
what it was made for. -/
def Phase.Serves (db : Db) (call : AddCall) : Phase → Prop
  | .saving _ extracted => extracted = call.extracted
  | .posting extracted | .updating extracted =>
      extracted = call.extracted ∧ Recorded db call.task
  | _ => False

/-- The worker has not called `add_object` yet. -/
def Phase.Early : Phase → Prop
  | .started | .initializing | .unpacking | .querying _ => True
  | _ => False

/-- The rows that a thread relies on. -/
def Phase.RowsIn (db : Db) (task : FileObject) : Phase → Prop
  | .saving present _ => present = true → task.uid ∈ db.fileObject
  | .posting _ => task.uid ∈ db.fileObject
  | .updating extracted => extracted ≠ [] → task.uid ∈ db.fileObject
  | .recording _ _ kept | .scheduling kept => ∀ fo ∈ kept, db.Placed fo
  | _ => True

/-- A file in the scheduler comes from one firmware. -/
def OneRoot (fo : FileObject) : Prop :=
  fo.isFirmware = false → fo.parentFirmwareUids = fo.rootUid.elim ∅ fun root => {root}

/-- The roots and parents of files have rows. -/
structure RowsIn (s : State) : Prop where
  placed : s.All fun fo => fo.isFirmware = false → s.db.Placed fo
  phase : ∀ tid task phase, s.threads.get? tid = some ⟨task, phase⟩ → phase.RowsIn s.db task

/-- What has become known is scheduled. -/
structure KnownScheduled (p : State × History) : Prop where
  tasks : p.1.All fun fo => ∃ g ∈ p.2.puts, g.uid = fo.uid ∧ g.rootUid = fo.rootUid
  known : ∀ root cu, p.1.books root = some cu → ∀ u ∈ cu.remaining ∪ cu.done,
    Scheduled p (some root) u

/-- The call is recorded and followed up, or a thread is going to do that. -/
inductive Served (p : State × History) (call : AddCall) : Prop where
  | done (hrecorded : Recorded p.1.db call.task)
      (hscheduled : ∀ fo ∈ call.extracted, Scheduled p call.task.rootUid fo.uid)
  | waiting (tid : Nat) (phase : Phase) (hget : p.1.threads.get? tid = some ⟨call.task, phase⟩)
      (h : phase.Serves p.1.db call)

/-- Every call for a file is served. -/
def CallsServed (p : State × History) : Prop :=
  ∀ call ∈ p.2.calls, call.task.isFirmware = false → Served p call

variable {s s' : State} {tid : Nat} {task task' fo : FileObject} {phase phase' : Phase}
  {db db' : Db} {maxDepth : Nat} {a : Action} {history history' : History}

/-! ## The database only grows -/

theorem dbInterfaceError_extends (h : dbInterfaceError tid s = some s') : s.db.Extends s'.db := by
  rcases withThread_eq_some h with ⟨task, phase, hget, hf⟩
  cases phase with
  | querying extracted =>
      cases Option.some.inj hf
      exact Db.Extends.refl _
  | posting extracted =>
      cases Option.some.inj hf
      exact Db.Extends.refl _
  | saving present extracted =>
      simp only at hf
      split at hf
      · cases Option.some.inj hf
        exact Db.Extends.refl _
      · rename_i db e hsave
        cases Option.some.inj hf
        have hextends := Db.saveObject_extends s.db present task
        rw [hsave] at hextends
        exact hextends
  | _ => cases hf

theorem step_extends (h : (machine maxDepth).step a s = some s') : s.db.Extends s'.db := by
  cases next_of_step h with
  | @save tid task present extracted db hget hsave =>
      have hextends := Db.saveObject_extends s.db present task
      rw [hsave] at hextends
      exact hextends
  | dbInterfaceError db hget hphase => exact dbInterfaceError_extends h
  | dbCall hget hcall => exact (run_extends hcall).1
  | _ => exact Db.Extends.refl _

theorem placed_extends (hextends : db.Extends db') (h : db.Placed fo) : db'.Placed fo :=
  ⟨fun p hp => hextends.rows p (h.parents p hp), fun r hr => hextends.rows r (h.roots r hr), h.paths⟩

theorem recorded_extends (hextends : db.Extends db') (h : Recorded db fo) : Recorded db' fo :=
  ⟨fun r hr => hextends.roots _ (h.roots r hr), fun p hp => hextends.edges _ (h.edges p hp),
    fun p path hpath => hextends.paths _ (h.paths p path hpath)⟩

theorem phaseRowsIn_extends (hextends : db.Extends db') (h : phase.RowsIn db task) :
    phase.RowsIn db' task := by
  cases phase with
  | started => trivial
  | initializing => trivial
  | unpacking => trivial
  | querying extracted => trivial
  | saving present extracted => exact fun hpresent => hextends.rows _ (h hpresent)
  | posting extracted => exact hextends.rows _ h
  | updating extracted => exact fun hne => hextends.rows _ (h hne)
  | recording entry calls kept => exact fun fo hfo => placed_extends hextends (h fo hfo)
  | scheduling kept => exact fun fo hfo => placed_extends hextends (h fo hfo)

/-! ## Rows -/

theorem inherited_oneRoot : Inherited OneRoot := by
  refine ⟨?_, fun _ _ htask => htask⟩
  intro task fo hchild _ _
  rw [hchild.roots, hchild.rootUid]

/-- A child of a file that has a row, as its firmware has. -/
theorem placed_child (hchild : ChildOf task fo) (hrow : task.uid ∈ db.fileObject)
    (hroot : ∀ root ∈ task.rootUid, root ∈ db.fileObject) : db.Placed fo := by
  refine ⟨?_, ?_, ?_⟩
  · intro p hp
    rw [hchild.parents, List.mem_singleton] at hp
    exact hp ▸ hrow
  · intro r hr
    rw [hchild.roots] at hr
    cases hself : task.rootUid with
    | none => simp [hself] at hr
    | some root =>
        rw [hself] at hr
        have heq : r = root := by simpa using hr
        exact heq ▸ hroot root hself
  · intro p hp
    rw [hchild.parents, List.mem_singleton] at hp
    exact hchild.paths p hp

theorem rowsIn_moved (hthreads : s'.threads = s.threads.set tid ⟨task', phase'⟩)
    (hextends : s.db.Extends s'.db)
    (hqueue : ∀ fo ∈ s'.inQueue, fo.isFirmware = false → s'.db.Placed fo)
    (htask : task'.isFirmware = false → s'.db.Placed task') (hphase : phase'.RowsIn s'.db task')
    (h : RowsIn s) : RowsIn s' := by
  refine ⟨⟨hqueue, ?_⟩, ?_⟩
  · intro tid' task'' phase'' hget
    rw [hthreads] at hget
    rcases get?_moved hget with ⟨-, heq⟩ | ⟨-, hold⟩
    · cases heq
      exact htask
    · exact fun hfile => placed_extends hextends (h.placed.task tid' task'' phase'' hold hfile)
  · intro tid' task'' phase'' hget
    rw [hthreads] at hget
    rcases get?_moved hget with ⟨-, heq⟩ | ⟨-, hold⟩
    · cases heq
      exact hphase
    · exact phaseRowsIn_extends hextends (h.phase tid' task'' phase'' hold)

/-- A thread moves on with its task. -/
theorem rowsIn_plain (hget : s.threads.get? tid = some ⟨task, phase⟩)
    (hthreads : s'.threads = s.threads.set tid ⟨task, phase'⟩) (hextends : s.db.Extends s'.db)
    (hqueue : s'.inQueue = s.inQueue) (hphase : phase'.RowsIn s'.db task) (h : RowsIn s) :
    RowsIn s' := by
  refine rowsIn_moved hthreads hextends ?_ ?_ hphase h
  · intro fo hfo hfile
    exact placed_extends hextends (h.placed.queue fo (hqueue ▸ hfo) hfile)
  · exact fun hfile => placed_extends hextends (h.placed.task _ _ _ hget hfile)

theorem rowsIn_ended (hthreads : s'.threads = s.threads.erase tid) (hqueue : s'.inQueue = s.inQueue)
    (hdb : s'.db = s.db) (h : RowsIn s) : RowsIn s' := by
  refine ⟨⟨?_, ?_⟩, ?_⟩
  · rw [hdb, hqueue]
    exact h.placed.queue
  · intro tid' task' phase' hget
    rw [hthreads] at hget
    rw [hdb]
    exact h.placed.task tid' task' phase' (get?_ended hget).2
  · intro tid' task' phase' hget
    rw [hthreads] at hget
    rw [hdb]
    exact h.phase tid' task' phase' (get?_ended hget).2

theorem step_rowsIn (hstep : (machine maxDepth).step a s = some s') (hbasic : Basic s)
    (hone : s.All OneRoot) (h : RowsIn s) : RowsIn s' := by
  have hextends := step_extends hstep
  have hrefl : s.db.Extends s.db := Db.Extends.refl s.db
  cases next_of_step hstep with
  | @addTask fw hfw =>
      refine ⟨⟨?_, h.placed.task⟩, h.phase⟩
      intro fo hfo hfile
      rcases List.mem_append.1 hfo with hold | hnew
      · exact h.placed.queue fo hold hfile
      · rw [List.mem_singleton.1 hnew] at hfile
        exact absurd (hfile.symm.trans hfw) (by decide)
  | @startThread tid task rest hqueue hfree =>
      refine rowsIn_moved (s := s) rfl hrefl ?_ (h.placed.queue task (hqueue ▸ List.mem_cons_self))
        trivial h
      exact fun fo hfo => h.placed.queue fo (hqueue ▸ List.mem_cons_of_mem _ hfo)
  | enterKnown hget => exact rowsIn_plain (s := s) hget rfl hrefl rfl trivial h
  | enterNew hget => exact rowsIn_plain (s := s) hget rfl hrefl rfl trivial h
  | enterFile hget => exact rowsIn_plain (s := s) hget rfl hrefl rfl trivial h
  | enterSkip hget => exact rowsIn_ended (s := s) rfl rfl rfl h
  | storeEntry hget => exact rowsIn_plain (s := s) hget rfl hrefl rfl trivial h
  | @unpack tid files task hget =>
      refine rowsIn_moved (s := s) rfl hrefl h.placed.queue ?_ trivial h
      rw [unpack_task]
      intro hfile
      have hplaced := h.placed.task _ _ _ hget hfile
      exact ⟨hplaced.parents, hplaced.roots, hplaced.paths⟩
  | extractionError hget => exact rowsIn_plain (s := s) hget rfl hrefl rfl trivial h
  | query hget =>
      exact rowsIn_plain (s := s) hget rfl hrefl rfl (fun hpresent => of_decide_eq_true hpresent) h
  | save hget hsave =>
      have hrow := (Db.saveObject_grows hsave).2 (h.phase _ _ _ hget)
      exact rowsIn_plain (s := s) hget rfl hextends rfl hrow h
  | postUnpack hget =>
      exact rowsIn_plain (s := s) hget rfl hrefl rfl (fun _ => h.phase _ _ _ hget) h
  | dbInterfaceError db hget hphase =>
      exact rowsIn_plain (s := s) hget rfl hextends rfl (fun hne => absurd rfl hne) h
  | raises hget => exact rowsIn_ended (s := s) rfl rfl rfl h
  | raisesLocked hget => exact rowsIn_ended (s := s) rfl rfl rfl h
  | fetchNone hget =>
      exact rowsIn_plain (s := s) hget rfl hrefl rfl (fun fo hfo => by cases hfo) h
  | @fetch tid task extracted root cu hget hlock hroot hentry =>
      refine rowsIn_plain (s := s) hget rfl hrefl rfl ?_ h
      intro fo hfo
      have hmem := (updateCurrentlyUnpacked_kept cu task extracted).subset hfo
      have hextracted : Children task extracted := hbasic.ok _ _ _ hget
      have hrow : task.uid ∈ s.db.fileObject := h.phase _ _ _ hget (List.ne_nil_of_mem hmem)
      refine placed_child (hextracted.child fo hmem) hrow ?_
      intro r hr
      cases hfw : task.isFirmware with
      | true =>
          -- a firmware is its own root
          rw [(hbasic.rooted.task _ _ _ hget).firmware hfw] at hr
          exact Option.some.inj hr ▸ hrow
      | false =>
          have hroots := hone.task _ _ _ hget hfw
          refine (h.placed.task _ _ _ hget hfw).roots r ?_
          rw [hroots, hr]
          exact Finset.mem_singleton_self r
  | dbCall hget hcall =>
      have hkept : ∀ fo ∈ _, s.db.Placed fo := h.phase _ _ _ hget
      exact rowsIn_plain (s := s) hget rfl hextends rfl
        (fun fo hfo => placed_extends hextends (hkept fo hfo)) h
  | writeBackPop hget =>
      have hkept := h.phase _ _ _ hget
      exact rowsIn_plain (s := s) hget rfl hrefl rfl hkept h
  | writeBackKeyError hget => exact rowsIn_ended (s := s) rfl rfl rfl h
  | writeBackSet hget =>
      have hkept := h.phase _ _ _ hget
      exact rowsIn_plain (s := s) hget rfl hrefl rfl hkept h
  | @put tid task fo rest hget =>
      have hkept : ∀ g ∈ fo :: rest, s.db.Placed g := h.phase _ _ _ hget
      refine rowsIn_moved (s := s) rfl hrefl ?_ (h.placed.task _ _ _ hget)
        (fun g hg => hkept g (List.mem_cons_of_mem _ hg)) h
      intro g hg hfile
      rcases List.mem_append.1 hg with hold | hnew
      · exact h.placed.queue g hold hfile
      · rw [List.mem_singleton.1 hnew]
        exact hkept fo List.mem_cons_self
  | finish hget => exact rowsIn_ended (s := s) rfl rfl rfl h
  | cancelAbsent => exact ⟨⟨h.placed.queue, h.placed.task⟩, h.phase⟩
  | cancelTest => exact ⟨⟨h.placed.queue, h.placed.task⟩, h.phase⟩
  | cancelRaises => exact ⟨⟨h.placed.queue, h.placed.task⟩, h.phase⟩
  | cancelPop => exact ⟨⟨h.placed.queue, h.placed.task⟩, h.phase⟩

/-! ## Scheduled files -/

theorem record_puts (a : Action) (s : State) (history : History) :
    ∀ fo ∈ history.puts, fo ∈ (record a s history).puts := by
  intro fo hfo
  unfold record
  split
  · exact List.mem_append_left _ hfo
  · split
    · exact hfo
    · exact hfo
  · split
    · exact List.mem_append_left _ hfo
    · exact hfo
  · exact hfo

/-- The thread of the step has put what it had kept, or still keeps it. -/
theorem scheduled_moved {root : Option Uid} {u : Uid}
    (hget : s.threads.get? tid = some ⟨task, phase⟩)
    (hthreads : s'.threads = s.threads.set tid ⟨task', phase'⟩)
    (hkept : ∀ g ∈ phase.kept, g ∈ phase'.kept ∨ g ∈ history'.puts)
    (hputs : ∀ g ∈ history.puts, g ∈ history'.puts) (h : Scheduled (s, history) root u) :
    Scheduled (s', history') root u := by
  rcases h with ⟨g, hg, hug⟩ | ⟨t, th, hth, g, hg, hug⟩
  · exact Or.inl ⟨g, hputs g hg, hug⟩
  · by_cases ht : t = tid
    · subst ht
      cases hget.symm.trans hth
      rcases hkept g hg with hstill | hput
      · exact Or.inr ⟨t, _, by rw [hthreads, Dict.get?_set_self], g, hstill, hug⟩
      · exact Or.inl ⟨g, hput, hug⟩
    · exact Or.inr ⟨t, th, by rw [hthreads, Dict.get?_set_ne _ _ ht]; exact hth, g, hg, hug⟩

theorem scheduled_ended {root : Option Uid} {u : Uid}
    (hget : s.threads.get? tid = some ⟨task, phase⟩) (hthreads : s'.threads = s.threads.erase tid)
    (hkept : phase.kept = []) (hputs : ∀ g ∈ history.puts, g ∈ history'.puts)
    (h : Scheduled (s, history) root u) : Scheduled (s', history') root u := by
  rcases h with ⟨g, hg, hug⟩ | ⟨t, th, hth, g, hg, hug⟩
  · exact Or.inl ⟨g, hputs g hg, hug⟩
  · have ht : t ≠ tid := by
      rintro rfl
      cases hget.symm.trans hth
      rw [hkept] at hg
      cases hg
    exact Or.inr ⟨t, th, by rw [hthreads, Dict.get?_erase_ne _ ht]; exact hth, g, hg, hug⟩

theorem scheduled_same {root : Option Uid} {u : Uid} (hthreads : s'.threads = s.threads)
    (hputs : ∀ g ∈ history.puts, g ∈ history'.puts) (h : Scheduled (s, history) root u) :
    Scheduled (s', history') root u := by
  rcases h with ⟨g, hg, hug⟩ | ⟨t, th, hth, g, hg, hug⟩
  · exact Or.inl ⟨g, hputs g hg, hug⟩
  · exact Or.inr ⟨t, th, by rw [hthreads]; exact hth, g, hg, hug⟩

/-- What is scheduled stays so, unless a thread is stopped by an exception. -/
theorem next_scheduled {root : Option Uid} {u : Uid} (hnext : Next maxDepth s a s')
    (hok : OnlyDbErrors s a) (hbasic : Basic s) (h : Scheduled (s, history) root u) :
    Scheduled (s', record a s history) root u := by
  have hputs := record_puts a s history
  cases hnext with
  | addTask => exact scheduled_same rfl hputs h
  | @startThread tid task rest hqueue hfree =>
      rcases h with ⟨g, hg, hug⟩ | ⟨t, th, hth, g, hg, hug⟩
      · exact Or.inl ⟨g, hputs g hg, hug⟩
      · have ht : t ≠ tid := by
          rintro rfl
          exact hfree (Dict.mem_of_get? hth)
        exact Or.inr ⟨t, th, (Dict.get?_set_ne _ _ ht).trans hth, g, hg, hug⟩
  | enterKnown hget => exact scheduled_moved (s := s) hget rfl (fun g hg => by cases hg) hputs h
  | enterNew hget => exact scheduled_moved (s := s) hget rfl (fun g hg => by cases hg) hputs h
  | enterFile hget => exact scheduled_moved (s := s) hget rfl (fun g hg => by cases hg) hputs h
  | enterSkip hget => exact scheduled_ended (s := s) hget rfl rfl hputs h
  | storeEntry hget => exact scheduled_moved (s := s) hget rfl (fun g hg => by cases hg) hputs h
  | unpack hget => exact scheduled_moved (s := s) hget rfl (fun g hg => by cases hg) hputs h
  | extractionError hget =>
      exact scheduled_moved (s := s) hget rfl (fun g hg => by cases hg) hputs h
  | query hget => exact scheduled_moved (s := s) hget rfl (fun g hg => by cases hg) hputs h
  | save hget => exact scheduled_moved (s := s) hget rfl (fun g hg => by cases hg) hputs h
  | postUnpack hget => exact scheduled_moved (s := s) hget rfl (fun g hg => by cases hg) hputs h
  | @dbInterfaceError tid task phase db hget hphase =>
      refine scheduled_moved (s := s) hget rfl ?_ hputs h
      intro g hg
      cases phase with
      | querying extracted => cases hg
      | saving present extracted => cases hg
      | posting extracted => cases hg
      | _ => exact hphase.elim
  | raises => exact hok.elim
  | raisesLocked => exact hok.elim
  | fetchNone hget => exact scheduled_moved (s := s) hget rfl (fun g hg => by cases hg) hputs h
  | fetch hget => exact scheduled_moved (s := s) hget rfl (fun g hg => by cases hg) hputs h
  | dbCall hget => exact scheduled_moved (s := s) hget rfl (fun g hg => Or.inl hg) hputs h
  | writeBackPop hget => exact scheduled_moved (s := s) hget rfl (fun g hg => Or.inl hg) hputs h
  | @writeBackKeyError tid task root' entry kept hget hroot hempty hgone =>
      -- nothing remains, so nothing was kept
      have hnone : kept = [] := by
        rcases (hbasic.ok _ _ _ hget : PhaseOk _ (.recording _ _ _)) with ⟨-, -, hremaining⟩
        refine List.eq_nil_iff_forall_not_mem.2 ?_
        intro g hg
        have hmem := hremaining g hg
        rw [hempty] at hmem
        exact absurd hmem (Finset.notMem_empty _)
      exact scheduled_ended (s := s) hget rfl hnone hputs h
  | writeBackSet hget => exact scheduled_moved (s := s) hget rfl (fun g hg => Or.inl hg) hputs h
  | @put tid task fo rest hget =>
      refine scheduled_moved (s := s) hget rfl ?_ hputs h
      intro g hg
      rcases List.mem_cons.1 hg with rfl | hrest
      · refine Or.inr ?_
        simp only [record, hget]
        exact List.mem_append_right _ List.mem_cons_self
      · exact Or.inl hrest
  | finish hget => exact scheduled_ended (s := s) hget rfl rfl hputs h
  | cancelAbsent => exact scheduled_same rfl hputs h
  | cancelTest => exact scheduled_same rfl hputs h
  | cancelRaises => exact scheduled_same rfl hputs h
  | cancelPop => exact scheduled_same rfl hputs h

/-! ## What has become known -/

/-- Entries may go, and the copy that is worked on stays. -/
theorem books_shrink {cu : CurrentlyUnpacked} {root : Uid} (h : s'.books root = some cu)
    (hcopy : s'.copy root = s.copy root)
    (hentries : ∀ e, s'.currentlyExtracted.get? root = some e →
      s.currentlyExtracted.get? root = some e) : s.books root = some cu := by
  unfold State.books at h ⊢
  rw [hcopy] at h
  cases hc : s.copy root with
  | some e =>
      rw [hc] at h
      exact h
  | none =>
      rw [hc] at h
      exact hentries cu h

theorem books_plain {cu : CurrentlyUnpacked} {root : Uid} (h : s'.books root = some cu)
    (hget : s.threads.get? tid = some ⟨task, phase⟩)
    (hthreads : s'.threads = s.threads.set tid ⟨task', phase'⟩) (hlock : s'.syncLock = s.syncLock)
    (hentries : s'.currentlyExtracted = s.currentlyExtracted)
    (hcopy : ∀ root, Thread.copyOf ⟨task', phase'⟩ root = Thread.copyOf ⟨task, phase⟩ root) :
    s.books root = some cu :=
  books_shrink h (copy_moved hget hthreads hlock hcopy root) fun _ he => hentries ▸ he

theorem books_begun {cu : CurrentlyUnpacked} {root : Uid} (h : s'.books root = some cu)
    (hfree : tid ∉ s.threads) (hthreads : s'.threads = s.threads.set tid ⟨task, .started⟩)
    (hlock : s'.syncLock = s.syncLock) (hentries : s'.currentlyExtracted = s.currentlyExtracted) :
    s.books root = some cu :=
  books_shrink h (copy_started hfree hthreads hlock (fun _ => rfl) root) fun _ he => hentries ▸ he

theorem books_gone {cu : CurrentlyUnpacked} {root : Uid} (h : s'.books root = some cu)
    (hget : s.threads.get? tid = some ⟨task, phase⟩) (hthreads : s'.threads = s.threads.erase tid)
    (hlock : s'.syncLock = s.syncLock) (hentries : s'.currentlyExtracted = s.currentlyExtracted)
    (hcopy : ∀ root, Thread.copyOf ⟨task, phase⟩ root = none) : s.books root = some cu :=
  books_shrink h (copy_ended hget hthreads hlock hcopy root) fun _ he => hentries ▸ he

/-- Writing the copy back does not change the books, unless it takes them away. -/
theorem books_writtenBack {entry cu : CurrentlyUnpacked} {kept : List FileObject} {root r : Uid}
    (h : s'.books root = some cu) (hbasic : Basic s) (hget : s.threads.get? tid = some ⟨task, .recording entry [] kept⟩)
    (hroot : task.rootUid = some r) (hlock : s'.syncLock = none)
    (hself : s'.currentlyExtracted.get? r = none ∨ s'.currentlyExtracted.get? r = some entry)
    (hothers : root ≠ r → s'.currentlyExtracted.get? root = s.currentlyExtracted.get? root) :
    s.books root = some cu := by
  have hcopy := copy_recording hbasic hget hroot root
  rw [books_of_no_copy (copy_free hlock root)] at h
  by_cases hr : root = r
  · subst hr
    rw [if_pos rfl] at hcopy
    rcases hself with hnone | hsome
    · rw [hnone] at h
      cases h
    · rw [hsome] at h
      exact books_of_copy (hcopy.trans h)
  · rw [if_neg hr] at hcopy
    rw [books_of_no_copy hcopy, ← hothers hr]
    exact h

/-- The books that a step leaves: those of before, those of a firmware that has
just started, or those with the files that the thread of the step has found. -/
theorem next_known {root : Uid} {cu : CurrentlyUnpacked} (hnext : Next maxDepth s a s')
    (hok : ∀ tid, a ≠ .raises tid) (hbasic : Basic s) (h : s'.books root = some cu) :
    s.books root = some cu ∨
      (∃ tid task phase, s.threads.get? tid = some ⟨task, phase⟩ ∧ task.rootUid = some root ∧
        (cu = .new task.uid ∨ ∃ old extracted, s.books root = some old ∧
          phase = .updating extracted ∧ s'.threads.get? tid = some ⟨task, .recording cu
            (updateCurrentlyUnpacked old task extracted).calls
            (updateCurrentlyUnpacked old task extracted).kept⟩ ∧
          cu = (updateCurrentlyUnpacked old task extracted).entry)) := by
  cases hnext with
  | addTask => exact Or.inl h
  | startThread hqueue hfree => exact Or.inl (books_begun h hfree rfl rfl rfl)
  | enterKnown hget => exact Or.inl (books_plain h hget rfl rfl rfl fun _ => rfl)
  | enterNew hget hfw hlock hnew =>
      refine Or.inl (books_shrink h ?_ fun _ => id)
      rw [copy_free hlock]
      exact (copy_held rfl (Dict.get?_set_self _ _ _) root).trans rfl
  | enterFile hget => exact Or.inl (books_plain h hget rfl rfl rfl fun _ => rfl)
  | enterSkip hget => exact Or.inl (books_gone h hget rfl rfl rfl fun _ => rfl)
  | @storeEntry tid task hget =>
      rw [books_of_no_copy (copy_free rfl root)] at h
      have hset : (s.currentlyExtracted.set task.uid (.new task.uid)).get? root = some cu := h
      by_cases hr : root = task.uid
      · subst hr
        rw [Dict.get?_set_self] at hset
        have hself := (hbasic.rooted.task _ _ _ hget).firmware (hbasic.ok _ _ _ hget)
        exact Or.inr ⟨tid, task, _, hget, hself, Or.inl (Option.some.inj hset).symm⟩
      · rw [Dict.get?_set_ne _ _ hr] at hset
        have hcopy : s.copy root = none :=
          (copy_held (hbasic.critical _ _ _ hget trivial) hget root).trans rfl
        exact Or.inl ((books_of_no_copy hcopy).trans hset)
  | unpack hget => exact Or.inl (books_plain h hget rfl rfl rfl fun _ => rfl)
  | extractionError hget => exact Or.inl (books_plain h hget rfl rfl rfl fun _ => rfl)
  | query hget => exact Or.inl (books_plain h hget rfl rfl rfl fun _ => rfl)
  | save hget => exact Or.inl (books_plain h hget rfl rfl rfl fun _ => rfl)
  | postUnpack hget => exact Or.inl (books_plain h hget rfl rfl rfl fun _ => rfl)
  | @dbInterfaceError tid task phase db hget hphase =>
      refine Or.inl (books_plain h hget rfl rfl rfl ?_)
      intro root
      cases phase with
      | querying extracted => rfl
      | saving present extracted => rfl
      | posting extracted => rfl
      | _ => exact hphase.elim
  | raises => exact absurd rfl (hok _)
  | raisesLocked => exact absurd rfl (hok _)
  | fetchNone hget => exact Or.inl (books_plain h hget rfl rfl rfl fun _ => rfl)
  | @fetch tid task extracted r old hget hlock hroot hentry =>
      have hold : s.books r = some old := (books_of_no_copy (copy_free hlock r)).trans hentry
      by_cases hr : root = r
      · subst hr
        rw [books_recording rfl rfl hroot] at h
        obtain rfl := Option.some.inj h
        exact Or.inr ⟨tid, task, _, hget, hroot, Or.inr ⟨old, extracted, hold, rfl,
          Dict.get?_set_self _ _ _, rfl⟩⟩
      · refine Or.inl (books_shrink h ?_ fun _ => id)
        have hne : ¬ r = root := fun heq => hr heq.symm
        rw [copy_free hlock, copy_held rfl (Dict.get?_set_self _ _ _)]
        simp [Thread.copyOf, hroot, hne]
  | dbCall hget => exact Or.inl (books_plain h hget rfl rfl rfl fun _ => rfl)
  | @writeBackPop tid task r entry kept hget hroot hempty hmem =>
      exact Or.inl (books_writtenBack h hbasic hget hroot rfl (Or.inl (Dict.get?_erase_self _ _))
        (fun hne => Dict.get?_erase_ne _ hne))
  | @writeBackKeyError tid task r entry kept hget hroot hempty hgone =>
      exact Or.inl (books_writtenBack h hbasic hget hroot rfl (Or.inl (Dict.notMem_iff.1 hgone))
        (fun _ => rfl))
  | @writeBackSet tid task r entry kept hget hroot hne =>
      exact Or.inl (books_writtenBack h hbasic hget hroot rfl (Or.inr (Dict.get?_set_self _ _ _))
        (fun hne => Dict.get?_set_ne _ _ hne))
  | put hget => exact Or.inl (books_plain h hget rfl rfl rfl fun _ => rfl)
  | finish hget => exact Or.inl (books_gone h hget rfl rfl rfl fun _ => rfl)
  | cancelAbsent => exact Or.inl h
  | cancelTest => exact Or.inl h
  | cancelRaises => exact Or.inl h
  | @cancelPop r hcancelling hmem =>
      refine Or.inl (books_shrink h rfl ?_)
      intro e he
      have hget : (s.currentlyExtracted.erase r).get? root = some e := he
      rw [Dict.get?_erase] at hget
      split at hget
      · cases hget
      · exact hget

/-- What the history says is scheduled stays known. -/
theorem step_knownScheduled {p p' : State × History}
    (hstep : (observed maxDepth).step a p = some p') (hok : OnlyDbErrors p.1 a)
    (hbasic : Basic p.1) (h : KnownScheduled p) : KnownScheduled p' := by
  rcases p with ⟨s, history⟩
  rcases p' with ⟨s', history'⟩
  rcases Machine.step_withHistory hstep with ⟨hs, hhistory⟩
  have hnext := next_of_step hs
  subst hhistory
  have hputs := record_puts a s history
  refine ⟨?_, ?_⟩
  · refine next_tasks hnext (fun _ _ htask => htask) ?_ ?_ ?_
    · rintro fw rfl
      exact ⟨_, List.mem_append_right _ List.mem_cons_self, rfl, rfl⟩
    · rintro tid task fo rest rfl hget
      refine ⟨fo, ?_, rfl, rfl⟩
      simp only [record, hget]
      exact List.mem_append_right _ List.mem_cons_self
    · refine ⟨?_, ?_⟩
      · intro fo hfo
        rcases h.tasks.queue fo hfo with ⟨g, hg, hug⟩
        exact ⟨g, hputs g hg, hug⟩
      · intro tid task phase hget
        rcases h.tasks.task tid task phase hget with ⟨g, hg, hug⟩
        exact ⟨g, hputs g hg, hug⟩
  · intro root cu hcu u hu
    have hstays : Scheduled (s, history) (some root) u →
        Scheduled (s', record a s history) (some root) u := next_scheduled hnext hok hbasic
    rcases next_known hnext (fun tid ha => by subst ha; exact hok) hbasic hcu with hold | ⟨tid, task, phase, hget, hroot, hnew⟩
    · exact hstays (h.known root cu hold u hu)
    · -- the task itself was put into the queue
      have hself : Scheduled (s', record a s history) (some root) task.uid := by
        rcases h.tasks.task tid task phase hget with ⟨g, hg, huid, hgroot⟩
        exact Or.inl ⟨g, hputs g hg, huid, hgroot.trans hroot⟩
      rcases hnew with rfl | ⟨old, extracted, hold, -, hget', rfl⟩
      · have heq : u = task.uid := by
          simpa [CurrentlyUnpacked.new] using hu
        exact heq ▸ hself
      · rcases Finset.mem_union.1 hu with hrem | hdone
        · rw [updateCurrentlyUnpacked_remaining] at hrem
          rcases Finset.mem_union.1 (Finset.mem_of_mem_erase hrem) with hrem | hkept
          · exact hstays (h.known root old hold u (Finset.mem_union_left _ hrem))
          · rcases List.mem_map.1 (List.mem_toFinset.1 hkept) with ⟨fo, hfo, rfl⟩
            have hchildren : Children task _ := ((next_basic hnext hbasic).ok _ _ _ hget').1
            refine Or.inr ⟨tid, _, hget', fo, hfo, rfl, ?_⟩
            exact (hchildren.child fo hfo).rootUid.trans hroot
        · rw [updateCurrentlyUnpacked_done] at hdone
          rcases Finset.mem_insert.1 hdone with rfl | hdone
          · exact hself
          · exact hstays (h.known root old hold u (Finset.mem_union_right _ hdone))

/-! ## The calls are served -/

theorem serves_extends {call : AddCall} (hextends : db.Extends db') (h : phase.Serves db call) :
    phase.Serves db' call := by
  cases phase with
  | saving present extracted => exact h
  | posting extracted => exact ⟨h.1, recorded_extends hextends h.2⟩
  | updating extracted => exact ⟨h.1, recorded_extends hextends h.2⟩
  | _ => exact h.elim

/-- A step of one thread matters for the calls of this thread only. -/
theorem served_frame {call : AddCall} (hextends : s.db.Extends s'.db)
    (hscheduled : ∀ root u, Scheduled (s, history) root u → Scheduled (s', history') root u)
    (hthread : ∀ t phase, s.threads.get? t = some ⟨call.task, phase⟩ → phase.Serves s.db call →
      s'.threads.get? t = some ⟨call.task, phase⟩ ∨ Served (s', history') call)
    (h : Served (s, history) call) : Served (s', history') call := by
  cases h with
  | done hrecorded hsched =>
      exact Served.done (recorded_extends hextends hrecorded)
        fun fo hfo => hscheduled _ _ (hsched fo hfo)
  | waiting t phase hget hserves =>
      rcases hthread t phase hget hserves with hsame | hserved
      · exact Served.waiting t phase hsame (serves_extends hextends hserves)
      · exact hserved

theorem served_moved {call : AddCall} (hget : s.threads.get? tid = some ⟨task, phase⟩)
    (hthreads : s'.threads = s.threads.set tid ⟨task', phase'⟩) (hextends : s.db.Extends s'.db)
    (hscheduled : ∀ root u, Scheduled (s, history) root u → Scheduled (s', history') root u)
    (hself : call.task = task → phase.Serves s.db call → Served (s', history') call)
    (h : Served (s, history) call) : Served (s', history') call := by
  refine served_frame hextends hscheduled ?_ h
  intro t phase₁ hget₁ hserves
  by_cases ht : t = tid
  · subst ht
    cases hget.symm.trans hget₁
    exact Or.inr (hself rfl hserves)
  · exact Or.inl (by rw [hthreads, Dict.get?_set_ne _ _ ht, hget₁])

theorem served_ended {call : AddCall} (hget : s.threads.get? tid = some ⟨task, phase⟩)
    (hthreads : s'.threads = s.threads.erase tid) (hextends : s.db.Extends s'.db)
    (hscheduled : ∀ root u, Scheduled (s, history) root u → Scheduled (s', history') root u)
    (hself : ¬ phase.Serves s.db call) (h : Served (s, history) call) :
    Served (s', history') call := by
  refine served_frame hextends hscheduled ?_ h
  intro t phase₁ hget₁ hserves
  refine Or.inl ?_
  have ht : t ≠ tid := by
    rintro rfl
    cases hget.symm.trans hget₁
    exact hself hserves
  rw [hthreads, Dict.get?_erase_ne _ ht, hget₁]

/-- Saving a file records the call. -/
theorem save_recorded {present : Bool} (hfile : task.isFirmware = false) (hone : OneRoot task)
    (hplaced : db.Placed task) (hpresent : present = true → task.uid ∈ db.fileObject)
    (hsave : db.saveObject present task = (db', none)) : Recorded db' task := by
  have hfo : task.firmware = none := by simpa [FileObject.isFirmware] using hfile
  rcases Db.saveObject_holds hfo hsave hpresent with ⟨hedges, hpaths⟩
  refine ⟨?_, fun p hp => hedges p hp (hplaced.parents p hp), hpaths⟩
  intro root hroot
  have hmem : root ∈ task.parentFirmwareUids := by
    rw [hone hfile, Option.mem_def.1 hroot]
    exact Finset.mem_singleton_self root
  exact Db.saveObject_roots hfo hsave hpresent hmem (hplaced.roots root hmem)

/-- Only a late insert raises for a file. -/
theorem insertsLate_of_raises {present : Bool} {extracted : List FileObject}
    (hget : s.threads.get? tid = some ⟨task, .saving present extracted⟩)
    (hfile : task.isFirmware = false) (hplaced : s.db.Placed task)
    (h : s.databaseRaises tid = true) : s.insertsLate tid = true := by
  have hfo : task.firmware = none := by simpa [FileObject.isFirmware] using hfile
  simp only [State.databaseRaises, hget, Option.any_some] at h
  have hraises : (s.db.saveObject present task).2 ≠ none := by
    intro hnone
    simp [hnone] at h
  rcases Db.saveObject_raises hfo hplaced hraises with ⟨rfl, hrow⟩
  simp [State.insertsLate, hget, hrow]

/-- No call is lost as long as no insert comes too late. -/
theorem next_served {call : AddCall} (hnext : Next maxDepth s a s') (hok : NoLateInsert s a)
    (hextends : s.db.Extends s'.db) (hbasic : Basic s) (hone : s.All OneRoot) (hrows : RowsIn s)
    (hknown : KnownScheduled (s', record a s history)) (hfile : call.task.isFirmware = false)
    (h : Served (s, history) call) : Served (s', record a s history) call := by
  have hsched : ∀ root u, Scheduled (s, history) root u →
      Scheduled (s', record a s history) root u := fun _ _ => next_scheduled hnext hok.1 hbasic
  cases hnext with
  | addTask => exact served_frame hextends hsched (fun _ _ hget _ => Or.inl hget) h
  | @startThread tid task rest hqueue hfree =>
      refine served_frame hextends hsched ?_ h
      intro t phase hget _
      have ht : t ≠ tid := by
        rintro rfl
        exact hfree (Dict.mem_of_get? hget)
      exact Or.inl ((Dict.get?_set_ne _ _ ht).trans hget)
  | enterKnown hget => exact served_moved hget rfl hextends hsched (fun _ hs => hs.elim) h
  | enterNew hget => exact served_moved hget rfl hextends hsched (fun _ hs => hs.elim) h
  | enterFile hget => exact served_moved hget rfl hextends hsched (fun _ hs => hs.elim) h
  | enterSkip hget => exact served_ended hget rfl hextends hsched id h
  | storeEntry hget => exact served_moved hget rfl hextends hsched (fun _ hs => hs.elim) h
  | unpack hget => exact served_moved hget rfl hextends hsched (fun _ hs => hs.elim) h
  | extractionError hget => exact served_moved hget rfl hextends hsched (fun _ hs => hs.elim) h
  | query hget => exact served_moved hget rfl hextends hsched (fun _ hs => hs.elim) h
  | @save tid task present extracted db hget hsave =>
      refine served_moved hget rfl hextends hsched ?_ h
      rintro rfl hserves
      have hrecorded := save_recorded hfile (hone.task _ _ _ hget)
        (hrows.placed.task _ _ _ hget hfile) (hrows.phase _ _ _ hget) hsave
      exact Served.waiting tid _ (Dict.get?_set_self _ _ _) ⟨hserves, hrecorded⟩
  | @postUnpack tid task extracted hget =>
      refine served_moved hget rfl hextends hsched ?_ h
      rintro rfl hserves
      exact Served.waiting tid (.updating extracted) (Dict.get?_set_self _ _ _) hserves
  | @dbInterfaceError tid task phase db hget hphase =>
      refine served_moved hget rfl hextends hsched ?_ h
      rintro rfl hserves
      have hraises : s.databaseRaises tid = true := hok.1
      cases phase with
      | querying extracted => exact hserves.elim
      | saving present extracted =>
          have hlate := insertsLate_of_raises hget hfile
            (hrows.placed.task _ _ _ hget hfile) hraises
          rw [hok.2 tid rfl] at hlate
          cases hlate
      | posting extracted =>
          simp only [State.databaseRaises, hget] at hraises
          cases hraises
      | _ => exact hphase.elim
  | raises => exact hok.1.elim
  | raisesLocked => exact hok.1.elim
  | @fetchNone tid task extracted hget hlock hentry =>
      have hfinds : s.findsEntry tid = true := hok.1
      simp [State.findsEntry, hget, hentry] at hfinds
  | @fetch tid task extracted root cu hget hlock hroot hentry =>
      refine served_moved hget rfl hextends hsched ?_ h
      rintro rfl ⟨rfl, hrecorded⟩
      refine Served.done hrecorded ?_
      intro fo hfo
      have hchildren : Children call.task call.extracted := hbasic.ok _ _ _ hget
      rw [hroot]
      refine hknown.known root _ (books_recording rfl rfl hroot) fo.uid (Finset.mem_union.2 ?_)
      exact updateCurrentlyUnpacked_known hfo (hchildren.child fo hfo).ne
  | dbCall hget => exact served_moved hget rfl hextends hsched (fun _ hs => hs.elim) h
  | writeBackPop hget => exact served_moved hget rfl hextends hsched (fun _ hs => hs.elim) h
  | writeBackKeyError hget => exact served_ended hget rfl hextends hsched id h
  | writeBackSet hget => exact served_moved hget rfl hextends hsched (fun _ hs => hs.elim) h
  | put hget => exact served_moved hget rfl hextends hsched (fun _ hs => hs.elim) h
  | finish hget => exact served_ended hget rfl hextends hsched id h
  | cancelAbsent => exact served_frame hextends hsched (fun _ _ hget _ => Or.inl hget) h
  | cancelTest => exact served_frame hextends hsched (fun _ _ hget _ => Or.inl hget) h
  | cancelRaises => exact served_frame hextends hsched (fun _ _ hget _ => Or.inl hget) h
  | cancelPop => exact served_frame hextends hsched (fun _ _ hget _ => Or.inl hget) h

/-- A call that a step adds is made by a thread that has asked whether the file exists. -/
theorem record_calls {call : AddCall} (hnext : Next maxDepth s a s')
    (h : call ∈ (record a s history).calls) : call ∈ history.calls ∨
      ∃ tid phase, s'.threads.get? tid = some ⟨call.task, phase⟩ ∧ phase.Serves s'.db call := by
  cases hnext with
  | @query tid task extracted hget =>
      simp only [record, hget] at h
      rcases List.mem_append.1 h with hold | hnew
      · exact Or.inl hold
      · rw [List.mem_singleton.1 hnew]
        exact Or.inr ⟨tid, _, Dict.get?_set_self _ _ _, rfl⟩
  | put hget =>
      simp only [record, hget] at h
      exact Or.inl h
  | _ => exact Or.inl h

/-- What holds of every run of the scheduler with its history. -/
structure Observed (p : State × History) : Prop where
  rows : RowsIn p.1
  known : KnownScheduled p
  served : CallsServed p

theorem init_observed (p : State × History) (h : (observed maxDepth).Init p) : Observed p := by
  rcases p with ⟨s, history⟩
  rcases h with ⟨⟨db, rfl⟩, hhistory⟩
  subst hhistory
  refine ⟨⟨⟨?_, ?_⟩, ?_⟩, ⟨⟨?_, ?_⟩, ?_⟩, ?_⟩
  · intro fo hfo
    cases hfo
  · intro tid task phase hget
    cases hget
  · intro tid task phase hget
    cases hget
  · intro fo hfo
    cases hfo
  · intro tid task phase hget
    cases hget
  · intro root cu hcu
    cases hcu
  · intro call hcall
    cases hcall

theorem init_oneRoot (s : State) (h : (machine maxDepth).Init s) : s.All OneRoot := by
  rcases h with ⟨db, rfl⟩
  refine ⟨?_, ?_⟩
  · intro fo hfo
    cases hfo
  · intro tid task phase hget
    cases hget

theorem step_oneRoot (hstep : (machine maxDepth).step a s = some s') (hbasic : Basic s)
    (h : s.All OneRoot) : s'.All OneRoot := by
  refine next_all inherited_oneRoot (next_of_step hstep) ?_ hbasic.ok h
  rintro fw rfl hfile
  cases next_of_step hstep with
  | addTask hfw => exact absurd (hfile.symm.trans hfw) (by decide)

theorem reach_oneRoot {ok : State → Action → Prop} (h : (machine maxDepth).Reach ok s) :
    s.All OneRoot :=
  Machine.reach_invariant_with (J := Basic) (fun _ => reach_basic) init_oneRoot
    (fun _ _ _ _ hstep hbasic => step_oneRoot hstep hbasic) h

theorem reach_observed {p : State × History}
    (h : (observed maxDepth).Reach (fun q => NoLateInsert q.1) p) : Observed p := by
  refine Machine.reach_invariant_with (J := fun q => Basic q.1 ∧ q.1.All OneRoot) ?_ init_observed
    ?_ h
  · intro q hq
    exact ⟨reach_basic hq.forget, reach_oneRoot hq.forget⟩
  · intro q a q' hok hstep hinv hobserved
    rcases hinv with ⟨hbasic, hone⟩
    rcases Machine.step_withHistory hstep with ⟨hs, hhistory⟩
    have hknown := step_knownScheduled hstep hok.1 hbasic hobserved.known
    refine ⟨step_rowsIn hs hbasic hone hobserved.rows, hknown, ?_⟩
    intro call hcall hfile
    rw [hhistory] at hcall
    rcases record_calls (next_of_step hs) hcall with hold | ⟨tid, phase, hget, hserves⟩
    · rcases q with ⟨s, history⟩
      rcases q' with ⟨s', history'⟩
      simp only at hhistory
      subst hhistory
      exact next_served (next_of_step hs) hok (step_extends hs) hbasic hone hobserved.rows hknown
        hfile (hobserved.served call hold hfile)
    · exact Served.waiting tid phase hget hserves

/-- No worker of an idle scheduler has called `add_object`. -/
theorem early_of_idle (h : s.Idle) :
    ∀ tid th, s.threads.get? tid = some th → th.phase.Early := by
  intro tid th hget
  have hmem := Dict.get?_eq_some_iff.1 hget
  rw [h.2] at hmem
  cases hmem

/-! ## Two firmware with a common file -/

/-- Another firmware. -/
def otherImage : FileObject :=
  .newFirmware "other" "other" 2 "other"
    ⟨"other", "2.0", "router", "vendor", "", "1970-01-01", []⟩

def sharedFile : ExtractedFile := ⟨"file", "file", 1, "file", "/file"⟩

def innerFile : ExtractedFile := ⟨"inner", "inner", 1, "inner", "/inner"⟩

/-- A firmware that contains the shared file is unpacked. -/
def unpackImage (tid : Nat) : List Action :=
  [.startThread tid, .enter tid, .storeEntry tid, .unpack tid [sharedFile], .query tid, .save tid,
    .postUnpack tid, .fetch tid, .writeBack tid, .put tid, .finish tid]

/-- What a worker does after `add_object` of a file that contains nothing new. -/
def wrapUp (tid : Nat) : List Action := [.postUnpack tid, .fetch tid, .writeBack tid, .finish tid]

/-- Both firmware are unpacked, and two workers have unpacked the shared file in them. -/
def sharedUnpacked : List Action :=
  [.addTask image, .addTask otherImage] ++ unpackImage 0 ++ unpackImage 0 ++
    [.startThread 0, .startThread 1, .enter 0, .enter 1, .unpack 0 [innerFile],
      .unpack 1 [innerFile]]

/-- The second worker queries after the first one has inserted the shared file. -/
def oneAfterTheOther : List Action :=
  sharedUnpacked ++ [.query 0, .save 0, .query 1, .save 1, .postUnpack 0, .fetch 0, .writeBack 0,
    .put 0, .finish 0, .postUnpack 1, .fetch 1, .writeBack 1, .put 1, .finish 1] ++
    [.startThread 0, .enter 0, .unpack 0 [], .query 0, .save 0] ++ wrapUp 0 ++
    [.startThread 0, .enter 0, .unpack 0 [], .query 0, .save 0] ++ wrapUp 0

theorem observed_init_empty : (observed 8).Init (State.init Db.empty, {}) := ⟨⟨Db.empty, rfl⟩, rfl⟩

/-- Both workers query before the first one inserts the shared file. -/
def bothBefore : List Action :=
  sharedUnpacked ++ [.query 0, .query 1, .save 0, .dbInterfaceError 1, .postUnpack 0, .fetch 0,
    .writeBack 0, .put 0, .finish 0, .fetch 1, .writeBack 1, .finish 1] ++
    [.startThread 0, .enter 0, .unpack 0 [], .query 0, .save 0] ++ wrapUp 0

end FactCore.Unpacking
