import FactCore.Scheduler.UnpackingOnce

/-! # Where a file was found is recorded

The relations between files that `unpack` reports end up in the database: until
they do, each is carried by a file object that is still to be saved, delayed in
the entry of the firmware, or about to be written by a call. That the foreign
keys hold is part of this: a file is only put into the queue when its parent has
a row, and only the paths of files with rows are written directly.
-/

namespace FactCore.Unpacking

open Tla Unpacker

/-- The database knows the relation. -/
def Holds (db : Db) : Relation → Prop
  | .path parent child path => (parent, child, path) ∈ db.virtualFilePath
  | .edge parent child => (parent, child) ∈ db.includedFiles

instance (db : Db) (rel : Relation) : Decidable (Holds db rel) := by
  cases rel
  · exact inferInstanceAs (Decidable ((_, _, _) ∈ db.virtualFilePath))
  · exact inferInstanceAs (Decidable ((_, _) ∈ db.includedFiles))

/-- The parents of a file have rows. -/
def ParentsIn (db : Db) (fo : FileObject) : Prop :=
  fo.isFirmware = false → ∀ parent ∈ fo.parents, parent ∈ db.fileObject

/-- The rows that a thread relies on. -/
def Phase.Backed (db : Db) (task : FileObject) : Phase → Prop
  | .saving present _ => present = true → task.uid ∈ db.fileObject
  | .posting _ | .updating _ => task.uid ∈ db.fileObject
  | .recording _ calls kept =>
      (∀ call ∈ calls, call.parent ∈ db.fileObject ∧ call.child ∈ db.fileObject) ∧
        ∀ fo ∈ kept, ParentsIn db fo
  | .scheduling kept => ∀ fo ∈ kept, ParentsIn db fo
  | _ => True

/-- The rows that an entry relies on. -/
structure CurrentlyUnpacked.Backed (db : Db) (cu : CurrentlyUnpacked) : Prop where
  done : ∀ u ∈ cu.done, u ∈ db.fileObject
  delays : cu.DelaysDone

/-- Every row that the scheduler relies on is in the database. -/
structure Backed (fw : Uid) (s : State) : Prop where
  queue : ∀ fo ∈ s.inQueue, ParentsIn s.db fo
  task : ∀ tid task phase, s.threads.get? tid = some ⟨task, phase⟩ →
    ParentsIn s.db task ∧ phase.Backed s.db task
  entry : ∀ cu, s.books fw = some cu → cu.Backed s.db

/-- What a thread is still going to write. -/
def Phase.Covers (task : FileObject) (rel : Relation) : Phase → Prop
  | .started | .initializing | .unpacking => Carries task rel
  | .querying extracted | .saving _ extracted =>
      Carries task rel ∨ ∃ fo ∈ extracted, Carries fo rel
  | .posting extracted | .updating extracted => ∃ fo ∈ extracted, Carries fo rel
  | .recording _ calls kept =>
      (∃ call ∈ calls, call.Carries rel) ∨ ∃ fo ∈ kept, Carries fo rel
  | .scheduling kept => ∃ fo ∈ kept, Carries fo rel

/-- The relation is recorded, or is going to be. -/
inductive Covered (fw : Uid) (s : State) (rel : Relation) : Prop where
  | held (h : Holds s.db rel)
  | queued (fo : FileObject) (hfo : fo ∈ s.inQueue) (h : Carries fo rel)
  | thread (tid : Nat) (task : FileObject) (phase : Phase)
      (hget : s.threads.get? tid = some ⟨task, phase⟩) (h : phase.Covers task rel)
  | delayed (cu : CurrentlyUnpacked) (hcu : s.books fw = some cu) (h : cu.Delays rel)

/-- No relation has got lost. -/
def Complete (fw : Uid) (s : State) : Prop := ∀ rel ∈ s.log.found, Covered fw s rel

variable {s s' : State} {tid : Nat} {task fo : FileObject} {phase : Phase} {fw : Uid}
  {rel : Relation} {db db' : Db}

/-! ## The database only grows -/

theorem holds_grows (hgrows : db.Grows db') (h : Holds db rel) : Holds db' rel := by
  cases rel with
  | path parent child path => exact hgrows.paths _ h
  | edge parent child => exact hgrows.edges _ h

theorem parentsIn_grows (hgrows : db.Grows db') (h : ParentsIn db fo) : ParentsIn db' fo :=
  fun hfo parent hparent => hgrows.rows parent (h hfo parent hparent)

theorem phaseBacked_grows (hgrows : db.Grows db') (h : phase.Backed db task) :
    phase.Backed db' task := by
  cases phase with
  | started => trivial
  | initializing => trivial
  | unpacking => trivial
  | querying extracted => trivial
  | saving present extracted => exact fun hpresent => hgrows.rows _ (h hpresent)
  | posting extracted => exact hgrows.rows _ h
  | updating extracted => exact hgrows.rows _ h
  | recording entry calls kept =>
      refine ⟨?_, fun fo hfo => parentsIn_grows hgrows (h.2 fo hfo)⟩
      intro call hcall
      exact ⟨hgrows.rows _ (h.1 call hcall).1, hgrows.rows _ (h.1 call hcall).2⟩
  | scheduling kept => exact fun fo hfo => parentsIn_grows hgrows (h fo hfo)

theorem entryBacked_grows {cu : CurrentlyUnpacked} (hgrows : db.Grows db') (h : cu.Backed db) :
    cu.Backed db' :=
  ⟨fun u hu => hgrows.rows u (h.done u hu), h.delays⟩

/-- A successful call only adds, and adds the relations that it carries if the
two files have rows. -/
theorem run_extends {call : DbCall} (h : call.run db = some db') :
    db.Extends db' ∧ (call.parent ∈ db.fileObject → call.child ∈ db.fileObject →
      ∀ rel, call.Carries rel → Holds db' rel) := by
  cases call with
  | addVfp parent child paths =>
      cases hvfp : db.addVfp parent child paths with
      | error e =>
          simp only [DbCall.run, hvfp] at h
          cases h
      | ok d =>
          simp only [DbCall.run, hvfp] at h
          cases h
          rcases Db.addVfp_extends hvfp with ⟨hextends, hpaths⟩
          refine ⟨hextends, ?_⟩
          intro _ _ rel hrel
          cases rel with
          | path parent' child' path =>
              rcases hrel with ⟨rfl, rfl, hpath⟩
              exact hpaths path hpath
          | edge parent' child' => exact hrel.elim
  | addChildToParent parent child =>
      cases h
      rcases Db.addChildToParent_extends db parent child with ⟨hextends, hedge⟩
      refine ⟨hextends, ?_⟩
      intro hparent hchild rel hrel
      cases rel with
      | path parent' child' path => exact hrel.elim
      | edge parent' child' =>
          rcases hrel with ⟨rfl, rfl⟩
          exact hedge hparent hchild

/-- Saving a file records what it carries. -/
theorem save_holds {present : Bool} (hparents : ParentsIn db task)
    (hpresent : present = true → task.uid ∈ db.fileObject)
    (hsave : db.saveObject present task = (db', none)) (h : Carries task rel) : Holds db' rel := by
  rcases h with ⟨hfw, huid, hparent, hin⟩
  have hfo : task.firmware = none := by simpa [FileObject.isFirmware] using hfw
  rcases Db.saveObject_holds hfo hsave hpresent with ⟨hedges, hpaths⟩
  cases rel with
  | path parent child path =>
      have hchild : task.uid = child := huid
      exact hchild ▸ hpaths parent path hin
  | edge parent child =>
      have hchild : task.uid = child := huid
      exact hchild ▸ hedges parent hparent (hparents hfw parent hparent)

/-! ## The rows that the scheduler relies on -/

/-- A child of a file with a row. -/
theorem parentsIn_child (hchild : ChildOf task fo) (hrow : task.uid ∈ db.fileObject) :
    ParentsIn db fo := by
  intro _ parent hparent
  rw [hchild.parents, List.mem_singleton] at hparent
  exact hparent ▸ hrow

theorem backed_moved {task' : FileObject} {phase' : Phase}
    (hthreads : s'.threads = s.threads.set tid ⟨task', phase'⟩) (hgrows : s.db.Grows s'.db)
    (hqueue : ∀ fo ∈ s'.inQueue, ParentsIn s'.db fo) (htask : ParentsIn s'.db task')
    (hphase : phase'.Backed s'.db task')
    (hentry : ∀ cu, s'.books fw = some cu → cu.Backed s'.db) (h : Backed fw s) : Backed fw s' := by
  refine ⟨hqueue, ?_, hentry⟩
  intro tid' task'' phase'' hget
  rw [hthreads] at hget
  rcases get?_moved hget with ⟨-, heq⟩ | ⟨-, hold⟩
  · cases heq
    exact ⟨htask, hphase⟩
  · rcases h.task tid' task'' phase'' hold with ⟨hparents, hbacked⟩
    exact ⟨parentsIn_grows hgrows hparents, phaseBacked_grows hgrows hbacked⟩

/-- A thread moves on with its task, and with the queue and the entry unchanged. -/
theorem backed_plain {phase' : Phase} (hget : s.threads.get? tid = some ⟨task, phase⟩)
    (hthreads : s'.threads = s.threads.set tid ⟨task, phase'⟩) (hqueue : s'.inQueue = s.inQueue)
    (hgrows : s.db.Grows s'.db) (hcopy : ∀ root, s'.copy root = s.copy root)
    (hentries : s'.currentlyExtracted = s.currentlyExtracted) (hphase : phase'.Backed s'.db task)
    (h : Backed fw s) : Backed fw s' := by
  refine backed_moved hthreads hgrows ?_ ?_ hphase ?_ h
  · intro fo hfo
    exact parentsIn_grows hgrows (h.queue fo (hqueue ▸ hfo))
  · exact parentsIn_grows hgrows (h.task _ _ _ hget).1
  · intro cu hcu
    rw [books_same (hcopy fw) hentries] at hcu
    exact entryBacked_grows hgrows (h.entry cu hcu)

/-- A thread ends. -/
theorem backed_ended (hget : s.threads.get? tid = some ⟨task, phase⟩)
    (hthreads : s'.threads = s.threads.erase tid) (hqueue : s'.inQueue = s.inQueue)
    (hdb : s'.db = s.db) (hentries : s'.currentlyExtracted = s.currentlyExtracted)
    (hlock : s'.syncLock = s.syncLock)
    (hcopy : ∀ root, Thread.copyOf ⟨task, phase⟩ root = none) (h : Backed fw s) :
    Backed fw s' := by
  refine ⟨?_, ?_, ?_⟩
  · intro fo hfo
    rw [hdb]
    exact h.queue fo (hqueue ▸ hfo)
  · intro tid' task' phase' hget'
    rw [hthreads] at hget'
    rw [hdb]
    exact h.task tid' task' phase' (get?_ended hget').2
  · intro cu hcu
    rw [books_same (copy_ended hget hthreads hlock hcopy fw) hentries] at hcu
    rw [hdb]
    exact h.entry cu hcu

theorem next_backed {maxDepth : Nat} {a : Action} (hnext : Next maxDepth s a s')
    (hok : Undisturbed s a) (hbasic : Basic s) (hcancel : CancelInv s) (hof : s.All (Of fw))
    (h : Backed fw s) : Backed fw s' := by
  have hrefl : s.db.Grows s.db := Db.Grows.refl s.db
  have hframe : ∀ {s' : State}, (∀ root, s'.copy root = s.copy root) →
      s'.currentlyExtracted = s.currentlyExtracted → s'.db = s.db →
        ∀ cu, s'.books fw = some cu → cu.Backed s'.db := by
    intro s' hcopy hentries hdb cu hcu
    rw [books_same (hcopy fw) hentries] at hcu
    exact hdb.symm ▸ h.entry cu hcu
  cases hnext with
  | addTask hfw => exact hok.elim
  | @startThread tid task rest hqueue hfree =>
      refine backed_moved (s := s) rfl hrefl ?_ (h.queue _ (hqueue ▸ List.mem_cons_self)) trivial
        (hframe (copy_started hfree rfl rfl fun _ => rfl) rfl rfl) h
      intro fo hfo
      exact h.queue fo (hqueue ▸ List.mem_cons_of_mem _ hfo)
  | enterKnown hget hfw hlock hmem =>
      exact backed_plain (s := s) hget rfl rfl hrefl (copy_moved hget rfl rfl fun _ => rfl) rfl
        trivial h
  | enterNew hget hfw hlock hnew =>
      refine backed_plain (s := s) hget rfl rfl hrefl ?_ rfl trivial h
      intro root
      rw [copy_free hlock]
      exact (copy_held rfl (Dict.get?_set_self _ _ _) root).trans rfl
  | enterFile hget hfile hroot hentry =>
      exact backed_plain (s := s) hget rfl rfl hrefl (copy_moved hget rfl rfl fun _ => rfl) rfl
        trivial h
  | enterSkip hget hfile hentry => exact backed_ended (s := s) hget rfl rfl rfl rfl rfl (fun _ => rfl) h
  | @storeEntry tid task hget =>
      refine backed_moved (s := s) rfl hrefl h.queue (h.task _ _ _ hget).1 trivial ?_ h
      intro cu hcu
      rw [books_of_no_copy (copy_free rfl fw)] at hcu
      have hset : (s.currentlyExtracted.set task.uid (.new task.uid)).get? fw = some cu := hcu
      rw [Dict.get?_set] at hset
      split at hset
      · -- the new entry has no files that are done
        cases hset
        refine ⟨?_, ?_⟩
        · intro u hu
          exact absurd hu (Finset.notMem_empty u)
        · intro child pathLists hlists
          cases hlists
      · refine h.entry cu ?_
        have hcopy : s.copy fw = none :=
          (copy_held (hbasic.critical _ _ _ hget trivial) hget fw).trans rfl
        rw [books_of_no_copy hcopy]
        exact hset
  | @unpack tid files task hget =>
      refine backed_moved (s := s) rfl hrefl h.queue ?_ trivial
        (hframe (copy_moved hget rfl rfl fun _ => rfl) rfl rfl) h
      rw [unpack_task]
      exact (h.task _ _ _ hget).1
  | extractionError hget =>
      exact backed_plain (s := s) hget rfl rfl hrefl (copy_moved hget rfl rfl fun _ => rfl) rfl
        trivial h
  | @query tid task extracted hget =>
      refine backed_plain (s := s) hget rfl rfl hrefl (copy_moved hget rfl rfl fun _ => rfl) rfl
        ?_ h
      intro hpresent
      exact of_decide_eq_true hpresent
  | save hget hsave =>
      rcases Db.saveObject_grows hsave with ⟨hgrows, hrow⟩
      exact backed_plain (s := s) hget rfl rfl hgrows (copy_moved hget rfl rfl fun _ => rfl) rfl
        (hrow (h.task _ _ _ hget).2) h
  | postUnpack hget =>
      exact backed_plain (s := s) hget rfl rfl hrefl (copy_moved hget rfl rfl fun _ => rfl) rfl
        (h.task _ _ _ hget).2 h
  | dbInterfaceError db hget hphase => exact hok.elim
  | raises hget hphase => exact hok.elim
  | raisesLocked hget => exact hok.elim
  | fetchNone hget hlock hentry =>
      refine backed_plain (s := s) hget rfl rfl hrefl (copy_moved hget rfl rfl fun _ => rfl) rfl
        ?_ h
      intro fo hfo
      cases hfo
  | @fetch tid task extracted root cu hget hlock hroot hentry =>
      have hfw : some fw = some root := (hof.task _ _ _ hget).symm.trans hroot
      cases hfw
      have hrow : task.uid ∈ s.db.fileObject := (h.task _ _ _ hget).2
      have hold : cu.Backed s.db := by
        refine h.entry cu ?_
        rw [books_of_no_copy (copy_free hlock fw)]
        exact hentry
      have hdone : ∀ u ∈ (updateCurrentlyUnpacked cu task extracted).entry.done,
          u ∈ s.db.fileObject := by
        intro u hu
        rw [updateCurrentlyUnpacked_done] at hu
        rcases Finset.mem_insert.1 hu with rfl | hu
        · exact hrow
        · exact hold.done u hu
      refine backed_moved (s := s) rfl hrefl h.queue (h.task _ _ _ hget).1 ⟨?_, ?_⟩ ?_ h
      · intro call hcall
        rcases updateCurrentlyUnpacked_calls hold.delays hcall with ⟨hparent, hchild⟩
        exact ⟨hdone _ hparent, hdone _ hchild⟩
      · intro fo hfo
        have hextracted : Children task extracted := hbasic.ok _ _ _ hget
        have hmem := (updateCurrentlyUnpacked_kept cu task extracted).subset hfo
        exact parentsIn_child (hextracted.child fo hmem) hrow
      · intro cu' hcu'
        cases (books_recording rfl rfl hroot).symm.trans hcu'
        exact ⟨hdone, updateCurrentlyUnpacked_delaysDone task extracted hold.delays⟩
  | @dbCall tid task entry call calls kept db hget hcall =>
      rcases h.task _ _ _ hget with ⟨-, hcalls, hkept⟩
      have hgrows := (run_extends hcall).1.toGrows
      refine backed_plain (s := s) hget rfl rfl hgrows (copy_moved hget rfl rfl fun _ => rfl) rfl
        ⟨?_, ?_⟩ h
      · intro call' hcall'
        rcases hcalls call' (List.mem_cons_of_mem _ hcall') with ⟨hparent, hchild⟩
        exact ⟨hgrows.rows _ hparent, hgrows.rows _ hchild⟩
      · intro fo hfo
        exact parentsIn_grows hgrows (hkept fo hfo)
  | @writeBackPop tid task root entry kept hget hroot hempty hmem =>
      have hfw : some fw = some root := (hof.task _ _ _ hget).symm.trans hroot
      cases hfw
      refine backed_moved (s := s) rfl hrefl h.queue (h.task _ _ _ hget).1
        (h.task _ _ _ hget).2.2 ?_ h
      intro cu hcu
      rw [books_of_no_copy (copy_free rfl fw)] at hcu
      have hgone : (s.currentlyExtracted.erase fw).get? fw = some cu := hcu
      rw [Dict.get?_erase_self] at hgone
      cases hgone
  | writeBackKeyError hget hroot hempty hgone =>
      exact absurd (hcancel.recorded _ _ _ _ _ _ hget hroot) hgone
  | @writeBackSet tid task root entry kept hget hroot hne =>
      have hfw : some fw = some root := (hof.task _ _ _ hget).symm.trans hroot
      cases hfw
      refine backed_moved (s := s) rfl hrefl h.queue (h.task _ _ _ hget).1
        (h.task _ _ _ hget).2.2 ?_ h
      intro cu hcu
      rw [books_of_no_copy (copy_free rfl fw)] at hcu
      have hset : (s.currentlyExtracted.set fw entry).get? fw = some cu := hcu
      rw [Dict.get?_set_self] at hset
      cases hset
      refine h.entry entry (books_of_copy ?_)
      rw [copy_recording hbasic hget hroot, if_pos rfl]
  | @put tid task fo rest hget =>
      have hkept : ∀ g ∈ fo :: rest, ParentsIn s.db g := (h.task _ _ _ hget).2
      refine backed_moved (s := s) rfl hrefl ?_ (h.task _ _ _ hget).1
        (fun g hg => hkept g (List.mem_cons_of_mem _ hg))
        (hframe (copy_moved hget rfl rfl fun _ => rfl) rfl rfl) h
      intro g hg
      rcases List.mem_append.1 hg with hold | hnew
      · exact h.queue g hold
      · rw [List.mem_singleton.1 hnew]
        exact hkept fo List.mem_cons_self
  | finish hget => exact backed_ended (s := s) hget rfl rfl rfl rfl rfl (fun _ => rfl) h
  | cancelAbsent hidle hgone => exact hok.elim
  | cancelTest hidle hmem => exact hok.elim
  | cancelRaises hcancelling hgone => exact hok.elim
  | cancelPop hcancelling hmem => exact hok.elim

/-- The start of a run of one firmware. -/
theorem init_backed {maxDepth : Nat} {fw : FileObject} (s : State) (h : (single maxDepth fw).Init s) :
    Backed fw.uid s := by
  rcases h with ⟨db, hadd⟩
  rcases addTask_eq_some hadd with ⟨hfw, rfl⟩
  refine ⟨?_, ?_, ?_⟩
  · intro fo hfo hfile
    rw [List.mem_singleton.1 hfo] at hfile
    exact absurd (hfile.symm.trans hfw) (by decide)
  · intro tid task phase hget
    cases hget
  · intro cu hcu
    cases hcu

theorem reach_backed {maxDepth : Nat} {fw : FileObject}
    (h : (single maxDepth fw).Reach Undisturbed s) : Backed fw.uid s := by
  refine Machine.reach_invariant_with (J := Single fw) (fun t ht => reach_single ht) init_backed ?_ h
  intro t a t' hok hstep hinv hbacked
  exact next_backed (next_of_step hstep) hok hinv.basic hinv.cancel hinv.of hbacked

/-! ## No relation gets lost -/

/-- The objects that `unpack` returns carry what it has found. -/
theorem carries_found {extracted : List FileObject} (hchildren : Children task extracted)
    (h : rel ∈ extracted.flatMap (relationsOf task.uid)) : ∃ fo ∈ extracted, Carries fo rel := by
  rcases List.mem_flatMap.1 h with ⟨fo, hfo, hrel⟩
  have hchild := hchildren.child fo hfo
  have hfile : fo.isFirmware = false := by simp [FileObject.isFirmware, hchild.firmware]
  have hparent : task.uid ∈ fo.parents := by simp [hchild.parents]
  rcases List.mem_cons.1 hrel with rfl | hpath
  · exact ⟨fo, hfo, hfile, rfl, hparent, trivial⟩
  · rcases List.mem_map.1 hpath with ⟨path, hin, rfl⟩
    exact ⟨fo, hfo, hfile, rfl, hparent, hin⟩

/-- A thread moves on. What it covered, and what was delayed, has to be looked at. -/
theorem covered_moved {task' : FileObject} {phase' : Phase}
    (hget : s.threads.get? tid = some ⟨task, phase⟩)
    (hthreads : s'.threads = s.threads.set tid ⟨task', phase'⟩) (hgrows : s.db.Grows s'.db)
    (hqueue : ∀ fo ∈ s.inQueue, fo ∈ s'.inQueue)
    (hown : phase.Covers task rel → phase'.Covers task' rel ∨ Covered fw s' rel)
    (hdelayed : ∀ cu, s.books fw = some cu → cu.Delays rel →
      phase'.Covers task' rel ∨ Covered fw s' rel) (h : Covered fw s rel) : Covered fw s' rel := by
  have hmoved : phase'.Covers task' rel ∨ Covered fw s' rel → Covered fw s' rel := by
    rintro (hcovers | hcovered)
    · exact Covered.thread tid task' phase' (by rw [hthreads, Dict.get?_set_self]) hcovers
    · exact hcovered
  cases h with
  | held hrel => exact Covered.held (holds_grows hgrows hrel)
  | queued fo hfo hrel => exact Covered.queued fo (hqueue fo hfo) hrel
  | thread t task'' phase'' hget'' hrel =>
      by_cases ht : t = tid
      · subst ht
        cases hget.symm.trans hget''
        exact hmoved (hown hrel)
      · exact Covered.thread t task'' phase'' (by rw [hthreads, Dict.get?_set_ne _ _ ht, hget'']) hrel
  | delayed cu hcu hrel => exact hmoved (hdelayed cu hcu hrel)

/-- A thread starts. -/
theorem covered_started {rest : List FileObject} (hqueue : s.inQueue = task :: rest)
    (hfree : tid ∉ s.threads) (hthreads : s'.threads = s.threads.set tid ⟨task, .started⟩)
    (hrest : s'.inQueue = rest) (hdb : s'.db = s.db) (hlock : s'.syncLock = s.syncLock)
    (hentries : s'.currentlyExtracted = s.currentlyExtracted) (h : Covered fw s rel) :
    Covered fw s' rel := by
  have hbooks : s'.books fw = s.books fw :=
    books_same (copy_started hfree hthreads hlock (fun _ => rfl) fw) hentries
  cases h with
  | held hrel => exact Covered.held (hdb.symm ▸ hrel)
  | queued fo hfo hrel =>
      rw [hqueue] at hfo
      rcases List.mem_cons.1 hfo with rfl | hfo
      · exact Covered.thread tid fo .started (by rw [hthreads, Dict.get?_set_self]) hrel
      · exact Covered.queued fo (hrest.symm ▸ hfo) hrel
  | thread t task' phase' hget hrel =>
      have ht : t ≠ tid := by
        rintro rfl
        exact hfree (Dict.mem_of_get? hget)
      exact Covered.thread t task' phase' (by rw [hthreads, Dict.get?_set_ne _ _ ht, hget]) hrel
  | delayed cu hcu hrel => exact Covered.delayed cu (hbooks.trans hcu) hrel

/-- A thread that is done covers nothing any more. -/
theorem covered_finish (hget : s.threads.get? tid = some ⟨task, .scheduling []⟩)
    (hthreads : s'.threads = s.threads.erase tid) (hqueue : s'.inQueue = s.inQueue)
    (hdb : s'.db = s.db) (hlock : s'.syncLock = s.syncLock)
    (hentries : s'.currentlyExtracted = s.currentlyExtracted) (h : Covered fw s rel) :
    Covered fw s' rel := by
  have hbooks : s'.books fw = s.books fw :=
    books_same (copy_ended hget hthreads hlock (fun _ => rfl) fw) hentries
  cases h with
  | held hrel => exact Covered.held (hdb.symm ▸ hrel)
  | queued fo hfo hrel => exact Covered.queued fo (hqueue.symm ▸ hfo) hrel
  | thread t task' phase' hget' hrel =>
      have ht : t ≠ tid := by
        rintro rfl
        cases hget.symm.trans hget'
        rcases hrel with ⟨fo, hfo, -⟩
        cases hfo
      exact Covered.thread t task' phase' (by rw [hthreads, Dict.get?_erase_ne _ ht, hget']) hrel
  | delayed cu hcu hrel => exact Covered.delayed cu (hbooks.trans hcu) hrel

/-- The three ways of `_update_extracted_objects` and the delayed paths of the
task itself. -/
theorem covered_fetch {extracted : List FileObject} {cu : CurrentlyUnpacked} (hbasic : Basic s)
    (hbooksInv : Books s) (hbacked : cu.DelaysDone)
    (hget : s.threads.get? tid = some ⟨task, .updating extracted⟩)
    (hfree : s.syncLock = none) (hroot : task.rootUid = some fw)
    (hentry : s.currentlyExtracted.get? fw = some cu)
    (hthreads : s'.threads = s.threads.set tid ⟨task, .recording
      (updateCurrentlyUnpacked cu task extracted).entry
      (updateCurrentlyUnpacked cu task extracted).calls
      (updateCurrentlyUnpacked cu task extracted).kept⟩)
    (hqueue : s'.inQueue = s.inQueue) (hdb : s'.db = s.db) (hlock : s'.syncLock = some tid)
    (h : Covered fw s rel) : Covered fw s' rel := by
  have hextracted : Children task extracted := hbasic.ok _ _ _ hget
  have hbooks : s.books fw = some cu := by
    rw [books_of_no_copy (copy_free hfree fw)]
    exact hentry
  have hbooks' : s'.books fw = some (updateCurrentlyUnpacked cu task extracted).entry :=
    books_recording hthreads hlock hroot
  refine covered_moved hget hthreads (hdb.symm ▸ Db.Grows.refl _) (fun fo hfo => hqueue.symm ▸ hfo)
    ?_ ?_ h
  · rintro ⟨fo, hfo, hcarries⟩
    have hchild := hextracted.child fo hfo
    have hparent : rel.parent = task.uid := by
      have hmem := hcarries.2.2.1
      rwa [hchild.parents, List.mem_singleton] at hmem
    rcases updateCurrentlyUnpacked_carries cu hextracted.nodup hfo hchild.ne hparent
        hcarries with hkept | hdelays | hcall
    · exact Or.inl (Or.inr hkept)
    · exact Or.inr (Covered.delayed _ hbooks' hdelays)
    · exact Or.inl (Or.inl hcall)
  · intro cu' hcu' hdelays
    cases hbooks.symm.trans hcu'
    -- a parent of delayed paths is done, and the task is not
    have hne : rel.parent ≠ task.uid := by
      intro heq
      rcases hdelays with ⟨-, pathLists, paths, hlists, hpaths, -⟩
      have hdone : rel.parent ∈ cu.done := hbacked _ _ hlists _ (Dict.mem_of_get? hpaths)
      have hx : (Stage.updating, task) ∈ s.held := held_of_thread hget (task_mem_held rfl)
      have hmem := hbooksInv.mem_remaining hx hroot rfl
      rw [remaining_of_books hbooks] at hmem
      exact Finset.disjoint_left.1 (hbooksInv.disjoint fw cu hbooks) hmem (heq ▸ hdone)
    rcases updateCurrentlyUnpacked_keeps extracted hne hdelays with hkeeps | hcall
    · exact Or.inr (Covered.delayed _ hbooks' hkeeps)
    · exact Or.inl (Or.inl hcall)

/-- Every step keeps what it does not record. -/
theorem next_covered {maxDepth : Nat} {a : Action} (hnext : Next maxDepth s a s')
    (hok : Undisturbed s a) (hbasic : Basic s) (hcancel : CancelInv s) (hbooks : Books s)
    (hof : s.All (Of fw)) (hbacked : Backed fw s) (h : Covered fw s rel) : Covered fw s' rel := by
  have hrefl : s.db.Grows s.db := Db.Grows.refl s.db
  -- the entry is the same before and after the step
  have hdelayed : ∀ {s' : State} {P : Prop}, (∀ root, s'.copy root = s.copy root) →
      s'.currentlyExtracted = s.currentlyExtracted →
      ∀ cu, s.books fw = some cu → cu.Delays rel → P ∨ Covered fw s' rel :=
    fun hcopy hentries cu hcu hrel =>
      Or.inr (Covered.delayed cu ((books_same (hcopy fw) hentries).trans hcu) hrel)
  cases hnext with
  | addTask hfw => exact hok.elim
  | startThread hqueue hfree =>
      exact covered_started (s := s) hqueue hfree rfl rfl rfl rfl rfl h
  | enterKnown hget hfw hlock hmem =>
      exact covered_moved (s := s) hget rfl hrefl (fun _ => id) Or.inl
        (hdelayed (copy_moved hget rfl rfl fun _ => rfl) rfl) h
  | enterNew hget hfw hlock hnew =>
      refine covered_moved (s := s) hget rfl hrefl (fun _ => id) Or.inl (hdelayed ?_ rfl) h
      intro root
      rw [copy_free hlock]
      exact (copy_held rfl (Dict.get?_set_self _ _ _) root).trans rfl
  | enterFile hget hfile hroot hentry =>
      exact covered_moved (s := s) hget rfl hrefl (fun _ => id) Or.inl
        (hdelayed (copy_moved hget rfl rfl fun _ => rfl) rfl) h
  | @enterSkip tid task hget hfile hentry =>
      have hopen : Stage.started.isOpen task.isFirmware = true := by rw [hfile]; rfl
      exact absurd hentry (hbooks.entry_found hbasic hcancel hget rfl hopen)
  | @storeEntry tid task hget =>
      refine covered_moved (s := s) hget rfl hrefl (fun _ => id) Or.inl ?_ h
      -- there was no entry in which something could be delayed
      intro cu hcu _
      have hfw : task.isFirmware = true := hbasic.ok _ _ _ hget
      have hnone := hbooks.none_of_new hbasic (held_of_thread hget (task_mem_held rfl)) hfw rfl
      have hself := (hbasic.rooted.task _ _ _ hget).firmware hfw
      have huid : some fw = some task.uid := (hof.task _ _ _ hget).symm.trans hself
      cases huid
      rw [hnone] at hcu
      cases hcu
  | @unpack tid files task hget =>
      refine covered_moved (s := s) hget rfl hrefl (fun _ => id) ?_
        (hdelayed (copy_moved hget rfl rfl fun _ => rfl) rfl) h
      intro hcarries
      rw [unpack_task]
      exact Or.inl (Or.inl hcarries)
  | extractionError hget =>
      exact covered_moved (s := s) hget rfl hrefl (fun _ => id) (fun hc => Or.inl (Or.inl hc))
        (hdelayed (copy_moved hget rfl rfl fun _ => rfl) rfl) h
  | query hget =>
      exact covered_moved (s := s) hget rfl hrefl (fun _ => id) Or.inl
        (hdelayed (copy_moved hget rfl rfl fun _ => rfl) rfl) h
  | save hget hsave =>
      refine covered_moved (s := s) hget rfl (Db.saveObject_grows hsave).1 (fun _ => id) ?_
        (hdelayed (copy_moved hget rfl rfl fun _ => rfl) rfl) h
      rcases hbacked.task _ _ _ hget with ⟨hparents, hpresent⟩
      rintro (hcarries | hextracted)
      · exact Or.inr (Covered.held (save_holds hparents hpresent hsave hcarries))
      · exact Or.inl hextracted
  | postUnpack hget =>
      exact covered_moved (s := s) hget rfl hrefl (fun _ => id) Or.inl
        (hdelayed (copy_moved hget rfl rfl fun _ => rfl) rfl) h
  | dbInterfaceError db hget hphase => exact hok.elim
  | raises hget hphase => exact hok.elim
  | raisesLocked hget => exact hok.elim
  | fetchNone hget hlock hentry =>
      exact absurd hentry (hbooks.entry_found hbasic hcancel hget rfl rfl)
  | @fetch tid task extracted root cu hget hlock hroot hentry =>
      have hfw : some fw = some root := (hof.task _ _ _ hget).symm.trans hroot
      cases hfw
      have hcu : s.books fw = some cu := by
        rw [books_of_no_copy (copy_free hlock fw)]
        exact hentry
      exact covered_fetch (s := s) hbasic hbooks (hbacked.entry cu hcu).delays hget hlock hroot
        hentry rfl rfl rfl rfl h
  | @dbCall tid task entry call calls kept db hget hcall =>
      rcases run_extends hcall with ⟨hextends, hholds⟩
      refine covered_moved (s := s) hget rfl hextends.toGrows (fun _ => id) ?_
        (hdelayed (copy_moved hget rfl rfl fun _ => rfl) rfl) h
      rcases hbacked.task _ _ _ hget with ⟨-, hrows, -⟩
      rcases hrows call List.mem_cons_self with ⟨hparent, hchild⟩
      rintro (⟨call', hmem, hcarries⟩ | hkept)
      · rcases List.mem_cons.1 hmem with rfl | hrest
        · exact Or.inr (Covered.held (hholds hparent hchild rel hcarries))
        · exact Or.inl (Or.inl ⟨call', hrest, hcarries⟩)
      · exact Or.inl (Or.inr hkept)
  | @writeBackPop tid task root entry kept hget hroot hempty hmem =>
      have hfw : some fw = some root := (hof.task _ _ _ hget).symm.trans hroot
      cases hfw
      refine covered_moved (s := s) hget rfl hrefl (fun _ => id) ?_ ?_ h
      · rintro (⟨call, hcall, -⟩ | hkept)
        · cases hcall
        · exact Or.inl hkept
      · -- nothing is delayed when nothing remains
        intro cu hcu hrel
        rw [books_of_copy (by rw [copy_recording hbasic hget hroot, if_pos rfl])] at hcu
        cases hcu
        have hchild := hrel.1
        rw [hempty] at hchild
        exact absurd hchild (Finset.notMem_empty _)
  | writeBackKeyError hget hroot hempty hgone =>
      exact absurd (hcancel.recorded _ _ _ _ _ _ hget hroot) hgone
  | @writeBackSet tid task root entry kept hget hroot hne =>
      have hfw : some fw = some root := (hof.task _ _ _ hget).symm.trans hroot
      cases hfw
      refine covered_moved (s := s) hget rfl hrefl (fun _ => id) ?_ ?_ h
      · rintro (⟨call, hcall, -⟩ | hkept)
        · cases hcall
        · exact Or.inl hkept
      · intro cu hcu hrel
        rw [books_of_copy (by rw [copy_recording hbasic hget hroot, if_pos rfl])] at hcu
        cases hcu
        refine Or.inr (Covered.delayed entry ?_ hrel)
        rw [books_of_no_copy (copy_free rfl fw)]
        exact Dict.get?_set_self _ _ _
  | @put tid task fo rest hget =>
      refine covered_moved (s := s) hget rfl hrefl (fun g hg => List.mem_append_left _ hg) ?_
        (hdelayed (copy_moved hget rfl rfl fun _ => rfl) rfl) h
      rintro ⟨g, hg, hcarries⟩
      rcases List.mem_cons.1 hg with rfl | hrest
      · exact Or.inr (Covered.queued g (List.mem_append_right _ List.mem_cons_self) hcarries)
      · exact Or.inl ⟨g, hrest, hcarries⟩
  | finish hget =>
      exact covered_finish (s := s) hget rfl rfl rfl rfl rfl h
  | cancelAbsent hidle hgone => exact hok.elim
  | cancelTest hidle hmem => exact hok.elim
  | cancelRaises hcancelling hgone => exact hok.elim
  | cancelPop hcancelling hmem => exact hok.elim

/-- A relation that is found is carried by its object. -/
theorem next_found {maxDepth : Nat} {a : Action} (hnext : Next maxDepth s a s')
    (h : rel ∈ s'.log.found) : rel ∈ s.log.found ∨ Covered fw s' rel := by
  cases hnext with
  | @unpack tid files task hget =>
      rcases List.mem_append.1 h with hold | hnew
      · exact Or.inl hold
      · have hchildren := children_unpack maxDepth task files
        have huid : (unpack maxDepth task files).1.uid = task.uid := by
          rw [unpack_task, FileObject.includeFiles_uid]
        rw [← huid] at hnew
        exact Or.inr (Covered.thread tid _ _ (Dict.get?_set_self _ _ _)
          (Or.inr (carries_found hchildren hnew)))
  | _ => exact Or.inl h

theorem reach_covered {maxDepth : Nat} {fw : FileObject}
    (h : (single maxDepth fw).Reach Undisturbed s) : Complete fw.uid s := by
  refine Machine.reach_invariant_with (J := fun t => Single fw t ∧ Backed fw.uid t)
    (fun t ht => ⟨reach_single ht, reach_backed ht⟩) ?_ ?_ h
  · rintro t ⟨db, hadd⟩ rel hrel
    rcases addTask_eq_some hadd with ⟨-, rfl⟩
    cases hrel
  · intro t a t' hok hstep hinv hcovered rel hrel
    rcases hinv with ⟨hsingle, hbacked⟩
    have hnext := next_of_step hstep
    rcases next_found hnext hrel with hold | hnew
    · exact next_covered hnext hok hsingle.basic hsingle.cancel hsingle.books hsingle.of hbacked
        (hcovered rel hold)
    · exact hnew

/-! ## When the scheduler is idle -/

/-- An idle scheduler has no entries. -/
theorem Books.no_entry (h : Books s) (hidle : s.Idle) (root : Uid) :
    root ∉ s.currentlyExtracted := by
  rw [Dict.notMem_iff]
  cases hget : s.currentlyExtracted.get? root with
  | none => rfl
  | some cu =>
      exfalso
      have hnone : s.copy root = none := by
        unfold State.copy
        have hthreads : ∀ tid, s.threads.get? tid = none := by
          intro tid
          rw [← Dict.notMem_iff, ← Dict.mem_keys, Dict.keys, hidle.2]
          exact List.not_mem_nil
        cases s.syncLock with
        | none => rfl
        | some tid => simp [hthreads]
      have hbooks : s.books root = some cu := by rw [books_of_no_copy hnone, hget]
      refine h.nonempty root cu hget (Finset.eq_empty_iff_forall_notMem.2 ?_)
      intro u hu
      have hlisted := h.listed root u
      rw [held_of_idle hidle, total_zero, remaining_of_books hbooks, if_pos hu] at hlisted
      omega

/-- What is covered by an idle scheduler is recorded. -/
theorem Covered.holds (h : Covered fw s rel) (hbooks : Books s) (hidle : s.Idle) :
    Holds s.db rel := by
  cases h with
  | held hrel => exact hrel
  | queued fo hfo =>
      rw [hidle.1] at hfo
      cases hfo
  | thread tid task phase hget =>
      have hmem := Dict.get?_eq_some_iff.1 hget
      rw [hidle.2] at hmem
      cases hmem
  | delayed cu hcu hrel =>
      have hlisted := hbooks.listed fw rel.child
      rw [held_of_idle hidle, total_zero, remaining_of_books hcu, if_pos hrel.1] at hlisted
      omega

/-- One firmware, any number of threads, any interleaving of their steps and any
containment relation: no file is put into the queue twice. When all is done, there
is no entry left, every file that was found was unpacked and posted once, and
the database knows where it was found. -/
theorem unpacked_once {maxDepth : Nat} {fw : FileObject}
    (h : (single maxDepth fw).Reach Undisturbed s) :
    s.log.puts.Nodup ∧
      (s.Idle → fw.uid ∉ s.currentlyExtracted ∧
        (∀ u ∈ s.log.returned, s.log.unpacked.count u = 1 ∧ s.log.posted.count u = 1) ∧
        ∀ rel ∈ s.log.found, Holds s.db rel) := by
  rcases reach_once h with ⟨known, honce⟩
  have hbooks := (reach_single h).books
  refine ⟨honce.nodup_puts, ?_⟩
  intro hidle
  refine ⟨hbooks.no_entry hidle fw.uid, ?_, ?_⟩
  · intro u hu
    exact ⟨honce.counted_idle hidle .unpacked hu, honce.counted_idle hidle .posted hu⟩
  · intro rel hrel
    exact (reach_covered h rel hrel).holds hbooks hidle

/-- The scheduler after the image was submitted. -/
def uploaded : State :=
  { State.init Db.empty with inQueue := [image], log := { puts := ["fw"] } }

/-- The image contains `a` and `b`, and these contain each other: `b` is found
again while it is in the queue, `a` after it was unpacked. -/
def cyclic : List Action :=
  let a : ExtractedFile := ⟨"a", "a", 1, "a", "/a"⟩
  let b : ExtractedFile := ⟨"b", "b", 1, "b", "/b"⟩
  [.startThread 0, .enter 0, .storeEntry 0, .unpack 0 [a, b], .query 0, .save 0, .postUnpack 0,
    .fetch 0, .writeBack 0, .put 0, .startThread 1, .put 0, .finish 0, .enter 1, .unpack 1 [b],
    .query 1, .startThread 2, .save 1, .postUnpack 1, .fetch 1, .writeBack 1, .enter 2, .finish 1,
    .unpack 2 [a], .query 2, .save 2, .postUnpack 2, .fetch 2, .dbCall 2, .dbCall 2, .dbCall 2,
    .dbCall 2, .writeBack 2, .finish 2]

/-- The theorem at the end of the run `cyclic`. -/
theorem unpacked_once_cyclic : ∃ s, (single 8 image).Reach Undisturbed s ∧
    s.log.returned = ["a", "b", "b", "a"] ∧ "fw" ∉ s.currentlyExtracted ∧
      (∀ u ∈ s.log.returned, s.log.unpacked.count u = 1 ∧ s.log.posted.count u = 1) ∧
      ∀ rel ∈ s.log.found, Holds s.db rel := by
  have hinit : (single 8 image).Init uploaded := ⟨Db.empty, rfl⟩
  have hrun : ∃ s, (single 8 image).Reach Undisturbed s ∧ s.Idle ∧ s.log.returned = ["a", "b", "b", "a"] :=
    Machine.exists_reach hinit cyclic (by decide +kernel)
  rcases hrun with ⟨s, hreach, hidle, hreturned⟩
  exact ⟨s, hreach, hreturned, (unpacked_once hreach).2 hidle⟩

end FactCore.Unpacking
