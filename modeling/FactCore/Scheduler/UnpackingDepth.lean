import Mathlib.Data.List.Range
import FactCore.Scheduler.UnpackingShared

/-! # What one firmware is unpacked into

A run of one firmware in which the extractor finds in every file what the file
contains, nothing is raised and nothing is cancelled. Which files are extracted
then is a question of depth: a file object carries the number of steps of the
containment chain on which it was found, and nothing is extracted at the depth
limit. Only the occurrence that is found first counts. As long as no file is
taken up at the limit that a shorter chain leads to as well, every interleaving
ends with the files that the chains below the limit lead to, and with their
edges; otherwise the result depends on which worker is faster.
-/

namespace FactCore.Unpacking

open Tla Unpacker

/-! ## Containment chains -/

/-- A chain of `n` steps of the relation leads from the root to the file. -/
inductive Chain (R : Uid → Uid → Prop) (root : Uid) : Nat → Uid → Prop
  | root : Chain R root 0 root
  | step {n : Nat} {u v : Uid} (h : Chain R root n u) (hstep : R u v) : Chain R root (n + 1) v

/-- The uids of the files that the extractor finds in a file. -/
def contained (content : Uid → List ExtractedFile) (u : Uid) : List Uid :=
  ((content u).filter fun f => !f.isEmpty && decide (f.uid ≠ u)).map ExtractedFile.uid

/-- The files to which chains of `n` steps lead. -/
def filesAt (content : Uid → List ExtractedFile) (root : Uid) : Nat → List Uid
  | 0 => [root]
  | n + 1 => (filesAt content root n).flatMap (contained content)

/-- Some containment chain from the root to the file has fewer than `maxDepth` steps. -/
def WithinDepth (content : Uid → List ExtractedFile) (maxDepth : Nat) (root u : Uid) : Prop :=
  ∃ n < maxDepth, Chain (Contains content) root n u

variable {content : Uid → List ExtractedFile} {maxDepth : Nat} {root u v : Uid}

theorem mem_contained : v ∈ contained content u ↔ Contains content u v := by
  unfold contained Contains
  simp only [List.mem_map, List.mem_filter, Bool.and_eq_true, Bool.not_eq_true',
    decide_eq_true_eq]
  constructor
  · rintro ⟨f, ⟨hf, hempty, hne⟩, rfl⟩
    exact ⟨hne, f, hf, hempty, rfl⟩
  · rintro ⟨hne, f, hf, hempty, rfl⟩
    exact ⟨f, ⟨hf, hempty, hne⟩, rfl⟩

theorem mem_filesAt {n : Nat} : u ∈ filesAt content root n ↔ Chain (Contains content) root n u := by
  induction n generalizing u with
  | zero =>
      constructor
      · intro h
        rw [List.mem_singleton.1 h]
        exact Chain.root
      · intro h
        cases h
        exact List.mem_singleton.2 rfl
  | succ n ih =>
      simp only [filesAt, List.mem_flatMap]
      constructor
      · rintro ⟨v, hv, hu⟩
        exact Chain.step (ih.1 hv) (mem_contained.1 hu)
      · intro h
        cases h with
        | step hchain hstep => exact ⟨_, ih.2 hchain, mem_contained.2 hstep⟩

theorem withinDepth_iff :
    WithinDepth content maxDepth root u ↔
      ∃ n ∈ List.range maxDepth, u ∈ filesAt content root n := by
  simp only [WithinDepth, List.mem_range, mem_filesAt]

instance (content : Uid → List ExtractedFile) (maxDepth : Nat) (root u : Uid) :
    Decidable (WithinDepth content maxDepth root u) :=
  decidable_of_iff _ withinDepth_iff.symm

/-! ## Runs -/

/-- The scheduler, from the database `db`, after one firmware was submitted. -/
def upload (maxDepth : Nat) (db : Db) (fw : FileObject) : Machine State Action where
  Init := fun s => addTask fw (State.init db) = some s
  step := step maxDepth

/-- A step that unpacks a file above the depth limit extracts it. -/
def recordExtracted (maxDepth : Nat) (a : Action) (s : State) (extracted : Finset Uid) :
    Finset Uid :=
  match a with
  | .unpack tid _ =>
      match s.threads.get? tid with
      | some th => if th.task.depth < maxDepth then insert th.task.uid extracted else extracted
      | none => extracted
  | _ => extracted

/-- The runs with the files that were extracted. -/
def extraction (maxDepth : Nat) (db : Db) (fw : FileObject) : Machine (State × Finset Uid) Action :=
  (upload maxDepth db fw).withHistory ∅ (recordExtracted maxDepth)

/-- The extractor finds in the file of the thread what the file contains. -/
def State.finds (s : State) (content : Uid → List ExtractedFile) (tid : Nat)
    (files : List ExtractedFile) : Bool :=
  (s.threads.get? tid).all fun th => decide (files = content th.task.uid)

/-- Nothing is raised and nothing is cancelled, and extraction is deterministic. -/
def Deterministic (content : Uid → List ExtractedFile) (s : State) : Action → Prop
  | .unpack tid files => s.finds content tid files = true
  | .extractionError _ => False
  | a => Undisturbed s a

instance (content : Uid → List ExtractedFile) (s : State) :
    (a : Action) → Decidable (Deterministic content s a)
  | .unpack tid files => inferInstanceAs (Decidable (s.finds content tid files = true))
  | .addTask _ | .extractionError _ | .dbInterfaceError _ | .raises _ | .cancelTest _
  | .cancelPop => instDecidableFalse
  | .startThread _ | .enter _ | .storeEntry _ | .query _ | .save _ | .postUnpack _ | .fetch _
  | .dbCall _ | .writeBack _ | .put _ | .finish _ => instDecidableTrue

/-- The bookkeeping has not heard of the file yet. -/
def State.unheard (s : State) (root u : Uid) : Bool :=
  (s.currentlyExtracted.get? root).all fun cu => decide (u ∉ cu.remaining ∧ u ∉ cu.done)

/-- No thread takes up a file for the first time at the depth limit to which a
chain of fewer steps leads. -/
def InTime (content : Uid → List ExtractedFile) (maxDepth : Nat) (root : Uid) (s : State) :
    Action → Prop
  | .fetch tid => ∀ th ∈ s.threads.get? tid, ∀ fo ∈ th.phase.extracted,
      maxDepth ≤ fo.depth → s.unheard root fo.uid = true → ¬ WithinDepth content maxDepth root fo.uid
  | _ => True

instance (content : Uid → List ExtractedFile) (maxDepth : Nat) (root : Uid) (s : State) :
    (a : Action) → Decidable (InTime content maxDepth root s a)
  | .fetch tid => inferInstanceAs (Decidable (∀ th ∈ s.threads.get? tid, ∀ fo ∈ th.phase.extracted,
      maxDepth ≤ fo.depth → s.unheard root fo.uid = true →
        ¬ WithinDepth content maxDepth root fo.uid))
  | .addTask _ | .startThread _ | .enter _ | .storeEntry _ | .unpack _ _ | .extractionError _
  | .query _ | .save _ | .postUnpack _ | .dbInterfaceError _ | .raises _ | .dbCall _
  | .writeBack _ | .put _ | .finish _ | .cancelTest _ | .cancelPop => instDecidableTrue

/-- A firmware as it is submitted: nothing contains it. -/
structure Submitted (fw : FileObject) : Prop where
  isFirmware : fw.isFirmware = true
  depth : fw.depth = 0
  parents : fw.parents = []

/-- What the firmware is to be unpacked into: the files that were extracted, the
files in the database and their edges. -/
structure Result (content : Uid → List ExtractedFile) (maxDepth : Nat) (root : Uid) (before db : Db)
    (extracted : Finset Uid) : Prop where
  chains : ∀ u, u ∈ extracted ↔ WithinDepth content maxDepth root u
  present : ∀ u, u ∈ db.fileObject ↔
    u ∈ before.fileObject ∨ u = root ∨ ∃ p ∈ extracted, Contains content p u
  edges : ∀ p u, (p, u) ∈ db.includedFiles ↔
    (p, u) ∈ before.includedFiles ∨ (p ∈ extracted ∧ Contains content p u)

/-! ## What a run relies on -/

/-- The file was found in an extracted one. -/
def Link (content : Uid → List ExtractedFile) (extracted : Finset Uid) (p u : Uid) : Prop :=
  p ∈ extracted ∧ Contains content p u

/-- A file that is on its way carries the length of a chain to it, and is not
late, and is the root or comes from an extracted file. -/
structure Arrived (content : Uid → List ExtractedFile) (maxDepth : Nat) (root : Uid)
    (extracted : Finset Uid) (fo : FileObject) : Prop where
  chain : Chain (Contains content) root fo.depth fo.uid
  inTime : maxDepth ≤ fo.depth → ¬ WithinDepth content maxDepth root fo.uid
  origin : (fo.uid = root ∧ fo.parents = []) ∨
    ∃ p, Link content extracted p fo.uid ∧ fo.parents = [p]

/-- What a thread has found comes from its task, and what it keeps has arrived. -/
def Phase.Traced (content : Uid → List ExtractedFile) (maxDepth : Nat) (root : Uid)
    (extracted : Finset Uid) (task : FileObject) : Phase → Prop
  | .querying objects | .saving _ objects | .posting objects | .updating objects =>
      ∀ fo ∈ objects, fo.depth = task.depth + 1 ∧ Link content extracted task.uid fo.uid
  | .recording _ calls kept =>
      (∀ call ∈ calls, Link content extracted call.parent call.child) ∧
        ∀ fo ∈ kept, Arrived content maxDepth root extracted fo
  | .scheduling kept => ∀ fo ∈ kept, Arrived content maxDepth root extracted fo
  | _ => True

/-- What holds of the file objects in every run, and of the entry of the firmware. -/
structure Traced (content : Uid → List ExtractedFile) (maxDepth : Nat) (root : Uid) (s : State)
    (extracted : Finset Uid) : Prop where
  tasks : s.All (Arrived content maxDepth root extracted)
  phase : ∀ tid task phase, s.threads.get? tid = some ⟨task, phase⟩ →
    phase.Traced content maxDepth root extracted task
  entry : ∀ cu, s.books root = some cu → cu.DelaysOnly (Link content extracted)

/-- What holds of the extracted files in every run, of the log and of the database. -/
structure Accounted (content : Uid → List ExtractedFile) (maxDepth : Nat) (root : Uid) (before : Db)
    (s : State) (extracted : Finset Uid) : Prop where
  chains : ∀ u ∈ extracted, WithinDepth content maxDepth root u
  found : ∀ p u, Link content extracted p u → u ∈ s.log.returned ∧ .edge p u ∈ s.log.found
  unpacked : ∀ u ∈ s.log.unpacked, u ∈ extracted ∨ ¬ WithinDepth content maxDepth root u
  posted : ∀ u ∈ s.log.posted, u ∈ s.db.fileObject
  put : root ∈ s.log.puts
  grows : before.Grows s.db
  rows : ∀ u ∈ s.db.fileObject, u ∈ before.fileObject ∨ u = root ∨ ∃ p, Link content extracted p u
  edges : ∀ p u, (p, u) ∈ s.db.includedFiles →
    (p, u) ∈ before.includedFiles ∨ Link content extracted p u

variable {s s' : State} {tid : Nat} {task task' fo : FileObject} {phase phase' : Phase} {db : Db}
  {a : Action} {extracted extracted' : Finset Uid}

/-! ## More files are extracted -/

theorem Link.mono (hsub : extracted ⊆ extracted') {p u : Uid} (h : Link content extracted p u) :
    Link content extracted' p u :=
  ⟨hsub h.1, h.2⟩

theorem Arrived.mono (hsub : extracted ⊆ extracted')
    (h : Arrived content maxDepth root extracted fo) :
    Arrived content maxDepth root extracted' fo := by
  refine ⟨h.chain, h.inTime, ?_⟩
  rcases h.origin with hroot | ⟨p, hlink, hparents⟩
  · exact Or.inl hroot
  · exact Or.inr ⟨p, hlink.mono hsub, hparents⟩

theorem Phase.Traced.mono (hsub : extracted ⊆ extracted')
    (h : phase.Traced content maxDepth root extracted task) :
    phase.Traced content maxDepth root extracted' task := by
  have hfound : ∀ {objects : List FileObject},
      (∀ fo ∈ objects, fo.depth = task.depth + 1 ∧ Link content extracted task.uid fo.uid) →
        ∀ fo ∈ objects, fo.depth = task.depth + 1 ∧ Link content extracted' task.uid fo.uid :=
    fun hall fo hfo => ⟨(hall fo hfo).1, (hall fo hfo).2.mono hsub⟩
  cases phase with
  | started => trivial
  | initializing => trivial
  | unpacking => trivial
  | querying objects => exact hfound h
  | saving present objects => exact hfound h
  | posting objects => exact hfound h
  | updating objects => exact hfound h
  | recording entry calls kept =>
      exact ⟨fun call hcall => (h.1 call hcall).mono hsub, fun fo hfo => (h.2 fo hfo).mono hsub⟩
  | scheduling kept => exact fun fo hfo => (h fo hfo).mono hsub

theorem Traced.mono (hsub : extracted ⊆ extracted')
    (h : Traced content maxDepth root s extracted) : Traced content maxDepth root s extracted' := by
  refine ⟨⟨?_, ?_⟩, ?_, ?_⟩
  · exact fun fo hfo => (h.tasks.queue fo hfo).mono hsub
  · exact fun tid task phase hget => (h.tasks.task tid task phase hget).mono hsub
  · exact fun tid task phase hget => (h.phase tid task phase hget).mono hsub
  · intro cu hcu child pathLists hlists parent hparent
    exact (h.entry cu hcu child pathLists hlists parent hparent).mono hsub

theorem recordExtracted_subset (maxDepth : Nat) (a : Action) (s : State) (extracted : Finset Uid) :
    extracted ⊆ recordExtracted maxDepth a s extracted := by
  unfold recordExtracted
  split
  · split
    · split
      · exact Finset.subset_insert _ _
      · exact Finset.Subset.refl _
    · exact Finset.Subset.refl _
  · exact Finset.Subset.refl _

theorem recordExtracted_unpack {files : List ExtractedFile}
    (hget : s.threads.get? tid = some ⟨task, phase⟩) :
    recordExtracted maxDepth (.unpack tid files) s extracted =
      if task.depth < maxDepth then insert task.uid extracted else extracted := by
  simp only [recordExtracted, hget]

theorem Deterministic.undisturbed (h : Deterministic content s a) : Undisturbed s a := by
  cases a with
  | unpack tid files => trivial
  | extractionError tid => exact h.elim
  | _ => exact h

theorem Deterministic.files {files : List ExtractedFile}
    (h : Deterministic content s (.unpack tid files))
    (hget : s.threads.get? tid = some ⟨task, phase⟩) : files = content task.uid := by
  have hfinds : s.finds content tid files = true := h
  simpa [State.finds, hget] using hfinds

/-! ## The file objects -/

theorem phases_moved (hthreads : s'.threads = s.threads.set tid ⟨task', phase'⟩)
    (hphase : phase'.Traced content maxDepth root extracted task')
    (h : Traced content maxDepth root s extracted) :
    ∀ tid task phase, s'.threads.get? tid = some ⟨task, phase⟩ →
      phase.Traced content maxDepth root extracted task := by
  intro tid' task'' phase'' hget
  rw [hthreads] at hget
  rcases get?_moved hget with ⟨-, heq⟩ | ⟨-, hold⟩
  · cases heq
    exact hphase
  · exact h.phase tid' task'' phase'' hold

theorem phases_ended (hthreads : s'.threads = s.threads.erase tid)
    (h : Traced content maxDepth root s extracted) :
    ∀ tid task phase, s'.threads.get? tid = some ⟨task, phase⟩ →
      phase.Traced content maxDepth root extracted task := by
  intro tid' task' phase' hget
  rw [hthreads] at hget
  exact h.phase tid' task' phase' (get?_ended hget).2

/-- The files that a thread keeps have arrived. -/
theorem arrived_kept {objects : List FileObject} {cu : CurrentlyUnpacked} (hbasic : Basic s)
    (hget : s.threads.get? tid = some ⟨task, .updating objects⟩)
    (hentry : s.currentlyExtracted.get? root = some cu)
    (hin : InTime content maxDepth root s (.fetch tid))
    (h : Traced content maxDepth root s extracted)
    (hfo : fo ∈ (updateCurrentlyUnpacked cu task objects).kept) :
    Arrived content maxDepth root extracted fo := by
  have hmem := (updateCurrentlyUnpacked_kept cu task objects).subset hfo
  have hchildren : Children task objects := hbasic.ok _ _ _ hget
  have hphase : ∀ g ∈ objects, g.depth = task.depth + 1 ∧ Link content extracted task.uid g.uid :=
    h.phase _ _ _ hget
  rcases hphase fo hmem with ⟨hdepth, hlink⟩
  refine ⟨?_, ?_, Or.inr ⟨task.uid, hlink, (hchildren.child fo hmem).parents⟩⟩
  · rw [hdepth]
    exact (h.tasks.task _ _ _ hget).chain.step hlink.2
  · intro hlimit
    rcases updateCurrentlyUnpacked_new hfo with ⟨hrem, hdone, -⟩
    refine hin _ hget fo hmem hlimit ?_
    simp [State.unheard, hentry, hrem, hdone]

theorem next_phases (hnext : Next maxDepth s a s') (hok : Deterministic content s a)
    (hin : InTime content maxDepth root s a) (hbasic : Basic s) (hof : s.All (Of root))
    (h : Traced content maxDepth root s extracted) :
    ∀ tid task phase, s'.threads.get? tid = some ⟨task, phase⟩ →
      phase.Traced content maxDepth root (recordExtracted maxDepth a s extracted) task := by
  cases hnext with
  | addTask => exact h.phase
  | startThread => exact phases_moved (s := s) rfl trivial h
  | enterKnown hget => exact phases_moved (s := s) rfl trivial h
  | enterNew hget => exact phases_moved (s := s) rfl trivial h
  | enterFile hget => exact phases_moved (s := s) rfl trivial h
  | enterSkip hget => exact phases_ended (s := s) rfl h
  | storeEntry hget => exact phases_moved (s := s) rfl trivial h
  | @unpack tid files task hget =>
      refine phases_moved (s := s) rfl ?_ (h.mono (recordExtracted_subset _ _ _ _))
      obtain rfl := hok.files hget
      intro fo hfo
      rcases mem_unpack_content hfo with ⟨hdepth, hchild, hcontains⟩
      rw [recordExtracted_unpack hget, if_pos hdepth, unpack_task]
      exact ⟨hchild, Finset.mem_insert_self _ _, hcontains⟩
  | extractionError => exact hok.elim
  | query hget =>
      have hfound := h.phase _ _ _ hget
      exact phases_moved (s := s) rfl hfound h
  | save hget =>
      have hfound := h.phase _ _ _ hget
      exact phases_moved (s := s) rfl hfound h
  | postUnpack hget =>
      have hfound := h.phase _ _ _ hget
      exact phases_moved (s := s) rfl hfound h
  | dbInterfaceError => exact hok.elim
  | raises => exact hok.elim
  | raisesLocked => exact hok.elim
  | fetchNone hget =>
      refine phases_moved (s := s) rfl ?_ h
      intro fo hfo
      cases hfo
  | @fetch tid task objects r cu hget hlock hroot hentry =>
      have heq : some root = some r := (hof.task _ _ _ hget).symm.trans hroot
      cases heq
      have hphase : ∀ g ∈ objects,
          g.depth = task.depth + 1 ∧ Link content extracted task.uid g.uid := h.phase _ _ _ hget
      have hcu : s.books root = some cu := (books_of_no_copy (copy_free hlock root)).trans hentry
      refine phases_moved (s := s) rfl ⟨?_, ?_⟩ h
      · intro call hcall
        exact updateCurrentlyUnpacked_callsOnly (fun g hg => (hphase g hg).2) (h.entry cu hcu) hcall
      · exact fun fo hfo => arrived_kept hbasic hget hentry hin h hfo
  | @dbCall tid task entry call calls kept db hget hcall =>
      rcases h.phase _ _ _ hget with ⟨hcalls, hkept⟩
      exact phases_moved (s := s) rfl
        ⟨fun c hc => hcalls c (List.mem_cons_of_mem _ hc), hkept⟩ h
  | writeBackPop hget =>
      have hkept := (h.phase _ _ _ hget).2
      exact phases_moved (s := s) rfl hkept h
  | writeBackKeyError => exact phases_ended (s := s) rfl h
  | writeBackSet hget =>
      have hkept := (h.phase _ _ _ hget).2
      exact phases_moved (s := s) rfl hkept h
  | @put tid task fo rest hget =>
      have hkept : ∀ g ∈ fo :: rest, Arrived content maxDepth root extracted g :=
        h.phase _ _ _ hget
      refine phases_moved (s := s) rfl ?_ h
      exact fun g hg => hkept g (List.mem_cons_of_mem _ hg)
  | finish => exact phases_ended (s := s) rfl h
  | cancelAbsent => exact hok.elim
  | cancelTest => exact hok.elim
  | cancelRaises => exact hok.elim
  | cancelPop => exact hok.elim

theorem next_traced (hnext : Next maxDepth s a s') (hok : Deterministic content s a)
    (hin : InTime content maxDepth root s a) (hbasic : Basic s) (hof : s.All (Of root))
    (h : Traced content maxDepth root s extracted) :
    Traced content maxDepth root s' (recordExtracted maxDepth a s extracted) := by
  have hmono := h.mono (recordExtracted_subset maxDepth a s extracted)
  refine ⟨?_, next_phases hnext hok hin hbasic hof h, ?_⟩
  · refine next_tasks hnext ?_ ?_ ?_ hmono.tasks
    · exact fun task objects htask => ⟨htask.chain, htask.inTime, htask.origin⟩
    · rintro fw rfl
      exact hok.elim
    · rintro tid task fo rest - hget
      exact hmono.phase _ _ _ hget fo List.mem_cons_self
  · intro cu hcu
    have hraises : ∀ tid, a ≠ .raises tid := by
      rintro tid rfl
      exact hok.elim
    rcases next_known hnext hraises hbasic hcu with hold | ⟨tid, task, phase, hget, -, hnew⟩
    · exact hmono.entry cu hold
    · rcases hnew with rfl | ⟨old, objects, hold, rfl, -, rfl⟩
      · intro child pathLists hlists
        cases hlists
      · have hfound : ∀ fo ∈ objects, fo.depth = task.depth + 1 ∧
            Link content (recordExtracted maxDepth a s extracted) task.uid fo.uid :=
          hmono.phase _ _ _ hget
        exact updateCurrentlyUnpacked_delaysOnly (fun fo hfo => (hfound fo hfo).2)
          (hmono.entry old hold)

/-! ## The log and the database -/

theorem run_within {db db' : Db} {call : DbCall} (h : call.run db = some db') :
    db'.fileObject = db.fileObject ∧ ∀ p u, (p, u) ∈ db'.includedFiles →
      (p, u) ∈ db.includedFiles ∨ (p = call.parent ∧ u = call.child) := by
  cases call with
  | addVfp parent child paths =>
      simp only [DbCall.run, Db.addVfp] at h
      split at h
      · rename_i d hmerge
        rcases Db.mergeVirtualFilePaths_some hmerge with ⟨hrows, -, -, hedges, -⟩
        obtain rfl := Option.some.inj h
        refine ⟨hrows, ?_⟩
        intro p u he
        exact Or.inl (hedges ▸ he)
      · cases h
  | addChildToParent parent child =>
      obtain rfl := Option.some.inj h
      refine ⟨rfl, ?_⟩
      intro p u he
      rcases Finset.mem_union.1 he with hold | hnew
      · exact Or.inl hold
      · have hpair := Finset.mem_singleton.1 (Finset.mem_filter.1 hnew).1
        exact Or.inr (Prod.mk.inj hpair)

/-- A step that leaves the database alone and puts files into the queue at most. -/
theorem accounted_same {before : Db} (hdb : s'.db = s.db)
    (hreturned : s'.log.returned = s.log.returned) (hfound : s'.log.found = s.log.found)
    (hunpacked : s'.log.unpacked = s.log.unpacked) (hposted : s'.log.posted = s.log.posted)
    (hputs : s.log.puts ⊆ s'.log.puts) (h : Accounted content maxDepth root before s extracted) :
    Accounted content maxDepth root before s' extracted where
  chains := h.chains
  found := by
    rw [hreturned, hfound]
    exact h.found
  unpacked := by
    rw [hunpacked]
    exact h.unpacked
  posted := by
    rw [hposted, hdb]
    exact h.posted
  put := hputs h.put
  grows := hdb ▸ h.grows
  rows := by
    rw [hdb]
    exact h.rows
  edges := by
    rw [hdb]
    exact h.edges

/-- The extractor has found the files of the task. -/
theorem accounted_unpack {before : Db} {phase' : Phase}
    (hget : s.threads.get? tid = some ⟨task, phase⟩)
    (htraced : Traced content maxDepth root s extracted)
    (h : Accounted content maxDepth root before s extracted) :
    Accounted content maxDepth root before ({ s with
        log := { s.log with
          unpacked := s.log.unpacked ++ [task.uid]
          returned := s.log.returned ++
            (unpack maxDepth task (content task.uid)).2.map FileObject.uid
          found := s.log.found ++ (unpack maxDepth task (content task.uid)).2.flatMap
            (relationsOf task.uid) } }.setThread tid task' phase')
      (recordExtracted maxDepth (.unpack tid (content task.uid)) s extracted) := by
  have hsub := recordExtracted_subset maxDepth (.unpack tid (content task.uid)) s extracted
  have harrived := htraced.tasks.task _ _ _ hget
  -- the task is extracted, or nothing is
  have hnew : ∀ u ∈ recordExtracted maxDepth (.unpack tid (content task.uid)) s extracted,
      u ∈ extracted ∨ (u = task.uid ∧ task.depth < maxDepth) := by
    intro u hu
    rw [recordExtracted_unpack hget] at hu
    split at hu
    · rename_i hdepth
      rcases Finset.mem_insert.1 hu with rfl | hold
      · exact Or.inr ⟨rfl, hdepth⟩
      · exact Or.inl hold
    · exact Or.inl hu
  refine ⟨?_, ?_, ?_, h.posted, h.put, h.grows, ?_, ?_⟩
  · intro u hu
    rcases hnew u hu with hold | ⟨rfl, hdepth⟩
    · exact h.chains u hold
    · exact ⟨task.depth, hdepth, harrived.chain⟩
  · rintro p u ⟨hp, hcontains⟩
    rcases hnew p hp with hold | ⟨rfl, hdepth⟩
    · rcases h.found p u ⟨hold, hcontains⟩ with ⟨hreturned, hfound⟩
      exact ⟨List.mem_append_left _ hreturned, List.mem_append_left _ hfound⟩
    · rcases unpack_content hdepth hcontains with ⟨child, hchild, rfl⟩
      refine ⟨List.mem_append_right _ (List.mem_map_of_mem hchild), List.mem_append_right _ ?_⟩
      exact List.mem_flatMap.2 ⟨child, hchild, List.mem_cons_self⟩
  · intro u hu
    rcases List.mem_append.1 hu with hold | hself
    · exact (h.unpacked u hold).imp_left fun hmem => hsub hmem
    · rw [List.mem_singleton.1 hself]
      by_cases hdepth : task.depth < maxDepth
      · rw [recordExtracted_unpack hget, if_pos hdepth]
        exact Or.inl (Finset.mem_insert_self _ _)
      · exact Or.inr (harrived.inTime (Nat.le_of_not_lt hdepth))
  · intro u hu
    rcases h.rows u hu with hbefore | hroot | ⟨p, hlink⟩
    · exact Or.inl hbefore
    · exact Or.inr (Or.inl hroot)
    · exact Or.inr (Or.inr ⟨p, hlink.mono hsub⟩)
  · intro p u he
    exact (h.edges p u he).imp_right fun hlink => hlink.mono hsub

/-- The task is saved. -/
theorem accounted_save {before : Db} {present : Bool} {objects : List FileObject}
    (hget : s.threads.get? tid = some ⟨task, phase⟩)
    (hsave : s.db.saveObject present task = (db, none))
    (htraced : Traced content maxDepth root s extracted)
    (h : Accounted content maxDepth root before s extracted) :
    Accounted content maxDepth root before ({ s with db := db }.setThread tid task
      (.posting objects)) extracted := by
  have hwithin := Db.saveObject_within hsave
  have hgrows := (Db.saveObject_grows hsave).1
  have horigin := (htraced.tasks.task _ _ _ hget).origin
  refine ⟨h.chains, h.found, h.unpacked, ?_, h.put, h.grows.trans hgrows, ?_, ?_⟩
  · exact fun u hu => hgrows.rows u (h.posted u hu)
  · intro u hu
    rcases hwithin.rows u hu with hold | rfl
    · exact h.rows u hold
    · rcases horigin with ⟨hroot, -⟩ | ⟨p, hlink, -⟩
      · exact Or.inr (Or.inl hroot)
      · exact Or.inr (Or.inr ⟨p, hlink⟩)
  · intro p u he
    rcases hwithin.edges p u he with hold | ⟨rfl, hparent⟩
    · exact h.edges p u hold
    · rcases horigin with ⟨-, hnone⟩ | ⟨q, hlink, hparents⟩
      · rw [hnone] at hparent
        cases hparent
      · rw [hparents, List.mem_singleton] at hparent
        exact Or.inr (hparent.symm ▸ hlink)

/-- A call to the database. -/
theorem accounted_dbCall {before : Db} {entry : CurrentlyUnpacked} {call : DbCall}
    {calls : List DbCall} {kept : List FileObject}
    (hget : s.threads.get? tid = some ⟨task, .recording entry (call :: calls) kept⟩)
    (hcall : call.run s.db = some db) (htraced : Traced content maxDepth root s extracted)
    (h : Accounted content maxDepth root before s extracted) :
    Accounted content maxDepth root before ({ s with db := db }.setThread tid task phase')
      extracted := by
  have hgrows := (run_extends hcall).1.toGrows
  have hlink : Link content extracted call.parent call.child :=
    (htraced.phase _ _ _ hget).1 call List.mem_cons_self
  rcases run_within hcall with ⟨hrows, hedges⟩
  refine ⟨h.chains, h.found, h.unpacked, ?_, h.put, h.grows.trans hgrows, ?_, ?_⟩
  · exact fun u hu => hgrows.rows u (h.posted u hu)
  · intro u hu
    exact h.rows u (hrows ▸ hu)
  · intro p u he
    rcases hedges p u he with hold | ⟨rfl, rfl⟩
    · exact h.edges p u hold
    · exact Or.inr hlink

theorem next_accounted {before : Db} (hnext : Next maxDepth s a s') (hok : Deterministic content s a)
    (hbacked : Backed root s) (htraced : Traced content maxDepth root s extracted)
    (h : Accounted content maxDepth root before s extracted) :
    Accounted content maxDepth root before s' (recordExtracted maxDepth a s extracted) := by
  have hputs : s.log.puts ⊆ s.log.puts := List.Subset.refl _
  cases hnext with
  | addTask => exact hok.elim
  | startThread => exact accounted_same (s := s) rfl rfl rfl rfl rfl hputs h
  | enterKnown => exact accounted_same (s := s) rfl rfl rfl rfl rfl hputs h
  | enterNew => exact accounted_same (s := s) rfl rfl rfl rfl rfl hputs h
  | enterFile => exact accounted_same (s := s) rfl rfl rfl rfl rfl hputs h
  | enterSkip => exact accounted_same (s := s) rfl rfl rfl rfl rfl hputs h
  | storeEntry => exact accounted_same (s := s) rfl rfl rfl rfl rfl hputs h
  | @unpack tid files task hget =>
      obtain rfl := hok.files hget
      exact accounted_unpack hget htraced h
  | extractionError => exact hok.elim
  | query => exact accounted_same (s := s) rfl rfl rfl rfl rfl hputs h
  | save hget hsave => exact accounted_save hget hsave htraced h
  | @postUnpack tid task objects hget =>
      -- the task was saved before
      have hrow : task.uid ∈ s.db.fileObject := (hbacked.task _ _ _ hget).2
      refine ⟨h.chains, h.found, h.unpacked, ?_, h.put, h.grows, h.rows, h.edges⟩
      intro u hu
      rcases List.mem_append.1 hu with hold | hself
      · exact h.posted u hold
      · rw [List.mem_singleton.1 hself]
        exact hrow
  | dbInterfaceError => exact hok.elim
  | raises => exact hok.elim
  | raisesLocked => exact hok.elim
  | fetchNone => exact accounted_same (s := s) rfl rfl rfl rfl rfl hputs h
  | fetch => exact accounted_same (s := s) rfl rfl rfl rfl rfl hputs h
  | dbCall hget hcall => exact accounted_dbCall hget hcall htraced h
  | writeBackPop => exact accounted_same (s := s) rfl rfl rfl rfl rfl hputs h
  | writeBackKeyError => exact accounted_same (s := s) rfl rfl rfl rfl rfl hputs h
  | writeBackSet => exact accounted_same (s := s) rfl rfl rfl rfl rfl hputs h
  | put => exact accounted_same (s := s) rfl rfl rfl rfl rfl (List.subset_append_left _ _) h
  | finish => exact accounted_same (s := s) rfl rfl rfl rfl rfl hputs h
  | cancelAbsent => exact hok.elim
  | cancelTest => exact hok.elim
  | cancelRaises => exact hok.elim
  | cancelPop => exact hok.elim

/-! ## Every run -/

theorem reach_of_upload {before : Db} {fw : FileObject} {ok : State → Action → Prop}
    (h : (upload maxDepth before fw).Reach ok s) : (single maxDepth fw).Reach ok s := by
  rcases h with ⟨s₀, as, hinit, hsteps⟩
  refine ⟨s₀, as, ⟨before, hinit⟩, ?_⟩
  induction hsteps with
  | nil => exact Machine.Steps.nil _
  | snoc _ hok hstep ih => exact Machine.Steps.snoc ih hok hstep

/-- The firmware in the queue has arrived, and nothing has happened yet. -/
theorem init_traced {before : Db} {fw : FileObject} (hmax : 1 ≤ maxDepth) (hfw : Submitted fw)
    (h : (upload maxDepth before fw).Init s) :
    Traced content maxDepth fw.uid s ∅ ∧ Accounted content maxDepth fw.uid before s ∅ := by
  rcases addTask_eq_some h with ⟨-, rfl⟩
  have hnone : ∀ {p u : Uid}, ¬ Link content ∅ p u := fun hlink => Finset.notMem_empty _ hlink.1
  refine ⟨⟨⟨?_, ?_⟩, ?_, ?_⟩, ?_⟩
  · intro fo hfo
    rw [List.mem_singleton.1 hfo]
    refine ⟨?_, ?_, Or.inl ⟨rfl, hfw.parents⟩⟩
    · show Chain (Contains content) fw.uid fw.depth fw.uid
      rw [hfw.depth]
      exact Chain.root
    · intro hlimit
      have hdepth : maxDepth ≤ fw.depth := hlimit
      rw [hfw.depth] at hdepth
      omega
  · intro tid task phase hget
    cases hget
  · intro tid task phase hget
    cases hget
  · intro cu hcu
    cases hcu
  · refine ⟨?_, ?_, ?_, ?_, List.mem_singleton.2 rfl, Db.Grows.refl _, fun u hu => Or.inl hu,
      fun p u he => Or.inl he⟩
    · intro u hu
      cases hu
    · exact fun p u hlink => absurd hlink hnone
    · intro u hu
      cases hu
    · intro u hu
      cases hu

/-- Nothing is raised, nothing is cancelled, and extraction is deterministic. -/
def Regular (content : Uid → List ExtractedFile) (p : State × Finset Uid) (a : Action) : Prop :=
  Deterministic content p.1 a

instance (content : Uid → List ExtractedFile) (p : State × Finset Uid) (a : Action) :
    Decidable (Regular content p a) :=
  inferInstanceAs (Decidable (Deterministic content p.1 a))

/-- No file is taken up too late either. -/
def Orderly (content : Uid → List ExtractedFile) (maxDepth : Nat) (root : Uid)
    (p : State × Finset Uid) (a : Action) : Prop :=
  Regular content p a ∧ InTime content maxDepth root p.1 a

instance (content : Uid → List ExtractedFile) (maxDepth : Nat) (root : Uid)
    (p : State × Finset Uid) (a : Action) : Decidable (Orderly content maxDepth root p a) :=
  inferInstanceAs (Decidable (_ ∧ _))

theorem reach_traced {before : Db} {fw : FileObject} {p : State × Finset Uid} (hmax : 1 ≤ maxDepth)
    (hfw : Submitted fw)
    (h : (extraction maxDepth before fw).Reach (Orderly content maxDepth fw.uid) p) :
    (single maxDepth fw).Reach Undisturbed p.1 ∧ Traced content maxDepth fw.uid p.1 p.2 ∧
      Accounted content maxDepth fw.uid before p.1 p.2 := by
  have hsingle : ∀ q, (extraction maxDepth before fw).Reach (Orderly content maxDepth fw.uid) q →
      (single maxDepth fw).Reach Undisturbed q.1 := by
    rintro q ⟨q₀, as, hinit, hsteps⟩
    have hreach : (extraction maxDepth before fw).Reach (fun r => Undisturbed r.1) q :=
      ⟨q₀, as, hinit, hsteps.mono fun _ _ hok => Deterministic.undisturbed hok.1⟩
    exact reach_of_upload hreach.forget
  refine ⟨hsingle p h, ?_⟩
  have hinit : ∀ q, (extraction maxDepth before fw).Init q →
      Traced content maxDepth fw.uid q.1 q.2 ∧
        Accounted content maxDepth fw.uid before q.1 q.2 := by
    rintro ⟨s, extracted⟩ ⟨hs, hextracted⟩
    have hempty : extracted = ∅ := hextracted
    subst hempty
    exact init_traced hmax hfw hs
  refine Machine.reach_invariant_with (J := fun q => (single maxDepth fw).Reach Undisturbed q.1)
    hsingle hinit ?_ h
  intro q a q' hok hstep hreach hinv
  rcases hinv with ⟨htraced, haccounted⟩
  rcases Machine.step_withHistory hstep with ⟨hs, hextracted⟩
  have hnext := next_of_step hs
  have hinv := reach_single hreach
  rw [hextracted]
  exact ⟨next_traced hnext hok.1 hok.2 hinv.basic hinv.of htraced,
    next_accounted hnext hok.1 (reach_backed hreach) htraced haccounted⟩

/-! ## The result -/

/-- In an idle scheduler everything that was put into the queue was unpacked and posted. -/
theorem Once.put_idle {known : Finset Uid} (h : Once root s known) (hidle : s.Idle)
    (hu : u ∈ s.log.puts) : u ∈ s.log.unpacked ∧ u ∈ s.log.posted := by
  have hheld := held_of_idle hidle
  have hcount : ∀ t : Tally, (t.log s.log).count u = if u ∈ known then 1 else 0 := by
    intro t
    have hcounted := h.counted t u
    rw [hheld, total_zero] at hcounted
    exact hcounted
  have hputs : s.log.puts.count u = if u ∈ known then 1 else 0 := hcount .put
  have hpos : 0 < s.log.puts.count u := List.count_pos_iff.2 hu
  have hknown : u ∈ known := by
    by_contra hno
    rw [if_neg hno] at hputs
    omega
  have hunpacked : s.log.unpacked.count u = 1 := by
    have hcounted : s.log.unpacked.count u = _ := hcount .unpacked
    rwa [if_pos hknown] at hcounted
  have hposted : s.log.posted.count u = 1 := by
    have hcounted : s.log.posted.count u = _ := hcount .posted
    rwa [if_pos hknown] at hcounted
  exact ⟨List.count_pos_iff.1 (by omega), List.count_pos_iff.1 (by omega)⟩

/-- What is within the depth limit was extracted when all is done. -/
theorem extracted_of_withinDepth {before : Db} (hidle : s.Idle) {known : Finset Uid}
    (honce : Once root s known) (h : Accounted content maxDepth root before s extracted) {n : Nat}
    (hn : n < maxDepth) (hchain : Chain (Contains content) root n u) : u ∈ extracted := by
  have hdone : ∀ v m, m < maxDepth → Chain (Contains content) root m v → v ∈ s.log.unpacked →
      v ∈ extracted := by
    intro v m hm hv hunpacked
    rcases h.unpacked v hunpacked with hmem | hnot
    · exact hmem
    · exact absurd ⟨m, hm, hv⟩ hnot
  induction hchain with
  | root => exact hdone root 0 hn Chain.root (honce.put_idle hidle h.put).1
  | @step m p u hparent hcontains ih =>
      -- the parent was extracted, so the file was returned, and unpacked
      have hp : p ∈ extracted := ih (by omega)
      have hreturned := (h.found p u ⟨hp, hcontains⟩).1
      have hcount : s.log.unpacked.count u = 1 := honce.counted_idle hidle .unpacked hreturned
      have hunpacked : u ∈ s.log.unpacked := List.count_pos_iff.1 (by omega)
      exact hdone u (m + 1) hn (hparent.step hcontains) hunpacked

/-- One firmware, any containment relation and any interleaving of the workers:
as long as no file is taken up at the depth limit that a shorter chain leads to
as well, the run ends with the files that the chains below the limit lead to. -/
theorem unpacked_withinDepth {before : Db} {fw : FileObject} {p : State × Finset Uid}
    (hmax : 1 ≤ maxDepth) (hfw : Submitted fw)
    (h : (extraction maxDepth before fw).Reach (Orderly content maxDepth fw.uid) p)
    (hidle : p.1.Idle) : Result content maxDepth fw.uid before p.1.db p.2 := by
  rcases reach_traced hmax hfw h with ⟨hsingle, -, haccounted⟩
  rcases reach_once hsingle with ⟨known, honce⟩
  have hholds := ((unpacked_once hsingle).2 hidle).2.2
  refine ⟨?_, ?_, ?_⟩
  · intro u
    constructor
    · exact haccounted.chains u
    · rintro ⟨n, hn, hchain⟩
      exact extracted_of_withinDepth hidle honce haccounted hn hchain
  · intro u
    constructor
    · exact haccounted.rows u
    · rintro (hbefore | rfl | ⟨q, hlink⟩)
      · exact haccounted.grows.rows u hbefore
      · exact haccounted.posted _ (honce.put_idle hidle haccounted.put).2
      · have hreturned := (haccounted.found q u hlink).1
        have hcount : p.1.log.posted.count u = 1 := honce.counted_idle hidle .posted hreturned
        exact haccounted.posted u (List.count_pos_iff.1 (by omega))
  · intro q u
    constructor
    · exact haccounted.edges q u
    · rintro (hbefore | hlink)
      · exact haccounted.grows.edges _ hbefore
      · exact hholds _ (haccounted.found q u hlink).2

/-! ## Who is faster -/

/-- The image contains `a` and `c`, and `d` is in `c` and in the `b` of `a`. -/
def diamond : Uid → List ExtractedFile
  | "fw" => [⟨"a", "a", 1, "a", "/a"⟩, ⟨"c", "c", 1, "c", "/c"⟩]
  | "a" => [⟨"b", "b", 1, "b", "/b"⟩]
  | "b" => [⟨"d", "d", 1, "d", "/d"⟩]
  | "c" => [⟨"d", "d", 1, "d", "/d"⟩]
  | "d" => [⟨"e", "e", 1, "e", "/e"⟩]
  | _ => []

/-- A worker unpacks a file up to `_update_currently_unpacked`. -/
def unpackDiamond (tid : Nat) (u : Uid) : List Action :=
  [.unpack tid (diamond u), .query tid, .save tid, .postUnpack tid, .fetch tid]

/-- The image is unpacked, and a worker has begun with each of its two files. -/
def diamondBegun : List Action :=
  [.startThread 0, .enter 0, .storeEntry 0] ++ unpackDiamond 0 "fw" ++
    [.writeBack 0, .put 0, .put 0, .finish 0, .startThread 1, .enter 1, .startThread 2, .enter 2]

/-- The worker with `c` comes first to `d`. -/
def shortFirst : List Action :=
  diamondBegun ++ unpackDiamond 2 "c" ++ [.writeBack 2, .put 2, .finish 2, .startThread 2, .enter 2] ++
    unpackDiamond 2 "d" ++ [.writeBack 2, .put 2, .finish 2, .startThread 2, .enter 2] ++
    unpackDiamond 2 "e" ++ [.writeBack 2, .finish 2] ++
    unpackDiamond 1 "a" ++ [.writeBack 1, .put 1, .finish 1, .startThread 1, .enter 1] ++
    unpackDiamond 1 "b" ++ [.dbCall 1, .dbCall 1, .writeBack 1, .finish 1]

/-- The workers with `a` and `b` come first. -/
def longFirst : List Action :=
  diamondBegun ++ unpackDiamond 1 "a" ++ [.writeBack 1, .put 1, .finish 1, .startThread 1, .enter 1] ++
    unpackDiamond 1 "b" ++ [.writeBack 1, .put 1, .finish 1, .startThread 1, .enter 1] ++
    unpackDiamond 1 "d" ++ [.writeBack 1, .finish 1] ++
    unpackDiamond 2 "c" ++ [.dbCall 2, .dbCall 2, .writeBack 2, .finish 2]

theorem uploaded_init : (extraction 3 Db.empty image).Init (uploaded, ∅) := ⟨rfl, rfl⟩

/-- The theorem at the end of the run `shortFirst`. -/
theorem unpacked_withinDepth_shortFirst : ∃ p : State × Finset Uid,
    (extraction 3 Db.empty image).Reach (Orderly diamond 3 "fw") p ∧ p.1.Idle ∧ "d" ∈ p.2 ∧
      Result diamond 3 "fw" Db.empty p.1.db p.2 := by
  have hrun : ∃ p : State × Finset Uid, (extraction 3 Db.empty image).Reach (Orderly diamond 3 "fw") p ∧
      p.1.Idle ∧ "d" ∈ p.2 := Machine.exists_reach uploaded_init shortFirst (by decide +kernel)
  rcases hrun with ⟨p, hreach, hidle, hd⟩
  exact ⟨p, hreach, hidle, hd, unpacked_withinDepth (by decide) ⟨rfl, rfl, rfl⟩ hreach hidle⟩

/-- Two chains of two and three steps lead to `d`. When the longer one is faster,
`d` is not extracted, and what it contains is missing. -/
theorem unpacked_tooDeep : ∃ p : State × Finset Uid,
    (extraction 3 Db.empty image).Reach (Regular diamond) p ∧ p.1.Idle ∧
      WithinDepth diamond 3 "fw" "d" ∧ "d" ∉ p.2 ∧ "e" ∉ p.1.db.fileObject ∧
        ¬ Result diamond 3 "fw" Db.empty p.1.db p.2 := by
  have hwithin : WithinDepth diamond 3 "fw" "d" := by decide +kernel
  have hrun : ∃ p : State × Finset Uid, (extraction 3 Db.empty image).Reach (Regular diamond) p ∧
      p.1.Idle ∧ "d" ∉ p.2 ∧ "e" ∉ p.1.db.fileObject :=
    Machine.exists_reach uploaded_init longFirst (by decide +kernel)
  rcases hrun with ⟨p, hreach, hidle, hd, he⟩
  refine ⟨p, hreach, hidle, hwithin, hd, he, ?_⟩
  intro hresult
  exact hd ((hresult.chains "d").2 hwithin)

end FactCore.Unpacking
