import FactCore.Scheduler.UnpackingInvariants

/-! # The unpacking of a firmware comes to its end

The entry of a firmware is removed by the thread that finds nothing remaining,
so what it lists as remaining must be worked on: by a task in the queue, by a
thread, or by a found file that a thread is about to put into the queue. The
only steps that may take a listed file out of all of these are the ones that
end a thread without the bookkeeping, an exception that the wrapper swallows
and the skip of a file whose firmware has no entry. `KeepsTrack` asks of these
steps that they do not.
-/

namespace FactCore.Unpacking

open Tla Unpacker

/-- The file object is worked on for the firmware: it has been recorded for it,
and its own bookkeeping is still to be done. -/
def WorksFor (root u : Uid) (x : Stage × FileObject) : Prop :=
  x.1 ≠ .extracted ∧ x.2.rootUid = some root ∧ x.2.uid = u

instance (root u : Uid) (x : Stage × FileObject) : Decidable (WorksFor root u x) :=
  inferInstanceAs (Decidable (_ ∧ _))

/-- What the copy of the entry lists that a recording thread holds. -/
def Phase.remaining : Phase → Finset Uid
  | .recording entry _ _ => entry.remaining
  | _ => ∅

/-- The thread holds a copy of the entry that lists the file. -/
def Thread.Lists (th : Thread) (root u : Uid) : Prop :=
  th.task.rootUid = some root ∧ u ∈ th.phase.remaining

instance (th : Thread) (root u : Uid) : Decidable (th.Lists root u) :=
  inferInstanceAs (Decidable (_ ∧ _))

/-- The file is remaining in the entry of the firmware. -/
def EntryLists (entries : Dict Uid CurrentlyUnpacked) (root u : Uid) : Prop :=
  ∃ cu ∈ entries.get? root, u ∈ cu.remaining

/-- The file is remaining in a copy of the entry. -/
def CopyLists (threads : Dict Nat Thread) (root u : Uid) : Prop :=
  ∃ th ∈ threads.values, th.Lists root u

/-- The file is remaining, in the entry of the firmware or in a copy of it. -/
def State.Listed (s : State) (root u : Uid) : Prop :=
  EntryLists s.currentlyExtracted root u ∨ CopyLists s.threads root u

instance (s : State) (root u : Uid) : Decidable (s.Listed root u) :=
  inferInstanceAs (Decidable ((∃ cu ∈ s.currentlyExtracted.get? root, u ∈ cu.remaining) ∨
    ∃ th ∈ s.threads.values, th.Lists root u))

/-- Some of the file objects is worked on for the firmware. -/
def WorkedOn (held : Multiset (Stage × FileObject)) (root u : Uid) : Prop :=
  ∃ x ∈ held, WorksFor root u x

instance (held : Multiset (Stage × FileObject)) (root u : Uid) : Decidable (WorkedOn held root u) :=
  Multiset.decidableExistsMultiset

/-- No file that is listed besides the thread is worked on by the thread alone. -/
def State.MayEnd (s : State) (tid : Nat) : Prop :=
  ∀ th ∈ s.threads.get? tid, ∀ x ∈ th.held, ∀ root ∈ x.2.rootUid, x.1 ≠ .extracted →
    (s.endThread tid).Listed root x.2.uid → WorkedOn (s.heldBeside tid) root x.2.uid

instance (s : State) (tid : Nat) : Decidable (s.MayEnd tid) :=
  inferInstanceAs (Decidable (∀ th ∈ s.threads.get? tid, _))

/-- The thread will skip its file. -/
def State.Skips (s : State) (tid : Nat) : Prop :=
  ∃ th ∈ s.threads.get? tid, th.task.isFirmware = false ∧ (s.entryOf th.task.rootUid).isNone

instance (s : State) (tid : Nat) : Decidable (s.Skips tid) :=
  inferInstanceAs (Decidable (∃ th ∈ s.threads.get? tid, _))

/-- A thread that ends without the bookkeeping, because an exception is raised
or its file is skipped, is not the only one to work on a listed file. -/
def KeepsTrack (s : State) : Action → Prop
  | .raises tid => s.MayEnd tid
  | .enter tid => s.Skips tid → s.MayEnd tid
  | _ => True

instance (s : State) (a : Action) : Decidable (KeepsTrack s a) := by
  unfold KeepsTrack
  split <;> infer_instance

/-- What is listed is worked on, and no entry is empty. -/
structure Tracked (s : State) : Prop where
  pending : ∀ root u, s.Listed root u → WorkedOn s.held root u
  nonempty : ∀ root cu, s.currentlyExtracted.get? root = some cu → cu.remaining ≠ ∅

variable {s s' : State} {tid : Nat} {task : FileObject} {phase : Phase} {root u : Uid}

/-! ## Who works on a file -/

/-- A file that was worked on still is, unless only what was taken out did so. -/
theorem workedOn_moved {before rest : Multiset (Stage × FileObject)}
    (after : Multiset (Stage × FileObject)) (h : WorkedOn (before + rest) root u) :
    WorkedOn (after + rest) root u ∨ WorkedOn before root u := by
  rcases h with ⟨x, hx, hworks⟩
  rcases Multiset.mem_add.1 hx with hin | hrest
  · exact Or.inr ⟨x, hin, hworks⟩
  · exact Or.inl ⟨x, Multiset.mem_add.2 (Or.inr hrest), hworks⟩

theorem workedOn_left {held rest : Multiset (Stage × FileObject)} (h : WorkedOn held root u) :
    WorkedOn (held + rest) root u := by
  rcases h with ⟨x, hx, hworks⟩
  exact ⟨x, Multiset.mem_add.2 (Or.inl hx), hworks⟩

theorem workedOn_congr {held held' : Multiset (Stage × FileObject)} (heq : held = held')
    (h : WorkedOn held' root u) : WorkedOn held root u :=
  heq ▸ h

/-- The bookkeeping for the task of the thread is still to be done. -/
def Phase.Open : Phase → Prop
  | .scheduling _ => False
  | _ => True

/-- A thread works on its task until the bookkeeping is done, and on the files
that it keeps. -/
theorem workedOn_held : WorkedOn (phase.held task) root u ↔
    (phase.Open ∧ task.rootUid = some root ∧ task.uid = u) ∨
      ∃ fo ∈ phase.kept, fo.rootUid = some root ∧ fo.uid = u := by
  have hone : ∀ stage : Stage, stage ≠ .extracted → (WorkedOn {(stage, task)} root u ↔
      (True ∧ task.rootUid = some root ∧ task.uid = u) ∨
        ∃ fo ∈ ([] : List FileObject), fo.rootUid = some root ∧ fo.uid = u) := by
    intro stage hstage
    simp [WorkedOn, WorksFor, hstage]
  have hextracted : ∀ (stage : Stage) (extracted : List FileObject), stage ≠ .extracted →
      (WorkedOn ((stage, task) ::ₘ ↑(extracted.map (Prod.mk Stage.extracted))) root u ↔
        (True ∧ task.rootUid = some root ∧ task.uid = u) ∨
          ∃ fo ∈ ([] : List FileObject), fo.rootUid = some root ∧ fo.uid = u) := by
    intro stage extracted hstage
    simp [WorkedOn, WorksFor, hstage]
  cases phase with
  | started => exact hone _ (by decide)
  | initializing => exact hone _ (by decide)
  | unpacking => exact hone _ (by decide)
  | querying extracted => exact hextracted _ _ (by decide)
  | saving present extracted => exact hextracted _ _ (by decide)
  | posting extracted => exact hextracted _ _ (by decide)
  | updating extracted => exact hextracted _ _ (by decide)
  | recording entry calls kept => simp [Phase.held, WorkedOn, WorksFor, Phase.Open, Phase.kept]
  | scheduling kept => simp [Phase.held, WorkedOn, WorksFor, Phase.Open, Phase.kept]

/-! ## Which files are listed -/

theorem copyLists_iff {threads : Dict Nat Thread} : CopyLists threads root u ↔
    ∃ tid th, threads.get? tid = some th ∧ th.Lists root u := by
  constructor
  · rintro ⟨th, hth, hlists⟩
    rcases Dict.mem_values.1 hth with ⟨tid, hget⟩
    exact ⟨tid, th, hget, hlists⟩
  · rintro ⟨tid, th, hget, hlists⟩
    exact ⟨th, Dict.mem_values.2 ⟨tid, hget⟩, hlists⟩

theorem copyLists_moved {threads : Dict Nat Thread} {th : Thread}
    (h : CopyLists (threads.set tid th) root u) :
    th.Lists root u ∨ CopyLists (threads.erase tid) root u := by
  rcases copyLists_iff.1 h with ⟨tid', th', hget, hlists⟩
  rcases get?_moved hget with ⟨-, rfl⟩ | ⟨hne, hold⟩
  · exact Or.inl hlists
  · refine Or.inr (copyLists_iff.2 ⟨tid', th', ?_, hlists⟩)
    rw [Dict.get?_erase_ne _ hne]
    exact hold

theorem copyLists_erase {threads : Dict Nat Thread} (h : CopyLists (threads.erase tid) root u) :
    CopyLists threads root u := by
  rcases copyLists_iff.1 h with ⟨tid', th', hget, hlists⟩
  exact copyLists_iff.2 ⟨tid', th', (get?_ended hget).2, hlists⟩

/-- A thread that lists something is recording. -/
theorem lists_recording {th : Thread} (h : th.Lists root u) : ∃ entry calls kept,
    th.phase = .recording entry calls kept ∧ th.task.rootUid = some root ∧ u ∈ entry.remaining := by
  rcases h with ⟨hroot, hu⟩
  cases hphase : th.phase with
  | recording entry calls kept =>
      rw [hphase] at hu
      exact ⟨entry, calls, kept, rfl, hroot, hu⟩
  | _ => simp [hphase, Phase.remaining] at hu

/-- While the lock is free there is no copy. -/
theorem Basic.no_copy (h : Basic s) (hlock : s.syncLock = none) : ¬ CopyLists s.threads root u := by
  intro hcopy
  rcases copyLists_iff.1 hcopy with ⟨tid, ⟨task, phase⟩, hget, hlists⟩
  rcases lists_recording hlists with ⟨entry, calls, kept, hphase, -⟩
  simp only at hphase
  subst hphase
  exact h.free hlock hget trivial

/-- While a thread is in a critical section no other one has a copy. -/
theorem Basic.no_other_copy (h : Basic s) (hget : s.threads.get? tid = some ⟨task, phase⟩)
    (hcrit : phase.Critical) : ¬ CopyLists (s.threads.erase tid) root u := by
  intro hcopy
  rcases copyLists_iff.1 hcopy with ⟨tid', ⟨task', phase'⟩, hget', hlists⟩
  rcases lists_recording hlists with ⟨entry, calls, kept, hphase, -⟩
  simp only at hphase
  subst hphase
  rcases get?_ended hget' with ⟨hne, hold⟩
  exact hne (h.unique hget hcrit hold trivial)

/-! ## Steps -/

/-- A thread moves on and still works on its files; the entries stay. -/
theorem tracked_moved {task' : FileObject} {phase' : Phase}
    (hget : s.threads.get? tid = some ⟨task, phase⟩)
    (hthreads : s'.threads = s.threads.set tid ⟨task', phase'⟩) (hqueue : s'.inQueue = s.inQueue)
    (hentries : s'.currentlyExtracted = s.currentlyExtracted)
    (hlists : ∀ root u, Thread.Lists ⟨task', phase'⟩ root u →
      s.Listed root u ∨ WorkedOn (phase'.held task') root u)
    (hworks : ∀ root u, WorkedOn (phase.held task) root u → WorkedOn (phase'.held task') root u)
    (h : Tracked s) : Tracked s' := by
  refine ⟨?_, hentries ▸ h.nonempty⟩
  intro root u hlisted
  rw [held_moved hthreads hqueue]
  have hold : s.Listed root u ∨ WorkedOn (phase'.held task') root u := by
    rcases hlisted with hentry | hcopy
    · exact Or.inl (Or.inl (hentries ▸ hentry))
    · rw [hthreads] at hcopy
      rcases copyLists_moved hcopy with hnew | hother
      · exact hlists root u hnew
      · exact Or.inl (Or.inr (copyLists_erase hother))
  rcases hold with hold | hnew
  · have hworked := h.pending root u hold
    rw [held_thread hget] at hworked
    rcases workedOn_moved _ hworked with hkeep | hmine
    · exact hkeep
    · exact workedOn_left (hworks root u hmine)
  · exact workedOn_left hnew

/-- The thread ends, and no listed file is worked on by it alone. -/
theorem tracked_ended (hget : s.threads.get? tid = some ⟨task, phase⟩)
    (hthreads : s'.threads = s.threads.erase tid) (hqueue : s'.inQueue = s.inQueue)
    (hentries : s'.currentlyExtracted = s.currentlyExtracted)
    (hmay : ∀ root u, s'.Listed root u → WorkedOn (phase.held task) root u →
      WorkedOn (s.heldBeside tid) root u)
    (h : Tracked s) : Tracked s' := by
  refine ⟨?_, hentries ▸ h.nonempty⟩
  intro root u hlisted
  have hold : s.Listed root u := by
    rcases hlisted with hentry | hcopy
    · exact Or.inl (hentries ▸ hentry)
    · rw [hthreads] at hcopy
      exact Or.inr (copyLists_erase hcopy)
  have hworked := h.pending root u hold
  rw [held_thread hget] at hworked
  rw [held_ended hthreads hqueue]
  rcases workedOn_moved 0 hworked with hkeep | hmine
  · rwa [zero_add] at hkeep
  · exact hmay root u hlisted hmine

/-- What `KeepsTrack` says about a thread that ends. -/
theorem mayEnd_worked (hget : s.threads.get? tid = some ⟨task, phase⟩) (hmay : s.MayEnd tid)
    (hlisted : (s.endThread tid).Listed root u) (hworked : WorkedOn (phase.held task) root u) :
    WorkedOn (s.heldBeside tid) root u := by
  rcases hworked with ⟨x, hx, hstage, hroot, rfl⟩
  exact hmay ⟨task, phase⟩ hget x hx root hroot hstage hlisted

/-- A thread that is not recording lists nothing. -/
theorem not_lists (hphase : ∀ entry calls kept, phase ≠ .recording entry calls kept) :
    ¬ Thread.Lists ⟨task, phase⟩ root u := by
  intro hlists
  rcases lists_recording hlists with ⟨entry, calls, kept, heq, -⟩
  exact hphase entry calls kept heq

/-- A thread moves on without a copy of the entry, keeping its files. -/
theorem tracked_plain {task' : FileObject} {phase' : Phase}
    (hget : s.threads.get? tid = some ⟨task, phase⟩)
    (hthreads : s'.threads = s.threads.set tid ⟨task', phase'⟩) (hqueue : s'.inQueue = s.inQueue)
    (hentries : s'.currentlyExtracted = s.currentlyExtracted)
    (hphase : ∀ entry calls kept, phase' ≠ .recording entry calls kept)
    (hopen : phase.Open → phase'.Open) (hkept : phase'.kept = phase.kept)
    (huid : task'.uid = task.uid) (hroot : task'.rootUid = task.rootUid)
    (h : Tracked s) : Tracked s' := by
  refine tracked_moved hget hthreads hqueue hentries
    (fun root u hlists => absurd hlists (not_lists hphase)) ?_ h
  intro root u hworked
  rw [workedOn_held] at hworked ⊢
  rw [huid, hroot, hkept]
  rcases hworked with ⟨ho, hmine⟩ | hkeeps
  · exact Or.inl ⟨hopen ho, hmine⟩
  · exact Or.inr hkeeps

/-- A recording thread works for its own firmware. -/
theorem workedOn_root {entry : CurrentlyUnpacked} {calls : List DbCall} {kept : List FileObject}
    {r : Uid} (hroot : task.rootUid = some r) (hchildren : Children task kept)
    (h : WorkedOn ((Phase.recording entry calls kept).held task) root u) : root = r := by
  rcases workedOn_held.1 h with ⟨-, hmine, -⟩ | ⟨fo, hfo, hmine, -⟩
  · exact Option.some.inj (hmine.symm.trans hroot)
  · have hchild := (hchildren.child fo hfo).rootUid
    exact Option.some.inj (hmine.symm.trans (hchild.trans hroot))

/-- The end of the bookkeeping of a thread, after which `entries` are stored. -/
theorem tracked_writeBack (entries : Dict Uid CurrentlyUnpacked) {entry : CurrentlyUnpacked}
    {kept : List FileObject} {r : Uid}
    (hget : s.threads.get? tid = some ⟨task, .recording entry [] kept⟩)
    (hroot : task.rootUid = some r) (hbasic : Basic s)
    (hothers : ∀ root, root ≠ r → entries.get? root = s.currentlyExtracted.get? root)
    (hown : ∀ cu, entries.get? r = some cu → cu = entry ∧ cu.remaining ≠ ∅)
    (hthreads : s'.threads = s.threads.set tid ⟨task, .scheduling kept⟩)
    (hqueue : s'.inQueue = s.inQueue) (hentries : s'.currentlyExtracted = entries)
    (h : Tracked s) : Tracked s' := by
  have hok := hbasic.ok _ _ _ hget
  refine ⟨?_, ?_⟩
  · intro root u hlisted
    rw [held_moved hthreads hqueue]
    rcases hlisted with ⟨cu, hcu, hu⟩ | hcopy
    · rw [hentries] at hcu
      by_cases hr : root = r
      · -- the entry that was written back: its copy was tracked, and the task is done
        subst hr
        rcases hown cu hcu with ⟨rfl, -⟩
        have hlists : s.Listed root u :=
          Or.inr (copyLists_iff.2 ⟨tid, _, hget, hroot, hu⟩)
        have hworked := h.pending root u hlists
        rw [held_thread hget] at hworked
        rcases workedOn_moved _ hworked with hkeep | hmine
        · exact hkeep
        · refine workedOn_left (workedOn_held.2 (Or.inr ?_))
          rcases workedOn_held.1 hmine with ⟨-, -, hself⟩ | hkept
          · exact absurd (hself ▸ hu) hok.2.1
          · exact hkept
      · have hworked := h.pending root u (Or.inl ⟨cu, hothers root hr ▸ hcu, hu⟩)
        rw [held_thread hget] at hworked
        rcases workedOn_moved _ hworked with hkeep | hmine
        · exact hkeep
        · exact absurd (workedOn_root hroot hok.1 hmine) hr
    · rw [hthreads] at hcopy
      rcases copyLists_moved hcopy with hnew | hother
      · exact absurd hnew.2 (Finset.notMem_empty u)
      · exact absurd hother (hbasic.no_other_copy hget trivial)
  · intro root cu hcu
    rw [hentries] at hcu
    by_cases hr : root = r
    · subst hr
      exact (hown cu hcu).2
    · exact h.nonempty root cu (hothers root hr ▸ hcu)

theorem init_tracked {maxDepth : Nat} (s : State) (h : (machine maxDepth).Init s) : Tracked s := by
  rcases h with ⟨db, rfl⟩
  refine ⟨?_, ?_⟩
  · intro root u hlisted
    rcases hlisted with ⟨cu, hcu, -⟩ | ⟨th, hth, -⟩
    · cases hcu
    · cases hth
  · intro root cu hcu
    cases hcu

theorem next_tracked {maxDepth : Nat} {a : Action} (hnext : Next maxDepth s a s')
    (hkeeps : KeepsTrack s a) (hbasic : Basic s) (h : Tracked s) : Tracked s' := by
  cases hnext with
  | addTask hfw =>
      refine ⟨?_, h.nonempty⟩
      intro root u hlisted
      rcases h.pending root u hlisted with ⟨x, hx, hworks⟩
      exact workedOn_congr (held_added (s := s) rfl rfl) ⟨x, Multiset.mem_cons_of_mem hx, hworks⟩
  | @startThread tid task rest hqueue hfree =>
      refine ⟨?_, h.nonempty⟩
      intro root u hlisted
      have hold : s.Listed root u := by
        rcases hlisted with hentry | hcopy
        · exact Or.inl hentry
        · rcases copyLists_moved hcopy with hnew | hother
          · exact absurd hnew.2 (Finset.notMem_empty u)
          · exact Or.inr (copyLists_erase hother)
      refine workedOn_congr (held_started (s := s) hfree rfl) ?_
      rcases h.pending root u hold with ⟨x, hx, hworks⟩
      rw [held_popped hqueue] at hx
      rcases Multiset.mem_cons.1 hx with rfl | hrest
      · exact ⟨(.started, task), Multiset.mem_cons_self _ _, by simp, hworks.2⟩
      · exact ⟨x, Multiset.mem_cons_of_mem hrest, hworks⟩
  | enterKnown hget hfw hlock hmem =>
      exact tracked_plain (s := s) hget rfl rfl rfl (fun _ _ _ => nofun) id rfl rfl rfl h
  | enterNew hget hfw hlock hnew =>
      exact tracked_plain (s := s) hget rfl rfl rfl (fun _ _ _ => nofun) id rfl rfl rfl h
  | enterFile hget hfw hroot hentry =>
      exact tracked_plain (s := s) hget rfl rfl rfl (fun _ _ _ => nofun) id rfl rfl rfl h
  | enterSkip hget hfw hentry =>
      have hmay := hkeeps ⟨_, hget, hfw, by rw [hentry]; rfl⟩
      exact tracked_ended (s := s) hget rfl rfl rfl (fun _ _ => mayEnd_worked hget hmay) h
  | @storeEntry tid task hget =>
      have hroot : task.rootUid = some task.uid := (hbasic.rooted.task _ _ _ hget).firmware (hbasic.ok _ _ _ hget)
      refine ⟨?_, ?_⟩
      · intro root u hlisted
        refine workedOn_congr (held_moved (s := s) rfl rfl) ?_
        rcases hlisted with ⟨cu, hcu, hu⟩ | hcopy
        · have hcu' : (s.currentlyExtracted.set task.uid (.new task.uid)).get? root = some cu := hcu
          rw [Dict.get?_set] at hcu'
          split at hcu'
          · -- the new entry lists the firmware itself, which its thread works on
            rename_i hr
            subst hr
            rw [← Option.some.inj hcu'] at hu
            have huid : u = task.uid := Finset.mem_singleton.1 hu
            exact workedOn_left (workedOn_held.2 (Or.inl ⟨trivial, hroot, huid.symm⟩))
          · have hworked := h.pending root u (Or.inl ⟨cu, hcu', hu⟩)
            rw [held_thread hget] at hworked
            rcases workedOn_moved _ hworked with hkeep | hmine
            · exact hkeep
            · rcases workedOn_held.1 hmine with hself | ⟨fo, hfo, -⟩
              · exact workedOn_left (workedOn_held.2 (Or.inl hself))
              · cases hfo
        · rcases copyLists_moved hcopy with hnew | hother
          · exact absurd hnew.2 (Finset.notMem_empty u)
          · exact absurd hother (hbasic.no_other_copy hget trivial)
      · intro root cu hcu
        have hcu' : (s.currentlyExtracted.set task.uid (.new task.uid)).get? root = some cu := hcu
        rw [Dict.get?_set] at hcu'
        split at hcu'
        · rw [← Option.some.inj hcu']
          exact Finset.singleton_ne_empty _
        · exact h.nonempty root cu hcu'
  | unpack hget =>
      refine tracked_plain (s := s) hget rfl rfl rfl (fun _ _ _ => nofun) id rfl ?_ ?_ h
      · rw [unpack_task]
        rfl
      · rw [unpack_task]
        rfl
  | extractionError hget =>
      exact tracked_plain (s := s) hget rfl rfl rfl (fun _ _ _ => nofun) id rfl rfl rfl h
  | query hget =>
      exact tracked_plain (s := s) hget rfl rfl rfl (fun _ _ _ => nofun) id rfl rfl rfl h
  | save hget hsave =>
      exact tracked_plain (s := s) hget rfl rfl rfl (fun _ _ _ => nofun) id rfl rfl rfl h
  | postUnpack hget =>
      exact tracked_plain (s := s) hget rfl rfl rfl (fun _ _ _ => nofun) id rfl rfl rfl h
  | @dbInterfaceError tid task phase db hget hphase =>
      have hkept : phase.kept = [] := by
        cases phase <;> first | rfl | exact hphase.elim
      exact tracked_plain (s := s) hget rfl rfl rfl (fun _ _ _ => nofun) (fun _ => trivial)
        hkept.symm rfl rfl h
  | raises hget hphase =>
      exact tracked_ended (s := s) hget rfl rfl rfl (fun _ _ => mayEnd_worked hget hkeeps) h
  | raisesLocked hget =>
      exact tracked_ended (s := s) hget rfl rfl rfl (fun _ _ => mayEnd_worked hget hkeeps) h
  | @fetchNone tid task extracted hget hlock hentry =>
      refine ⟨?_, h.nonempty⟩
      intro root u hlisted
      have hnocopy : ¬ CopyLists s.threads root u := hbasic.no_copy hlock
      refine workedOn_congr (held_moved (s := s) rfl rfl) ?_
      rcases hlisted with ⟨cu, hcu, hu⟩ | hcopy
      · have hworked := h.pending root u (Or.inl ⟨cu, hcu, hu⟩)
        rw [held_thread hget] at hworked
        rcases workedOn_moved _ hworked with hkeep | hmine
        · exact hkeep
        · -- the task works for a firmware without an entry, so nothing is listed for it
          rcases workedOn_held.1 hmine with ⟨-, hroot, -⟩ | ⟨fo, hfo, -⟩
          · rw [hroot] at hentry
            exact absurd (Dict.mem_of_get? hcu) (entryOf_eq_none hentry)
          · cases hfo
      · rcases copyLists_moved hcopy with hnew | hother
        · exact absurd hnew.2 (Finset.notMem_empty u)
        · exact absurd (copyLists_erase hother) hnocopy
  | @fetch tid task extracted root cu hget hlock hroot hentry =>
      refine tracked_moved (s := s) hget rfl rfl rfl ?_ ?_ h
      · intro root' u hlists
        have hr : root' = root := Option.some.inj (hlists.1.symm.trans hroot)
        subst hr
        have hu : u ∈ (updateCurrentlyUnpacked cu task extracted).entry.remaining := hlists.2
        rw [updateCurrentlyUnpacked_remaining] at hu
        rcases Finset.mem_union.1 (Finset.mem_erase.1 hu).2 with hold | hnew
        · exact Or.inl (Or.inl ⟨cu, hentry, hold⟩)
        · -- a new file is kept by the thread
          rcases List.mem_map.1 (List.mem_toFinset.1 hnew) with ⟨fo, hfo, rfl⟩
          have hextracted : Children task extracted := hbasic.ok _ _ _ hget
          have hchild := hextracted.child fo ((updateCurrentlyUnpacked_kept cu task extracted).subset hfo)
          exact Or.inr (workedOn_held.2 (Or.inr ⟨fo, hfo, hchild.rootUid.trans hroot, rfl⟩))
      · intro root' u hworked
        rcases workedOn_held.1 hworked with hmine | ⟨fo, hfo, -⟩
        · exact workedOn_held.2 (Or.inl hmine)
        · cases hfo
  | dbCall hget hcall =>
      refine tracked_moved (s := s) hget rfl rfl rfl ?_ ?_ h
      · intro root u hlists
        exact Or.inl (Or.inr (copyLists_iff.2 ⟨_, _, hget, hlists⟩))
      · intro root u hworked
        exact workedOn_held.2 (workedOn_held.1 hworked)
  | @writeBackPop tid task r entry kept hget hroot hempty hmem =>
      refine tracked_writeBack (s := s) (s.currentlyExtracted.erase r) hget hroot hbasic ?_ ?_ rfl rfl rfl h
      · intro root hne
        exact Dict.get?_erase_ne _ hne
      · intro cu hcu
        rw [Dict.get?_erase_self] at hcu
        cases hcu
  | @writeBackKeyError tid task r entry kept hget hroot hempty hgone =>
      refine tracked_ended (s := s) hget rfl rfl rfl ?_ h
      intro root u hlisted hworked
      rcases hlisted with ⟨cu, hcu, -⟩ | hcopy
      · have hr := workedOn_root hroot (hbasic.ok _ _ _ hget).1 hworked
        exact absurd (hr ▸ Dict.mem_of_get? hcu) hgone
      · exact absurd hcopy (hbasic.no_other_copy hget trivial)
  | @writeBackSet tid task r entry kept hget hroot hne =>
      refine tracked_writeBack (s := s) (s.currentlyExtracted.set r entry) hget hroot hbasic ?_ ?_ rfl rfl rfl h
      · intro root hr
        exact Dict.get?_set_ne _ _ hr
      · intro cu hcu
        rw [Dict.get?_set_self] at hcu
        rw [← Option.some.inj hcu]
        exact ⟨rfl, hne⟩
  | @put tid task fo rest hget =>
      refine ⟨?_, h.nonempty⟩
      intro root u hlisted
      have hold : s.Listed root u := by
        rcases hlisted with hentry | hcopy
        · exact Or.inl hentry
        · rcases copyLists_moved hcopy with hnew | hother
          · exact absurd hnew.2 (Finset.notMem_empty u)
          · exact Or.inr (copyLists_erase hother)
      have hworked := h.pending root u hold
      refine workedOn_congr (held_put (s := s) rfl rfl) ?_
      rw [held_thread hget] at hworked
      rcases hworked with ⟨x, hx, hstage, hroot, huid⟩
      rcases Multiset.mem_add.1 hx with hmine | hrest
      · rcases List.mem_map.1 hmine with ⟨g, hg, rfl⟩
        rcases List.mem_cons.1 hg with rfl | hin
        · exact ⟨(.queued, g), Multiset.mem_cons_self _ _, by simp, hroot, huid⟩
        · refine ⟨(.scheduled, g), Multiset.mem_cons_of_mem ?_, hstage, hroot, huid⟩
          exact Multiset.mem_add.2 (Or.inl (List.mem_map_of_mem hin))
      · exact ⟨x, Multiset.mem_cons_of_mem (Multiset.mem_add.2 (Or.inr hrest)), hstage, hroot, huid⟩
  | finish hget =>
      refine tracked_ended (s := s) hget rfl rfl rfl ?_ h
      intro root u _ hworked
      rcases workedOn_held.1 hworked with ⟨hopen, -⟩ | ⟨fo, hfo, -⟩
      · exact hopen.elim
      · cases hfo
  | cancelAbsent hidle hgone => exact ⟨h.pending, h.nonempty⟩
  | cancelTest hidle hmem => exact ⟨h.pending, h.nonempty⟩
  | cancelRaises hcancelling hgone => exact ⟨h.pending, h.nonempty⟩
  | @cancelPop root hcancelling hmem =>
      have hold : ∀ root' cu, (s.currentlyExtracted.erase root).get? root' = some cu →
          s.currentlyExtracted.get? root' = some cu := by
        intro root' cu hcu
        rw [Dict.get?_erase] at hcu
        split at hcu
        · cases hcu
        · exact hcu
      refine ⟨?_, fun root' cu hcu => h.nonempty root' cu (hold root' cu hcu)⟩
      intro root' u hlisted
      rcases hlisted with ⟨cu, hcu, hu⟩ | hcopy
      · exact h.pending root' u (Or.inl ⟨cu, hold root' cu hcu, hu⟩)
      · exact h.pending root' u (Or.inr hcopy)

theorem reach_tracked {maxDepth : Nat} (h : (machine maxDepth).Reach KeepsTrack s) : Tracked s :=
  Machine.reach_invariant_with (fun _ => reach_basic) init_tracked
    (fun _ _ _ hok hstep => next_tracked (next_of_step hstep) hok) h

/-- The unpacking of every firmware comes to its end: an idle scheduler has no
entry left, unless a thread has ended that was the only one to work on a file
which an entry listed. -/
theorem unpacking_ends {maxDepth : Nat} (h : (machine maxDepth).Reach KeepsTrack s)
    (hidle : s.Idle) (root : Uid) : root ∉ s.currentlyExtracted := by
  have htracked := reach_tracked h
  intro hmem
  rcases Dict.mem_iff.1 hmem with ⟨cu, hcu⟩
  rcases Finset.nonempty_iff_ne_empty.2 (htracked.nonempty root cu hcu) with ⟨u, hu⟩
  rcases htracked.pending root u (Or.inl ⟨cu, hcu, hu⟩) with ⟨x, hx, -⟩
  rw [held_of_idle hidle] at hx
  exact absurd hx (Multiset.notMem_zero x)

/-- The image is submitted twice; one thread fails, the other one goes on. -/
def failsTwice : List Action :=
  [.addTask image, .startThread 0, .enter 0, .storeEntry 0, .addTask image, .startThread 1,
    .enter 1, .raises 1, .extractionError 0, .dbInterfaceError 0, .fetch 0, .writeBack 0, .finish 0]

theorem failsTwice_isSome :
    ((machine 8).run KeepsTrack failsTwice (State.init Db.empty)).isSome = true := by
  decide +kernel

/-- The theorem at the end of the run `failsTwice`. -/
theorem unpacking_ends_failsTwice :
    "fw" ∉ (((machine 8).run KeepsTrack failsTwice (State.init Db.empty)).get
      failsTwice_isSome).currentlyExtracted :=
  unpacking_ends (Machine.reach_get (M := machine 8) ⟨_, rfl⟩ failsTwice_isSome) (by decide +kernel) "fw"

/-- Unpacking the image raises another exception than an `ExtractionError`. -/
def unpackRaises : List Action :=
  [.addTask image, .startThread 0, .enter 0, .storeEntry 0, .raises 0]

/-- The thread ends without the bookkeeping, and the entry stays. -/
theorem entry_left : ∃ s, (machine 8).Reach Machine.anyStep s ∧ s.Idle ∧
    "fw" ∈ s.currentlyExtracted := by
  have hinit : (machine 8).Init (State.init Db.empty) := ⟨_, rfl⟩
  exact Machine.exists_reach hinit unpackRaises (by decide +kernel)

end FactCore.Unpacking
