import FactCore.Lib.Machine
import FactCore.Objects.FileObject

/-! # Deleting stored files

`InterComBackEndDeleteFile` of `intercom/back_end_binding.py`, with the
unpackings that store the same files: `Unpacker.generate_objects_and_store_files`,
`add_object`, and the release of the unpacking lock when the analysis takes a
file up. Every call is one step.

The listener decides whether a file is still needed by a snapshot of the
database from before its loop and by the unpacking lock, which is a mere flag
for all unpackings of the file. `file_needed` names the steps that make this
decision stale; without them no needed file is removed.
-/

namespace FactCore.DeleteFile

open Tla

/-- How far the unpacking of a container has come with one of its files. -/
inductive UnpackingPhase where
  | locked
  | stored
  | inserted
  | takenUp
deriving DecidableEq, Repr

/-- One extraction of a file. -/
structure Unpacking where
  uid : Uid
  phase : UnpackingPhase
deriving DecidableEq, Repr

/-- Where `pre_process` stands: the uids found in the database, the uids that
are not checked yet, and the uid that is about to be deleted. -/
inductive Listener where
  | idle
  | looping (uidsInDb : Finset Uid) (todo : List Uid)
  | deleting (uid : Uid) (uidsInDb : Finset Uid) (todo : List Uid)

/-- The storage directory, the dict of locks, the uids with a file object row,
the unpackings and the listener. -/
structure State where
  storage : Finset Uid
  unpackingLocks : Finset Uid
  rows : Finset Uid
  unpackings : Dict Nat Unpacking
  listener : Listener

/-- The calls. -/
inductive Action where
  | setUnpackingLock (i : Nat) (uid : Uid)
  | storeFile (i : Nat)
  | addObject (i : Nat)
  | takeUp (i : Nat)
  | takeNextAnalysis (i : Nat)
  | receive (task : List Uid)
  | check
  | deleteFile

/-- The unpacking `i` moves on from the phase `before`. -/
def advance (s : State) (i : Nat) (before after : UnpackingPhase) (effect : Uid → State → State) :
    Option State :=
  match s.unpackings.get? i with
  | none => none
  | some up =>
      if up.phase = before then
        some (effect up.uid { s with unpackings := s.unpackings.set i { up with phase := after } })
      else none

/-- `release_unpacking_lock`. -/
def releaseUnpackingLock (uid : Uid) (s : State) : State :=
  { s with unpackingLocks := s.unpackingLocks.erase uid }

/-- One call. `store_file` does not overwrite, and every analysis task of a
file releases the lock, not only the first one. -/
def step : Action → State → Option State
  | .setUnpackingLock i uid, s =>
      if i ∈ s.unpackings then none
      else some { s with
        unpackingLocks := insert uid s.unpackingLocks
        unpackings := s.unpackings.set i ⟨uid, .locked⟩ }
  | .storeFile i, s =>
      advance s i .locked .stored fun uid s => { s with storage := insert uid s.storage }
  | .addObject i, s =>
      advance s i .stored .inserted fun uid s => { s with rows := insert uid s.rows }
  | .takeUp i, s => advance s i .inserted .takenUp releaseUnpackingLock
  | .takeNextAnalysis i, s => advance s i .takenUp .takenUp releaseUnpackingLock
  | .receive task, s =>
      match s.listener with
      | .idle => some { s with listener := .looping (task.toFinset ∩ s.rows) task }
      | _ => none
  | .check, s =>
      match s.listener with
      | .looping _ [] => some { s with listener := .idle }
      | .looping uidsInDb (uid :: todo) =>
          if uid ∈ s.unpackingLocks then some { s with listener := .looping uidsInDb todo }
          else if uid ∉ uidsInDb then some { s with listener := .deleting uid uidsInDb todo }
          else some { s with listener := .looping uidsInDb todo }
      | _ => none
  | .deleteFile, s =>
      match s.listener with
      | .deleting uid uidsInDb todo =>
          some { s with storage := s.storage.erase uid, listener := .looping uidsInDb todo }
      | _ => none

/-- Any stored files and rows at the beginning, each row with its file, and any
locks that are left over. -/
def machine : Machine State Action where
  Init := fun s => s.rows ⊆ s.storage ∧ s.unpackings = ∅ ∧ s.listener = .idle
  step := step

/-! ## Decisions that become stale -/

/-- The listener did not find the uid in the database and has not checked it yet. -/
def Listener.Unchecked : Listener → Uid → Prop
  | .idle, _ => False
  | .looping uidsInDb todo, uid => uid ∈ todo ∧ uid ∉ uidsInDb
  | .deleting _ uidsInDb todo, uid => uid ∈ todo ∧ uid ∉ uidsInDb

/-- The listener has decided to delete the uid. -/
def Listener.Deletes : Listener → Uid → Prop
  | .deleting uid _ _, uid' => uid = uid'
  | _, _ => False

instance : ∀ l uid, Decidable (Listener.Unchecked l uid)
  | .idle, _ => inferInstanceAs (Decidable False)
  | .looping _ _, _ => inferInstanceAs (Decidable (_ ∧ _))
  | .deleting _ _ _, _ => inferInstanceAs (Decidable (_ ∧ _))

instance : ∀ l uid, Decidable (Listener.Deletes l uid)
  | .idle, _ => inferInstanceAs (Decidable False)
  | .looping _ _, _ => inferInstanceAs (Decidable False)
  | .deleting uid _ _, uid' => inferInstanceAs (Decidable (uid = uid'))

/-- The lock of the uid is set if an unpacking of it is not taken up yet. -/
def LockHeld (s : State) (uid : Uid) : Prop :=
  ∀ up ∈ s.unpackings.values, up.uid = uid → up.phase ≠ .takenUp → uid ∈ s.unpackingLocks

/-- No unpacking of a file begins between its check and its deletion, none is
taken up between the snapshot and the check, and at the check no unpacking has
lost its lock to another one. -/
def NotStale (s : State) : Action → Prop
  | .setUnpackingLock _ uid => ¬ s.listener.Deletes uid
  | .takeUp i => ∀ up ∈ s.unpackings.get? i, ¬ s.listener.Unchecked up.uid
  | .check =>
      match s.listener with
      | .looping _ (uid :: _) => LockHeld s uid
      | _ => True
  | _ => True

instance (s : State) (uid : Uid) : Decidable (LockHeld s uid) :=
  inferInstanceAs (Decidable (∀ up ∈ s.unpackings.values, _))

instance (s : State) : ∀ a, Decidable (NotStale s a)
  | .setUnpackingLock _ _ => inferInstanceAs (Decidable (¬ _))
  | .takeUp i => inferInstanceAs (Decidable (∀ up ∈ s.unpackings.get? i, _))
  | .check =>
      match h : s.listener with
      | .idle => isTrue (by simp [NotStale, h])
      | .looping _ [] => isTrue (by simp [NotStale, h])
      | .looping _ (uid :: _) => decidable_of_iff (LockHeld s uid) (by simp [NotStale, h])
      | .deleting _ _ _ => isTrue (by simp [NotStale, h])
  | .storeFile _ => inferInstanceAs (Decidable True)
  | .addObject _ => inferInstanceAs (Decidable True)
  | .takeNextAnalysis _ => inferInstanceAs (Decidable True)
  | .receive _ => inferInstanceAs (Decidable True)
  | .deleteFile => inferInstanceAs (Decidable True)

/-! ## The invariant -/

/-- Needed files are stored. A row that the snapshot of the listener lacks
belongs to an unpacking that is not taken up, and a uid that is about to be
deleted has no row and no unpacking. -/
structure Inv (s : State) : Prop where
  rows : s.rows ⊆ s.storage
  stored : ∀ i up, s.unpackings.get? i = some up → up.phase = .stored ∨ up.phase = .inserted →
    up.uid ∈ s.storage
  unchecked : ∀ uid, s.listener.Unchecked uid → uid ∈ s.rows →
    ∃ i up, s.unpackings.get? i = some up ∧ up.uid = uid ∧ up.phase = .inserted
  deletes : ∀ uid, s.listener.Deletes uid → uid ∉ s.rows ∧
    ∀ i up, s.unpackings.get? i = some up → up.uid = uid → up.phase = .takenUp

theorem init_inv (s : State) (h : machine.Init s) : Inv s := by
  rcases h with ⟨hrows, hunpackings, hlistener⟩
  refine ⟨hrows, ?_, ?_, ?_⟩
  · intro i up hup
    rw [hunpackings] at hup
    cases hup
  · intro uid hunchecked
    rw [hlistener] at hunchecked
    exact hunchecked.elim
  · intro uid hdeletes
    rw [hlistener] at hdeletes
    exact hdeletes.elim

/-- What `advance` does: one unpacking changes its phase. -/
theorem advance_eq_some {s s' : State} {i : Nat} {before after : UnpackingPhase}
    {effect : Uid → State → State} (h : advance s i before after effect = some s') :
    ∃ up, s.unpackings.get? i = some up ∧ up.phase = before ∧
      s' = effect up.uid { s with unpackings := s.unpackings.set i { up with phase := after } } := by
  unfold advance at h
  split at h
  · cases h
  · rename_i up hup
    split at h
    · rename_i hphase
      exact ⟨up, hup, hphase, (Option.some.inj h).symm⟩
    · cases h

/-- Looking up an unpacking after one has moved on. -/
theorem get?_advanced {s : State} {i j : Nat} {up up' : Unpacking}
    (h : (s.unpackings.set i up).get? j = some up') :
    (j = i ∧ up' = up) ∨ (j ≠ i ∧ s.unpackings.get? j = some up') := by
  rw [Dict.get?_set] at h
  by_cases hij : j = i
  · exact Or.inl ⟨hij, by simpa [hij] using h.symm⟩
  · exact Or.inr ⟨hij, by simpa [hij] using h⟩

theorem setUnpackingLock_inv {s : State} {i : Nat} {uid : Uid} (hnew : i ∉ s.unpackings)
    (hok : ¬ s.listener.Deletes uid) (h : Inv s) :
    Inv { s with
      unpackingLocks := insert uid s.unpackingLocks
      unpackings := s.unpackings.set i ⟨uid, .locked⟩ } := by
  refine ⟨h.rows, ?_, ?_, ?_⟩
  · intro j up hup hphase
    rcases get?_advanced hup with ⟨-, rfl⟩ | ⟨-, hold⟩
    · rcases hphase with hphase | hphase <;> cases hphase
    · exact h.stored j up hold hphase
  · intro u hunchecked hrow
    rcases h.unchecked u hunchecked hrow with ⟨j, up, hup, huid, hphase⟩
    have hij : j ≠ i := by
      intro heq
      exact hnew (heq ▸ Dict.mem_of_get? hup)
    exact ⟨j, up, by rw [Dict.get?_set_ne _ _ hij]; exact hup, huid, hphase⟩
  · intro u hdeletes
    refine ⟨(h.deletes u hdeletes).1, ?_⟩
    intro j up hup huid
    rcases get?_advanced hup with ⟨-, rfl⟩ | ⟨-, hold⟩
    · have heq : uid = u := huid
      exact absurd (heq ▸ hdeletes) hok
    · exact (h.deletes u hdeletes).2 j up hold huid

/-- `store_file` of an unpacking that holds its lock. -/
theorem storeFile_inv {s : State} {i : Nat} {up : Unpacking} (hup : s.unpackings.get? i = some up)
    (hphase : up.phase = .locked) (h : Inv s) :
    Inv { s with
      storage := insert up.uid s.storage
      unpackings := s.unpackings.set i { up with phase := .stored } } := by
  refine ⟨h.rows.trans (Finset.subset_insert _ _), ?_, ?_, ?_⟩
  · intro j up' hup' hphase'
    rcases get?_advanced hup' with ⟨-, rfl⟩ | ⟨-, hold⟩
    · exact Finset.mem_insert_self _ _
    · exact Finset.mem_insert_of_mem (h.stored j up' hold hphase')
  · intro u hunchecked hrow
    rcases h.unchecked u hunchecked hrow with ⟨j, up', hup', huid, hphase'⟩
    have hij : j ≠ i := by
      intro heq
      subst heq
      rw [hup] at hup'
      cases Option.some.inj hup'
      rw [hphase] at hphase'
      cases hphase'
    exact ⟨j, up', by rw [Dict.get?_set_ne _ _ hij]; exact hup', huid, hphase'⟩
  · intro u hdeletes
    refine ⟨(h.deletes u hdeletes).1, ?_⟩
    intro j up' hup' huid
    rcases get?_advanced hup' with ⟨-, rfl⟩ | ⟨-, hold⟩
    · -- a uid that is about to be deleted has no unpacking that could store it
      have htaken := (h.deletes u hdeletes).2 i up hup huid
      rw [hphase] at htaken
      cases htaken
    · exact (h.deletes u hdeletes).2 j up' hold huid

/-- `add_object` of an unpacking that has stored its file. -/
theorem addObject_inv {s : State} {i : Nat} {up : Unpacking} (hup : s.unpackings.get? i = some up)
    (hphase : up.phase = .stored) (h : Inv s) :
    Inv { s with
      rows := insert up.uid s.rows
      unpackings := s.unpackings.set i { up with phase := .inserted } } := by
  have hself : (s.unpackings.set i { up with phase := .inserted }).get? i =
      some { up with phase := .inserted } := Dict.get?_set_self _ _ _
  refine ⟨?_, ?_, ?_, ?_⟩
  · intro u hu
    rcases Finset.mem_insert.1 hu with rfl | hold
    · exact h.stored i up hup (Or.inl hphase)
    · exact h.rows hold
  · intro j up' hup' hphase'
    rcases get?_advanced hup' with ⟨-, rfl⟩ | ⟨-, hold⟩
    · exact h.stored i up hup (Or.inl hphase)
    · exact h.stored j up' hold hphase'
  · intro u hunchecked hrow
    rcases Finset.mem_insert.1 hrow with rfl | hold
    · -- the new row belongs to this unpacking
      exact ⟨i, _, hself, rfl, rfl⟩
    · rcases h.unchecked u hunchecked hold with ⟨j, up', hup', huid, hphase'⟩
      by_cases hij : j = i
      · subst hij
        rw [hup] at hup'
        cases Option.some.inj hup'
        exact ⟨j, _, hself, huid, rfl⟩
      · exact ⟨j, up', by rw [Dict.get?_set_ne _ _ hij]; exact hup', huid, hphase'⟩
  · intro u hdeletes
    have hne : u ≠ up.uid := by
      intro heq
      have htaken := (h.deletes u hdeletes).2 i up hup heq.symm
      rw [hphase] at htaken
      cases htaken
    refine ⟨?_, ?_⟩
    · intro hrow
      rcases Finset.mem_insert.1 hrow with heq | hold
      · exact hne heq
      · exact (h.deletes u hdeletes).1 hold
    · intro j up' hup' huid
      rcases get?_advanced hup' with ⟨-, rfl⟩ | ⟨-, hold⟩
      · exact absurd huid.symm hne
      · exact (h.deletes u hdeletes).2 j up' hold huid

/-- The analysis takes a file up that the listener does not wait to check. -/
theorem takeUp_inv {s : State} {i : Nat} {up : Unpacking} (hup : s.unpackings.get? i = some up)
    (hok : ¬ s.listener.Unchecked up.uid) (h : Inv s) :
    Inv { s with
      unpackingLocks := s.unpackingLocks.erase up.uid
      unpackings := s.unpackings.set i { up with phase := .takenUp } } := by
  refine ⟨h.rows, ?_, ?_, ?_⟩
  · intro j up' hup' hphase'
    rcases get?_advanced hup' with ⟨-, rfl⟩ | ⟨-, hold⟩
    · rcases hphase' with hphase' | hphase' <;> cases hphase'
    · exact h.stored j up' hold hphase'
  · intro u hunchecked hrow
    rcases h.unchecked u hunchecked hrow with ⟨j, up', hup', huid, hphase'⟩
    have hij : j ≠ i := by
      intro heq
      subst heq
      rw [hup] at hup'
      cases Option.some.inj hup'
      exact hok (huid ▸ hunchecked)
    exact ⟨j, up', by rw [Dict.get?_set_ne _ _ hij]; exact hup', huid, hphase'⟩
  · intro u hdeletes
    refine ⟨(h.deletes u hdeletes).1, ?_⟩
    intro j up' hup' huid
    rcases get?_advanced hup' with ⟨-, rfl⟩ | ⟨-, hold⟩
    · rfl
    · exact (h.deletes u hdeletes).2 j up' hold huid

/-- A later analysis task of a file that was taken up: only the lock changes. -/
theorem takeNextAnalysis_inv {s : State} {i : Nat} {up : Unpacking}
    (hup : s.unpackings.get? i = some up) (hphase : up.phase = .takenUp) (h : Inv s) :
    Inv { s with
      unpackingLocks := s.unpackingLocks.erase up.uid
      unpackings := s.unpackings.set i { up with phase := .takenUp } } := by
  have hget : ∀ j, (s.unpackings.set i { up with phase := .takenUp }).get? j =
      s.unpackings.get? j := by
    intro j
    rw [Dict.get?_set]
    split
    · rename_i hij
      rw [hij, hup, ← hphase]
    · rfl
  refine ⟨h.rows, ?_, ?_, ?_⟩
  · intro j up' hup'
    exact h.stored j up' (hget j ▸ hup')
  · intro u hunchecked hrow
    rcases h.unchecked u hunchecked hrow with ⟨j, up', hup', hrest⟩
    exact ⟨j, up', (hget j).trans hup', hrest⟩
  · intro u hdeletes
    refine ⟨(h.deletes u hdeletes).1, ?_⟩
    intro j up' hup'
    exact (h.deletes u hdeletes).2 j up' (hget j ▸ hup')

/-- The listener moves on without deciding to delete. -/
theorem listener_inv {s : State} {l : Listener} (hunchecked : ∀ uid, l.Unchecked uid →
    s.listener.Unchecked uid ∨ uid ∉ s.rows) (hdeletes : ∀ uid, ¬ l.Deletes uid) (h : Inv s) :
    Inv { s with listener := l } := by
  refine ⟨h.rows, h.stored, ?_, ?_⟩
  · intro uid huid hrow
    rcases hunchecked uid huid with hold | hnot
    · exact h.unchecked uid hold hrow
    · exact absurd hrow hnot
  · intro uid huid
    exact absurd huid (hdeletes uid)

/-- The decision to delete: with the lock held by every unpacking, the uid has
neither row nor unpacking. -/
theorem decide_inv {s : State} {uid : Uid} {uidsInDb : Finset Uid} {todo : List Uid}
    (hlistener : s.listener = .looping uidsInDb (uid :: todo)) (hlock : uid ∉ s.unpackingLocks)
    (hdb : uid ∉ uidsInDb) (hheld : LockHeld s uid) (h : Inv s) :
    Inv { s with listener := .deleting uid uidsInDb todo } := by
  have hnone : ∀ i up, s.unpackings.get? i = some up → up.uid = uid → up.phase = .takenUp := by
    intro i up hup huid
    by_contra hphase
    exact hlock (hheld up (Dict.mem_values.2 ⟨i, hup⟩) huid hphase)
  have hsub : ∀ u, (Listener.deleting uid uidsInDb todo).Unchecked u → s.listener.Unchecked u := by
    intro u hu
    rw [hlistener]
    exact ⟨List.mem_cons_of_mem _ hu.1, hu.2⟩
  refine ⟨h.rows, h.stored, ?_, ?_⟩
  · intro u hu hrow
    exact h.unchecked u (hsub u hu) hrow
  · intro u hu
    have heq : uid = u := hu
    subst heq
    refine ⟨?_, hnone⟩
    intro hrow
    have hunchecked : s.listener.Unchecked uid := by
      rw [hlistener]
      exact ⟨List.mem_cons_self, hdb⟩
    rcases h.unchecked uid hunchecked hrow with ⟨i, up, hup, huid, hphase⟩
    rw [hnone i up hup huid] at hphase
    cases hphase

/-- Deleting a file that has neither row nor unpacking. -/
theorem deleteFile_inv {s : State} {uid : Uid} {uidsInDb : Finset Uid} {todo : List Uid}
    (hlistener : s.listener = .deleting uid uidsInDb todo) (h : Inv s) :
    Inv { s with storage := s.storage.erase uid, listener := .looping uidsInDb todo } := by
  have hdeletes : s.listener.Deletes uid := by
    rw [hlistener]
    rfl
  rcases h.deletes uid hdeletes with ⟨hrow, hnone⟩
  refine ⟨?_, ?_, ?_, ?_⟩
  · intro u hu
    refine Finset.mem_erase.2 ⟨?_, h.rows hu⟩
    intro heq
    exact hrow (heq ▸ hu)
  · intro i up hup hphase
    refine Finset.mem_erase.2 ⟨?_, h.stored i up hup hphase⟩
    intro heq
    rw [hnone i up hup heq] at hphase
    rcases hphase with hphase | hphase <;> cases hphase
  · intro u hu hrow'
    refine h.unchecked u ?_ hrow'
    rw [hlistener]
    exact hu
  · intro u hu
    exact hu.elim

theorem step_inv (s : State) (a : Action) (s' : State) (hok : NotStale s a)
    (hstep : machine.step a s = some s') (h : Inv s) : Inv s' := by
  simp only [machine] at hstep
  cases a with
  | setUnpackingLock i uid =>
      simp only [step] at hstep
      split at hstep
      · cases hstep
      · rename_i hnew
        cases Option.some.inj hstep
        exact setUnpackingLock_inv hnew hok h
  | storeFile i =>
      simp only [step] at hstep
      rcases advance_eq_some hstep with ⟨up, hup, hphase, rfl⟩
      exact storeFile_inv hup hphase h
  | addObject i =>
      simp only [step] at hstep
      rcases advance_eq_some hstep with ⟨up, hup, hphase, rfl⟩
      exact addObject_inv hup hphase h
  | takeUp i =>
      simp only [step] at hstep
      rcases advance_eq_some hstep with ⟨up, hup, -, rfl⟩
      exact takeUp_inv hup (hok up hup) h
  | takeNextAnalysis i =>
      simp only [step] at hstep
      rcases advance_eq_some hstep with ⟨up, hup, hphase, rfl⟩
      exact takeNextAnalysis_inv hup hphase h
  | receive task =>
      simp only [step] at hstep
      split at hstep
      · cases Option.some.inj hstep
        refine listener_inv ?_ (fun _ hu => hu) h
        intro uid huid
        -- what the snapshot lacks has no row now
        refine Or.inr ?_
        intro hrow
        exact huid.2 (Finset.mem_inter.2 ⟨List.mem_toFinset.2 huid.1, hrow⟩)
      · cases hstep
  | check =>
      simp only [step] at hstep
      split at hstep
      · cases Option.some.inj hstep
        exact listener_inv (fun _ hu => hu.elim) (fun _ hu => hu) h
      · rename_i uidsInDb uid todo hlistener
        have hkeep : Inv { s with listener := .looping uidsInDb todo } := by
          refine listener_inv ?_ (fun _ hu => hu) h
          intro u hu
          rw [hlistener]
          exact Or.inl ⟨List.mem_cons_of_mem _ hu.1, hu.2⟩
        split at hstep
        · cases Option.some.inj hstep
          exact hkeep
        · rename_i hlock
          split at hstep
          · rename_i hdb
            cases Option.some.inj hstep
            simp only [NotStale, hlistener] at hok
            exact decide_inv hlistener hlock hdb hok h
          · cases Option.some.inj hstep
            exact hkeep
      · cases hstep
  | deleteFile =>
      simp only [step] at hstep
      split at hstep
      · rename_i uid uidsInDb todo hlistener
        cases Option.some.inj hstep
        exact deleteFile_inv hlistener h
      · cases hstep

theorem reach_inv {s : State} (h : machine.Reach NotStale s) : Inv s :=
  Machine.reach_invariant init_inv step_inv h

/-! ## Needed files are kept -/

/-- Every file with a row, and every file of an unpacking that has set its lock
and is not taken up, is stored. -/
def NeededStored (s : State) : Prop :=
  s.rows ⊆ s.storage ∧ ∀ i up, s.unpackings.get? i = some up → up.phase ≠ .takenUp →
    up.uid ∈ s.storage

/-- The same for the unpackings that have come past `store_file`. -/
def StoredKept (s : State) : Prop :=
  s.rows ⊆ s.storage ∧ ∀ i up, s.unpackings.get? i = some up →
    up.phase = .stored ∨ up.phase = .inserted → up.uid ∈ s.storage

/-- One stored file that has no row. -/
def leftOver : State := ⟨{"x"}, ∅, ∅, ∅, .idle⟩

theorem leftOver_init : machine.Init leftOver :=
  ⟨by decide, rfl, rfl⟩

/-- The unpacking of a container with the file begins before the listener
checks it. -/
def unpackedBeforeCheck : List Action :=
  [.receive ["x"], .setUnpackingLock 0 "x", .storeFile 0, .check, .check, .addObject 0, .takeUp 0]

theorem unpackedBeforeCheck_isSome :
    (machine.run NotStale unpackedBeforeCheck leftOver).isSome = true := by
  decide +kernel

/-- The unpacking sets the lock of a file that is not stored yet. -/
def lockedFirst : List Action := [.setUnpackingLock 0 "y"]

/-- The unpacking begins between the check and the deletion. -/
def unpackedAfterCheck : List Action :=
  [.receive ["x"], .check, .setUnpackingLock 0 "x", .storeFile 0, .deleteFile, .addObject 0]

end FactCore.DeleteFile
