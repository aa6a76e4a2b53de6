import FactCore.Scheduler.UnpackingSteps

/-! # Invariants of every run of the unpacking scheduler

What holds whatever is raised or cancelled: only the holder of the sync lock is
in one of the two critical sections, a firmware is its own root, and the
objects that a thread has extracted or kept are children of its task.
-/

namespace FactCore.Unpacking

open Tla Unpacker

/-- The phases of the critical sections. -/
def Phase.Critical : Phase → Prop
  | .initializing => True
  | .recording _ _ _ => True
  | _ => False

/-- Objects that were extracted from the task, each once. -/
structure Children (task : FileObject) (objects : List FileObject) : Prop where
  nodup : (objects.map FileObject.uid).Nodup
  child : ∀ fo ∈ objects, ChildOf task fo

/-- What a thread knows by the phase it is in. -/
def PhaseOk (task : FileObject) : Phase → Prop
  | .started => True
  | .initializing => task.isFirmware = true
  | .unpacking => True
  | .querying extracted => Children task extracted
  | .saving _ extracted => Children task extracted
  | .posting extracted => Children task extracted
  | .updating extracted => Children task extracted
  | .recording entry _ kept => Children task kept ∧ task.uid ∉ entry.remaining ∧
      ∀ fo ∈ kept, fo.uid ∈ entry.remaining
  | .scheduling kept => Children task kept

/-- The file object belongs to a firmware, and a firmware to itself. -/
def Rooted (fo : FileObject) : Prop :=
  ∃ root, fo.rootUid = some root ∧ (fo.isFirmware = true → root = fo.uid)

/-- A property that a file passes on to the files extracted from it. -/
structure Inherited (P : FileObject → Prop) : Prop where
  child : ∀ task fo, ChildOf task fo → P task → P fo
  included : ∀ task objects, P task → P (task.includeFiles objects)

/-- All tasks, in the queue and in threads, have the property. -/
structure State.All (s : State) (P : FileObject → Prop) : Prop where
  queue : ∀ fo ∈ s.inQueue, P fo
  task : ∀ tid task phase, s.threads.get? tid = some ⟨task, phase⟩ → P task

/-- The invariant of every run. -/
structure Basic (s : State) : Prop where
  critical : ∀ tid task phase, s.threads.get? tid = some ⟨task, phase⟩ → phase.Critical →
    s.syncLock = some tid
  ok : ∀ tid task phase, s.threads.get? tid = some ⟨task, phase⟩ → PhaseOk task phase
  rooted : s.All Rooted

variable {s s' : State} {tid : Nat} {task : FileObject} {phase : Phase}

theorem Children.nil (task : FileObject) : Children task [] :=
  ⟨List.nodup_nil, fun fo hfo => by cases hfo⟩

theorem Children.sublist {objects objects' : List FileObject} (hsub : objects'.Sublist objects)
    (h : Children task objects) : Children task objects' :=
  ⟨h.nodup.sublist (hsub.map _), fun fo hfo => h.child fo (hsub.subset hfo)⟩

/-- The objects that `unpack` returns are children of the file, which has got
its included files meanwhile. -/
theorem children_unpack (maxDepth : Nat) (task : FileObject) (files : List ExtractedFile) :
    Children (unpack maxDepth task files).1 (unpack maxDepth task files).2 := by
  refine ⟨nodup_unpack _ _ _, ?_⟩
  intro fo hfo
  have hchild := mem_unpack hfo
  rw [unpack_task]
  exact ⟨hchild.ne, hchild.firmware, hchild.rootUid, hchild.parents, hchild.roots, hchild.paths⟩

theorem Rooted.firmware {fo : FileObject} (h : Rooted fo) (hfw : fo.isFirmware = true) :
    fo.rootUid = some fo.uid := by
  rcases h with ⟨root, hroot, hself⟩
  rw [hroot, hself hfw]

theorem ChildOf.rooted {fo : FileObject} (h : ChildOf task fo) (htask : Rooted task) :
    Rooted fo := by
  rcases htask with ⟨root, hroot, -⟩
  refine ⟨root, h.rootUid.trans hroot, ?_⟩
  intro hfw
  simp [FileObject.isFirmware, h.firmware] at hfw

theorem inherited_rooted : Inherited Rooted :=
  ⟨fun _ _ hchild htask => ChildOf.rooted hchild htask, fun _ _ htask => htask⟩

/-- Two threads are never in the critical sections. -/
theorem Basic.unique (h : Basic s) {tid' : Nat} {task' : FileObject} {phase' : Phase}
    (hget : s.threads.get? tid = some ⟨task, phase⟩) (hcrit : phase.Critical)
    (hget' : s.threads.get? tid' = some ⟨task', phase'⟩) (hcrit' : phase'.Critical) :
    tid' = tid := by
  have heq := (h.critical tid' task' phase' hget' hcrit').symm.trans
    (h.critical tid task phase hget hcrit)
  exact Option.some.inj heq

/-- While the lock is free no thread is in a critical section. -/
theorem Basic.free (h : Basic s) (hlock : s.syncLock = none)
    (hget : s.threads.get? tid = some ⟨task, phase⟩) : ¬ phase.Critical := by
  intro hcrit
  have hheld := h.critical tid task phase hget hcrit
  rw [hlock] at hheld
  cases hheld

/-- Looking up a thread after one was moved. -/
theorem get?_moved {threads : Dict Nat Thread} {tid tid' : Nat} {th th' : Thread}
    (h : (threads.set tid th).get? tid' = some th') :
    (tid' = tid ∧ th' = th) ∨ (tid' ≠ tid ∧ threads.get? tid' = some th') := by
  rw [Dict.get?_set] at h
  by_cases heq : tid' = tid
  · exact Or.inl ⟨heq, by simpa [heq] using h.symm⟩
  · exact Or.inr ⟨heq, by simpa [heq] using h⟩

/-- Looking up a thread after one has ended. -/
theorem get?_ended {threads : Dict Nat Thread} {tid tid' : Nat} {th' : Thread}
    (h : (threads.erase tid).get? tid' = some th') :
    tid' ≠ tid ∧ threads.get? tid' = some th' := by
  rw [Dict.get?_erase] at h
  by_cases heq : tid' = tid
  · simp [heq] at h
  · exact ⟨heq, by simpa [heq] using h⟩

/-! ## Properties that extracted files inherit -/

theorem all_moved {P : FileObject → Prop} {task' : FileObject} {phase' : Phase}
    (hthreads : s'.threads = s.threads.set tid ⟨task', phase'⟩)
    (hqueue : ∀ fo ∈ s'.inQueue, P fo) (htask : P task') (h : s.All P) : s'.All P := by
  refine ⟨hqueue, ?_⟩
  intro tid' task'' phase'' hget
  rw [hthreads] at hget
  rcases get?_moved hget with ⟨-, heq⟩ | ⟨-, hold⟩
  · cases heq
    exact htask
  · exact h.task tid' task'' phase'' hold

theorem all_ended {P : FileObject → Prop} (hthreads : s'.threads = s.threads.erase tid)
    (hqueue : s'.inQueue = s.inQueue) (h : s.All P) : s'.All P := by
  refine ⟨hqueue ▸ h.queue, ?_⟩
  intro tid' task' phase' hget
  rw [hthreads] at hget
  exact h.task tid' task' phase' (get?_ended hget).2

/-- A property that what is put into the queue has, and that included files do
not take away, is one of all tasks. -/
theorem next_tasks {maxDepth : Nat} {a : Action} {P : FileObject → Prop}
    (hnext : Next maxDepth s a s')
    (hincluded : ∀ task objects, P task → P (task.includeFiles objects))
    (hadd : ∀ fw, a = .addTask fw → P { fw with rootUid := some fw.uid })
    (hput : ∀ tid task fo rest, a = .put tid →
      s.threads.get? tid = some ⟨task, .scheduling (fo :: rest)⟩ → P fo)
    (h : s.All P) : s'.All P := by
  cases hnext with
  | addTask hfw =>
      refine ⟨?_, h.task⟩
      intro fo hfo
      rcases List.mem_append.1 hfo with hold | hnew
      · exact h.queue fo hold
      · rw [List.mem_singleton.1 hnew]
        exact hadd _ rfl
  | startThread hqueue hfree =>
      refine all_moved (s := s) rfl ?_ (h.queue _ (hqueue ▸ List.mem_cons_self)) h
      intro fo hfo
      exact h.queue fo (hqueue ▸ List.mem_cons_of_mem _ hfo)
  | enterKnown hget => exact all_moved (s := s) rfl h.queue (h.task _ _ _ hget) h
  | enterNew hget => exact all_moved (s := s) rfl h.queue (h.task _ _ _ hget) h
  | enterFile hget => exact all_moved (s := s) rfl h.queue (h.task _ _ _ hget) h
  | enterSkip hget => exact all_ended (s := s) rfl rfl h
  | storeEntry hget => exact all_moved (s := s) rfl h.queue (h.task _ _ _ hget) h
  | unpack hget =>
      refine all_moved (s := s) rfl h.queue ?_ h
      rw [unpack_task]
      exact hincluded _ _ (h.task _ _ _ hget)
  | extractionError hget => exact all_moved (s := s) rfl h.queue (h.task _ _ _ hget) h
  | query hget => exact all_moved (s := s) rfl h.queue (h.task _ _ _ hget) h
  | save hget => exact all_moved (s := s) rfl h.queue (h.task _ _ _ hget) h
  | postUnpack hget => exact all_moved (s := s) rfl h.queue (h.task _ _ _ hget) h
  | dbInterfaceError db hget => exact all_moved (s := s) rfl h.queue (h.task _ _ _ hget) h
  | raises hget => exact all_ended (s := s) rfl rfl h
  | raisesLocked hget => exact all_ended (s := s) rfl rfl h
  | fetchNone hget => exact all_moved (s := s) rfl h.queue (h.task _ _ _ hget) h
  | fetch hget => exact all_moved (s := s) rfl h.queue (h.task _ _ _ hget) h
  | dbCall hget => exact all_moved (s := s) rfl h.queue (h.task _ _ _ hget) h
  | writeBackPop hget => exact all_moved (s := s) rfl h.queue (h.task _ _ _ hget) h
  | writeBackKeyError hget => exact all_ended (s := s) rfl rfl h
  | writeBackSet hget => exact all_moved (s := s) rfl h.queue (h.task _ _ _ hget) h
  | @put tid task fo rest hget =>
      refine all_moved (s := s) rfl ?_ (h.task _ _ _ hget) h
      intro g hg
      rcases List.mem_append.1 hg with hold | hnew
      · exact h.queue g hold
      · rw [List.mem_singleton.1 hnew]
        exact hput tid task fo rest rfl hget
  | finish hget => exact all_ended (s := s) rfl rfl h
  | cancelAbsent => exact ⟨h.queue, h.task⟩
  | cancelTest => exact ⟨h.queue, h.task⟩
  | cancelRaises => exact ⟨h.queue, h.task⟩
  | cancelPop => exact ⟨h.queue, h.task⟩

/-- An inherited property that submitted firmware have is one of all tasks. -/
theorem next_all {maxDepth : Nat} {a : Action} {P : FileObject → Prop} (hP : Inherited P)
    (hnext : Next maxDepth s a s')
    (hadd : ∀ fw, a = .addTask fw → P { fw with rootUid := some fw.uid })
    (hok : ∀ tid task phase, s.threads.get? tid = some ⟨task, phase⟩ → PhaseOk task phase)
    (h : s.All P) : s'.All P := by
  refine next_tasks hnext hP.included hadd ?_ h
  intro tid task fo rest _ hget
  have hchildren : Children task (fo :: rest) := hok _ _ _ hget
  exact hP.child task fo (hchildren.child fo List.mem_cons_self) (h.task _ _ _ hget)

/-! ## Steps -/

/-- A thread moves on, to a phase that holds the lock if it is critical; the
lock is only taken when it is free or by the thread itself. -/
theorem basic_move {lock : Option Nat}
    (hthreads : s'.threads = s.threads.set tid ⟨task, phase⟩) (hlock' : s'.syncLock = lock)
    (hcrit : phase.Critical → lock = some tid)
    (hothers : ∀ tid' task' phase', tid' ≠ tid → s.threads.get? tid' = some ⟨task', phase'⟩ →
      phase'.Critical → lock = some tid')
    (hok : PhaseOk task phase) (hrooted : s'.All Rooted) (h : Basic s) : Basic s' := by
  refine ⟨?_, ?_, hrooted⟩
  · intro tid' task' phase' hget hcrit'
    rw [hthreads] at hget
    rw [hlock']
    rcases get?_moved hget with ⟨rfl, heq⟩ | ⟨hne, hold⟩
    · cases heq
      exact hcrit hcrit'
    · exact hothers tid' task' phase' hne hold hcrit'
  · intro tid' task' phase' hget
    rw [hthreads] at hget
    rcases get?_moved hget with ⟨-, heq⟩ | ⟨-, hold⟩
    · cases heq
      exact hok
    · exact h.ok tid' task' phase' hold

/-- A thread moves on outside of the critical sections; the lock stays. -/
theorem basic_plain {task' : FileObject} {phase' : Phase}
    (hthreads : s'.threads = s.threads.set tid ⟨task', phase'⟩)
    (hlock : s'.syncLock = s.syncLock) (hplain : ¬ phase'.Critical) (hok : PhaseOk task' phase')
    (hrooted : s'.All Rooted) (h : Basic s) : Basic s' :=
  basic_move hthreads hlock (fun hc => absurd hc hplain)
    (fun tid' t p _ hget hc => h.critical tid' t p hget hc) hok hrooted h

/-- A thread leaves its critical section. -/
theorem basic_leave {task' : FileObject} {phase' : Phase}
    (hget : s.threads.get? tid = some ⟨task, phase⟩) (hcrit : phase.Critical)
    (hthreads : s'.threads = s.threads.set tid ⟨task', phase'⟩) (hlock : s'.syncLock = none)
    (hplain : ¬ phase'.Critical) (hok : PhaseOk task' phase') (hrooted : s'.All Rooted)
    (h : Basic s) : Basic s' := by
  refine basic_move hthreads hlock (fun hc => absurd hc hplain) ?_ hok hrooted h
  intro tid' t p hne hget' hc
  exact absurd (h.unique hget hcrit hget' hc) hne

/-- A thread ends outside of the critical sections, or giving back the lock. -/
theorem basic_end (hget : s.threads.get? tid = some ⟨task, phase⟩)
    (hthreads : s'.threads = s.threads.erase tid)
    (hlock : s'.syncLock = s.syncLock ∨ phase.Critical) (hrooted : s'.All Rooted) (h : Basic s) :
    Basic s' := by
  refine ⟨?_, ?_, hrooted⟩
  · intro tid' task' phase' hget' hcrit'
    rw [hthreads] at hget'
    rcases get?_ended hget' with ⟨hne, hold⟩
    rcases hlock with hlock | hcrit
    · rw [hlock]
      exact h.critical tid' task' phase' hold hcrit'
    · exact absurd (h.unique hget hcrit hold hcrit') hne
  · intro tid' task' phase' hget'
    rw [hthreads] at hget'
    exact h.ok tid' task' phase' (get?_ended hget').2

theorem init_basic {maxDepth : Nat} (s : State) (h : (machine maxDepth).Init s) : Basic s := by
  rcases h with ⟨db, rfl⟩
  refine ⟨?_, ?_, ⟨?_, ?_⟩⟩
  · intro tid task phase hget
    cases hget
  · intro tid task phase hget
    cases hget
  · intro fo hfo
    cases hfo
  · intro tid task phase hget
    cases hget

theorem next_basic {maxDepth : Nat} {a : Action} (hnext : Next maxDepth s a s') (h : Basic s) :
    Basic s' := by
  have hrooted : s'.All Rooted :=
    next_all inherited_rooted hnext (fun _ _ => ⟨_, rfl, fun _ => rfl⟩) h.ok h.rooted
  cases hnext with
  | addTask hfw => exact ⟨h.critical, h.ok, hrooted⟩
  | startThread hqueue hfree =>
      exact basic_move (s := s) rfl rfl (fun hc => hc.elim)
        (fun tid' t p _ hget hc => h.critical tid' t p hget hc) trivial hrooted h
  | enterKnown hget hfw hlock hmem => exact basic_plain (s := s) rfl rfl id trivial hrooted h
  | enterNew hget hfw hlock hnew =>
      refine basic_move (s := s) rfl rfl (fun _ => rfl) ?_ hfw hrooted h
      intro tid' t p _ hget' hc
      exact absurd hc (h.free hlock hget')
  | enterFile hget hfw hroot hentry => exact basic_plain (s := s) rfl rfl id trivial hrooted h
  | enterSkip hget hfw hentry => exact basic_end (s := s) hget rfl (Or.inl rfl) hrooted h
  | storeEntry hget => exact basic_leave (s := s) hget trivial rfl rfl id trivial hrooted h
  | unpack hget => exact basic_plain (s := s) rfl rfl id (children_unpack _ _ _) hrooted h
  | extractionError hget => exact basic_plain (s := s) rfl rfl id (Children.nil _) hrooted h
  | query hget =>
      have hok := h.ok _ _ _ hget
      exact basic_plain (s := s) rfl rfl id hok hrooted h
  | save hget hsave =>
      have hok := h.ok _ _ _ hget
      exact basic_plain (s := s) rfl rfl id hok hrooted h
  | postUnpack hget =>
      have hok := h.ok _ _ _ hget
      exact basic_plain (s := s) rfl rfl id hok hrooted h
  | dbInterfaceError db hget hphase =>
      exact basic_plain (s := s) rfl rfl id (Children.nil _) hrooted h
  | raises hget hphase => exact basic_end (s := s) hget rfl (Or.inl rfl) hrooted h
  | raisesLocked hget => exact basic_end (s := s) hget rfl (Or.inr trivial) hrooted h
  | fetchNone hget hlock hentry =>
      exact basic_plain (s := s) rfl rfl id (Children.nil _) hrooted h
  | @fetch tid task extracted root cu hget hlock hroot hentry =>
      refine basic_move (s := s) rfl rfl (fun _ => rfl) ?_ ?_ hrooted h
      · intro tid' t p _ hget' hc
        exact absurd hc (h.free hlock hget')
      · have hextracted : Children task extracted := h.ok _ _ _ hget
        have hchildren := hextracted.sublist (updateCurrentlyUnpacked_kept cu task extracted)
        refine ⟨hchildren, ?_, ?_⟩
        · rw [updateCurrentlyUnpacked_remaining]
          exact Finset.notMem_erase _ _
        · intro fo hfo
          rw [updateCurrentlyUnpacked_remaining]
          refine Finset.mem_erase.2 ⟨(hchildren.child fo hfo).ne, Finset.mem_union_right _ ?_⟩
          exact List.mem_toFinset.2 (List.mem_map_of_mem hfo)
  | dbCall hget hcall =>
      have hok := h.ok _ _ _ hget
      exact basic_move (s := s) rfl rfl (fun _ => h.critical _ _ _ hget trivial)
        (fun tid' t p _ hget' hc => h.critical tid' t p hget' hc) hok hrooted h
  | writeBackPop hget hroot hempty hmem =>
      exact basic_leave (s := s) hget trivial rfl rfl id (h.ok _ _ _ hget).1 hrooted h
  | writeBackKeyError hget hroot hempty hgone =>
      exact basic_end (s := s) hget rfl (Or.inr trivial) hrooted h
  | writeBackSet hget hroot hne =>
      exact basic_leave (s := s) hget trivial rfl rfl id (h.ok _ _ _ hget).1 hrooted h
  | put hget =>
      have hchildren := h.ok _ _ _ hget
      exact basic_move (s := s) rfl rfl (fun hc => hc.elim)
        (fun tid' t p _ hget' hc => h.critical tid' t p hget' hc)
        (hchildren.sublist (List.sublist_cons_self _ _)) hrooted h
  | finish hget => exact basic_end (s := s) hget rfl (Or.inl rfl) hrooted h
  | cancelAbsent hidle hgone => exact ⟨h.critical, h.ok, hrooted⟩
  | cancelTest hidle hmem => exact ⟨h.critical, h.ok, hrooted⟩
  | cancelRaises hcancelling hgone => exact ⟨h.critical, h.ok, hrooted⟩
  | cancelPop hcancelling hmem => exact ⟨h.critical, h.ok, hrooted⟩

theorem reach_basic {maxDepth : Nat} {ok : State → Action → Prop}
    (h : (machine maxDepth).Reach ok s) : Basic s :=
  Machine.reach_invariant init_basic (fun _ _ _ _ hstep => next_basic (next_of_step hstep)) h

/-- Every file object in the scheduler belongs to a firmware. -/
theorem Basic.rooted_held (h : Basic s) {x : Stage × FileObject} (hx : x ∈ s.held) :
    Rooted x.2 := by
  have hchildren : ∀ (task : FileObject) (stage : Stage) (objects : List FileObject),
      Rooted task → Children task objects → x ∈ objects.map (Prod.mk stage) → Rooted x.2 := by
    intro task stage objects hrooted hobjects hmem
    rcases List.mem_map.1 hmem with ⟨fo, hfo, rfl⟩
    exact ChildOf.rooted (hobjects.child fo hfo) hrooted
  rcases mem_held.1 hx with ⟨fo, hfo, rfl⟩ | ⟨tid, task, phase, hget, hmem⟩
  · exact h.rooted.queue fo hfo
  · have hrooted := h.rooted.task _ _ _ hget
    have hok := h.ok _ _ _ hget
    have hcons : ∀ (stage stage' : Stage) (objects : List FileObject), Children task objects →
        x ∈ (stage, task) ::ₘ (↑(objects.map (Prod.mk stage')) : Multiset (Stage × FileObject)) →
          Rooted x.2 := by
      intro stage stage' objects hobjects hmem
      rcases Multiset.mem_cons.1 hmem with rfl | hrest
      · exact hrooted
      · exact hchildren task stage' objects hrooted hobjects hrest
    cases phase with
    | started => rwa [Multiset.mem_singleton.1 hmem]
    | initializing => rwa [Multiset.mem_singleton.1 hmem]
    | unpacking => rwa [Multiset.mem_singleton.1 hmem]
    | querying extracted => exact hcons _ _ _ hok hmem
    | saving present extracted => exact hcons _ _ _ hok hmem
    | posting extracted => exact hcons _ _ _ hok hmem
    | updating extracted => exact hcons _ _ _ hok hmem
    | recording entry calls kept => exact hcons _ _ _ hok.1 hmem
    | scheduling kept => exact hchildren task _ _ hrooted hok hmem

end FactCore.Unpacking
