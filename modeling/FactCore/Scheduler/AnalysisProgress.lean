import FactCore.Scheduler.AnalysisStatus

/-! # The status worker keeps its books

Runs of the status worker, from the messages of all producers in the order in
which they reach its queue.

In every run without `add_update` messages the sets and counters of every
running firmware stay in step, and a firmware is finished only when all files
announced for it are completed (`progress_tracked`).
-/

namespace FactCore.Status

open Tla

namespace Worker

theorem statusOf_eq_some {w : Worker} {rootUid : Option Uid} {root : Uid}
    {st : FwAnalysisStatus} (h : w.statusOf rootUid = some (root, st)) :
    rootUid = some root ∧ w.currentlyRunning.get? root = some st := by
  cases rootUid with
  | none => simp [statusOf] at h
  | some r =>
      simp only [statusOf, Option.bind_some, Option.map_eq_some_iff, Prod.mk.injEq] at h
      rcases h with ⟨st', hst, rfl, rfl⟩
      exact ⟨rfl, hst⟩

@[simp] theorem statusOf_some (w : Worker) (root : Uid) :
    w.statusOf (some root) = (w.currentlyRunning.get? root).map (root, ·) := rfl

@[simp] theorem statusOf_none (w : Worker) : w.statusOf none = none := rfl

/-- Only `add_update` can raise. -/
theorem updateStatus_ok {w : Worker} {now : Time} {m : Message}
    (h : ∀ u included, m ≠ .addUpdate u included) : ∃ w', w.updateStatus now m = .ok w' := by
  cases m with
  | addUpdate u included => exact absurd rfl (h u included)
  | addFirmware => exact ⟨_, rfl⟩
  | addFile => exact ⟨_, rfl⟩
  | addAnalysis => exact ⟨_, rfl⟩
  | removeFile => exact ⟨_, rfl⟩
  | isCurrentlyAnalyzed => exact ⟨_, rfl⟩
  | cancel => exact ⟨_, rfl⟩

/-- What `_remove_object` can do: nothing, complete a file, or complete the
last file of a firmware. -/
theorem removeObject_cases (w : Worker) (now : Time) (uid : Uid) (rootUid : Option Uid) :
    (w.removeObject now uid rootUid = w ∧ ∀ root st, rootUid = some root →
      w.currentlyRunning.get? root = some st → uid ∉ st.filesToAnalyze) ∨
    ∃ root st, rootUid = some root ∧ w.currentlyRunning.get? root = some st ∧
      uid ∈ st.filesToAnalyze ∧
      (((st.complete uid).finished = false ∧
          w.removeObject now uid rootUid = w.setRunning root (st.complete uid)) ∨
        ((st.complete uid).finished = true ∧ w.removeObject now uid rootUid =
          { w with
            recentlyFinished :=
              w.recentlyFinished.set root (initRecentlyFinished now (st.complete uid))
            currentlyRunning := w.currentlyRunning.erase root
            currentlyAnalyzed := w.currentlyAnalyzed.erase root })) := by
  unfold removeObject
  cases hstatus : w.statusOf rootUid with
  | none =>
      refine Or.inl ⟨rfl, ?_⟩
      intro root st hroot hst
      subst hroot
      simp [hst] at hstatus
  | some p =>
      rcases p with ⟨root, st⟩
      rcases statusOf_eq_some hstatus with ⟨hroot, hst⟩
      by_cases hu : uid ∈ st.filesToAnalyze
      · refine Or.inr ⟨root, st, hroot, hst, hu, ?_⟩
        cases hfin : (st.complete uid).finished with
        | false => exact Or.inl ⟨rfl, by simp [hu, hfin]⟩
        | true => exact Or.inr ⟨rfl, by simp [hu, hfin]⟩
      · refine Or.inl ⟨by simp [hu], ?_⟩
        intro root' st' hroot' hst'
        have heq : root = root' := Option.some.inj (hroot.symm.trans hroot')
        subst heq
        rw [hst] at hst'
        exact Option.some.inj hst' ▸ hu

end Worker

/-! ## Runs -/

/-- A step of the worker loop: a message is handled at some time, or the old
entries of the displayed lists are cleared. -/
inductive Event where
  | message (now : Time) (m : Message)
  | clear (now : Time)

/-- A handler that raises ends the loop. -/
def step : Event → Worker → Option Worker
  | .message now m, w => (w.updateStatus now m).toOption
  | .clear now, w => some (w.clearRecentlyFinished now)

/-- The worker loop. -/
def machine : Machine Worker Event where
  Init := fun w => w = Worker.init
  step := step

/-- Messages of unpacking and analysis, as opposed to updates; the included
files of an object do not contain the object itself. -/
def Tracking : Worker → Event → Prop
  | _, .message _ (.addUpdate _ _) => False
  | _, .message _ (.addFirmware uid included _ _) => uid ∉ included
  | _, .message _ (.addFile uid _ included) => uid ∉ included
  | _, _ => True

instance : ∀ w e, Decidable (Tracking w e)
  | _, .message _ (.addUpdate _ _) => inferInstanceAs (Decidable False)
  | _, .message _ (.addFirmware _ _ _ _) => inferInstanceAs (Decidable (_ ∉ _))
  | _, .message _ (.addFile _ _ _) => inferInstanceAs (Decidable (_ ∉ _))
  | _, .message _ (.addAnalysis _ _) => inferInstanceAs (Decidable True)
  | _, .message _ (.removeFile _ _) => inferInstanceAs (Decidable True)
  | _, .message _ .isCurrentlyAnalyzed => inferInstanceAs (Decidable True)
  | _, .message _ (.cancel _) => inferInstanceAs (Decidable True)
  | _, .clear _ => inferInstanceAs (Decidable True)

/-- What a message adds to the files announced for `root`; `add_firmware`
starts anew with the firmware itself and its included files. -/
def announce (root : Uid) (acc : Finset Uid) : Event → Finset Uid
  | .message _ (.addFirmware uid included _ _) => if uid = root then insert root included else acc
  | .message _ (.addFile _ rootUid included) => if rootUid = some root then acc ∪ included else acc
  | _ => acc

/-- The files announced for `root` since its last `add_firmware`. -/
def announced (root : Uid) (events : List Event) : Finset Uid :=
  events.foldl (announce root) ∅

@[simp] theorem announced_snoc (root : Uid) (events : List Event) (e : Event) :
    announced root (events ++ [e]) = announce root (announced root events) e := by
  simp [announced]

/-- The books of all running firmware are consistent, the two dicts agree, and
everything announced for a running firmware is in one of its sets. -/
structure Inv (events : List Event) (w : Worker) : Prop where
  consistent : ∀ root st, w.currentlyRunning.get? root = some st → st.Consistent
  analyzed : ∀ root, root ∈ w.currentlyAnalyzed ↔ root ∈ w.currentlyRunning
  announced : ∀ root st, w.currentlyRunning.get? root = some st →
    announced root events ⊆ st.tracked

theorem init_inv : Inv [] Worker.init := by
  refine ⟨?_, ?_, ?_⟩
  · intro root st hst
    simp [Worker.init] at hst
  · intro root
    simp [Worker.init, Dict.mem_iff]
  · intro root st hst
    simp [Worker.init] at hst

/-- A handler that gives one firmware a new consistent status. -/
theorem set_inv {events events' : List Event} {w w' : Worker} {root : Uid}
    {st : FwAnalysisStatus} (hrun : w'.currentlyRunning = w.currentlyRunning.set root st)
    (hana : w'.currentlyAnalyzed = insert root w.currentlyAnalyzed) (hst : st.Consistent)
    (hroot : announced root events' ⊆ st.tracked)
    (hother : ∀ r, r ≠ root → announced r events' = announced r events) (h : Inv events w) :
    Inv events' w' := by
  refine ⟨?_, ?_, ?_⟩
  · intro r st' hr
    rw [hrun, Dict.get?_set] at hr
    by_cases hreq : r = root
    · have heq : st = st' := by simpa [hreq] using hr
      exact heq ▸ hst
    · exact h.consistent r st' (by simpa [hreq] using hr)
  · intro r
    rw [hrun, hana, Dict.mem_set, Finset.mem_insert, h.analyzed]
  · intro r st' hr
    rw [hrun, Dict.get?_set] at hr
    by_cases hreq : r = root
    · have heq : st = st' := by simpa [hreq] using hr
      exact hreq ▸ heq ▸ hroot
    · rw [hother r hreq]
      exact h.announced r st' (by simpa [hreq] using hr)

/-- A handler that gives a running firmware a new consistent status. -/
theorem setRunning_inv {events events' : List Event} {w : Worker} {root : Uid}
    {st st' : FwAnalysisStatus} (hold : w.currentlyRunning.get? root = some st')
    (hst : st.Consistent) (hroot : announced root events' ⊆ st.tracked)
    (hother : ∀ r, r ≠ root → announced r events' = announced r events) (h : Inv events w) :
    Inv events' (w.setRunning root st) := by
  have hmem : root ∈ w.currentlyAnalyzed := (h.analyzed root).2 (Dict.mem_of_get? hold)
  exact set_inv rfl (Finset.insert_eq_of_mem hmem).symm hst hroot hother h

/-- A handler that ends the tracking of one firmware. -/
theorem erase_inv {events events' : List Event} {w w' : Worker} {root : Uid}
    (hrun : w'.currentlyRunning = w.currentlyRunning.erase root)
    (hana : w'.currentlyAnalyzed = w.currentlyAnalyzed.erase root)
    (hother : ∀ r, announced r events' = announced r events) (h : Inv events w) :
    Inv events' w' := by
  have hget : ∀ r st, w'.currentlyRunning.get? r = some st →
      w.currentlyRunning.get? r = some st := by
    intro r st hr
    rw [hrun, Dict.get?_erase] at hr
    split at hr
    · cases hr
    · exact hr
  refine ⟨?_, ?_, ?_⟩
  · intro r st hr
    exact h.consistent r st (hget r st hr)
  · intro r
    rw [hrun, hana, Dict.mem_erase, Finset.mem_erase, h.analyzed]
  · intro r st hr
    rw [hother r]
    exact h.announced r st (hget r st hr)

/-- A step that changes neither the running firmware nor the announced files. -/
theorem frame_inv {events events' : List Event} {w w' : Worker}
    (hrun : w'.currentlyRunning = w.currentlyRunning)
    (hana : w'.currentlyAnalyzed = w.currentlyAnalyzed)
    (hannounced : ∀ r st, w.currentlyRunning.get? r = some st →
      announced r events' = announced r events) (h : Inv events w) : Inv events' w' := by
  refine ⟨?_, ?_, ?_⟩
  · intro r st hr
    exact h.consistent r st (hrun ▸ hr)
  · intro r
    rw [hrun, hana, h.analyzed]
  · intro r st hr
    rw [hrun] at hr
    rw [hannounced r st hr]
    exact h.announced r st hr

theorem addFirmware_inv {events : List Event} {w : Worker} (now : Time) {uid : Uid}
    {included : Finset Uid} (hid : String) (scheduled : Option (List Plugin))
    (hself : uid ∉ included) (h : Inv events w) :
    Inv (events ++ [.message now (.addFirmware uid included hid scheduled)])
      (w.addFirmware now uid included hid scheduled) := by
  refine set_inv rfl rfl (FwAnalysisStatus.start_consistent hself) ?_ ?_ h
  · -- the files announced anew are those the new status starts with
    intro u hu
    simp only [announced_snoc, announce, if_true, Finset.mem_insert] at hu
    simp only [FwAnalysisStatus.tracked, FwAnalysisStatus.start, Finset.mem_union,
      Finset.mem_singleton]
    tauto
  · intro r hr
    simp [announce, Ne.symm hr]

theorem addIncludedFile_inv {events : List Event} {w : Worker} (now : Time) (uid : Uid)
    (rootUid : Option Uid) (included : Finset Uid) (h : Inv events w) :
    Inv (events ++ [.message now (.addFile uid rootUid included)])
      (w.addIncludedFile uid rootUid included) := by
  unfold Worker.addIncludedFile
  cases hstatus : w.statusOf rootUid with
  | none =>
      -- the firmware is not running: its announced files are of no consequence
      refine frame_inv rfl rfl ?_ h
      intro r st hr
      have hne : rootUid ≠ some r := by
        intro heq
        subst heq
        simp [hr] at hstatus
      simp [announce, hne]
  | some p =>
      rcases p with ⟨root, st⟩
      rcases Worker.statusOf_eq_some hstatus with ⟨hroot, hst⟩
      have hcons := h.consistent root st hst
      refine setRunning_inv hst
        (FwAnalysisStatus.moveToAnalyze_consistent uid
          (FwAnalysisStatus.addNewFiles_consistent included hcons)) ?_ ?_ h
      · rw [FwAnalysisStatus.tracked_moveToAnalyze, FwAnalysisStatus.tracked_addNewFiles,
          announced_snoc]
        simp only [announce, hroot, if_true]
        exact Finset.union_subset_union (h.announced root st hst) (Finset.Subset.refl _)
      · intro r hr
        have hne : rootUid ≠ some r := by
          rw [hroot]
          intro heq
          exact hr (Option.some.inj heq).symm
        simp [announce, hne]

theorem addAnalysis_inv {events : List Event} {w : Worker} (now : Time) (rootUid : Option Uid)
    (plugin : Plugin) (h : Inv events w) :
    Inv (events ++ [.message now (.addAnalysis rootUid plugin)])
      (w.addAnalysis rootUid plugin) := by
  unfold Worker.addAnalysis
  cases hstatus : w.statusOf rootUid with
  | none => exact frame_inv rfl rfl (fun r _ _ => by simp [announce]) h
  | some p =>
      rcases p with ⟨root, st⟩
      have hst := (Worker.statusOf_eq_some hstatus).2
      have hcons := h.consistent root st hst
      -- only the plugin counters change
      have hcons' : (st.addAnalysis plugin).Consistent :=
        ⟨hcons.unpackAnalyze, hcons.unpackCompleted, hcons.analyzeCompleted, hcons.total,
          hcons.unpacked, hcons.analyzed⟩
      refine setRunning_inv hst hcons' ?_ (fun r _ => by simp [announce]) h
      rw [announced_snoc]
      exact h.announced root st hst

theorem removeObject_inv {events : List Event} {w : Worker} (now : Time) (uid : Uid)
    (rootUid : Option Uid) (h : Inv events w) :
    Inv (events ++ [.message now (.removeFile uid rootUid)])
      (w.removeObject now uid rootUid) := by
  rcases w.removeObject_cases now uid rootUid with
    ⟨heq, -⟩ | ⟨root, st, -, hst, hu, ⟨-, heq⟩ | ⟨-, heq⟩⟩
  · rw [heq]
    exact frame_inv rfl rfl (fun r _ _ => by simp [announce]) h
  · rw [heq]
    refine setRunning_inv hst
      (FwAnalysisStatus.complete_consistent hu (h.consistent root st hst)) ?_
      (fun r _ => by simp [announce]) h
    rw [announced_snoc, FwAnalysisStatus.tracked_complete hu]
    exact h.announced root st hst
  · rw [heq]
    exact erase_inv rfl rfl (fun r => by simp [announce]) h

theorem cancelAnalysis_inv {events : List Event} {w : Worker} (now : Time) (root : Uid)
    (h : Inv events w) :
    Inv (events ++ [.message now (.cancel root)]) (w.cancelAnalysis now root) := by
  unfold Worker.cancelAnalysis
  split
  · exact frame_inv rfl rfl (fun r _ _ => by simp [announce]) h
  · exact erase_inv rfl rfl (fun r => by simp [announce]) h

theorem step_inv (events : List Event) (w : Worker) (e : Event) (w' : Worker)
    (hok : Tracking w e) (hstep : machine.step e w = some w') (h : Inv events w) :
    Inv (events ++ [e]) w' := by
  cases e with
  | clear now =>
      have heq : w.clearRecentlyFinished now = w' := Option.some.inj hstep
      subst heq
      exact frame_inv (w := w) rfl rfl (fun r _ _ => by simp [announce]) h
  | message now m =>
      cases m with
      | addUpdate u included => exact hok.elim
      | addFirmware uid included hid scheduled =>
          cases Option.some.inj hstep
          exact addFirmware_inv now hid scheduled hok h
      | addFile uid rootUid included =>
          cases Option.some.inj hstep
          exact addIncludedFile_inv now uid rootUid included h
      | addAnalysis rootUid plugin =>
          cases Option.some.inj hstep
          exact addAnalysis_inv now rootUid plugin h
      | removeFile uid rootUid =>
          cases Option.some.inj hstep
          exact removeObject_inv now uid rootUid h
      | isCurrentlyAnalyzed =>
          cases Option.some.inj hstep
          exact frame_inv rfl rfl (fun r _ _ => by simp [announce]) h
      | cancel root =>
          cases Option.some.inj hstep
          exact cancelAnalysis_inv now root h

theorem steps_inv {events : List Event} {w : Worker}
    (h : machine.Steps Tracking Worker.init events w) : Inv events w :=
  h.invariant_trace init_inv step_inv

/-! ### Finishing -/

/-- The message moves `root` to the finished firmware: its entry there changes,
or it stops running although it was not cancelled. -/
def MovesToFinished (w : Worker) (m : Message) (w' : Worker) (root : Uid) : Prop :=
  w'.recentlyFinished.get? root ≠ w.recentlyFinished.get? root ∨
    (root ∈ w.currentlyRunning ∧ root ∉ w'.currentlyRunning ∧ m ≠ .cancel root)

/-- Only the completion of the last file of a firmware moves it. -/
theorem moves_removeFile {w w' : Worker} {now : Time} {m : Message} {root : Uid}
    (hm : ∀ u included, m ≠ .addUpdate u included) (hstep : w.updateStatus now m = .ok w')
    (hmoves : MovesToFinished w m w' root) :
    ∃ uid st, m = .removeFile uid (some root) ∧ w.currentlyRunning.get? root = some st ∧
      uid ∈ st.filesToAnalyze ∧ (st.complete uid).finished = true ∧
      w' = w.removeObject now uid (some root) ∧ root ∉ w'.currentlyRunning := by
  -- any other message keeps the finished firmware and, unless cancelled, the running ones
  have hkeeps : w'.recentlyFinished = w.recentlyFinished →
      (∀ r, r ∈ w.currentlyRunning → r ∈ w'.currentlyRunning ∨ m = .cancel r) → False := by
    intro hfin hrun
    rcases hmoves with hchange | ⟨hin, hout, hcancel⟩
    · exact hchange (by rw [hfin])
    · rcases hrun root hin with hin' | heq
      · exact hout hin'
      · exact hcancel heq
  have hset : ∀ (r : Uid) (st : FwAnalysisStatus) (v : Uid), v ∈ w.currentlyRunning →
      v ∈ (w.setRunning r st).currentlyRunning ∨ m = .cancel v :=
    fun r st v hv => Or.inl (Dict.mem_set.2 (Or.inr hv))
  cases m with
  | addUpdate u included => exact absurd rfl (hm u included)
  | addFirmware uid included hid scheduled =>
      cases Except.ok.inj hstep
      exact (hkeeps rfl (hset _ _)).elim
  | addFile uid rootUid included =>
      cases Except.ok.inj hstep
      simp only [Worker.addIncludedFile] at hkeeps
      split at hkeeps
      · exact (hkeeps rfl fun _ => Or.inl).elim
      · exact (hkeeps rfl (hset _ _)).elim
  | addAnalysis rootUid plugin =>
      cases Except.ok.inj hstep
      simp only [Worker.addAnalysis] at hkeeps
      split at hkeeps
      · exact (hkeeps rfl fun _ => Or.inl).elim
      · exact (hkeeps rfl (hset _ _)).elim
  | removeFile uid rootUid =>
      have heq : w.removeObject now uid rootUid = w' := Except.ok.inj hstep
      rcases w.removeObject_cases now uid rootUid with
        ⟨hsame, -⟩ | ⟨r, st, hroot, hst, hu, ⟨-, hsame⟩ | ⟨hfin, hdone⟩⟩
      · rw [← heq, hsame] at hkeeps
        exact (hkeeps rfl fun _ => Or.inl).elim
      · rw [← heq, hsame] at hkeeps
        exact (hkeeps rfl (hset _ _)).elim
      · -- the firmware that was completed is `root`
        have hr : r = root := by
          by_contra hne
          rw [← heq, hdone] at hmoves
          rcases hmoves with hchange | ⟨hin, hout, -⟩
          · exact hchange (Dict.get?_set_ne _ _ (Ne.symm hne))
          · exact hout (Dict.mem_erase.2 ⟨Ne.symm hne, hin⟩)
        subst hr
        subst hroot
        refine ⟨uid, st, rfl, hst, hu, hfin, heq.symm, ?_⟩
        rw [← heq, hdone]
        simp
  | isCurrentlyAnalyzed =>
      cases Except.ok.inj hstep
      exact (hkeeps rfl fun _ => Or.inl).elim
  | cancel r =>
      cases Except.ok.inj hstep
      simp only [Worker.cancelAnalysis] at hkeeps
      split at hkeeps
      · exact (hkeeps rfl fun _ => Or.inl).elim
      · refine (hkeeps rfl ?_).elim
        intro v hv
        by_cases hvr : v = r
        · exact Or.inr (by rw [hvr])
        · exact Or.inl (Dict.mem_erase.2 ⟨hvr, hv⟩)

/-- The books are kept over every sequence of messages of unpacking and
analysis: the sets and counters of a running firmware are in step, the two
dicts of running firmware have the same keys, and the message that moves a
firmware to the finished ones completes the last of all files announced for it
since it was added. -/
theorem progress_tracked {events : List Event} {w : Worker}
    (h : machine.Steps Tracking Worker.init events w) :
    (∀ root st, w.currentlyRunning.get? root = some st → st.Consistent) ∧
      (∀ root, root ∈ w.currentlyRunning ↔ root ∈ w.currentlyAnalyzed) ∧
      ∀ now m w', Tracking w (.message now m) → w.updateStatus now m = .ok w' →
        ∀ root, MovesToFinished w m w' root →
          ∃ uid st, m = .removeFile uid (some root) ∧
            w.currentlyRunning.get? root = some st ∧
            announced root events ⊆ (st.complete uid).completedFiles := by
  have hinv := steps_inv h
  refine ⟨hinv.consistent, fun root => (hinv.analyzed root).symm, ?_⟩
  intro now m w' hok hstep root hmoves
  have hm : ∀ u included, m ≠ .addUpdate u included := by
    intro u included heq
    subst heq
    exact hok
  rcases moves_removeFile hm hstep hmoves with ⟨uid, st, hm, hst, hu, hfin, -, -⟩
  refine ⟨uid, st, hm, hst, ?_⟩
  -- in the end everything announced is completed, for nothing else is left
  have hall := hinv.announced root st hst
  rw [← FwAnalysisStatus.tracked_complete hu] at hall
  rcases FwAnalysisStatus.finished_iff.1 hfin with ⟨hunpack, hana⟩
  simpa [FwAnalysisStatus.tracked, hunpack, hana] using hall

/-- A firmware with one file that is unpacked and of which the firmware itself
is completed first. -/
def oneFile : List Event :=
  [.message 0 (.addFirmware "fw" {"a"} "hid" none), .message 1 (.addFile "a" (some "fw") ∅),
    .message 2 (.removeFile "fw" (some "fw"))]

theorem oneFile_isSome : (machine.run Tracking oneFile Worker.init).isSome = true := by
  decide +kernel

/-- The theorem at the end of the run `oneFile`, where completing the file `a`
finishes the firmware. -/
theorem progress_tracked_oneFile :
    ∃ uid st, Message.removeFile "a" (some "fw") = .removeFile uid (some "fw") ∧
      ((machine.run Tracking oneFile Worker.init).get oneFile_isSome).currentlyRunning.get? "fw" =
        some st ∧
      announced "fw" oneFile ⊆ (st.complete uid).completedFiles :=
  (progress_tracked (Machine.steps_of_run (Option.some_get oneFile_isSome).symm)).2.2 3
    (.removeFile "a" (some "fw")) _ trivial rfl "fw" (Or.inr ⟨by decide +kernel, by decide +kernel, by decide⟩)

end FactCore.Status
