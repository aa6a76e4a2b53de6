import FactCore.Scheduler.AnalysisProgress

/-! # Updates in the status worker

`AnalysisStatus.add_update` enqueues two messages. Other processes may put
messages between them, and `_add_update` takes for granted that they did not
matter: it looks the firmware up without a test, and it overwrites the counters
as if no file had been completed yet. `update_iff` says exactly which messages
matter.
-/

namespace FactCore.Status

open Tla

/-- Handle messages in the order of the queue; an exception ends the worker. -/
def handleAll : List (Time × Message) → Worker → Except HandlerError Worker
  | [], w => .ok w
  | (now, m) :: rest, w => (w.updateStatus now m).bind (handleAll rest)

theorem handleAll_append (l l' : List (Time × Message)) (w : Worker) :
    handleAll (l ++ l') w = (handleAll l w).bind (handleAll l') := by
  induction l generalizing w with
  | nil => rfl
  | cons p rest ih =>
      rcases p with ⟨now, m⟩
      simp only [List.cons_append, handleAll]
      cases w.updateStatus now m with
      | error e => rfl
      | ok w' => exact ih w'

/-- The messages that other processes put into the queue for running analyses. -/
def Message.FromOthers : Message → Prop
  | .cancel _ => True
  | .removeFile _ _ => True
  | .addFile _ _ _ => True
  | .addAnalysis _ _ => True
  | _ => False

/-- The message neither cancels the firmware `fw` nor completes a file of it. -/
def Harmless (fw : Uid) (w : Worker) : Message → Prop
  | .cancel root => root ≠ fw
  | .removeFile uid rootUid => rootUid = some fw →
      ∀ st, w.currentlyRunning.get? fw = some st → uid ∉ st.filesToAnalyze
  | _ => True

/-- All messages are harmless for `fw` when they are handled. -/
def Undisturbed (fw : Uid) : List (Time × Message) → Worker → Prop
  | [], _ => True
  | (now, m) :: rest, w => Harmless fw w m ∧
      ∀ w', w.updateStatus now m = .ok w' → Undisturbed fw rest w'

/-- No handler has raised, and a status that `fw` has after the update lists
the firmware and its files as files to analyze, none of them as completed, and
counts them right. -/
def UpdatedRight (fw : Uid) (includedFiles : Finset Uid) (r : Except HandlerError Worker) : Prop :=
  ∃ w, r = .ok w ∧ ∀ st, w.currentlyRunning.get? fw = some st →
    st.filesToAnalyze = insert fw includedFiles ∧
    Disjoint st.filesToAnalyze st.completedFiles ∧
    st.totalFilesCount =
      st.filesToUnpack.card + st.filesToAnalyze.card + st.completedFiles.card ∧
    st.unpackedFilesCount = st.filesToAnalyze.card + st.completedFiles.card ∧
    st.analyzedFilesCount = st.completedFiles.card

/-! ## What a message does to one firmware -/

/-- A harmless message that leaves the status of `fw` as it was. -/
theorem same_cases {fw : Uid} {w w' : Worker} {P : Prop}
    (h : w'.currentlyRunning.get? fw = w.currentlyRunning.get? fw) (hP : P) :
    (w'.currentlyRunning.get? fw = none ∧ (w.currentlyRunning.get? fw = none ∨ ¬ P)) ∨
      ∃ st st', w.currentlyRunning.get? fw = some st ∧ w'.currentlyRunning.get? fw = some st' ∧
        ((P ∧ st'.completedFiles = st.completedFiles ∧
            st'.analyzedFilesCount = st.analyzedFilesCount) ∨
          (¬ P ∧ st'.completedFiles.Nonempty ∧ st.completedFiles ⊆ st'.completedFiles)) := by
  cases hst : w.currentlyRunning.get? fw with
  | none => exact Or.inl ⟨h.trans hst, Or.inl rfl⟩
  | some st => exact Or.inr ⟨st, st, rfl, h.trans hst, Or.inl ⟨hP, rfl, rfl⟩⟩

/-- A message that replaces the status of some firmware without completing a file. -/
theorem setRunning_cases {fw root : Uid} {w : Worker} {st st' : FwAnalysisStatus} {P : Prop}
    (hst : w.currentlyRunning.get? root = some st)
    (hdone : st'.completedFiles = st.completedFiles)
    (hcount : st'.analyzedFilesCount = st.analyzedFilesCount) (hP : P) :
    ((w.setRunning root st').currentlyRunning.get? fw = none ∧
        (w.currentlyRunning.get? fw = none ∨ ¬ P)) ∨
      ∃ st₁ st₂, w.currentlyRunning.get? fw = some st₁ ∧
        (w.setRunning root st').currentlyRunning.get? fw = some st₂ ∧
        ((P ∧ st₂.completedFiles = st₁.completedFiles ∧
            st₂.analyzedFilesCount = st₁.analyzedFilesCount) ∨
          (¬ P ∧ st₂.completedFiles.Nonempty ∧ st₁.completedFiles ⊆ st₂.completedFiles)) := by
  by_cases hroot : fw = root
  · subst hroot
    exact Or.inr ⟨st, st', hst, Dict.get?_set_self _ _ _, Or.inl ⟨hP, hdone, hcount⟩⟩
  · exact same_cases (Dict.get?_set_ne _ _ hroot) hP

/-- A message from another process leaves `fw` not running, which is its doing
only if it was harmful; or it keeps the completed files, if harmless, or adds
to them. -/
theorem others_cases (fw : Uid) {w w' : Worker} {now : Time} {m : Message}
    (hm : m.FromOthers) (h : w.updateStatus now m = .ok w') :
    (w'.currentlyRunning.get? fw = none ∧
        (w.currentlyRunning.get? fw = none ∨ ¬ Harmless fw w m)) ∨
      ∃ st st', w.currentlyRunning.get? fw = some st ∧ w'.currentlyRunning.get? fw = some st' ∧
        ((Harmless fw w m ∧ st'.completedFiles = st.completedFiles ∧
            st'.analyzedFilesCount = st.analyzedFilesCount) ∨
          (¬ Harmless fw w m ∧ st'.completedFiles.Nonempty ∧
            st.completedFiles ⊆ st'.completedFiles)) := by
  cases m with
  | addUpdate => exact hm.elim
  | addFirmware => exact hm.elim
  | isCurrentlyAnalyzed => exact hm.elim
  | addFile uid rootUid included =>
      cases Except.ok.inj h
      unfold Worker.addIncludedFile
      cases hstatus : w.statusOf rootUid with
      | none => exact same_cases rfl trivial
      | some p =>
          rcases p with ⟨root, st⟩
          have hst := (Worker.statusOf_eq_some hstatus).2
          refine setRunning_cases hst ?_ ?_ trivial
          · simp only [FwAnalysisStatus.moveToAnalyze]
            split <;> rfl
          · simp only [FwAnalysisStatus.moveToAnalyze]
            split <;> rfl
  | addAnalysis rootUid plugin =>
      cases Except.ok.inj h
      unfold Worker.addAnalysis
      cases hstatus : w.statusOf rootUid with
      | none => exact same_cases rfl trivial
      | some p =>
          rcases p with ⟨root, st⟩
          have hst := (Worker.statusOf_eq_some hstatus).2
          exact setRunning_cases hst rfl rfl trivial
  | removeFile uid rootUid =>
      have heq : w.removeObject now uid rootUid = w' := Except.ok.inj h
      rcases w.removeObject_cases now uid rootUid with
        ⟨hsame, hnot⟩ | ⟨root, st, hroot, hst, hu, hdone⟩
      · -- nothing is completed
        have hharm : Harmless fw w (.removeFile uid rootUid) :=
          fun hfw st hst => hnot fw st hfw hst
        exact same_cases (by rw [← heq, hsame]) hharm
      · by_cases hfw : fw = root
        · -- a file of `fw` is completed
          subst hfw
          have hharm : ¬ Harmless fw w (.removeFile uid rootUid) :=
            fun hcontra => hcontra hroot st hst hu
          rcases hdone with ⟨-, hset⟩ | ⟨-, hset⟩
          · refine Or.inr ⟨st, st.complete uid, hst, ?_, Or.inr ⟨hharm, ?_, ?_⟩⟩
            · rw [← heq, hset]
              exact Dict.get?_set_self _ _ _
            · exact ⟨uid, Finset.mem_insert_self _ _⟩
            · exact Finset.subset_insert _ _
          · refine Or.inl ⟨?_, Or.inr hharm⟩
            rw [← heq, hset]
            exact Dict.get?_erase_self _ _
        · have hharm : Harmless fw w (.removeFile uid rootUid) := by
            intro hcontra
            rw [hroot] at hcontra
            exact absurd (Option.some.inj hcontra).symm hfw
          rcases hdone with ⟨-, hset⟩ | ⟨-, hset⟩
          · exact same_cases (by rw [← heq, hset]; exact Dict.get?_set_ne _ _ hfw) hharm
          · exact same_cases (by rw [← heq, hset]; exact Dict.get?_erase_ne _ hfw) hharm
  | cancel root =>
      cases Except.ok.inj h
      by_cases hfw : root = fw
      · subst hfw
        have hharm : ¬ Harmless root w (.cancel root) := fun hcontra => hcontra rfl
        refine Or.inl ⟨?_, Or.inr hharm⟩
        unfold Worker.cancelAnalysis
        split
        · assumption
        · exact Dict.get?_erase_self _ _
      · refine same_cases ?_ hfw
        unfold Worker.cancelAnalysis
        split
        · rfl
        · exact Dict.get?_erase_ne _ (Ne.symm hfw)

/-! ## Between the two messages -/

/-- The firmware is running and no file of it was completed. -/
def Fresh (fw : Uid) (w : Worker) : Prop :=
  ∃ st, w.currentlyRunning.get? fw = some st ∧ st.completedFiles = ∅ ∧ st.analyzedFilesCount = 0

/-- The firmware is not running, or a file of it was completed. -/
def Spoiled (fw : Uid) (w : Worker) : Prop :=
  ∀ st, w.currentlyRunning.get? fw = some st → st.completedFiles.Nonempty

theorem fresh_step {fw : Uid} {w w' : Worker} {now : Time} {m : Message} (hm : m.FromOthers)
    (hharm : Harmless fw w m) (h : w.updateStatus now m = .ok w') (hfresh : Fresh fw w) :
    Fresh fw w' := by
  rcases hfresh with ⟨st, hst, hdone, hcount⟩
  rcases others_cases fw hm h with ⟨-, hnone | hbad⟩ | ⟨st₁, st₂, h₁, h₂, hkeep | hbad⟩
  · rw [hst] at hnone
    cases hnone
  · exact absurd hharm hbad
  · rw [hst] at h₁
    cases Option.some.inj h₁
    exact ⟨st₂, h₂, hkeep.2.1.trans hdone, hkeep.2.2.trans hcount⟩
  · exact absurd hharm hbad.1

theorem spoiled_step {fw : Uid} {w w' : Worker} {now : Time} {m : Message} (hm : m.FromOthers)
    (h : w.updateStatus now m = .ok w') (hspoiled : Spoiled fw w ∨ ¬ Harmless fw w m) :
    Spoiled fw w' := by
  intro st' hst'
  rcases others_cases fw hm h with ⟨hnone, -⟩ | ⟨st₁, st₂, h₁, h₂, hkeep | hadd⟩
  · rw [hnone] at hst'
    cases hst'
  · rw [h₂] at hst'
    cases Option.some.inj hst'
    rcases hspoiled with hspoiled | hbad
    · exact hkeep.2.1 ▸ hspoiled st₁ h₁
    · exact absurd hkeep.1 hbad
  · rw [h₂] at hst'
    cases Option.some.inj hst'
    exact hadd.2.1

theorem updateStatus_ok_of_others (w : Worker) (now : Time) {m : Message} (hm : m.FromOthers) :
    ∃ w', w.updateStatus now m = .ok w' := by
  apply Worker.updateStatus_ok
  intro u included heq
  subst heq
  exact hm

/-- Messages from other processes never raise; once spoiled, always spoiled. -/
theorem spoiled_run {fw : Uid} {between : List (Time × Message)}
    (hothers : ∀ p ∈ between, p.2.FromOthers) {w : Worker} (hspoiled : Spoiled fw w) :
    ∃ w', handleAll between w = .ok w' ∧ Spoiled fw w' := by
  induction between generalizing w with
  | nil => exact ⟨w, rfl, hspoiled⟩
  | cons p rest ih =>
      rcases p with ⟨now, m⟩
      have hm : m.FromOthers := hothers (now, m) (by simp)
      rcases updateStatus_ok_of_others w now hm with ⟨w₁, hw₁⟩
      rcases ih (fun p hp => hothers p (by simp [hp])) (spoiled_step hm hw₁ (Or.inl hspoiled)) with
        ⟨w', hw', hspoiled'⟩
      exact ⟨w', by simp [handleAll, hw₁, Except.bind, hw'], hspoiled'⟩

/-- After the messages in between the firmware is fresh if they were all
harmless, and spoiled otherwise. -/
theorem fresh_run {fw : Uid} {between : List (Time × Message)}
    (hothers : ∀ p ∈ between, p.2.FromOthers) {w : Worker} (hfresh : Fresh fw w) :
    ∃ w', handleAll between w = .ok w' ∧
      ((Undisturbed fw between w ∧ Fresh fw w') ∨ (¬ Undisturbed fw between w ∧ Spoiled fw w')) := by
  induction between generalizing w with
  | nil => exact ⟨w, rfl, Or.inl ⟨trivial, hfresh⟩⟩
  | cons p rest ih =>
      rcases p with ⟨now, m⟩
      have hm : m.FromOthers := hothers (now, m) (by simp)
      have hrest : ∀ p ∈ rest, p.2.FromOthers := fun p hp => hothers p (by simp [hp])
      rcases updateStatus_ok_of_others w now hm with ⟨w₁, hw₁⟩
      by_cases hharm : Harmless fw w m
      · -- the first message is harmless: what the others do decides
        rcases ih hrest (fresh_step hm hharm hw₁ hfresh) with ⟨w', hw', hcases⟩
        have hundisturbed : Undisturbed fw ((now, m) :: rest) w ↔ Undisturbed fw rest w₁ := by
          constructor
          · intro h
            exact h.2 w₁ hw₁
          · intro h
            refine ⟨hharm, ?_⟩
            intro w₂ hw₂
            rw [hw₁] at hw₂
            exact Except.ok.inj hw₂ ▸ h
        exact ⟨w', by simp [handleAll, hw₁, Except.bind, hw'], by rwa [hundisturbed]⟩
      · rcases spoiled_run hrest (spoiled_step hm hw₁ (Or.inr hharm)) with ⟨w', hw', hspoiled⟩
        exact ⟨w', by simp [handleAll, hw₁, Except.bind, hw'],
          Or.inr ⟨fun h => hharm h.1, hspoiled⟩⟩

/-! ## The second message -/

/-- The update is right for a fresh firmware. -/
theorem updatedRight_of_fresh {fw : Uid} {included : Finset Uid} {w : Worker} {now : Time}
    (hself : fw ∉ included) (hfresh : Fresh fw w) :
    UpdatedRight fw included (w.updateStatus now (.addUpdate fw included)) := by
  rcases hfresh with ⟨st, hst, hdone, hcount⟩
  refine ⟨w.setRunning fw (st.update fw included), ?_, ?_⟩
  · simp [Worker.updateStatus, Worker.addUpdate, hst]
  · intro st' hst'
    have heq : st.update fw included = st' := by
      simpa [Worker.setRunning] using hst'
    subst heq
    have hcard : (insert fw included).card = included.card + 1 :=
      Finset.card_insert_of_notMem hself
    refine ⟨rfl, ?_, ?_, ?_, ?_⟩
    · simp [FwAnalysisStatus.update, hdone]
    · simp [FwAnalysisStatus.update, hdone, hcard]
    · simp [FwAnalysisStatus.update, hdone, hcard]
    · simp [FwAnalysisStatus.update, hdone, hcount]

/-- It raises or counts wrong for a spoiled one. -/
theorem not_updatedRight_of_spoiled {fw : Uid} {included : Finset Uid} {w : Worker} {now : Time}
    (hself : fw ∉ included) (hspoiled : Spoiled fw w) :
    ¬ UpdatedRight fw included (w.updateStatus now (.addUpdate fw included)) := by
  rintro ⟨w', hw', hright⟩
  cases hst : w.currentlyRunning.get? fw with
  | none => simp [Worker.updateStatus, Worker.addUpdate, hst] at hw'
  | some st =>
      have heq : w.setRunning fw (st.update fw included) = w' := by
        simpa [Worker.updateStatus, Worker.addUpdate, hst] using hw'
      subst heq
      have hcard : (insert fw included).card = included.card + 1 :=
        Finset.card_insert_of_notMem hself
      have hpos : 0 < st.completedFiles.card := (hspoiled st hst).card_pos
      have hunpacked := (hright _ (Dict.get?_set_self _ _ _)).2.2.2.1
      simp only [FwAnalysisStatus.update, hcard] at hunpacked
      omega

/-- The two messages of `add_update` do what they should, whatever the state of
the worker, exactly if no message between them cancels the firmware or
completes a file of it. -/
theorem update_iff (fo : FileObject) {fwData : FirmwareData} (hfw : fo.firmware = some fwData)
    {included : Finset Uid} (hself : fo.uid ∉ included) (t t' : Time)
    {between : List (Time × Message)} (hothers : ∀ p ∈ between, p.2.FromOthers) (w : Worker) :
    UpdatedRight fo.uid included
        (handleAll ((t, (addUpdate fo included).1) :: (between ++ [(t', (addUpdate fo included).2)]))
          w) ↔
      Undisturbed fo.uid ((t, (addUpdate fo included).1) :: between) w := by
  have hfirst : (addUpdate fo included).1 =
      .addFirmware fo.uid fo.filesIncluded fwData.getHid (some fo.scheduledAnalysis) := by
    simp [addUpdate, addObject, hfw]
  -- the state after the first message
  obtain ⟨w₁, hw₁⟩ : ∃ w₁, w.updateStatus t (addUpdate fo included).1 = .ok w₁ :=
    ⟨_, by rw [hfirst]; rfl⟩
  have hfresh : Fresh fo.uid w₁ := by
    rw [hfirst] at hw₁
    cases Except.ok.inj hw₁
    exact ⟨_, Dict.get?_set_self _ _ _, rfl, rfl⟩
  have hundisturbed : Undisturbed fo.uid ((t, (addUpdate fo included).1) :: between) w ↔
      Undisturbed fo.uid between w₁ := by
    constructor
    · intro h
      exact h.2 w₁ hw₁
    · intro h
      refine ⟨by rw [hfirst]; trivial, ?_⟩
      intro w₂ hw₂
      rw [hw₁] at hw₂
      exact Except.ok.inj hw₂ ▸ h
  rw [hundisturbed]
  -- the state before the second message
  rcases fresh_run hothers hfresh with ⟨w₂, hw₂, hcases⟩
  have hrun : handleAll
      ((t, (addUpdate fo included).1) :: (between ++ [(t', (addUpdate fo included).2)])) w =
      w₂.updateStatus t' (.addUpdate fo.uid included) := by
    simp only [handleAll, hw₁, Except.bind, handleAll_append, hw₂]
    cases h : w₂.updateStatus t' (addUpdate fo included).2 <;> simpa [addUpdate] using h.symm
  rw [hrun]
  rcases hcases with ⟨hyes, hfresh₂⟩ | ⟨hno, hspoiled⟩
  · exact iff_of_true (updatedRight_of_fresh hself hfresh₂) hyes
  · exact iff_of_false (not_updatedRight_of_spoiled hself hspoiled) hno

/-- An uploaded firmware without files of its own. -/
def router : FileObject :=
  .newFirmware "fw" "sha" 1 "router.bin" ⟨"router", "1.0", "router", "vendor", "", "1970-01-01", []⟩

/-- Canceling another firmware does not matter. -/
theorem update_iff_router :
    UpdatedRight "fw" {"a"} (handleAll [(0, (addUpdate router {"a"}).1), (1, .cancel "other"),
      (2, (addUpdate router {"a"}).2)] Worker.init) := by
  have hothers : ∀ p ∈ [((1 : Time), Message.cancel "other")], p.2.FromOthers := by
    intro p hp
    rw [List.mem_singleton.1 hp]
    trivial
  have hself : router.uid ∉ ({"a"} : Finset Uid) := by decide
  refine (update_iff router rfl hself 0 2 hothers Worker.init).2 ⟨trivial, ?_⟩
  intro w' _
  exact ⟨by show "other" ≠ "fw"; decide, fun _ _ => trivial⟩

/-- Canceling the firmware between the two messages ends the worker. -/
theorem update_canceled :
    handleAll [(0, (addUpdate router {"a"}).1), (1, .cancel "fw"),
        (2, (addUpdate router {"a"}).2)] Worker.init = .error (.keyError "fw") ∧
      ¬ UpdatedRight "fw" {"a"} (handleAll [(0, (addUpdate router {"a"}).1), (1, .cancel "fw"),
        (2, (addUpdate router {"a"}).2)] Worker.init) := by
  have hraises : handleAll [(0, (addUpdate router {"a"}).1), (1, .cancel "fw"),
      (2, (addUpdate router {"a"}).2)] Worker.init = .error (.keyError "fw") := rfl
  refine ⟨hraises, ?_⟩
  rintro ⟨w, hw, -⟩
  rw [hraises] at hw
  cases hw

end FactCore.Status
