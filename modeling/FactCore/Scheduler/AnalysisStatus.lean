import Mathlib.Data.Finset.Card
import FactCore.Lib.Machine
import FactCore.Objects.FileObject

/-! # Progress of the analysis

`scheduler/analysis_status.py`: the producers that put messages into the queue
of the status worker (`AnalysisStatus`), and the worker that handles them one
after the other (`AnalysisStatusWorker`).

A file of a running firmware is in one of three sets: `files_to_unpack`,
`files_to_analyze`, `completed_files`. `FwAnalysisStatus.Consistent` says that
the sets are disjoint and that the counters are their sizes; every handler but
that of `add_update` keeps it. `add_update` overwrites the sets and counters
that the `add_firmware` message queued before it has set up, and is right only
if that message is still the last one that had an effect on completed files.
-/

namespace FactCore.Status

open Tla

/-- A reading of the clock. -/
abbrev Time := Int

/-- `RECENTLY_FINISHED_DISPLAY_TIME_IN_SEC`. -/
def recentlyFinishedDisplayTimeInSec : Time := 300

/-- The messages in the queue of the worker. -/
inductive Message where
  | addUpdate (fwUid : Uid) (includedFiles : Finset Uid)
  | addFirmware (uid : Uid) (includedFiles : Finset Uid) (hid : String)
      (scheduledAnalyses : Option (List Plugin))
  | addFile (uid : Uid) (rootUid : Option Uid) (includedFiles : Finset Uid)
  | addAnalysis (rootUid : Option Uid) (plugin : Plugin)
  | removeFile (uid : Uid) (rootUid : Option Uid)
  | isCurrentlyAnalyzed
  | cancel (rootUid : Uid)
deriving DecidableEq

/-! ## The producers -/

/-- `AnalysisStatus.add_object`. -/
def addObject (fo : FileObject) : Message :=
  match fo.firmware with
  | some fw => .addFirmware fo.uid fo.filesIncluded fw.getHid (some fo.scheduledAnalysis)
  | none => .addFile fo.uid fo.rootUid fo.filesIncluded

/-- `AnalysisStatus.add_update` puts two messages, one after the other. -/
def addUpdate (fo : FileObject) (includedFiles : Finset Uid) : Message × Message :=
  (addObject fo, .addUpdate fo.uid includedFiles)

/-- `AnalysisStatus.remove_object`. -/
def removeObject (fo : FileObject) : Message := .removeFile fo.uid fo.rootUid

/-! ## The status of one firmware -/

/-- `FwAnalysisStatus`. -/
structure FwAnalysisStatus where
  filesToUnpack : Finset Uid
  filesToAnalyze : Finset Uid
  totalFilesCount : Nat
  hid : String
  analysisPlugins : Dict Plugin Nat
  startTime : Time
  completedFiles : Finset Uid := ∅
  totalFilesWithDuplicates : Nat := 1
  unpackedFilesCount : Nat := 1
  analyzedFilesCount : Nat := 0

namespace FwAnalysisStatus

/-- The files that the status knows. -/
def tracked (st : FwAnalysisStatus) : Finset Uid :=
  st.filesToUnpack ∪ st.filesToAnalyze ∪ st.completedFiles

/-- The three sets are disjoint and the counters are their sizes. -/
structure Consistent (st : FwAnalysisStatus) : Prop where
  unpackAnalyze : Disjoint st.filesToUnpack st.filesToAnalyze
  unpackCompleted : Disjoint st.filesToUnpack st.completedFiles
  analyzeCompleted : Disjoint st.filesToAnalyze st.completedFiles
  total : st.totalFilesCount =
    st.filesToUnpack.card + st.filesToAnalyze.card + st.completedFiles.card
  unpacked : st.unpackedFilesCount = st.filesToAnalyze.card + st.completedFiles.card
  analyzed : st.analyzedFilesCount = st.completedFiles.card

/-- The status that `_add_firmware` starts with. -/
def start (now : Time) (uid : Uid) (includedFiles : Finset Uid) (hid : String)
    (scheduledAnalyses : Option (List Plugin)) : FwAnalysisStatus where
  filesToUnpack := includedFiles
  filesToAnalyze := {uid}
  totalFilesCount := 1 + includedFiles.card
  hid := hid
  analysisPlugins := (scheduledAnalyses.getD []).foldl (fun d p => d.set p 0) ∅
  startTime := now

/-- What `_add_update` makes of the status. -/
def update (fwUid : Uid) (includedFiles : Finset Uid) (st : FwAnalysisStatus) :
    FwAnalysisStatus :=
  let fileCount := includedFiles.card + 1
  { st with
    filesToUnpack := ∅
    unpackedFilesCount := fileCount
    totalFilesCount := fileCount
    totalFilesWithDuplicates := fileCount
    filesToAnalyze := insert fwUid includedFiles }

/-- First half of `_add_included_file`: the included files that are new are to be unpacked. -/
def addNewFiles (includedFiles : Finset Uid) (st : FwAnalysisStatus) : FwAnalysisStatus :=
  let allFiles := st.filesToUnpack ∪ st.filesToAnalyze
  let newFiles := (includedFiles \ allFiles) \ st.completedFiles
  { st with
    totalFilesCount := st.totalFilesCount + newFiles.card
    totalFilesWithDuplicates := st.totalFilesWithDuplicates + 1
    filesToUnpack := st.filesToUnpack ∪ newFiles }

/-- Second half of `_add_included_file`: the file itself was unpacked. -/
def moveToAnalyze (uid : Uid) (st : FwAnalysisStatus) : FwAnalysisStatus :=
  if uid ∈ st.filesToUnpack then
    { st with
      filesToUnpack := st.filesToUnpack.erase uid
      filesToAnalyze := insert uid st.filesToAnalyze
      unpackedFilesCount := st.unpackedFilesCount + 1 }
  else st

/-- What `_add_analysis` makes of the status. -/
def addAnalysis (plugin : Plugin) (st : FwAnalysisStatus) : FwAnalysisStatus :=
  { st with
    analysisPlugins :=
      st.analysisPlugins.set plugin ((st.analysisPlugins.get? plugin).getD 0 + 1) }

/-- What `_remove_object` makes of the status when the file is being analyzed. -/
def complete (uid : Uid) (st : FwAnalysisStatus) : FwAnalysisStatus :=
  { st with
    filesToAnalyze := st.filesToAnalyze.erase uid
    completedFiles := insert uid st.completedFiles
    analyzedFilesCount := st.analyzedFilesCount + 1 }

/-- Nothing is left to unpack or to analyze. -/
def finished (st : FwAnalysisStatus) : Bool :=
  st.filesToUnpack.card == st.filesToAnalyze.card && st.filesToAnalyze.card == 0

theorem start_consistent {now : Time} {uid : Uid} {included : Finset Uid} {hid : String}
    {scheduled : Option (List Plugin)} (h : uid ∉ included) :
    (start now uid included hid scheduled).Consistent := by
  refine ⟨?_, ?_, ?_, ?_, ?_, ?_⟩
  · simpa [start] using h
  · simp [start]
  · simp [start]
  · simp [start, Nat.add_comm]
  · simp [start]
  · simp [start]

theorem addNewFiles_consistent {st : FwAnalysisStatus} (included : Finset Uid)
    (h : st.Consistent) : (st.addNewFiles included).Consistent := by
  have hunpack : Disjoint st.filesToUnpack
      ((included \ (st.filesToUnpack ∪ st.filesToAnalyze)) \ st.completedFiles) := by
    refine Finset.disjoint_left.2 ?_
    intro u hu hnew
    simp [hu] at hnew
  refine ⟨?_, ?_, h.analyzeCompleted, ?_, h.unpacked, h.analyzed⟩
  · refine Finset.disjoint_left.2 ?_
    intro u hu hana
    rcases Finset.mem_union.1 hu with hold | hnew
    · exact Finset.disjoint_left.1 h.unpackAnalyze hold hana
    · have hana' : u ∈ st.filesToAnalyze := hana
      simp [hana'] at hnew
  · refine Finset.disjoint_left.2 ?_
    intro u hu hdone
    rcases Finset.mem_union.1 hu with hold | hnew
    · exact Finset.disjoint_left.1 h.unpackCompleted hold hdone
    · exact (Finset.mem_sdiff.1 hnew).2 hdone
  · have htotal := h.total
    simp only [addNewFiles, Finset.card_union_of_disjoint hunpack]
    omega

theorem moveToAnalyze_consistent {st : FwAnalysisStatus} (uid : Uid) (h : st.Consistent) :
    (st.moveToAnalyze uid).Consistent := by
  unfold moveToAnalyze
  split
  · rename_i hu
    have hana : uid ∉ st.filesToAnalyze := Finset.disjoint_left.1 h.unpackAnalyze hu
    have hdone : uid ∉ st.completedFiles := Finset.disjoint_left.1 h.unpackCompleted hu
    have hcard := Finset.card_erase_add_one hu
    have htotal := h.total
    have hunpacked := h.unpacked
    refine ⟨?_, ?_, ?_, ?_, ?_, h.analyzed⟩
    · refine Finset.disjoint_insert_right.2 ⟨by simp, ?_⟩
      exact h.unpackAnalyze.mono_left (Finset.erase_subset _ _)
    · exact h.unpackCompleted.mono_left (Finset.erase_subset _ _)
    · exact Finset.disjoint_insert_left.2 ⟨hdone, h.analyzeCompleted⟩
    · simp only [Finset.card_insert_of_notMem hana]
      omega
    · simp only [Finset.card_insert_of_notMem hana]
      omega
  · exact h

theorem complete_consistent {st : FwAnalysisStatus} {uid : Uid} (hu : uid ∈ st.filesToAnalyze)
    (h : st.Consistent) : (st.complete uid).Consistent := by
  have hunpack : uid ∉ st.filesToUnpack := Finset.disjoint_right.1 h.unpackAnalyze hu
  have hdone : uid ∉ st.completedFiles := Finset.disjoint_left.1 h.analyzeCompleted hu
  have hcard := Finset.card_erase_add_one hu
  have htotal := h.total
  have hunpacked := h.unpacked
  have hanalyzed := h.analyzed
  refine ⟨?_, ?_, ?_, ?_, ?_, ?_⟩
  · exact h.unpackAnalyze.mono_right (Finset.erase_subset _ _)
  · exact Finset.disjoint_insert_right.2 ⟨hunpack, h.unpackCompleted⟩
  · refine Finset.disjoint_insert_right.2 ⟨by simp [complete], ?_⟩
    exact h.analyzeCompleted.mono_left (Finset.erase_subset _ _)
  · simp only [complete, Finset.card_insert_of_notMem hdone]
    omega
  · simp only [complete, Finset.card_insert_of_notMem hdone]
    omega
  · simp only [complete, Finset.card_insert_of_notMem hdone]
    omega

theorem tracked_addNewFiles (st : FwAnalysisStatus) (included : Finset Uid) :
    (st.addNewFiles included).tracked = st.tracked ∪ included := by
  ext u
  simp only [tracked, addNewFiles, Finset.mem_union, Finset.mem_sdiff]
  tauto

theorem tracked_moveToAnalyze (st : FwAnalysisStatus) (uid : Uid) :
    (st.moveToAnalyze uid).tracked = st.tracked := by
  unfold moveToAnalyze
  split
  · rename_i hu
    ext u
    by_cases huid : u = uid
    · subst huid
      simp [tracked, hu]
    · simp [tracked, huid]
  · rfl

theorem tracked_complete {st : FwAnalysisStatus} {uid : Uid} (hu : uid ∈ st.filesToAnalyze) :
    (st.complete uid).tracked = st.tracked := by
  ext u
  by_cases huid : u = uid
  · subst huid
    simp [tracked, complete, hu]
  · simp [tracked, complete, huid]

theorem finished_iff {st : FwAnalysisStatus} :
    st.finished = true ↔ st.filesToUnpack = ∅ ∧ st.filesToAnalyze = ∅ := by
  constructor
  · intro h
    simp only [finished, Bool.and_eq_true, beq_iff_eq] at h
    exact ⟨Finset.card_eq_zero.1 (h.1.trans h.2), Finset.card_eq_zero.1 h.2⟩
  · rintro ⟨hunpack, hana⟩
    simp [finished, hunpack, hana]

end FwAnalysisStatus

/-! ## The worker -/

/-- An entry of `recently_finished`. -/
structure FinishedStats where
  duration : Time
  totalFilesCount : Nat
  timeFinished : Time
  hid : String

/-- An entry of `recently_canceled`. -/
structure CanceledStats where
  unpackedCount : Nat
  analyzedCount : Nat
  totalCount : Nat
  hid : String
  timeFinished : Time

/-- The state of `AnalysisStatusWorker`; of the manager dict
`currently_analyzed`, whose values are all `True`, the keys. -/
structure Worker where
  recentlyFinished : Dict Uid FinishedStats
  recentlyCanceled : Dict Uid CanceledStats
  currentlyRunning : Dict Uid FwAnalysisStatus
  currentlyAnalyzed : Finset Uid

/-- `AnalysisStatusWorker.__init__`. -/
def Worker.init : Worker := ⟨∅, ∅, ∅, ∅⟩

/-- An exception that leaves a handler and thereby ends the worker process. -/
inductive HandlerError where
  | keyError (uid : Uid)
deriving DecidableEq

namespace Worker

/-- The status of a running firmware is replaced. -/
def setRunning (w : Worker) (root : Uid) (st : FwAnalysisStatus) : Worker :=
  { w with currentlyRunning := w.currentlyRunning.set root st }

/-- `_add_update`. -/
def addUpdate (w : Worker) (fwUid : Uid) (includedFiles : Finset Uid) :
    Except HandlerError Worker :=
  match w.currentlyRunning.get? fwUid with
  | none => .error (.keyError fwUid)
  | some st => .ok (w.setRunning fwUid (st.update fwUid includedFiles))

/-- `_add_firmware`. -/
def addFirmware (w : Worker) (now : Time) (uid : Uid) (includedFiles : Finset Uid) (hid : String)
    (scheduledAnalyses : Option (List Plugin)) : Worker :=
  { w.setRunning uid (.start now uid includedFiles hid scheduledAnalyses) with
    currentlyAnalyzed := insert uid w.currentlyAnalyzed }

/-- The status of the firmware with the uid `rootUid`, which may be `None`. -/
def statusOf (w : Worker) (rootUid : Option Uid) : Option (Uid × FwAnalysisStatus) :=
  rootUid.bind fun root => (w.currentlyRunning.get? root).map (root, ·)

/-- `_add_included_file`. -/
def addIncludedFile (w : Worker) (uid : Uid) (rootUid : Option Uid)
    (includedFiles : Finset Uid) : Worker :=
  match w.statusOf rootUid with
  | none => w
  | some (root, st) => w.setRunning root ((st.addNewFiles includedFiles).moveToAnalyze uid)

/-- `_add_analysis`. -/
def addAnalysis (w : Worker) (rootUid : Option Uid) (plugin : Plugin) : Worker :=
  match w.statusOf rootUid with
  | none => w
  | some (root, st) => w.setRunning root (st.addAnalysis plugin)

/-- `_init_recently_finished`. -/
def initRecentlyFinished (now : Time) (st : FwAnalysisStatus) : FinishedStats where
  duration := now - st.startTime
  totalFilesCount := st.totalFilesCount
  timeFinished := now
  hid := st.hid

/-- `_remove_object`. -/
def removeObject (w : Worker) (now : Time) (uid : Uid) (rootUid : Option Uid) : Worker :=
  match w.statusOf rootUid with
  | none => w
  | some (root, st) =>
      if uid ∈ st.filesToAnalyze then
        let st' := st.complete uid
        if st'.finished then
          { w with
            recentlyFinished := w.recentlyFinished.set root (initRecentlyFinished now st')
            currentlyRunning := w.currentlyRunning.erase root
            currentlyAnalyzed := w.currentlyAnalyzed.erase root }
        else w.setRunning root st'
      else w

/-- `_cancel_analysis`. -/
def cancelAnalysis (w : Worker) (now : Time) (root : Uid) : Worker :=
  match w.currentlyRunning.get? root with
  | none => w
  | some st =>
      { w with
        recentlyCanceled := w.recentlyCanceled.set root
          ⟨st.unpackedFilesCount, st.analyzedFilesCount, st.totalFilesCount, st.hid, now⟩
        currentlyRunning := w.currentlyRunning.erase root
        currentlyAnalyzed := w.currentlyAnalyzed.erase root }

/-- `_update_status` for one message. -/
def updateStatus (w : Worker) (now : Time) : Message → Except HandlerError Worker
  | .addUpdate fwUid included => w.addUpdate fwUid included
  | .addFirmware uid included hid scheduled => .ok (w.addFirmware now uid included hid scheduled)
  | .addFile uid root included => .ok (w.addIncludedFile uid root included)
  | .addAnalysis root plugin => .ok (w.addAnalysis root plugin)
  | .removeFile uid root => .ok (w.removeObject now uid root)
  | .isCurrentlyAnalyzed => .ok w
  | .cancel root => .ok (w.cancelAnalysis now root)

/-- The entries that are not older than the display time. -/
def clearOld {ν : Type} (now : Time) (timeFinished : ν → Time) (d : Dict Uid ν) : Dict Uid ν :=
  d.items.foldl (fun d p =>
    if now - timeFinished p.2 > recentlyFinishedDisplayTimeInSec then d.erase p.1 else d) d

/-- `_clear_recently_finished`. -/
def clearRecentlyFinished (w : Worker) (now : Time) : Worker :=
  { w with
    recentlyFinished := clearOld now FinishedStats.timeFinished w.recentlyFinished
    recentlyCanceled := clearOld now CanceledStats.timeFinished w.recentlyCanceled }

end Worker

end FactCore.Status
