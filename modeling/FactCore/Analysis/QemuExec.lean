import FactCore.Lib.Machine
import FactCore.Objects.FileObject

/-! # The jobs of the QEMU plugin

`_process_included_files`, `_run_analysis_jobs` and `process_qemu_job` of
`plugins/analysis/qemu_exec/code/qemu_exec.py`. The main thread submits a job for
each file and architecture suffix, up to eight threads execute them, and each job
with a result reads the entry of its file in the shared dict, extends a copy of it
and writes it back.

Every access to the shared dict is one step. `Undisturbed` names the writes that
no other job of the file comes in between; without them no result is lost.
-/

namespace FactCore.QemuExec

open Tla

/-- What `check_qemu_executability` gives, if that is not empty. -/
abbrev QemuResult := String

/-! ## The architecture suffixes -/

/-- `ARCH_TO_BIN_DICT`. -/
def archToBinDict : List (String × List String) :=
  [("aarch64", ["aarch64"]),
    ("ARM", ["aarch64", "arm", "armeb"]),
    ("MIPS32", ["mipsel", "mips", "mipsn32", "mipsn32el"]),
    ("MIPS64", ["mips64", "mips64el"]),
    ("MIPS", ["mipsel", "mips", "mips64", "mips64el", "mipsn32", "mipsn32el"]),
    ("80386", ["i386"]),
    ("80486", ["x86_64", "i386"]),
    ("x86", ["x86_64", "i386"]),
    ("PowerPC", ["ppc", "ppc64", "ppc64le"]),
    ("PPC", ["ppc", "ppc64", "ppc64le"]),
    ("Renesas SH", ["sh4", "sh4eb"])]

/-- `_find_arch_suffixes`: those of the first name that occurs in the file type. -/
def findArchSuffixes (fullType : String) : List String :=
  ((archToBinDict.find? fun arch => decide (arch.1.toList <:+: fullType.toList)).map Prod.snd).getD []

/-! ## The machine -/

/-- The arguments of `process_qemu_job`. -/
structure Job where
  filePath : String
  archSuffix : String
  uid : Uid
deriving DecidableEq, Repr

/-- An entry of the shared dict. -/
structure FileEntry where
  path : String
  results : Dict String QemuResult

/-- Where a job stands: before `check_qemu_executability`, before the check
`uid in results_dict`, before the results of the entry are read, and before the
entry is written with `tmp_dict`. -/
inductive Phase where
  | started
  | checked (result : QemuResult)
  | present (result : QemuResult)
  | extended (result : QemuResult) (tmpDict : Dict String QemuResult)

/-- Where the main thread stands: before the next file, or submitting the jobs of
one. -/
inductive Main where
  | nextFile
  | submitting (filePath : String) (uid : Uid) (archSuffixes : List String)

/-- The files that are left with their types, the main thread, the queue of the
executor, the jobs that run, and the shared dict. -/
structure State where
  fileList : List (String × String)
  main : Main
  queue : List Job
  running : Dict Nat (Job × Phase)
  nextTicket : Nat
  resultsDict : Dict Uid FileEntry

inductive Action where
  | nextFile
  | submit
  | start
  | check (i : Nat) (result : Option QemuResult)
  | lookUp (i : Nat)
  | read (i : Nat)
  | write (i : Nat)
deriving DecidableEq, Repr

/-- `max_workers`. -/
def maxWorkers : Nat := 8

/-- The running job moves on. -/
def State.setPhase (s : State) (i : Nat) (job : Job) (phase : Phase) : State :=
  { s with running := s.running.set i (job, phase) }

/-- One step; `getUid` is the uid of the file at a path. -/
def step (getUid : String → Uid) : Action → State → Option State
  | .nextFile, s =>
      match s.main, s.fileList with
      | .nextFile, (filePath, fullType) :: rest =>
          if getUid filePath ∈ s.resultsDict then some { s with fileList := rest }
          else some { s with
            fileList := rest
            main := .submitting filePath (getUid filePath) (findArchSuffixes fullType) }
      | _, _ => none
  | .submit, s =>
      match s.main with
      | .submitting filePath uid (archSuffix :: rest) =>
          some { s with
            main := .submitting filePath uid rest
            queue := s.queue ++ [⟨filePath, archSuffix, uid⟩] }
      | .submitting _ _ [] => some { s with main := .nextFile }
      | _ => none
  | .start, s =>
      match s.queue with
      | job :: rest =>
          if s.running.items.length < maxWorkers then
            some { s with
              queue := rest
              running := s.running.set s.nextTicket (job, .started)
              nextTicket := s.nextTicket + 1 }
          else none
      | [] => none
  | .check i result, s =>
      match s.running.get? i, result with
      | some (job, .started), some result => some (s.setPhase i job (.checked result))
      -- the result is empty
      | some (_, .started), none => some { s with running := s.running.erase i }
      | _, _ => none
  | .lookUp i, s =>
      match s.running.get? i with
      | some (job, .checked result) =>
          if job.uid ∈ s.resultsDict then some (s.setPhase i job (.present result))
          else some (s.setPhase i job (.extended result ((∅ : Dict _ _).set job.archSuffix result)))
      | _ => none
  | .read i, s =>
      match s.running.get? i with
      | some (job, .present result) =>
          match s.resultsDict.get? job.uid with
          | some entry =>
              some (s.setPhase i job (.extended result (entry.results.set job.archSuffix result)))
          | none => none
      | _ => none
  | .write i, s =>
      match s.running.get? i with
      | some (job, .extended _ tmpDict) =>
          some { s with
            resultsDict := s.resultsDict.set job.uid ⟨job.filePath, tmpDict⟩
            running := s.running.erase i }
      | _ => none

/-- Jobs with their results. -/
abbrev Results := List (Job × QemuResult)

/-- The jobs whose result was not empty, and those that have written it. -/
structure History where
  produced : Results
  written : Results

/-- What the history keeps of a step. -/
def observe : Action → State → History → History
  | .check i (some result), s, h =>
      match s.running.get? i with
      | some (job, .started) => { h with produced := h.produced ++ [(job, result)] }
      | _ => h
  | .write i, s, h =>
      match s.running.get? i with
      | some (job, .extended result _) => { h with written := h.written ++ [(job, result)] }
      | _ => h
  | _, _, h => h

/-- The machine with its history, for any list of files. -/
def machine (getUid : String → Uid) : Machine (State × History) Action :=
  Machine.withHistory
    { Init := fun s => s.main = .nextFile ∧ s.queue = [] ∧ s.running = ∅ ∧ s.resultsDict = ∅,
      step := step getUid } ⟨[], []⟩ observe

/-! ## No result is lost -/

/-- For each of the jobs the dict holds a result of one of them with the same file
and suffix. -/
def Holds (s : State) (jobs : Results) : Prop :=
  ∀ e ∈ jobs, ∃ entry result, s.resultsDict.get? e.1.uid = some entry ∧
    entry.results.get? e.1.archSuffix = some result ∧
    ∃ e' ∈ jobs, e'.1.uid = e.1.uid ∧ e'.1.archSuffix = e.1.archSuffix ∧ e'.2 = result

/-- All jobs are finished. -/
def Finished (s : State) : Prop :=
  s.main = .nextFile ∧ s.fileList = [] ∧ s.queue = [] ∧ s.running = ∅

/-- A job writes the entry of its file only if no other job has added a suffix to
that entry since the job looked it up. -/
def Undisturbed (s : State) : Action → Prop
  | .write i => ∀ job result tmpDict entry, s.running.get? i = some (job, .extended result tmpDict) →
      s.resultsDict.get? job.uid = some entry → ∀ archSuffix ∈ entry.results, archSuffix ∈ tmpDict
  | _ => True

/-- The results of a dict come from jobs of the file. -/
def FromJobs (h : Results) (uid : Uid) (results : Dict String QemuResult) : Prop :=
  ∀ archSuffix result, results.get? archSuffix = some result →
    ∃ e ∈ h, e.1.uid = uid ∧ e.1.archSuffix = archSuffix ∧ e.2 = result

/-- The result of a job that has one. -/
def Phase.result : Phase → Option QemuResult
  | .started => none
  | .checked result | .present result | .extended result _ => some result

/-- Where the results are: what was written was produced, and what was produced
was written or is about to be. -/
structure Accounted (s : State) (h : History) : Prop where
  tickets : ∀ i ∈ s.running, i < s.nextTicket
  written : ∀ e ∈ h.written, e ∈ h.produced
  running : ∀ i job phase result, s.running.get? i = some (job, phase) → phase.result = some result →
    (job, result) ∈ h.produced
  produced : ∀ e ∈ h.produced, e ∈ h.written ∨
    ∃ i phase, s.running.get? i = some (e.1, phase) ∧ phase.result = some e.2

/-- The invariant of all runs: what the entries hold and what the jobs are about
to write comes from jobs of the file. -/
structure Inv (s : State) (h : Results) : Prop where
  entries : ∀ uid entry, s.resultsDict.get? uid = some entry → FromJobs h uid entry.results
  jobs : ∀ i job result tmpDict, s.running.get? i = some (job, .extended result tmpDict) →
    tmpDict.get? job.archSuffix = some result ∧ FromJobs (h ++ [(job, result)]) job.uid tmpDict

/-! ## What every run keeps -/

section

variable {getUid : String → Uid} {s s' : State} {h h' : Results} {a : Action} {uid : Uid}
  {results : Dict String QemuResult}

theorem FromJobs.mono (hsub : ∀ e ∈ h, e ∈ h') (hfrom : FromJobs h uid results) :
    FromJobs h' uid results := by
  intro archSuffix result hget
  obtain ⟨e, he, heq⟩ := hfrom archSuffix result hget
  exact ⟨e, hsub e he, heq⟩

/-- Extending the results of jobs by that of one more job. -/
theorem FromJobs.set {job : Job} {result : QemuResult} (hfrom : FromJobs h job.uid results) :
    FromJobs (h ++ [(job, result)]) job.uid (results.set job.archSuffix result) := by
  intro archSuffix result' hget
  rw [Dict.get?_set] at hget
  by_cases heq : archSuffix = job.archSuffix
  · rw [if_pos heq, Option.some.injEq] at hget
    exact ⟨(job, result), by simp, rfl, heq.symm, hget⟩
  · rw [if_neg heq] at hget
    obtain ⟨e, he, hsame⟩ := hfrom archSuffix result' hget
    exact ⟨e, List.mem_append_left _ he, hsame⟩

theorem FromJobs.empty : FromJobs h uid (∅ : Dict String QemuResult) := by
  intro archSuffix result hget
  simp at hget

/-- What a job is about to write comes from jobs of the file. -/
def Prepared (h : Results) : Job × Phase → Prop
  | (job, .extended result tmpDict) =>
      tmpDict.get? job.archSuffix = some result ∧ FromJobs (h ++ [(job, result)]) job.uid tmpDict
  | _ => True

theorem inv_iff : Inv s h ↔
    (∀ uid entry, s.resultsDict.get? uid = some entry → FromJobs h uid entry.results) ∧
      ∀ i x, s.running.get? i = some x → Prepared h x := by
  constructor
  · rintro ⟨hentries, hjobs⟩
    refine ⟨hentries, fun i x hget => ?_⟩
    obtain ⟨job, phase⟩ := x
    cases phase with
    | extended result tmpDict => exact hjobs i job result tmpDict hget
    | _ => trivial
  · rintro ⟨hentries, hjobs⟩
    exact ⟨hentries, fun i job result tmpDict hget => hjobs i _ hget⟩

/-- A job that moves on leaves the others and the entries as they are. -/
theorem Inv.setPhase {i : Nat} {job : Job} {phase : Phase} (hinv : Inv s h)
    (hprepared : Prepared h (job, phase)) : Inv (s.setPhase i job phase) h := by
  obtain ⟨hentries, hjobs⟩ := inv_iff.1 hinv
  refine inv_iff.2 ⟨hentries, fun j x hget => ?_⟩
  rw [State.setPhase, Dict.get?_set] at hget
  by_cases hj : j = i
  · rw [if_pos hj] at hget
    rwa [← Option.some.inj hget]
  · rw [if_neg hj] at hget
    exact hjobs j x hget

theorem init_inv (p : State × History) (hinit : (machine getUid).Init p) : Inv p.1 p.2.written := by
  obtain ⟨⟨-, -, hrunning, hresults⟩, -⟩ := hinit
  constructor
  · intro uid entry hget
    simp [hresults] at hget
  · intro i job result tmpDict hget
    simp [hrunning] at hget

theorem write_inv {i : Nat} {job : Job} {result : QemuResult} {tmpDict : Dict String QemuResult}
    (hinv : Inv s h) (hget : s.running.get? i = some (job, .extended result tmpDict)) :
    Inv { s with
      resultsDict := s.resultsDict.set job.uid ⟨job.filePath, tmpDict⟩
      running := s.running.erase i } (h ++ [(job, result)]) := by
  constructor
  · intro uid entry hentry
    rw [Dict.get?_set] at hentry
    by_cases huid : uid = job.uid
    · rw [if_pos huid, Option.some.injEq] at hentry
      rw [← hentry, huid]
      exact (hinv.jobs i job result tmpDict hget).2
    · rw [if_neg huid] at hentry
      exact (hinv.entries uid entry hentry).mono fun e he => List.mem_append_left _ he
  · intro j job' result' tmpDict' hget'
    rw [Dict.get?_erase] at hget'
    by_cases hj : j = i
    · simp [hj] at hget'
    · rw [if_neg hj] at hget'
      obtain ⟨hown, hfrom⟩ := hinv.jobs j job' result' tmpDict' hget'
      refine ⟨hown, hfrom.mono fun e he => ?_⟩
      rw [List.append_assoc]
      simp only [List.mem_append, List.mem_singleton] at he ⊢
      tauto

theorem step_inv {h : History} (hinv : Inv s h.written) (hstep : step getUid a s = some s') :
    Inv s' (observe a s h).written := by
  obtain ⟨hentries, hjobs⟩ := inv_iff.1 hinv
  cases a with
  | nextFile =>
      simp only [step] at hstep
      split at hstep
      · split at hstep <;> obtain rfl := Option.some.inj hstep <;> exact ⟨hinv.entries, hinv.jobs⟩
      · cases hstep
  | submit =>
      simp only [step] at hstep
      split at hstep
      · obtain rfl := Option.some.inj hstep
        exact ⟨hinv.entries, hinv.jobs⟩
      · obtain rfl := Option.some.inj hstep
        exact ⟨hinv.entries, hinv.jobs⟩
      · cases hstep
  | start =>
      simp only [step] at hstep
      split at hstep
      · rename_i job rest hqueue
        split at hstep
        · obtain rfl := Option.some.inj hstep
          have hset : Inv (s.setPhase s.nextTicket job .started) h.written := hinv.setPhase trivial
          exact ⟨hset.entries, hset.jobs⟩
        · cases hstep
      · cases hstep
  | check i result =>
      simp only [step] at hstep
      split at hstep
      · rename_i job result hget
        obtain rfl := Option.some.inj hstep
        simp only [observe, hget]
        exact hinv.setPhase trivial
      · obtain rfl := Option.some.inj hstep
        refine ⟨hinv.entries, fun j job result tmpDict hget => ?_⟩
        rw [Dict.get?_erase] at hget
        by_cases hj : j = i
        · simp [hj] at hget
        · rw [if_neg hj] at hget
          exact hinv.jobs j job result tmpDict hget
      · cases hstep
  | lookUp i =>
      simp only [step] at hstep
      split at hstep
      · split at hstep
        · obtain rfl := Option.some.inj hstep
          exact hinv.setPhase trivial
        · obtain rfl := Option.some.inj hstep
          exact hinv.setPhase ⟨Dict.get?_set_self _ _ _, FromJobs.empty.set⟩
      · cases hstep
  | read i =>
      simp only [step] at hstep
      split at hstep
      · rename_i job result hget
        split at hstep
        · rename_i entry hentry
          obtain rfl := Option.some.inj hstep
          exact hinv.setPhase ⟨Dict.get?_set_self _ _ _, (hentries _ entry hentry).set⟩
        · cases hstep
      · cases hstep
  | write i =>
      simp only [step] at hstep
      split at hstep
      · rename_i job result tmpDict hget
        obtain rfl := Option.some.inj hstep
        simp only [observe, hget]
        exact write_inv hinv hget
      · cases hstep

theorem reach_inv {ok : State × History → Action → Prop} {p : State × History}
    (hreach : (machine getUid).Reach ok p) : Inv p.1 p.2.written := by
  refine Machine.reach_invariant init_inv ?_ hreach
  intro q a q' _ hstep hinv
  obtain ⟨hs, hh⟩ := Machine.step_withHistory hstep
  rw [hh]
  exact step_inv hinv hs

/-! ## What happens to the results -/

/-- Only a write changes the entries or the jobs that have written. -/
theorem step_frame {h : History} (hstep : step getUid a s = some s') (hwrite : ∀ i, a ≠ .write i) :
    s'.resultsDict = s.resultsDict ∧ (observe a s h).written = h.written := by
  cases a with
  | write i => exact absurd rfl (hwrite i)
  | check i result =>
      simp only [step] at hstep
      split at hstep
      · rename_i job result hget
        obtain rfl := Option.some.inj hstep
        exact ⟨rfl, by simp [observe, hget]⟩
      · obtain rfl := Option.some.inj hstep
        exact ⟨rfl, rfl⟩
      · cases hstep
  | _ =>
      refine ⟨?_, rfl⟩
      simp only [step] at hstep
      repeat' split at hstep
      all_goals cases hstep
      all_goals rfl

/-- A write keeps the results of the jobs iff it is undisturbed. -/
theorem holds_write_iff {i : Nat} {job : Job} {result : QemuResult}
    {tmpDict : Dict String QemuResult} (hinv : Inv s h) (hholds : Holds s h)
    (hget : s.running.get? i = some (job, .extended result tmpDict)) :
    Holds { s with
      resultsDict := s.resultsDict.set job.uid ⟨job.filePath, tmpDict⟩
      running := s.running.erase i } (h ++ [(job, result)]) ↔ Undisturbed s (.write i) := by
  obtain ⟨hown, hfrom⟩ := hinv.jobs i job result tmpDict hget
  constructor
  · intro hholds' job' result' tmpDict' entry hget' hentry archSuffix hmem
    obtain ⟨rfl, heq⟩ := Prod.mk.inj (Option.some.inj (hget.symm.trans hget'))
    obtain ⟨rfl, rfl⟩ := Phase.extended.inj heq
    -- the suffix in the entry is that of a job, which must be in the new entry, too
    obtain ⟨old, hold⟩ := Dict.mem_iff.1 hmem
    obtain ⟨e, he, huid, hsuffix, -⟩ := hinv.entries _ entry hentry _ old hold
    obtain ⟨entry', new, hentry', hnew, -⟩ := hholds' e (List.mem_append_left _ he)
    rw [huid, Dict.get?_set_self, Option.some.injEq] at hentry'
    rw [← hentry', hsuffix] at hnew
    exact Dict.mem_iff.2 ⟨new, hnew⟩
  · intro hundisturbed e he
    by_cases huid : e.1.uid = job.uid
    · have hmem : e.1.archSuffix ∈ tmpDict := by
        rcases List.mem_append.1 he with he | he
        · obtain ⟨entry, old, hentry, hold, -⟩ := hholds e he
          exact hundisturbed job result tmpDict entry hget (huid ▸ hentry) _ (Dict.mem_iff.2 ⟨old, hold⟩)
        · rw [List.mem_singleton.1 he]
          exact Dict.mem_iff.2 ⟨result, hown⟩
      obtain ⟨new, hnew⟩ := Dict.mem_iff.1 hmem
      obtain ⟨e', he', huid', hsuffix', hresult'⟩ := hfrom _ new hnew
      refine ⟨⟨job.filePath, tmpDict⟩, new, ?_, hnew, e', he', huid'.trans huid.symm, hsuffix',
        hresult'⟩
      rw [huid]
      exact Dict.get?_set_self _ _ _
    · have he : e ∈ h := by
        rcases List.mem_append.1 he with he | he
        · exact he
        · exact absurd (by rw [List.mem_singleton.1 he]) huid
      obtain ⟨entry, old, hentry, hold, e', he', hsame⟩ := hholds e he
      exact ⟨entry, old, (Dict.get?_set_ne _ _ huid).trans hentry, hold, e',
        List.mem_append_left _ he', hsame⟩

/-- A step keeps the results of the jobs iff it is undisturbed. -/
theorem holds_step_iff {h : History} (hinv : Inv s h.written) (hholds : Holds s h.written)
    (hstep : step getUid a s = some s') :
    Holds s' (observe a s h).written ↔ Undisturbed s a := by
  by_cases hwrite : ∃ i, a = .write i
  · obtain ⟨i, rfl⟩ := hwrite
    simp only [step] at hstep
    split at hstep
    · rename_i job result tmpDict hget
      obtain rfl := Option.some.inj hstep
      simp only [observe, hget]
      exact holds_write_iff hinv hholds hget
    · cases hstep
  · obtain ⟨hresults, hwritten⟩ := step_frame (h := h) hstep fun i hi => hwrite ⟨i, hi⟩
    have htrue : Undisturbed s a := by
      cases a with
      | write i => exact absurd ⟨i, rfl⟩ hwrite
      | _ => trivial
    rw [hwritten]
    refine iff_of_true ?_ htrue
    unfold Holds
    rw [hresults]
    exact hholds

/-! ## Where the results are -/

/-- A job that moves on with its result keeps the account. -/
theorem Accounted.setPhase {h : History} {i : Nat} {job : Job} {phase phase' : Phase}
    (hacc : Accounted s h) (hget : s.running.get? i = some (job, phase))
    (hresult : phase'.result = phase.result) : Accounted (s.setPhase i job phase') h := by
  constructor
  · intro j hj
    rcases Dict.mem_set.1 hj with rfl | hj
    · exact hacc.tickets j (Dict.mem_of_get? hget)
    · exact hacc.tickets j hj
  · exact hacc.written
  · intro j job' phase'' result hget' hres
    rw [State.setPhase, Dict.get?_set] at hget'
    by_cases hj : j = i
    · rw [if_pos hj] at hget'
      obtain ⟨rfl, rfl⟩ := Prod.mk.inj (Option.some.inj hget')
      exact hacc.running i job phase result hget (hresult ▸ hres)
    · rw [if_neg hj] at hget'
      exact hacc.running j job' phase'' result hget' hres
  · intro e he
    rcases hacc.produced e he with hwritten | ⟨j, phase'', hget', hres⟩
    · exact .inl hwritten
    · refine .inr ?_
      by_cases hj : j = i
      · obtain ⟨heq, rfl⟩ := Prod.mk.inj (Option.some.inj (hget.symm.trans (hj ▸ hget')))
        exact ⟨i, phase', by rw [State.setPhase, Dict.get?_set_self, heq], hresult.trans hres⟩
      · exact ⟨j, phase'', (Dict.get?_set_ne _ _ hj).trans hget', hres⟩

theorem Accounted.start {h : History} {job : Job} {rest : List Job} (hacc : Accounted s h) :
    Accounted { s with
      queue := rest
      running := s.running.set s.nextTicket (job, .started)
      nextTicket := s.nextTicket + 1 } h := by
  constructor
  · intro j hj
    rcases Dict.mem_set.1 hj with rfl | hj
    · exact Nat.lt_succ_self _
    · exact Nat.lt_succ_of_lt (hacc.tickets j hj)
  · exact hacc.written
  · intro j job' phase result hget hres
    rw [Dict.get?_set] at hget
    by_cases hj : j = s.nextTicket
    · rw [if_pos hj] at hget
      obtain ⟨-, rfl⟩ := Prod.mk.inj (Option.some.inj hget)
      cases hres
    · rw [if_neg hj] at hget
      exact hacc.running j job' phase result hget hres
  · intro e he
    rcases hacc.produced e he with hwritten | ⟨j, phase, hget, hres⟩
    · exact .inl hwritten
    · -- the new ticket is not that of a running job
      have hj : j ≠ s.nextTicket := (hacc.tickets j (Dict.mem_of_get? hget)).ne
      exact .inr ⟨j, phase, (Dict.get?_set_ne _ _ hj).trans hget, hres⟩

/-- A job that has a result now. -/
theorem Accounted.produce {h : History} {i : Nat} {job : Job} {result : QemuResult}
    (hacc : Accounted s h) (hget : s.running.get? i = some (job, .started)) :
    Accounted (s.setPhase i job (.checked result))
      { h with produced := h.produced ++ [(job, result)] } := by
  constructor
  · intro j hj
    rcases Dict.mem_set.1 hj with rfl | hj
    · exact hacc.tickets j (Dict.mem_of_get? hget)
    · exact hacc.tickets j hj
  · exact fun e he => List.mem_append_left _ (hacc.written e he)
  · intro j job' phase result' hget' hres
    rw [State.setPhase, Dict.get?_set] at hget'
    by_cases hj : j = i
    · rw [if_pos hj] at hget'
      obtain ⟨rfl, rfl⟩ := Prod.mk.inj (Option.some.inj hget')
      obtain rfl := Option.some.inj hres
      simp
    · rw [if_neg hj] at hget'
      exact List.mem_append_left _ (hacc.running j job' phase result' hget' hres)
  · intro e he
    rcases List.mem_append.1 he with he | he
    · rcases hacc.produced e he with hwritten | ⟨j, phase, hget', hres⟩
      · exact .inl hwritten
      · have hj : j ≠ i := by
          rintro rfl
          obtain ⟨-, rfl⟩ := Prod.mk.inj (Option.some.inj (hget.symm.trans hget'))
          cases hres
        exact .inr ⟨j, phase, (Dict.get?_set_ne _ _ hj).trans hget', hres⟩
    · rw [List.mem_singleton.1 he]
      exact .inr ⟨i, .checked result, Dict.get?_set_self _ _ _, rfl⟩

/-- A job that ends: it has no result, or it has written it. -/
theorem Accounted.finish {h h' : History} {i : Nat} {job : Job} {phase : Phase}
    {resultsDict : Dict Uid FileEntry} (hacc : Accounted s h)
    (hget : s.running.get? i = some (job, phase)) (hproduced : h'.produced = h.produced)
    (hwritten : ∀ e ∈ h'.written, e ∈ h.produced) (hkept : ∀ e ∈ h.written, e ∈ h'.written)
    (hown : ∀ result, phase.result = some result → (job, result) ∈ h'.written) :
    Accounted { s with resultsDict := resultsDict, running := s.running.erase i } h' := by
  constructor
  · exact fun j hj => hacc.tickets j (Dict.mem_erase.1 hj).2
  · rwa [hproduced]
  · intro j job' phase' result hget' hres
    rw [Dict.get?_erase] at hget'
    by_cases hj : j = i
    · simp [hj] at hget'
    · rw [if_neg hj] at hget'
      exact hproduced ▸ hacc.running j job' phase' result hget' hres
  · intro e he
    rcases hacc.produced e (hproduced ▸ he) with hold | ⟨j, phase', hget', hres⟩
    · exact .inl (hkept e hold)
    · by_cases hj : j = i
      · obtain ⟨rfl, rfl⟩ := Prod.mk.inj (Option.some.inj (hget.symm.trans (hj ▸ hget')))
        exact .inl (hown e.2 hres)
      · exact .inr ⟨j, phase', (Dict.get?_erase_ne _ hj).trans hget', hres⟩

theorem step_accounted {h : History} (hacc : Accounted s h) (hstep : step getUid a s = some s') :
    Accounted s' (observe a s h) := by
  cases a with
  | nextFile =>
      simp only [step] at hstep
      split at hstep
      · split at hstep <;> cases hstep <;>
          exact ⟨hacc.tickets, hacc.written, hacc.running, hacc.produced⟩
      · cases hstep
  | submit =>
      simp only [step] at hstep
      split at hstep <;> cases hstep <;>
        exact ⟨hacc.tickets, hacc.written, hacc.running, hacc.produced⟩
  | start =>
      simp only [step] at hstep
      split at hstep
      · split at hstep <;> cases hstep
        exact hacc.start
      · cases hstep
  | check i result =>
      simp only [step] at hstep
      split at hstep
      · rename_i job result hget
        cases hstep
        simp only [observe, hget]
        exact hacc.produce hget
      · rename_i job hget
        cases hstep
        exact hacc.finish hget rfl hacc.written (fun e he => he) fun result hres => by cases hres
      · cases hstep
  | lookUp i =>
      simp only [step] at hstep
      split at hstep
      · rename_i job result hget
        split at hstep <;> cases hstep
        · exact hacc.setPhase hget rfl
        · exact hacc.setPhase hget rfl
      · cases hstep
  | read i =>
      simp only [step] at hstep
      split at hstep
      · rename_i job result hget
        split at hstep <;> cases hstep
        exact hacc.setPhase hget rfl
      · cases hstep
  | write i =>
      simp only [step] at hstep
      split at hstep
      · rename_i job result tmpDict hget
        cases hstep
        simp only [observe, hget]
        refine hacc.finish hget rfl ?_ (fun e he => List.mem_append_left _ he) ?_
        · intro e he
          rcases List.mem_append.1 he with he | he
          · exact hacc.written e he
          · rw [List.mem_singleton.1 he]
            exact hacc.running i job _ result hget rfl
        · intro result' hres
          obtain rfl := Option.some.inj hres
          simp
      · cases hstep

theorem init_accounted (p : State × History) (hinit : (machine getUid).Init p) :
    Accounted p.1 p.2 := by
  obtain ⟨⟨-, -, hrunning, -⟩, hhistory⟩ := hinit
  rw [hhistory]
  constructor
  · intro i hi
    simp [hrunning, Dict.mem_iff_isSome] at hi
  · simp
  · intro i job phase result hget
    simp [hrunning] at hget
  · simp

theorem reach_accounted {ok : State × History → Action → Prop} {p : State × History}
    (hreach : (machine getUid).Reach ok p) : Accounted p.1 p.2 := by
  refine Machine.reach_invariant init_accounted ?_ hreach
  intro q a q' _ hstep hacc
  obtain ⟨hs, hh⟩ := Machine.step_withHistory hstep
  rw [hh]
  exact step_accounted hacc hs

theorem init_holds (p : State × History) (hinit : (machine getUid).Init p) :
    Holds p.1 p.2.written := by
  rw [hinit.2]
  exact fun e he => absurd he List.not_mem_nil

/-- In a run whose writes are undisturbed, the dict holds at every time the results
of the jobs that have written, and in the end those of all jobs that had one; a
further step keeps the results iff it is undisturbed. -/
theorem nothing_lost {p : State × History}
    (hreach : (machine getUid).Reach (fun q a => Undisturbed q.1 a) p) :
    (Finished p.1 → Holds p.1 p.2.produced) ∧ Holds p.1 p.2.written ∧
      ∀ a p', (machine getUid).step a p = some p' →
        (Holds p'.1 p'.2.written ↔ Undisturbed p.1 a) := by
  have hinv : ∀ q, (machine getUid).Reach (fun q a => Undisturbed q.1 a) q → Inv q.1 q.2.written :=
    fun q h => reach_inv h
  have hholds : Holds p.1 p.2.written := by
    refine Machine.reach_invariant_with (fun q => hinv q) init_holds ?_ hreach
    intro q a q' hundisturbed hstep hinv hholds
    obtain ⟨hs, hh⟩ := Machine.step_withHistory hstep
    rw [hh]
    exact (holds_step_iff hinv hholds hs).2 hundisturbed
  refine ⟨?_, hholds, ?_⟩
  · rintro ⟨-, -, -, hrunning⟩
    have hacc := reach_accounted hreach
    -- nothing is in flight, so all results have been written
    have hwritten : ∀ e ∈ p.2.produced, e ∈ p.2.written := by
      intro e he
      refine (hacc.produced e he).resolve_right ?_
      rintro ⟨i, phase, hget, -⟩
      simp [hrunning] at hget
    intro e he
    obtain ⟨entry, result, hentry, hresult, e', he', hsame⟩ := hholds e (hwritten e he)
    exact ⟨entry, result, hentry, hresult, e', hacc.written e' he', hsame⟩
  · intro a p' hstep
    obtain ⟨hs, hh⟩ := Machine.step_withHistory hstep
    rw [hh]
    exact holds_step_iff (hinv p hreach) hholds hs

end

/-! ## Two jobs for one file -/

/-- One file, for an architecture with two suffixes. -/
def oneFile : State where
  fileList := [("/bin/busybox", "ELF 32-bit LSB executable, Intel 80486")]
  main := .nextFile
  queue := []
  running := ∅
  nextTicket := 0
  resultsDict := ∅

theorem init_oneFile (getUid : String → Uid) : (machine getUid).Init (oneFile, ⟨[], []⟩) :=
  ⟨⟨rfl, rfl, rfl, rfl⟩, rfl⟩

/-- The main thread submits the jobs of the file, and both are started and checked. -/
def bothChecked : List Action :=
  [.nextFile, .submit, .submit, .submit, .start, .start, .check 0 (some "x"), .check 1 (some "y")]

/-- Both jobs look the file up before one of them writes. -/
def overlapping : List Action := bothChecked ++ [.lookUp 0, .lookUp 1, .write 0, .write 1]

theorem overlapping_isSome : ((machine fun _ => "a_1").run Machine.anyStep overlapping
    (oneFile, ⟨[], []⟩)).isSome = true := by decide +kernel

/-- The result of the first job is lost. -/
theorem overlapping_lost : ∃ p, (machine fun _ => "a_1").Reach Machine.anyStep p ∧ Finished p.1 ∧
    ¬ Holds p.1 p.2.produced := by
  refine ⟨_, Machine.reach_get (init_oneFile _) overlapping_isSome, ?_, ?_⟩
  · exact ⟨rfl, rfl, rfl, rfl⟩
  · intro hholds
    obtain ⟨entry, result, hentry, hresult, -⟩ := hholds (⟨"/bin/busybox", "x86_64", "a_1"⟩, "x")
      (List.mem_cons_self)
    obtain rfl := Option.some.inj hentry
    cases hresult

/-- A run in which only the first suffix gives a result. -/
theorem oneResult_kept : ∃ p, Finished p.1 ∧
    p.2.produced = [(⟨"/bin/busybox", "x86_64", "a_1"⟩, "x")] ∧
    ((Finished p.1 → Holds p.1 p.2.produced) ∧ Holds p.1 p.2.written ∧
      ∀ a p', (machine fun _ => "a_1").step a p = some p' →
        (Holds p'.1 p'.2.written ↔ Undisturbed p.1 a)) := by
  have hstart : (machine fun _ => "a_1").Reach (fun q a => Undisturbed q.1 a) (oneFile, ⟨[], []⟩) :=
    ⟨_, [], init_oneFile _, Machine.Steps.nil _⟩
  have hfile := hstart.step (a := Action.nextFile) trivial rfl
  have hfirst := hfile.step (a := Action.submit) trivial rfl
  have hsecond := hfirst.step (a := Action.submit) trivial rfl
  have hsubmitted := hsecond.step (a := Action.submit) trivial rfl
  have hstarted := hsubmitted.step (a := Action.start) trivial rfl
  have hboth := hstarted.step (a := Action.start) trivial rfl
  have hchecked := hboth.step (a := Action.check 0 (some "x")) trivial rfl
  have hempty := hchecked.step (a := Action.check 1 none) trivial rfl
  have hlooked := hempty.step (a := Action.lookUp 0) trivial rfl
  have hwritten := hlooked.step (a := Action.write 0) (by
    intro job result tmpDict entry hget hentry
    -- the file has no entry yet
    exact absurd (show none = some entry from hentry) (by simp)) rfl
  exact ⟨_, ⟨rfl, rfl, rfl, rfl⟩, rfl, nothing_lost hwritten⟩

end FactCore.QemuExec
