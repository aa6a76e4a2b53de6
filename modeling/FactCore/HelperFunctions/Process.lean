import FactCore.Lib.Join
import FactCore.Lib.SkippingLoop

/-! # Worker processes with exceptions

`check_worker_exceptions` and `start_single_worker` of `helperFunctions/process.py`.
The loop over the process list removes the workers with an exception from this list
and appends new ones, so it runs over a list that changes under it.

Every worker with an exception is found if and only if no two of them are neighbours
in the list. The log messages are left out.
-/

namespace FactCore.Process

/-- A worker process. Its `name` consists of a label, a hyphen and its index. The
exception comes with the stack trace. -/
structure WorkerProcess where
  ident : ℕ
  label : String
  index : ℕ
  exception : Option (String × String)
deriving DecidableEq

/-- The name under which `start_single_worker` and `multiprocessing` start a process. -/
def WorkerProcess.name (worker : WorkerProcess) : String :=
  worker.label ++ "-" ++ toString worker.index

inductive Exc where
  | valueError (message : String)
deriving DecidableEq

/-- `int(name.split('-')[-1])` for a decimal number. -/
def processIndex (name : String) : Except Exc ℕ :=
  let part := (Join.split '-' name).getLast Join.split_ne_nil
  if part.toList ≠ [] ∧ part.toList.all Char.isDigit = true then .ok (Nat.ofDigitChars 10 part.toList 0)
  else .error (.valueError ("invalid literal for int() with base 10: '" ++ part ++ "'"))

/-- The arguments of a call, with the configuration and with the exceptions that the
workers started by the call have when the loop comes to them. -/
structure Call where
  throwExceptions : Bool
  workerLabel : String
  hasWorkerFunction : Bool
  exceptionOf : ℕ → Option (String × String)

/-- `start_single_worker`. -/
def startSingleWorker (call : Call) (ident processIndex : ℕ) : WorkerProcess :=
  ⟨ident, call.workerLabel ++ "-Worker", processIndex, call.exceptionOf ident⟩

/-! ## The loop -/

/-- The process list, the workers that were terminated, the next free identity of a
process and the value that will be returned. -/
structure Scan where
  processList : List WorkerProcess
  terminated : List WorkerProcess
  nextIdent : ℕ
  returnValue : Bool
deriving DecidableEq

/-- The worker has an exception. -/
def failed (worker : WorkerProcess) : Bool := worker.exception.isSome

/-- The body of the loop. -/
def visit (call : Call) (worker : WorkerProcess) (scan : Scan) : Except Exc Scan :=
  if failed worker then
    let scan := { scan with
      terminated := scan.terminated ++ [worker]
      processList := scan.processList.erase worker }
    if call.throwExceptions then .ok { scan with returnValue := true }
    else if call.hasWorkerFunction then do
      let processIndex ← processIndex worker.name
      return { scan with
        processList := scan.processList ++ [startSingleWorker call scan.nextIdent processIndex]
        nextIdent := scan.nextIdent + 1 }
    else .ok scan
  else .ok scan

theorem isDigit_of_mem_toDigits {n : ℕ} {c : Char} (h : c ∈ Nat.toDigits 10 n) : c.isDigit = true :=
  Nat.isDigit_of_mem_toDigits (by decide) (by decide) h

/-- The index is found again. -/
theorem processIndex_name (worker : WorkerProcess) : processIndex worker.name = .ok worker.index := by
  have hdigits : (toString worker.index).toList = Nat.toDigits 10 worker.index := by
    rw [Nat.toString_eq_ofList_toDigits, String.toList_ofList]
  have hhyphen : '-' ∉ Nat.toDigits 10 worker.index := fun h => by
    have hdigit := isDigit_of_mem_toDigits h
    exact absurd hdigit (by decide)
  have hsplit : Join.split '-' worker.name =
      Join.split '-' worker.label ++ [String.ofList (Nat.toDigits 10 worker.index)] := by
    have hname : worker.name.toList = worker.label.toList ++ '-' :: Nat.toDigits 10 worker.index := by
      rw [WorkerProcess.name, String.toList_append, String.toList_append, hdigits, List.append_assoc]
      rfl
    rw [Join.split, hname, List.splitOn_append_cons_self, List.splitOn_eq_singleton hhyphen,
      List.map_append]
    rfl
  have hlast : (Join.split '-' worker.name).getLast Join.split_ne_nil =
      String.ofList (Nat.toDigits 10 worker.index) := by
    simp only [hsplit, List.getLast_append_singleton]
  have hall : (Nat.toDigits 10 worker.index).all Char.isDigit = true :=
    List.all_eq_true.2 fun c hc => isDigit_of_mem_toDigits hc
  simp only [processIndex, hlast, String.toList_ofList, if_pos (⟨Nat.toDigits_ne_nil, hall⟩ : _ ∧ _),
    Nat.ofDigitChars_ten_toDigits]

variable {call : Call} {worker : WorkerProcess} {scan scan' : Scan} {i : ℕ}

theorem visit_of_ok (h : failed worker = false) : visit call worker scan = .ok scan := by
  simp [visit, h]

theorem visit_throw (h : failed worker = true) (hthrow : call.throwExceptions = true) :
    visit call worker scan = .ok
      { scan with
        processList := scan.processList.erase worker
        terminated := scan.terminated ++ [worker]
        returnValue := true } := by
  simp [visit, h, hthrow]

theorem visit_restart (h : failed worker = true) (hthrow : call.throwExceptions = false)
    (hfunction : call.hasWorkerFunction = true) :
    visit call worker scan = .ok
      { scan with
        processList := scan.processList.erase worker ++
          [startSingleWorker call scan.nextIdent worker.index]
        terminated := scan.terminated ++ [worker]
        nextIdent := scan.nextIdent + 1 } := by
  simp only [visit, h, hthrow, hfunction, if_true, processIndex_name]
  rfl

/-- No step makes the list longer. -/
theorem length_of_visit (hmem : worker ∈ scan.processList) (h : visit call worker scan = .ok scan') :
    scan'.processList.length ≤ scan.processList.length := by
  have herase := List.length_erase_of_mem hmem
  have hpos := List.length_pos_of_mem hmem
  cases hfailed : failed worker with
  | false =>
      rw [visit_of_ok hfailed] at h
      cases h
      exact le_rfl
  | true =>
      cases hthrow : call.throwExceptions with
      | true =>
          rw [visit_throw hfailed hthrow] at h
          cases h
          simp only [herase]
          omega
      | false =>
          cases hfunction : call.hasWorkerFunction with
          | true =>
              rw [visit_restart hfailed hthrow hfunction] at h
              cases h
              simp only [List.length_append, List.length_singleton, herase]
              omega
          | false =>
              have hvisit : visit call worker scan = .ok
                  { scan with
                    terminated := scan.terminated ++ [worker]
                    processList := scan.processList.erase worker } := by
                simp [visit, hfailed, hthrow, hfunction]
              rw [hvisit] at h
              cases h
              simp only [herase]
              omega

/-- `for worker_process in process_list`: the iterator of a list keeps an index and
looks at the list again in every pass. -/
def loop (call : Call) (i : ℕ) (scan : Scan) : Except Exc Scan :=
  if hi : i < scan.processList.length then
    match hvisit : visit call scan.processList[i] scan with
    | .error e => .error e
    | .ok scan' => loop call (i + 1) scan'
  else .ok scan
termination_by scan.processList.length - i
decreasing_by
  have hlength := length_of_visit (List.getElem_mem hi) hvisit
  omega

/-- `check_worker_exceptions`: the state at the end of the loop. -/
def checkWorkerExceptions (call : Call) (processList : List WorkerProcess) (nextIdent : ℕ) :
    Except Exc Scan :=
  loop call 0 ⟨processList, [], nextIdent, false⟩

theorem loop_step (hi : scan.processList[i]? = some worker) (hvisit : visit call worker scan = .ok scan') :
    loop call i scan = loop call (i + 1) scan' := by
  rcases List.getElem?_eq_some_iff.1 hi with ⟨hlt, rfl⟩
  rw [loop, dif_pos hlt]
  split
  next e herror => cases herror.symm.trans hvisit
  next scan'' hok => rw [Except.ok.inj (hok.symm.trans hvisit)]

theorem loop_end (h : scan.processList.length ≤ i) : loop call i scan = .ok scan := by
  rw [loop, dif_neg (Nat.not_lt.2 h)]

/-! ## Workers are not restarted -/

/-- A pass over a worker that is all right. -/
theorem loop_of_ok {kept rest : List WorkerProcess} (hlist : scan.processList = kept ++ worker :: rest)
    (hok : failed worker = false) : loop call kept.length scan = loop call (kept.length + 1) scan := by
  refine loop_step ?_ (visit_of_ok hok)
  rw [hlist, List.getElem?_append_right (Nat.le_refl _), Nat.sub_self, List.getElem?_cons_zero]

/-- The first worker with an exception is not found in front of it. -/
theorem erase_middle {kept rest : List WorkerProcess} (hnodup : (kept ++ worker :: rest).Nodup) :
    (kept ++ worker :: rest).erase worker = kept ++ rest := by
  rw [List.erase_append_right _ fun hmem => ?_, List.erase_cons_head]
  exact (List.nodup_append.1 hnodup).2.2 _ hmem _ List.mem_cons_self rfl

theorem loop_throw (hthrow : call.throwExceptions = true) (todo : List WorkerProcess) :
    ∀ (kept : List WorkerProcess) (skip : Bool) (scan : Scan), scan.processList = kept ++ todo →
      (kept ++ todo).Nodup →
      loop call (kept.length + if skip then 1 else 0) scan = .ok
        { scan with
          processList := kept ++ SkippingLoop.left failed skip todo
          terminated := scan.terminated ++ SkippingLoop.removed failed skip todo
          returnValue := scan.returnValue || !(SkippingLoop.removed failed skip todo).isEmpty } := by
  induction todo with
  | nil =>
      intro kept skip scan hlist _
      have hlength : scan.processList.length = kept.length := by rw [hlist, List.append_nil]
      rw [loop_end (by omega)]
      cases skip <;> simp [SkippingLoop.left, SkippingLoop.removed, ← hlist]
  | cons worker todo ih =>
      intro kept skip scan hlist hnodup
      have hmove : kept ++ worker :: todo = (kept ++ [worker]) ++ todo := by simp
      cases skip with
      | true =>
          -- the worker has moved to the place of the one that was removed
          have hrun := ih (kept ++ [worker]) false scan (hlist.trans hmove) (hmove ▸ hnodup)
          rw [List.length_append, List.length_singleton] at hrun
          refine hrun.trans ?_
          simp [SkippingLoop.left, SkippingLoop.removed]
      | false =>
          cases hfailed : failed worker with
          | false =>
              have hrun := ih (kept ++ [worker]) false scan (hlist.trans hmove) (hmove ▸ hnodup)
              rw [List.length_append, List.length_singleton] at hrun
              refine (loop_of_ok hlist hfailed).trans (hrun.trans ?_)
              simp [SkippingLoop.left, SkippingLoop.removed, hfailed]
          | true =>
              have hat : scan.processList[kept.length]? = some worker := by
                rw [hlist, List.getElem?_append_right (Nat.le_refl _), Nat.sub_self, List.getElem?_cons_zero]
              have hrun := ih kept true
                { scan with
                  processList := scan.processList.erase worker
                  terminated := scan.terminated ++ [worker]
                  returnValue := true }
                (by rw [hlist, erase_middle hnodup])
                (hnodup.sublist ((List.sublist_cons_self worker todo).append_left kept))
              refine (loop_step hat (visit_throw hfailed hthrow)).trans (hrun.trans ?_)
              simp [SkippingLoop.left, SkippingLoop.removed, hfailed]

/-! ## Workers are restarted -/

/-- What a pass over a worker with an exception makes of the list: the worker is gone and
there is a new one with its index at the end. -/
def Scan.restarted (call : Call) (scan : Scan) (kept : List WorkerProcess) (worker : WorkerProcess)
    (rest : List WorkerProcess) : Scan :=
  { scan with
    processList := kept ++ (rest ++ [startSingleWorker call scan.nextIdent worker.index])
    terminated := scan.terminated ++ [worker]
    nextIdent := scan.nextIdent + 1 }

theorem loop_of_restart {kept rest : List WorkerProcess}
    (hlist : scan.processList = kept ++ worker :: rest) (hnodup : scan.processList.Nodup)
    (hfailed : failed worker = true) (hthrow : call.throwExceptions = false)
    (hfunction : call.hasWorkerFunction = true) :
    loop call kept.length scan = loop call (kept.length + 1) (scan.restarted call kept worker rest) := by
  have hat : scan.processList[kept.length]? = some worker := by
    rw [hlist, List.getElem?_append_right (Nat.le_refl _), Nat.sub_self, List.getElem?_cons_zero]
  rw [loop_step hat (visit_restart hfailed hthrow hfunction), hlist, erase_middle (hlist ▸ hnodup),
    List.append_assoc, Scan.restarted]

/-- The processes of the list have different identities, which are not free any more. -/
structure Scan.Fresh (scan : Scan) : Prop where
  nodup : scan.processList.Nodup
  ident_lt : ∀ worker ∈ scan.processList, worker.ident < scan.nextIdent

theorem Scan.Fresh.restart {kept rest : List WorkerProcess} (h : scan.Fresh)
    (hlist : scan.processList = kept ++ worker :: rest) : (scan.restarted call kept worker rest).Fresh := by
  have hsublist : (kept ++ rest).Sublist scan.processList := by
    rw [hlist]
    exact (List.sublist_cons_self worker rest).append_left kept
  constructor
  · simp only [Scan.restarted]
    rw [← List.append_assoc, List.nodup_append]
    refine ⟨h.nodup.sublist hsublist, List.nodup_singleton _, fun a ha b hb hab => ?_⟩
    have hident := h.ident_lt a (hsublist.subset ha)
    rw [hab, List.mem_singleton.1 hb] at hident
    exact absurd hident (Nat.lt_irrefl _)
  · simp only [Scan.restarted]
    intro a ha
    rw [← List.append_assoc] at ha
    rcases List.mem_append.1 ha with hold | hnew
    · exact Nat.lt_succ_of_lt (h.ident_lt a (hsublist.subset hold))
    · rw [List.mem_singleton.1 hnew]
      exact Nat.lt_succ_self _

/-- What the loop has done to the workers of a kind: `gone` were terminated, and
`remaining` are in the list. The list keeps its indices. -/
structure Swept (old : WorkerProcess → Bool) (scan scan' : Scan) (gone remaining : List WorkerProcess) :
    Prop where
  terminated : scan'.terminated.filter old = scan.terminated.filter old ++ gone
  processList : scan'.processList.filter old = remaining
  indices : (scan'.processList.map WorkerProcess.index).Perm (scan.processList.map WorkerProcess.index)
  returnValue : scan'.returnValue = scan.returnValue

/-- New workers are not of the kind. -/
def NewWorkers (old : WorkerProcess → Bool) (call : Call) (scan : Scan) : Prop :=
  ∀ ident index, scan.nextIdent ≤ ident → old (startSingleWorker call ident index) = false

variable {old : WorkerProcess → Bool} {gone remaining : List WorkerProcess}

theorem swept_refl (old : WorkerProcess → Bool) (scan : Scan) :
    Swept old scan scan [] (scan.processList.filter old) :=
  ⟨(List.append_nil _).symm, rfl, .refl _, rfl⟩

/-- The new worker takes over the index. -/
theorem indices_restart {kept rest : List WorkerProcess} {ident : ℕ}
    (hlist : scan.processList = kept ++ worker :: rest) :
    ((kept ++ (rest ++ [startSingleWorker call ident worker.index])).map WorkerProcess.index).Perm
      (scan.processList.map WorkerProcess.index) := by
  rw [hlist, List.map_append, List.map_append, List.map_append, List.map_cons]
  exact (List.perm_append_singleton _ _).append_left _

/-- A new worker at the end of new workers. -/
theorem NewWorkers.not_old_append {news : List WorkerProcess} (h : NewWorkers old call scan)
    (hnews : ∀ worker ∈ news, old worker = false) (index : ℕ) :
    ∀ worker ∈ news ++ [startSingleWorker call scan.nextIdent index], old worker = false := by
  intro worker hworker
  rcases List.mem_append.1 hworker with hmem | hmem
  · exact hnews worker hmem
  · rw [List.mem_singleton.1 hmem]
    exact h scan.nextIdent index (Nat.le_refl _)

theorem NewWorkers.restarted {kept rest : List WorkerProcess} (h : NewWorkers old call scan) :
    NewWorkers old call (scan.restarted call kept worker rest) :=
  fun ident index hle => h ident index (Nat.le_of_succ_le hle)

/-- A pass in which a worker is restarted, before the rest of the loop. -/
theorem Swept.of_restart {scan' : Scan} {kept rest : List WorkerProcess}
    (h : Swept old (scan.restarted call kept worker rest) scan' gone remaining)
    (hlist : scan.processList = kept ++ worker :: rest) :
    Swept old scan scan' ([worker].filter old ++ gone) remaining where
  terminated := by rw [h.terminated, Scan.restarted, List.filter_append, List.append_assoc]
  processList := h.processList
  indices := h.indices.trans (indices_restart hlist)
  returnValue := h.returnValue

/-- The rest of the list holds only new workers: they do not count, whether they have
exceptions or not. -/
theorem loop_news (hthrow : call.throwExceptions = false) (hfunction : call.hasWorkerFunction = true)
    (n : ℕ) : ∀ (front back : List WorkerProcess) (scan : Scan), back.length = n →
      scan.processList = front ++ back → scan.Fresh → (∀ worker ∈ back, old worker = false) →
      NewWorkers old call scan →
      ∃ scan', loop call front.length scan = .ok scan' ∧
        Swept old scan scan' [] (scan.processList.filter old) := by
  induction n with
  | zero =>
      intro front back scan hn hlist _ _ _
      obtain rfl : back = [] := List.length_eq_zero_iff.1 hn
      refine ⟨scan, loop_end ?_, swept_refl old scan⟩
      rw [hlist, List.append_nil]
  | succ n ih =>
      intro front back scan hn hlist hfresh hback hnew
      cases back with
      | nil => cases hn
      | cons worker rest =>
          have hold : old worker = false := hback worker List.mem_cons_self
          have hrest : ∀ w ∈ rest, old w = false := fun w hw => hback w (List.mem_cons_of_mem _ hw)
          have hn' : rest.length = n := Nat.succ.inj hn
          cases hfailed : failed worker with
          | false =>
              have hmove : scan.processList = (front ++ [worker]) ++ rest := by rw [hlist]; simp
              rcases ih (front ++ [worker]) rest scan hn' hmove hfresh hrest hnew with ⟨scan', hrun, hswept⟩
              rw [List.length_append, List.length_singleton] at hrun
              exact ⟨scan', (loop_of_ok hlist hfailed).trans hrun, hswept⟩
          | true =>
              have hnotNew := hnew scan.nextIdent worker.index le_rfl
              -- the next place is skipped, whoever has moved there
              rcases List.exists_cons_of_ne_nil (List.append_ne_nil_of_right_ne_nil rest
                (List.cons_ne_nil (startSingleWorker call scan.nextIdent worker.index) [])) with
                ⟨next, back', hnext⟩
              have hlength : back'.length = n := by
                have hboth := congrArg List.length hnext
                simp only [List.length_append, List.length_cons, List.length_nil] at hboth
                omega
              have hnot : ∀ w ∈ back', old w = false := fun w hw =>
                hnew.not_old_append hrest worker.index w (hnext ▸ List.mem_cons_of_mem next hw)
              rcases ih (front ++ [next]) back' (scan.restarted call front worker rest) hlength
                (by simp [Scan.restarted, hnext]) (hfresh.restart hlist) hnot hnew.restarted with
                ⟨scan', hrun, hswept⟩
              rw [List.length_append, List.length_singleton] at hrun
              have hkept : (scan.restarted call front worker rest).processList.filter old =
                  scan.processList.filter old := by
                rw [hlist]
                simp [Scan.restarted, hold, hnotNew]
              have hall := hswept.of_restart hlist
              rw [hkept, List.filter_cons_of_neg (by simp [hold])] at hall
              exact ⟨scan', (loop_of_restart hlist hfresh.nodup hfailed hthrow hfunction).trans hrun, hall⟩

/-- The loop from an old worker on. -/
theorem loop_restart (hthrow : call.throwExceptions = false) (hfunction : call.hasWorkerFunction = true)
    (todo : List WorkerProcess) :
    ∀ (kept news : List WorkerProcess) (skip : Bool) (scan : Scan),
      scan.processList = kept ++ (todo ++ news) → scan.Fresh → (∀ worker ∈ todo, old worker = true) →
      (∀ worker ∈ news, old worker = false) → NewWorkers old call scan →
      ∃ scan', loop call (kept.length + if skip then 1 else 0) scan = .ok scan' ∧
        Swept old scan scan' (SkippingLoop.removed failed skip todo)
          (kept.filter old ++ SkippingLoop.left failed skip todo) := by
  induction todo with
  | nil =>
      intro kept news skip scan hlist hfresh _ hnews hnew
      have hfilter : scan.processList.filter old = kept.filter old := by
        have hnone : news.filter old = [] := List.filter_eq_nil_iff.2 (by simpa using hnews)
        rw [hlist, List.nil_append, List.filter_append, hnone, List.append_nil]
      cases skip with
      | false =>
          rcases loop_news hthrow hfunction news.length kept news scan rfl hlist hfresh hnews hnew with
            ⟨scan', hrun, hswept⟩
          rw [hfilter] at hswept
          exact ⟨scan', hrun, by simpa [SkippingLoop.removed, SkippingLoop.left] using hswept⟩
      | true =>
          cases news with
          | nil =>
              refine ⟨scan, loop_end ?_, ?_⟩
              · rw [hlist]
                simp
              · have hswept := swept_refl old scan
                rw [hfilter] at hswept
                simpa [SkippingLoop.removed, SkippingLoop.left] using hswept
          | cons next news =>
              have hmove : scan.processList = (kept ++ [next]) ++ news := by rw [hlist]; simp
              rcases loop_news hthrow hfunction news.length (kept ++ [next]) news scan rfl hmove hfresh
                (fun w hw => hnews w (List.mem_cons_of_mem _ hw)) hnew with ⟨scan', hrun, hswept⟩
              rw [hfilter] at hswept
              rw [List.length_append, List.length_singleton] at hrun
              exact ⟨scan', hrun, by simpa [SkippingLoop.removed, SkippingLoop.left] using hswept⟩
  | cons worker todo ih =>
      intro kept news skip scan hlist hfresh htodo hnews hnew
      have hold : old worker = true := htodo worker List.mem_cons_self
      have htodo' : ∀ w ∈ todo, old w = true := fun w hw => htodo w (List.mem_cons_of_mem _ hw)
      have hmove : scan.processList = (kept ++ [worker]) ++ (todo ++ news) := by rw [hlist]; simp
      have hpass := ih (kept ++ [worker]) news false scan hmove hfresh htodo' hnews hnew
      rw [List.length_append, List.length_singleton] at hpass
      cases skip with
      | true =>
          -- the worker has moved to the place of the one that was removed
          rcases hpass with ⟨scan', hrun, hswept⟩
          exact ⟨scan', hrun, by simpa [SkippingLoop.removed, SkippingLoop.left, hold] using hswept⟩
      | false =>
          cases hfailed : failed worker with
          | false =>
              rcases hpass with ⟨scan', hrun, hswept⟩
              refine ⟨scan', (loop_of_ok hlist hfailed).trans hrun, ?_⟩
              simpa [SkippingLoop.removed, SkippingLoop.left, hold, hfailed] using hswept
          | true =>
              rcases ih kept (news ++ [startSingleWorker call scan.nextIdent worker.index]) true
                (scan.restarted call kept worker (todo ++ news)) (by simp [Scan.restarted])
                (hfresh.restart hlist) htodo' (hnew.not_old_append hnews worker.index) hnew.restarted with
                ⟨scan', hrun, hswept⟩
              have hall := hswept.of_restart hlist
              rw [List.filter_cons_of_pos hold] at hall
              refine ⟨scan', (loop_of_restart hlist hfresh.nodup hfailed hthrow hfunction).trans hrun, ?_⟩
              simpa [SkippingLoop.removed, SkippingLoop.left, hfailed] using hall

/-! ## One call -/

variable {processList : List WorkerProcess} {nextIdent : ℕ}

/-- Every worker with an exception was terminated once and removed, and the result tells
whether there was one. -/
structure Removed (before : List WorkerProcess) (after : Scan) : Prop where
  terminated : after.terminated.Perm (before.filter failed)
  processList : after.processList = before.filter fun worker => !failed worker
  returnValue : after.returnValue = true ↔ ∃ worker ∈ before, failed worker = true

/-- Of the workers of the list, those with an exception were terminated once, and the
others are still there; one new worker for each of the former has its index. -/
structure Restarted (before : List WorkerProcess) (after : Scan) : Prop where
  terminated : (after.terminated.filter fun worker => worker ∈ before).Perm (before.filter failed)
  untouched : (after.processList.filter fun worker => worker ∈ before).Perm
    (before.filter fun worker => !failed worker)
  replaced : ((after.processList.filter fun worker => worker ∉ before).map WorkerProcess.index).Perm
    ((before.filter failed).map WorkerProcess.index)
  length : after.processList.length = before.length
  returnValue : after.returnValue = false

/-- What a call should do to the workers. -/
def Treated (call : Call) (before : List WorkerProcess) (after : Scan) : Prop :=
  if call.throwExceptions then Removed before after else Restarted before after

/-- The processes are different ones, and later processes get other identities. -/
structure Distinct (processList : List WorkerProcess) (nextIdent : ℕ) : Prop where
  nodup : processList.Nodup
  ident_lt : ∀ worker ∈ processList, worker.ident < nextIdent

theorem checkWorkerExceptions_throw (hthrow : call.throwExceptions = true) (hnodup : processList.Nodup) :
    checkWorkerExceptions call processList nextIdent = .ok
      ⟨SkippingLoop.left failed false processList, SkippingLoop.removed failed false processList,
        nextIdent, !(SkippingLoop.removed failed false processList).isEmpty⟩ := by
  have hrun := loop_throw hthrow processList [] false ⟨processList, [], nextIdent, false⟩ rfl hnodup
  simpa [checkWorkerExceptions] using hrun

theorem checkWorkerExceptions_restart (hthrow : call.throwExceptions = false)
    (hfunction : call.hasWorkerFunction = true) (h : Distinct processList nextIdent) :
    ∃ after, checkWorkerExceptions call processList nextIdent = .ok after ∧
      Swept (fun worker => decide (worker ∈ processList)) ⟨processList, [], nextIdent, false⟩ after
        (SkippingLoop.removed failed false processList) (SkippingLoop.left failed false processList) := by
  have hnew : NewWorkers (fun worker => decide (worker ∈ processList)) call
      ⟨processList, [], nextIdent, false⟩ := by
    intro ident index hident
    rw [decide_eq_false_iff_not]
    intro hmem
    exact absurd (h.ident_lt _ hmem) (Nat.not_lt.2 hident)
  have hrun := loop_restart hthrow hfunction processList [] [] false ⟨processList, [], nextIdent, false⟩
    (by simp) ⟨h.nodup, h.ident_lt⟩ (fun worker hw => by simpa using hw)
    (fun worker hw => absurd hw List.not_mem_nil) hnew
  simpa [checkWorkerExceptions] using hrun

/-- Splitting off the workers that stay leaves those that came for those that went. -/
theorem replaced_of_indices {after : Scan}
    (hindices : (after.processList.map WorkerProcess.index).Perm (processList.map WorkerProcess.index))
    (hstay : (after.processList.filter fun worker => worker ∈ processList) =
      processList.filter fun worker => !failed worker) :
    ((after.processList.filter fun worker => worker ∉ processList).map WorkerProcess.index).Perm
      ((processList.filter failed).map WorkerProcess.index) := by
  have hafter := (List.filter_append_perm (fun worker => decide (worker ∈ processList))
    after.processList).map WorkerProcess.index
  have hbefore := (List.filter_append_perm failed processList).map WorkerProcess.index
  have hall := hafter.trans (hindices.trans hbefore.symm)
  rw [List.map_append, List.map_append, hstay] at hall
  have hswap := hall.trans List.perm_append_comm
  simpa [List.perm_append_left_iff] using hswap

/-- A call treats the workers as it should if and only if no two workers with an
exception are neighbours. -/
theorem check_worker_exceptions_iff (hfunction : call.throwExceptions = false → call.hasWorkerFunction = true)
    (h : Distinct processList nextIdent) :
    (∃ after, checkWorkerExceptions call processList nextIdent = .ok after ∧
      Treated call processList after) ↔ SkippingLoop.Apart failed processList := by
  have hapart : SkippingLoop.Apart failed processList ↔
      SkippingLoop.removed failed false processList = processList.filter failed := by
    simp [SkippingLoop.removed_eq_filter_iff]
  have hfound : (SkippingLoop.removed failed false processList).Perm (processList.filter failed) →
      SkippingLoop.Apart failed processList := fun hperm =>
    hapart.2 (SkippingLoop.removed_sublist.eq_of_length hperm.length_eq)
  cases hthrow : call.throwExceptions with
  | true =>
      simp only [Treated, hthrow, if_true, checkWorkerExceptions_throw hthrow h.nodup]
      constructor
      · rintro ⟨after, hafter, hremoved⟩
        obtain rfl := Except.ok.inj hafter
        exact hfound hremoved.terminated
      · intro hneighbours
        refine ⟨_, rfl, ?_, ?_, ?_⟩
        · rw [hapart.1 hneighbours]
        · exact SkippingLoop.left_eq_filter hneighbours fun hfalse => by cases hfalse
        · simp only [hapart.1 hneighbours]
          simp [List.filter_eq_nil_iff]
  | false =>
      rcases checkWorkerExceptions_restart hthrow (hfunction hthrow) h with ⟨after, hafter, hswept⟩
      have hterminated := hswept.terminated
      rw [List.filter_nil, List.nil_append] at hterminated
      simp only [Treated, hthrow, Bool.false_eq_true, if_false, hafter]
      constructor
      · rintro ⟨after', heq, hrestarted⟩
        obtain rfl := Except.ok.inj heq
        exact hfound (hterminated ▸ hrestarted.terminated)
      · intro hneighbours
        have hstay : (after.processList.filter fun worker => worker ∈ processList) =
            processList.filter fun worker => !failed worker :=
          hswept.processList.trans (SkippingLoop.left_eq_filter hneighbours fun hfalse => by cases hfalse)
        refine ⟨after, rfl, ?_, ?_, replaced_of_indices hswept.indices hstay, ?_, hswept.returnValue⟩
        · rw [hterminated, hapart.1 hneighbours]
        · rw [hstay]
        · have hlength := hswept.indices.length_eq
          simpa only [List.length_map] using hlength

/-! ## Two workers -/

/-- A worker of the scheduler, with or without an exception. -/
def sampleWorker (ident : ℕ) (broken : Bool) : WorkerProcess :=
  ⟨ident, "ExceptionSafeProcess", ident, if broken then some ("RuntimeError", "Traceback") else none⟩

def sampleCall (throwExceptions : Bool) : Call := ⟨throwExceptions, "Scheduler", true, fun _ => none⟩

theorem check_worker_exceptions_sample :
    (∃ after, checkWorkerExceptions (sampleCall false) [sampleWorker 1 true, sampleWorker 2 false] 3 =
        .ok after ∧
      Treated (sampleCall false) [sampleWorker 1 true, sampleWorker 2 false] after) ↔
    SkippingLoop.Apart failed [sampleWorker 1 true, sampleWorker 2 false] :=
  check_worker_exceptions_iff (fun _ => rfl) ⟨by decide, by decide⟩

/-- The second of two workers with an exception is skipped: it keeps its place and is not
terminated. -/
theorem check_worker_exceptions_neighbours :
    ¬ ∃ after, checkWorkerExceptions (sampleCall true) [sampleWorker 1 true, sampleWorker 2 true] 3 =
        .ok after ∧
      Treated (sampleCall true) [sampleWorker 1 true, sampleWorker 2 true] after := by
  rintro ⟨after, hafter, htreated⟩
  rw [checkWorkerExceptions_throw rfl (by decide)] at hafter
  obtain rfl := Except.ok.inj hafter
  have hlist : Removed [sampleWorker 1 true, sampleWorker 2 true] _ := htreated
  exact absurd hlist.processList (by decide)

end FactCore.Process
