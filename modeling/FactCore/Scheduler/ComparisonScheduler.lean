import FactCore.Lib.Join
import FactCore.Lib.Machine
import FactCore.Objects.FileObject

/-! # The comparison scheduler

`scheduler/comparison_scheduler.py` with the part of `storage/db_interface_comparison.py`
and `compare/compare.py` that decides under which id a result is stored, and the
pages that start a comparison or look its result up.

The worker takes tasks from its queue and runs each comparison once, unless it
is told to redo it: it remembers the ids it has run in a set that only grows.
Meanwhile results are deleted, with or without a compared object, and runs may
fail. The history keeps what became of the task at each time one was taken, and
which of the ids that the worker remembers have lost their result.
-/

namespace FactCore.ComparisonScheduler

open Tla

/-- The uids of the compared objects, joined by semicolons. -/
abbrev CompareId := String

/-! ## Compare ids -/

/-- `convert_uid_list_to_compare_id`. -/
def convertUidListToCompareId (uidList : List Uid) : CompareId :=
  Join.join ';' (Join.sorted uidList)

/-- `convert_compare_id_to_list`. -/
def convertCompareIdToList (compareId : CompareId) : List Uid := Join.split ';' compareId

/-- `normalize_compare_id`. -/
def normalizeCompareId (compareId : CompareId) : CompareId :=
  convertUidListToCompareId (convertCompareIdToList compareId)

/-! ## The result of a comparison -/

/-- The fields that `_create_general_section_dict` fills in for an object. -/
def generalFields (isFirmware : Bool) : List String :=
  (if isFirmware then
    ["device_name", "device_part", "device_class", "vendor", "version", "release_date"]
  else ["firmwares_including_this_file"]) ++
    ["hid", "size", "virtual_file_path", "number_of_files"]

/-- `general.setdefault(field, {})[uid] = …`, as far as the keys are concerned. -/
def addEntry (general : Dict String (List Uid)) (entry : String × Uid) : Dict String (List Uid) :=
  let uids := (general.get? entry.1).getD []
  general.set entry.1 (if entry.2 ∈ uids then uids else uids ++ [entry.2])

/-- `_create_general_section_dict`: for each field the uids that have a value. -/
def createGeneralSectionDict (isFirmware : Uid → Bool) (uidList : List Uid) :
    Dict String (List Uid) :=
  (uidList.flatMap fun uid => (generalFields (isFirmware uid)).map fun field =>
    (field, uid)).foldl addEntry ∅

/-- `_calculate_comp_id`. -/
def calculateCompId (general : Dict String (List Uid)) : CompareId :=
  convertUidListToCompareId general.values.flatten.dedup

/-! ## The machine -/

/-- A comparison task `(comparison_id, redo)`. -/
structure Task where
  comparisonId : CompareId
  redo : Bool
deriving DecidableEq, Repr

/-- Where the worker stands: waiting for a task, before `delete_comparison`, and
in `_process_comparison`. -/
inductive Worker where
  | idle
  | deleting (comparisonId : CompareId)
  | comparing (comparisonId : CompareId)
deriving DecidableEq, Repr

/-- The uids with a file object row, the ids of the stored comparisons, the
queue, and the worker with the ids it has run. -/
structure State where
  fileObjects : Finset Uid
  comparisons : Finset CompareId
  inQueue : List Task
  comparisonsDone : Finset CompareId
  worker : Worker

/-- The steps: `add_task`, those of the worker, and what others do to the
database. A comparison comes to its end or raises somewhere. -/
inductive Action where
  | addTask (task : Task)
  | getTask
  | deleteOld
  | finish (isFirmware : Uid → Bool)
  | raise
  | restartWorker
  | deleteComparison (comparisonId : CompareId)
  | deleteFileObject (uid : Uid)
  | insertFileObject (uid : Uid)

/-- `objects_exist`: as many rows as the id has parts. -/
def objectsExist (s : State) (compareId : CompareId) : Bool :=
  decide ((s.fileObjects.filter fun uid => uid ∈ convertCompareIdToList compareId).card =
    (convertCompareIdToList compareId).length)

/-- `_comparison_should_start`. -/
def comparisonShouldStart (s : State) (task : Task) : Bool :=
  task.redo || decide (task.comparisonId ∉ s.comparisonsDone)

/-- The id of the result that a run gives. -/
def resultId (isFirmware : Uid → Bool) (comparisonId : CompareId) : CompareId :=
  calculateCompId (createGeneralSectionDict isFirmware (convertCompareIdToList comparisonId))

/-- `add_comparison_result`: a result whose objects are not all found is dropped. -/
def addComparisonResult (s : State) (comparisonId : CompareId) : State :=
  if objectsExist s comparisonId then { s with comparisons := insert comparisonId s.comparisons }
  else s

/-- One step. Deleting a file object deletes its comparisons as well. -/
def step : Action → State → Option State
  | .addTask task, s =>
      if objectsExist s task.comparisonId then some { s with inQueue := s.inQueue ++ [task] }
      else some s
  | .getTask, s =>
      match s.worker, s.inQueue with
      | .idle, task :: queue =>
          if comparisonShouldStart s task then
            some { s with
              inQueue := queue
              comparisonsDone := insert task.comparisonId s.comparisonsDone
              worker := if task.redo then .deleting task.comparisonId
                else .comparing task.comparisonId }
          else some { s with inQueue := queue }
      | _, _ => none
  | .deleteOld, s =>
      match s.worker with
      | .deleting comparisonId =>
          some { s with
            comparisons := s.comparisons.erase comparisonId
            worker := .comparing comparisonId }
      | _ => none
  | .finish isFirmware, s =>
      match s.worker with
      | .comparing comparisonId =>
          some { addComparisonResult s (resultId isFirmware comparisonId) with worker := .idle }
      | _ => none
  | .raise, s =>
      match s.worker with
      | .comparing _ => some { s with worker := .idle }
      | _ => none
  | .restartWorker, s => some { s with comparisonsDone := ∅, worker := .idle }
  | .deleteComparison comparisonId, s =>
      some { s with comparisons := s.comparisons.erase comparisonId }
  | .deleteFileObject uid, s =>
      some { s with
        fileObjects := s.fileObjects.erase uid
        comparisons := s.comparisons.filter fun id => uid ∉ convertCompareIdToList id }
  | .insertFileObject uid, s => some { s with fileObjects := insert uid s.fileObjects }

/-- What became of a task when it was taken from the queue: whether its id had a
stored result, whether the worker remembered the id although it had lost its
result, and whether the worker started a run. -/
structure Taken where
  task : Task
  stored : Bool
  lost : Bool
  run : Bool

/-- The tasks that were taken, the ids that were run to the end together with
the id under which the result was stored, and the ids whose last run by this
worker did not store a result under them or whose result was deleted since. -/
structure History where
  taken : List Taken
  results : List (CompareId × CompareId)
  lost : Finset CompareId

/-- The worker has started to run the comparison. -/
def Worker.runs : Worker → CompareId → Prop
  | .idle, _ => False
  | .deleting id, id' => id = id'
  | .comparing id, id' => id = id'

instance : ∀ w id, Decidable (Worker.runs w id)
  | .idle, _ => inferInstanceAs (Decidable False)
  | .deleting id, id' => inferInstanceAs (Decidable (id = id'))
  | .comparing id, id' => inferInstanceAs (Decidable (id = id'))

/-- The tasks that are taken from the queue. -/
def takenNow (s : State) (h : History) : List Taken :=
  match s.inQueue with
  | [] => []
  | task :: _ => [{
      task := task
      stored := decide (task.comparisonId ∈ s.comparisons)
      lost := decide (task.comparisonId ∈ h.lost)
      run := (step .getTask s).any fun s' => decide (s'.worker.runs task.comparisonId) }]

/-- What the history keeps of a step. -/
def observe : Action → State → History → History
  | .getTask, s, h => { h with taken := h.taken ++ takenNow s h }
  | .finish isFirmware, s, h =>
      match s.worker with
      | .comparing id =>
          let stored := resultId isFirmware id
          { h with
            results := if objectsExist s stored then h.results ++ [(id, stored)] else h.results
            lost := if objectsExist s stored ∧ stored = id then h.lost.erase id
              else insert id h.lost }
      | _ => h
  | .raise, s, h =>
      match s.worker with
      | .comparing id => { h with lost := insert id h.lost }
      | _ => h
  | .restartWorker, _, h => { h with lost := ∅ }
  | .deleteComparison id, s, h =>
      { h with lost := h.lost ∪ s.comparisonsDone.filter fun id' => id' = id }
  | .deleteFileObject uid, s, h =>
      { h with lost := h.lost ∪ s.comparisonsDone.filter fun id =>
          uid ∈ convertCompareIdToList id }
  | _, _, h => h

/-- Any file objects and comparisons, and a worker that has not run anything. -/
def machine : Machine (State × History) Action :=
  Machine.withHistory {
    Init := fun s => s.inQueue = [] ∧ s.comparisonsDone = ∅ ∧ s.worker = .idle
    step := step } ⟨[], [], ∅⟩ observe

/-! ## The pages -/

/-- What `show_compare_result` shows: an error, a page that waits for the
result of the id, or that result. -/
inductive Page where
  | error
  | wait (compareId : CompareId)
  | result (compareId : CompareId)
deriving DecidableEq, Repr

/-- `show_compare_result`. -/
def showCompareResult (s : State) (url : CompareId) : Page :=
  let compareId := normalizeCompareId url
  if objectsExist s compareId then
    if normalizeCompareId compareId ∈ s.comparisons then .result (normalizeCompareId compareId)
    else .wait compareId
  else .error

/-- `is_uid`: 64 hexadecimal digits, an underscore and a number. -/
def isUid (uid : String) : Bool :=
  let hash := uid.toList.take 64
  hash.length == 64 && hash.all (fun c => c.isDigit || ('a' ≤ c && c ≤ 'f')) &&
    match uid.toList.drop 64 with
    | '_' :: size => !size.isEmpty && size.all Char.isDigit
    | _ => false

/-- What `RestCompareGet.get` responds: an invalid id, no result, or the result. -/
inductive RestResponse where
  | invalid
  | notFound (compareId : CompareId)
  | result (compareId : CompareId)
deriving DecidableEq, Repr

/-- `_validate_compare_id`. -/
def validateCompareId (compareId : CompareId) : Bool :=
  compareId.toList.all (fun c => c ∈ "0123456789abcdef_;".toList) &&
    (convertCompareIdToList compareId).all isUid

/-- `RestCompareGet.get`. -/
def restCompareGet (s : State) (url : CompareId) : RestResponse :=
  if validateCompareId url then
    let compareId := normalizeCompareId url
    if compareId ∈ s.comparisons then
      if normalizeCompareId compareId ∈ s.comparisons then .result (normalizeCompareId compareId)
      else .notFound compareId
    else .notFound compareId
  else .invalid

/-- What `start_compare` answers: an error, a redirect to the result, or that it
has sent a task. -/
inductive StartPage where
  | error
  | redirect (compareId : CompareId)
  | started (task : Task)
deriving DecidableEq, Repr

/-- `start_compare` for the uids that are kept in the session. -/
def startCompare (s : State) (uidDict : Dict Uid (Option Uid)) (forceRecompare : Bool) : StartPage :=
  if uidDict.keys.length < 2 then .error
  else
    let comparisonId := convertUidListToCompareId uidDict.keys
    if !objectsExist s comparisonId then .error
    else if !forceRecompare && decide (comparisonId ∈ s.comparisons) then .redirect comparisonId
    else .started ⟨comparisonId, forceRecompare⟩

/-- `RestComparePut.put`: `none` if it responds with an error message. -/
def restComparePut (s : State) (uidList : List String) (redo : Bool) : Option Task :=
  let compareId := normalizeCompareId (Join.join ';' uidList)
  if decide (compareId ∈ s.comparisons) && !redo then none
  else if !objectsExist s compareId then none
  else some ⟨compareId, redo⟩

/-! ## Under which id a result is stored -/

variable {s s' : State} {h h' : History} {a : Action} {id : CompareId} {uid : Uid}
  {uidList : List Uid} {general : Dict String (List Uid)} {isFirmware : Uid → Bool}

theorem mem_addEntry {entry : String × Uid} :
    uid ∈ (addEntry general entry).values.flatten ↔
      uid = entry.2 ∨ uid ∈ general.values.flatten := by
  obtain ⟨field, uid'⟩ := entry
  have hkeys : ∀ keys : List Uid, uid ∈ (if uid' ∈ keys then keys else keys ++ [uid']) ↔
      uid = uid' ∨ uid ∈ keys := by
    intro keys
    split
    · rename_i hmem
      constructor
      · exact Or.inr
      · rintro (rfl | h)
        · exact hmem
        · exact h
    · simp [or_comm]
  simp only [addEntry, List.mem_flatten, Dict.mem_values, Dict.get?_set]
  constructor
  · rintro ⟨keys, ⟨field', hget⟩, hmem⟩
    split at hget
    · obtain rfl := Option.some.inj hget
      rcases (hkeys _).1 hmem with h | h
      · exact Or.inl h
      · cases hold : general.get? field with
        | none => simp [hold] at h
        | some keys =>
            rw [hold, Option.getD_some] at h
            exact Or.inr ⟨keys, ⟨field, hold⟩, h⟩
    · exact Or.inr ⟨keys, ⟨field', hget⟩, hmem⟩
  · rintro (rfl | ⟨keys, ⟨field', hget⟩, hmem⟩)
    · exact ⟨_, ⟨field, if_pos rfl⟩, (hkeys _).2 (Or.inl rfl)⟩
    · by_cases hfield : field' = field
      · subst hfield
        refine ⟨_, ⟨field', if_pos rfl⟩, (hkeys _).2 (Or.inr ?_)⟩
        rw [hget]
        exact hmem
      · exact ⟨keys, ⟨field', by rw [if_neg hfield, hget]⟩, hmem⟩

theorem mem_foldl_addEntry {entries : List (String × Uid)} :
    uid ∈ (entries.foldl addEntry general).values.flatten ↔
      uid ∈ entries.map Prod.snd ∨ uid ∈ general.values.flatten := by
  induction entries generalizing general with
  | nil => simp
  | cons entry entries ih =>
      rw [List.foldl_cons, ih, mem_addEntry, List.map_cons, List.mem_cons]
      tauto

/-- The uids of a result are those of the compared objects. -/
theorem mem_createGeneralSectionDict :
    uid ∈ (createGeneralSectionDict isFirmware uidList).values.flatten ↔ uid ∈ uidList := by
  rw [createGeneralSectionDict, mem_foldl_addEntry]
  simp only [List.map_flatMap, List.map_map, List.mem_flatMap, List.mem_map]
  constructor
  · rintro (⟨uid', hmem, field, -, rfl⟩ | hempty)
    · exact hmem
    · cases hempty
  · intro hmem
    refine Or.inl ⟨uid, hmem, "hid", ?_, rfl⟩
    simp [generalFields]

/-- The order of the uids does not matter for the compare id. -/
theorem convertUidListToCompareId_perm {uidList' : List Uid} (h : uidList.Perm uidList') :
    convertUidListToCompareId uidList = convertUidListToCompareId uidList' := by
  rw [convertUidListToCompareId, convertUidListToCompareId, Join.sorted_eq_of_perm h]

/-- The uids in any order are looked up under the normalized id. -/
theorem normalizeCompareId_join (hperm : uidList.Perm (convertCompareIdToList id)) :
    normalizeCompareId (Join.join ';' uidList) = normalizeCompareId id := by
  have hne : uidList ≠ [] := by
    rintro rfl
    exact Join.split_ne_nil hperm.nil_eq.symm
  have hparts : ∀ uid ∈ uidList, ';' ∉ uid.toList := by
    intro uid huid
    exact Join.notMem_of_mem_split (hperm.mem_iff.1 huid)
  rw [normalizeCompareId, convertCompareIdToList, Join.split_join hparts hne]
  exact convertUidListToCompareId_perm hperm

theorem normalizeCompareId_idem : normalizeCompareId (normalizeCompareId id) =
    normalizeCompareId id :=
  normalizeCompareId_join (Join.sorted_perm _)

/-- A result of different objects is stored under their normalized id. -/
theorem resultId_eq (hnodup : (convertCompareIdToList id).Nodup) :
    resultId isFirmware id = normalizeCompareId id := by
  apply convertUidListToCompareId_perm
  rw [List.perm_ext_iff_of_nodup (List.nodup_dedup _) hnodup]
  intro uid
  rw [List.mem_dedup, mem_createGeneralSectionDict]

/-- Where all objects of an id exist, they are different. -/
theorem nodup_of_objectsExist (h : objectsExist s id = true) :
    (convertCompareIdToList id).Nodup := by
  have hcard := of_decide_eq_true h
  have hsub : (s.fileObjects.filter fun uid => uid ∈ convertCompareIdToList id) ⊆
      (convertCompareIdToList id).toFinset := by
    intro uid huid
    exact List.mem_toFinset.2 (Finset.mem_filter.1 huid).2
  have hle := Finset.card_le_card hsub
  have hlength := List.toFinset_card_le (convertCompareIdToList id)
  rw [← List.dedup_eq_self]
  apply List.Sublist.eq_of_length (List.dedup_sublist _)
  rw [← List.card_toFinset]
  omega

/-- Both pages look for a result under the id under which it was stored. -/
theorem lookup_resultId (hnodup : (convertCompareIdToList id).Nodup)
    (hperm : uidList.Perm (convertCompareIdToList id)) :
    (objectsExist s (resultId isFirmware id) = true →
      showCompareResult s (Join.join ';' uidList) =
        if resultId isFirmware id ∈ s.comparisons then .result (resultId isFirmware id)
        else .wait (resultId isFirmware id)) ∧
    (validateCompareId (Join.join ';' uidList) = true →
      restCompareGet s (Join.join ';' uidList) =
        if resultId isFirmware id ∈ s.comparisons then .result (resultId isFirmware id)
        else .notFound (resultId isFirmware id)) := by
  rw [resultId_eq hnodup]
  constructor
  · intro hexist
    simp only [showCompareResult, normalizeCompareId_join hperm, normalizeCompareId_idem, hexist,
      if_true]
  · intro hvalid
    simp only [restCompareGet, normalizeCompareId_join hperm, normalizeCompareId_idem, hvalid,
      if_true]
    split <;> rfl

/-! ## What the worker remembers -/

/-- A task with `redo` is run. Without it, a task whose id has no stored result is
run unless the worker remembers the id, which has lost its result. -/
def Taken.Explained (t : Taken) : Prop :=
  (t.task.redo = true → t.run = true) ∧
    ((t.stored = false → t.run = true) ↔
      (t.task.redo = true ∨ t.stored = true ∨ t.lost = false))

/-- An id that the worker remembers has a result, has lost it, or is being run. -/
structure Inv (p : State × History) : Prop where
  remembered : ∀ id ∈ p.1.comparisonsDone,
    id ∈ p.1.comparisons ∨ id ∈ p.2.lost ∨ p.1.worker.runs id
  lost : ∀ id ∈ p.2.lost, id ∈ p.1.comparisonsDone
  runs : ∀ id, p.1.worker.runs id → id ∈ p.1.comparisonsDone
  queue : ∀ task ∈ p.1.inQueue, (convertCompareIdToList task.comparisonId).Nodup
  running : ∀ id, p.1.worker.runs id → (convertCompareIdToList id).Nodup
  taken : ∀ t ∈ p.2.taken, t.Explained
  results : ∀ r ∈ p.2.results, (convertCompareIdToList r.1).Nodup ∧
    ∃ isFirmware, r.2 = resultId isFirmware r.1

theorem init_inv (p : State × History) (hinit : machine.Init p) : Inv p := by
  obtain ⟨⟨hqueue, hdone, hworker⟩, hhistory⟩ := hinit
  have hidle : ∀ id, ¬ p.1.worker.runs id := by
    intro id hruns
    rw [hworker] at hruns
    exact hruns
  constructor
  · simp [hdone]
  · simp [hhistory]
  · intro id hruns
    exact absurd hruns (hidle id)
  · simp [hqueue]
  · intro id hruns
    exact absurd hruns (hidle id)
  · simp [hhistory]
  · simp [hhistory]

/-- The decision about the task at the head of the queue. -/
theorem takenNow_explained {task : Task} {queue : List Task} (hinv : Inv (s, h))
    (hworker : s.worker = .idle) (hqueue : s.inQueue = task :: queue) :
    ∀ t ∈ takenNow s h, t.Explained := by
  have hidle : ¬ s.worker.runs task.comparisonId := by
    rw [hworker]
    exact id
  have hdone : task.comparisonId ∈ s.comparisonsDone →
      task.comparisonId ∈ s.comparisons ∨ task.comparisonId ∈ h.lost := by
    intro hmem
    rcases hinv.remembered _ hmem with hstored | hlost | hruns
    · exact Or.inl hstored
    · exact Or.inr hlost
    · exact absurd hruns hidle
  have hlost : task.comparisonId ∈ h.lost → task.comparisonId ∈ s.comparisonsDone :=
    hinv.lost task.comparisonId
  have hrun : ((step .getTask s).any fun s' => decide (s'.worker.runs task.comparisonId)) =
      comparisonShouldStart s task := by
    simp only [step, hworker, hqueue]
    cases hstart : comparisonShouldStart s task with
    | true => cases hredo : task.redo <;> simp [Worker.runs]
    | false =>
        simp only [Bool.false_eq_true, if_false, Option.any_some, decide_eq_false_iff_not]
        exact fun hruns => hruns
  intro t ht
  simp only [takenNow, hqueue, List.mem_singleton] at ht
  subst ht
  simp only [Taken.Explained, hrun, comparisonShouldStart]
  cases hredo : task.redo with
  | true => simp
  | false =>
      simp only [Bool.false_or, Bool.false_eq_true, false_or, decide_eq_true_eq,
        decide_eq_false_iff_not, false_implies, true_and]
      constructor
      · intro hrun
        by_cases hstored : task.comparisonId ∈ s.comparisons
        · exact Or.inl hstored
        · exact Or.inr fun hmem => hrun hstored (hlost hmem)
      · rintro hcond hstored hmem
        rcases hcond with hcond | hcond
        · exact hstored hcond
        · exact (hdone hmem).elim hstored hcond

theorem getTask_inv (hinv : Inv (s, h)) (hstep : step .getTask s = some s') :
    Inv (s', observe .getTask s h) := by
  simp only [step] at hstep
  split at hstep
  · rename_i task queue hworker hqueue
    have htaken := takenNow_explained hinv hworker hqueue
    have hall : ∀ t ∈ h.taken ++ takenNow s h, t.Explained := by
      intro t ht
      rcases List.mem_append.1 ht with ht | ht
      · exact hinv.taken t ht
      · exact htaken t ht
    have hnodup := hinv.queue task (by rw [hqueue]; exact List.mem_cons_self)
    have htail : ∀ t ∈ queue, (convertCompareIdToList t.comparisonId).Nodup := by
      intro t ht
      exact hinv.queue t (by rw [hqueue]; exact List.mem_cons_of_mem _ ht)
    have hidle : ∀ id, ¬ s.worker.runs id := by
      intro id
      rw [hworker]
      exact fun hruns => hruns
    split at hstep
    · obtain rfl := Option.some.inj hstep
      have hruns : ∀ id, (if task.redo = true then Worker.deleting task.comparisonId
          else Worker.comparing task.comparisonId).runs id ↔ task.comparisonId = id := by
        intro id
        split <;> exact Iff.rfl
      constructor
      · intro id hid
        rcases Finset.mem_insert.1 hid with rfl | hid
        · exact Or.inr (Or.inr ((hruns _).2 rfl))
        · rcases hinv.remembered id hid with hstored | hlost | hrun
          · exact Or.inl hstored
          · exact Or.inr (Or.inl hlost)
          · exact absurd hrun (hidle id)
      · intro id hid
        exact Finset.mem_insert_of_mem (hinv.lost id hid)
      · intro id hrun
        exact Finset.mem_insert.2 (Or.inl ((hruns id).1 hrun).symm)
      · exact htail
      · intro id hrun
        exact (hruns id).1 hrun ▸ hnodup
      · exact hall
      · exact hinv.results
    · obtain rfl := Option.some.inj hstep
      exact ⟨hinv.remembered, hinv.lost, hinv.runs, htail, hinv.running, hall, hinv.results⟩
  · cases hstep

theorem deleteOld_inv (hinv : Inv (s, h)) (hstep : step .deleteOld s = some s') :
    Inv (s', observe .deleteOld s h) := by
  simp only [step] at hstep
  split at hstep
  · rename_i id hworker
    obtain rfl := Option.some.inj hstep
    have hruns : ∀ id', s.worker.runs id' ↔ id = id' := by
      intro id'
      rw [hworker]
      exact Iff.rfl
    constructor
    · intro id' hid
      by_cases heq : id = id'
      · exact Or.inr (Or.inr heq)
      · rcases hinv.remembered id' hid with hstored | hlost | hrun
        · exact Or.inl (Finset.mem_erase.2 ⟨fun h => heq h.symm, hstored⟩)
        · exact Or.inr (Or.inl hlost)
        · exact Or.inr (Or.inr ((hruns id').1 hrun))
    · exact hinv.lost
    · intro id' hrun
      exact hinv.runs id' ((hruns id').2 hrun)
    · exact hinv.queue
    · intro id' hrun
      exact hinv.running id' ((hruns id').2 hrun)
    · exact hinv.taken
    · exact hinv.results
  · cases hstep

/-- The end of a run, after which its id has a result or has lost it. -/
theorem end_inv {comparisons lost : Finset CompareId} {results : List (CompareId × CompareId)}
    (hinv : Inv (s, h)) (hworker : s.worker = .comparing id) (hsub : s.comparisons ⊆ comparisons)
    (hid : id ∈ comparisons ∨ id ∈ lost) (hkept : ∀ id' ∈ h.lost, id' ≠ id → id' ∈ lost)
    (hlost : ∀ id' ∈ lost, id' ∈ h.lost ∨ id' = id)
    (hresults : ∀ r ∈ results, r ∈ h.results ∨ ∃ isFirmware, r = (id, resultId isFirmware id)) :
    Inv ({ s with comparisons := comparisons, worker := .idle },
      { h with results := results, lost := lost }) := by
  have hruns : ∀ id', s.worker.runs id' ↔ id = id' := by
    intro id'
    rw [hworker]
    exact Iff.rfl
  constructor
  · intro id' hdone
    by_cases heq : id' = id
    · rw [heq]
      exact hid.elim Or.inl fun hmem => Or.inr (Or.inl hmem)
    · rcases hinv.remembered id' hdone with hstored | hmem | hrun
      · exact Or.inl (hsub hstored)
      · exact Or.inr (Or.inl (hkept id' hmem heq))
      · exact absurd ((hruns id').1 hrun).symm heq
  · intro id' hmem
    rcases hlost id' hmem with hmem | rfl
    · exact hinv.lost id' hmem
    · exact hinv.runs id' ((hruns id').2 rfl)
  · intro id' hrun
    exact hrun.elim
  · exact hinv.queue
  · intro id' hrun
    exact hrun.elim
  · exact hinv.taken
  · intro r hr
    rcases hresults r hr with hr | ⟨isFirmware, rfl⟩
    · exact hinv.results r hr
    · exact ⟨hinv.running id ((hruns id).2 rfl), isFirmware, rfl⟩

theorem finish_inv (hinv : Inv (s, h)) (hstep : step (.finish isFirmware) s = some s') :
    Inv (s', observe (.finish isFirmware) s h) := by
  simp only [step] at hstep
  split at hstep
  · rename_i id hworker
    obtain rfl := Option.some.inj hstep
    simp only [observe, hworker, addComparisonResult]
    by_cases hexist : objectsExist s (resultId isFirmware id) = true
    · rw [if_pos hexist, if_pos hexist]
      apply end_inv hinv hworker (Finset.subset_insert _ _)
      · by_cases hsame : resultId isFirmware id = id
        · exact Or.inl (Finset.mem_insert.2 (Or.inl hsame.symm))
        · rw [if_neg fun hboth => hsame hboth.2]
          exact Or.inr (Finset.mem_insert_self _ _)
      · intro id' hmem hne
        split
        · exact Finset.mem_erase.2 ⟨hne, hmem⟩
        · exact Finset.mem_insert_of_mem hmem
      · intro id' hmem
        split at hmem
        · exact Or.inl (Finset.mem_of_mem_erase hmem)
        · exact (Finset.mem_insert.1 hmem).symm
      · intro r hr
        rcases List.mem_append.1 hr with hr | hr
        · exact Or.inl hr
        · exact Or.inr ⟨isFirmware, List.mem_singleton.1 hr⟩
    · rw [if_neg hexist, if_neg hexist, if_neg fun hboth => hexist hboth.1]
      apply end_inv hinv hworker (Finset.Subset.refl _) (Or.inr (Finset.mem_insert_self _ _))
      · intro id' hmem _
        exact Finset.mem_insert_of_mem hmem
      · intro id' hmem
        exact (Finset.mem_insert.1 hmem).symm
      · intro r hr
        exact Or.inl hr
  · cases hstep

theorem raise_inv (hinv : Inv (s, h)) (hstep : step .raise s = some s') :
    Inv (s', observe .raise s h) := by
  simp only [step] at hstep
  split at hstep
  · rename_i id hworker
    obtain rfl := Option.some.inj hstep
    simp only [observe, hworker]
    apply end_inv hinv hworker (Finset.Subset.refl _) (Or.inr (Finset.mem_insert_self _ _))
    · intro id' hmem _
      exact Finset.mem_insert_of_mem hmem
    · intro id' hmem
      exact (Finset.mem_insert.1 hmem).symm
    · intro r hr
      exact Or.inl hr
  · cases hstep

/-- Deleting results: the worker loses those that it remembers. -/
theorem delete_inv (gone : Finset CompareId) (hinv : Inv (s, h))
    (hcomparisons : ∀ id ∈ s.comparisons, id ∉ s'.comparisons → id ∈ s.comparisonsDone → id ∈ gone)
    (hgone : ∀ id ∈ gone, id ∈ s.comparisonsDone) (hdone : s'.comparisonsDone = s.comparisonsDone)
    (hworker : s'.worker = s.worker) (hqueue : s'.inQueue = s.inQueue) :
    Inv (s', { h with lost := h.lost ∪ gone }) := by
  constructor
  · intro id hid
    rw [hdone] at hid
    rw [hworker]
    rcases hinv.remembered id hid with hstored | hlost | hrun
    · by_cases hkept : id ∈ s'.comparisons
      · exact Or.inl hkept
      · exact Or.inr (Or.inl (Finset.mem_union.2 (Or.inr (hcomparisons id hstored hkept hid))))
    · exact Or.inr (Or.inl (Finset.mem_union.2 (Or.inl hlost)))
    · exact Or.inr (Or.inr hrun)
  · intro id hid
    rw [hdone]
    rcases Finset.mem_union.1 hid with hid | hid
    · exact hinv.lost id hid
    · exact hgone id hid
  · intro id hrun
    rw [hdone]
    exact hinv.runs id (hworker ▸ hrun)
  · rw [hqueue]
    exact hinv.queue
  · intro id hrun
    exact hinv.running id (hworker ▸ hrun)
  · exact hinv.taken
  · exact hinv.results

theorem step_inv (hinv : Inv (s, h)) (hstep : step a s = some s') : Inv (s', observe a s h) := by
  cases a with
  | addTask task =>
      simp only [step] at hstep
      split at hstep
      · rename_i hexist
        obtain rfl := Option.some.inj hstep
        refine ⟨hinv.remembered, hinv.lost, hinv.runs, ?_, hinv.running, hinv.taken, hinv.results⟩
        intro t ht
        rcases List.mem_append.1 ht with ht | ht
        · exact hinv.queue t ht
        · rw [List.mem_singleton.1 ht]
          exact nodup_of_objectsExist hexist
      · obtain rfl := Option.some.inj hstep
        exact hinv
  | getTask => exact getTask_inv hinv hstep
  | deleteOld => exact deleteOld_inv hinv hstep
  | finish isFirmware => exact finish_inv hinv hstep
  | raise => exact raise_inv hinv hstep
  | restartWorker =>
      obtain rfl := Option.some.inj hstep
      refine ⟨?_, ?_, ?_, hinv.queue, ?_, hinv.taken, hinv.results⟩
      · intro id hid
        cases hid
      · intro id hid
        cases hid
      · intro id hrun
        exact hrun.elim
      · intro id hrun
        exact hrun.elim
  | deleteComparison id =>
      obtain rfl := Option.some.inj hstep
      refine delete_inv (s.comparisonsDone.filter fun id' => id' = id) hinv ?_ ?_ rfl rfl rfl
      · intro id' hstored hgone hdone
        refine Finset.mem_filter.2 ⟨hdone, ?_⟩
        by_contra hne
        exact hgone (Finset.mem_erase.2 ⟨hne, hstored⟩)
      · intro id' hid
        exact (Finset.mem_filter.1 hid).1
  | deleteFileObject uid =>
      obtain rfl := Option.some.inj hstep
      refine delete_inv (s.comparisonsDone.filter fun id => uid ∈ convertCompareIdToList id) hinv
        ?_ ?_ rfl rfl rfl
      · intro id' hstored hgone hdone
        refine Finset.mem_filter.2 ⟨hdone, ?_⟩
        by_contra hnot
        exact hgone (Finset.mem_filter.2 ⟨hstored, hnot⟩)
      · intro id' hid
        exact (Finset.mem_filter.1 hid).1
  | insertFileObject uid =>
      obtain rfl := Option.some.inj hstep
      exact ⟨hinv.remembered, hinv.lost, hinv.runs, hinv.queue, hinv.running, hinv.taken,
        hinv.results⟩

theorem reach_inv {p : State × History} (hreach : machine.Reach Machine.anyStep p) : Inv p := by
  have hstep : ∀ q a q', Machine.anyStep q a → machine.step a q = some q' → Inv q → Inv q' := by
    intro q a q' _ hst hinv
    obtain ⟨hst, hhistory⟩ := Machine.step_withHistory hst
    have hinv' := step_inv (s := q.1) (h := q.2) hinv hst
    rw [← hhistory] at hinv'
    exact hinv'
  exact Machine.reach_invariant init_inv hstep hreach

/-- Two objects in an otherwise empty database. -/
def twoObjects : State where
  fileObjects := {"a", "b"}
  comparisons := ∅
  inQueue := []
  comparisonsDone := ∅
  worker := .idle

theorem init_twoObjects : machine.Init (twoObjects, ⟨[], [], ∅⟩) := ⟨⟨rfl, rfl, rfl⟩, rfl⟩

/-- The first run fails, the second one is forced, and then its result is deleted. -/
def failedAndForced : List Action :=
  [.addTask ⟨"a;b", false⟩, .getTask, .raise, .addTask ⟨"a;b", true⟩, .getTask, .deleteOld,
    .finish fun _ => false, .addTask ⟨"a;b", false⟩, .getTask, .deleteComparison "a;b"]

theorem failedAndForced_isSome : (machine.run Machine.anyStep failedAndForced
    (twoObjects, ⟨[], [], ∅⟩)).isSome = true := by decide +kernel

/-- The first run fails and the comparison is requested again. -/
def failedOnce : List Action :=
  [.addTask ⟨"a;b", false⟩, .getTask, .raise, .addTask ⟨"a;b", false⟩, .getTask]

/-- The uids in the session of the user. -/
def basket : Dict Uid (Option Uid) := ((∅ : Dict Uid (Option Uid)).set "b" none).set "a" none

end FactCore.ComparisonScheduler
