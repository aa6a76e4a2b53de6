import Mathlib.Algebra.GroupWithZero.Nat
import FactCore.Scheduler.UnpackingInvariants

/-! # Counting the file objects in the scheduler

`total w` adds up a weight over all file objects that the scheduler holds. A
step changes a total only by what its thread held before and holds afterwards.
The weights used are of the form `weight q ρ u`: the file objects with the uid
`u` at the stages `q` whose root is accepted by `ρ`.
-/

namespace FactCore.Unpacking

open Tla Unpacker

/-- The sum of a weight over file objects and their stages. -/
def total (w : Stage → FileObject → Nat) (held : Multiset (Stage × FileObject)) : Nat :=
  (held.map fun x => w x.1 x.2).sum

/-- Counts the file objects with a uid, by stage (and whether it is firmware) and root. -/
def weight (q : Stage → Bool → Bool) (ρ : Option Uid → Bool) (u : Uid) (stage : Stage)
    (fo : FileObject) : Nat :=
  if q stage fo.isFirmware = true ∧ ρ fo.rootUid = true ∧ fo.uid = u then 1 else 0

section

variable (w : Stage → FileObject → Nat) {s s' : State} {tid : Nat} {task task' fo : FileObject}
  {phase phase' : Phase}

@[simp] theorem total_zero : total w 0 = 0 := rfl

@[simp] theorem total_add (a b : Multiset (Stage × FileObject)) :
    total w (a + b) = total w a + total w b := by
  simp [total]

@[simp] theorem total_cons (stage : Stage) (fo : FileObject)
    (a : Multiset (Stage × FileObject)) :
    total w ((stage, fo) ::ₘ a) = w stage fo + total w a := by
  simp [total]

@[simp] theorem total_singleton (stage : Stage) (fo : FileObject) :
    total w {(stage, fo)} = w stage fo := by
  simp [total]

theorem total_map (stage : Stage) (objects : List FileObject) :
    total w ↑(objects.map (Prod.mk stage)) = (objects.map (w stage)).sum := by
  simp [total, Function.comp_def]

theorem total_scheduling (task : FileObject) (kept : List FileObject) :
    total w ((Phase.scheduling kept).held task) = (kept.map (w .scheduled)).sum :=
  total_map w .scheduled kept

/-! ## Steps -/

theorem total_moved (hget : s.threads.get? tid = some ⟨task, phase⟩)
    (hthreads : s'.threads = s.threads.set tid ⟨task', phase'⟩) (hqueue : s'.inQueue = s.inQueue) :
    total w s'.held + total w (phase.held task) = total w s.held + total w (phase'.held task') := by
  rw [held_thread hget, held_moved hthreads hqueue, total_add, total_add]
  omega

theorem total_ended (hget : s.threads.get? tid = some ⟨task, phase⟩)
    (hthreads : s'.threads = s.threads.erase tid) (hqueue : s'.inQueue = s.inQueue) :
    total w s'.held + total w (phase.held task) = total w s.held := by
  rw [held_thread hget, held_ended hthreads hqueue, total_add]
  omega

theorem total_put (hget : s.threads.get? tid = some ⟨task, phase⟩)
    (hthreads : s'.threads = s.threads.set tid ⟨task', phase'⟩)
    (hqueue : s'.inQueue = s.inQueue ++ [fo]) :
    total w s'.held + total w (phase.held task) =
      total w s.held + w .queued fo + total w (phase'.held task') := by
  rw [held_thread hget, held_put hthreads hqueue, total_cons, total_add, total_add]
  omega

theorem total_added (hthreads : s'.threads = s.threads) (hqueue : s'.inQueue = s.inQueue ++ [fo]) :
    total w s'.held = total w s.held + w .queued fo := by
  rw [held_added hthreads hqueue, total_cons]
  omega

theorem total_started {rest : List FileObject} (hqueue : s.inQueue = task :: rest)
    (hfree : tid ∉ s.threads) (hthreads : s'.threads = s.threads.set tid ⟨task, .started⟩)
    (hrest : s'.inQueue = rest) :
    total w s'.held + w .queued task = total w s.held + w .started task := by
  rw [held_popped hqueue, held_started hfree hthreads, hrest, total_cons, total_cons]
  omega

/-- A file object in the scheduler contributes its weight. -/
theorem total_mem {held : Multiset (Stage × FileObject)} {x : Stage × FileObject} (h : x ∈ held) :
    w x.1 x.2 ≤ total w held := by
  rcases Multiset.exists_cons_of_mem h with ⟨rest, rfl⟩
  have hcons := total_cons w x.1 x.2 rest
  show w x.1 x.2 ≤ total w ((x.1, x.2) ::ₘ rest)
  omega

/-- A total that is not zero is due to some file object. -/
theorem total_pos {held : Multiset (Stage × FileObject)} :
    0 < total w held ↔ ∃ x ∈ held, 0 < w x.1 x.2 := by
  constructor
  · induction held using Multiset.induction with
    | empty =>
        intro h
        exact absurd h (lt_irrefl 0)
    | cons x rest ih =>
        intro h
        have hcons : total w (x ::ₘ rest) = w x.1 x.2 + total w rest := total_cons w x.1 x.2 rest
        by_cases hx : 0 < w x.1 x.2
        · exact ⟨x, Multiset.mem_cons_self _ _, hx⟩
        · rcases ih (by omega) with ⟨y, hy, hpos⟩
          exact ⟨y, Multiset.mem_cons_of_mem hy, hpos⟩
  · rintro ⟨x, hx, hpos⟩
    have hle := total_mem w hx
    omega

end

/-! ## Weights -/

variable {q : Stage → Bool → Bool} {ρ : Option Uid → Bool} {u : Uid} {stage : Stage}
  {task fo : FileObject}

theorem weight_eq_zero {fo : FileObject} (h : ∀ fw, q stage fw = false) :
    weight q ρ u stage fo = 0 := by
  simp [weight, h]

theorem weight_congr {stage' : Stage} {fo' : FileObject}
    (hq : q stage fo.isFirmware = q stage' fo'.isFirmware) (hroot : fo.rootUid = fo'.rootUid)
    (huid : fo.uid = fo'.uid) : weight q ρ u stage fo = weight q ρ u stage' fo' := by
  simp [weight, hq, hroot, huid]

/-- A weight that is not zero is one, and tells about the file object. -/
theorem weight_pos : 0 < weight q ρ u stage fo ↔
    q stage fo.isFirmware = true ∧ ρ fo.rootUid = true ∧ fo.uid = u := by
  unfold weight
  split
  · rename_i h
    simp [h]
  · rename_i h
    simp [h]

/-- Stages that the weight ignores. -/
theorem sum_weight_eq_zero (h : ∀ fw, q stage fw = false) (objects : List FileObject) :
    (objects.map (weight q ρ u stage)).sum = 0 := by
  induction objects with
  | nil => rfl
  | cons fo rest ih => rw [List.map_cons, List.sum_cons, ih, weight_eq_zero h]

/-- Of the children of a task at one stage at most one has the uid. -/
theorem sum_weight_children {objects : List FileObject} (h : Children task objects) :
    (objects.map (weight q ρ u stage)).sum =
      if q stage false = true ∧ ρ task.rootUid = true ∧ u ∈ objects.map FileObject.uid then 1
      else 0 := by
  induction objects with
  | nil => simp
  | cons fo rest ih =>
      have hchild := h.child fo List.mem_cons_self
      have hfile : fo.isFirmware = false := by simp [FileObject.isFirmware, hchild.firmware]
      have hnodup := h.nodup
      rw [List.map_cons, List.nodup_cons] at hnodup
      rw [List.map_cons, List.sum_cons, ih (h.sublist (List.sublist_cons_self _ _)),
        List.map_cons, weight, hfile, hchild.rootUid]
      by_cases hu : fo.uid = u
      · subst hu
        simp [hnodup.1]
      · have hne : ¬ u = fo.uid := fun heq => hu heq.symm
        simp [hu, hne]

/-- A thread counts only its task if the weight ignores extracted objects and
nothing is kept. -/
theorem total_task {phase : Phase} (h : ∀ fw, q .extracted fw = false)
    (hstage : phase.stage = some stage) (hkept : phase.kept = []) :
    total (weight q ρ u) (phase.held task) = weight q ρ u stage task := by
  have hextracted : ∀ (stage : Stage) (objects : List FileObject),
      total (weight q ρ u) ((stage, task) ::ₘ ↑(objects.map (Prod.mk Stage.extracted))) =
        weight q ρ u stage task := by
    intro stage objects
    rw [total_cons, total_map, sum_weight_eq_zero h, Nat.add_zero]
  cases phase with
  | started => cases hstage; exact total_singleton _ _ _
  | initializing => cases hstage; exact total_singleton _ _ _
  | unpacking => cases hstage; exact total_singleton _ _ _
  | querying extracted => cases hstage; exact hextracted _ _
  | saving present extracted => cases hstage; exact hextracted _ _
  | posting extracted => cases hstage; exact hextracted _ _
  | updating extracted => cases hstage; exact hextracted _ _
  | recording entry calls kept =>
      cases hstage
      cases hkept
      exact hextracted _ []
  | scheduling kept => cases hstage

end FactCore.Unpacking
