import FactCore.Lib.Machine
import FactCore.Storage.DbInterfaceBackend

/-! # The comments on a file

The column `comments` of one row, and the transactions that write it:
`add_comment_to_object` and `delete_comment` of
`storage/db_interface_frontend_editing.py`, and `update_file_object` of
`storage/db_interface_backend.py`, which is called with an object that was
loaded or created at any time before. A transaction reads the column when it
loads the row, and writes the whole column back when it commits; other
transactions may commit in between.

Beside the column the machine keeps the comments that users expect to find:
those that were added and that no deletion has addressed.
-/

namespace FactCore.Comments

open Tla

/-! ## Calls -/

/-- The comment that `add_comment_to_object` creates. -/
def newComment (comment author : String) (time : Int) (plugin : String) : Comment :=
  ⟨author, comment, toString time, plugin⟩

/-- `add_comment_to_object`. -/
def addCommentToObject (comments : List Comment) (comment author : String) (time : Int)
    (plugin : String) : List Comment :=
  comments ++ [newComment comment author time plugin]

/-- `delete_comment`. -/
def deleteComment (comments : List Comment) (timestamp : String) : List Comment :=
  comments.filter fun comment => comment.time ≠ timestamp

/-- A call for the file. A user who deletes a comment addresses one, and the
call gets the time of this comment. -/
inductive Call where
  | addCommentToObject (comment author : String) (time : Int) (plugin : String)
  | deleteComment (addressed : Comment)
  | updateObject (comments : List Comment)

/-- The column that the call writes back, from the one that it has loaded. -/
def Call.write : Call → List Comment → List Comment
  | .addCommentToObject comment author time plugin, loaded =>
      Comments.addCommentToObject loaded comment author time plugin
  | .deleteComment addressed, loaded => Comments.deleteComment loaded addressed.time
  | .updateObject comments, _ => comments

/-- What the call makes of the comments that users expect to find. -/
def Call.expect : Call → List Comment → List Comment
  | .addCommentToObject comment author time plugin, expected =>
      expected ++ [newComment comment author time plugin]
  | .deleteComment addressed, expected => expected.erase addressed
  | .updateObject _, expected => expected

/-- `update_file_object` writes the comments of the object into its row. -/
theorem updateFileObject_comments {db db' : Db} {fo : FileObject} (hfo : fo.firmware = none)
    (hrow : fo.uid ∈ db.fileObject) (h : db.updateFileObject fo = .ok db') :
    (db'.fileObject.get? fo.uid).map FileObjectEntry.comments =
      some ((Call.updateObject fo.comments).write []) := by
  have hnot : fo.isFirmware = false := by simp [FileObject.isFirmware, hfo]
  unfold Db.updateFileObject at h
  split at h
  · rename_i hnone
    exact absurd hrow (Dict.notMem_iff.2 hnone)
  · simp only [hnot, Bool.false_eq_true, if_false] at h
    rcases Db.write_ok h with ⟨hwritten, -⟩
    rw [hwritten.fileObject, Dict.get?_set_self]
    rfl

/-! ## Transactions -/

/-- An open transaction. -/
structure Transaction where
  call : Call
  loaded : List Comment

/-- The column, the open transactions, and the comments of the objects in memory. -/
structure State where
  comments : List Comment
  transactions : Dict Nat Transaction
  objects : Dict Nat (List Comment)
  expected : List Comment

inductive Action where
  /-- A new `FileObject`. -/
  | create (object : Nat)
  /-- `get_object`. -/
  | load (object : Nat)
  | beginAdd (tid : Nat) (comment author : String) (time : Int) (plugin : String)
  | beginDelete (tid : Nat) (addressed : Comment)
  | beginUpdate (tid : Nat) (object : Nat)
  | commit (tid : Nat)
  | rollback (tid : Nat)

/-- A transaction loads the row. -/
def begin (tid : Nat) (call : Call) (s : State) : Option State :=
  if tid ∈ s.transactions then none
  else some { s with transactions := s.transactions.set tid ⟨call, s.comments⟩ }

/-- A transaction writes the column back. -/
def commit (tid : Nat) (s : State) : Option State :=
  (s.transactions.get? tid).map fun tx =>
    { s with
      comments := tx.call.write tx.loaded
      transactions := s.transactions.erase tid
      expected := tx.call.expect s.expected }

def step : Action → State → Option State
  | .create object, s => some { s with objects := s.objects.set object [] }
  | .load object, s => some { s with objects := s.objects.set object s.comments }
  | .beginAdd tid comment author time plugin, s =>
      begin tid (.addCommentToObject comment author time plugin) s
  | .beginDelete tid addressed, s => begin tid (.deleteComment addressed) s
  | .beginUpdate tid object, s =>
      (s.objects.get? object).bind fun comments => begin tid (.updateObject comments) s
  | .commit tid, s => commit tid s
  | .rollback tid, s => some { s with transactions := s.transactions.erase tid }

/-- A row with any comments. -/
def State.init (comments : List Comment) : State := ⟨comments, ∅, ∅, comments⟩

def machine : Machine State Action where
  Init := fun s => ∃ comments, s = State.init comments
  step := step

/-- The column holds what users expect. -/
def State.Kept (s : State) : Prop := s.comments = s.expected

/-! ## When comments are kept -/

/-- What the call relies on when it commits: an addition, that the row has not
changed since it was loaded; an update, that its object has the comments of the
row; a deletion, that no other comment was written in the second of the one
that it addresses, and that those of other seconds have not changed. -/
def Call.Fits (loaded row : List Comment) : Call → Prop
  | .addCommentToObject _ _ _ _ => loaded = row
  | .deleteComment addressed =>
      (∀ comment ∈ row.erase addressed, comment.time ≠ addressed.time) ∧
        loaded.filter (fun comment => comment.time ≠ addressed.time) =
          row.filter fun comment => comment.time ≠ addressed.time
  | .updateObject comments => comments = row

instance (loaded row : List Comment) : (call : Call) → Decidable (call.Fits loaded row)
  | .addCommentToObject _ _ _ _ => inferInstanceAs (Decidable (loaded = row))
  | .deleteComment _ => inferInstanceAs (Decidable (_ ∧ _))
  | .updateObject comments => inferInstanceAs (Decidable (comments = row))

/-- A transaction that commits has what it relies on. -/
def CommitsFit (s : State) : Action → Prop
  | .commit tid => ∀ tx ∈ s.transactions.get? tid, tx.call.Fits tx.loaded s.comments
  | _ => True

instance (s : State) : (a : Action) → Decidable (CommitsFit s a)
  | .commit tid =>
      inferInstanceAs (Decidable (∀ tx ∈ s.transactions.get? tid, tx.call.Fits tx.loaded s.comments))
  | .create _ | .load _ | .beginAdd _ _ _ _ _ | .beginDelete _ _ | .beginUpdate _ _
  | .rollback _ => instDecidableTrue

variable {s s' s₀ : State} {a : Action} {as : List Action} {row loaded : List Comment}

/-- Deleting by the second removes the addressed comment and no other one. -/
theorem deleteComment_eq_erase {addressed : Comment} :
    deleteComment loaded addressed.time = row.erase addressed ↔
      (Call.deleteComment addressed).Fits loaded row := by
  have hfilter : (row.erase addressed).filter (fun c => c.time ≠ addressed.time) =
      row.filter fun c => c.time ≠ addressed.time := by
    rw [← List.erase_filter, List.erase_of_not_mem]
    intro hmem
    simp at hmem
  have hself : (∀ c ∈ row.erase addressed, c.time ≠ addressed.time) →
      row.filter (fun c => c.time ≠ addressed.time) = row.erase addressed := by
    intro hothers
    rw [← hfilter, List.filter_eq_self]
    simpa using hothers
  constructor
  · intro heq
    have hothers : ∀ c ∈ row.erase addressed, c.time ≠ addressed.time := by
      intro c hc
      rw [← heq] at hc
      simpa using (List.mem_filter.1 hc).2
    exact ⟨hothers, heq.trans (hself hothers).symm⟩
  · rintro ⟨hothers, hsame⟩
    exact hsame.trans (hself hothers)

/-- A call writes back what users expect if and only if it has what it relies on. -/
theorem write_eq_expect (call : Call) : call.write loaded = call.expect row ↔ call.Fits loaded row := by
  cases call with
  | addCommentToObject comment author time plugin => exact List.append_left_inj _
  | deleteComment addressed => exact deleteComment_eq_erase
  | updateObject comments => exact Iff.rfl

theorem begin_eq_some {tid : Nat} {call : Call} (h : begin tid call s = some s') :
    s'.comments = s.comments ∧ s'.expected = s.expected := by
  unfold begin at h
  split at h
  · cases h
  · cases h
    exact ⟨rfl, rfl⟩

/-- Only a commit changes the column, or what users expect. -/
theorem step_same (hstep : machine.step a s = some s') (ha : ∀ tid, a ≠ .commit tid) :
    s'.comments = s.comments ∧ s'.expected = s.expected := by
  cases a with
  | create object =>
      cases hstep
      exact ⟨rfl, rfl⟩
  | load object =>
      cases hstep
      exact ⟨rfl, rfl⟩
  | beginAdd tid comment author time plugin => exact begin_eq_some hstep
  | beginDelete tid addressed => exact begin_eq_some hstep
  | beginUpdate tid object =>
      rcases Option.bind_eq_some_iff.1 hstep with ⟨comments, -, hbegin⟩
      exact begin_eq_some hbegin
  | commit tid => exact absurd rfl (ha tid)
  | rollback tid =>
      cases hstep
      exact ⟨rfl, rfl⟩

/-- While comments are kept, a step keeps them if and only if it commits what fits. -/
theorem step_kept_iff (hstep : machine.step a s = some s') (h : s.Kept) :
    s'.Kept ↔ CommitsFit s a := by
  by_cases ha : ∃ tid, a = .commit tid
  · rcases ha with ⟨tid, rfl⟩
    rcases Option.map_eq_some_iff.1 hstep with ⟨tx, htx, rfl⟩
    have hiff : tx.call.write tx.loaded = tx.call.expect s.expected ↔
        tx.call.Fits tx.loaded s.comments := by
      rw [← h]
      exact write_eq_expect tx.call
    constructor
    · intro hkept tx' htx'
      cases htx.symm.trans htx'
      exact hiff.1 hkept
    · intro hfits
      exact hiff.2 (hfits tx htx)
  · have hno : ∀ tid, a ≠ .commit tid := fun tid heq => ha ⟨tid, heq⟩
    rcases step_same hstep hno with ⟨hcomments, hexpected⟩
    have hfits : CommitsFit s a := by
      cases a with
      | commit tid => exact absurd rfl (hno tid)
      | _ => trivial
    have hkept : s'.Kept := hcomments.trans (h.trans hexpected.symm)
    exact ⟨fun _ => hfits, fun _ => hkept⟩

/-- Whatever the order of the transactions of a run, all its commits fit if and
only if in all its states the column holds exactly the comments that were added
and not addressed by a deletion. -/
theorem comments_kept_iff (hinit : machine.Init s₀) :
    machine.Steps CommitsFit s₀ as s ↔
      machine.Steps (fun t _ => t.Kept) s₀ as s ∧ s.Kept := by
  have hstart : s₀.Kept := by
    rcases hinit with ⟨comments, rfl⟩
    rfl
  constructor
  · intro h
    induction h with
    | nil => exact ⟨Machine.Steps.nil _, hstart⟩
    | snoc _ hfits hstep ih =>
        rcases ih with ⟨hsteps, hkept⟩
        exact ⟨hsteps.snoc hkept hstep, (step_kept_iff hstep hkept).2 hfits⟩
  · rintro ⟨h, hlast⟩
    induction h with
    | nil => exact Machine.Steps.nil _
    | snoc _ hkept hstep ih =>
        exact (ih hkept).snoc ((step_kept_iff hstep hkept).1 hlast) hstep

/-! ## Runs -/

/-- A comment is added and another one deleted, after an object of the file was created. -/
def addAndDelete : List Action :=
  [.beginAdd 0 "first" "user" 1 "", .commit 0, .beginAdd 0 "second" "user" 2 "", .commit 0,
    .load 0, .beginDelete 0 ⟨"user", "first", "1", ""⟩, .beginUpdate 1 0, .commit 1, .commit 0]

theorem addAndDelete_isSome :
    (machine.run CommitsFit addAndDelete (State.init [])).isSome = true := by
  decide +kernel

/-- The theorem for the run `addAndDelete`. -/
theorem comments_kept_iff_addAndDelete : ∃ s, s.comments = [⟨"user", "second", "2", ""⟩] ∧
    machine.Steps (fun t _ => t.Kept) (State.init []) addAndDelete s ∧ s.Kept :=
  ⟨(machine.run CommitsFit addAndDelete (State.init [])).get addAndDelete_isSome,
    by decide +kernel,
    (comments_kept_iff ⟨[], rfl⟩).1 (Machine.steps_of_run (Option.some_get _).symm)⟩

/-- A file with a comment is found in another firmware: its row is updated with
the object that was created for it. -/
def foundAgain : List Action :=
  [.beginAdd 0 "first" "user" 1 "", .commit 0, .create 0, .beginUpdate 1 0, .commit 1]

/-- One of two comments of the same second is deleted. -/
def sameSecond : List Action :=
  [.beginAdd 0 "first" "user" 1 "", .commit 0, .beginAdd 0 "second" "user" 1 "", .commit 0,
    .beginDelete 0 ⟨"user", "first", "1", ""⟩, .commit 0]

/-- All transactions are done, and a comment is missing that no deletion has addressed. -/
theorem comment_lost :
    (∃ s, machine.Reach Machine.anyStep s ∧ s.transactions.items = [] ∧ s.comments = [] ∧
      s.expected = [⟨"user", "first", "1", ""⟩]) ∧
    ∃ s, machine.Reach Machine.anyStep s ∧ s.transactions.items = [] ∧ s.comments = [] ∧
      s.expected = [⟨"user", "second", "1", ""⟩] := by
  have hinit : machine.Init (State.init []) := ⟨[], rfl⟩
  exact ⟨Machine.exists_reach hinit foundAgain (by decide +kernel),
    Machine.exists_reach hinit sameSecond (by decide +kernel)⟩

end FactCore.Comments
