import Mathlib.Algebra.Order.Group.Nat
import Mathlib.Data.List.Basic
import Mathlib.Tactic.Common

/-! # Ring buffers that overwrite the oldest entry

A ring buffer has a fixed number of cells, the index of the cell that is written
next, and a counter that stops at the number of cells. Read from the index on,
around the end, the cells hold the entries from the oldest to the newest; the
cells that were never written come first.
-/

universe u

namespace RingBuffer

variable {α : Type u} {limit : ℕ}

structure Ring (α : Type u) where
  cells : List α
  idx : ℕ
  count : ℕ

/-- Write the next cell. -/
def push (limit : ℕ) (x : α) (ring : Ring α) : Ring α where
  cells := ring.cells.set ring.idx x
  idx := if limit ≤ ring.idx + 1 then 0 else ring.idx + 1
  count := if ring.count < limit then ring.count + 1 else ring.count

/-- The cells that were written. -/
def written (limit : ℕ) (ring : Ring α) : List α :=
  if ring.count < limit then ring.cells.take ring.count else ring.cells

/-- The cells read from an index on, around the end. -/
def unrolled (cells : List α) (idx : ℕ) : List α := cells.drop idx ++ cells.take idx

/-- The buffer began with the cells `start`, and the entries `l` were written. -/
structure Holds (limit : ℕ) (start l : List α) (ring : Ring α) : Prop where
  idx_lt : ring.idx < limit
  idx_eq : ring.idx = l.length % limit
  count_eq : ring.count = min l.length limit
  length_cells : ring.cells.length = limit
  length_start : start.length = limit
  unrolled_eq : unrolled ring.cells ring.idx = (start ++ l).drop l.length

variable {start l : List α} {ring : Ring α} {x : α}

theorem holds_start (hlimit : 0 < limit) (hstart : start.length = limit) :
    Holds limit start [] ⟨start, 0, 0⟩ where
  idx_lt := hlimit
  idx_eq := (Nat.zero_mod limit).symm
  count_eq := (Nat.zero_min limit).symm
  length_cells := hstart
  length_start := hstart
  unrolled_eq := by simp [unrolled]

/-- Writing a cell and reading from the next one on drops the oldest entry and puts the
new one last. -/
theorem unrolled_set {cells : List α} {idx : ℕ} (h : idx < cells.length) :
    unrolled (cells.set idx x) (idx + 1) = (unrolled cells idx).drop 1 ++ [x] := by
  have hdrop : (cells.drop idx).length = cells.length - idx := List.length_drop
  rw [unrolled, unrolled, List.drop_set_of_lt (Nat.lt_succ_self idx), List.take_add_one,
    List.take_set_of_le le_rfl, List.getElem?_set_self h, List.drop_append_of_le_length (by omega), List.drop_drop, List.append_assoc]
  rfl

/-- The index that follows the last one is the first one. -/
theorem unrolled_length (cells : List α) : unrolled cells cells.length = unrolled cells 0 := by
  simp [unrolled]

theorem Holds.push (h : Holds limit start l ring) : Holds limit start (l ++ [x]) (push limit x ring) := by
  have hlimit : 0 < limit := Nat.lt_of_le_of_lt (Nat.zero_le _) h.idx_lt
  have hcells : ring.idx < ring.cells.length := h.length_cells ▸ h.idx_lt
  -- the buffer read from behind the written cell, before the index is set back
  have hunrolled : unrolled (ring.cells.set ring.idx x) (ring.idx + 1) =
      (start ++ (l ++ [x])).drop (l.length + 1) := by
    have hlength : l.length + 1 ≤ (start ++ l).length := by
      rw [List.length_append, h.length_start]
      omega
    rw [unrolled_set hcells, h.unrolled_eq, List.drop_drop, ← List.append_assoc,
      List.drop_append_of_le_length hlength]
  refine ⟨?_, ?_, ?_, ?_, h.length_start, ?_⟩
  · simp only [RingBuffer.push]
    split <;> omega
  · have hmod : (l.length + 1) % limit = if limit ≤ ring.idx + 1 then 0 else ring.idx + 1 := by
      rw [Nat.add_mod, ← h.idx_eq]
      have hidx := h.idx_lt
      split
      next hwrap =>
        -- with one cell only, every index is zero
        obtain rfl | hone : limit = 1 ∨ 1 < limit := by omega
        · exact Nat.mod_one _
        · rw [Nat.mod_eq_of_lt hone, show ring.idx + 1 = limit by omega, Nat.mod_self]
      next hstep => rw [Nat.mod_eq_of_lt (by omega : 1 < limit), Nat.mod_eq_of_lt (by omega)]
    rw [List.length_append, List.length_singleton, hmod]
    rfl
  · simp only [RingBuffer.push, h.count_eq, List.length_append, List.length_singleton]
    split <;> omega
  · rw [RingBuffer.push, List.length_set, h.length_cells]
  · rw [List.length_append, List.length_singleton, ← hunrolled]
    simp only [RingBuffer.push]
    split
    next hwrap =>
      have hend : ring.idx + 1 = (ring.cells.set ring.idx x).length := by
        rw [List.length_set, h.length_cells]
        have hidx := h.idx_lt
        omega
      rw [hend, unrolled_length]
    next => rfl

/-- The written cells hold the last entries, as many as there are cells. -/
theorem Holds.written_perm (h : Holds limit start l ring) :
    (written limit ring).Perm (l.drop (l.length - limit)) := by
  have hunrolled := h.unrolled_eq
  rcases Nat.lt_or_ge l.length limit with hlt | hge
  · -- the entries have not reached the end of the cells
    have hidx : ring.idx = l.length := h.idx_eq.trans (Nat.mod_eq_of_lt hlt)
    have hcount : ring.count = l.length := h.count_eq.trans (min_eq_left hlt.le)
    rw [unrolled, hidx, List.drop_append_of_le_length (h.length_start ▸ hlt.le)] at hunrolled
    have htake := (List.append_inj hunrolled
      (by rw [List.length_drop, List.length_drop, h.length_cells, h.length_start])).2
    rw [written, hcount, if_pos hlt, htake, Nat.sub_eq_zero_of_le hlt.le, List.drop_zero]
  · -- all cells are written, and only their order is another
    have hcount : ring.count = limit := h.count_eq.trans (min_eq_right hge)
    have hdrop : (start ++ l).drop l.length = l.drop (l.length - limit) := by
      rw [List.drop_append, List.drop_eq_nil_of_le (h.length_start ▸ hge), List.nil_append, h.length_start]
    rw [written, hcount, if_neg (lt_irrefl limit), ← hdrop, ← hunrolled, unrolled]
    have hperm : (ring.cells.take ring.idx ++ ring.cells.drop ring.idx).Perm
        (ring.cells.drop ring.idx ++ ring.cells.take ring.idx) := List.perm_append_comm
    rwa [List.take_append_drop] at hperm

end RingBuffer
