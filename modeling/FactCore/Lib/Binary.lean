import Mathlib.Data.Nat.Digits.Lemmas

/-! # Binary files

A file that is open for reading as raw bytes, and the numbers that byte strings
stand for. `read` with a negative size reads to the end of the file.
-/

namespace Binary

/-! ## Numbers -/

/-- `int.from_bytes(bytes, byteorder='little')`. -/
def littleEndian (bytes : List UInt8) : Nat := Nat.ofDigits 256 (bytes.map UInt8.toNat)

/-- `int.from_bytes(bytes, byteorder='big')`. -/
def bigEndian (bytes : List UInt8) : Nat := littleEndian bytes.reverse

@[simp] theorem littleEndian_singleton (b : UInt8) : littleEndian [b] = b.toNat := by
  simp [littleEndian]

theorem bigEndian_lt (bytes : List UInt8) : bigEndian bytes < 2 ^ (8 * bytes.length) := by
  have hlt : Nat.ofDigits 256 (bytes.reverse.map UInt8.toNat) <
      256 ^ (bytes.reverse.map UInt8.toNat).length := by
    apply Nat.ofDigits_lt_base_pow_length (by decide)
    intro d hd
    rcases List.mem_map.1 hd with ⟨b, -, rfl⟩
    exact UInt8.toNat_lt b
  rw [Nat.pow_mul]
  simpa [bigEndian, littleEndian] using hlt

/-- The two's complement number of some bytes. -/
def signed (bytes : List UInt8) : Int := (BitVec.ofNat (8 * bytes.length) (bigEndian bytes)).toInt

variable {bytes : List UInt8}

theorem toNat_ofNat_bigEndian (bytes : List UInt8) :
    (BitVec.ofNat (8 * bytes.length) (bigEndian bytes)).toNat = bigEndian bytes := by
  rw [BitVec.toNat_ofNat, Nat.mod_eq_of_lt (bigEndian_lt bytes)]

/-- Without the sign bit the number is the unsigned one. -/
theorem signed_of_lt (h : 2 * bigEndian bytes < 2 ^ (8 * bytes.length)) :
    signed bytes = bigEndian bytes := by
  rw [signed, BitVec.toInt_eq_toNat_cond, toNat_ofNat_bigEndian, if_pos h]

/-- With the sign bit it is negative. -/
theorem signed_of_le (h : 2 ^ (8 * bytes.length) ≤ 2 * bigEndian bytes) :
    signed bytes = (bigEndian bytes : Int) - (2 ^ (8 * bytes.length) : Nat) := by
  rw [signed, BitVec.toInt_eq_toNat_cond, toNat_ofNat_bigEndian, if_neg (Nat.not_lt.2 h)]

theorem littleEndian_cons (b : UInt8) (bytes : List UInt8) :
    littleEndian (b :: bytes) = b.toNat + 256 * littleEndian bytes := by
  rw [littleEndian, List.map_cons, Nat.ofDigits_cons, littleEndian]

/-- The number in `k` bytes, the highest first. -/
def bigEndianBytes : Nat → Nat → List UInt8
  | 0, _ => []
  | k + 1, n => bigEndianBytes k (n / 256) ++ [UInt8.ofNat n]

@[simp] theorem length_bigEndianBytes (k n : Nat) : (bigEndianBytes k n).length = k := by
  induction k generalizing n with
  | zero => rfl
  | succ k ih => rw [bigEndianBytes, List.length_append, ih, List.length_singleton]

/-- A number that fits is read again. -/
theorem bigEndian_bigEndianBytes {k n : Nat} (h : n < 256 ^ k) : bigEndian (bigEndianBytes k n) = n := by
  induction k generalizing n with
  | zero =>
      obtain rfl : n = 0 := by simpa using h
      rfl
  | succ k ih =>
      have hdiv : n / 256 < 256 ^ k := by
        rw [Nat.pow_succ] at h
        exact Nat.div_lt_of_lt_mul (by omega)
      have hlast : (UInt8.ofNat n).toNat = n % 256 := by rw [UInt8.toNat_ofNat']
      rw [bigEndianBytes, bigEndian, List.reverse_append, List.reverse_singleton, List.singleton_append,
        littleEndian_cons, ← bigEndian, ih hdiv, hlast]
      omega

/-! ## Searching -/

section

variable {α : Type*} [DecidableEq α] {sub : List α}

/-- `s.find(sub)`, the offset of the first occurrence. -/
def find (sub : List α) : List α → Option Nat
  | [] => if sub = [] then some 0 else none
  | x :: s => if sub <+: x :: s then some 0 else (find sub s).map fun i => i + 1

theorem find_at_front {s : List α} (h : sub <+: s) : find sub s = some 0 := by
  cases s with
  | nil => rw [find, if_pos (List.prefix_nil.1 h)]
  | cons x s => rw [find, if_pos h]

omit [DecidableEq α] in
/-- At the front is the first place. -/
theorem first_at_front {s : List α} {i : Nat} (h : sub <+: s) :
    (i ≤ s.length ∧ sub <+: s.drop i ∧ ∀ j < i, ¬ sub <+: s.drop j) ↔ 0 = i := by
  constructor
  · rintro ⟨-, -, hfirst⟩
    by_contra hne
    exact hfirst 0 (Nat.pos_of_ne_zero (Ne.symm hne)) h
  · rintro rfl
    exact ⟨Nat.zero_le _, h, fun j hj => absurd hj (Nat.not_lt_zero j)⟩

/-- What is found is the first place. -/
theorem find_eq_some_iff {s : List α} {i : Nat} : find sub s = some i ↔
    i ≤ s.length ∧ sub <+: s.drop i ∧ ∀ j < i, ¬ sub <+: s.drop j := by
  induction s generalizing i with
  | nil =>
      by_cases hsub : sub <+: []
      · rw [find_at_front hsub, first_at_front hsub, Option.some.injEq]
      · rw [find, if_neg fun h => hsub (List.prefix_nil.2 h), List.drop_nil]
        exact iff_of_false (fun h => by cases h) fun h => hsub h.2.1
  | cons x s ih =>
      by_cases hsub : sub <+: x :: s
      · rw [find_at_front hsub, first_at_front hsub, Option.some.injEq]
      rw [find, if_neg hsub, Option.map_eq_some_iff]
      constructor
      · rintro ⟨i, hfind, rfl⟩
        rcases ih.1 hfind with ⟨hle, hfound, hfirst⟩
        refine ⟨Nat.succ_le_succ hle, hfound, fun j hj => ?_⟩
        cases j with
        | zero => exact hsub
        | succ j => exact hfirst j (by omega)
      · rintro ⟨hle, hfound, hfirst⟩
        cases i with
        | zero => exact absurd hfound hsub
        | succ i =>
            refine ⟨i, ih.2 ⟨Nat.le_of_succ_le_succ hle, hfound, fun j hj => ?_⟩, rfl⟩
            exact hfirst (j + 1) (by omega)

/-- The text before the first occurrence and the text behind it. -/
structure FirstSplit (sub s front back : List α) : Prop where
  eq : s = front ++ sub ++ back
  first : ∀ j < front.length, ¬ sub <+: s.drop j

variable {s front back : List α} {i : Nat}

theorem find_of_firstSplit (h : FirstSplit sub s front back) : find sub s = some front.length := by
  rw [find_eq_some_iff]
  refine ⟨?_, ?_, h.first⟩
  · rw [h.eq, List.append_assoc, List.length_append]
    exact Nat.le_add_right _ _
  · rw [h.eq, List.append_assoc, List.drop_left]
    exact List.prefix_append sub back

theorem exists_firstSplit (h : find sub s = some i) :
    ∃ front back, FirstSplit sub s front back ∧ front.length = i := by
  rcases find_eq_some_iff.1 h with ⟨hle, ⟨back, hback⟩, hfirst⟩
  have hlength : (s.take i).length = i := List.length_take_of_le hle
  refine ⟨s.take i, back, ⟨?_, ?_⟩, hlength⟩
  · rw [List.append_assoc, hback, List.take_append_drop]
  · rw [hlength]
    exact hfirst

/-- What occurs is found there or before. -/
theorem exists_find_le (front : List α) (h : sub <+: back) :
    ∃ i ≤ front.length, find sub (front ++ back) = some i := by
  induction front with
  | nil => exact ⟨0, Nat.le_refl 0, find_at_front h⟩
  | cons x front ih =>
      by_cases hfront : sub <+: x :: (front ++ back)
      · exact ⟨0, Nat.zero_le _, find_at_front hfront⟩
      · rcases ih with ⟨i, hi, hfind⟩
        refine ⟨i + 1, Nat.succ_le_succ hi, ?_⟩
        rw [List.cons_append, find, if_neg hfront, hfind]
        rfl

end

/-! ## Files -/

/-- An open `io.FileIO`. -/
structure FileHandle where
  content : List UInt8
  position : Nat

namespace FileHandle

/-- `file_handle.seek(position)`. -/
def seek (file : FileHandle) (position : Nat) : FileHandle := { file with position }

/-- The bytes that `file_handle.read(size)` returns. -/
def data (file : FileHandle) (size : Int) : List UInt8 :=
  if size < 0 then file.content.drop file.position
  else (file.content.drop file.position).take size.toNat

/-- `file_handle.read(size)`, and the file behind what was read. -/
def read (file : FileHandle) (size : Int) : List UInt8 × FileHandle :=
  (file.data size, file.seek (file.position + (file.data size).length))

end FileHandle

end Binary
