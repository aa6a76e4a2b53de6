import Mathlib.Data.List.TakeWhile
import FactCore.Objects.FileObject

/-! # The form of a uid

`helperFunctions/uid.py`: a uid is the SHA256 hash of a file, an underscore and
the size of the file, `[a-f0-9]{64}_[0-9]+`.
-/

namespace FactCore

namespace UidPattern

/-- `[a-f0-9]` -/
def isHex (c : Char) : Bool := ('a' ≤ c && c ≤ 'f') || ('0' ≤ c && c ≤ '9')

/-- `[0-9]` -/
def isDigit (c : Char) : Bool := '0' ≤ c && c ≤ '9'

/-- The match of the pattern at the beginning of a text; it takes as many digits
as there are. -/
def matchAt (s : List Char) : Option (List Char) :=
  if (s.take 64).length = 64 ∧ (s.take 64).all isHex = true then
    match s.drop 64 with
    | '_' :: rest =>
        if rest.takeWhile isDigit = [] then none
        else some (s.take 64 ++ '_' :: rest.takeWhile isDigit)
    | _ => none
  else none

end UidPattern

/-- `is_uid`. -/
def IsUid (s : String) : Prop := UidPattern.matchAt s.toList = some s.toList

instance (s : String) : Decidable (IsUid s) := inferInstanceAs (Decidable (_ = _))

namespace UidPattern

variable {s u : List Char} {c : Char}

theorem isHex_of_isDigit (h : isDigit c = true) : isHex c = true := by
  unfold isDigit at h
  unfold isHex
  rw [h, Bool.or_true]

/-- A match consists of 64 hexadecimal digits, an underscore and at least one
digit, after which no digit follows. -/
theorem matchAt_eq_some : matchAt s = some u ↔ ∃ hash size rest,
    hash.length = 64 ∧ (∀ c ∈ hash, isHex c = true) ∧ size ≠ [] ∧ (∀ c ∈ size, isDigit c = true) ∧
    (∀ c ∈ rest.head?, isDigit c = false) ∧ u = hash ++ '_' :: size ∧ s = u ++ rest := by
  unfold matchAt
  constructor
  · intro h
    split at h
    · rename_i hhash
      split at h
      · rename_i rest hdrop
        split at h
        · cases h
        · rename_i hsize
          obtain rfl := Option.some.inj h
          refine ⟨s.take 64, rest.takeWhile isDigit, rest.dropWhile isDigit, hhash.1,
            List.all_eq_true.1 hhash.2, hsize, fun c hc => List.mem_takeWhile_imp hc, ?_, rfl, ?_⟩
          · intro c hc
            by_contra htrue
            cases hd : rest.dropWhile isDigit with
            | nil => simp [hd] at hc
            | cons x l =>
                have hx : c = x := by simpa [hd, eq_comm] using hc
                have hhead := List.head_dropWhile_not isDigit (l := rest) (by rw [hd]; simp)
                simp only [hd, List.head_cons] at hhead
                rw [hx] at htrue
                exact htrue hhead
          · calc s = s.take 64 ++ s.drop 64 := (List.take_append_drop 64 s).symm
              _ = s.take 64 ++ '_' :: (rest.takeWhile isDigit ++ rest.dropWhile isDigit) := by
                  rw [hdrop, List.takeWhile_append_dropWhile]
              _ = _ := by simp
      · cases h
    · cases h
  · rintro ⟨hash, size, rest, hlen, hhash, hne, hsize, hrest, rfl, rfl⟩
    have htake : (hash ++ '_' :: size ++ rest).take 64 = hash := by
      rw [List.append_assoc, ← hlen, List.take_left]
    have hdrop : (hash ++ '_' :: size ++ rest).drop 64 = '_' :: (size ++ rest) := by
      rw [List.append_assoc, ← hlen, List.drop_left]
      rfl
    have htakeWhile : (size ++ rest).takeWhile isDigit = size := by
      rw [List.takeWhile_append_of_pos hsize]
      cases rest with
      | nil => simp
      | cons c rest =>
          have hc := hrest c rfl
          simp [hc]
    rw [htake, hdrop, if_pos ⟨hlen, List.all_eq_true.2 hhash⟩]
    simp only [htakeWhile]
    rw [if_neg hne]

end UidPattern

/-- The parts of a uid. -/
theorem IsUid.parts {s : String} (h : IsUid s) : ∃ hash size,
    hash.length = 64 ∧ (∀ c ∈ hash, UidPattern.isHex c = true) ∧ size ≠ [] ∧
    (∀ c ∈ size, UidPattern.isDigit c = true) ∧ s.toList = hash ++ '_' :: size := by
  obtain ⟨hash, size, rest, hlen, hhash, hne, hsize, -, heq, -⟩ := UidPattern.matchAt_eq_some.1 h
  exact ⟨hash, size, hlen, hhash, hne, hsize, heq⟩

/-- A uid contains hexadecimal digits and an underscore only. -/
theorem IsUid.char {s : String} (h : IsUid s) {c : Char} (hc : c ∈ s.toList) :
    UidPattern.isHex c = true ∨ c = '_' := by
  obtain ⟨hash, size, -, hhash, -, hsize, heq⟩ := h.parts
  rw [heq, List.mem_append, List.mem_cons] at hc
  rcases hc with hc | rfl | hc
  · exact .inl (hhash c hc)
  · exact .inr rfl
  · exact .inl (UidPattern.isHex_of_isDigit (hsize c hc))

theorem IsUid.length {s : String} (h : IsUid s) : 66 ≤ s.toList.length := by
  obtain ⟨hash, size, hlen, -, hne, -, heq⟩ := h.parts
  have hpos := List.length_pos_iff.2 hne
  rw [heq, List.length_append, List.length_cons]
  omega

theorem isUid_ofList {hash size : List Char} (hlen : hash.length = 64)
    (hhash : ∀ c ∈ hash, UidPattern.isHex c = true) (hne : size ≠ [])
    (hsize : ∀ c ∈ size, UidPattern.isDigit c = true) :
    IsUid (String.ofList (hash ++ '_' :: size)) := by
  unfold IsUid
  rw [String.toList_ofList, UidPattern.matchAt_eq_some]
  exact ⟨hash, size, [], hlen, hhash, hne, hsize, by simp, rfl, (List.append_nil _).symm⟩

/-! ## Uids made of one digit -/

/-- The hexadecimal digit of a number. -/
def hexDigit (n : Nat) : Char :=
  ['0', '1', '2', '3', '4', '5', '6', '7', '8', '9', 'a', 'b', 'c', 'd', 'e', 'f'].getD n '0'

theorem isHex_hexDigit (n : Nat) : UidPattern.isHex (hexDigit n) = true := by
  have hall : ['0', '1', '2', '3', '4', '5', '6', '7', '8', '9', 'a', 'b', 'c', 'd', 'e', 'f'].all
      UidPattern.isHex = true := by decide +kernel
  rw [hexDigit, List.getD_eq_getElem?_getD]
  cases hget : ['0', '1', '2', '3', '4', '5', '6', '7', '8', '9', 'a', 'b', 'c', 'd', 'e', 'f'][n]? with
  | none => decide +kernel
  | some c => exact List.all_eq_true.1 hall c (List.mem_of_getElem? hget)

/-- A hash of equal digits with the size 1. -/
def uniformUid (n : Nat) : Uid := String.ofList (List.replicate 64 (hexDigit n) ++ ['_', '1'])

theorem toList_uniformUid (n : Nat) :
    (uniformUid n).toList = List.replicate 64 (hexDigit n) ++ ['_', '1'] := String.toList_ofList

theorem uniformUid_isUid (n : Nat) : IsUid (uniformUid n) := by
  refine isUid_ofList List.length_replicate ?_ (by simp) (by simp [UidPattern.isDigit])
  intro d hd
  rw [List.eq_of_mem_replicate hd]
  exact isHex_hexDigit n

end FactCore
