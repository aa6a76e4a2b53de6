import Mathlib.Data.List.Sort
import Mathlib.Data.String.Basic

/-! # Joined strings

`sep.join(parts)` and `s.split(sep)` for a separator of one character. Splitting
undoes joining as long as no part contains the separator; joining always undoes
splitting.
-/

namespace Join

/-- `sep.join(parts)`. -/
def join (sep : Char) (parts : List String) : String :=
  String.ofList ([sep].intercalate (parts.map String.toList))

/-- `s.split(sep)`. -/
def split (sep : Char) (s : String) : List String := (s.toList.splitOn sep).map String.ofList

variable {sep : Char} {parts : List String} {s part : String}

theorem split_ne_nil : split sep s ≠ [] := by simp [split]

/-- Parts without the separator are found again. -/
theorem split_join (hparts : ∀ part ∈ parts, sep ∉ part.toList) (hne : parts ≠ []) :
    split sep (join sep parts) = parts := by
  have hsplit : ([sep].intercalate (parts.map String.toList)).splitOn sep =
      parts.map String.toList :=
    List.splitOn_intercalate sep (by simpa using hparts) (by simpa using hne)
  rw [split, join, String.toList_ofList, hsplit, List.map_map]
  simp [Function.comp_def]

theorem join_split : join sep (split sep s) = s := by
  have hmap : (split sep s).map String.toList = s.toList.splitOn sep := by
    simp [split, Function.comp_def]
  rw [join, hmap, List.intercalate_splitOn, String.ofList_toList]

theorem notMem_of_mem_splitOn {l piece : List Char} (h : piece ∈ l.splitOn sep) : sep ∉ piece := by
  induction l generalizing piece with
  | nil =>
      obtain rfl : piece = [] := by simpa using h
      exact List.not_mem_nil
  | cons c l ih =>
      rw [List.splitOn_cons_eq_if_modifyHead] at h
      split at h
      · rcases List.mem_cons.1 h with rfl | h
        · exact List.not_mem_nil
        · exact ih h
      · rename_i hne
        obtain ⟨head, rest, hsplit⟩ := List.exists_cons_of_ne_nil (List.splitOn_ne_nil sep l)
        rw [hsplit, List.modifyHead_cons] at h
        rcases List.mem_cons.1 h with rfl | h
        · have hhead : sep ∉ head := ih (by rw [hsplit]; exact List.mem_cons_self)
          intro hmem
          rcases List.mem_cons.1 hmem with rfl | hmem
          · exact hne (by simp)
          · exact hhead hmem
        · exact ih (by rw [hsplit]; exact List.mem_cons_of_mem _ h)

/-- No part contains the separator. -/
theorem notMem_of_mem_split (h : part ∈ split sep s) : sep ∉ part.toList := by
  obtain ⟨piece, hpiece, rfl⟩ := List.mem_map.1 h
  rw [String.toList_ofList]
  exact notMem_of_mem_splitOn hpiece

/-- Another character of a joined string is one of its parts. -/
theorem mem_toList_join {c : Char} (hc : c ≠ sep) :
    c ∈ (join sep parts).toList ↔ ∃ part ∈ parts, c ∈ part.toList := by
  rw [join, String.toList_ofList]
  induction parts with
  | nil => simp
  | cons part parts ih =>
      cases parts with
      | nil => simp
      | cons part' parts =>
          rw [List.map_cons] at ih
          rw [List.map_cons, List.map_cons, List.intercalate_cons_cons, List.mem_append, List.mem_append,
            ih, List.mem_singleton]
          -- the separator is another character
          rw [or_iff_left hc, List.exists_mem_cons_iff (a := part)]

/-! ## Splitting at the first separators -/

/-- `s.split(sep, maxsplit=n)` on characters. -/
def splitMaxChars (sep : Char) : Nat → List Char → List (List Char)
  | 0, s => [s]
  | n + 1, s =>
      match s.dropWhile (· ≠ sep) with
      | [] => [s]
      | _ :: rest => s.takeWhile (· ≠ sep) :: splitMaxChars sep n rest

/-- `s.split(sep, maxsplit=n)`. -/
def splitMax (sep : Char) (n : Nat) (s : String) : List String :=
  (splitMaxChars sep n s.toList).map String.ofList

/-- A part without the separator is split off. -/
theorem splitMaxChars_append {front behind : List Char} (n : Nat) (h : sep ∉ front) :
    splitMaxChars sep (n + 1) (front ++ sep :: behind) = front :: splitMaxChars sep n behind := by
  have hall : ∀ c ∈ front, decide (c ≠ sep) = true := by
    intro c hc
    apply decide_eq_true
    rintro rfl
    exact h hc
  rw [splitMaxChars, List.dropWhile_append_of_pos hall, List.takeWhile_append_of_pos hall]
  simp

/-! ## Sorting -/

/-- `sorted(l)`. -/
def sorted (l : List String) : List String := l.insertionSort (· ≤ ·)

theorem sorted_perm (l : List String) : (sorted l).Perm l := List.perm_insertionSort _ l

/-- Sorting forgets the order. -/
theorem sorted_eq_of_perm {l l' : List String} (h : l.Perm l') : sorted l = sorted l' :=
  ((sorted_perm l).trans (h.trans (sorted_perm l').symm)).eq_of_pairwise'
    (List.pairwise_insertionSort _ l) (List.pairwise_insertionSort _ l')

end Join
