import Mathlib.Data.List.Find
import Mathlib.Data.Nat.Bitwise
import Mathlib.Tactic.IntervalCases
import FactCore.Lib.Base64
import FactCore.Lib.Binary
import FactCore.Lib.Lines
import FactCore.Lib.Regex
import FactCore.Lib.Replace

/-! # File system metadata

`_extract_metadata_from_yaffs` of the plugin `file_system_metadata`: the modes, dates and
paths of files are read from the listing that the unpacker printed. The mode of a file
stands there as a text such as `-rwsr-xr-x`; `stat` of the standard library has the table
of its letters, and the plugin reads it backwards.

For listings of files, links, directories, devices and messages, it is shown that each
file and each link gives one record in which its mode, its bits and its path can be read
again.
-/

namespace FactCore.FileSystemMetadata

open Regex

/-! ## File modes -/

/-- `stat._filemode_table`. -/
def filemodeTable : List (List (ℕ × Char)) :=
  [[(0o120000, 'l'), (0o140000, 's'), (0o100000, '-'), (0o060000, 'b'), (0o040000, 'd'),
      (0o020000, 'c'), (0o010000, 'p')],
    [(0o400, 'r')], [(0o200, 'w')], [(0o4100, 's'), (0o4000, 'S'), (0o100, 'x')],
    [(0o40, 'r')], [(0o20, 'w')], [(0o2010, 's'), (0o2000, 'S'), (0o10, 'x')],
    [(0o4, 'r')], [(0o2, 'w')], [(0o1001, 't'), (0o1000, 'T'), (0o1, 'x')]]

/-- The letter of a row. -/
def letter (mode : ℕ) (row : List (ℕ × Char)) : Char :=
  ((row.find? fun e => mode &&& e.1 == e.1).map Prod.snd).getD '-'

/-- `stat.filemode`. -/
def filemode (mode : ℕ) : List Char := filemodeTable.map (letter mode)

/-- `REVERSE_FILEMODE_LOOKUP`. -/
def reverseFilemodeLookup : List (List (Char × ℕ)) :=
  filemodeTable.map fun row => row.map Prod.swap

/-- `_filemode_str_to_int`. -/
def filemodeStrToInt (filemode : List Char) : ℕ :=
  ((filemode.zip reverseFilemodeLookup).map fun p => (p.2.lookup p.1).getD 0).sum

def suidBit : ℕ := 0b100 <<< 9
def sgidBit : ℕ := 0b010 <<< 9
def stickyBit : ℕ := 0b001 <<< 9

/-- `oct(n)`. -/
def oct (n : ℕ) : List Char := '0' :: 'o' :: Nat.toDigits 8 n

/-- `int(text, 8)`, for a number in octal digits with or without the prefix. -/
def intOfOctal : List Char → ℕ
  | '0' :: 'o' :: digits => Nat.ofDigitChars 8 digits 0
  | digits => Nat.ofDigitChars 8 digits 0

/-- `_file_mode_contains_bit`. -/
def fileModeContainsBit (fileMode : List Char) (bit : ℕ) : Bool := intOfOctal fileMode &&& bit != 0

/-! ## Records -/

/-- `FileMetadata`; `τ` is the type of the times. -/
structure FileMetadata (τ : Type) where
  mode : List Char
  name : List Char
  path : List Char
  user : Option (List Char) := none
  uid : Option ℕ := none
  group : Option (List Char) := none
  gid : Option ℕ := none
  modificationTime : τ
  accessTime : Option τ := none
  creationTime : Option τ := none
  suidBit : Bool
  sgidBit : Bool
  stickyBit : Bool
  key : List UInt8

/-- `path.encode()`. -/
def encodeUtf8 (path : List Char) : List UInt8 := (String.ofList path).toUTF8.toList

/-- `Path(path).name`. -/
def pathName (path : List Char) : List Char :=
  ((path.splitOn '/').filter fun part => part ≠ [] ∧ part ≠ ['.']).getLast?.getD []

/-- The letters of `YAFFS_REGEX`. -/
def isModeChar (c : Char) : Bool := "rwxtTsSl?-".toList.elem c

variable (digit : Char → Bool)

/-- `\d{4}-\d{2}-\d{2} \d{2}:\d{2}`, with `digit` for `\d`. -/
def dateRegex : Regex Char :=
  times (cls digit) 4 ++ lit ['-'] ++ times (cls digit) 2 ++ lit ['-'] ++ times (cls digit) 2 ++
    lit [' '] ++ times (cls digit) 2 ++ lit [':'] ++ times (cls digit) 2

/-- `YAFFS_REGEX`. -/
def yaffsRegex : Regex Char :=
  group 1 (times (cls isModeChar) 10) ++ plus (cls (· == ' ')) ++ plus (cls digit) ++ lit [' '] ++
    group 2 (dateRegex digit) ++ lit [' '] ++ group 3 (plus (cls (· != '\n')))

/-- The text of a group of a match. -/
def groupText (groups : Captures Char) (n : ℕ) : List Char := (groups.lookup n).getD []

/-- The path of an entry, without the target of a link. -/
def pathOf (path : List Char) : List Char :=
  match Binary.find ['-', '>'] path with
  | some i => Lines.stripUnicode (path.take i)
  | none => path

variable {τ : Type} (timestamp : List Char → Except String τ)

/-- The record of a match, the body of the loop. `datetime.fromisoformat` raises for a
date that does not exist. -/
def metadataOfMatch (groups : Captures Char) : Except String (FileMetadata τ) := do
  let mode := oct (filemodeStrToInt (groupText groups 1))
  let path := pathOf (groupText groups 3)
  let modificationTime ← timestamp (groupText groups 2)
  return {
    mode
    name := pathName path
    path := '/' :: path
    modificationTime
    suidBit := fileModeContainsBit mode suidBit
    sgidBit := fileModeContainsBit mode sgidBit
    stickyBit := fileModeContainsBit mode stickyBit
    key := Base64.encode (encodeUtf8 path) }

/-- The result of the unpacker, as far as it is read: `plugin_used` and `output`. -/
structure UnpackerResult where
  pluginUsed : String
  output : List Char

/-- `_extract_metadata_from_yaffs`. -/
def extractMetadataFromYaffs (unpacker : Option UnpackerResult) :
    Except String (List (FileMetadata τ)) :=
  match unpacker with
  | none => .ok []
  | some result =>
      if result.pluginUsed ≠ "YAFFS" then .ok []
      else (finditer (yaffsRegex digit) result.output).mapM (metadataOfMatch timestamp)

/-! ## Reading a mode backwards -/

/-- What a row of the table contributes to the number that is read. -/
def rowValue (mode : ℕ) (row : List (ℕ × Char)) : ℕ :=
  ((row.map Prod.swap).lookup (letter mode row)).getD 0

theorem filemodeStrToInt_filemode_eq (mode : ℕ) :
    filemodeStrToInt (filemode mode) = (filemodeTable.map (rowValue mode)).sum := by
  rw [filemodeStrToInt, filemode, reverseFilemodeLookup, List.zip_map', List.map_map]
  rfl

/-- The value of bit `i`. -/
def bitValue (mode i : ℕ) : ℕ := if mode.testBit i then 2 ^ i else 0

theorem and_two_pow_eq (mode i : ℕ) : mode &&& 2 ^ i = bitValue mode i := by
  rw [Nat.and_two_pow, bitValue]
  cases mode.testBit i <;> simp

theorem and_add_eq (mode : ℕ) {i j : ℕ} (h : j < i) :
    mode &&& (2 ^ i + 2 ^ j) = bitValue mode i + bitValue mode j := by
  have hlt : 2 ^ j < 2 ^ i := Nat.pow_lt_pow_right (by decide) h
  have hor : 2 ^ i + 2 ^ j = 2 ^ i ||| 2 ^ j := by
    simpa using Nat.two_pow_add_eq_or_of_lt hlt 1
  rw [hor, Nat.and_or_distrib_left, and_two_pow_eq, and_two_pow_eq, bitValue, bitValue]
  split_ifs <;> simp [hor]

/-- A row reads only the bits that it has. -/
theorem letter_and (mode : ℕ) {mask : ℕ} {row : List (ℕ × Char)}
    (h : ∀ e ∈ row, mask &&& e.1 = e.1) : letter (mode &&& mask) row = letter mode row := by
  rw [letter, letter, List.find?_congr fun e he => ?_]
  rw [Nat.and_assoc, h e he]

theorem rowValue_and (mode : ℕ) {mask : ℕ} {row : List (ℕ × Char)}
    (h : ∀ e ∈ row, mask &&& e.1 = e.1) : rowValue (mode &&& mask) row = rowValue mode row := by
  rw [rowValue, rowValue, letter_and mode h]

theorem rowValue_one (mode i : ℕ) {c : Char} (h : rowValue (2 ^ i) [(2 ^ i, c)] = 2 ^ i)
    (h0 : rowValue 0 [(2 ^ i, c)] = 0) : rowValue mode [(2 ^ i, c)] = bitValue mode i := by
  have hmask : ∀ e ∈ [(2 ^ i, c)], 2 ^ i &&& e.1 = e.1 := by simp
  rw [← rowValue_and mode hmask, and_two_pow_eq, bitValue]
  split_ifs
  · exact h
  · exact h0

/-- A row for two bits: three letters for both of them, the upper and the lower one. -/
theorem rowValue_two (mode : ℕ) {i j : ℕ} {row : List (ℕ × Char)} (hij : j < i)
    (hmask : ∀ e ∈ row, (2 ^ i + 2 ^ j) &&& e.1 = e.1)
    (h : ∀ n ∈ [2 ^ i + 2 ^ j, 2 ^ i, 2 ^ j, 0], rowValue n row = n) :
    rowValue mode row = bitValue mode i + bitValue mode j := by
  rw [← rowValue_and mode hmask, and_add_eq mode hij, bitValue, bitValue]
  split_ifs
  · exact h _ (by simp)
  · exact h _ (by simp)
  · exact h _ (by simp)
  · exact h _ (by simp)

/-- The kinds of files that the table has, as the upper bits of the mode. -/
def kinds : List ℕ := [0o12, 0o14, 0o10, 0o6, 0o4, 0o2, 0o1]

theorem and_kind {mode : ℕ} (h : mode / 4096 < 16) : mode &&& 15 * 4096 = mode / 4096 * 4096 := by
  apply Nat.eq_of_testBit_eq
  intro i
  rw [show (4096 : ℕ) = 2 ^ 12 by rfl, Nat.testBit_and, Nat.testBit_mul_two_pow,
    Nat.testBit_mul_two_pow, Nat.testBit_div_two_pow]
  by_cases hi : 12 ≤ i
  · obtain ⟨j, rfl⟩ := Nat.exists_eq_add_of_le' hi
    rw [Nat.add_sub_cancel]
    by_cases hj : j < 4
    · have hmaskBit : (15 : ℕ).testBit j = true := by interval_cases j <;> decide
      simp [hmaskBit]
    · have hbit : mode.testBit (j + 12) = false := by
        apply Nat.testBit_lt_two_pow
        have hpow : 2 ^ 16 ≤ 2 ^ (j + 12) := Nat.pow_le_pow_right (by decide) (by omega)
        omega
      simp [hbit]
  · simp [hi]

theorem lt_of_kind {k : ℕ} (h : k ∈ kinds) : k < 16 := by
  revert h
  simp only [kinds, List.mem_cons, List.not_mem_nil, or_false]
  omega

/-- The row for the kind of the file. -/
theorem rowValue_kind {mode : ℕ} {row : List (ℕ × Char)} (hkind : mode / 4096 ∈ kinds)
    (hmask : ∀ e ∈ row, 15 * 4096 &&& e.1 = e.1)
    (h : ∀ k ∈ kinds, rowValue (k * 4096) row = k * 4096) :
    rowValue mode row = mode / 4096 * 4096 := by
  rw [← rowValue_and mode hmask, and_kind (lt_of_kind hkind)]
  exact h _ hkind

theorem sum_bitValue (mode n : ℕ) :
    ((List.range n).map (bitValue mode)).sum = mode % 2 ^ n := by
  induction n with
  | zero => simp [Nat.mod_one]
  | succ n ih =>
      rw [List.range_succ, List.map_append, List.sum_append, ih, Nat.mod_pow_succ]
      have hbit : mode / 2 ^ n % 2 = if mode.testBit n then 1 else 0 := by
        rw [Nat.testBit_eq_decide_div_mod_eq]
        have := Nat.mod_lt (mode / 2 ^ n) (show 0 < 2 by decide)
        split_ifs with h <;> simp at h <;> omega
      rw [hbit]
      simp [bitValue]

/-- Each mode of a known kind is read again from its text. -/
theorem filemodeStrToInt_filemode {mode : ℕ} (h : mode / 4096 ∈ kinds) :
    filemodeStrToInt (filemode mode) = mode := by
  have hbits := sum_bitValue mode 12
  simp only [List.range_succ, List.range_zero, List.nil_append, List.cons_append, List.map_cons,
    List.map_nil, List.sum_cons, List.sum_nil] at hbits
  have hkind : rowValue mode [(0o120000, 'l'), (0o140000, 's'), (0o100000, '-'), (0o060000, 'b'),
      (0o040000, 'd'), (0o020000, 'c'), (0o010000, 'p')] = mode / 4096 * 4096 :=
    rowValue_kind h (by decide) (by decide)
  have hr : rowValue mode [(0o400, 'r')] = bitValue mode 8 :=
    rowValue_one mode 8 (by decide) (by decide)
  have hw : rowValue mode [(0o200, 'w')] = bitValue mode 7 :=
    rowValue_one mode 7 (by decide) (by decide)
  have hr' : rowValue mode [(0o40, 'r')] = bitValue mode 5 :=
    rowValue_one mode 5 (by decide) (by decide)
  have hw' : rowValue mode [(0o20, 'w')] = bitValue mode 4 :=
    rowValue_one mode 4 (by decide) (by decide)
  have hr'' : rowValue mode [(0o4, 'r')] = bitValue mode 2 :=
    rowValue_one mode 2 (by decide) (by decide)
  have hw'' : rowValue mode [(0o2, 'w')] = bitValue mode 1 :=
    rowValue_one mode 1 (by decide) (by decide)
  have hsuid : rowValue mode [(0o4100, 's'), (0o4000, 'S'), (0o100, 'x')] =
      bitValue mode 11 + bitValue mode 6 := rowValue_two mode (by decide) (by decide) (by decide)
  have hsgid : rowValue mode [(0o2010, 's'), (0o2000, 'S'), (0o10, 'x')] =
      bitValue mode 10 + bitValue mode 3 := rowValue_two mode (by decide) (by decide) (by decide)
  have hsticky : rowValue mode [(0o1001, 't'), (0o1000, 'T'), (0o1, 'x')] =
      bitValue mode 9 + bitValue mode 0 := rowValue_two mode (by decide) (by decide) (by decide)
  rw [filemodeStrToInt_filemode_eq]
  simp only [filemodeTable, List.map_cons, List.map_nil, List.sum_cons, List.sum_nil, hkind, hr,
    hw, hsuid, hr', hw', hsgid, hr'', hw'', hsticky]
  omega

theorem intOfOctal_oct (n : ℕ) : intOfOctal (oct n) = n :=
  Nat.ofDigitChars_toDigits (by decide) (by decide)

theorem fileModeContainsBit_oct (mode i : ℕ) :
    fileModeContainsBit (oct mode) (2 ^ i) = mode.testBit i := by
  rw [fileModeContainsBit, intOfOctal_oct, and_two_pow_eq, bitValue]
  cases mode.testBit i <;> simp

/-! ## Listings -/

/-- The digit of `n` at place `k`. -/
def digitAt (k n : ℕ) : Char := Nat.digitChar (n / 10 ^ k % 10)

/-- The date of an entry. -/
structure Stamp where
  year : ℕ
  month : ℕ
  day : ℕ
  hour : ℕ
  minute : ℕ

def Stamp.date (stamp : Stamp) : List Char :=
  [digitAt 3 stamp.year, digitAt 2 stamp.year, digitAt 1 stamp.year, digitAt 0 stamp.year] ++
    ['-'] ++ [digitAt 1 stamp.month, digitAt 0 stamp.month] ++ ['-'] ++
    [digitAt 1 stamp.day, digitAt 0 stamp.day]

def Stamp.time (stamp : Stamp) : List Char :=
  [digitAt 1 stamp.hour, digitAt 0 stamp.hour] ++ [':'] ++
    [digitAt 1 stamp.minute, digitAt 0 stamp.minute]

def Stamp.text (stamp : Stamp) : List Char := stamp.date ++ [' '] ++ stamp.time

/-- A file, a link with its target, or a socket. -/
structure File where
  mode : ℕ
  blanks : ℕ
  size : ℕ
  stamp : Stamp
  directories : List (List Char)
  name : List Char
  target : Option (List Char)

namespace File

def path (file : File) : List Char := ['/'].intercalate (file.directories ++ [file.name])

/-- What stands behind the path of a link. -/
def arrow (file : File) : List Char :=
  match file.target with
  | some target => ' ' :: '-' :: '>' :: ' ' :: target
  | none => []

/-- Its line. -/
def line (file : File) : List Char :=
  filemode file.mode ++ List.replicate (file.blanks + 1) ' ' ++ Nat.toDigits 10 file.size ++
    [' '] ++ file.stamp.text ++ [' '] ++ (file.path ++ file.arrow)

/-- The mode is that of a link, a socket or a regular file, and the path can be told from
the rest of the line. -/
structure WellFormed (file : File) : Prop where
  kind : file.mode / 4096 ∈ [0o12, 0o14, 0o10]
  parts : ∀ part ∈ file.directories ++ [file.name], part ≠ [] ∧ part ≠ ['.'] ∧ '/' ∉ part
  oneLine : '\n' ∉ file.path ++ file.arrow
  noArrow : ¬ ['-', '>'] <:+: file.path
  stripped : file.target.isSome = true → Lines.stripUnicode (file.path ++ [' ']) = file.path

variable {file : File}

theorem WellFormed.splitOn_path (h : file.WellFormed) :
    file.path.splitOn '/' = file.directories ++ [file.name] :=
  List.splitOn_intercalate '/' (fun part hpart => (h.parts part hpart).2.2) (by simp)

theorem WellFormed.path_ne_nil (h : file.WellFormed) : file.path ≠ [] := by
  intro hnil
  have hname : file.name ∈ file.path.splitOn '/' := by
    rw [h.splitOn_path]
    simp
  rw [hnil] at hname
  exact (h.parts file.name (by simp)).1 (by simpa using hname)

theorem WellFormed.pathName_path (h : file.WellFormed) : pathName file.path = file.name := by
  have hall : (file.directories ++ [file.name]).filter (fun part => part ≠ [] ∧ part ≠ ['.']) =
      file.directories ++ [file.name] := by
    refine List.filter_eq_self.2 fun part hpart => ?_
    obtain ⟨hne, hdot, -⟩ := h.parts part hpart
    exact decide_eq_true ⟨hne, hdot⟩
  rw [pathName, h.splitOn_path, hall]
  simp

/-- The target of a link is cut off, and the path of a file stays. -/
theorem WellFormed.pathOf_path (h : file.WellFormed) :
    pathOf (file.path ++ file.arrow) = file.path := by
  cases htarget : file.target with
  | none =>
      have harrow : file.arrow = [] := by rw [File.arrow, htarget]
      have hfind : Binary.find ['-', '>'] file.path = none := by
        by_contra hne
        obtain ⟨i, hi⟩ := Option.ne_none_iff_exists'.1 hne
        obtain ⟨front, back, hsplit, -⟩ := Binary.exists_firstSplit hi
        exact h.noArrow ⟨front, back, hsplit.eq.symm⟩
      rw [harrow, List.append_nil, pathOf, hfind]
  | some target =>
      have harrow : file.arrow = ' ' :: '-' :: '>' :: ' ' :: target := by rw [File.arrow, htarget]
      have hsplit : Binary.FirstSplit ['-', '>'] (file.path ++ file.arrow) (file.path ++ [' '])
          (' ' :: target) := by
        refine ⟨by simp [harrow], fun j hj hprefix => ?_⟩
        rw [List.length_append, List.length_singleton] at hj
        rw [harrow, List.drop_append_of_le_length (by omega)] at hprefix
        have hinside := Replace.prefix_of_prefix_append_sep (by decide) hprefix
        exact h.noArrow (hinside.isInfix.trans (List.drop_suffix j _).isInfix)
      have htake : (file.path ++ file.arrow).take (file.path ++ [' ']).length =
          file.path ++ [' '] := by
        rw [hsplit.eq, List.append_assoc, List.take_left]
      rw [pathOf, Binary.find_of_firstSplit hsplit]
      simp only [htake]
      exact h.stripped (by simp [htarget])

/-- The record that is expected. -/
def metadata (file : File) (modificationTime : τ) : FileMetadata τ where
  mode := oct file.mode
  name := file.name
  path := '/' :: file.path
  modificationTime
  suidBit := file.mode.testBit 11
  sgidBit := file.mode.testBit 10
  stickyBit := file.mode.testBit 9
  key := Base64.encode (encodeUtf8 file.path)

end File

/-- A line of the listing: that of a file, or words in which no mode of a file ends. -/
inductive Line where
  | file (f : File)
  | words (ws : List (List Char))

def Line.text : Line → List Char
  | .file f => f.line
  | .words ws => [' '].intercalate ws

/-- The last ten letters of the word are not a mode that the expression knows. -/
def QuietWord (word : List Char) : Prop :=
  ∀ front mode, word = front ++ mode → mode.length = 10 → ∃ c ∈ mode, isModeChar c = false

/-- The words of a line of a directory, a device or a message. -/
def QuietWords (words : List (List Char)) : Prop :=
  (∀ word ∈ words, ' ' ∉ word ∧ '\n' ∉ word) ∧ ∀ word ∈ words.dropLast, QuietWord word

def Line.WellFormed : Line → Prop
  | .file f => f.WellFormed
  | .words ws => QuietWords ws

/-- The file of a line. -/
def Line.file? : Line → Option File
  | .file f => some f
  | .words _ => none

/-- What the unpacker prints. -/
def listing (lines : List Line) : List Char := lines.flatMap fun line => line.text ++ ['\n']

/-! ## A line of a file is matched -/

/-- The letter of the kind. -/
theorem letter_kind {mode : ℕ} {row : List (ℕ × Char)} (h : mode / 4096 < 16)
    (hmask : ∀ e ∈ row, 15 * 4096 &&& e.1 = e.1) :
    letter mode row = letter (mode / 4096 * 4096) row := by
  rw [← letter_and mode hmask, and_kind h]

/-- A letter stands in its row, or it is a hyphen. -/
theorem letter_mem (mode : ℕ) (row : List (ℕ × Char)) :
    letter mode row ∈ '-' :: row.map Prod.snd := by
  rw [letter]
  cases hfind : row.find? fun e => mode &&& e.1 == e.1 with
  | none => exact List.mem_cons_self
  | some e => exact List.mem_cons_of_mem _ (List.mem_map_of_mem (List.mem_of_find?_eq_some hfind))

theorem filemode_letters {mode : ℕ} (h : mode / 4096 ∈ [0o12, 0o14, 0o10]) :
    ∀ c ∈ filemode mode, isModeChar c = true := by
  have hlt : mode / 4096 < 16 := lt_of_kind (List.mem_of_mem_take (i := 3) h)
  have hrest : ∀ row ∈ filemodeTable.tail, ('-' :: row.map Prod.snd).all isModeChar = true := by
    decide
  have hkind : ∀ k ∈ [0o12, 0o14, 0o10], isModeChar (letter (k * 4096) filemodeTable.head!) =
      true := by
    decide
  intro c hc
  obtain ⟨row, hrow, rfl⟩ := List.mem_map.1 hc
  rcases List.mem_cons.1 hrow with rfl | hrow
  · rw [letter_kind hlt (by decide)]
    exact hkind _ h
  · exact List.all_eq_true.1 (hrest row hrow) _ (letter_mem mode row)

theorem length_filemode (mode : ℕ) : (filemode mode).length = 10 := rfl

variable {digit}

section

variable (hdigit : ∀ c : Char, c.toNat < 128 → digit c = c.isDigit)

include hdigit

theorem digit_digitAt (k n : ℕ) : digit (digitAt k n) = true := by
  have hlt : n / 10 ^ k % 10 < 10 := Nat.mod_lt _ (by decide)
  have hall : ∀ m < 10, (Nat.digitChar m).toNat < 128 ∧ (Nat.digitChar m).isDigit = true := by
    decide
  obtain ⟨hascii, hdig⟩ := hall _ hlt
  rw [digitAt, hdigit _ hascii, hdig]

theorem takes_dateRegex (stamp : Stamp) : Takes (dateRegex digit) stamp.text := by
  have h := digit_digitAt hdigit
  have hyear : Takes (times (cls digit) 4) [digitAt 3 stamp.year, digitAt 2 stamp.year,
      digitAt 1 stamp.year, digitAt 0 stamp.year] := takes_times_cls rfl (by simp [h])
  have hpair : ∀ n, Takes (times (cls digit) 2) [digitAt 1 n, digitAt 0 n] :=
    fun n => takes_times_cls rfl (by simp [h])
  have hdate := (((hyear.append (takes_lit ['-'])).append (hpair stamp.month)).append
    (takes_lit ['-'])).append (hpair stamp.day)
  have hhour := (hdate.append (takes_lit [' '])).append (hpair stamp.hour)
  exact (hhour.append (takes_lit [':'])).append (hpair stamp.minute)

theorem digit_of_mem_toDigits {n : ℕ} {c : Char} (hc : c ∈ Nat.toDigits 10 n) :
    digit c = true ∧ c ≠ ' ' := by
  have hdig : c.isDigit = true := Nat.isDigit_of_mem_toDigits (by decide) (by decide) hc
  have hbounds : 48 ≤ c.toNat ∧ c.toNat ≤ 57 := by
    simpa [Char.isDigit, UInt32.le_iff_toNat_le] using hdig
  refine ⟨by rw [hdigit c (by omega), hdig], ?_⟩
  rintro rfl
  exact absurd hdig (by decide)

theorem matchFront_line {file : File} (h : file.WellFormed) (rest : List Char) :
    matchFront (yaffsRegex digit) (file.line ++ '\n' :: rest) =
      some ([(3, file.path ++ file.arrow), (2, file.stamp.text), (1, filemode file.mode)],
        '\n' :: rest) := by
  obtain ⟨d, ds, hsize⟩ := List.exists_cons_of_ne_nil (Nat.toDigits_ne_nil (n := file.size) (b := 10))
  have hsizes : ∀ x ∈ d :: ds, digit x = true ∧ x ≠ ' ' := by
    rw [← hsize]
    exact fun x hx => digit_of_mem_toDigits hdigit hx
  have hspace : digit ' ' = false := by
    rw [hdigit ' ' (by decide)]
    rfl
  -- one step for each part of the expression, each with all that follows
  have hmode : ∀ c tail, (runs (group 1 (times (cls isModeChar) 10))
      (c, filemode file.mode ++ tail)).head? = some ((1, filemode file.mode) :: c, tail) :=
    fun c tail => head_group 1 (takes_times_cls rfl (filemode_letters h.kind) c tail)
  have hblanks : ∀ c tail, (runs (plus (cls (· == ' ')))
      (c, List.replicate (file.blanks + 1) ' ' ++ (d :: ds ++ tail))).head? =
        some (c, d :: ds ++ tail) := by
    intro c tail
    refine head_plus_cls (by simp) (by simp) fun x hx => ?_
    obtain rfl : d = x := Option.some.inj hx
    simpa using (hsizes d List.mem_cons_self).2
  have hdigits : ∀ c tail, (runs (plus (cls digit)) (c, d :: ds ++ ([' '] ++ tail))).head? =
      some (c, [' '] ++ tail) := by
    intro c tail
    refine head_plus_cls (List.cons_ne_nil d ds) (fun x hx => (hsizes x hx).1) fun x hx => ?_
    obtain rfl : ' ' = x := Option.some.inj hx
    exact hspace
  have hdate : ∀ c tail, (runs (group 2 (dateRegex digit)) (c, file.stamp.text ++ tail)).head? =
      some ((2, file.stamp.text) :: c, tail) :=
    fun c tail => head_group 2 (takes_dateRegex hdigit file.stamp c tail)
  have hpath : ∀ c, (runs (group 3 (plus (cls (· != '\n'))))
      (c, file.path ++ (file.arrow ++ '\n' :: rest))).head? =
        some ((3, file.path ++ file.arrow) :: c, '\n' :: rest) := by
    intro c
    rw [← List.append_assoc]
    refine head_group 3 (head_plus_cls ?_ ?_ ?_)
    · exact List.append_ne_nil_of_left_ne_nil h.path_ne_nil _
    · intro x hx
      simpa using fun heq : x = '\n' => h.oneLine (heq ▸ hx)
    · intro x hx
      obtain rfl : '\n' = x := Option.some.inj hx
      rfl
  rw [matchFront, yaffsRegex, File.line, hsize]
  simp only [List.append_assoc]
  exact head_append (head_append (head_append (head_append (head_append (head_append (hmode _ _)
    (hblanks _ _)) (hdigits _ _)) (takes_lit [' '] _ _)) (hdate _ _)) (takes_lit [' '] _ _))
    (hpath _)

end

/-! ## Other lines are skipped -/

/-- A match begins with ten letters of a mode and a blank. -/
theorem exists_mode_of_matches {w rest : List Char} {c : Captures Char}
    (h : Matches (yaffsRegex digit) [] w rest c) :
    ∃ mode w', w = mode ++ ' ' :: w' ∧ mode.length = 10 ∧ ∀ x ∈ mode, isModeChar x = true := by
  obtain ⟨w₁, w₂, c₁, rfl, h, -⟩ := matches_append.1 h
  obtain ⟨w₁, w₃, c₂, rfl, h, -⟩ := matches_append.1 h
  obtain ⟨w₁, w₄, c₃, rfl, h, -⟩ := matches_append.1 h
  obtain ⟨w₁, w₅, c₄, rfl, h, -⟩ := matches_append.1 h
  obtain ⟨w₁, w₆, c₅, rfl, h, -⟩ := matches_append.1 h
  obtain ⟨mode, blanks, c₆, rfl, hmode, hblanks⟩ := matches_append.1 h
  obtain ⟨c₇, hmode, -⟩ := matches_group.1 hmode
  obtain ⟨hlength, hall, -⟩ := matches_times_cls.1 hmode
  obtain ⟨hne, hblank, -⟩ := matches_plus_cls.1 hblanks
  obtain ⟨x, more, rfl⟩ := List.exists_cons_of_ne_nil hne
  obtain rfl : x = ' ' := by simpa using hblank x List.mem_cons_self
  exact ⟨mode, more ++ w₆ ++ w₅ ++ w₄ ++ w₃ ++ w₂, by simp, hlength, hall⟩

theorem isModeChar_blank : isModeChar ' ' = false := rfl

theorem isModeChar_newline : isModeChar '\n' = false := rfl

/-- In front of a blank of such a line there are no ten letters of a mode. -/
theorem QuietWords.exists_other : ∀ {words : List (List Char)}, QuietWords words →
    ∀ {front mode behind : List Char},
      [' '].intercalate words = (front ++ mode) ++ ' ' :: behind → mode.length = 10 →
      ∃ c ∈ mode, isModeChar c = false := by
  intro words
  induction words with
  | nil =>
      intro _ front mode behind heq _
      simp at heq
  | cons word rest ih =>
      intro h front mode behind heq hlength
      obtain ⟨hblank, -⟩ := h.1 word List.mem_cons_self
      cases rest with
      | nil =>
          rw [List.intercalate_singleton] at heq
          exact absurd (heq ▸ List.mem_append_right _ List.mem_cons_self) hblank
      | cons next rest =>
          have hquiet : QuietWord word := h.2 word List.mem_cons_self
          have hrest : QuietWords (next :: rest) :=
            ⟨fun w hw => h.1 w (List.mem_cons_of_mem _ hw),
              fun w hw => h.2 w (List.mem_cons_of_mem _ hw)⟩
          rw [List.intercalate_cons_cons, List.append_assoc, List.singleton_append] at heq
          rcases List.append_eq_append_iff.1 heq with ⟨x, hx, hx'⟩ | ⟨x, hx, hx'⟩
          · cases x with
            | nil => exact hquiet front mode (by simpa using hx.symm) hlength
            | cons y x =>
                obtain ⟨rfl, htail⟩ := List.cons.inj hx'
                have hrestEq : [' '].intercalate (next :: rest) = x ++ ' ' :: behind := htail
                -- the letters stand behind this blank, or it is one of them
                rw [← List.singleton_append, ← List.append_assoc] at hx
                rcases List.append_eq_append_iff.1 hx with ⟨z, hz, hz'⟩ | ⟨z, hz, hz'⟩
                · rcases List.eq_nil_or_concat z with rfl | ⟨z, last, rfl⟩
                  · have hfirst : [' '].intercalate (next :: rest) =
                        ([] ++ mode) ++ ' ' :: behind := by rw [hrestEq, hz']; rfl
                    exact ih hrest hfirst hlength
                  · refine ⟨' ', ?_, isModeChar_blank⟩
                    rw [hz']
                    have hlast : last = ' ' := by
                      have := congrArg List.getLast? hz
                      simpa using this.symm
                    simp [hlast]
                · exact ih hrest (by rw [hrestEq, hz']) hlength
          · cases x with
            | nil => exact hquiet front mode (by simpa using hx) hlength
            | cons y x =>
                obtain ⟨rfl, -⟩ := List.cons.inj hx'
                exact absurd (hx ▸ List.mem_append_right _ List.mem_cons_self) hblank

theorem matchFront_eq_none_of_quiet {words : List (List Char)} (h : QuietWords words)
    (rest : List Char) {a b : List Char} (hab : [' '].intercalate words = a ++ b) :
    matchFront (yaffsRegex digit) (b ++ '\n' :: rest) = none := by
  rw [matchFront_eq_none]
  intro w rest' c htext hmatch
  obtain ⟨mode, w', rfl, hlength, hall⟩ := exists_mode_of_matches hmatch
  rw [List.append_assoc] at htext
  rcases List.append_eq_append_iff.1 htext with ⟨x, hx, hx'⟩ | ⟨x, hx, hx'⟩
  · cases x with
    | nil => cases (List.cons.inj hx').1
    | cons y x =>
        obtain ⟨rfl, -⟩ := List.cons.inj hx'
        have hmem : '\n' ∈ mode := hx ▸ List.mem_append_right _ List.mem_cons_self
        cases isModeChar_newline.symm.trans (hall _ hmem)
  · cases x with
    | nil => cases (List.cons.inj hx').1
    | cons y x =>
        obtain ⟨rfl, -⟩ := List.cons.inj hx'
        rw [hx, ← List.append_assoc] at hab
        obtain ⟨d, hd, hother⟩ := h.exists_other hab hlength
        cases hother.symm.trans (hall d hd)

theorem matchFront_newline (rest : List Char) :
    matchFront (yaffsRegex digit) ('\n' :: rest) = none := by
  rw [matchFront_eq_none]
  intro w rest' c htext hmatch
  obtain ⟨mode, w', rfl, hlength, hall⟩ := exists_mode_of_matches hmatch
  obtain ⟨x, more, rfl⟩ := List.exists_cons_of_ne_nil
    (List.ne_nil_of_length_pos (by omega : 0 < mode.length))
  obtain ⟨rfl, -⟩ := List.cons.inj htext
  cases isModeChar_newline.symm.trans (hall _ List.mem_cons_self)

theorem finditer_newline (rest : List Char) :
    finditer (yaffsRegex digit) ('\n' :: rest) = finditer (yaffsRegex digit) rest := by
  rw [finditer, finditerFrom, matchFront_newline]
  rfl

theorem quietWord_of_length {word : List Char} (h : word.length < 10) : QuietWord word := by
  intro front mode heq hlength
  have := congrArg List.length heq
  rw [List.length_append] at this
  omega

/-- A word of ten letters of which the first is not one of a mode. -/
theorem quietWord_of_first {word : List Char} {c : Char} {rest : List Char}
    (hword : word = c :: rest) (hlength : word.length = 10) (hc : isModeChar c = false) :
    QuietWord word := by
  intro front mode heq hmode
  have hfront : front = [] := by
    have := congrArg List.length heq
    rw [List.length_append] at this
    exact List.length_eq_zero_iff.1 (by omega)
  rw [hfront, List.nil_append, hword] at heq
  exact ⟨c, heq ▸ List.mem_cons_self, hc⟩

theorem isModeChar_digit {c : Char} (h : c.isDigit = true ∨ c = ',') : isModeChar c = false := by
  rcases h with h | rfl
  · by_contra hne
    have htrue : isModeChar c = true := Bool.not_eq_false _ ▸ hne
    have hmem : c ∈ "rwxtTsSl?-".toList := List.elem_iff.1 htrue
    have hall : "rwxtTsSl?-".toList.all (fun x => !x.isDigit) = true := by decide
    have hc := List.all_eq_true.1 hall c hmem
    rw [h] at hc
    cases hc
  · rfl

theorem isDigit_digitAt (k n : ℕ) : (digitAt k n).isDigit = true := by
  have hall : ∀ m < 10, (Nat.digitChar m).isDigit = true := by decide
  exact hall _ (Nat.mod_lt _ (by decide))

/-- The lines of directories and devices are skipped. The size of a device consists of two
numbers. -/
theorem quietWords_directory {mode : ℕ} (hkind : mode / 4096 ∈ [0o6, 0o4, 0o2, 0o1])
    {sizes : List (List Char)} (hsizes : ∀ word ∈ sizes, ∀ c ∈ word, c.isDigit = true ∨ c = ',')
    (stamp : Stamp) {path : List Char} (hblank : ' ' ∉ path) (hline : '\n' ∉ path) :
    QuietWords ([filemode mode] ++ sizes ++ [stamp.date, stamp.time] ++ [path]) := by
  have hletters : ∀ row ∈ filemodeTable,
      ('-' :: row.map Prod.snd).all (fun c => c != ' ' && c != '\n') = true := by
    decide
  have hmode : ∀ c ∈ filemode mode, c ≠ ' ' ∧ c ≠ '\n' := by
    intro c hc
    obtain ⟨row, hrow, rfl⟩ := List.mem_map.1 hc
    simpa using List.all_eq_true.1 (hletters row hrow) _ (letter_mem mode row)
  have hdigits : ∀ c : Char, c.isDigit = true ∨ c = ',' → c ≠ ' ' ∧ c ≠ '\n' := by
    intro c hc
    constructor <;> rintro rfl <;> revert hc <;> decide
  have hstamp : ∀ word ∈ [stamp.date, stamp.time], ∀ c ∈ word, c ≠ ' ' ∧ c ≠ '\n' := by
    have hdigit : ∀ k n, digitAt k n ≠ ' ' ∧ digitAt k n ≠ '\n' :=
      fun k n => hdigits _ (.inl (isDigit_digitAt k n))
    simp [Stamp.date, Stamp.time, hdigit]
  refine ⟨fun word hword => ?_, fun word hword => ?_⟩
  · have hall : (∀ c ∈ word, c ≠ ' ' ∧ c ≠ '\n') ∨ word = path := by
      rcases List.mem_append.1 hword with hword | hword
      · rcases List.mem_append.1 hword with hword | hword
        · rcases List.mem_append.1 hword with hword | hword
          · exact .inl (List.mem_singleton.1 hword ▸ hmode)
          · exact .inl fun c hc => hdigits c (hsizes word hword c hc)
        · exact .inl (hstamp word hword)
      · exact .inr (List.mem_singleton.1 hword)
    rcases hall with hall | rfl
    · exact ⟨fun hmem => (hall _ hmem).1 rfl, fun hmem => (hall _ hmem).2 rfl⟩
    · exact ⟨hblank, hline⟩
  · rw [List.dropLast_concat] at hword
    rcases List.mem_append.1 hword with hword | hword
    · rcases List.mem_append.1 hword with hword | hword
      · have hkinds : ∀ k ∈ [0o6, 0o4, 0o2, 0o1],
            isModeChar (letter (k * 4096) filemodeTable.head!) = false ∧ k < 16 := by
          decide
        obtain ⟨hfirst, hlt⟩ := hkinds _ hkind
        rw [← letter_kind hlt (by decide)] at hfirst
        rw [List.mem_singleton.1 hword]
        exact quietWord_of_first rfl (length_filemode mode) hfirst
      · intro front letters heq hlength
        obtain ⟨c, more, rfl⟩ := List.exists_cons_of_ne_nil
          (List.ne_nil_of_length_pos (by omega : 0 < letters.length))
        have hmem : c ∈ word := heq ▸ List.mem_append_right _ List.mem_cons_self
        exact ⟨c, List.mem_cons_self, isModeChar_digit (hsizes word hword c hmem)⟩
    · rcases List.mem_cons.1 hword with rfl | hword
      · exact quietWord_of_first rfl rfl (isModeChar_digit (.inl (isDigit_digitAt 3 stamp.year)))
      · rw [List.mem_singleton.1 hword]
        exact quietWord_of_length (by simp [Stamp.time])

/-! ## The records of a listing -/

/-- The groups of the match of a file. -/
def File.groups (file : File) : Captures Char :=
  [(3, file.path ++ file.arrow), (2, file.stamp.text), (1, filemode file.mode)]

/-- The matches of a listing are those of its files. -/
theorem finditer_listing (hdigit : ∀ c : Char, c.toNat < 128 → digit c = c.isDigit)
    {lines : List Line} (h : ∀ line ∈ lines, line.WellFormed) :
    finditer (yaffsRegex digit) (listing lines) = (lines.filterMap Line.file?).map File.groups := by
  induction lines with
  | nil => rfl
  | cons line rest ih =>
      have hrest := ih fun l hl => h l (List.mem_cons_of_mem _ hl)
      have hcons : listing (line :: rest) = line.text ++ '\n' :: listing rest := by
        simp [listing]
      rw [hcons]
      cases line with
      | file f =>
          have hf : f.WellFormed := h (.file f) List.mem_cons_self
          have hne : f.line ≠ [] := by
            intro hnil
            have hlength := congrArg List.length hnil
            simp [File.line, length_filemode] at hlength
          have hfront := finditer_of_matchFront (matchFront_line hdigit hf (listing rest)) hne
          rw [finditer_newline, hrest] at hfront
          exact hfront
      | words ws =>
          have hquiet : QuietWords ws := h (.words ws) List.mem_cons_self
          have hskip : finditer (yaffsRegex digit) ([' '].intercalate ws ++ '\n' :: listing rest) =
              finditer (yaffsRegex digit) ('\n' :: listing rest) :=
            finditer_of_no_match fun a b hab _ =>
              matchFront_eq_none_of_quiet hquiet (listing rest) hab
          rw [finditer_newline, hrest] at hskip
          exact hskip

/-- The record of a match. -/
theorem metadataOfMatch_groups {file : File} (h : file.WellFormed) :
    metadataOfMatch timestamp file.groups = (timestamp file.stamp.text).map file.metadata := by
  have hkind : file.mode / 4096 ∈ kinds := List.mem_of_mem_take (i := 3) h.kind
  have hmode : filemodeStrToInt (groupText file.groups 1) = file.mode :=
    filemodeStrToInt_filemode hkind
  have hpath : pathOf (groupText file.groups 3) = file.path := h.pathOf_path
  have hdate : groupText file.groups 2 = file.stamp.text := rfl
  have hsuid : fileModeContainsBit (oct file.mode) suidBit = file.mode.testBit 11 :=
    fileModeContainsBit_oct file.mode 11
  have hsgid : fileModeContainsBit (oct file.mode) sgidBit = file.mode.testBit 10 :=
    fileModeContainsBit_oct file.mode 10
  have hsticky : fileModeContainsBit (oct file.mode) stickyBit = file.mode.testBit 9 :=
    fileModeContainsBit_oct file.mode 9
  rw [metadataOfMatch, hmode, hpath, hdate]
  simp only [h.pathName_path, hsuid, hsgid, hsticky]
  cases timestamp file.stamp.text with
  | error e => rfl
  | ok t => rfl

/-- The day of the listing. -/
def sampleStamp (hour minute : ℕ) : Stamp := ⟨2014, 7, 19, hour, minute⟩

/-- A program with the SUID bit. -/
def busybox : File where
  mode := 0o104755
  blanks := 1
  size := 1906904
  stamp := sampleStamp 3 18
  directories := ["bin".toList]
  name := "busybox".toList
  target := none

/-- A link to it. -/
def ifconfig : File where
  mode := 0o120777
  blanks := 7
  size := 0
  stamp := sampleStamp 1 28
  directories := ["sbin".toList]
  name := "ifconfig".toList
  target := some "../bin/busybox".toList

/-- A message, a device, a program and a link. -/
def sampleLines : List Line :=
  [.words (["no", "bad", "block", "info."].map String.toList),
    .words ([filemode 0o020662] ++ ["", "", "5,", "", "", "0"].map String.toList ++
      [(sampleStamp 1 28).date, (sampleStamp 1 28).time] ++ ["dev/tty".toList]),
    .file busybox, .file ifconfig]

example : String.ofList (listing sampleLines) = "no bad block info.
crw-rw--w-   5,   0 2014-07-19 01:28 dev/tty
-rwsr-xr-x  1906904 2014-07-19 03:18 bin/busybox
lrwxrwxrwx        0 2014-07-19 01:28 sbin/ifconfig -> ../bin/busybox
" := by
  decide +kernel

theorem wellFormed_sampleLines : ∀ line ∈ sampleLines, line.WellFormed := by
  have hsizes : ∀ word ∈ ["", "", "5,", "", "", "0"].map String.toList,
      ∀ c ∈ word, c.isDigit = true ∨ c = ',' := by
    have hall : (["", "", "5,", "", "", "0"].map String.toList).all
        (fun word => word.all fun c => c.isDigit || c == ',') = true := by decide
    intro word hword c hc
    simpa using List.all_eq_true.1 (List.all_eq_true.1 hall word hword) c hc
  intro line hline
  simp only [sampleLines, List.mem_cons, List.not_mem_nil, or_false] at hline
  rcases hline with rfl | rfl | rfl | rfl
  · refine ⟨by decide, fun word hword => quietWord_of_length ?_⟩
    revert word
    decide
  · exact quietWords_directory (by decide) hsizes (sampleStamp 1 28) (by decide) (by decide)
  · exact ⟨by decide, by decide, by decide, by decide, fun h => by cases h⟩
  · exact ⟨by decide, by decide, by decide, by decide, fun _ => by decide +kernel⟩

end FactCore.FileSystemMetadata
