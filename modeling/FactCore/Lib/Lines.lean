import Mathlib.Data.List.DropRight
import Mathlib.Data.List.TakeWhile
import Mathlib.Data.String.Basic

/-! # ASCII text in lines

`bytes.decode('ascii', errors='ignore')`, `str.splitlines` and `str.strip`, as
far as ASCII characters are concerned.
-/

namespace Lines

/-- `str.isspace` for an ASCII character. -/
def isSpace (c : Char) : Bool := c == ' ' || (9 ≤ c.toNat && c.toNat ≤ 13) || (28 ≤ c.toNat && c.toNat ≤ 31)

/-- An ASCII character that ends a line for `str.splitlines`. -/
def isLineBreak (c : Char) : Bool := (10 ≤ c.toNat && c.toNat ≤ 13) || (28 ≤ c.toNat && c.toNat ≤ 30)

/-- `b.decode('ascii', errors='ignore')` -/
def decodeAscii (b : List UInt8) : List Char := (b.filter (· < 128)).map fun b => Char.ofNat b.toNat

/-- `s.encode('ascii')` -/
def encodeAscii (s : List Char) : List UInt8 := s.map fun c => UInt8.ofNat c.toNat

/-- `str.splitlines`, after the beginning of a line was read. -/
def linesFrom : List Char → List Char → List (List Char)
  | line, [] => if line = [] then [] else [line]
  | line, '\r' :: '\n' :: rest => line :: linesFrom [] rest
  | line, c :: rest => if isLineBreak c then line :: linesFrom [] rest else linesFrom (line ++ [c]) rest

/-- `str.splitlines` -/
def splitLines (s : List Char) : List (List Char) := linesFrom [] s

/-- `str.strip` -/
def strip (s : List Char) : List Char := (s.dropWhile isSpace).rdropWhile isSpace

variable {s : List Char}

/-! ## Bytes and characters -/

@[simp] theorem decodeAscii_nil : decodeAscii [] = [] := rfl

theorem decodeAscii_append (a b : List UInt8) :
    decodeAscii (a ++ b) = decodeAscii a ++ decodeAscii b := by
  simp [decodeAscii]

theorem decodeAscii_intercalate (sep : List UInt8) (parts : List (List UInt8)) :
    decodeAscii (sep.intercalate parts) = (decodeAscii sep).intercalate (parts.map decodeAscii) := by
  induction parts with
  | nil => rfl
  | cons part parts ih =>
      cases parts with
      | nil => simp
      | cons part' parts =>
          rw [List.intercalate_cons_cons, decodeAscii_append, decodeAscii_append, ih]
          simp [List.intercalate_cons_cons]

theorem decodeAscii_encodeAscii (h : ∀ c ∈ s, c.toNat < 128) : decodeAscii (encodeAscii s) = s := by
  induction s with
  | nil => rfl
  | cons c s ih =>
      obtain ⟨hc, hs⟩ := List.forall_mem_cons.1 h
      have hnat : (UInt8.ofNat c.toNat).toNat = c.toNat := by
        rw [UInt8.toNat_ofNat']
        omega
      have hascii : UInt8.ofNat c.toNat < 128 := by
        rw [UInt8.lt_iff_toNat_lt, hnat]
        exact hc
      have hsplit : decodeAscii (encodeAscii (c :: s)) =
          Char.ofNat (UInt8.ofNat c.toNat).toNat :: decodeAscii (encodeAscii s) := by
        simp [decodeAscii, encodeAscii, hascii]
      rw [hsplit, hnat, Char.ofNat_toNat, ih hs]

/-! ## Lines -/

/-- A line that is followed by a line break. -/
theorem linesFrom_append {line tail rest : List Char} (h : ∀ c ∈ tail, isLineBreak c = false) :
    linesFrom line (tail ++ '\n' :: rest) = (line ++ tail) :: linesFrom [] rest := by
  induction tail generalizing line with
  | nil =>
      rw [List.append_nil, List.nil_append]
      rfl
  | cons c tail ih =>
      obtain ⟨hc, htail⟩ := List.forall_mem_cons.1 h
      have hreturn : c ≠ '\r' := by
        rintro rfl
        cases hc
      rw [List.cons_append, linesFrom, hc]
      · rw [if_neg Bool.false_ne_true, ih htail]
        simp
      · intro rest' hcr
        exact absurd hcr hreturn

/-- The last line. -/
theorem linesFrom_of_no_break {line tail : List Char} (h : ∀ c ∈ tail, isLineBreak c = false) :
    linesFrom line tail = if line ++ tail = [] then [] else [line ++ tail] := by
  induction tail generalizing line with
  | nil =>
      rw [List.append_nil]
      rfl
  | cons c tail ih =>
      obtain ⟨hc, htail⟩ := List.forall_mem_cons.1 h
      have hreturn : c ≠ '\r' := by
        rintro rfl
        cases hc
      rw [linesFrom, hc]
      · rw [if_neg Bool.false_ne_true, ih htail]
        simp
      · intro rest' hcr
        exact absurd hcr hreturn

/-- A loop over the lines that ignores empty ones finds the lines that were
joined. -/
theorem foldl_splitLines {σ : Type} {step : σ → List Char → σ} (hempty : ∀ s, step s [] = s)
    {lines : List (List Char)} (h : ∀ line ∈ lines, ∀ c ∈ line, isLineBreak c = false) (s : σ) :
    (splitLines (['\n'].intercalate lines)).foldl step s = lines.foldl step s := by
  induction lines generalizing s with
  | nil => rfl
  | cons line lines ih =>
      obtain ⟨hline, hlines⟩ := List.forall_mem_cons.1 h
      cases lines with
      | nil =>
          rw [List.intercalate_singleton, splitLines, linesFrom_of_no_break hline, List.nil_append]
          by_cases hnil : line = []
          · rw [if_pos hnil, hnil]
            exact (hempty s).symm
          · rw [if_neg hnil]
      | cons line' lines =>
          have hjoin : ['\n'].intercalate (line :: line' :: lines) =
              line ++ '\n' :: ['\n'].intercalate (line' :: lines) := by
            rw [List.intercalate_cons_cons]
            simp
          rw [hjoin, splitLines, linesFrom_append hline, List.nil_append, List.foldl_cons, List.foldl_cons]
          exact ih hlines (step s line)

/-! ## Blanks around a text -/

/-- The text does not begin or end with a blank. -/
def Trimmed (s : List Char) : Prop :=
  (∀ c ∈ s.head?, isSpace c = false) ∧ ∀ c ∈ s.getLast?, isSpace c = false

theorem dropWhile_of_trimmed (h : Trimmed s) : s.dropWhile isSpace = s := by
  cases s with
  | nil => rfl
  | cons c s =>
      have hc : isSpace c = false := h.1 c rfl
      rw [List.dropWhile_cons_of_neg (by rw [hc]; exact Bool.false_ne_true)]

theorem strip_of_trimmed (h : Trimmed s) : strip s = s := by
  rw [strip, dropWhile_of_trimmed h, List.rdropWhile_eq_self_iff]
  intro hne
  rw [h.2 _ (List.getLast?_eq_getLast_of_ne_nil hne)]
  exact Bool.false_ne_true

/-- A first character that is no blank stays. -/
theorem mem_strip_cons {c : Char} (hc : isSpace c = false) (s : List Char) : c ∈ strip (c :: s) := by
  have hdrop : (c :: s).dropWhile isSpace = c :: s :=
    List.dropWhile_cons_of_neg (by rw [hc]; exact Bool.false_ne_true)
  have hne : (c :: s).rdropWhile isSpace ≠ [] := by
    rw [Ne, List.rdropWhile_eq_nil_iff]
    intro hall
    exact absurd (hall c List.mem_cons_self) (by rw [hc]; exact Bool.false_ne_true)
  rw [strip, hdrop]
  obtain ⟨d, tail, htail⟩ := List.exists_cons_of_ne_nil hne
  have hstarts := List.rdropWhile_prefix isSpace (c :: s)
  rw [htail] at hstarts ⊢
  obtain ⟨rfl, -⟩ := List.cons_prefix_cons.1 hstarts
  exact List.mem_cons_self

/-- Blanks in front of a text are dropped. -/
theorem strip_append {blanks : List Char} (h : ∀ c ∈ blanks, isSpace c = true) (s : List Char) :
    strip (blanks ++ s) = strip s := by
  rw [strip, List.dropWhile_append_of_pos h, strip]

/-! ## Words -/

/-- `str.split()` -/
def words (s : List Char) : List (List Char) := (s.splitOnP isSpace).filter fun word => word ≠ []

theorem words_cons_of_isSpace {c : Char} (hc : isSpace c = true) (s : List Char) :
    words (c :: s) = words s := by
  rw [words, List.splitOnP_cons_eq_if_modifyHead, if_pos hc]
  rfl

/-- Blanks in front add no word. -/
theorem words_append_blanks {blanks : List Char} (h : ∀ c ∈ blanks, isSpace c = true) (s : List Char) :
    words (blanks ++ s) = words s := by
  induction blanks with
  | nil => rfl
  | cons c blanks ih =>
      rw [List.cons_append, words_cons_of_isSpace (h c List.mem_cons_self)]
      exact ih fun d hd => h d (List.mem_cons_of_mem c hd)

theorem words_ne_nil {c : Char} (hmem : c ∈ s) (hc : isSpace c = false) : words s ≠ [] := by
  induction s with
  | nil => exact absurd hmem List.not_mem_nil
  | cons d s ih =>
      by_cases hd : isSpace d = true
      · rw [words_cons_of_isSpace hd]
        apply ih
        rcases List.mem_cons.1 hmem with rfl | hmem
        · rw [hc] at hd
          cases hd
        · exact hmem
      · rw [words, List.splitOnP_cons_eq_if_modifyHead, if_neg hd]
        rcases List.exists_cons_of_ne_nil (List.splitOnP_ne_nil isSpace s) with ⟨first, more, hsplit⟩
        rw [hsplit, List.modifyHead_cons, List.filter_cons, if_pos (decide_eq_true (List.cons_ne_nil d first))]
        exact List.cons_ne_nil _ _

/-- A word at the front, up to a blank. -/
theorem words_append {word : List Char} (hne : word ≠ []) (hword : ∀ c ∈ word, isSpace c = false)
    {c : Char} (hc : isSpace c = true) (s : List Char) : words (word ++ c :: s) = word :: words s := by
  have hsplit : (word ++ c :: s).splitOnP isSpace = word :: s.splitOnP isSpace :=
    List.splitOnP_append_cons_of_forall_mem (by simpa using hword) c hc s
  rw [words, hsplit, List.filter_cons, if_pos (decide_eq_true hne)]
  rfl

/-! ## Lines of a text that is not ASCII -/

/-- A character that ends a line for `str.splitlines`. -/
def isLineBoundary (c : Char) : Bool :=
  isLineBreak c || c == Char.ofNat 0x85 || c == Char.ofNat 0x2028 || c == Char.ofNat 0x2029

/-- `str.isspace` of any character. -/
def isUnicodeSpace (c : Char) : Bool :=
  isSpace c || c.toNat == 0x85 || c.toNat == 0xa0 || c.toNat == 0x1680 ||
    (0x2000 ≤ c.toNat && c.toNat ≤ 0x200a) || c.toNat == 0x2028 || c.toNat == 0x2029 ||
    c.toNat == 0x202f || c.toNat == 0x205f || c.toNat == 0x3000

/-- `str.strip` of any text. -/
def stripUnicode (s : List Char) : List Char := (s.dropWhile isUnicodeSpace).rdropWhile isUnicodeSpace

/-- `str.splitlines` of any text, after the beginning of a line was read. -/
def unicodeLinesFrom : List Char → List Char → List (List Char)
  | line, [] => if line = [] then [] else [line]
  | line, '\r' :: '\n' :: rest => line :: unicodeLinesFrom [] rest
  | line, c :: rest =>
      if isLineBoundary c then line :: unicodeLinesFrom [] rest else unicodeLinesFrom (line ++ [c]) rest

/-- `str.splitlines` of any text. -/
def splitUnicodeLines (s : List Char) : List (List Char) := unicodeLinesFrom [] s

theorem unicodeLinesFrom_append {line tail rest : List Char}
    (h : ∀ c ∈ tail, isLineBoundary c = false) :
    unicodeLinesFrom line (tail ++ '\n' :: rest) = (line ++ tail) :: unicodeLinesFrom [] rest := by
  induction tail generalizing line with
  | nil =>
      rw [List.append_nil, List.nil_append]
      rfl
  | cons c tail ih =>
      obtain ⟨hc, htail⟩ := List.forall_mem_cons.1 h
      have hreturn : c ≠ '\r' := by
        rintro rfl
        cases hc
      rw [List.cons_append, unicodeLinesFrom, hc]
      · rw [if_neg Bool.false_ne_true, ih htail]
        simp
      · intro rest' hcr
        exact absurd hcr hreturn

/-- Lines that end with a line feed each are found again. -/
theorem splitUnicodeLines_flatMap {lines : List (List Char)}
    (h : ∀ line ∈ lines, ∀ c ∈ line, isLineBoundary c = false) :
    splitUnicodeLines (lines.flatMap fun line => line ++ ['\n']) = lines := by
  induction lines with
  | nil => rfl
  | cons line lines ih =>
      obtain ⟨hline, hlines⟩ := List.forall_mem_cons.1 h
      rw [List.flatMap_cons, List.append_assoc, List.singleton_append, splitUnicodeLines,
        unicodeLinesFrom_append hline, List.nil_append]
      exact congrArg (List.cons line) (ih hlines)

end Lines
