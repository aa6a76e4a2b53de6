import Mathlib.Data.String.Basic
import FactCore.Lib.Loop
import FactCore.Lib.Runs
import FactCore.Lib.Text

/-! # Printable strings

`plugins/analysis/strings/code/strings.py`: the strings of a file are searched with one regular
expression for each encoding. It is shown that they are the maximal strings that are
long enough, each one with its offset.
-/

open Regex

namespace FactCore.PrintableStrings

/-! ## The search -/

/-- The encodings of `STRING_REGEXES`. -/
inductive Encoding where
  | utf8
  | utf16
deriving DecidableEq

/-- `[\x09-\x0d\x20-\x7e]`. -/
def isPrintable (b : UInt8) : Bool := (0x09 ≤ b && b ≤ 0x0d) || (0x20 ≤ b && b ≤ 0x7e)

/-- What is repeated in an expression of `STRING_REGEXES`. -/
def unitRegex : Encoding → Regex UInt8
  | .utf8 => cls isPrintable
  | .utf16 => cls isPrintable ++ cls (· == 0)

/-- `STRING_REGEXES`, with the length put in. -/
def stringRegex (encoding : Encoding) (minLength : ℕ) : Regex UInt8 :=
  atLeast (unitRegex encoding) minLength

inductive Exc where
  | unicodeDecodeError
deriving DecidableEq

/-- The two bytes of a code unit. -/
def codeUnits (unit : UInt8 → UInt8 → ℕ) : List UInt8 → Except Exc (List ℕ)
  | [] => .ok []
  | [_] => .error .unicodeDecodeError
  | b :: b' :: rest => do return unit b b' :: (← codeUnits unit rest)

/-- The surrogates of UTF-16 are joined. -/
def joinSurrogates : List ℕ → Except Exc Text
  | [] => .ok []
  | [c] => if Text.IsSurrogate c then .error .unicodeDecodeError else .ok [c]
  | c :: c' :: rest =>
      if ¬Text.IsSurrogate c then do return c :: (← joinSurrogates (c' :: rest))
      else if c < 0xDC00 ∧ 0xDC00 ≤ c' ∧ c' ≤ 0xDFFF then do
        return (0x10000 + (c - 0xD800) * 0x400 + (c' - 0xDC00)) :: (← joinSurrogates rest)
      else .error .unicodeDecodeError

/-- `bytes.decode(encoding)`. UTF-16 without a mark for the order of the bytes is read in the
order of the machine, the low byte first. -/
def decode : Encoding → List UInt8 → Except Exc Text
  | .utf8, bytes =>
      match bytes.toByteArray.utf8Decode? with
      | some chars => .ok (chars.toList.map Char.toNat)
      | none => .error .unicodeDecodeError
  | .utf16, 0xFF :: 0xFE :: bytes =>
      (codeUnits (fun b b' => b.toNat + 0x100 * b'.toNat) bytes).bind joinSurrogates
  | .utf16, 0xFE :: 0xFF :: bytes =>
      (codeUnits (fun b b' => 0x100 * b.toNat + b'.toNat) bytes).bind joinSurrogates
  | .utf16, bytes =>
      (codeUnits (fun b b' => b.toNat + 0x100 * b'.toNat) bytes).bind joinSurrogates

/-- `_match_with_offset`. -/
def matchWithOffset (minLength : ℕ) (source : List UInt8) (encoding : Encoding) :
    Except Exc (List (ℕ × Text)) :=
  (spans (stringRegex encoding minLength) source).mapM fun m =>
    (decode encoding m.2).map fun string => (m.1, string)

/-- `_find_all_strings_and_offsets`. -/
def findAllStringsAndOffsets (minLength : ℕ) (source : List UInt8) :
    Except Exc (List (ℕ × Text)) := do
  return (← [Encoding.utf8, Encoding.utf16].mapM (matchWithOffset minLength source)).flatten

/-- `StringMatch`. -/
structure StringMatch (Score : Type) where
  string : Text
  offset : ℕ
  relevance : Score

/-- `min_length` of `_compile_regexes`; the option may be missing in the configuration. -/
def minLength (config : Option ℕ) : ℕ := config.getD 8

section

variable {Score : Type} (calculateRelevanceScore : Text → Score)

/-- `analyze`; the heuristics for the relevance of a string are a parameter. -/
def analyze (config : Option ℕ) (source : List UInt8) : Except Exc (List (StringMatch Score)) :=
  (findAllStringsAndOffsets (minLength config) source).map fun found =>
    found.map fun m => ⟨m.2, m.1, calculateRelevanceScore m.2⟩

end

/-! ## What a string of a file is -/

/-- `\x09-\x0d\x20-\x7e`. -/
def PrintableChar (c : ℕ) : Prop := (0x09 ≤ c ∧ c ≤ 0x0d) ∨ (0x20 ≤ c ∧ c ≤ 0x7e)

/-- The bytes of a printable character. -/
def encodeChar : Encoding → ℕ → List UInt8
  | .utf8, c => [UInt8.ofNat c]
  | .utf16, c => [UInt8.ofNat c, 0]

def encode (encoding : Encoding) (string : Text) : List UInt8 :=
  string.flatMap (encodeChar encoding)

/-- The text is printable, it is long enough, and it stands at the offset between bytes that do
not belong to it. -/
structure IsString (encoding : Encoding) (minLength : ℕ) (source : List UInt8) (offset : ℕ)
    (string : Text) : Prop where
  printable : ∀ c ∈ string, PrintableChar c
  length : minLength ≤ string.length
  stands : ∃ before after, source = before ++ (encode encoding string ++ after) ∧
    offset = before.length ∧ ∀ c, PrintableChar c →
      ¬encodeChar encoding c <:+ before ∧ ¬encodeChar encoding c <+: after

/-! ## Units -/

/-- The bytes of one printable character. -/
def IsUnit (encoding : Encoding) (u : List UInt8) : Prop :=
  ∃ c, PrintableChar c ∧ u = encodeChar encoding c

theorem isPrintable_iff {b : UInt8} : isPrintable b = true ↔ PrintableChar b.toNat := by
  simp [isPrintable, PrintableChar, UInt8.le_iff_toNat_le]

theorem isPrintable_ofNat {c : ℕ} (hc : PrintableChar c) : isPrintable (UInt8.ofNat c) = true := by
  have hlt : c < 256 := by
    unfold PrintableChar at hc
    omega
  rw [isPrintable_iff, UInt8.toNat_ofNat', Nat.mod_eq_of_lt hlt]
  exact hc

/-- A printable byte is a printable character. -/
theorem exists_printableChar {b : UInt8} (hb : isPrintable b = true) :
    ∃ c, PrintableChar c ∧ UInt8.ofNat c = b :=
  ⟨b.toNat, isPrintable_iff.1 hb, UInt8.ofNat_toNat⟩

theorem units (encoding : Encoding) : Units (unitRegex encoding) (IsUnit encoding) := by
  refine ⟨?_, ?_, ⟨fun b => isPrintable b = true, ?_⟩⟩
  · rintro groups u rest ⟨c, hc, rfl⟩
    cases encoding with
    | utf8 => simp [unitRegex, encodeChar, runs, isPrintable_ofNat hc]
    | utf16 =>
        show ((runs (cls isPrintable) _).flatMap (runs (cls (· == 0)))) = _
        simp [encodeChar, runs, isPrintable_ofNat hc]
  · intro groups s hs
    cases encoding with
    | utf8 =>
        cases s with
        | nil => rfl
        | cons b rest =>
            have hb : ¬isPrintable b = true := by
              intro hb
              obtain ⟨c, hc, rfl⟩ := exists_printableChar hb
              exact hs _ ⟨c, hc, rfl⟩ ⟨rest, rfl⟩
            simp [unitRegex, runs, hb]
    | utf16 =>
        show ((runs (cls isPrintable) _).flatMap (runs (cls (· == 0)))) = _
        cases s with
        | nil => rfl
        | cons b rest =>
            cases rest with
            | nil => by_cases hb : isPrintable b = true <;> simp [runs, hb]
            | cons b' rest =>
                have hb : ¬(isPrintable b = true ∧ b' = 0) := by
                  rintro ⟨hb, rfl⟩
                  obtain ⟨c, hc, rfl⟩ := exists_printableChar hb
                  exact hs _ ⟨c, hc, rfl⟩ ⟨rest, rfl⟩
                by_cases hfirst : isPrintable b = true <;> simp_all [runs]
  · rintro u ⟨c, hc, rfl⟩
    cases encoding with
    | utf8 => exact ⟨_, [], rfl, isPrintable_ofNat hc, by simp⟩
    | utf16 =>
        refine ⟨_, [0], rfl, isPrintable_ofNat hc, ?_⟩
        intro y hy
        rw [List.mem_singleton.1 hy]
        decide

/-- The runs of units are the printable texts. -/
theorem exists_units_iff {encoding : Encoding} {n : ℕ} {w : List UInt8} :
    (∃ us : List (List UInt8), (∀ u ∈ us, IsUnit encoding u) ∧ n ≤ us.length ∧ w = us.flatten) ↔
      ∃ string : Text, (∀ c ∈ string, PrintableChar c) ∧ n ≤ string.length ∧
        w = encode encoding string := by
  constructor
  · rintro ⟨us, hus, hle, rfl⟩
    obtain ⟨string, hprintable, rfl⟩ : ∃ string : Text, (∀ c ∈ string, PrintableChar c) ∧
        us = string.map (encodeChar encoding) := by
      clear hle
      induction us with
      | nil => exact ⟨[], by simp, rfl⟩
      | cons u us ih =>
          obtain ⟨c, hc, rfl⟩ := hus u List.mem_cons_self
          obtain ⟨string, hprintable, rfl⟩ := ih fun u' hu' => hus u' (List.mem_cons_of_mem _ hu')
          exact ⟨c :: string, by simpa using ⟨hc, hprintable⟩, rfl⟩
    exact ⟨string, hprintable, by simpa using hle, (List.flatMap_def).symm⟩
  · rintro ⟨string, hprintable, hle, rfl⟩
    refine ⟨string.map (encodeChar encoding), ?_, by simpa using hle, List.flatMap_def⟩
    intro u hu
    obtain ⟨c, hc, rfl⟩ := List.mem_map.1 hu
    exact ⟨c, hprintable c hc, rfl⟩

/-! ## Decoding -/

/-- The characters of ASCII. -/
theorem ascii_char : ∀ c < 128, (Char.ofNat c).toNat = c ∧
    String.utf8EncodeChar (Char.ofNat c) = [UInt8.ofNat c] := by
  decide +kernel

section

variable {string : Text}

theorem PrintableChar.lt {c : ℕ} (h : PrintableChar c) : c < 128 := by
  unfold PrintableChar at h
  omega

theorem decode_utf8 (h : ∀ c ∈ string, PrintableChar c) :
    decode .utf8 (encode .utf8 string) = .ok string := by
  have hbytes : encode .utf8 string =
      (string.map Char.ofNat).flatMap String.utf8EncodeChar := by
    rw [encode, List.flatMap_map]
    exact List.flatMap_congr fun c hc => (ascii_char c (h c hc).lt).2.symm
  have hback : (string.map Char.ofNat).map Char.toNat = string := by
    rw [List.map_map]
    refine (List.map_congr_left fun c hc => ?_).trans (List.map_id string)
    exact (ascii_char c (h c hc).lt).1
  have hdecode : (encode .utf8 string).toByteArray.utf8Decode? =
      some (string.map Char.ofNat).toArray := by
    rw [hbytes]
    exact List.utf8Decode?_utf8Encode
  rw [decode, hdecode]
  simp [hback]

theorem codeUnits_encode (h : ∀ c ∈ string, PrintableChar c) :
    codeUnits (fun b b' => b.toNat + 0x100 * b'.toNat) (encode .utf16 string) = .ok string := by
  induction string with
  | nil => rfl
  | cons c string ih =>
      have hc : (UInt8.ofNat c).toNat = c := by
        rw [UInt8.toNat_ofNat', Nat.mod_eq_of_lt]
        have hlt := (h c List.mem_cons_self).lt
        omega
      have hrest := ih fun c' hc' => h c' (List.mem_cons_of_mem _ hc')
      show codeUnits _ (UInt8.ofNat c :: 0 :: encode .utf16 string) = _
      rw [codeUnits, hrest, hc]
      rfl

theorem joinSurrogates_of_printable (h : ∀ c ∈ string, PrintableChar c) :
    joinSurrogates string = .ok string := by
  induction string with
  | nil => rfl
  | cons c string ih =>
      have hc : ¬Text.IsSurrogate c := by
        have hlt := (h c List.mem_cons_self).lt
        unfold Text.IsSurrogate
        omega
      have hrest := ih fun c' hc' => h c' (List.mem_cons_of_mem _ hc')
      cases string with
      | nil => rw [joinSurrogates, if_neg hc]
      | cons c' string =>
          rw [joinSurrogates, if_pos hc, hrest]
          rfl

theorem decode_utf16 (h : ∀ c ∈ string, PrintableChar c) :
    decode .utf16 (encode .utf16 string) = .ok string := by
  have hplain : decode .utf16 (encode .utf16 string) =
      (codeUnits (fun b b' => b.toNat + 0x100 * b'.toNat) (encode .utf16 string)).bind
        joinSurrogates := by
    cases string with
    | nil => rfl
    | cons c string =>
        -- a printable character is no mark for the order of the bytes
        have hlt : (UInt8.ofNat c).toNat < 128 := by
          have hlt := (h c List.mem_cons_self).lt
          rw [UInt8.toNat_ofNat', Nat.mod_eq_of_lt] <;> omega
        have hbytes : encode .utf16 (c :: string) =
            UInt8.ofNat c :: 0 :: encode .utf16 string := rfl
        rw [hbytes, decode]
        · rintro bytes hbom
          obtain ⟨hfirst, -⟩ := List.cons.inj hbom
          rw [hfirst] at hlt
          exact absurd hlt (by decide)
        · rintro bytes hbom
          obtain ⟨hfirst, -⟩ := List.cons.inj hbom
          rw [hfirst] at hlt
          exact absurd hlt (by decide)
  rw [hplain, codeUnits_encode h]
  exact joinSurrogates_of_printable h

theorem decode_encode (encoding : Encoding) (h : ∀ c ∈ string, PrintableChar c) :
    decode encoding (encode encoding string) = .ok string := by
  cases encoding with
  | utf8 => exact decode_utf8 h
  | utf16 => exact decode_utf16 h

end

/-! ## The strings that are found -/

section

variable {source : List UInt8} {n : ℕ} {encoding : Encoding}

/-- The matches of an expression are the strings in its encoding. -/
theorem mem_spans_iff (hn : 0 < n) {offset : ℕ} {w : List UInt8} :
    (offset, w) ∈ spans (stringRegex encoding n) source ↔
      ∃ string, IsString encoding n source offset string ∧ w = encode encoding string := by
  rw [stringRegex, (units encoding).mem_spans hn]
  constructor
  · rintro ⟨before, after, hsource, hoffset, hrun⟩
    obtain ⟨string, hprintable, hle, rfl⟩ := exists_units_iff.1 hrun.units
    refine ⟨string, ⟨hprintable, hle, before, after, hsource, hoffset, ?_⟩, rfl⟩
    exact fun c hc => ⟨hrun.left _ ⟨c, hc, rfl⟩, hrun.right _ ⟨c, hc, rfl⟩⟩
  · rintro ⟨string, ⟨hprintable, hle, before, after, hsource, hoffset, hends⟩, rfl⟩
    refine ⟨before, after, hsource, hoffset, exists_units_iff.2 ⟨string, hprintable, hle, rfl⟩,
      ?_, ?_⟩
    · rintro u ⟨c, hc, rfl⟩
      exact (hends c hc).1
    · rintro u ⟨c, hc, rfl⟩
      exact (hends c hc).2

variable (source encoding) in
/-- The search for one encoding does not raise, and finds the strings in their order. -/
theorem exists_matchWithOffset (hn : 0 < n) :
    ∃ found, matchWithOffset n source encoding = .ok found ∧
      (∀ m, m ∈ found ↔ IsString encoding n source m.1 m.2) ∧
      found.Pairwise fun a b => a.1 + (encode encoding a.2).length ≤ b.1 := by
  have hdecode : ∀ {offset string}, IsString encoding n source offset string →
      (decode encoding (encode encoding string)).map (fun string => (offset, string)) =
        .ok (offset, string) := by
    intro offset string hstring
    rw [decode_encode encoding hstring.printable]
    rfl
  obtain ⟨found, hok, hspans⟩ : ∃ found, matchWithOffset n source encoding = .ok found ∧
      (found.map fun m => (m.1, encode encoding m.2)) =
        (spans (stringRegex encoding n) source).map id := by
    refine Loop.mapM_keyed_iff.2 ?_
    rintro ⟨offset, w⟩ hspan
    obtain ⟨string, hstring, rfl⟩ := (mem_spans_iff hn).1 hspan
    exact ⟨(offset, string), hdecode hstring, rfl⟩
  refine ⟨found, hok, ?_, ?_⟩
  · rintro ⟨offset, string⟩
    rw [Loop.mem_of_mapM_ok hok]
    constructor
    · rintro ⟨⟨offset', w⟩, hspan, hresult⟩
      obtain ⟨string', hstring, rfl⟩ := (mem_spans_iff hn).1 hspan
      obtain ⟨rfl, rfl⟩ := Prod.mk.inj (Except.ok.inj ((hdecode hstring).symm.trans hresult))
      exact hstring
    · intro hstring
      exact ⟨(offset, encode encoding string), (mem_spans_iff hn).2 ⟨string, hstring, rfl⟩,
        hdecode hstring⟩
  · have hpairs : (found.map fun m => (m.1, encode encoding m.2)).Pairwise
        fun a b => a.1 + a.2.length ≤ b.1 := by
      rw [hspans, List.map_id]
      exact pairwise_spans
    exact List.pairwise_map.1 hpairs

end

/-- The entries for one encoding. -/
structure Lists {Score : Type} (calculateRelevanceScore : Text → Score) (encoding : Encoding)
    (minLength : ℕ) (source : List UInt8) (entries : List (StringMatch Score)) : Prop where
  mem : ∀ entry, entry ∈ entries ↔ IsString encoding minLength source entry.offset entry.string ∧
    entry.relevance = calculateRelevanceScore entry.string
  ordered : entries.Pairwise fun a b => a.offset + (encode encoding a.string).length ≤ b.offset

section

variable {Score : Type} (calculateRelevanceScore : Text → Score)

/-- The result of a search as entries. -/
theorem lists_map {source : List UInt8} {n : ℕ} {encoding : Encoding} {found : List (ℕ × Text)}
    (hmem : ∀ m, m ∈ found ↔ IsString encoding n source m.1 m.2)
    (hordered : found.Pairwise fun a b => a.1 + (encode encoding a.2).length ≤ b.1) :
    Lists calculateRelevanceScore encoding n source
      (found.map fun m => ⟨m.2, m.1, calculateRelevanceScore m.2⟩) := by
  refine ⟨fun entry => ?_, List.pairwise_map.2 hordered⟩
  rw [List.mem_map]
  constructor
  · rintro ⟨m, hm, rfl⟩
    exact ⟨(hmem m).1 hm, rfl⟩
  · rintro ⟨hstring, hrelevance⟩
    refine ⟨(entry.offset, entry.string), (hmem _).2 hstring, ?_⟩
    cases entry
    simp_all

/-- The result of the analysis are all strings of the file, first those in UTF-8 and then those
in UTF-16, and nothing raises. -/
theorem analyze_lists {config : Option ℕ} (h : 0 < minLength config) (source : List UInt8) :
    ∃ narrow wide, analyze calculateRelevanceScore config source = .ok (narrow ++ wide) ∧
      Lists calculateRelevanceScore .utf8 (minLength config) source narrow ∧
      Lists calculateRelevanceScore .utf16 (minLength config) source wide := by
  obtain ⟨narrow, hnarrow, hmem, hordered⟩ := exists_matchWithOffset source .utf8 h
  obtain ⟨wide, hwide, hmem', hordered'⟩ := exists_matchWithOffset source .utf16 h
  refine ⟨_, _, ?_, lists_map _ hmem hordered, lists_map _ hmem' hordered'⟩
  have hall : [Encoding.utf8, Encoding.utf16].mapM (matchWithOffset (minLength config) source) =
      .ok [narrow, wide] := by
    rw [Loop.mapM_ok_iff, List.map_cons, List.map_cons, hnarrow, hwide]
    rfl
  rw [analyze, findAllStringsAndOffsets, hall, ← List.map_append]
  simp [bind, Except.bind, pure, Except.pure, Except.map]

end

/-- `ab`, and `cd` in UTF-16. -/
theorem analyze_sample : ∃ narrow wide,
    analyze List.length (some 2) [0x61, 0x62, 0xff, 0x63, 0, 0x64, 0] = .ok (narrow ++ wide) ∧
      Lists List.length .utf8 2 [0x61, 0x62, 0xff, 0x63, 0, 0x64, 0] narrow ∧
      Lists List.length .utf16 2 [0x61, 0x62, 0xff, 0x63, 0, 0x64, 0] wide :=
  analyze_lists List.length (show 0 < minLength (some 2) by decide) _

end FactCore.PrintableStrings
