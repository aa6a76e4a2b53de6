import Mathlib.Data.List.Basic
import Mathlib.Tactic.SplitIfs

/-! # Texts that need not be well formed

The strings of a scripting language are sequences of code points in which lone
surrogates may occur. Such a text has no UTF-8 form. This file has the two
conversions that never fail, because they put a replacement for what cannot be
converted: encoding replaces a surrogate by a question mark, decoding replaces
each maximal piece of an ill-formed sequence by U+FFFD.
-/

/-- A text: its code points. -/
abbrev Text := List Nat

namespace Text

/-- Half of a surrogate pair. -/
def IsSurrogate (c : Nat) : Prop := 0xD800 ≤ c ∧ c ≤ 0xDFFF

instance (c : Nat) : Decidable (IsSurrogate c) := inferInstanceAs (Decidable (_ ∧ _))

/-- A text that has a UTF-8 form. -/
def Encodable (t : Text) : Prop := ∀ c ∈ t, ¬ IsSurrogate c

instance (t : Text) : Decidable (Encodable t) := inferInstanceAs (Decidable (∀ c ∈ t, ¬ IsSurrogate c))

/-- `t.encode(errors='replace').decode()`. -/
def encodeReplace (t : Text) : Text := t.map fun c => if IsSurrogate c then 0x3F else c

/-! ## Decoding -/

/-- The bytes that may follow the first byte `b` of a sequence. Sequences that
are longer than necessary, surrogates and values over 0x10FFFF are excluded here. -/
def MayFollow (b c : Nat) : Prop :=
  (if b = 0xE0 then 0xA0 else if b = 0xF0 then 0x90 else 0x80) ≤ c ∧
  c ≤ (if b = 0xED then 0x9F else if b = 0xF4 then 0x8F else 0xBF)

instance (b c : Nat) : Decidable (MayFollow b c) := inferInstanceAs (Decidable (_ ∧ _))

/-- A byte that continues a sequence. -/
def IsContinuation (c : Nat) : Prop := 0x80 ≤ c ∧ c ≤ 0xBF

instance (c : Nat) : Decidable (IsContinuation c) := inferInstanceAs (Decidable (_ ∧ _))

/-- `bytes.decode(errors='replace')`. -/
def decodeReplace : List Nat → Text
  | [] => []
  | b :: rest =>
      if b < 0x80 then b :: decodeReplace rest
      else if 0xC2 ≤ b ∧ b ≤ 0xDF then
        match rest with
        | c :: rest =>
            if IsContinuation c then ((b - 0xC0) * 64 + (c - 0x80)) :: decodeReplace rest
            else 0xFFFD :: decodeReplace (c :: rest)
        | [] => [0xFFFD]
      else if 0xE0 ≤ b ∧ b ≤ 0xEF then
        match rest with
        | c :: d :: rest =>
            if ¬ MayFollow b c then 0xFFFD :: decodeReplace (c :: d :: rest)
            else if ¬ IsContinuation d then 0xFFFD :: decodeReplace (d :: rest)
            else ((b - 0xE0) * 4096 + (c - 0x80) * 64 + (d - 0x80)) :: decodeReplace rest
        | [c] => if MayFollow b c then [0xFFFD] else 0xFFFD :: decodeReplace [c]
        | [] => [0xFFFD]
      else if 0xF0 ≤ b ∧ b ≤ 0xF4 then
        match rest with
        | c :: d :: e :: rest =>
            if ¬ MayFollow b c then 0xFFFD :: decodeReplace (c :: d :: e :: rest)
            else if ¬ IsContinuation d then 0xFFFD :: decodeReplace (d :: e :: rest)
            else if ¬ IsContinuation e then 0xFFFD :: decodeReplace (e :: rest)
            else ((b - 0xF0) * 262144 + (c - 0x80) * 4096 + (d - 0x80) * 64 + (e - 0x80)) ::
              decodeReplace rest
        | [c, d] =>
            if ¬ MayFollow b c then 0xFFFD :: decodeReplace [c, d]
            else if ¬ IsContinuation d then 0xFFFD :: decodeReplace [d]
            else [0xFFFD]
        | [c] => if MayFollow b c then [0xFFFD] else 0xFFFD :: decodeReplace [c]
        | [] => [0xFFFD]
      else 0xFFFD :: decodeReplace rest

example : decodeReplace [0x61, 0xC3, 0xA9, 0xE2, 0x82, 0xFF, 0xED, 0xA0, 0x80, 0] =
    [0x61, 0xE9, 0xFFFD, 0xFFFD, 0xFFFD, 0xFFFD, 0xFFFD, 0] := by decide

/-! ## What the conversions leave -/

variable {t : Text} {bytes : List Nat}

theorem encodable_encodeReplace : Encodable (encodeReplace t) := by
  intro c hc
  obtain ⟨c', -, rfl⟩ := List.mem_map.1 hc
  split
  · decide
  · assumption

theorem encodeReplace_of_encodable (h : Encodable t) : encodeReplace t = t := by
  have hid : t.map (fun c => if IsSurrogate c then 0x3F else c) = t.map id :=
    List.map_congr_left fun c hc => if_neg (h c hc)
  rw [encodeReplace, hid, List.map_id]

theorem zero_mem_encodeReplace : 0 ∈ encodeReplace t ↔ 0 ∈ t := by
  simp only [encodeReplace, List.mem_map]
  constructor
  · rintro ⟨c, hc, heq⟩
    split at heq
    · omega
    · rwa [← heq]
  · intro h
    exact ⟨0, h, by decide⟩

/-- The value of a sequence of two bytes. -/
theorem scalar_of_pair {b c : Nat} (hb : 0xC2 ≤ b ∧ b ≤ 0xDF) (hc : IsContinuation c) :
    0 < (b - 0xC0) * 64 + (c - 0x80) ∧ ¬ IsSurrogate ((b - 0xC0) * 64 + (c - 0x80)) := by
  unfold IsContinuation at hc
  unfold IsSurrogate
  omega

theorem scalar_of_triple {b c d : Nat} (hb : 0xE0 ≤ b ∧ b ≤ 0xEF) (hc : MayFollow b c)
    (hd : IsContinuation d) :
    0 < (b - 0xE0) * 4096 + (c - 0x80) * 64 + (d - 0x80) ∧
      ¬ IsSurrogate ((b - 0xE0) * 4096 + (c - 0x80) * 64 + (d - 0x80)) := by
  unfold MayFollow at hc
  unfold IsContinuation at hd
  unfold IsSurrogate
  split_ifs at hc <;> omega

theorem scalar_of_quad {b c d e : Nat} (hb : 0xF0 ≤ b ∧ b ≤ 0xF4) (hc : MayFollow b c) :
    0 < (b - 0xF0) * 262144 + (c - 0x80) * 4096 + (d - 0x80) * 64 + (e - 0x80) ∧
      ¬ IsSurrogate ((b - 0xF0) * 262144 + (c - 0x80) * 4096 + (d - 0x80) * 64 + (e - 0x80)) := by
  unfold MayFollow at hc
  unfold IsSurrogate
  split_ifs at hc <;> omega

/-- What is decoded: bytes of the input below 0x80, and scalar values other than zero. -/
theorem mem_decodeReplace {x : Nat} (h : x ∈ decodeReplace bytes) :
    (x ∈ bytes ∧ x < 0x80) ∨ (0 < x ∧ ¬ IsSurrogate x) := by
  have hreplacement : 0 < 0xFFFD ∧ ¬ IsSurrogate 0xFFFD := by decide
  fun_induction decodeReplace bytes
  all_goals simp only [List.mem_cons, List.not_mem_nil, or_false] at *
  all_goals grind [scalar_of_pair, scalar_of_triple, scalar_of_quad]

theorem encodable_decodeReplace : Encodable (decodeReplace bytes) := by
  intro x hx
  rcases mem_decodeReplace hx with ⟨-, hlt⟩ | ⟨-, hscalar⟩
  · unfold IsSurrogate
    omega
  · exact hscalar

/-- Only a null byte is decoded to the null character. -/
theorem zero_mem_decodeReplace : 0 ∈ decodeReplace bytes ↔ 0 ∈ bytes := by
  constructor
  · intro h
    rcases mem_decodeReplace h with ⟨hmem, -⟩ | ⟨hpos, -⟩
    · exact hmem
    · omega
  · intro h
    fun_induction decodeReplace bytes
    all_goals simp only [List.mem_cons, List.not_mem_nil, or_false, IsContinuation, MayFollow] at *
    all_goals grind

/-- ASCII is decoded as it is. -/
theorem decodeReplace_of_ascii (h : ∀ b ∈ bytes, b < 0x80) : decodeReplace bytes = bytes := by
  induction bytes with
  | nil => rfl
  | cons b bytes ih =>
      have hb : b < 0x80 := h b List.mem_cons_self
      have hrest := ih fun b' hb' => h b' (List.mem_cons_of_mem b hb')
      simp only [decodeReplace.eq_def (b :: bytes), if_pos hb, hrest]

/-- The text of a literal. -/
def ofString (s : String) : Text := s.toList.map Char.toNat

/-- `t.encode()` of a text without surrogates. -/
def encode (t : Text) : List UInt8 := (String.ofList (t.map Char.ofNat)).toUTF8.toList

end Text
