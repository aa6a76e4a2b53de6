import Mathlib.Data.List.Basic
import Mathlib.Tactic.SplitIfs

/-! # Base64

`b64decode` without validation: bytes outside the alphabet are skipped, and decoding
ends where padding completes a group of four characters. `Decodable` says which texts
are decoded.
-/

namespace Base64

/-- The padding. -/
def pad : UInt8 := 0x3D

/-- The value of a character of the alphabet. -/
def sextet (b : UInt8) : Option Nat :=
  if 0x41 ≤ b ∧ b ≤ 0x5A then some (b.toNat - 0x41)
  else if 0x61 ≤ b ∧ b ≤ 0x7A then some (b.toNat - 0x61 + 26)
  else if 0x30 ≤ b ∧ b ≤ 0x39 then some (b.toNat - 0x30 + 52)
  else if b = 0x2B then some 62
  else if b = 0x2F then some 63
  else none

/-- `binascii.Error`: one character too many, or the padding is missing. -/
inductive Error where
  | dataCharacters (n : Nat)
  | incorrectPadding
deriving DecidableEq, Repr

/-- The position in a group of four, the bits that are left of the last character, the
padding behind it, and what was decoded. -/
structure State where
  quadPos : Nat
  leftChar : Nat
  pads : Nat
  data : List UInt8

/-- The state after a character of the alphabet. -/
def State.push (st : State) (value : Nat) : State :=
  match st.quadPos with
  | 0 => ⟨1, value, 0, st.data⟩
  | 1 => ⟨2, value % 16, 0, st.data ++ [UInt8.ofNat (st.leftChar * 4 + value / 16)]⟩
  | 2 => ⟨3, value % 4, 0, st.data ++ [UInt8.ofNat (st.leftChar * 16 + value / 4)]⟩
  | _ => ⟨0, 0, 0, st.data ++ [UInt8.ofNat (st.leftChar * 64 + value)]⟩

/-- What is returned at the end of the text. -/
def State.finish (st : State) : Except Error (List UInt8) :=
  if st.quadPos = 0 then .ok st.data
  else if st.quadPos = 1 then .error (.dataCharacters (st.data.length / 3 * 4 + 1))
  else .error .incorrectPadding

/-- The loop over the characters. -/
def decodeFrom (st : State) : List UInt8 → Except Error (List UInt8)
  | [] => st.finish
  | b :: rest =>
      if b = pad then
        if 2 ≤ st.quadPos then
          if 4 ≤ st.quadPos + (st.pads + 1) then .ok st.data
          else decodeFrom { st with pads := st.pads + 1 } rest
        else decodeFrom st rest
      else match sextet b with
        | some value => decodeFrom (st.push value) rest
        | none => decodeFrom st rest

/-- `b64decode`. -/
def decode (text : List UInt8) : Except Error (List UInt8) := decodeFrom ⟨0, 0, 0, []⟩ text

/-! ## What is decoded -/

/-- The number of characters of the alphabet. -/
def dataCount (text : List UInt8) : Nat := text.countP fun b => (sextet b).isSome

/-- The text has whole groups of four characters, or at some place two or three
characters of a group are left and the padding that completes it follows. -/
def Decodable (text : List UInt8) : Prop :=
  dataCount text % 4 = 0 ∨ ∃ front mid behind, text = front ++ mid ++ behind ∧ dataCount mid = 0 ∧
    2 ≤ dataCount front % 4 ∧ 4 ≤ dataCount front % 4 + mid.count pad

/-- The same behind a part of the text. -/
def DecodableFrom (quadPos pads : Nat) (text : List UInt8) : Prop :=
  (quadPos + dataCount text) % 4 = 0 ∨ ∃ front mid behind, text = front ++ mid ++ behind ∧
    dataCount mid = 0 ∧ 2 ≤ (quadPos + dataCount front) % 4 ∧
    4 ≤ (quadPos + dataCount front) % 4 + mid.count pad + if dataCount front = 0 then pads else 0

/-- No padding behind less than two characters, and not as much as completes the group. -/
def State.Open (st : State) : Prop :=
  st.quadPos < 4 ∧ (st.quadPos < 2 → st.pads = 0) ∧ (2 ≤ st.quadPos → st.quadPos + st.pads < 4)

variable {st : State} {b : UInt8} {rest text : List UInt8} {q p : Nat}

theorem sextet_pad : sextet pad = none := by decide

@[simp] theorem dataCount_nil : dataCount [] = 0 := rfl

theorem dataCount_cons_of_some {value : Nat} (h : sextet b = some value) :
    dataCount (b :: rest) = dataCount rest + 1 := by
  rw [dataCount, List.countP_cons_of_pos (by simp [h])]
  rfl

theorem dataCount_cons_of_none (h : sextet b = none) : dataCount (b :: rest) = dataCount rest := by
  rw [dataCount, List.countP_cons_of_neg (by simp [h])]
  rfl

theorem dataCount_append (text rest : List UInt8) :
    dataCount (text ++ rest) = dataCount text + dataCount rest :=
  List.countP_append

theorem State.quadPos_push (h : st.Open) (value : Nat) :
    (st.push value).quadPos = (st.quadPos + 1) % 4 ∧ (st.push value).pads = 0 := by
  have hlt := h.1
  unfold State.push
  split
  next h0 => simp [h0]
  next h1 => simp [h1]
  next h2 => simp [h2]
  next h0 h1 h2 =>
    have h0' : st.quadPos ≠ 0 := h0
    have h1' : st.quadPos ≠ 1 := h1
    have h2' : st.quadPos ≠ 2 := h2
    have h3 : st.quadPos = 3 := by omega
    simp [h3]

theorem State.open_push (h : st.Open) (value : Nat) : (st.push value).Open := by
  rcases State.quadPos_push h value with ⟨hq, hp⟩
  refine ⟨by omega, fun _ => hp, fun _ => by omega⟩

/-! ## One character

How the condition for a text depends on its first character.
-/

/-- Without a completed group in front, the part before the padding is not empty or the
padding starts at once. -/
theorem decodableFrom_nil (hq : q < 4) (hp : 2 ≤ q → q + p < 4) : DecodableFrom q p [] ↔ q = 0 := by
  constructor
  · rintro (h | ⟨front, mid, behind, htext, -, h2, h4⟩)
    · rw [dataCount_nil] at h
      omega
    · rcases List.append_eq_nil_iff.1 htext.symm with ⟨hfm, -⟩
      rcases List.append_eq_nil_iff.1 hfm with ⟨rfl, rfl⟩
      simp only [dataCount_nil, List.count_nil, if_pos] at h2 h4
      omega
  · rintro rfl
    exact .inl rfl

/-- A character of the alphabet. -/
theorem decodableFrom_cons_data {value : Nat} (hb : sextet b = some value) (hq : q < 4)
    (hp : 2 ≤ q → q + p < 4) : DecodableFrom q p (b :: rest) ↔ DecodableFrom ((q + 1) % 4) 0 rest := by
  unfold DecodableFrom
  rw [dataCount_cons_of_some hb]
  apply or_congr
  · omega
  constructor
  · rintro ⟨front, mid, behind, htext, hmid, h2, h4⟩
    cases front with
    | nil =>
        -- the group cannot be complete before this character
        cases mid with
        | nil =>
            simp only [dataCount_nil, List.count_nil, if_pos] at h2 h4
            omega
        | cons x mid =>
            obtain ⟨rfl, -⟩ := List.cons.inj htext
            rw [dataCount_cons_of_some hb] at hmid
            omega
    | cons x front =>
        obtain ⟨rfl, rfl⟩ := List.cons.inj htext
        rw [dataCount_cons_of_some hb] at h2 h4
        rw [if_neg (by omega)] at h4
        refine ⟨front, mid, behind, rfl, hmid, by omega, ?_⟩
        split <;> omega
  · rintro ⟨front, mid, behind, rfl, hmid, h2, h4⟩
    refine ⟨b :: front, mid, behind, rfl, hmid, ?_, ?_⟩
    · rw [dataCount_cons_of_some hb]
      omega
    · rw [dataCount_cons_of_some hb, if_neg (by omega)]
      split at h4 <;> omega

/-- A character that is skipped. -/
theorem decodableFrom_cons_skip (hb : sextet b = none) (hpad : b ≠ pad) (hp : 2 ≤ q → q + p < 4)
    (hq : q < 4) : DecodableFrom q p (b :: rest) ↔ DecodableFrom q p rest := by
  unfold DecodableFrom
  rw [dataCount_cons_of_none hb]
  apply or_congr Iff.rfl
  constructor
  · rintro ⟨front, mid, behind, htext, hmid, h2, h4⟩
    cases front with
    | nil =>
        cases mid with
        | nil =>
            simp only [dataCount_nil, List.count_nil, if_pos] at h2 h4
            omega
        | cons x mid =>
            obtain ⟨rfl, rfl⟩ := List.cons.inj htext
            rw [dataCount_cons_of_none hb] at hmid
            rw [List.count_cons_of_ne hpad] at h4
            exact ⟨[], mid, behind, rfl, hmid, h2, h4⟩
    | cons x front =>
        obtain ⟨rfl, rfl⟩ := List.cons.inj htext
        rw [dataCount_cons_of_none hb] at h2 h4
        exact ⟨front, mid, behind, rfl, hmid, h2, h4⟩
  · rintro ⟨front, mid, behind, rfl, hmid, h2, h4⟩
    refine ⟨b :: front, mid, behind, rfl, hmid, ?_, ?_⟩
    · rwa [dataCount_cons_of_none hb]
    · rwa [dataCount_cons_of_none hb]

/-- Padding behind less than two characters of a group is skipped, too. -/
theorem decodableFrom_cons_pad_of_lt (hq : q < 2) :
    DecodableFrom q p (pad :: rest) ↔ DecodableFrom q p rest := by
  unfold DecodableFrom
  rw [dataCount_cons_of_none sextet_pad]
  apply or_congr Iff.rfl
  constructor
  · rintro ⟨front, mid, behind, htext, hmid, h2, h4⟩
    cases front with
    | nil =>
        rw [dataCount_nil] at h2
        omega
    | cons x front =>
        obtain ⟨rfl, rfl⟩ := List.cons.inj htext
        rw [dataCount_cons_of_none sextet_pad] at h2 h4
        exact ⟨front, mid, behind, rfl, hmid, h2, h4⟩
  · rintro ⟨front, mid, behind, rfl, hmid, h2, h4⟩
    refine ⟨pad :: front, mid, behind, rfl, hmid, ?_, ?_⟩
    · rwa [dataCount_cons_of_none sextet_pad]
    · rwa [dataCount_cons_of_none sextet_pad]

/-- Otherwise it counts. -/
theorem decodableFrom_cons_pad (h2q : 2 ≤ q) (hq : q < 4) (hp : q + p < 4) :
    DecodableFrom q p (pad :: rest) ↔ 4 ≤ q + (p + 1) ∨ DecodableFrom q (p + 1) rest := by
  unfold DecodableFrom
  rw [dataCount_cons_of_none sextet_pad]
  constructor
  · rintro (h | ⟨front, mid, behind, htext, hmid, h2, h4⟩)
    · exact .inr (.inl h)
    cases front with
    | nil =>
        cases mid with
        | nil =>
            simp only [dataCount_nil, List.count_nil, if_pos] at h2 h4
            omega
        | cons x mid =>
            obtain ⟨rfl, rfl⟩ := List.cons.inj htext
            rw [dataCount_cons_of_none sextet_pad] at hmid
            rw [List.count_cons_self] at h4
            refine .inr (.inr ⟨[], mid, behind, rfl, hmid, h2, ?_⟩)
            simp only [dataCount_nil, if_pos] at h4 ⊢
            omega
    | cons x front =>
        obtain ⟨rfl, rfl⟩ := List.cons.inj htext
        rw [dataCount_cons_of_none sextet_pad] at h2 h4
        refine .inr (.inr ⟨front, mid, behind, rfl, hmid, h2, ?_⟩)
        split at h4
        next h0 =>
          rw [if_pos h0]
          omega
        next h0 => rwa [if_neg h0]
  · rintro (h | h | ⟨front, mid, behind, rfl, hmid, h2, h4⟩)
    · -- this is the padding that completes the group
      refine .inr ⟨[], [pad], rest, rfl, dataCount_cons_of_none sextet_pad, ?_, ?_⟩
      · rw [dataCount_nil]
        omega
      · rw [dataCount_nil, if_pos rfl, List.count_singleton_self]
        omega
    · exact .inl h
    · by_cases hfront : dataCount front = 0
      · -- the padding belongs to the part behind the last character
        have hzero : dataCount (pad :: (front ++ mid)) = 0 := by
          rw [dataCount_cons_of_none sextet_pad, dataCount_append, hfront, hmid]
        refine .inr ⟨[], pad :: (front ++ mid), behind, rfl, hzero, ?_, ?_⟩
        · rw [dataCount_nil]
          omega
        · rw [if_pos hfront, hfront] at h4
          rw [dataCount_nil, if_pos rfl, List.count_cons_self, List.count_append]
          omega
      · rw [if_neg hfront] at h4
        refine .inr ⟨pad :: front, mid, behind, rfl, hmid, ?_, ?_⟩
        · rwa [dataCount_cons_of_none sextet_pad]
        · rwa [dataCount_cons_of_none sextet_pad, if_neg hfront]

/-! ## The whole text -/

theorem finish_ok_iff : (∃ data, st.finish = .ok data) ↔ st.quadPos = 0 := by
  unfold State.finish
  split
  next h => exact iff_of_true ⟨st.data, rfl⟩ h
  next h =>
    apply iff_of_false _ h
    rintro ⟨data, hdata⟩
    split at hdata <;> cases hdata

/-- The loop returns exactly on the texts that are decodable from its state on. -/
theorem decodeFrom_ok_iff (h : st.Open) :
    (∃ data, decodeFrom st text = .ok data) ↔ DecodableFrom st.quadPos st.pads text := by
  induction text generalizing st with
  | nil =>
      rw [decodableFrom_nil h.1 h.2.2]
      exact finish_ok_iff
  | cons b rest ih =>
      rw [decodeFrom]
      by_cases hpad : b = pad
      · subst hpad
        rw [if_pos rfl]
        by_cases h2 : 2 ≤ st.quadPos
        · rw [if_pos h2, decodableFrom_cons_pad h2 h.1 (h.2.2 h2)]
          by_cases h4 : 4 ≤ st.quadPos + (st.pads + 1)
          · rw [if_pos h4]
            exact iff_of_true ⟨st.data, rfl⟩ (.inl h4)
          · have hopen : State.Open { st with pads := st.pads + 1 } :=
              ⟨h.1, fun hlt => absurd hlt (Nat.not_lt.2 h2), fun _ => Nat.not_le.1 h4⟩
            rw [if_neg h4, ih hopen, or_iff_right h4]
        · rw [if_neg h2, ih h, decodableFrom_cons_pad_of_lt (by omega)]
      · rw [if_neg hpad]
        cases hb : sextet b with
        | some value =>
            rcases State.quadPos_push h value with ⟨hq, hp⟩
            rw [decodableFrom_cons_data hb h.1 h.2.2, ← hq, ← hp]
            exact ih (State.open_push h value)
        | none =>
            rw [decodableFrom_cons_skip hb hpad h.2.2 h.1]
            exact ih h

/-- `b64decode` returns exactly on the decodable texts. -/
theorem decode_ok_iff : (∃ data, decode text = .ok data) ↔ Decodable text := by
  have hopen : State.Open ⟨0, 0, 0, []⟩ := ⟨by decide, fun _ => rfl, fun h => absurd h (by decide)⟩
  rw [decode, decodeFrom_ok_iff hopen]
  simp only [DecodableFrom, Decodable, Nat.zero_add, ite_self, Nat.add_zero]

/-- A text of the alphabet whose padding completes the last group. -/
theorem decodable_of_padded {data : List UInt8} {n : Nat} (h2 : 2 ≤ dataCount data % 4)
    (hn : 4 ≤ dataCount data % 4 + n) : Decodable (data ++ List.replicate n pad) := by
  refine .inr ⟨data, List.replicate n pad, [], by simp, ?_, h2, by simpa using hn⟩
  rw [dataCount, List.countP_replicate, sextet_pad]
  rfl

example : (decode [0x54, 0x57, 0x46, 0x75, 0x54, 0x51, 0x3D, 0x3D]).toOption =
    some [0x4D, 0x61, 0x6E, 0x4D] := by decide +kernel

/-! ## Encoding -/

/-- The character for six bits. -/
def alphabet (value : Nat) : UInt8 :=
  if value < 26 then UInt8.ofNat (value + 0x41)
  else if value < 52 then UInt8.ofNat (value - 26 + 0x61)
  else if value < 62 then UInt8.ofNat (value - 52 + 0x30)
  else if value = 62 then 0x2B
  else 0x2F

/-- `b64encode`. -/
def encode : List UInt8 → List UInt8
  | a :: b :: c :: rest =>
      alphabet (a.toNat / 4) :: alphabet (a.toNat % 4 * 16 + b.toNat / 16) ::
        alphabet (b.toNat % 16 * 4 + c.toNat / 64) :: alphabet (c.toNat % 64) :: encode rest
  | [a, b] =>
      [alphabet (a.toNat / 4), alphabet (a.toNat % 4 * 16 + b.toNat / 16),
        alphabet (b.toNat % 16 * 4), pad]
  | [a] => [alphabet (a.toNat / 4), alphabet (a.toNat % 4 * 16), pad, pad]
  | [] => []

theorem sextet_alphabet {value : Nat} (h : value < 64) :
    sextet (alphabet value) = some value ∧ alphabet value ≠ pad := by
  have hall : ∀ v : Fin 64, sextet (alphabet v) = some (v : Nat) ∧ alphabet v ≠ pad := by
    decide
  exact hall ⟨value, h⟩

theorem decodeFrom_alphabet {value : Nat} (h : value < 64) (st : State) (rest : List UInt8) :
    decodeFrom st (alphabet value :: rest) = decodeFrom (st.push value) rest := by
  obtain ⟨hsextet, hpad⟩ := sextet_alphabet h
  rw [decodeFrom, if_neg hpad, hsextet]

theorem decodeFrom_pad_three {left : Nat} {front : List UInt8} :
    decodeFrom ⟨3, left, 0, front⟩ [pad] = .ok front := rfl

theorem decodeFrom_pad_two {left : Nat} {front : List UInt8} :
    decodeFrom ⟨2, left, 0, front⟩ [pad, pad] = .ok front := rfl

/-- What was encoded is decoded, behind what was decoded before. -/
theorem decodeFrom_encode (data front : List UInt8) :
    decodeFrom ⟨0, 0, 0, front⟩ (encode data) = .ok (front ++ data) := by
  -- the bits of a byte are taken apart and put together again
  have hfirst : ∀ (a : UInt8) (n : Nat), n < 16 →
      UInt8.ofNat (a.toNat / 4 * 4 + (a.toNat % 4 * 16 + n) / 16) = a := by
    intro a n hn
    rw [show a.toNat / 4 * 4 + (a.toNat % 4 * 16 + n) / 16 = a.toNat by omega, UInt8.ofNat_toNat]
  have hsecond : ∀ (x : Nat) (b : UInt8) (n : Nat), n < 4 →
      UInt8.ofNat ((x * 16 + b.toNat / 16) % 16 * 16 + (b.toNat % 16 * 4 + n) / 4) = b := by
    intro x b n hn
    have hb := b.toNat_lt
    rw [show (x * 16 + b.toNat / 16) % 16 * 16 + (b.toNat % 16 * 4 + n) / 4 = b.toNat by omega,
      UInt8.ofNat_toNat]
  have hthird : ∀ (y : Nat) (c : UInt8),
      UInt8.ofNat ((y * 4 + c.toNat / 64) % 4 * 64 + c.toNat % 64) = c := by
    intro y c
    have hc := c.toNat_lt
    rw [show (y * 4 + c.toNat / 64) % 4 * 64 + c.toNat % 64 = c.toNat by omega,
      UInt8.ofNat_toNat]
  induction data using encode.induct generalizing front with
  | case1 a b c rest ih =>
      have ha := a.toNat_lt
      have hb := b.toNat_lt
      have hc := c.toNat_lt
      rw [encode, decodeFrom_alphabet (by omega), decodeFrom_alphabet (by omega),
        decodeFrom_alphabet (by omega), decodeFrom_alphabet (by omega)]
      simp only [State.push, hfirst a _ (show b.toNat / 16 < 16 by omega),
        hsecond _ b _ (show c.toNat / 64 < 4 by omega), hthird]
      rw [ih]
      simp
  | case2 a b =>
      have ha := a.toNat_lt
      have hb := b.toNat_lt
      have hlast := hsecond (a.toNat % 4) b 0 (by omega)
      rw [Nat.add_zero] at hlast
      rw [encode, decodeFrom_alphabet (by omega), decodeFrom_alphabet (by omega),
        decodeFrom_alphabet (by omega)]
      simp only [State.push, hfirst a _ (show b.toNat / 16 < 16 by omega), hlast]
      rw [decodeFrom_pad_three, List.append_assoc]
      rfl
  | case3 a =>
      have ha := a.toNat_lt
      have hlast := hfirst a 0 (by omega)
      rw [Nat.add_zero] at hlast
      rw [encode, decodeFrom_alphabet (by omega), decodeFrom_alphabet (by omega)]
      simp only [State.push, hlast]
      rw [decodeFrom_pad_two]
  | case4 => simp [encode, decodeFrom, State.finish]

/-- The round trip. -/
theorem decode_encode (data : List UInt8) : decode (encode data) = .ok data :=
  decodeFrom_encode data []

end Base64
