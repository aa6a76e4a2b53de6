import FactCore.Lib.Binary
import FactCore.Lib.Dict
import FactCore.Lib.Loop
import FactCore.Lib.Numbered

/-! # Arguments of format strings

`get_format_specifier_indices`, `get_format_types` and `filter_relevant_indices` of
`plugins/analysis/ipc/docker/ipc_analyzer/resolve_format_strings/format_strings.py`, and
`get_fstring_from_call` of `ipc_analyzer.py`: the values that a call puts into the part
of its format string that holds a key string, such as the version of a program.

The specifiers are numbered once among all `%` signs with a word character behind them
and once among those of a supported type, and the values of the format string argument
all count as format strings. `get_fstring_from_call_iff` says when the two numberings
and the arguments fit together.
-/

namespace FactCore.FormatStrings

open Numbered (Before)

abbrev Str := List Char

/-- `long` and `str`. -/
inductive Ty where
  | long
  | str
deriving DecidableEq

/-- A value that an argument can have: an address or a number that was not resolved, or
the string that stands there. -/
inductive Value where
  | long (n : ℤ)
  | str (s : Str)
deriving DecidableEq

inductive Exc where
  | attributeError
  | typeError
  | valueError
  | indexError
  | unboundLocalError
deriving DecidableEq

/-! ## The code -/

/-- `isinstance(arg, format_type)`. -/
def Value.isInstance : Value → Ty → Bool
  | long _, .long => true
  | str _, .str => true
  | _, _ => false

/-- `str(arg)`. -/
def Value.text : Value → Str
  | long n => (toString n).toList
  | str s => s

/-- `string.printable`: the printable characters and the whitespace. -/
def isPrintable (c : Char) : Bool :=
  (32 ≤ c.toNat && c.toNat ≤ 126) || (9 ≤ c.toNat && c.toNat ≤ 13)

def stringIsPrintable (string : Str) : Bool := string.all isPrintable

/-- `\w`. -/
def isWord (c : Char) : Bool := c.isAlphanum || c == '_'

/-- The matches of a `%` with a character of a class behind it, each with its offset and
this character. -/
def finditer (p : Char → Bool) : ℕ → Str → List (ℕ × Char)
  | _, [] => []
  | _, [_] => []
  | i, a :: c :: s =>
      if a = '%' ∧ p c = true then (i, c) :: finditer p (i + 2) s else finditer p (i + 1) (c :: s)

/-- `xs[i]`. -/
def item {α : Type} (xs : List α) (i : ℕ) : Except Exc α :=
  match xs[i]? with
  | some x => .ok x
  | none => .error .indexError

/-- `xs.index(x)`. -/
def index (xs : List ℕ) (x : ℕ) : Except Exc ℕ :=
  match xs.idxOf? x with
  | some i => .ok i
  | none => .error .valueError

/-- `get_format_specifier_indices`. -/
def getFormatSpecifierIndices (keyString : Str) (fullString : Value) : Except Exc (List ℕ) :=
  let keyIndices := (finditer isWord 0 keyString).map Prod.fst
  if keyIndices ≠ [] then
    match fullString with
    | .long _ => .error .attributeError
    | .str fullString =>
        match Binary.find keyString fullString with
        | none => .error .valueError
        | some offset =>
            -- the first occurrence of the key string counts
            let fullIndices := (finditer isWord 0 fullString).map Prod.fst
            (keyIndices.map fun i => i + offset).mapM fun x => index fullIndices x
  else .ok []

/-- The specifiers that Ghidra takes for a `long`. -/
def longSpecifiers : List Str :=
  [['%', 'd'], ['%', 'h', 'i'], ['%', 'h', 'u'], ['%', 'i'], ['%', 'l'], ['%', 'l', 'd'], ['%', 'l', 'i'],
    ['%', 'l', 'u'], ['%', 'l', 'l', 'i'], ['%', 'l', 'l', 'd'], ['%', 'l', 'l', 'u'], ['%', 'u']]

/-- The type of a specifier, if it is supported. -/
def formatType (formatSpecifier : Str) : Option Ty :=
  if formatSpecifier ∈ longSpecifiers then some .long
  else if formatSpecifier ∈ [['%', 's']] then some .str
  else none

/-- The types of the supported specifiers of a text. -/
def formatTypes (s : Str) : List Ty :=
  (finditer Char.isLower 0 s).filterMap fun m => formatType ['%', m.2]

/-- `get_format_types`. -/
def getFormatTypes (keyString : Value) : Except Exc (List Ty) :=
  match keyString with
  | .long _ => .error .typeError
  | .str s => .ok (formatTypes s)

/-- The values of the argument with an index that have the type with this index. -/
def relevantValues (start : ℕ) (argValues : List (List Value)) (formatTypes : List Ty) (i : ℕ) :
    Except Exc (List Str) := do
  let argument ← item argValues (start + i)
  let strings ← argument.mapM fun arg => do
    let formatType ← item formatTypes i
    return if arg.isInstance formatType && stringIsPrintable arg.text then [arg.text] else []
  return strings.flatten

/-- `filter_relevant_indices`. -/
def filterRelevantIndices (start : ℕ) (argValues : List (List Value)) (indices : List ℕ)
    (formatTypes : List Ty) : Except Exc (List Str) := do
  let results ← indices.mapM (relevantValues start argValues formatTypes)
  return results.flatten

/-- The values that are strings. -/
def strings (argValue : List Value) : List Str :=
  argValue.filterMap fun
    | .str s => some s
    | .long _ => none

/-- `key_string in '\t'.join(strings)`. -/
def joinContains (keyString : Str) (argValue : List Value) : Bool :=
  decide (keyString <:+: ['\t'].intercalate (strings argValue))

/-- The loop over the arguments: the first whose strings contain the key string, and the
position behind it. -/
def findArgument (keyString : Str) : ℕ → List (List Value) → Option (ℕ × List Value)
  | _, [] => none
  | start, argValue :: rest =>
      if joinContains keyString argValue then some (start, argValue)
      else findArgument keyString (start + 1) rest

/-- The loop over the values of this argument sets the indices and the types anew for each
of them. -/
def indicesAndTypes (keyString : Str) (arg : Value) : Except Exc (List ℕ × List Ty) := do
  let indices ← getFormatSpecifierIndices keyString arg
  let types ← getFormatTypes arg
  return (indices, types)

/-- What the loop leaves: without a value the variables are not set. -/
def lastIndices (keyString : Str) (argValue : List Value) : Except Exc (List ℕ × List Ty) := do
  let results ← argValue.mapM (indicesAndTypes keyString)
  match results.getLast? with
  | some result => return result
  | none => .error .unboundLocalError

/-- `get_fstring_from_call` on the values of the arguments. -/
def fstringFromArgs (keyString : Str) (argValues : List (List Value)) : Except Exc (List Str) :=
  match findArgument keyString 1 argValues with
  | none => .ok []
  | some (start, argValue) => do
      let (indices, types) ← lastIndices keyString argValue
      filterRelevantIndices start argValues indices types

variable {κ : Type} [DecidableEq κ]

/-- The values of the arguments of a call: known already, or resolved now. -/
def argValuesOf (getCallSiteArgs : κ → List (List Value)) (callArgs : Dict κ (List (List Value))) (call : κ) :
    List (List Value) :=
  (callArgs.get? call).getD (getCallSiteArgs call)

/-- `get_fstring_from_call`, with the dict of the calls behind it. -/
def getFstringFromCall (getCallSiteArgs : κ → List (List Value)) (keyString : Str)
    (callArgs : Dict κ (List (List Value))) (call : κ) :
    Dict κ (List (List Value)) × Except Exc (List Str) :=
  let argValues := argValuesOf getCallSiteArgs callArgs call
  (if call ∈ callArgs then callArgs else callArgs.set call argValues, fstringFromArgs keyString argValues)

/-! ## What is asked for -/

/-- The specifiers of a format string: `%%` is none, and a `%` with a letter behind it
takes the next argument. -/
def specifiers : ℕ → Str → List (ℕ × Char)
  | _, [] => []
  | _, [_] => []
  | i, a :: c :: s =>
      if a = '%' ∧ c = '%' then specifiers (i + 2) s
      else if a = '%' ∧ c.isAlpha = true then (i, c) :: specifiers (i + 2) s
      else specifiers (i + 1) (c :: s)

/-- Something of two characters stands inside the first occurrence of the key string. -/
def Inside (keyString full : Str) (o : ℕ) : Prop :=
  ∃ offset, Binary.find keyString full = some offset ∧ offset ≤ o ∧ o + 2 ≤ offset + keyString.length

instance instDecidableInside (keyString full : Str) (o : ℕ) : Decidable (Inside keyString full o) :=
  match h : Binary.find keyString full with
  | none => .isFalse fun ⟨_, hfind, _⟩ => by rw [h] at hfind; cases hfind
  | some offset =>
      if hle : offset ≤ o ∧ o + 2 ≤ offset + keyString.length then .isTrue ⟨offset, h, hle⟩
      else .isFalse fun ⟨_, hfind, hinside⟩ => by
        rw [h] at hfind
        cases hfind
        exact hle hinside

/-- The supported specifiers inside the key string: their arguments and types. -/
def wanted (keyString full : Str) : List (ℕ × Ty) :=
  (specifiers 0 full).zipIdx.filterMap fun m =>
    if Inside keyString full m.1.1 then (formatType ['%', m.1.2]).map fun t => (m.2, t) else none

/-- The printable values of a type. -/
def valuesOf (t : Ty) (argument : List Value) : List Str :=
  (argument.filter fun arg => arg.isInstance t && stringIsPrintable arg.text).map Value.text

/-- A call with a format string that contains the key string, among the values of the
first argument that has such a string. -/
structure FormatCall (keyString : Str) where
  before : List (List Value)
  candidates : List Value
  full : Str
  first : ∀ argument ∈ before, ∀ s, .str s ∈ argument → ¬ keyString <:+: s
  mem : .str full ∈ candidates
  contains : keyString <:+: full

/-- The values of all arguments. -/
def FormatCall.args {keyString : Str} (c : FormatCall keyString) (after : List (List Value)) :
    List (List Value) :=
  c.before ++ c.candidates :: after

/-- The values that are asked for. -/
def expected (keyString full : Str) (after : List (List Value)) : List Str :=
  Numbered.collect valuesOf after (wanted keyString full)

/-- For all values of at least as many arguments as there are specifiers, the code returns
those asked for. -/
def Correct {keyString : Str} (call : κ) (c : FormatCall keyString) : Prop :=
  ∀ (after : List (List Value)) (getCallSiteArgs : κ → List (List Value)) (callArgs : Dict κ (List (List Value))),
    (specifiers 0 c.full).length ≤ after.length →
      argValuesOf getCallSiteArgs callArgs call = c.args after →
        (getFstringFromCall getCallSiteArgs keyString callArgs call).2 = .ok (expected keyString c.full after)

/-- The argument whose values the code takes for format strings. -/
def FormatCall.chosen {keyString : Str} (c : FormatCall keyString) : List Value :=
  ((c.before ++ [c.candidates]).find? (joinContains keyString)).getD []

/-- A `%` sign of the key string has the same number among those of the text as it has
among the specifiers of the format string; it is supported, and so is the specifier that
has this number among the supported ones of the text, with the same type. -/
def Fits (keyString full s : Str) (m : ℕ × Char) : Prop :=
  ∃ (i : ℕ) (t : Ty) (offset offset' : ℕ),
    Binary.find keyString s = some offset ∧ Binary.find keyString full = some offset' ∧
      (finditer isWord 0 s)[i]? = some (offset + m.1, m.2) ∧
      (specifiers 0 full)[i]? = some (offset' + m.1, m.2) ∧
      formatType ['%', m.2] = some t ∧ (formatTypes s)[i]? = some t

/-- All values of the chosen argument are strings, which contain the key string if that has
a `%` with a word character. In the last of them, all these of the key string fit. -/
structure Aligned {keyString : Str} (c : FormatCall keyString) : Prop where
  strings : ∀ arg ∈ c.chosen, ∃ s, arg = .str s ∧ (finditer isWord 0 keyString ≠ [] → keyString <:+: s)
  last : ∃ s, c.chosen.getLast? = some (.str s) ∧
    ∀ m ∈ finditer isWord 0 keyString, Fits keyString c.full s m

/-! ## Specifiers in a text -/

variable {p : Char → Bool} {i o x offset : ℕ} {ch : Char} {s keyString full : Str}

theorem le_of_mem_finditer (h : (o, ch) ∈ finditer p i s) : i ≤ o := by
  fun_induction finditer p i s with
  | case1 => cases h
  | case2 => cases h
  | case3 i a c s hmatch ih =>
      rcases List.mem_cons.1 h with heq | h
      · exact Nat.le_of_eq (Prod.mk.inj heq).1.symm
      · exact Nat.le_of_add_right_le (ih h)
  | case4 i a c s hmatch ih => exact Nat.le_of_succ_le (ih h)

theorem pairwise_finditer (p : Char → Bool) (i : ℕ) (s : Str) : (finditer p i s).Pairwise Before := by
  fun_induction finditer p i s with
  | case1 => exact List.Pairwise.nil
  | case2 => exact List.Pairwise.nil
  | case3 i a c s hmatch ih =>
      refine List.Pairwise.cons (fun m hm => ?_) ih
      exact Nat.lt_of_lt_of_le (by omega) (le_of_mem_finditer hm)
  | case4 i a c s hmatch ih => exact ih

/-- A match is a `%` with a character of the class behind it. -/
theorem mem_finditer (hp : p '%' = false) : (o, ch) ∈ finditer p i s ↔
    ∃ x, o = i + x ∧ s[x]? = some '%' ∧ s[x + 1]? = some ch ∧ p ch = true := by
  fun_induction finditer p i s with
  | case1 => simp
  | case2 i a => simp
  | case3 i a c s hmatch ih =>
      rw [List.mem_cons, ih]
      constructor
      · rintro (heq | ⟨x, rfl, hpercent, hch, hclass⟩)
        · cases heq
          exact ⟨0, rfl, by rw [hmatch.1]; rfl, rfl, hmatch.2⟩
        · exact ⟨x + 2, by omega, hpercent, hch, hclass⟩
      · rintro ⟨x, rfl, hpercent, hch, hclass⟩
        rcases x with _ | _ | x
        · obtain rfl : c = ch := Option.some_inj.1 hch
          exact .inl rfl
        · -- the character of a match is not the `%` of another
          obtain rfl : c = '%' := Option.some_inj.1 hpercent
          exact absurd hmatch.2 (by rw [hp]; exact Bool.false_ne_true)
        · exact .inr ⟨x, by omega, hpercent, hch, hclass⟩
  | case4 i a c s hmatch ih =>
      rw [ih]
      constructor
      · rintro ⟨x, rfl, hpercent, hch, hclass⟩
        exact ⟨x + 1, by omega, hpercent, hch, hclass⟩
      · rintro ⟨x, rfl, hpercent, hch, hclass⟩
        cases x with
        | zero =>
            obtain rfl : a = '%' := Option.some_inj.1 hpercent
            obtain rfl : c = ch := Option.some_inj.1 hch
            exact absurd ⟨rfl, hclass⟩ hmatch
        | succ x => exact ⟨x, by omega, hpercent, hch, hclass⟩

theorem mem_finditer_isWord : (o, ch) ∈ finditer isWord 0 s ↔
    s[o]? = some '%' ∧ s[o + 1]? = some ch ∧ isWord ch = true := by
  rw [mem_finditer (by decide)]
  simp only [Nat.zero_add]
  exact ⟨fun ⟨x, hx, h⟩ => hx ▸ h, fun h => ⟨o, rfl, h⟩⟩

theorem le_of_mem_specifiers (h : (o, ch) ∈ specifiers i s) : i ≤ o := by
  fun_induction specifiers i s with
  | case1 => cases h
  | case2 => cases h
  | case3 i a c s hpercent ih => exact Nat.le_of_add_right_le (ih h)
  | case4 i a c s hpercent hmatch ih =>
      rcases List.mem_cons.1 h with heq | h
      · exact Nat.le_of_eq (Prod.mk.inj heq).1.symm
      · exact Nat.le_of_add_right_le (ih h)
  | case5 i a c s hpercent hmatch ih => exact Nat.le_of_succ_le (ih h)

theorem pairwise_specifiers (i : ℕ) (s : Str) : (specifiers i s).Pairwise Before := by
  fun_induction specifiers i s with
  | case1 => exact List.Pairwise.nil
  | case2 => exact List.Pairwise.nil
  | case3 i a c s hpercent ih => exact ih
  | case4 i a c s hpercent hmatch ih =>
      refine List.Pairwise.cons (fun m hm => ?_) ih
      exact Nat.lt_of_lt_of_le (by omega) (le_of_mem_specifiers hm)
  | case5 i a c s hpercent hmatch ih => exact ih

/-- A specifier is a `%` with a letter behind it. -/
theorem of_mem_specifiers (h : (o, ch) ∈ specifiers i s) :
    ∃ x, o = i + x ∧ s[x]? = some '%' ∧ s[x + 1]? = some ch ∧ ch.isAlpha = true := by
  fun_induction specifiers i s with
  | case1 => cases h
  | case2 => cases h
  | case3 i a c s hpercent ih =>
      rcases ih h with ⟨x, rfl, hx⟩
      exact ⟨x + 2, by omega, hx⟩
  | case4 i a c s hpercent hmatch ih =>
      rcases List.mem_cons.1 h with heq | h
      · cases heq
        exact ⟨0, rfl, by rw [hmatch.1]; rfl, rfl, hmatch.2⟩
      · rcases ih h with ⟨x, rfl, hx⟩
        exact ⟨x + 2, by omega, hx⟩
  | case5 i a c s hpercent hmatch ih =>
      rcases ih h with ⟨x, rfl, hx⟩
      exact ⟨x + 1, by omega, hx⟩

/-- In the place where the key string is found stand its characters. -/
theorem getElem?_found (h : Binary.find keyString s = some offset) (hx : x < keyString.length) :
    s[offset + x]? = keyString[x]? := by
  rcases Binary.find_eq_some_iff.1 h with ⟨-, ⟨rest, hrest⟩, -⟩
  rw [← List.getElem?_drop, ← hrest, List.getElem?_append_left hx]

theorem isWord_of_isAlpha (h : ch.isAlpha = true) : isWord ch = true := by
  rw [isWord, Char.isAlphanum, h]
  rfl

/-- What the key string has is found in the text. -/
theorem mem_finditer_of_key (h : Binary.find keyString s = some offset)
    (hmem : (x, ch) ∈ finditer isWord 0 keyString) : (offset + x, ch) ∈ finditer isWord 0 s := by
  rw [mem_finditer_isWord] at hmem ⊢
  rcases hmem with ⟨hpercent, hch, hword⟩
  have hlast : x + 1 < keyString.length := (List.getElem?_eq_some_iff.1 hch).1
  refine ⟨?_, ?_, hword⟩
  · rw [getElem?_found h (Nat.lt_of_succ_lt hlast), hpercent]
  · rw [Nat.add_assoc, getElem?_found h hlast, hch]

/-- A specifier inside the key string is one of the `%` signs of the key string. -/
theorem key_of_mem_specifiers (h : Binary.find keyString full = some offset)
    (hmem : (o, ch) ∈ specifiers 0 full) (hinside : Inside keyString full o) :
    offset ≤ o ∧ (o - offset, ch) ∈ finditer isWord 0 keyString := by
  rcases hinside with ⟨offset', hfind, hle, hend⟩
  obtain rfl := Option.some_inj.1 (h.symm.trans hfind)
  rcases of_mem_specifiers hmem with ⟨x, hx, hpercent, hch, halpha⟩
  obtain rfl : o = x := by omega
  refine ⟨hle, mem_finditer_isWord.2 ⟨?_, ?_, isWord_of_isAlpha halpha⟩⟩
  · rw [← getElem?_found h (by omega), Nat.add_sub_cancel' hle, hpercent]
  · rw [← getElem?_found h (by omega), ← Nat.add_assoc, Nat.add_sub_cancel' hle, hch]

/-- The character of a match is the one behind its `%`. -/
theorem match_unique {ch' : Char} (h : (o, ch) ∈ finditer isWord 0 s) (h' : (o, ch') ∈ finditer isWord 0 s) :
    ch = ch' :=
  Option.some_inj.1 ((mem_finditer_isWord.1 h).2.1.symm.trans (mem_finditer_isWord.1 h').2.1)

/-! ## The indices of one text -/

theorem exists_index {xs : List ℕ} (h : x ∈ xs) : ∃ i, index xs x = .ok i ∧ xs[i]? = some x := by
  cases hidx : xs.idxOf? x with
  | none => exact absurd h (List.idxOf?_eq_none_iff.1 hidx)
  | some i =>
      rcases List.idxOf?_eq_some_iff.1 hidx with ⟨hi, hx, -⟩
      refine ⟨i, by rw [index, hidx], ?_⟩
      rw [List.getElem?_eq_getElem hi, hx]

/-- The index of a `%` of the key string is the number of the match of the text in its
place. -/
theorem exists_number (h : Binary.find keyString s = some offset) {m : ℕ × Char}
    (hm : m ∈ finditer isWord 0 keyString) :
    ∃ i, index ((finditer isWord 0 s).map Prod.fst) (m.1 + offset) = .ok i ∧
      (finditer isWord 0 s)[i]? = some (offset + m.1, m.2) := by
  have hmem : (offset + m.1, m.2) ∈ finditer isWord 0 s := mem_finditer_of_key h hm
  rw [Nat.add_comm m.1]
  rcases exists_index (List.mem_map.2 ⟨_, hmem, rfl⟩) with ⟨i, hindex, hi⟩
  refine ⟨i, hindex, ?_⟩
  rw [List.getElem?_map, Option.map_eq_some_iff] at hi
  rcases hi with ⟨⟨o, ch⟩, hget, ho⟩
  obtain rfl : o = offset + m.1 := ho
  rw [hget, match_unique (List.mem_of_getElem? hget) hmem]

theorem getFormatSpecifierIndices_found (h : Binary.find keyString s = some offset) :
    ∃ indices, getFormatSpecifierIndices keyString (.str s) = .ok indices ∧
      indices.map (fun i => (finditer isWord 0 s)[i]?) =
        (finditer isWord 0 keyString).map fun m => some (offset + m.1, m.2) := by
  rw [getFormatSpecifierIndices]
  by_cases hne : (finditer isWord 0 keyString).map Prod.fst = []
  · rw [if_neg (not_not.2 hne), List.map_eq_nil_iff.1 hne]
    exact ⟨[], rfl, rfl⟩
  · rw [if_pos hne]
    simp only [h, List.map_map, List.mapM_map]
    exact Loop.mapM_keyed_iff.2 fun m hm => exists_number h hm

theorem getFormatSpecifierIndices_nil (h : finditer isWord 0 keyString = []) (arg : Value) :
    getFormatSpecifierIndices keyString arg = .ok [] := by
  rw [getFormatSpecifierIndices.eq_def, h]
  rfl

/-- Of a text without the key string no indices are found, unless there are none to find. -/
theorem contains_of_indices {indices : List ℕ} (hne : finditer isWord 0 keyString ≠ [])
    (h : getFormatSpecifierIndices keyString (.str s) = .ok indices) : keyString <:+: s := by
  have hmap : (finditer isWord 0 keyString).map Prod.fst ≠ [] := fun hnil => hne (List.map_eq_nil_iff.1 hnil)
  rw [getFormatSpecifierIndices, if_pos hmap] at h
  cases hfind : Binary.find keyString s with
  | none =>
      simp only [hfind] at h
      cases h
  | some offset =>
      rcases Binary.find_eq_some_iff.1 hfind with ⟨-, hprefix, -⟩
      exact hprefix.isInfix.trans (List.drop_suffix offset s).isInfix

/-! ## The values of one argument -/

variable {indices : List ℕ} {types : List Ty} {argument argValue : List Value} {arg : Value}
  {before after args : List (List Value)} {t : Ty} {start : ℕ}

theorem indicesAndTypes_eq_ok_iff : indicesAndTypes keyString arg = .ok (indices, types) ↔
    ∃ s, arg = .str s ∧ getFormatSpecifierIndices keyString (.str s) = .ok indices ∧ formatTypes s = types := by
  cases arg with
  | long n =>
      constructor
      · intro h
        rw [indicesAndTypes] at h
        cases hindices : getFormatSpecifierIndices keyString (.long n) with
        | error e =>
            rw [hindices] at h
            cases h
        | ok indices =>
            rw [hindices] at h
            cases h
      · rintro ⟨s, hs, -⟩
        cases hs
  | str s =>
      have hvalue : indicesAndTypes keyString (.str s) =
          (getFormatSpecifierIndices keyString (.str s)).map fun indices => (indices, formatTypes s) := by
        rw [indicesAndTypes, getFormatTypes]
        cases getFormatSpecifierIndices keyString (.str s) <;> rfl
      rw [hvalue]
      constructor
      · intro h
        cases hindices : getFormatSpecifierIndices keyString (.str s) with
        | error e =>
            rw [hindices] at h
            cases h
        | ok indices =>
            rw [hindices] at h
            cases h
            exact ⟨s, rfl, hindices, rfl⟩
      · rintro ⟨s', hs, hindices, rfl⟩
        obtain rfl := Value.str.inj hs
        rw [hindices]
        rfl

theorem lastIndices_eq_ok_iff : lastIndices keyString argValue = .ok (indices, types) ↔
    (∀ arg ∈ argValue, ∃ r, indicesAndTypes keyString arg = .ok r) ∧
      ∃ arg, argValue.getLast? = some arg ∧ indicesAndTypes keyString arg = .ok (indices, types) := by
  have hlast : ∀ results, argValue.mapM (indicesAndTypes keyString) = .ok results →
      argValue.getLast?.map (indicesAndTypes keyString) = results.getLast?.map .ok := by
    intro results hresults
    have hmap := congrArg List.getLast? (Loop.mapM_ok_iff.1 hresults)
    rwa [List.getLast?_map, List.getLast?_map] at hmap
  rw [lastIndices]
  constructor
  · intro h
    cases hresults : argValue.mapM (indicesAndTypes keyString) with
    | error e =>
        rw [hresults] at h
        cases h
    | ok results =>
        rw [hresults] at h
        have hget := hlast results hresults
        refine ⟨fun arg harg => ?_, ?_⟩
        · rcases Loop.exists_of_mapM_ok hresults harg with ⟨r, -, hr⟩
          exact ⟨r, hr⟩
        · cases hend : results.getLast? with
          | none =>
              simp only [bind, Except.bind, hend] at h
              cases h
          | some result =>
              simp only [bind, Except.bind, hend, pure, Except.pure] at h
              rw [hend, Option.map_some, Except.ok.inj h, Option.map_eq_some_iff] at hget
              exact hget
  · rintro ⟨hall, arg, harg, hok⟩
    -- all values have results, and the last one has the result of the last value
    rcases Loop.exists_mapM_ok hall with ⟨results, hresults⟩
    have hget := hlast results hresults
    rw [harg, Option.map_some, hok] at hget
    rcases Option.map_eq_some_iff.1 hget.symm with ⟨result, hend, heq⟩
    obtain rfl := Except.ok.inj heq
    rw [hresults]
    simp only [bind, Except.bind, hend]
    rfl

theorem item_eq_ok_iff {α : Type} {xs : List α} {y : α} {k : ℕ} : item xs k = .ok y ↔ xs[k]? = some y := by
  rw [item]
  cases xs[k]? with
  | none => exact iff_of_false (fun h => by cases h) fun h => by cases h
  | some y' => exact ⟨fun h => congrArg some (Except.ok.inj h), fun h => congrArg Except.ok (Option.some_inj.1 h)⟩

/-- A comprehension with a condition, as a filter. -/
theorem flatten_map_ite {α β : Type} (q : α → Bool) (f : α → β) (l : List α) :
    (l.map fun a => if q a then [f a] else []).flatten = (l.filter q).map f := by
  induction l with
  | nil => rfl
  | cons a l ih =>
      rw [List.map_cons, List.flatten_cons, ih, List.filter_cons]
      cases q a <;> rfl

theorem relevantValues_of_item (hargument : args[start + i]? = some argument) (htype : types[i]? = some t) :
    relevantValues start args types i = .ok (valuesOf t argument) := by
  have hstrings : (argument.mapM fun arg => do
      let formatType ← item types i
      return if arg.isInstance formatType && stringIsPrintable arg.text then [arg.text] else []) =
        .ok (argument.map fun arg => if arg.isInstance t && stringIsPrintable arg.text then [arg.text] else []) := by
    rw [Loop.mapM_ok_iff, item_eq_ok_iff.2 htype, List.map_map]
    rfl
  rw [relevantValues, item_eq_ok_iff.2 hargument]
  simp only [bind, Except.bind] at hstrings ⊢
  rw [hstrings]
  exact congrArg Except.ok (flatten_map_ite _ _ argument)

/-- What is read of an argument with a value needs a type. -/
theorem of_relevantValues {r : List Str} (h : relevantValues start args types i = .ok r) :
    ∃ argument, args[start + i]? = some argument ∧ (argument ≠ [] → ∃ t, types[i]? = some t) := by
  rw [relevantValues] at h
  cases hargument : item args (start + i) with
  | error e =>
      rw [hargument] at h
      cases h
  | ok argument =>
      refine ⟨argument, item_eq_ok_iff.1 hargument, fun hne => ?_⟩
      cases htype : item types i with
      | ok t => exact ⟨t, item_eq_ok_iff.1 htype⟩
      | error e =>
          rcases List.exists_cons_of_ne_nil hne with ⟨arg, rest, rfl⟩
          simp only [hargument, htype, bind, Except.bind, List.mapM_cons] at h
          cases h

/-- The indices with their types collect the values of the arguments behind the start. -/
theorem filterRelevantIndices_collect {entries : List (ℕ × Ty)}
    (htypes : ∀ e ∈ entries, types[e.1]? = some e.2) (hlt : ∀ e ∈ entries, e.1 < after.length) :
    filterRelevantIndices before.length (before ++ after) (entries.map Prod.fst) types =
      .ok (Numbered.collect valuesOf after entries) := by
  have hmap : entries.mapM (relevantValues before.length (before ++ after) types ∘ Prod.fst) =
      .ok (entries.map fun e => valuesOf e.2 (after.getD e.1 [])) := by
    rw [Loop.mapM_ok_iff, List.map_map]
    refine List.map_congr_left fun e he => relevantValues_of_item ?_ (htypes e he)
    -- behind the start begin the arguments of the specifiers
    rw [List.getElem?_append_right (Nat.le_add_right _ _), Nat.add_sub_cancel_left,
      List.getD_eq_getElem?_getD, List.getElem?_eq_getElem (hlt e he)]
    rfl
  rw [filterRelevantIndices, List.mapM_map, hmap]
  rfl

/-- If no argument is empty, the code needs an argument and a type for each index. -/
theorem of_filterRelevantIndices {r : List Str} (hfull : ∀ argument ∈ after, argument ≠ [])
    (h : filterRelevantIndices before.length (before ++ after) indices types = .ok r) :
    ∀ i ∈ indices, i < after.length ∧ ∃ t, types[i]? = some t := by
  rw [filterRelevantIndices] at h
  cases hresults : indices.mapM (relevantValues before.length (before ++ after) types) with
  | error e =>
      rw [hresults] at h
      cases h
  | ok results =>
      intro i hi
      rcases Loop.exists_of_mapM_ok hresults hi with ⟨r, -, hr⟩
      rcases of_relevantValues hr with ⟨argument, hargument, htype⟩
      rw [List.getElem?_append_right (Nat.le_add_right _ _), Nat.add_sub_cancel_left] at hargument
      refine ⟨(List.getElem?_eq_some_iff.1 hargument).1, htype ?_⟩
      exact hfull argument (List.mem_of_getElem? hargument)

/-! ## The specifiers that are wanted -/

variable {offset' k r : ℕ} {entries : List (ℕ × Ty)} {m : ℕ × Char} {e : ℕ × Ty}

theorem mem_wanted : (k, t) ∈ wanted keyString full ↔
    ∃ o ch, (specifiers 0 full)[k]? = some (o, ch) ∧ Inside keyString full o ∧ formatType ['%', ch] = some t := by
  rw [wanted, List.mem_filterMap]
  constructor
  · rintro ⟨⟨⟨o, ch⟩, k'⟩, hmem, hsome⟩
    split at hsome
    case isTrue hinside =>
      rcases Option.map_eq_some_iff.1 hsome with ⟨t', ht', heq⟩
      cases heq
      exact ⟨o, ch, List.mem_zipIdx_iff_getElem?.1 hmem, hinside, ht'⟩
    case isFalse => cases hsome
  · rintro ⟨o, ch, hget, hinside, ht⟩
    refine ⟨((o, ch), k), List.mem_zipIdx_iff_getElem?.2 hget, ?_⟩
    rw [if_pos hinside, ht]
    rfl

theorem pairwise_wanted (keyString full : Str) : (wanted keyString full).Pairwise Before := by
  have hnumbers : (specifiers 0 full).zipIdx.Pairwise fun m m' => m.2 < m'.2 := by
    rw [← List.pairwise_map, List.zipIdx_map_snd]
    exact List.pairwise_lt_range'
  rw [wanted, List.pairwise_filterMap]
  refine hnumbers.imp fun {m m'} hlt e he e' he' => ?_
  split at he
  case isTrue hinside =>
    split at he'
    case isTrue hinside' =>
      rcases Option.map_eq_some_iff.1 he with ⟨t, -, rfl⟩
      rcases Option.map_eq_some_iff.1 he' with ⟨t', -, rfl⟩
      exact hlt
    case isFalse => cases he'
  case isFalse => cases he

/-- The entries have the numbers of the `%` signs of the key string among those of a text. -/
def Numbers (keyString s : Str) (offset : ℕ) (entries : List (ℕ × Ty)) : Prop :=
  entries.map (fun e => (finditer isWord 0 s)[e.1]?) =
    (finditer isWord 0 keyString).map fun m => some (offset + m.1, m.2)

theorem Numbers.exists_match (h : Numbers keyString s offset entries) (he : entries[r]? = some e) :
    ∃ m, (finditer isWord 0 keyString)[r]? = some m ∧
      (finditer isWord 0 s)[e.1]? = some (offset + m.1, m.2) := by
  have hget := congrArg (fun l => l[r]?) h
  simp only [List.getElem?_map, he, Option.map_some] at hget
  rcases Option.map_eq_some_iff.1 hget.symm with ⟨m, hm, heq⟩
  exact ⟨m, hm, heq.symm⟩

theorem Numbers.exists_entry (h : Numbers keyString s offset entries)
    (hm : (finditer isWord 0 keyString)[r]? = some m) :
    ∃ e, entries[r]? = some e ∧ (finditer isWord 0 s)[e.1]? = some (offset + m.1, m.2) := by
  have hget := congrArg (fun l => l[r]?) h
  simp only [List.getElem?_map, hm, Option.map_some] at hget
  exact Option.map_eq_some_iff.1 hget

theorem Numbers.length_eq (h : Numbers keyString s offset entries) :
    entries.length = (finditer isWord 0 keyString).length := by
  have hlength := congrArg List.length h
  rwa [List.length_map, List.length_map] at hlength

theorem Numbers.pairwise (h : Numbers keyString s offset entries) : entries.Pairwise Before := by
  rw [List.pairwise_iff_getElem]
  intro i j hi hj hlt
  -- from the places in the key string to the places in the text to the numbers
  rcases h.exists_match (List.getElem?_eq_getElem hi) with ⟨m, hm, hnumber⟩
  rcases h.exists_match (List.getElem?_eq_getElem hj) with ⟨m', hm', hnumber'⟩
  have hoffset : m.1 < m'.1 := Numbered.before_of_lt (pairwise_finditer isWord 0 keyString) hm hm' hlt
  exact Numbered.lt_of_before (pairwise_finditer isWord 0 s) hnumber hnumber' (Nat.add_lt_add_left hoffset offset)

/-- The supported specifiers inside the key string, by their places in the key string. -/
def wantedMatches (offset' : ℕ) (full : Str) (entries : List (ℕ × Ty)) : List (ℕ × Char) :=
  entries.map fun e => (((specifiers 0 full)[e.1]?.getD (0, '%')).1 - offset',
    ((specifiers 0 full)[e.1]?.getD (0, '%')).2)

theorem wantedMatches_mem (hfind : Binary.find keyString full = some offset') (he : e ∈ wanted keyString full) :
    ∃ m, m ∈ finditer isWord 0 keyString ∧ (specifiers 0 full)[e.1]? = some (offset' + m.1, m.2) ∧
      formatType ['%', m.2] = some e.2 := by
  rcases mem_wanted.1 he with ⟨o, ch, hget, hinside, ht⟩
  rcases key_of_mem_specifiers hfind (List.mem_of_getElem? hget) hinside with ⟨hle, hmem⟩
  refine ⟨(o - offset', ch), hmem, ?_, ht⟩
  rw [hget, Nat.add_sub_cancel' hle]

/-- The place in the key string of a specifier that is wanted. -/
theorem wantedMatches_eq (hget : (specifiers 0 full)[e.1]? = some (offset' + m.1, m.2)) :
    (((specifiers 0 full)[e.1]?.getD (0, '%')).1 - offset', ((specifiers 0 full)[e.1]?.getD (0, '%')).2) = m := by
  rw [hget, Option.getD_some, Nat.add_sub_cancel_left]

theorem pairwise_wantedMatches (hfind : Binary.find keyString full = some offset') :
    (wantedMatches offset' full (wanted keyString full)).Pairwise Before := by
  rw [wantedMatches, List.pairwise_map]
  refine (pairwise_wanted keyString full).imp_of_mem fun {e e'} he he' hlt => ?_
  rcases wantedMatches_mem hfind he with ⟨m, -, hget, -⟩
  rcases wantedMatches_mem hfind he' with ⟨m', -, hget', -⟩
  rw [wantedMatches_eq hget, wantedMatches_eq hget']
  have hoffset := Numbered.before_of_lt (pairwise_specifiers 0 full) hget hget' hlt
  exact Nat.lt_of_add_lt_add_left hoffset

/-- If as many specifiers are wanted as the key string has `%` signs, then all of these are
wanted. -/
theorem wantedMatches_eq_key (hfind : Binary.find keyString full = some offset')
    (hlength : (wanted keyString full).length = (finditer isWord 0 keyString).length) :
    wantedMatches offset' full (wanted keyString full) = finditer isWord 0 keyString := by
  refine Numbered.eq_of_subset (pairwise_wantedMatches hfind) (pairwise_finditer isWord 0 keyString) ?_ ?_
  · intro m hm
    rcases List.mem_map.1 hm with ⟨e, he, rfl⟩
    rcases wantedMatches_mem hfind he with ⟨m, hmem, hget, -⟩
    rwa [wantedMatches_eq hget]
  · rw [wantedMatches, List.length_map, hlength]

theorem fits_of_entries (hfind : Binary.find keyString s = some offset)
    (hfull : Binary.find keyString full = some offset') (hnumbers : Numbers keyString s offset entries)
    (htypes : ∀ e ∈ entries, (formatTypes s)[e.1]? = some e.2) (heq : entries = wanted keyString full) :
    ∀ m ∈ finditer isWord 0 keyString, Fits keyString full s m := by
  intro m hm
  rcases List.getElem?_of_mem hm with ⟨r, hr⟩
  rcases hnumbers.exists_entry hr with ⟨e, he, hnumber⟩
  have hmem : e ∈ entries := List.mem_of_getElem? he
  have hkey := wantedMatches_eq_key hfull (heq ▸ hnumbers.length_eq)
  -- the entry in this place is the one for this `%`
  have hplace := congrArg (fun l => l[r]?) hkey
  simp only [wantedMatches, ← heq, List.getElem?_map, he, hr, Option.map_some, Option.some_inj] at hplace
  rcases wantedMatches_mem hfull (heq ▸ hmem) with ⟨m', -, hget, htype⟩
  rw [wantedMatches_eq hget] at hplace
  subst hplace
  exact ⟨e.1, e.2, offset, offset', hfind, hfull, hnumber, hget, htype, htypes e hmem⟩

theorem entries_of_fits (hfind : Binary.find keyString s = some offset)
    (hfull : Binary.find keyString full = some offset') (hnumbers : Numbers keyString s offset entries)
    (htypes : ∀ e ∈ entries, (formatTypes s)[e.1]? = some e.2)
    (hfits : ∀ m ∈ finditer isWord 0 keyString, Fits keyString full s m) : entries = wanted keyString full := by
  -- both lists are in the order of their numbers, so their members decide
  refine Numbered.eq_of_mem_iff hnumbers.pairwise (pairwise_wanted keyString full) fun e => ⟨fun he => ?_, fun he => ?_⟩
  · rcases List.getElem?_of_mem he with ⟨r, hr⟩
    rcases hnumbers.exists_match hr with ⟨m, hm, hnumber⟩
    have hmem : m ∈ finditer isWord 0 keyString := List.mem_of_getElem? hm
    rcases hfits m hmem with ⟨i, t, o, o', ho, ho', hget, hspecifier, htype, htypeAt⟩
    obtain rfl := Option.some_inj.1 (hfind.symm.trans ho)
    obtain rfl := Option.some_inj.1 (hfull.symm.trans ho')
    obtain rfl := Numbered.index_unique (pairwise_finditer isWord 0 s) hget hnumber rfl
    have ht : t = e.2 := Option.some_inj.1 (htypeAt.symm.trans (htypes e he))
    rw [ht] at htype
    have hend : m.1 + 1 < keyString.length := (List.getElem?_eq_some_iff.1 (mem_finditer_isWord.1 hmem).2.1).1
    exact mem_wanted.2 ⟨_, _, hspecifier, ⟨offset', hfull, Nat.le_add_right _ _, by omega⟩, htype⟩
  · -- a specifier that is wanted is one of the key string, and has its number in the text
    rcases wantedMatches_mem hfull he with ⟨m, hmem, hspecifier, htype⟩
    rcases hfits m hmem with ⟨i, t, o, o', ho, ho', hget, hspecifier', htype', htypeAt⟩
    obtain rfl := Option.some_inj.1 (hfind.symm.trans ho)
    obtain rfl := Option.some_inj.1 (hfull.symm.trans ho')
    have hi : i = e.1 := Numbered.index_unique (pairwise_specifiers 0 full) hspecifier' hspecifier rfl
    have ht : t = e.2 := Option.some_inj.1 (htype'.symm.trans htype)
    subst hi ht
    rcases List.getElem?_of_mem hmem with ⟨r, hr⟩
    rcases hnumbers.exists_entry hr with ⟨e', he', hnumber⟩
    have hmem' : e' ∈ entries := List.mem_of_getElem? he'
    have hnumberEq : e'.1 = e.1 := Numbered.index_unique (pairwise_finditer isWord 0 s) hnumber hget rfl
    have htypeEq : e'.2 = e.2 := by
      rw [← hnumberEq] at htypeAt
      exact Option.some_inj.1 ((htypes e' hmem').symm.trans htypeAt)
    exact (Prod.ext hnumberEq htypeEq : e' = e) ▸ hmem'

/-! ## The chosen argument -/

theorem infix_intercalate {sep : Char} {l : List Str} (h : s ∈ l) : s <:+: [sep].intercalate l := by
  induction l with
  | nil => cases h
  | cons a l ih =>
      cases l with
      | nil =>
          obtain rfl := List.mem_singleton.1 h
          rw [List.intercalate_singleton]
      | cons b l =>
          rw [List.intercalate_cons_cons]
          rcases List.mem_cons.1 h with rfl | h
          · exact ⟨[], [sep] ++ [sep].intercalate (b :: l), by rw [List.nil_append, List.append_assoc]⟩
          · exact (ih h).trans (List.suffix_append _ _).isInfix

theorem FormatCall.joinContains_candidates (c : FormatCall keyString) :
    joinContains keyString c.candidates = true := by
  have hmem : c.full ∈ strings c.candidates := List.mem_filterMap.2 ⟨.str c.full, c.mem, rfl⟩
  exact decide_eq_true (c.contains.trans (infix_intercalate hmem))

theorem findArgument_append {candidates : List Value} (h : joinContains keyString candidates = true)
    (before after : List (List Value)) (start : ℕ) :
    ∃ start', findArgument keyString start (before ++ candidates :: after) =
        some (start', ((before ++ [candidates]).find? (joinContains keyString)).getD []) ∧
      (((before ++ [candidates]).find? (joinContains keyString)).getD [] ∈ before ∨
        (((before ++ [candidates]).find? (joinContains keyString)).getD [] = candidates ∧
          start' = start + before.length)) := by
  induction before generalizing start with
  | nil =>
      refine ⟨start, ?_, .inr ⟨?_, rfl⟩⟩
      · rw [List.nil_append, findArgument, if_pos h, List.nil_append, List.find?_cons_of_pos h]
        rfl
      · rw [List.nil_append, List.find?_cons_of_pos h]
        rfl
  | cons argument before ih =>
      by_cases hargument : joinContains keyString argument = true
      · rw [List.cons_append, List.cons_append, List.find?_cons_of_pos hargument, findArgument, if_pos hargument]
        exact ⟨start, rfl, .inl List.mem_cons_self⟩
      · rw [List.cons_append, List.cons_append, List.find?_cons_of_neg hargument, findArgument, if_neg hargument]
        rcases ih (start + 1) with ⟨start', hfind, hmem | ⟨heq, hstart⟩⟩
        · exact ⟨start', hfind, .inl (List.mem_cons_of_mem _ hmem)⟩
        · refine ⟨start', hfind, .inr ⟨heq, ?_⟩⟩
          rw [hstart, List.length_cons]
          omega

/-- The chosen argument is found, and if the key string is in one of its strings, it is the
format string argument. -/
theorem FormatCall.findArgument_chosen (c : FormatCall keyString) (after : List (List Value)) :
    ∃ start, findArgument keyString 1 (c.args after) = some (start, c.chosen) ∧
      ((∃ s, .str s ∈ c.chosen ∧ keyString <:+: s) → start = (c.before ++ [c.candidates]).length) := by
  rcases findArgument_append c.joinContains_candidates c.before after 1 with ⟨start, hfind, hplace⟩
  refine ⟨start, hfind, fun ⟨s, hs, hkey⟩ => ?_⟩
  rcases hplace with hbefore | ⟨-, hstart⟩
  · exact absurd hkey (c.first _ hbefore s hs)
  · rw [hstart, List.length_append, Nat.add_comm]
    rfl

theorem FormatCall.args_eq (c : FormatCall keyString) (after : List (List Value)) :
    c.args after = (c.before ++ [c.candidates]) ++ after := by
  rw [FormatCall.args, List.append_assoc, List.singleton_append]

theorem exists_find (h : keyString <:+: s) : ∃ offset, Binary.find keyString s = some offset := by
  rcases h with ⟨front, back, rfl⟩
  rw [List.append_assoc]
  rcases Binary.exists_find_le front (List.prefix_append keyString back) with ⟨offset, -, hfind⟩
  exact ⟨offset, hfind⟩

theorem wanted_nil (hfull : Binary.find keyString full = some offset') (h : finditer isWord 0 keyString = []) :
    wanted keyString full = [] := by
  rw [List.eq_nil_iff_forall_not_mem]
  intro e he
  rcases wantedMatches_mem hfull he with ⟨m, hm, -⟩
  rw [h] at hm
  cases hm

theorem correct_iff {call : κ} {c : FormatCall keyString} : Correct call c ↔
    ∀ after, (specifiers 0 c.full).length ≤ after.length →
      fstringFromArgs keyString (c.args after) = .ok (expected keyString c.full after) := by
  constructor
  · intro h after hle
    have hargs : argValuesOf (fun _ => c.args after) ∅ call = c.args after := by
      rw [argValuesOf, Dict.get?_empty]
      rfl
    have hresult := h after (fun _ => c.args after) ∅ hle hargs
    rwa [getFstringFromCall, hargs] at hresult
  · intro h after getCallSiteArgs callArgs hle hargs
    rw [getFstringFromCall, hargs]
    exact h after hle

/-- The type that the code uses for an index. -/
def typed (s : Str) (indices : List ℕ) : List (ℕ × Ty) :=
  indices.map fun i => (i, (formatTypes s)[i]?.getD .long)

theorem map_fst_typed (s : Str) (indices : List ℕ) : (typed s indices).map Prod.fst = indices := by
  rw [typed, List.map_map]
  exact List.map_id indices

theorem typed_types (h : ∀ i ∈ indices, ∃ t, (formatTypes s)[i]? = some t) :
    ∀ e ∈ typed s indices, (formatTypes s)[e.1]? = some e.2 := by
  intro e he
  rcases List.mem_map.1 he with ⟨i, hi, rfl⟩
  rcases h i hi with ⟨t, ht⟩
  rw [ht]
  rfl

theorem valuesOf_sample (t t' : Ty) :
    valuesOf t [match t' with | .long => .long 0 | .str => .str ['a']] ≠ [] ↔ t = t' := by
  cases t <;> cases t' <;> decide

/-- With the key string in the chosen argument, the arguments behind the format string are
read. -/
theorem FormatCall.fstringFromArgs_eq (c : FormatCall keyString)
    (hlast : lastIndices keyString c.chosen = .ok (indices, types))
    (hkey : ∃ s, .str s ∈ c.chosen ∧ keyString <:+: s) (after : List (List Value)) :
    fstringFromArgs keyString (c.args after) =
      filterRelevantIndices (c.before ++ [c.candidates]).length ((c.before ++ [c.candidates]) ++ after)
        indices types := by
  rcases c.findArgument_chosen after with ⟨start, hfind, hstart⟩
  obtain rfl := hstart hkey
  rw [fstringFromArgs, hfind]
  simp only [hlast]
  rw [c.args_eq]
  rfl

/-- If all indices have a type and an argument, the code collects the values. -/
theorem FormatCall.fstringFromArgs_typed (c : FormatCall keyString)
    (hlast : lastIndices keyString c.chosen = .ok (indices, formatTypes s))
    (hkey : ∃ s, .str s ∈ c.chosen ∧ keyString <:+: s)
    (htypes : ∀ e ∈ typed s indices, (formatTypes s)[e.1]? = some e.2)
    (hlt : ∀ e ∈ typed s indices, e.1 < after.length) :
    fstringFromArgs keyString (c.args after) = .ok (Numbered.collect valuesOf after (typed s indices)) := by
  have hcollect : filterRelevantIndices (c.before ++ [c.candidates]).length
      ((c.before ++ [c.candidates]) ++ after) ((typed s indices).map Prod.fst) (formatTypes s) =
        .ok (Numbered.collect valuesOf after (typed s indices)) :=
    filterRelevantIndices_collect htypes hlt
  rw [map_fst_typed] at hcollect
  rw [c.fstringFromArgs_eq hlast hkey, hcollect]

theorem numbers_typed (hmap : indices.map (fun i => (finditer isWord 0 s)[i]?) =
    (finditer isWord 0 keyString).map fun m => some (offset + m.1, m.2)) :
    Numbers keyString s offset (typed s indices) := by
  rw [Numbers, ← hmap, typed, List.map_map]
  rfl

/-- What the code does for all values determines the indices and types that it uses. -/
theorem fits_of_correct {c : FormatCall keyString} (hlast : lastIndices keyString c.chosen = .ok (indices, formatTypes s))
    (hs : .str s ∈ c.chosen) (hkey : keyString <:+: s)
    (hindices : getFormatSpecifierIndices keyString (.str s) = .ok indices)
    (h : ∀ after, (specifiers 0 c.full).length ≤ after.length →
      fstringFromArgs keyString (c.args after) = .ok (expected keyString c.full after)) :
    ∀ m ∈ finditer isWord 0 keyString, Fits keyString c.full s m := by
  rcases exists_find hkey with ⟨offset, hfind⟩
  rcases exists_find c.contains with ⟨offset', hfull⟩
  have hread := c.fstringFromArgs_eq hlast ⟨s, hs, hkey⟩
  -- arguments that are not empty, and only as many as there are specifiers
  have hall : ∀ i ∈ indices, i < (specifiers 0 c.full).length ∧ ∃ t, (formatTypes s)[i]? = some t := by
    have hresult := h (List.replicate (specifiers 0 c.full).length [.long 0]) (by rw [List.length_replicate])
    rw [hread] at hresult
    intro i hi
    have hi := of_filterRelevantIndices (fun argument hmem => ?_) hresult i hi
    · rwa [List.length_replicate] at hi
    · rw [List.eq_of_mem_replicate hmem]
      exact List.cons_ne_nil _ _
  have htypes := typed_types fun i hi => (hall i hi).2
  have hnumbers : Numbers keyString s offset (typed s indices) := by
    rcases getFormatSpecifierIndices_found hfind with ⟨indices', hok, hmap⟩
    obtain rfl := Except.ok.inj (hindices.symm.trans hok)
    exact numbers_typed hmap
  have hcollect : ∀ after, (specifiers 0 c.full).length ≤ after.length →
      Numbered.collect valuesOf after (typed s indices) =
        Numbered.collect valuesOf after (wanted keyString c.full) := by
    intro after hle
    have hlt : ∀ e ∈ typed s indices, e.1 < after.length := by
      intro e he
      rcases List.mem_map.1 he with ⟨i, hi, rfl⟩
      exact Nat.lt_of_lt_of_le (hall i hi).1 hle
    have hresult := c.fstringFromArgs_typed hlast ⟨s, hs, hkey⟩ htypes hlt
    rw [h after hle] at hresult
    exact (Except.ok.inj hresult).symm
  exact fits_of_entries hfind hfull hnumbers htypes
    (Numbered.eq_of_collect (fun _ => rfl) valuesOf_sample hnumbers.pairwise (pairwise_wanted keyString c.full)
      hcollect)

theorem Aligned.of_correct {call : κ} {c : FormatCall keyString} (h : Correct call c) : Aligned c := by
  rw [correct_iff] at h
  cases hlast : lastIndices keyString c.chosen with
  | error e =>
      -- a value that raises does so whatever the other arguments are
      have hresult := h (List.replicate (specifiers 0 c.full).length []) (by rw [List.length_replicate])
      rcases c.findArgument_chosen (List.replicate (specifiers 0 c.full).length []) with ⟨start, hfind, -⟩
      rw [fstringFromArgs, hfind] at hresult
      simp only [hlast] at hresult
      cases hresult
  | ok r =>
      rcases r with ⟨indices, types⟩
      rcases lastIndices_eq_ok_iff.1 hlast with ⟨hall, arg, harg, hok⟩
      rcases indicesAndTypes_eq_ok_iff.1 hok with ⟨s, rfl, hindices, rfl⟩
      refine ⟨fun arg harg => ?_, s, harg, fun m hm => ?_⟩
      · rcases hall arg harg with ⟨⟨indices', types'⟩, hr⟩
        rcases indicesAndTypes_eq_ok_iff.1 hr with ⟨s', rfl, hindices', -⟩
        exact ⟨s', rfl, fun hne => contains_of_indices hne hindices'⟩
      · have hkey := contains_of_indices (List.ne_nil_of_mem hm) hindices
        exact fits_of_correct hlast (List.mem_of_getLast? harg) hkey hindices h m hm

/-- A string with the key string, where that is needed, has indices. -/
theorem exists_indices (h : finditer isWord 0 keyString ≠ [] → keyString <:+: s) :
    ∃ indices, getFormatSpecifierIndices keyString (.str s) = .ok indices := by
  by_cases hne : finditer isWord 0 keyString = []
  · exact ⟨[], getFormatSpecifierIndices_nil hne _⟩
  · rcases exists_find (h hne) with ⟨offset, hfind⟩
    rcases getFormatSpecifierIndices_found hfind with ⟨indices, hindices, -⟩
    exact ⟨indices, hindices⟩

theorem Aligned.lastIndices_eq {c : FormatCall keyString} (h : Aligned c) (hs : c.chosen.getLast? = some (.str s))
    (hindices : getFormatSpecifierIndices keyString (.str s) = .ok indices) :
    lastIndices keyString c.chosen = .ok (indices, formatTypes s) := by
  refine lastIndices_eq_ok_iff.2 ⟨fun arg harg => ?_, _, hs, indicesAndTypes_eq_ok_iff.2 ⟨s, rfl, hindices, rfl⟩⟩
  rcases h.strings arg harg with ⟨s', rfl, hkey⟩
  rcases exists_indices hkey with ⟨indices', hindices'⟩
  exact ⟨_, indicesAndTypes_eq_ok_iff.2 ⟨s', rfl, hindices', rfl⟩⟩

/-- A `%` sign that fits has a type. -/
theorem types_of_fits (hfind : Binary.find keyString s = some offset)
    (hnumbers : Numbers keyString s offset (typed s indices))
    (hfits : ∀ m ∈ finditer isWord 0 keyString, Fits keyString full s m) :
    ∀ e ∈ typed s indices, (formatTypes s)[e.1]? = some e.2 := by
  refine typed_types fun i hi => ?_
  rcases List.getElem?_of_mem (List.mem_map_of_mem hi) with ⟨r, hr⟩
  rcases hnumbers.exists_match hr with ⟨m, hm, hnumber⟩
  rcases hfits m (List.mem_of_getElem? hm) with ⟨i', t, o, o', ho, -, hget, -, -, ht⟩
  obtain rfl := Option.some_inj.1 (hfind.symm.trans ho)
  obtain rfl := Numbered.index_unique (pairwise_finditer isWord 0 s) hget hnumber rfl
  exact ⟨t, ht⟩

theorem Aligned.correct {call : κ} {c : FormatCall keyString} (h : Aligned c) : Correct call c := by
  rw [correct_iff]
  intro after hle
  rcases h.last with ⟨s, hs, hfits⟩
  rcases exists_find c.contains with ⟨offset', hfull⟩
  have hmem : .str s ∈ c.chosen := List.mem_of_getLast? hs
  by_cases hne : finditer isWord 0 keyString = []
  · -- nothing is asked for, and there are no indices
    rcases c.findArgument_chosen after with ⟨start, hfind, -⟩
    rw [fstringFromArgs, hfind, expected, wanted_nil hfull hne]
    simp only [h.lastIndices_eq hs (getFormatSpecifierIndices_nil hne _)]
    rfl
  · have hkey : keyString <:+: s := by
      rcases h.strings _ hmem with ⟨s', heq, hkey⟩
      exact Value.str.inj heq ▸ hkey hne
    rcases exists_find hkey with ⟨offset, hfind⟩
    rcases getFormatSpecifierIndices_found hfind with ⟨indices, hindices, hmap⟩
    have hnumbers := numbers_typed hmap
    have htypes := types_of_fits hfind hnumbers hfits
    have hwanted := entries_of_fits hfind hfull hnumbers htypes hfits
    have hlt : ∀ e ∈ typed s indices, e.1 < after.length := by
      intro e he
      rw [hwanted] at he
      rcases wantedMatches_mem hfull he with ⟨m, -, hget, -⟩
      exact Nat.lt_of_lt_of_le (List.getElem?_eq_some_iff.1 hget).1 hle
    rw [c.fstringFromArgs_typed (h.lastIndices_eq hs hindices) ⟨s, hmem, hkey⟩ htypes hlt, hwanted]
    rfl

/-- `get_fstring_from_call` returns the values that are asked for if and only if the chosen
argument has only strings with the key string, and the specifiers in the last of them are
aligned with those of the format string. -/
theorem get_fstring_from_call_iff (call : κ) (c : FormatCall keyString) : Correct call c ↔ Aligned c :=
  ⟨Aligned.of_correct, Aligned.correct⟩

/-- The key string `v%d` in `%x v%d`. -/
def hexCall : FormatCall ['v', '%', 'd'] where
  before := []
  candidates := [.str ['%', 'x', ' ', 'v', '%', 'd']]
  full := ['%', 'x', ' ', 'v', '%', 'd']
  first := fun _ h => absurd h List.not_mem_nil
  mem := List.mem_singleton_self _
  contains := by decide

/-- The key string `v%d` as a format string of its own, beside a number. -/
def numberCall : FormatCall ['v', '%', 'd'] where
  before := []
  candidates := [.str ['v', '%', 'd'], .long 5]
  full := ['v', '%', 'd']
  first := fun _ h => absurd h List.not_mem_nil
  mem := List.mem_cons_self
  contains := List.infix_refl _

/-- The type list has one entry for the two specifiers, and a number has no `index`. -/
theorem get_fstring_from_call_raises :
    (¬ Correct (0 : ℕ) hexCall ∧
      fstringFromArgs ['v', '%', 'd'] (hexCall.args [[.long 255], [.long 3]]) = .error .indexError) ∧
    (¬ Correct (0 : ℕ) numberCall ∧
      fstringFromArgs ['v', '%', 'd'] (numberCall.args [[.long 3]]) = .error .attributeError) := by
  have hhex : fstringFromArgs ['v', '%', 'd'] (hexCall.args [[.long 255], [.long 3]]) =
      .error .indexError := by decide
  have hnumber : fstringFromArgs ['v', '%', 'd'] (numberCall.args [[.long 3]]) =
      .error .attributeError := by decide
  refine ⟨⟨fun h => ?_, hhex⟩, ⟨fun h => ?_, hnumber⟩⟩
  · have hresult := correct_iff.1 h [[.long 255], [.long 3]] (by decide)
    rw [hhex] at hresult
    cases hresult
  · have hresult := correct_iff.1 h [[.long 3]] (by decide)
    rw [hnumber] at hresult
    cases hresult

end FactCore.FormatStrings
