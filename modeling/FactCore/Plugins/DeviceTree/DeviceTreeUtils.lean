import FactCore.Lib.Binary
import FactCore.Lib.Dict
import FactCore.Lib.Loop
import FactCore.Lib.Text
import Mathlib.Data.List.DropRight

/-! # Device trees

`StructureBlock` and `get_model_or_description` of the plugin `device_tree`, for the blobs
that an encoder of the flattened format writes.

The block is searched for the bytes of a property token. This finds the properties of all
nodes and nothing else, since every value is skipped by its length. The names are looked
up by the offset at which the string table has them first, so a name that is the tail of
another string has none; and the last property with the name wins, whatever its node.
-/

namespace FactCore.DeviceTree

/-! ## The source's functions -/

/-- `int_from_buf` -/
def intFromBuf (buf : List UInt8) (offset : ℕ) : ℕ := Binary.bigEndian ((buf.drop offset).take 4)

/-- `value.strip(b'\0')` -/
def stripNull (value : List UInt8) : List UInt8 := (value.dropWhile (· = 0)).rdropWhile (· = 0)

/-- `strings_by_offset`; a string that is not found has no offset. -/
abbrev StringsByOffset := Dict (Option ℕ) (List UInt8)

/-- A property as it is read. -/
structure Property where
  length : ℕ
  nameOffset : ℕ
  name : Option (List UInt8)
  value : List UInt8

/-- `Property(raw, strings_by_offset)` -/
def Property.read (stringsByOffset : StringsByOffset) (raw : List UInt8) : Property where
  length := intFromBuf raw 4
  nameOffset := intFromBuf raw 8
  name := stringsByOffset.get? (some (intFromBuf raw 8))
  value := stripNull ((raw.drop 12).take (intFromBuf raw 4))

/-- `get_size` -/
def Property.getSize (prop : Property) : ℕ := prop.length + 12

/-- `FDT_PROP` -/
def fdtProp : List UInt8 := [0, 0, 0, 3]

/-- `b'model'` -/
def modelName : List UInt8 := [109, 111, 100, 101, 108]

/-- `b'description'` -/
def descriptionName : List UInt8 := [100, 101, 115, 99, 114, 105, 112, 116, 105, 111, 110]

/-- `value.decode(errors='replace')` -/
def decodeValue (value : List UInt8) : Text := Text.decodeReplace (value.map UInt8.toNat)

/-- The variables of `get_model_or_description`, and the bytes that are left. -/
structure ScanState where
  raw : List UInt8
  model : Option Text
  description : Option Text

/-- The body of the loop over the properties. -/
def readProperty (prop : Property) (st : ScanState) : ScanState where
  raw := st.raw
  model := if prop.name = some modelName then some (decodeValue prop.value) else st.model
  description :=
    -- an empty description does not count
    if st.description.getD [] = [] ∧ prop.name = some descriptionName then some (decodeValue prop.value)
    else st.description

/-- A round of the loop, with the generator that feeds it. -/
def scanStep (stringsByOffset : StringsByOffset) (st : ScanState) :
    ScanState ⊕ (Option Text × Option Text) :=
  match Binary.find fdtProp st.raw with
  | none => .inr (st.description, st.model)
  | some nextPropertyOffset =>
      let prop := Property.read stringsByOffset (st.raw.drop nextPropertyOffset)
      .inl { readProperty prop st with raw := st.raw.drop (nextPropertyOffset + prop.getSize) }

/-- `get_model_or_description(StructureBlock(raw, strings_by_offset))`, unless it takes more
than `n` rounds. -/
def getModelOrDescription (stringsByOffset : StringsByOffset) (raw : List UInt8) (n : ℕ) :
    Option (Option Text × Option Text) :=
  Loop.iterate (scanStep stringsByOffset) n ⟨raw, none, none⟩

/-- `[s for s in strings_block.split(b'\0') if s]` -/
def strings (stringsBlock : List UInt8) : List (List UInt8) := (stringsBlock.splitOn 0).filter fun s => s ≠ []

/-- `{strings_block.find(s): s for s in strings_block.split(b'\0') if s}` -/
def stringsByOffset (stringsBlock : List UInt8) : StringsByOffset :=
  (strings stringsBlock).foldl (fun d s => d.set (Binary.find s stringsBlock) s) ∅

/-! ## Blobs -/

/-- A property of a node: its name, the offset of the name in the string table, its value. -/
structure NodeProperty where
  name : List UInt8
  nameOffset : ℕ
  value : List UInt8

inductive Node where
  | mk (name : List UInt8) (properties : List NodeProperty) (children : List Node)

inductive Token where
  | beginNode (name : List UInt8)
  | prop (nameOffset : ℕ) (value : List UInt8)
  | endNode
  | nop
  | fdtEnd
deriving DecidableEq

/-- Zeros up to the next multiple of four. -/
def padding (length : ℕ) : List UInt8 := List.replicate ((4 - length % 4) % 4) 0

/-- The bytes of a token. -/
def Token.bytes : Token → List UInt8
  | beginNode name => [0, 0, 0, 1] ++ (name ++ [0]) ++ padding (name.length + 1)
  | prop nameOffset value =>
      fdtProp ++ Binary.bigEndianBytes 4 value.length ++ Binary.bigEndianBytes 4 nameOffset ++ value ++
        padding value.length
  | endNode => [0, 0, 0, 2]
  | nop => [0, 0, 0, 4]
  | fdtEnd => [0, 0, 0, 9]

/-- Names have no null bytes, and lengths and offsets have 32 bits. -/
def Token.WellFormed : Token → Prop
  | beginNode name => ∀ b ∈ name, b ≠ 0
  | prop nameOffset value => nameOffset < 256 ^ 4 ∧ value.length < 256 ^ 4
  | _ => True

def NodeProperty.token (p : NodeProperty) : Token := .prop p.nameOffset p.value

mutual

/-- The tokens of a node. -/
def Node.tokens : Node → List Token
  | .mk name properties children =>
      .beginNode name :: (properties.map NodeProperty.token ++ tokensOf children ++ [.endNode])

/-- The tokens of some nodes. -/
def tokensOf : List Node → List Token
  | [] => []
  | node :: nodes => node.tokens ++ tokensOf nodes

end

mutual

/-- The properties of a node and of the nodes below it, in document order. -/
def Node.allProperties : Node → List NodeProperty
  | .mk _ properties children => properties ++ allPropertiesOf children

def allPropertiesOf : List Node → List NodeProperty
  | [] => []
  | node :: nodes => node.allProperties ++ allPropertiesOf nodes

end

/-- The properties of the node itself. -/
def Node.properties : Node → List NodeProperty
  | .mk _ properties _ => properties

/-- What an encoder writes: the tokens of a tree, with an end token and any number of empty
tokens, and a string table with the name of each property at its offset. -/
structure Blob where
  root : Node
  tokens : List Token
  stringsBlock : List UInt8
  tokens_eq : tokens.filter (· ≠ .nop) = root.tokens ++ [.fdtEnd]
  wellFormed : ∀ token ∈ tokens, token.WellFormed
  names : ∀ p ∈ root.allProperties, 0 ∉ p.name ∧ p.name ++ [0] <+: stringsBlock.drop p.nameOffset
  distinct : (root.properties.map NodeProperty.name).Nodup

namespace Blob

def structureBlock (blob : Blob) : List UInt8 := blob.tokens.flatMap Token.bytes

/-- The value of the property `model` of the root. -/
def rootModel (blob : Blob) : Option (List UInt8) :=
  (blob.root.properties.find? fun p => p.name = modelName).map NodeProperty.value

/-- The model is that of the root. -/
def ReadsModel (blob : Blob) : Prop :=
  ∃ description, Loop.Terminates
    (getModelOrDescription (stringsByOffset blob.stringsBlock) blob.structureBlock)
    (description, blob.rootModel.map fun value => decodeValue (stripNull value))

end Blob

/-- The string occurs first at the offset. -/
def FirstAt (stringsBlock s : List UInt8) (offset : ℕ) : Prop :=
  s <+: stringsBlock.drop offset ∧ ∀ j < offset, ¬ s <+: stringsBlock.drop j

/-- The table has the string `model`, and of its strings that occur first at the offset it
is the last one. -/
def ModelListedAt (stringsBlock : List UInt8) (offset : ℕ) : Prop :=
  ∃ front back, strings stringsBlock = front ++ modelName :: back ∧ FirstAt stringsBlock modelName offset ∧
    ∀ s ∈ back, ¬ FirstAt stringsBlock s offset

/-- The last property of the tree with this offset of its name has the value. -/
def LastWithOffset (properties : List NodeProperty) (offset : ℕ) (p : NodeProperty) : Prop :=
  ∃ front back, properties = front ++ p :: back ∧ p.nameOffset = offset ∧ ∀ q ∈ back, q.nameOffset ≠ offset

/-- The name of the root's model is looked up under its offset, and no other model follows;
without a model in the root there is none anywhere. -/
def Blob.ModelFound (blob : Blob) : Prop :=
  match blob.rootModel with
  | some value => ∃ offset p, ModelListedAt blob.stringsBlock offset ∧
      LastWithOffset blob.root.allProperties offset p ∧
      decodeValue (stripNull p.value) = decodeValue (stripNull value)
  | none => ∀ offset, ModelListedAt blob.stringsBlock offset →
      ∀ p ∈ blob.root.allProperties, p.nameOffset ≠ offset

/-! ## Searching for a token -/

variable {k : ℕ} {s rest : List UInt8}

/-- Two null bytes and a three start a run of null bytes only where it ends. -/
theorem eq_three_of_zeros {x : UInt8} (hx : x ≠ 0) {tail : List UInt8}
    (h : [0, 0, 3] ++ tail = List.replicate k 0 ++ x :: s) : x = 3 ∧ k = 2 := by
  cases k with
  | zero => exact absurd (List.cons.inj h).1.symm hx
  | succ k =>
      have h := (List.cons.inj h).2
      cases k with
      | zero => exact absurd (List.cons.inj h).1.symm hx
      | succ k =>
          have h := (List.cons.inj h).2
          cases k with
          | zero => exact ⟨(List.cons.inj h).1.symm, rfl⟩
          | succ k => exact absurd (List.cons.inj h).1 (by decide)

/-- Zeros in front of another byte are the beginning of a property only if there are three
and the byte is three. -/
theorem find_zeros_append {x : UInt8} (hx : x ≠ 0) (k : ℕ) (s : List UInt8) :
    Binary.find fdtProp (List.replicate k 0 ++ x :: s) =
      if x = 3 ∧ 3 ≤ k then some (k - 3) else (Binary.find fdtProp s).map fun i => i + (k + 1) := by
  induction k with
  | zero =>
      have hno : ¬ fdtProp <+: x :: s := by
        intro h
        exact hx (List.cons_prefix_cons.1 h).1.symm
      rw [List.replicate_zero, List.nil_append, Binary.find, if_neg hno, if_neg (by omega)]
  | succ k ih =>
      rw [List.replicate_succ, List.cons_append, Binary.find, ih]
      by_cases hthree : x = 3 ∧ k = 2
      · obtain ⟨rfl, rfl⟩ := hthree
        have hyes : fdtProp <+: 0 :: (List.replicate 2 0 ++ 3 :: s) := ⟨s, rfl⟩
        rw [if_pos hyes, if_pos ⟨rfl, by omega⟩]
      · have hno : ¬ fdtProp <+: 0 :: (List.replicate k 0 ++ x :: s) := by
          rintro ⟨tail, htail⟩
          have hinner : [0, 0, 3] ++ tail = List.replicate k 0 ++ x :: s := (List.cons.inj htail).2
          exact hthree (eq_three_of_zeros hx hinner)
        rw [if_neg hno]
        by_cases hfound : x = 3 ∧ 3 ≤ k
        · rw [if_pos hfound, if_pos ⟨hfound.1, by omega⟩, Option.map_some]
          congr 1
          omega
        · have hnot : ¬ (x = 3 ∧ 3 ≤ k + 1) := by
            rintro ⟨hx3, hk⟩
            by_cases hk2 : k = 2
            · exact hthree ⟨hx3, hk2⟩
            · exact hfound ⟨hx3, by omega⟩
          rw [if_neg hfound, if_neg hnot, Option.map_map]
          rfl

theorem find_zeros (k : ℕ) : Binary.find fdtProp (List.replicate k 0) = none := by
  induction k with
  | zero => rfl
  | succ k ih =>
      have hno : ¬ fdtProp <+: 0 :: List.replicate k 0 := by
        intro h
        have hmem : (3 : UInt8) ∈ List.replicate (k + 1) 0 := h.subset (by decide)
        exact absurd (List.eq_of_mem_replicate hmem) (by decide)
      rw [List.replicate_succ, Binary.find, if_neg hno, ih]
      rfl

/-- No property starts in the bytes in front. -/
def Skipped (l s : List UInt8) : Prop :=
  Binary.find fdtProp (l ++ s) = (Binary.find fdtProp s).map fun i => i + l.length

/-- Zeros before a byte that is neither zero nor three. -/
theorem skipped_zeros {x : UInt8} (hx : x ≠ 0) (hx3 : x ≠ 3) (k : ℕ) (s : List UInt8) :
    Skipped (List.replicate k 0 ++ [x]) s := by
  rw [Skipped, List.append_assoc, List.singleton_append, find_zeros_append hx,
    if_neg fun h => hx3 h.1, List.length_append, List.length_replicate, List.length_singleton]

/-- A name. -/
theorem skipped_name {name : List UInt8} (hname : ∀ b ∈ name, b ≠ 0) (s : List UInt8) : Skipped name s := by
  induction name with
  | nil =>
      rw [Skipped, List.nil_append, List.length_nil]
      exact Option.map_id'.symm
  | cons b name ih =>
      have hfirst := find_zeros_append (hname b List.mem_cons_self) 0 (name ++ s)
      rw [List.replicate_zero, List.nil_append, if_neg (by omega)] at hfirst
      have hrest : Skipped name s := ih fun b' hb' => hname b' (List.mem_cons_of_mem b hb')
      rw [Skipped, List.cons_append, hfirst, hrest, Option.map_map, List.length_cons]
      congr 1

theorem Skipped.append {l l' : List UInt8} (h : Skipped l (l' ++ s)) (h' : Skipped l' s) :
    Skipped (l ++ l') s := by
  rw [Skipped, List.append_assoc, h, h', Option.map_map, List.length_append]
  congr 1
  funext i
  change i + l'.length + l.length = i + (l.length + l'.length)
  omega

variable {names : StringsByOffset} {st : ScanState}

/-- What is skipped makes no difference to the loop. -/
theorem scanStep_skipped {l : List UInt8} (h : Skipped l s) (model description : Option Text) :
    scanStep names ⟨l ++ s, model, description⟩ = scanStep names ⟨s, model, description⟩ := by
  unfold scanStep
  rw [h]
  cases hfind : Binary.find fdtProp s with
  | none => rfl
  | some next =>
      have hdrop : ∀ j, (l ++ s).drop (next + l.length + j) = s.drop (next + j) := by
        intro j
        rw [List.drop_append, List.drop_eq_nil_of_le (by omega), List.nil_append]
        congr 1
        omega
      have hhere := hdrop 0
      simp only [Nat.add_zero] at hhere
      simp only [Option.map_some, hhere, hdrop, readProperty]

theorem terminates_of_skipped {l : List UInt8} (h : Skipped l s) {model description : Option Text}
    {result : Option Text × Option Text}
    (hs : Loop.Terminates (fun n => Loop.iterate (scanStep names) n ⟨s, model, description⟩) result) :
    Loop.Terminates (fun n => Loop.iterate (scanStep names) n ⟨l ++ s, model, description⟩) result := by
  rcases hs with ⟨n, hn⟩
  refine ⟨n, fun m hm => ?_⟩
  have hresult := hn m hm
  cases m with
  | zero => exact hresult
  | succ m =>
      simp only [Loop.iterate] at hresult ⊢
      rwa [scanStep_skipped h]

/-! ## The loop ends -/

/-- A round that goes on leaves fewer bytes. -/
theorem length_scanStep {st' : ScanState} (h : scanStep names st = .inl st') :
    st'.raw.length < st.raw.length := by
  unfold scanStep at h
  split at h
  next => cases h
  next next hfind =>
    obtain rfl := Sum.inl.inj h
    rcases Binary.find_eq_some_iff.1 hfind with ⟨-, hprop, -⟩
    have hlen := hprop.length_le
    rw [List.length_drop] at hlen
    change 4 ≤ st.raw.length - next at hlen
    simp only [List.length_drop, Property.getSize]
    omega

/-- The loop ends for all bytes. -/
theorem getModelOrDescription_terminates (names : StringsByOffset) (raw : List UInt8) :
    ∃ result, Loop.Terminates (getModelOrDescription names raw) result := by
  have hstep : ∀ st st' : ScanState, st.raw.length ≤ raw.length → scanStep names st = .inl st' →
      st'.raw.length ≤ raw.length ∧ st'.raw.length < st.raw.length := by
    intro st st' hle h
    have hlt := length_scanStep h
    exact ⟨by omega, hlt⟩
  have hexit : ∀ (st : ScanState) (result : Option Text × Option Text), st.raw.length ≤ raw.length →
      scanStep names st = .inr result → True := fun _ _ _ _ => trivial
  have hstart : (ScanState.mk raw none none).raw.length ≤ raw.length := Nat.le_refl _
  rcases Loop.iterate_total (fun st => st.raw.length) hstep hexit hstart with ⟨result, hresult, -⟩
  exact ⟨result, hresult⟩

/-! ## The tokens -/

/-- What is read at the beginning of a property. -/
theorem read_prop {nameOffset : ℕ} {value : List UInt8} (h : (Token.prop nameOffset value).WellFormed)
    (rest : List UInt8) :
    Property.read names ((Token.prop nameOffset value).bytes ++ rest) =
      ⟨value.length, nameOffset, names.get? (some nameOffset), stripNull value⟩ := by
  have hbytes : (Token.prop nameOffset value).bytes ++ rest = fdtProp ++
      (Binary.bigEndianBytes 4 value.length ++ (Binary.bigEndianBytes 4 nameOffset ++
        (value ++ (padding value.length ++ rest)))) := by
    simp [Token.bytes]
  have hfour : ((Token.prop nameOffset value).bytes ++ rest).drop 4 =
      Binary.bigEndianBytes 4 value.length ++ (Binary.bigEndianBytes 4 nameOffset ++
        (value ++ (padding value.length ++ rest))) := by
    rw [hbytes]
    rfl
  have height : ((Token.prop nameOffset value).bytes ++ rest).drop 8 =
      Binary.bigEndianBytes 4 nameOffset ++ (value ++ (padding value.length ++ rest)) := by
    rw [show (8 : ℕ) = 4 + 4 by rfl, ← List.drop_drop, hfour, List.drop_left' (Binary.length_bigEndianBytes 4 _)]
  have htwelve : ((Token.prop nameOffset value).bytes ++ rest).drop 12 =
      value ++ (padding value.length ++ rest) := by
    rw [show (12 : ℕ) = 8 + 4 by rfl, ← List.drop_drop, height,
      List.drop_left' (Binary.length_bigEndianBytes 4 _)]
  have hlength : intFromBuf ((Token.prop nameOffset value).bytes ++ rest) 4 = value.length := by
    rw [intFromBuf, hfour, List.take_left' (Binary.length_bigEndianBytes 4 _),
      Binary.bigEndian_bigEndianBytes h.2]
  have hoffset : intFromBuf ((Token.prop nameOffset value).bytes ++ rest) 8 = nameOffset := by
    rw [intFromBuf, height, List.take_left' (Binary.length_bigEndianBytes 4 _),
      Binary.bigEndian_bigEndianBytes h.1]
  rw [Property.read, hlength, hoffset, htwelve, List.take_left]

/-- Behind a property there are only the zeros up to the next token. -/
theorem drop_prop (nameOffset : ℕ) (value rest : List UInt8) :
    ((Token.prop nameOffset value).bytes ++ rest).drop (value.length + 12) = padding value.length ++ rest := by
  have hbytes : (Token.prop nameOffset value).bytes ++ rest =
      (fdtProp ++ Binary.bigEndianBytes 4 value.length ++ Binary.bigEndianBytes 4 nameOffset ++ value) ++
        (padding value.length ++ rest) := by
    simp [Token.bytes]
  rw [hbytes, List.drop_left']
  simp only [List.length_append, Binary.length_bigEndianBytes, fdtProp, List.length_cons, List.length_nil]
  omega

/-- The round that finds a property. -/
theorem scanStep_prop {nameOffset : ℕ} {value : List UInt8} (h : (Token.prop nameOffset value).WellFormed)
    (k : ℕ) (rest : List UInt8) (model description : Option Text) :
    scanStep names ⟨List.replicate k 0 ++ ((Token.prop nameOffset value).bytes ++ rest), model, description⟩ =
      .inl { readProperty ⟨value.length, nameOffset, names.get? (some nameOffset), stripNull value⟩
        ⟨[], model, description⟩ with raw := padding value.length ++ rest } := by
  have hzeros : List.replicate k 0 ++ ((Token.prop nameOffset value).bytes ++ rest) =
      List.replicate (k + 3) 0 ++ 3 :: (((Token.prop nameOffset value).bytes ++ rest).drop 4) := by
    rw [List.replicate_add, List.append_assoc]
    simp [Token.bytes, fdtProp]
  have hfind : Binary.find fdtProp (List.replicate k 0 ++ ((Token.prop nameOffset value).bytes ++ rest)) =
      some k := by
    rw [hzeros, find_zeros_append (by decide), if_pos ⟨rfl, by omega⟩]
    congr 1
  have hdrop : ∀ j, (List.replicate k 0 ++ ((Token.prop nameOffset value).bytes ++ rest)).drop (k + j) =
      ((Token.prop nameOffset value).bytes ++ rest).drop j := by
    intro j
    rw [List.drop_append, List.drop_eq_nil_of_le (by rw [List.length_replicate]; omega), List.nil_append,
      List.length_replicate]
    congr 1
    omega
  have hhere := hdrop 0
  rw [Nat.add_zero, List.drop_zero] at hhere
  unfold scanStep
  simp only [hfind, hhere, read_prop h, Property.getSize, hdrop, drop_prop, readProperty]

/-- The properties among some tokens. -/
def propsOf (tokens : List Token) : List (ℕ × List UInt8) :=
  tokens.filterMap fun token =>
    match token with
    | .prop nameOffset value => some (nameOffset, value)
    | _ => none

/-- What the loop does for the properties among the tokens. -/
def readTokens (names : StringsByOffset) (tokens : List Token) (st : ScanState) : ScanState :=
  (propsOf tokens).foldl
    (fun st p => readProperty ⟨p.2.length, p.1, names.get? (some p.1), stripNull p.2⟩ st) st

/-- The other tokens are skipped. -/
theorem skipped_token {token : Token} (h : token.WellFormed) (hprop : propsOf [token] = []) (k : ℕ) :
    ∃ l k', (∀ rest, Skipped l (List.replicate k' 0 ++ rest)) ∧
      List.replicate k 0 ++ token.bytes = l ++ List.replicate k' 0 := by
  cases token with
  | beginNode name =>
      refine ⟨List.replicate (k + 3) 0 ++ [1] ++ name, 1 + (4 - (name.length + 1) % 4) % 4, fun rest => ?_, ?_⟩
      · exact (skipped_zeros (by decide) (by decide) _ _).append (skipped_name h _)
      · rw [List.replicate_add, List.replicate_add]
        simp [Token.bytes, padding]
  | prop nameOffset value => cases hprop
  | endNode =>
      refine ⟨List.replicate (k + 3) 0 ++ [2], 0, fun rest => skipped_zeros (by decide) (by decide) _ _, ?_⟩
      rw [List.replicate_add]
      simp [Token.bytes]
  | nop =>
      refine ⟨List.replicate (k + 3) 0 ++ [4], 0, fun rest => skipped_zeros (by decide) (by decide) _ _, ?_⟩
      rw [List.replicate_add]
      simp [Token.bytes]
  | fdtEnd =>
      refine ⟨List.replicate (k + 3) 0 ++ [9], 0, fun rest => skipped_zeros (by decide) (by decide) _ _, ?_⟩
      rw [List.replicate_add]
      simp [Token.bytes]

/-- The loop reads the properties among the tokens in their order, and nothing else. -/
theorem terminates_tokens (names : StringsByOffset) {tokens : List Token} (h : ∀ token ∈ tokens, token.WellFormed) (k : ℕ)
    (model description : Option Text) :
    Loop.Terminates (fun n => Loop.iterate (scanStep names) n
        ⟨List.replicate k 0 ++ tokens.flatMap Token.bytes, model, description⟩)
      ((readTokens names tokens ⟨[], model, description⟩).description,
        (readTokens names tokens ⟨[], model, description⟩).model) := by
  induction tokens generalizing k model description with
  | nil =>
      apply Loop.Terminates.of_return
      unfold scanStep
      rw [List.flatMap_nil, List.append_nil, find_zeros]
      rfl
  | cons token tokens ih =>
      have htoken := h token List.mem_cons_self
      have htokens : ∀ token' ∈ tokens, token'.WellFormed := fun t ht => h t (List.mem_cons_of_mem token ht)
      rw [List.flatMap_cons]
      by_cases hprop : propsOf [token] = []
      · rcases skipped_token htoken hprop k with ⟨l, k', hskip, hbytes⟩
        have hread : readTokens names (token :: tokens) ⟨[], model, description⟩ =
            readTokens names tokens ⟨[], model, description⟩ := by
          have hprops : propsOf (token :: tokens) = propsOf [token] ++ propsOf tokens :=
            List.filterMap_append (l := [token])
          rw [readTokens, hprops, hprop]
          rfl
        rw [hread, ← List.append_assoc, hbytes, List.append_assoc]
        exact terminates_of_skipped (hskip _) (ih htokens k' model description)
      · cases token with
        | prop nameOffset value =>
            apply Loop.Terminates.of_step (scanStep_prop htoken k _ model description)
            exact ih htokens _ _ _
        | beginNode name => exact absurd rfl hprop
        | endNode => exact absurd rfl hprop
        | nop => exact absurd rfl hprop
        | fdtEnd => exact absurd rfl hprop

/-! ## The properties of the tree -/

/-- What the loop reads of a property of the tree. -/
def NodeProperty.item (p : NodeProperty) : ℕ × List UInt8 := (p.nameOffset, p.value)

theorem propsOf_append (tokens tokens' : List Token) :
    propsOf (tokens ++ tokens') = propsOf tokens ++ propsOf tokens' := List.filterMap_append

theorem propsOf_properties (properties : List NodeProperty) :
    propsOf (properties.map NodeProperty.token) = properties.map NodeProperty.item := by
  induction properties with
  | nil => rfl
  | cons p properties ih =>
      rw [List.map_cons, List.map_cons, ← ih]
      rfl

mutual

theorem propsOf_node : (node : Node) → propsOf node.tokens = node.allProperties.map NodeProperty.item
  | .mk name properties children => by
      have hchildren := propsOf_nodes children
      have hbegin : propsOf (Node.mk name properties children).tokens =
          propsOf (properties.map NodeProperty.token ++ tokensOf children ++ [.endNode]) := rfl
      have hend : propsOf [.endNode] = [] := rfl
      rw [hbegin, propsOf_append, propsOf_append, propsOf_properties, hchildren, hend, List.append_nil,
        Node.allProperties, List.map_append]

theorem propsOf_nodes : (nodes : List Node) → propsOf (tokensOf nodes) = (allPropertiesOf nodes).map NodeProperty.item
  | [] => rfl
  | node :: nodes => by
      have hnode := propsOf_node node
      have hnodes := propsOf_nodes nodes
      rw [tokensOf, propsOf_append, hnode, hnodes, allPropertiesOf, List.map_append]

end

theorem propsOf_filter (tokens : List Token) : propsOf (tokens.filter (· ≠ .nop)) = propsOf tokens := by
  induction tokens with
  | nil => rfl
  | cons token tokens ih =>
      rw [List.filter_cons]
      split
      next =>
        have hcons : ∀ tokens, propsOf (token :: tokens) = propsOf [token] ++ propsOf tokens :=
          fun tokens => propsOf_append [token] tokens
        rw [hcons, ih, hcons tokens]
      next hnop =>
        obtain rfl : token = .nop := by simpa using hnop
        exact ih

/-- Whatever tokens stand between those of the tree, the properties are those of the tree. -/
theorem Blob.propsOf_tokens (blob : Blob) :
    propsOf blob.tokens = blob.root.allProperties.map NodeProperty.item := by
  have hend : propsOf [.fdtEnd] = [] := rfl
  rw [← propsOf_filter, blob.tokens_eq, propsOf_append, propsOf_node, hend, List.append_nil]

/-! ## The names -/

theorem find_eq_some_iff_firstAt {s stringsBlock : List UInt8} (hne : s ≠ []) {offset : ℕ} :
    Binary.find s stringsBlock = some offset ↔ FirstAt stringsBlock s offset := by
  rw [Binary.find_eq_some_iff]
  constructor
  · rintro ⟨-, hsub, hfirst⟩
    exact ⟨hsub, hfirst⟩
  · rintro ⟨hsub, hfirst⟩
    refine ⟨?_, hsub, hfirst⟩
    by_contra hle
    rw [List.drop_eq_nil_of_le (by omega)] at hsub
    exact hne (List.prefix_nil.1 hsub)

/-- The name under an offset is the last string that occurs there first. -/
theorem get?_stringsByOffset (stringsBlock : List UInt8) (offset : ℕ) :
    (stringsByOffset stringsBlock).get? (some offset) =
      ((strings stringsBlock).filter fun s => Binary.find s stringsBlock = some offset).getLast? := by
  have hget := Dict.get?_foldl_assign (fun s => Binary.find s stringsBlock) id (strings stringsBlock) ∅
    (some offset)
  have hnone : (∅ : StringsByOffset).get? (some offset) = none := rfl
  rw [hnone, Option.or_none, Option.map_id] at hget
  exact hget

theorem name_eq_model_iff (stringsBlock : List UInt8) (offset : ℕ) :
    (stringsByOffset stringsBlock).get? (some offset) = some modelName ↔
      ModelListedAt stringsBlock offset := by
  have hne : ∀ s ∈ strings stringsBlock, s ≠ [] := fun s hs => of_decide_eq_true (List.mem_filter.1 hs).2
  have hmodel : modelName ≠ [] := List.cons_ne_nil _ _
  rw [get?_stringsByOffset, Dict.getLast?_filter_eq_some_iff]
  constructor
  · rintro ⟨front, back, hsplit, hfound, hback⟩
    refine ⟨front, back, hsplit, ?_, fun s hs hfirst => ?_⟩
    · exact (find_eq_some_iff_firstAt hmodel).1 (of_decide_eq_true hfound)
    · have hs' : s ∈ strings stringsBlock := by rw [hsplit]; simp [hs]
      exact hback s hs (decide_eq_true ((find_eq_some_iff_firstAt (hne s hs')).2 hfirst))
  · rintro ⟨front, back, hsplit, hfirst, hback⟩
    refine ⟨front, back, hsplit, ?_, fun s hs hfound => ?_⟩
    · exact decide_eq_true ((find_eq_some_iff_firstAt hmodel).2 hfirst)
    · have hs' : s ∈ strings stringsBlock := by rw [hsplit]; simp [hs]
      exact hback s hs ((find_eq_some_iff_firstAt (hne s hs')).1 (of_decide_eq_true hfound))

/-- There is one such offset at most. -/
theorem ModelListedAt.unique {stringsBlock : List UInt8} {offset offset' : ℕ}
    (h : ModelListedAt stringsBlock offset) (h' : ModelListedAt stringsBlock offset') : offset = offset' := by
  rcases h with ⟨_, _, -, hfirst, -⟩
  rcases h' with ⟨_, _, -, hfirst', -⟩
  have hne : modelName ≠ [] := List.cons_ne_nil _ _
  have hfind := (find_eq_some_iff_firstAt hne).2 hfirst
  exact Option.some.inj (hfind.symm.trans ((find_eq_some_iff_firstAt hne).2 hfirst'))

/-! ## The model -/

/-- The model that is left is that of the last property with the name. -/
theorem model_readTokens (names : StringsByOffset) (items : List (ℕ × List UInt8)) (st : ScanState) :
    (items.foldl (fun st p => readProperty ⟨p.2.length, p.1, names.get? (some p.1), stripNull p.2⟩ st)
        st).model =
      (((items.filter fun p => names.get? (some p.1) = some modelName).getLast?).map
        fun p => decodeValue (stripNull p.2)).or st.model := by
  induction items using List.reverseRecOn with
  | nil => rfl
  | append_singleton items p ih =>
      rw [List.foldl_append, List.foldl_cons, List.foldl_nil, List.filter_append, List.filter_cons,
        List.filter_nil]
      by_cases hname : names.get? (some p.1) = some modelName
      · rw [if_pos (decide_eq_true hname), List.getLast?_concat]
        exact if_pos hname
      · rw [if_neg (by simpa using hname), List.append_nil, ← ih]
        exact if_neg hname

/-- The last property of the tree whose name is looked up as `model`. -/
def Blob.lastModel (blob : Blob) : Option NodeProperty :=
  (blob.root.allProperties.filter fun p =>
    (stringsByOffset blob.stringsBlock).get? (some p.nameOffset) = some modelName).getLast?

/-- The loop on a blob. -/
theorem Blob.terminates (blob : Blob) : ∃ description, Loop.Terminates
    (getModelOrDescription (stringsByOffset blob.stringsBlock) blob.structureBlock)
    (description, blob.lastModel.map fun p => decodeValue (stripNull p.value)) := by
  have h := terminates_tokens (stringsByOffset blob.stringsBlock) blob.wellFormed 0 none none
  have hmodel : (readTokens (stringsByOffset blob.stringsBlock) blob.tokens ⟨[], none, none⟩).model =
      blob.lastModel.map fun p => decodeValue (stripNull p.value) := by
    rw [readTokens, model_readTokens, blob.propsOf_tokens, Option.or_none, List.filter_map,
      List.getLast?_map, Option.map_map]
    rfl
  rw [hmodel] at h
  exact ⟨_, h⟩

theorem Blob.readsModel_iff_lastModel (blob : Blob) : blob.ReadsModel ↔
    (blob.lastModel.map fun p => decodeValue (stripNull p.value)) =
      blob.rootModel.map fun value => decodeValue (stripNull value) := by
  rcases blob.terminates with ⟨description, hterminates⟩
  constructor
  · rintro ⟨description', h⟩
    have heq := hterminates.unique h
    exact (Prod.mk.inj heq).2
  · intro h
    rw [h] at hterminates
    exact ⟨description, hterminates⟩

theorem Blob.lastModel_eq_some_iff {blob : Blob} {p : NodeProperty} : blob.lastModel = some p ↔
    ∃ offset, ModelListedAt blob.stringsBlock offset ∧ LastWithOffset blob.root.allProperties offset p := by
  rw [Blob.lastModel, Dict.getLast?_filter_eq_some_iff]
  simp only [decide_eq_true_eq, name_eq_model_iff]
  constructor
  · rintro ⟨front, back, hsplit, hlisted, hback⟩
    refine ⟨p.nameOffset, hlisted, front, back, hsplit, rfl, fun q hq heq => ?_⟩
    exact hback q hq (heq ▸ hlisted)
  · rintro ⟨offset, hlisted, front, back, hsplit, rfl, hback⟩
    exact ⟨front, back, hsplit, hlisted, fun q hq hq' => hback q hq (hq'.unique hlisted)⟩

theorem Blob.lastModel_eq_none_iff {blob : Blob} : blob.lastModel = none ↔
    ∀ offset, ModelListedAt blob.stringsBlock offset → ∀ p ∈ blob.root.allProperties, p.nameOffset ≠ offset := by
  rw [Blob.lastModel, List.getLast?_eq_none_iff, List.filter_eq_nil_iff]
  simp only [decide_eq_true_eq, name_eq_model_iff]
  constructor
  · intro h offset hlisted p hp heq
    exact h p hp (heq ▸ hlisted)
  · intro h p hp hlisted
    exact h p.nameOffset hlisted p hp rfl

/-- The loop ends on all bytes, and on a blob it returns the model of the root exactly where
its name is found and no other model follows. -/
theorem readsModel_iff (names : StringsByOffset) (raw : List UInt8) (blob : Blob) :
    (∃ result, Loop.Terminates (getModelOrDescription names raw) result) ∧
      (blob.ReadsModel ↔ blob.ModelFound) := by
  refine ⟨getModelOrDescription_terminates names raw, ?_⟩
  rw [blob.readsModel_iff_lastModel, Blob.ModelFound]
  cases blob.rootModel with
  | none => rw [Option.map_none, Option.map_eq_none_iff, Blob.lastModel_eq_none_iff]
  | some value =>
      simp only [Option.map_some, Option.map_eq_some_iff]
      constructor
      · rintro ⟨p, hp, hvalue⟩
        rcases Blob.lastModel_eq_some_iff.1 hp with ⟨offset, hlisted, hlast⟩
        exact ⟨offset, p, hlisted, hlast, hvalue⟩
      · rintro ⟨offset, p, hlisted, hlast, hvalue⟩
        exact ⟨p, Blob.lastModel_eq_some_iff.2 ⟨offset, hlisted, hlast⟩, hvalue⟩

/-- A table with the string `xmodel`. -/
def sampleStrings : List UInt8 := [120, 109, 111, 100, 101, 108, 0]

/-- A root with the model `A`, whose name is the tail of that string. -/
def sampleRoot : Node := .mk [] [⟨modelName, 1, [65, 0]⟩] []

def sampleTokens : List Token := [.beginNode [], .prop 1 [65, 0], .endNode, .fdtEnd]

theorem tokens_sample : sampleTokens.filter (· ≠ .nop) = sampleRoot.tokens ++ [.fdtEnd] := by decide

theorem wellFormed_sample : ∀ token ∈ sampleTokens, token.WellFormed := by
  simp [sampleTokens, Token.WellFormed]

theorem names_sample : ∀ p ∈ sampleRoot.allProperties,
    0 ∉ p.name ∧ p.name ++ [0] <+: sampleStrings.drop p.nameOffset := by
  intro p hp
  obtain rfl : p = ⟨modelName, 1, [65, 0]⟩ := List.mem_singleton.1 hp
  exact ⟨by decide, [], rfl⟩

theorem distinct_sample : (sampleRoot.properties.map NodeProperty.name).Nodup := List.nodup_singleton _

def sampleBlob : Blob where
  root := sampleRoot
  tokens := sampleTokens
  stringsBlock := sampleStrings
  tokens_eq := tokens_sample
  wellFormed := wellFormed_sample
  names := names_sample
  distinct := distinct_sample

/-- The model of the root is not found. -/
theorem getModelOrDescription_sample :
    sampleBlob.rootModel = some [65, 0] ∧
      getModelOrDescription (stringsByOffset sampleStrings) sampleBlob.structureBlock 2 = some (none, none) ∧
      ¬ sampleBlob.ReadsModel := by
  have hroot : sampleBlob.rootModel = some [65, 0] := by decide
  have hscan : getModelOrDescription (stringsByOffset sampleStrings) sampleBlob.structureBlock 2 =
      some (none, none) := by decide +kernel
  refine ⟨hroot, hscan, ?_⟩
  rintro ⟨description, h⟩
  have heq := (Loop.terminates_of_iterate hscan).unique h
  rw [hroot] at heq
  cases (Prod.mk.inj heq).2

end FactCore.DeviceTree
