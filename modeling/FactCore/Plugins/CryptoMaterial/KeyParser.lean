import FactCore.Lib.Binary

/-! # The key parser

`_read_der_key` of `plugins/analysis/crypto_material/internal/key_parser.py` and the
readers that use it. The plugin runner opens the file as `io.FileIO`, whose `read`
takes a negative size for everything up to the end of the file.

`DerSequence` is an element as an encoder writes it. The length bytes are unpacked
with signed formats, of which there is none for three bytes; `ReadsWell` says for
which elements this makes no difference.

OpenSSL is a parameter of the readers. It raises only what `OpenSSL` says; the
exceptions of `_read_der_key` are others, and a container without a certificate is
not an error for it.
-/

namespace FactCore.CryptoMaterial

open Binary

/-- The exceptions that the readers raise or catch. -/
inductive Exc where
  | valueError (message : String)
  | structError (message : String)
  | attributeError (message : String)
  | sslError
  | typeError
  | indexError
deriving DecidableEq, Repr

/-! ## The source's functions -/

/-- `LENGTH_TO_FORMAT`. -/
def lengthToFormat : List (Nat × String) := [(1, ">b"), (2, ">h"), (4, ">i")]

/-- `DER_LIMIT`. -/
def derLimit : Nat := 0x80

/-- `DER_HEADER_SIZE`. -/
def derHeaderSize : Nat := 2

/-- `_determine_format_string`. -/
def determineFormatString (length : Nat) : Except Exc String :=
  match lengthToFormat.lookup length with
  | some format => .ok format
  | none => .error (.valueError "Irregular format in DER encoding")

/-- `struct.calcsize(format)` of the signed formats in big-endian order. -/
def calcsize (format : String) : Nat :=
  if format = ">b" then 1 else if format = ">h" then 2 else 4

/-- `unpack(format, data)[0]`. -/
def unpack (format : String) (data : List UInt8) : Except Exc Int :=
  if data.length = calcsize format then .ok (signed data)
  else .error (.structError ("unpack requires a buffer of " ++ toString (calcsize format) ++ " bytes"))

/-- The length that the header at the offset states; `fileHandle` stands behind the
first length byte, which is `value`. -/
def readLength (fileHandle : FileHandle) (value : Nat) : Except Exc Int :=
  if derLimit ≤ value then do
    let size := value ^^^ derLimit
    let format ← determineFormatString size
    let length ← unpack format (fileHandle.read size).1
    return length + size
  else return value

/-- `_read_der_key`. -/
def readDerKey (fileHandle : FileHandle) (offset : Nat) : Except Exc (List UInt8) := do
  let (first, fileHandle) := (fileHandle.seek (offset + 1)).read 1
  let length ← readLength fileHandle (littleEndian first)
  return ((fileHandle.seek offset).read (length + derHeaderSize)).1

/-! ## Elements -/

/-- A definite length, in short form or in long form with one to four length bytes. -/
inductive LengthField where
  | short (n : Nat) (lt : n < 0x80)
  | long (bytes : List UInt8) (size : 1 ≤ bytes.length ∧ bytes.length ≤ 4)

/-- The length that is stated. -/
def LengthField.value : LengthField → Nat
  | .short n _ => n
  | .long bytes _ => bigEndian bytes

def LengthField.encode : LengthField → List UInt8
  | .short n _ => [UInt8.ofNat n]
  | .long bytes _ => UInt8.ofNat (0x80 + bytes.length) :: bytes

/-- A complete SEQUENCE. -/
structure DerSequence where
  length : LengthField
  body : List UInt8
  length_eq : length.value = body.length

def DerSequence.encode (e : DerSequence) : List UInt8 := 0x30 :: e.length.encode ++ e.body

/-- The length is in short form, or it has one, two or four length bytes without the
sign bit. With the sign bit the size is too small by `2 ^ (8 * k)`, which makes no
difference where it is negative and the element stands at the end of the file. -/
def DerSequence.ReadsWell (e : DerSequence) (behind : List UInt8) : Prop :=
  match e.length with
  | .short _ _ => True
  | .long bytes _ => bytes.length ≠ 3 ∧
      (2 * e.body.length < 2 ^ (8 * bytes.length) ∨
        e.body.length + bytes.length + 2 < 2 ^ (8 * bytes.length) ∧ behind = [])

/-! ## What is read -/

variable {content : List UInt8} {offset position : Nat} {b : UInt8} {rest : List UInt8}

theorem data_at (h : content.drop offset = rest) (size : Int) :
    (FileHandle.mk content offset).data size = if size < 0 then rest else rest.take size.toNat := by
  rw [FileHandle.data, h]

/-- The length field is read behind the tag, the element from the tag on. -/
theorem readDerKey_eq (h : content.drop (offset + 1) = b :: rest) :
    readDerKey ⟨content, position⟩ offset =
      (readLength ⟨content, offset + 2⟩ b.toNat).map fun length =>
        (FileHandle.mk content offset).data (length + derHeaderSize) := by
  have hone : (FileHandle.mk content (offset + 1)).data 1 = [b] := by
    rw [data_at h]
    rfl
  simp only [readDerKey, FileHandle.read, FileHandle.seek, hone, littleEndian_singleton]
  rfl

theorem readLength_short (hb : b.toNat < 0x80) (file : FileHandle) :
    readLength file b.toNat = .ok (b.toNat : Int) := by
  have hlimit : ¬ derLimit ≤ b.toNat := Nat.not_le.2 hb
  rw [readLength, if_neg hlimit]
  rfl

theorem xor_derLimit {k : Nat} (hk : k < 0x80) : (0x80 + k) ^^^ derLimit = k := by
  have hall : ∀ k : Fin 0x80, (0x80 + k.val) ^^^ derLimit = k.val := by decide
  exact hall ⟨k, hk⟩

/-- Above the limit the length byte says how many length bytes there are. -/
theorem readLength_long {k : Nat} (hk : k < 0x80) (h : content.drop offset = rest) :
    readLength ⟨content, offset⟩ (0x80 + k) =
      (determineFormatString k).bind fun format =>
        (unpack format (rest.take k)).map fun length => length + (k : Int) := by
  have hlimit : derLimit ≤ 0x80 + k := Nat.le_add_right _ _
  have hdata : (FileHandle.mk content offset).data k = rest.take k := by
    rw [data_at h, if_neg (by omega), Int.toNat_natCast]
  simp only [readLength, if_pos hlimit, xor_derLimit hk, FileHandle.read, hdata]
  rfl

/-- There is a format for one, two and four bytes. -/
theorem determineFormatString_of_known {k : Nat} (hk : k = 1 ∨ k = 2 ∨ k = 4) :
    ∃ format, determineFormatString k = .ok format ∧ calcsize format = k := by
  rcases hk with rfl | rfl | rfl
  · exact ⟨">b", rfl, by decide⟩
  · exact ⟨">h", rfl, by decide⟩
  · exact ⟨">i", rfl, by decide⟩

theorem determineFormatString_of_unknown {k : Nat} (hk : ¬ (k = 1 ∨ k = 2 ∨ k = 4)) :
    determineFormatString k = .error (.valueError "Irregular format in DER encoding") := by
  have hnone : lengthToFormat.lookup k = none := by
    rw [List.lookup_eq_none_iff]
    intro entry hentry
    simp only [lengthToFormat, List.mem_cons, List.not_mem_nil, or_false] at hentry
    rcases hentry with rfl | rfl | rfl
    · exact bne_iff_ne.2 (by omega)
    · exact bne_iff_ne.2 (by omega)
    · exact bne_iff_ne.2 (by omega)
  rw [determineFormatString, hnone]

/-- All length bytes are there and have a format. -/
theorem readLength_long_ok {k : Nat} (hk : k = 1 ∨ k = 2 ∨ k = 4) (h : content.drop offset = rest)
    (hlen : k ≤ rest.length) :
    readLength ⟨content, offset⟩ (0x80 + k) = .ok (signed (rest.take k) + k) := by
  rcases determineFormatString_of_known hk with ⟨format, hformat, hsize⟩
  have htake : (rest.take k).length = calcsize format := by
    rw [List.length_take, hsize]
    omega
  rw [readLength_long (by omega) h, hformat]
  simp only [Except.bind, unpack, if_pos htake]
  rfl

/-- Some of the length bytes lie behind the end of the file. -/
theorem readLength_long_truncated {k : Nat} (hk : k = 1 ∨ k = 2 ∨ k = 4)
    (h : content.drop offset = rest) (hlen : rest.length < k) :
    ∃ message, readLength ⟨content, offset⟩ (0x80 + k) = .error (.structError message) := by
  rcases determineFormatString_of_known hk with ⟨format, hformat, hsize⟩
  have htake : ¬ (rest.take k).length = calcsize format := by
    rw [List.length_take, hsize]
    omega
  rw [readLength_long (by omega) h, hformat]
  simp only [Except.bind, unpack, if_neg htake]
  exact ⟨_, rfl⟩

theorem readLength_long_irregular {k : Nat} (hk : ¬ (k = 1 ∨ k = 2 ∨ k = 4)) (hlt : k < 0x80)
    (h : content.drop offset = rest) :
    readLength ⟨content, offset⟩ (0x80 + k) =
      .error (.valueError "Irregular format in DER encoding") := by
  rw [readLength_long hlt h, determineFormatString_of_unknown hk]
  rfl

/-! ## Complete elements -/

theorem drop_before (before l : List UInt8) : (before ++ l).drop before.length = l := by simp

theorem toNat_ofNat_of_lt {n : Nat} (hn : n < 0x100) : (UInt8.ofNat n).toNat = n := by
  rw [UInt8.toNat_ofNat']
  omega

/-- Reading as many bytes as the element has gives the element. -/
theorem data_eq_element {element behind : List UInt8} {size : Int}
    (hdrop : content.drop offset = element ++ behind) (hsize : size = element.length) :
    (FileHandle.mk content offset).data size = element := by
  rw [data_at hdrop, if_neg (by omega), hsize, Int.toNat_natCast, List.take_left]

/-- Reading fewer bytes does not, unless the size is negative and the file ends with the
element. -/
theorem data_eq_element_iff {element behind : List UInt8} {size : Int}
    (hdrop : content.drop offset = element ++ behind) (hsize : size < element.length) :
    (FileHandle.mk content offset).data size = element ↔ size < 0 ∧ behind = [] := by
  rw [data_at hdrop]
  split
  next hneg => simp [hneg]
  next hnonneg =>
    constructor
    · intro heq
      have hlen := congrArg List.length heq
      rw [List.length_take, List.length_append] at hlen
      omega
    · intro h
      exact absurd h.1 hnonneg

variable {e : DerSequence} {behind : List UInt8}

/-- An element in short form is read completely. -/
theorem readDerKey_short {n : Nat} (hn : n < 0x80) (hlength : e.length = .short n hn)
    (hdrop : content.drop offset = e.encode ++ behind) :
    readDerKey ⟨content, position⟩ offset = .ok e.encode := by
  have hbody : n = e.body.length := by
    have := e.length_eq
    rwa [hlength] at this
  have hencode : e.encode = 0x30 :: UInt8.ofNat n :: e.body := by
    rw [DerSequence.encode, hlength]
    rfl
  have hbytes : content.drop (offset + 1) = UInt8.ofNat n :: (e.body ++ behind) := by
    rw [← List.drop_drop, hdrop, hencode]
    rfl
  have hb := toNat_ofNat_of_lt (n := n) (by omega)
  rw [readDerKey_eq hbytes, readLength_short (by omega), hb]
  refine congrArg Except.ok (data_eq_element hdrop ?_)
  rw [hencode]
  simp only [derHeaderSize, List.length_cons]
  omega

section Long

variable {bytes : List UInt8} {hsize : 1 ≤ bytes.length ∧ bytes.length ≤ 4}

theorem DerSequence.bigEndian_of_long (hlength : e.length = .long bytes hsize) :
    bigEndian bytes = e.body.length := by
  have := e.length_eq
  rwa [hlength] at this

theorem DerSequence.encode_of_long (hlength : e.length = .long bytes hsize) :
    e.encode = 0x30 :: UInt8.ofNat (0x80 + bytes.length) :: (bytes ++ e.body) := by
  rw [DerSequence.encode, hlength]
  rfl

/-- The length of an element in long form is read with its sign bit, or not at all. -/
theorem readDerKey_of_long (hlength : e.length = .long bytes hsize)
    (hdrop : content.drop offset = e.encode ++ behind) :
    readDerKey ⟨content, position⟩ offset =
      if bytes.length = 3 then .error (.valueError "Irregular format in DER encoding")
      else .ok ((FileHandle.mk content offset).data (signed bytes + bytes.length + derHeaderSize)) := by
  have hbytes : content.drop (offset + 1) =
      UInt8.ofNat (0x80 + bytes.length) :: (bytes ++ (e.body ++ behind)) := by
    rw [← List.drop_drop, hdrop, DerSequence.encode_of_long hlength]
    simp
  have hrest : content.drop (offset + 2) = bytes ++ (e.body ++ behind) := by
    rw [← List.drop_drop (i := 1) (j := offset + 1), hbytes]
    rfl
  rw [readDerKey_eq hbytes, toNat_ofNat_of_lt (by omega)]
  by_cases hthree : bytes.length = 3
  · rw [if_pos hthree, hthree, readLength_long_irregular (by omega) (by omega) hrest]
    rfl
  · rw [if_neg hthree, readLength_long_ok (by omega) hrest (by simp), List.take_left]
    rfl

/-- An element in long form is read completely exactly where the sign bit does not
matter. -/
theorem readDerKey_long_iff (hlength : e.length = .long bytes hsize)
    (hdrop : content.drop offset = e.encode ++ behind) :
    readDerKey ⟨content, position⟩ offset = .ok e.encode ↔ bytes.length ≠ 3 ∧
      (2 * e.body.length < 2 ^ (8 * bytes.length) ∨
        e.body.length + bytes.length + 2 < 2 ^ (8 * bytes.length) ∧ behind = []) := by
  have hbody := DerSequence.bigEndian_of_long hlength
  have helement : e.encode.length = bytes.length + e.body.length + 2 := by
    rw [DerSequence.encode_of_long hlength]
    simp
  rw [readDerKey_of_long hlength hdrop]
  by_cases hthree : bytes.length = 3
  · -- there is no format for three bytes
    rw [if_pos hthree]
    exact iff_of_false (fun h => by cases h) (fun h => h.1 hthree)
  rw [if_neg hthree, Except.ok.injEq]
  by_cases hsign : 2 * e.body.length < 2 ^ (8 * bytes.length)
  · have hlt : 2 * bigEndian bytes < 2 ^ (8 * bytes.length) := by rwa [hbody]
    have hsizes : signed bytes + bytes.length + derHeaderSize = (e.encode.length : Int) := by
      rw [signed_of_lt hlt, hbody, helement, derHeaderSize]
      omega
    exact iff_of_true (data_eq_element hdrop hsizes) ⟨hthree, .inl hsign⟩
  · have hlt := bigEndian_lt bytes
    rw [hbody] at hlt
    have hsigned : signed bytes = (e.body.length : Int) - (2 ^ (8 * bytes.length) : Nat) := by
      rw [signed_of_le (by rw [hbody]; omega), hbody]
    have hpos : 0 < 2 ^ (8 * bytes.length) := Nat.two_pow_pos _
    rw [data_eq_element_iff hdrop (by rw [hsigned, helement, derHeaderSize]; omega), hsigned,
      derHeaderSize]
    constructor
    · intro h
      exact ⟨hthree, .inr ⟨by omega, h.2⟩⟩
    · rintro ⟨-, h | h⟩
      · exact absurd h hsign
      · exact ⟨by omega, h.2⟩

end Long

/-- `_read_der_key` reads an element completely if and only if its length reads well. -/
theorem readDerKey_iff (before : List UInt8) (e : DerSequence) (behind : List UInt8)
    (position : Nat) :
    readDerKey ⟨before ++ (e.encode ++ behind), position⟩ before.length = .ok e.encode ↔
      e.ReadsWell behind := by
  have hdrop := drop_before before (e.encode ++ behind)
  unfold DerSequence.ReadsWell
  split
  next n hn hlength => exact iff_of_true (readDerKey_short hn hlength hdrop) trivial
  next bytes hsize hlength => exact readDerKey_long_iff hlength hdrop

theorem sample_size : 1 ≤ [(0x80 : UInt8)].length ∧ [(0x80 : UInt8)].length ≤ 4 := by decide

theorem sample_length : (LengthField.long [0x80] sample_size).value = (List.replicate 128 (0 : UInt8)).length := by
  decide +kernel

/-- An element of 128 bytes, the shortest that needs the long form. -/
def sampleSequence : DerSequence := ⟨.long [0x80] sample_size, List.replicate 128 0, sample_length⟩

/-- If anything stands behind it, the rest of the file is read, too. -/
theorem readDerKey_sample :
    ¬ ∀ (before : List UInt8) (e : DerSequence) (behind : List UInt8) (position : Nat),
      readDerKey ⟨before ++ (e.encode ++ behind), position⟩ before.length = .ok e.encode := by
  intro h
  have hread := congrArg Except.toOption (h [] sampleSequence [0xFF] 0)
  exact absurd hread (by decide +kernel)

/-! ## The readers -/

/-- What `load_privatekey` raises. -/
inductive PrivateKeyError where
  | sslError
  | typeError
deriving DecidableEq, Repr

/-- The loaders, each with the dump to text that follows it, and the text of a
certificate in a PKCS#12 container. -/
structure OpenSSL (Certificate : Type) where
  privateKeyText : List UInt8 → Except PrivateKeyError String
  loadKeyAndCertificates : List UInt8 → Except String (Option Certificate)
  certificateText : Certificate → String
  pemCertificateText : List UInt8 → Option String

variable {Certificate : Type} (ssl : OpenSSL Certificate)

/-- `TLV_KNOWN_STARTS`. -/
def tlvKnownStarts : List Nat := [0x30]

/-- `int.from_bytes(file_handle.read(1), byteorder='little')` at the offset. -/
def startByte (fileHandle : FileHandle) (offset : Nat) : Nat :=
  littleEndian ((fileHandle.seek offset).read 1).1

def PrivateKeyError.toExc : PrivateKeyError → Exc
  | .sslError => .sslError
  | .typeError => .typeError

/-- The `try` block of `read_asn1_key`. -/
def loadAsn1Key (fileHandle : FileHandle) (offset : Nat) : Except Exc String := do
  let keyData ← readDerKey fileHandle offset
  (ssl.privateKeyText keyData).mapError PrivateKeyError.toExc

/-- `read_asn1_key`. -/
def readAsn1Key (fileHandle : FileHandle) (offset : Nat) : Except Exc (Option String) :=
  if startByte fileHandle offset ∉ tlvKnownStarts then .ok none
  else match loadAsn1Key ssl fileHandle offset with
    | .ok text => .ok (some text)
    | .error .sslError => .ok none
    | .error .typeError => .ok none
    | .error exc => .error exc

/-- The `try` block of `read_pkcs_cert`. -/
def loadPkcsCert (fileHandle : FileHandle) (offset : Nat) : Except Exc String := do
  let keyData ← readDerKey fileHandle offset
  match ← (ssl.loadKeyAndCertificates keyData).mapError Exc.valueError with
  | some certificate => return ssl.certificateText certificate
  | none => throw (.attributeError "'NoneType' object has no attribute 'public_bytes'")

/-- `read_pkcs_cert`. -/
def readPkcsCert (fileHandle : FileHandle) (offset : Nat) : Except Exc (Option String) :=
  if startByte fileHandle offset ∉ tlvKnownStarts then .ok none
  else match loadPkcsCert ssl fileHandle offset with
    | .ok text => .ok (some text)
    | .error (.valueError _) => .ok none
    | .error exc => .error exc

/-- `read_ssl_cert`. -/
def readSslCert (fileHandle : FileHandle) (start stop : Nat) : Option String :=
  ssl.pemCertificateText ((fileHandle.seek start).read ((stop : Int) - start + 25)).1

/-! ## Which exceptions come through -/

/-- The length field behind the offset can be decoded: short form, or one, two or four
length bytes that all lie in the file. -/
def RegularLength (content : List UInt8) (offset : Nat) : Prop :=
  ∀ b, content[offset + 1]? = some b → b.toNat < 0x80 ∨
    ∃ k, (k = 1 ∨ k = 2 ∨ k = 4) ∧ b.toNat = 0x80 + k ∧ offset + 2 + k ≤ content.length

/-- The length field announces one, two or four length bytes, and not all of them lie in
the file. -/
def TruncatedLength (content : List UInt8) (offset : Nat) : Prop :=
  ∃ b, content[offset + 1]? = some b ∧
    ∃ k, (k = 1 ∨ k = 2 ∨ k = 4) ∧ b.toNat = 0x80 + k ∧ content.length < offset + 2 + k

/-- What `_read_der_key` makes of a length field. -/
inductive DerOutcome (content : List UInt8) (offset : Nat) : Except Exc (List UInt8) → Prop
  | regular (data : List UInt8) : RegularLength content offset → ¬ TruncatedLength content offset →
      DerOutcome content offset (.ok data)
  | truncated (message : String) : ¬ RegularLength content offset → TruncatedLength content offset →
      DerOutcome content offset (.error (.structError message))
  | irregular (message : String) : ¬ RegularLength content offset →
      ¬ TruncatedLength content offset → DerOutcome content offset (.error (.valueError message))

theorem getElem?_succ (h : content.drop (offset + 1) = b :: rest) :
    content[offset + 1]? = some b ∧ content.length = offset + 2 + rest.length := by
  have hget : (content.drop (offset + 1))[0]? = some b := by rw [h]; rfl
  have hlen := congrArg List.length h
  rw [List.getElem?_drop] at hget
  rw [List.length_drop, List.length_cons] at hlen
  exact ⟨hget, by omega⟩

theorem lengths_of_short (hget : content[offset + 1]? = some b) (hb : b.toNat < 0x80) :
    RegularLength content offset ∧ ¬ TruncatedLength content offset := by
  constructor
  · intro b' hb'
    obtain rfl := Option.some.inj (hget.symm.trans hb')
    exact .inl hb
  · rintro ⟨b', hb', k, -, hk, -⟩
    obtain rfl := Option.some.inj (hget.symm.trans hb')
    omega

theorem regularLength_of_long {k : Nat} (hget : content[offset + 1]? = some b)
    (hb : b.toNat = 0x80 + k) :
    RegularLength content offset ↔ (k = 1 ∨ k = 2 ∨ k = 4) ∧ offset + 2 + k ≤ content.length := by
  constructor
  · intro h
    rcases h b hget with hlt | ⟨k', hk', hb', hlen⟩
    · omega
    · obtain rfl : k = k' := by omega
      exact ⟨hk', hlen⟩
  · intro h b' hb'
    obtain rfl := Option.some.inj (hget.symm.trans hb')
    exact .inr ⟨k, h.1, hb, h.2⟩

theorem truncatedLength_of_long {k : Nat} (hget : content[offset + 1]? = some b)
    (hb : b.toNat = 0x80 + k) :
    TruncatedLength content offset ↔ (k = 1 ∨ k = 2 ∨ k = 4) ∧ content.length < offset + 2 + k := by
  constructor
  · rintro ⟨b', hb', k', hk', hbk, hlen⟩
    obtain rfl := Option.some.inj (hget.symm.trans hb')
    obtain rfl : k = k' := by omega
    exact ⟨hk', hlen⟩
  · intro h
    exact ⟨b, hget, k, h.1, hb, h.2⟩

/-- Behind the end the length byte reads as zero. -/
theorem derOutcome_nil (hdrop : content.drop (offset + 1) = []) :
    DerOutcome content offset (readDerKey ⟨content, position⟩ offset) := by
  have hnone : ∀ b, content[offset + 1]? ≠ some b := by
    intro b hb
    rw [List.getElem?_eq_none (List.drop_eq_nil_iff.1 hdrop)] at hb
    cases hb
  have hdata : (FileHandle.mk content (offset + 1)).data 1 = [] := by
    rw [data_at hdrop]
    rfl
  simp only [readDerKey, FileHandle.read, FileHandle.seek, hdata]
  apply DerOutcome.regular
  · exact fun b hb => absurd hb (hnone b)
  · exact fun ⟨b, hb, _⟩ => hnone b hb

/-- A length byte that announces others. -/
theorem derOutcome_long {b : UInt8} {rest : List UInt8} {k : Nat}
    (hdrop : content.drop (offset + 1) = b :: rest) (hk : b.toNat = 0x80 + k) :
    DerOutcome content offset (readDerKey ⟨content, position⟩ offset) := by
  rcases getElem?_succ hdrop with ⟨hget, hlen⟩
  have hrest : content.drop (offset + 2) = rest := by
    rw [← List.drop_drop (i := 1) (j := offset + 1), hdrop]
    rfl
  have hregular := regularLength_of_long hget hk
  have htruncated := truncatedLength_of_long hget hk
  have hlt : k < 0x80 := by
    have := UInt8.toNat_lt b
    omega
  rw [readDerKey_eq hdrop, hk]
  by_cases hknown : k = 1 ∨ k = 2 ∨ k = 4
  · by_cases hend : k ≤ rest.length
    · rw [readLength_long_ok hknown hrest hend]
      apply DerOutcome.regular
      · exact hregular.2 ⟨hknown, by omega⟩
      · intro h
        have := (htruncated.1 h).2
        omega
    · rcases readLength_long_truncated hknown hrest (by omega) with ⟨message, hread⟩
      rw [hread]
      apply DerOutcome.truncated
      · intro h
        have := (hregular.1 h).2
        omega
      · exact htruncated.2 ⟨hknown, by omega⟩
  · rw [readLength_long_irregular hknown hlt hrest]
    apply DerOutcome.irregular
    · exact fun h => hknown (hregular.1 h).1
    · exact fun h => hknown (htruncated.1 h).1

theorem derOutcome (content : List UInt8) (offset position : Nat) :
    DerOutcome content offset (readDerKey ⟨content, position⟩ offset) := by
  cases hdrop : content.drop (offset + 1) with
  | nil => exact derOutcome_nil hdrop
  | cons b rest =>
      by_cases hshort : b.toNat < 0x80
      · rcases lengths_of_short (getElem?_succ hdrop).1 hshort with ⟨hregular, htruncated⟩
        rw [readDerKey_eq hdrop, readLength_short hshort]
        exact .regular _ hregular htruncated
      · obtain ⟨k, hk⟩ := Nat.exists_eq_add_of_le (Nat.not_lt.1 hshort)
        exact derOutcome_long hdrop hk

theorem startByte_mem_iff :
    startByte ⟨content, position⟩ offset ∈ tlvKnownStarts ↔ content[offset]? = some 0x30 := by
  rw [tlvKnownStarts, List.mem_singleton, startByte]
  cases hdrop : content.drop offset with
  | nil =>
      have hnone : content[offset]? = none := List.getElem?_eq_none (List.drop_eq_nil_iff.1 hdrop)
      simp [FileHandle.read, FileHandle.seek, data_at hdrop, hnone, littleEndian]
  | cons b rest =>
      have hget : content[offset]? = some b := by
        have hhead : (content.drop offset)[0]? = some b := by rw [hdrop]; rfl
        rwa [List.getElem?_drop] at hhead
      have hone : (FileHandle.mk content offset).data 1 = [b] := by
        rw [data_at hdrop]
        rfl
      simp only [FileHandle.read, FileHandle.seek, hone, littleEndian_singleton, hget, Option.some.injEq]
      exact ⟨fun h => UInt8.toNat_inj.1 h, fun h => congrArg UInt8.toNat h⟩

/-- `read_asn1_key` returns if and only if no element starts at the offset or its length
is regular. -/
theorem readAsn1Key_ok_iff : (∃ text, readAsn1Key ssl ⟨content, position⟩ offset = .ok text) ↔
    (content[offset]? = some 0x30 → RegularLength content offset) := by
  rw [readAsn1Key]
  by_cases hbyte : startByte ⟨content, position⟩ offset ∈ tlvKnownStarts
  · have hstart := startByte_mem_iff.1 hbyte
    rw [if_neg (not_not.2 hbyte), loadAsn1Key]
    have houtcome := derOutcome content offset position
    generalize readDerKey ⟨content, position⟩ offset = outcome at houtcome
    cases houtcome with
    | regular data hregular _ =>
        -- both exceptions of the loader are caught
        apply iff_of_true _ fun _ => hregular
        cases hload : ssl.privateKeyText data with
        | ok text => exact ⟨some text, by simp [hload, bind, Except.bind, Except.mapError]⟩
        | error exc =>
            cases exc <;>
              exact ⟨none, by simp [hload, bind, Except.bind, Except.mapError, PrivateKeyError.toExc]⟩
    | truncated message hregular _ =>
        apply iff_of_false _ fun h => hregular (h hstart)
        rintro ⟨text, htext⟩
        cases htext
    | irregular message hregular _ =>
        apply iff_of_false _ fun h => hregular (h hstart)
        rintro ⟨text, htext⟩
        cases htext
  · rw [if_pos hbyte]
    exact iff_of_true ⟨none, rfl⟩ fun h => absurd (startByte_mem_iff.2 h) hbyte

/-- What is read at the offset is a container without a certificate. -/
def NoCertificate (content : List UInt8) (offset : Nat) : Prop :=
  ∃ data, readDerKey ⟨content, offset⟩ offset = .ok data ∧ ssl.loadKeyAndCertificates data = .ok none

/-- The file position does not matter. -/
theorem readDerKey_position (position' : Nat) :
    readDerKey ⟨content, position⟩ offset = readDerKey ⟨content, position'⟩ offset := rfl

/-- `read_pkcs_cert` returns if and only if no element starts at the offset, or its length
bytes all lie in the file and there is a certificate in it, if it is a container. -/
theorem readPkcsCert_ok_iff : (∃ text, readPkcsCert ssl ⟨content, position⟩ offset = .ok text) ↔
    (content[offset]? = some 0x30 →
      ¬ TruncatedLength content offset ∧ ¬ NoCertificate ssl content offset) := by
  rw [readPkcsCert]
  by_cases hbyte : startByte ⟨content, position⟩ offset ∈ tlvKnownStarts
  · have hstart := startByte_mem_iff.1 hbyte
    rw [if_neg (not_not.2 hbyte), loadPkcsCert, NoCertificate, readDerKey_position offset]
    have houtcome := derOutcome content offset offset
    generalize readDerKey ⟨content, offset⟩ offset = outcome at houtcome
    cases houtcome with
    | regular data _ htruncated =>
        have hnone : (∃ data', (Except.ok data : Except Exc (List UInt8)) = .ok data' ∧
            ssl.loadKeyAndCertificates data' = .ok none) ↔ ssl.loadKeyAndCertificates data = .ok none := by
          constructor
          · rintro ⟨data', hdata, hload⟩
            rwa [Except.ok.inj hdata]
          · exact fun hload => ⟨data, rfl, hload⟩
        rw [hnone]
        cases hload : ssl.loadKeyAndCertificates data with
        | ok certificate =>
            cases certificate with
            | some certificate =>
                apply iff_of_true ⟨some (ssl.certificateText certificate), by
                  simp [hload, bind, Except.bind, Except.mapError, pure, Except.pure]⟩
                exact fun _ => ⟨htruncated, fun h => by cases h⟩
            | none =>
                -- the attribute of `None` is looked up
                apply iff_of_false _ fun h => (h hstart).2 rfl
                rintro ⟨text, htext⟩
                simp [hload, bind, Except.bind, Except.mapError] at htext
        | error message =>
            apply iff_of_true ⟨none, by simp [hload, bind, Except.bind, Except.mapError]⟩
            exact fun _ => ⟨htruncated, fun h => by cases h⟩
    | truncated message _ htruncated =>
        apply iff_of_false _ fun h => (h hstart).1 htruncated
        rintro ⟨text, htext⟩
        cases htext
    | irregular message _ htruncated =>
        -- the exception for the length is the one that is caught
        apply iff_of_true ⟨none, rfl⟩
        intro _
        refine ⟨htruncated, ?_⟩
        rintro ⟨data, hdata, -⟩
        cases hdata
  · rw [if_pos hbyte]
    exact iff_of_true ⟨none, rfl⟩ fun h => absurd (startByte_mem_iff.2 h) hbyte

end FactCore.CryptoMaterial
