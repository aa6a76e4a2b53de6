import Mathlib.Data.Bool.AllAny
import FactCore.Lib.Base64
import FactCore.Lib.Loop
import FactCore.Lib.Regex
import FactCore.Lib.Replace
import FactCore.Lib.Text

/-! # The credential finders

The finders of `plugins/analysis/users_and_passwords/internal/credentials_finder.py`.
Each parses what its regular expressions find, and takes for granted that an entry
has the fields that it unpacks. `crack_hash` runs a container; it is a parameter and
returns.

What the expressions guarantee is enough for the UNIX and the htpasswd finder. The salt
of a Mosquitto entry is base64 by its characters only.
-/

namespace FactCore.UsersAndPasswords

open Regex

/-- The exceptions of the parsers. -/
inductive Exc where
  | valueError (message : String)
  | binasciiError (error : Base64.Error)
deriving DecidableEq, Repr

/-- `CredentialResult`. -/
structure CredentialResult where
  username : Text
  fullEntry : Text
  type : String
  passwordHash : Option Text
  password : Option Text
  error : Option Text
deriving DecidableEq, Repr

/-! ## Regular expressions -/

/-- A class of bytes, given by its ranges. -/
def isIn (ranges : List (Char × Char)) (b : UInt8) : Bool :=
  ranges.any fun r => decide (r.1.toNat ≤ b.toNat ∧ b.toNat ≤ r.2.toNat)

/-- The bytes of an ASCII literal. -/
def ascii (s : String) : List UInt8 := s.toList.map fun c => UInt8.ofNat c.toNat

def letters : List (Char × Char) := [('a', 'z'), ('A', 'Z')]

def digits : List (Char × Char) := [('0', '9')]

def symbol (c : Char) : Char × Char := (c, c)

/-- `USER_NAME_REGEX`: `[a-zA-Z_][a-zA-Z0-9_-]{2,16}`. -/
def userNameRegex : Regex UInt8 :=
  cls (isIn (symbol '_' :: letters)) ++
    between (cls (isIn (symbol '_' :: symbol '-' :: letters ++ digits))) 2 16

/-- `:[x!*]?:\d{1,5}:\d{0,5}(?::[^:\n]{0,64}){2}:(?:/[^\n"\']+)?` behind the user name. -/
def passwdRegex : Regex UInt8 :=
  userNameRegex ++ lit (ascii ":") ++ opt (cls (isIn [symbol 'x', symbol '!', symbol '*'])) ++
    lit (ascii ":") ++ between (cls (isIn digits)) 1 5 ++ lit (ascii ":") ++
    between (cls (isIn digits)) 0 5 ++
    times (lit (ascii ":") ++ between (cls fun b => !isIn [symbol ':', symbol '\n'] b) 0 64) 2 ++
    lit (ascii ":") ++
    opt (lit (ascii "/") ++ plus (cls fun b => !isIn [symbol '\n', symbol '"', symbol '\''] b))

/-- `:\$(?:1|2|2a|2y|5|6|y)\$[a-zA-Z0-9./+]*\$[a-zA-Z0-9./+]{16,128}={0,2}` behind the
user name. -/
def cryptRegex : Regex UInt8 :=
  userNameRegex ++ lit (ascii ":$") ++
    (lit (ascii "1") ||| lit (ascii "2") ||| lit (ascii "2a") ||| lit (ascii "2y") |||
      lit (ascii "5") ||| lit (ascii "6") ||| lit (ascii "y")) ++ lit (ascii "$") ++
    star true (cls (isIn ([symbol '.', symbol '/', symbol '+'] ++ letters ++ digits))) ++
    lit (ascii "$") ++
    between (cls (isIn ([symbol '.', symbol '/', symbol '+'] ++ letters ++ digits))) 16 128 ++
    between (cls (isIn [symbol '='])) 0 2

/-- `:[a-zA-Z0-9./=]{13}:\d*:\d*:` behind the user name. -/
def desRegex : Regex UInt8 :=
  userNameRegex ++ lit (ascii ":") ++
    times (cls (isIn ([symbol '.', symbol '/', symbol '='] ++ letters ++ digits))) 13 ++
    lit (ascii ":") ++ star true (cls (isIn digits)) ++ lit (ascii ":") ++
    star true (cls (isIn digits)) ++ lit (ascii ":")

/-- `:\$apr1\$[a-zA-Z0-9./+=]+\$[a-zA-Z0-9./+]{22}` behind the user name. -/
def apr1Regex : Regex UInt8 :=
  userNameRegex ++ lit (ascii ":$apr1$") ++
    plus (cls (isIn ([symbol '.', symbol '/', symbol '+', symbol '='] ++ letters ++ digits))) ++
    lit (ascii "$") ++
    times (cls (isIn ([symbol '.', symbol '/', symbol '+'] ++ letters ++ digits))) 22

/-- `:\{SHA}[a-zA-Z0-9./+]{27}=` behind the user name. -/
def shaRegex : Regex UInt8 :=
  userNameRegex ++ lit (ascii ":\x7bSHA\x7d") ++
    times (cls (isIn ([symbol '.', symbol '/', symbol '+'] ++ letters ++ digits))) 27 ++
    lit (ascii "=")

/-- The characters of a salt, `[a-zA-Z0-9+/=]`. -/
def saltClass : List (Char × Char) := [symbol '+', symbol '/', symbol '='] ++ letters ++ digits

/-- `[a-zA-Z][a-zA-Z0-9_-]{2,15}:\$6\$[a-zA-Z0-9+/=]+\$[a-zA-Z0-9+/]{86}==`. -/
def mosquittoRegex : Regex UInt8 :=
  cls (isIn letters) ++
    between (cls (isIn (symbol '_' :: symbol '-' :: letters ++ digits))) 2 15 ++
    lit (ascii ":$6$") ++ plus (cls (isIn saltClass)) ++ lit (ascii "$") ++
    times (cls (isIn ([symbol '+', symbol '/'] ++ letters ++ digits))) 86 ++ lit (ascii "==")

/-! ## The finders -/

/-- `_to_str`. -/
def toStr (byteStr : List UInt8) : Text := Text.decodeReplace (byteStr.map UInt8.toNat)

/-- A finder: its expressions and its parser. -/
structure CredentialFinder where
  regexList : List (Regex UInt8)
  parseEntry : List UInt8 → Except Exc CredentialResult

/-- What the expressions of a finder find, in order. -/
def CredentialFinder.entries (finder : CredentialFinder) (fileContents : List UInt8) : List (List UInt8) :=
  finder.regexList.flatMap fun passwdRegex => findall passwdRegex fileContents

/-- `find_credentials`. -/
def CredentialFinder.findCredentials (finder : CredentialFinder) (fileContents : List UInt8) :
    Except Exc (List CredentialResult) :=
  (finder.entries fileContents).mapM finder.parseEntry

/-- `:` -/
def colon : UInt8 := 0x3A

/-- `$` -/
def dollar : UInt8 := 0x24

/-- `DES_HASH_LENGTH`. -/
def desHashLength : Nat := 13

/-- `_is_des_hash`. -/
def isDesHash (pwHash : List UInt8) : Bool := pwHash.length = desHashLength

/-- What unpacking raises that finds another number of fields. -/
def unpackError (n : Nat) : Exc :=
  .valueError ("not enough values to unpack (expected at least " ++ toString n ++ ")")

variable (crackHash : List UInt8 → String → Option Text × Option Text)

/-- `UnixCredentialFinder._parse_entry`. -/
def parseUnixEntry (entry : List UInt8) : Except Exc CredentialResult :=
  match entry.splitOn colon with
  | userName :: pwHash :: _ =>
      let (password, error) :=
        if [dollar] <+: pwHash ∨ isDesHash pwHash then crackHash (userName ++ [colon] ++ pwHash) ""
        else (none, none)
      .ok ⟨toStr userName, toStr entry, "unix", some (toStr pwHash), password, error⟩
  | _ => .error (unpackError 2)

/-- `HtpasswdCredentialFinder._parse_entry`. -/
def parseHtpasswdEntry (entry : List UInt8) : Except Exc CredentialResult :=
  match entry.splitOn colon with
  | [userName, pwHash] =>
      let (password, error) := crackHash entry ""
      .ok ⟨toStr userName, toStr entry, "http", some (toStr pwHash), password, error⟩
  | _ => .error (.valueError "too many values to unpack (expected 2)")

/-- `b64decode(s)` of a text. -/
def b64decode (s : Text) : Except Exc (List UInt8) :=
  if s.all fun c => decide (c < 0x80) then
    (Base64.decode (s.map UInt8.ofNat)).mapError Exc.binasciiError
  else .error (.valueError "string argument should contain only ASCII characters")

/-- A hexadecimal digit. -/
def hexDigit (n : Nat) : Nat := if n < 10 then 0x30 + n else 0x57 + n

/-- `data.hex()`. -/
def hex (data : List UInt8) : Text :=
  data.flatMap fun b => [hexDigit (b.toNat / 16), hexDigit (b.toNat % 16)]

/-- `re.split(r'[:$]', s)`. -/
def splitFields (s : Text) : List Text :=
  s.splitOnP fun c => decide (c = colon.toNat ∨ c = dollar.toNat)

/-- `MosquittoCredentialFinder._parse_entry`. -/
def parseMosquittoEntry (entry : List UInt8) : Except Exc CredentialResult :=
  match splitFields (toStr entry) with
  | user :: _ :: _ :: saltHash :: passwdHash :: _ => do
      let passwd ← b64decode passwdHash
      let salt ← b64decode saltHash
      let passwdEntry := user ++ Text.ofString ":$dynamic_82$" ++ hex passwd ++
        Text.ofString "$HEX$" ++ hex salt
      let (password, error) := crackHash (Text.encode passwdEntry) "--format=dynamic_82"
      return ⟨user, toStr entry, "mosquitto", some passwdEntry, password, error⟩
  | _ => .error (unpackError 5)

def unixCredentialFinder : CredentialFinder :=
  ⟨[passwdRegex, cryptRegex, desRegex], parseUnixEntry crackHash⟩

def htpasswdCredentialFinder : CredentialFinder :=
  ⟨[apr1Regex, shaRegex], parseHtpasswdEntry crackHash⟩

def mosquittoCredentialFinder : CredentialFinder := ⟨[mosquittoRegex], parseMosquittoEntry crackHash⟩

/-! ## What the expressions guarantee -/

variable {w rest entry : List UInt8} {c c' : Captures UInt8}

theorem isIn_mono {ranges ranges' : List (Char × Char)} {b : UInt8}
    (hsub : ∀ r ∈ ranges, r ∈ ranges') (h : isIn ranges b = true) : isIn ranges' b = true := by
  rcases List.any_eq_true.1 h with ⟨r, hr, hb⟩
  exact List.any_eq_true.2 ⟨r, hsub r hr, hb⟩

/-- A byte outside a class is not in a text of the class. -/
theorem notMem_of_class {ranges : List (Char × Char)} {b : UInt8} (h : ∀ x ∈ w, isIn ranges x = true)
    (hb : isIn ranges b = false) : b ∉ w := by
  intro hmem
  rw [h b hmem] at hb
  cases hb

theorem colon_notMem_userName (h : Matches userNameRegex c w rest c') : colon ∉ w := by
  rcases matches_append.1 h with ⟨w1, w2, c1, rfl, h1, h2⟩
  rcases matches_cls.1 h1 with ⟨x, rfl, hx, -⟩
  have hall := (forall_of_matches_between_cls h2).1
  intro hmem
  rcases List.mem_append.1 hmem with hmem | hmem
  · obtain rfl := List.mem_singleton.1 hmem
    exact absurd hx (by decide)
  · exact notMem_of_class hall (by decide) hmem

/-- An expression whose matches have a colon. -/
def HasColon (r : Regex UInt8) : Prop := ∀ c w rest c', Matches r c w rest c' → colon ∈ w

/-- An expression whose matches have none. -/
def NoColon (r : Regex UInt8) : Prop := ∀ c w rest c', Matches r c w rest c' → colon ∉ w

/-- An expression whose matches have exactly one. -/
def OneColon (r : Regex UInt8) : Prop := ∀ c w rest c', Matches r c w rest c' →
  ∃ u v, w = u ++ colon :: v ∧ colon ∉ u ∧ colon ∉ v

variable {r s : Regex UInt8} {ranges : List (Char × Char)} {l : List UInt8} {n : Nat}

theorem hasColon_lit (h : colon ∈ l) : HasColon (lit l) := by
  intro c w rest c' hmatch
  rw [(matches_lit.1 hmatch).1]
  exact h

theorem HasColon.append_left (h : HasColon r) : HasColon (r ++ s) := by
  intro c w rest c' hmatch
  rcases matches_append.1 hmatch with ⟨w1, w2, c1, rfl, h1, -⟩
  exact List.mem_append_left _ (h _ _ _ _ h1)

theorem HasColon.append_right (h : HasColon s) : HasColon (r ++ s) := by
  intro c w rest c' hmatch
  rcases matches_append.1 hmatch with ⟨w1, w2, c1, rfl, -, h2⟩
  exact List.mem_append_right _ (h _ _ _ _ h2)

theorem noColon_userName : NoColon userNameRegex := fun _ _ _ _ h => colon_notMem_userName h

theorem noColon_lit (h : colon ∉ l) : NoColon (lit l) := by
  intro c w rest c' hmatch
  rw [(matches_lit.1 hmatch).1]
  exact h

theorem noColon_plus (h : isIn ranges colon = false) : NoColon (plus (cls (isIn ranges))) :=
  fun _ _ _ _ hmatch => notMem_of_class (matches_plus_cls.1 hmatch).2.1 h

theorem noColon_times (h : isIn ranges colon = false) : NoColon (times (cls (isIn ranges)) n) :=
  fun _ _ _ _ hmatch => notMem_of_class (matches_times_cls.1 hmatch).2.1 h

/-- The colon of an expression stands in a literal. -/
theorem oneColon_lit (hr : NoColon r) (hl : colon ∉ l) : OneColon (r ++ lit (colon :: l)) := by
  intro c w rest c' hmatch
  rcases matches_append.1 hmatch with ⟨w1, w2, c1, rfl, h1, h2⟩
  obtain rfl := (matches_lit.1 h2).1
  exact ⟨w1, l, rfl, hr _ _ _ _ h1, hl⟩

theorem OneColon.append (hr : OneColon r) (hs : NoColon s) : OneColon (r ++ s) := by
  intro c w rest c' hmatch
  rcases matches_append.1 hmatch with ⟨w1, w2, c1, rfl, h1, h2⟩
  rcases hr _ _ _ _ h1 with ⟨u, v, rfl, hu, hv⟩
  refine ⟨u, v ++ w2, by simp, hu, fun hmem => ?_⟩
  rcases List.mem_append.1 hmem with hmem | hmem
  · exact hv hmem
  · exact hs _ _ _ _ h2 hmem

theorem hasColon_of_mem_unix (h : r ∈ [passwdRegex, cryptRegex, desRegex]) : HasColon r := by
  have hcolon : HasColon (lit (ascii ":")) := hasColon_lit (by decide +kernel)
  have hcrypt : HasColon (lit (ascii ":$")) := hasColon_lit (by decide +kernel)
  rcases List.mem_cons.1 h with rfl | h
  · exact hcolon.append_right.append_left
  rcases List.mem_cons.1 h with rfl | h
  · have huser : HasColon (userNameRegex ++ lit (ascii ":$")) := hcrypt.append_right
    exact huser.append_left.append_left.append_left.append_left.append_left.append_left
  · obtain rfl := List.mem_singleton.1 h
    exact hcolon.append_right

theorem oneColon_of_mem_htpasswd (h : r ∈ [apr1Regex, shaRegex]) : OneColon r := by
  rcases List.mem_cons.1 h with rfl | h
  · have huser : OneColon (userNameRegex ++ lit (ascii ":$apr1$")) :=
      oneColon_lit noColon_userName (by decide +kernel : colon ∉ ascii "$apr1$")
    exact ((huser.append (noColon_plus (by decide))).append
      (noColon_lit (by decide +kernel))).append (noColon_times (by decide))
  · obtain rfl := List.mem_singleton.1 h
    have huser : OneColon (userNameRegex ++ lit (ascii ":\x7bSHA\x7d")) :=
      oneColon_lit noColon_userName (by decide +kernel : colon ∉ ascii "\x7bSHA\x7d")
    exact (huser.append (noColon_times (by decide))).append (noColon_lit (by decide +kernel))

/-- An entry is a match of one of the expressions. -/
theorem matches_of_mem_entries {finder : CredentialFinder} {fileContents : List UInt8}
    (h : entry ∈ finder.entries fileContents) :
    ∃ r ∈ finder.regexList, ∃ rest c, Matches r [] entry rest c := by
  rcases List.mem_flatMap.1 h with ⟨r, hr, hentry⟩
  exact ⟨r, hr, matches_of_mem_findall hentry⟩

/-! ## UNIX and htpasswd -/

theorem parseUnixEntry_ok (h : colon ∈ entry) :
    ∃ result, parseUnixEntry crackHash entry = .ok result ∧ result.fullEntry = toStr entry := by
  rcases List.append_of_mem h with ⟨front, behind, rfl⟩
  have hsplit : ∃ userName pwHash fields, (front ++ colon :: behind).splitOn colon =
      userName :: pwHash :: fields := by
    rw [List.splitOn_append_cons_self]
    obtain ⟨x, xs, hx⟩ := List.exists_cons_of_ne_nil (List.splitOn_ne_nil colon front)
    obtain ⟨y, ys, hy⟩ := List.exists_cons_of_ne_nil (List.splitOn_ne_nil colon behind)
    rw [hx, hy]
    cases xs with
    | nil => exact ⟨x, y, ys, rfl⟩
    | cons x' xs => exact ⟨x, x', xs ++ y :: ys, rfl⟩
  rcases hsplit with ⟨userName, pwHash, fields, hsplit⟩
  simp only [parseUnixEntry, hsplit]
  exact ⟨_, rfl, rfl⟩

theorem parseHtpasswdEntry_ok {u v : List UInt8} (hentry : entry = u ++ colon :: v) (hu : colon ∉ u)
    (hv : colon ∉ v) :
    ∃ result, parseHtpasswdEntry crackHash entry = .ok result ∧ result.fullEntry = toStr entry := by
  have hsplit : entry.splitOn colon = [u, v] := by
    rw [hentry, List.splitOn_append_cons_self_of_not_mem hu, List.splitOn_eq_singleton hv]
  simp only [parseHtpasswdEntry, hsplit]
  exact ⟨_, rfl, rfl⟩

/-! ## Mosquitto -/

/-- The fields of a Mosquitto entry. -/
structure MosquittoEntry (entry user salt hash : List UInt8) : Prop where
  eq : entry = user ++ ascii ":$6$" ++ salt ++ ascii "$" ++ (hash ++ ascii "==")
  user : ∀ b ∈ user, isIn (symbol '_' :: symbol '-' :: letters ++ digits) b = true
  salt : ∀ b ∈ salt, isIn saltClass b = true
  length_hash : hash.length = 86
  hash : ∀ b ∈ hash, isIn ([symbol '+', symbol '/'] ++ letters ++ digits) b = true

theorem mosquittoEntry_of_matches (h : Matches mosquittoRegex c w rest c') :
    ∃ user salt hash, MosquittoEntry w user salt hash := by
  unfold mosquittoRegex at h
  rcases matches_append.1 h with ⟨_, pad, _, rfl, h, hpad⟩
  rcases matches_append.1 h with ⟨_, hash, _, rfl, h, hhash⟩
  rcases matches_append.1 h with ⟨_, dollar, _, rfl, h, hdollar⟩
  rcases matches_append.1 h with ⟨_, salt, _, rfl, h, hsalt⟩
  rcases matches_append.1 h with ⟨_, six, _, rfl, h, hsix⟩
  rcases matches_append.1 h with ⟨_, more, _, rfl, hfirst, hmore⟩
  rcases matches_cls.1 hfirst with ⟨x, rfl, hx, -⟩
  obtain rfl := (matches_lit.1 hpad).1
  obtain rfl := (matches_lit.1 hdollar).1
  obtain rfl := (matches_lit.1 hsix).1
  refine ⟨[x] ++ more, salt, hash, ⟨by simp, fun b hb => ?_, ?_, ?_, ?_⟩⟩
  · rcases List.mem_append.1 hb with hb | hb
    · obtain rfl := List.mem_singleton.1 hb
      exact isIn_mono (fun r hr => by simp [hr]) hx
    · exact (forall_of_matches_between_cls hmore).1 b hb
  · exact (matches_plus_cls.1 hsalt).2.1
  · exact (matches_times_cls.1 hhash).1
  · exact (matches_times_cls.1 hhash).2.1

theorem lt_of_isIn {ranges : List (Char × Char)} {b : UInt8}
    (hlt : ∀ r ∈ ranges, r.2.toNat < 0x80) (h : isIn ranges b = true) : b.toNat < 0x80 := by
  rcases List.any_eq_true.1 h with ⟨r, hr, hb⟩
  have hle := (of_decide_eq_true hb).2
  have := hlt r hr
  omega

theorem toStr_of_ascii (h : ∀ b ∈ entry, b.toNat < 0x80) : toStr entry = entry.map UInt8.toNat := by
  apply Text.decodeReplace_of_ascii
  intro n hn
  rcases List.mem_map.1 hn with ⟨b, hb, rfl⟩
  exact h b hb

theorem ofNat_toNat (l : List UInt8) : (l.map UInt8.toNat).map UInt8.ofNat = l := by
  simp [Function.comp_def]

/-- An ASCII text is decoded by its bytes. -/
theorem b64decode_map {l : List UInt8} (h : ∀ b ∈ l, b.toNat < 0x80) :
    b64decode (l.map UInt8.toNat) = (Base64.decode l).mapError Exc.binasciiError := by
  have hall : ((l.map UInt8.toNat).all fun c => decide (c < 0x80)) = true := by
    rw [List.all_eq_true]
    intro c hc
    rcases List.mem_map.1 hc with ⟨b, hb, rfl⟩
    exact decide_eq_true (h b hb)
  rw [b64decode, if_pos hall, ofNat_toNat]

variable {user salt hash : List UInt8}

/-- Fields without a separator are found again. -/
theorem splitFields_cons {l : List UInt8} (hl : ∀ b ∈ l, b ≠ colon ∧ b ≠ dollar) {sep : UInt8}
    (hsep : sep = colon ∨ sep = dollar) (rest : List UInt8) :
    splitFields ((l ++ sep :: rest).map UInt8.toNat) =
      l.map UInt8.toNat :: splitFields (rest.map UInt8.toNat) := by
  rw [List.map_append, List.map_cons]
  apply List.splitOnP_append_cons_of_forall_mem
  · intro n hn
    rcases List.mem_map.1 hn with ⟨b, hb, rfl⟩
    apply decide_eq_false
    rintro (h | h)
    · exact (hl b hb).1 (UInt8.toNat_inj.1 h)
    · exact (hl b hb).2 (UInt8.toNat_inj.1 h)
  · apply decide_eq_true
    rcases hsep with rfl | rfl
    · exact .inl rfl
    · exact .inr rfl

theorem splitFields_single {l : List UInt8} (hl : ∀ b ∈ l, b ≠ colon ∧ b ≠ dollar) :
    splitFields (l.map UInt8.toNat) = [l.map UInt8.toNat] := by
  apply List.splitOnP_eq_singleton
  intro n hn
  rcases List.mem_map.1 hn with ⟨b, hb, rfl⟩
  apply decide_eq_false
  rintro (h | h)
  · exact (hl b hb).1 (UInt8.toNat_inj.1 h)
  · exact (hl b hb).2 (UInt8.toNat_inj.1 h)

/-- No separator is in a class that has none. -/
theorem ne_of_isIn {ranges : List (Char × Char)} {l : List UInt8} (h : ∀ b ∈ l, isIn ranges b = true)
    (hcolon : isIn ranges colon = false) (hdollar : isIn ranges dollar = false) :
    ∀ b ∈ l, b ≠ colon ∧ b ≠ dollar := by
  intro b hb
  constructor
  · rintro rfl
    exact notMem_of_class h hcolon hb
  · rintro rfl
    exact notMem_of_class h hdollar hb

theorem ascii_version : ascii ":$6$" = [colon, dollar, 0x36, dollar] := by decide +kernel

theorem ascii_dollar : ascii "$" = [dollar] := by decide +kernel

theorem ascii_padding : ascii "==" = List.replicate 2 Base64.pad := by decide +kernel

theorem MosquittoEntry.user_ne (h : MosquittoEntry entry user salt hash) : ∀ b ∈ user, b ≠ colon ∧ b ≠ dollar :=
  ne_of_isIn h.user (by decide) (by decide)

theorem MosquittoEntry.salt_ne (h : MosquittoEntry entry user salt hash) : ∀ b ∈ salt, b ≠ colon ∧ b ≠ dollar :=
  ne_of_isIn h.salt (by decide) (by decide)

theorem MosquittoEntry.hash_ne (h : MosquittoEntry entry user salt hash) : ∀ b ∈ hash, b ≠ colon ∧ b ≠ dollar :=
  ne_of_isIn h.hash (by decide) (by decide)

/-- The entry has the five fields that are unpacked. -/
theorem MosquittoEntry.splitFields (h : MosquittoEntry entry user salt hash) :
    UsersAndPasswords.splitFields (entry.map UInt8.toNat) =
      [user.map UInt8.toNat, [], [0x36], salt.map UInt8.toNat,
        (hash ++ ascii "==").map UInt8.toNat] := by
  have hentry : entry = user ++ colon :: ([] ++ dollar :: ([0x36] ++ dollar ::
      (salt ++ dollar :: (hash ++ ascii "==")))) := by
    rw [h.eq, ascii_version, ascii_dollar]
    simp
  have hversion : ∀ b ∈ [(0x36 : UInt8)], b ≠ colon ∧ b ≠ dollar := List.all_iff_forall_prop.1 (by decide)
  have hhash : ∀ b ∈ hash ++ ascii "==", b ≠ colon ∧ b ≠ dollar := by
    intro b hb
    rcases List.mem_append.1 hb with hb | hb
    · exact h.hash_ne b hb
    · rw [ascii_padding] at hb
      obtain rfl := List.eq_of_mem_replicate hb
      decide
  rw [hentry, splitFields_cons h.user_ne (.inl rfl), splitFields_cons (by simp) (.inr rfl),
    splitFields_cons hversion (.inr rfl), splitFields_cons h.salt_ne (.inr rfl),
    splitFields_single hhash]
  rfl

theorem MosquittoEntry.ascii_entry (h : MosquittoEntry entry user salt hash) :
    (∀ b ∈ user, b.toNat < 0x80) ∧ (∀ b ∈ salt, b.toNat < 0x80) ∧
      (∀ b ∈ hash ++ ascii "==", b.toNat < 0x80) ∧ ∀ b ∈ entry, b.toNat < 0x80 := by
  have hpad : ∀ b ∈ ascii "==", b.toNat < 0x80 := by
    rw [ascii_padding]
    exact List.all_iff_forall_prop.1 (by decide)
  have hsix : ∀ b ∈ ascii ":$6$", b.toNat < 0x80 := by
    rw [ascii_version]
    exact List.all_iff_forall_prop.1 (by decide)
  have hdollar : ∀ b ∈ ascii "$", b.toNat < 0x80 := by
    rw [ascii_dollar]
    exact List.all_iff_forall_prop.1 (by decide)
  have huser : ∀ b ∈ user, b.toNat < 0x80 :=
    fun b hb => lt_of_isIn (by decide) (h.user b hb)
  have hsalt : ∀ b ∈ salt, b.toNat < 0x80 :=
    fun b hb => lt_of_isIn (by decide) (h.salt b hb)
  have hhash : ∀ b ∈ hash ++ ascii "==", b.toNat < 0x80 := by
    intro b hb
    rcases List.mem_append.1 hb with hb | hb
    · exact lt_of_isIn (by decide) (h.hash b hb)
    · exact hpad b hb
  refine ⟨huser, hsalt, hhash, ?_⟩
  rw [h.eq]
  simp only [List.forall_mem_append] at hhash ⊢
  exact ⟨⟨⟨⟨huser, hsix⟩, hsalt⟩, hdollar⟩, hhash⟩

/-- The characters of a hash are those of the base64 alphabet. -/
theorem isSome_sextet {b : UInt8} (h : isIn ([symbol '+', symbol '/'] ++ letters ++ digits) b = true) :
    (Base64.sextet b).isSome = true := by
  have hall : ∀ n : Fin 256, isIn ([symbol '+', symbol '/'] ++ letters ++ digits) (UInt8.ofNat n) = true →
      (Base64.sextet (UInt8.ofNat n)).isSome = true := by
    decide +kernel
  have hb := hall ⟨b.toNat, UInt8.toNat_lt b⟩
  simp only [UInt8.ofNat_toNat] at hb
  exact hb h

/-- The hash has 86 characters of the alphabet and the padding for them. -/
theorem MosquittoEntry.decode_hash (h : MosquittoEntry entry user salt hash) :
    ∃ data, Base64.decode (hash ++ ascii "==") = .ok data := by
  have hcount : Base64.dataCount hash = 86 := by
    rw [← h.length_hash]
    apply List.countP_eq_length.2
    intro b hb
    exact isSome_sextet (h.hash b hb)
  rw [ascii_padding]
  apply Base64.decode_ok_iff.2
  apply Base64.decodable_of_padded
  · rw [hcount]
  · rw [hcount]

/-- The parser returns if and only if the salt can be decoded. -/
theorem parseMosquittoEntry_ok_iff (h : MosquittoEntry entry user salt hash) :
    (∃ result, parseMosquittoEntry crackHash entry = .ok result ∧ result.fullEntry = toStr entry) ↔
      Base64.Decodable salt := by
  rcases h.ascii_entry with ⟨-, hsalt, hhash, hentry⟩
  rcases h.decode_hash with ⟨passwd, hpasswd⟩
  rw [← Base64.decode_ok_iff]
  simp only [parseMosquittoEntry, toStr_of_ascii hentry, h.splitFields, b64decode_map hhash, hpasswd,
    b64decode_map hsalt]
  constructor
  · rintro ⟨result, hresult, -⟩
    cases hdecode : Base64.decode salt with
    | ok data => exact ⟨data, rfl⟩
    | error e =>
        rw [hdecode] at hresult
        cases hresult
  · rintro ⟨data, hdata⟩
    rw [hdata]
    exact ⟨_, rfl, rfl⟩

/-! ## All finders -/

/-- The finder does not raise and has one result for each match. -/
def OneForEach (finder : CredentialFinder) (fileContents : List UInt8) : Prop :=
  ∃ results, finder.findCredentials fileContents = .ok results ∧
    results.map CredentialResult.fullEntry = (finder.entries fileContents).map toStr

theorem oneForEach_iff {finder : CredentialFinder} {fileContents : List UInt8} :
    OneForEach finder fileContents ↔ ∀ entry ∈ finder.entries fileContents,
      ∃ result, finder.parseEntry entry = .ok result ∧ result.fullEntry = toStr entry :=
  Loop.mapM_keyed_iff

theorem unix_oneForEach (fileContents : List UInt8) :
    OneForEach (unixCredentialFinder crackHash) fileContents := by
  rw [oneForEach_iff]
  intro entry hentry
  rcases matches_of_mem_entries hentry with ⟨r, hr, rest, c, hmatch⟩
  exact parseUnixEntry_ok crackHash (hasColon_of_mem_unix hr _ _ _ _ hmatch)

theorem htpasswd_oneForEach (fileContents : List UInt8) :
    OneForEach (htpasswdCredentialFinder crackHash) fileContents := by
  rw [oneForEach_iff]
  intro entry hentry
  rcases matches_of_mem_entries hentry with ⟨r, hr, rest, c, hmatch⟩
  rcases oneColon_of_mem_htpasswd hr _ _ _ _ hmatch with ⟨u, v, heq, hu, hv⟩
  exact parseHtpasswdEntry_ok crackHash heq hu hv

/-- The salt of an entry, between `:$6$` and the next dollar sign, can be decoded. -/
def SaltDecodable (entry : List UInt8) : Prop :=
  ∀ user salt hash, entry = user ++ ascii ":$6$" ++ salt ++ ascii "$" ++ hash → Base64.Decodable salt

/-- The separators of an entry: one colon and three dollar signs. -/
theorem MosquittoEntry.count_separators (h : MosquittoEntry entry user salt hash) :
    entry.count colon = 1 ∧ entry.count dollar = 3 := by
  have hzero : ∀ l : List UInt8, (∀ b ∈ l, b ≠ colon ∧ b ≠ dollar) →
      l.count colon = 0 ∧ l.count dollar = 0 := by
    intro l hl
    exact ⟨List.count_eq_zero.2 fun hmem => (hl colon hmem).1 rfl,
      List.count_eq_zero.2 fun hmem => (hl dollar hmem).2 rfl⟩
  rw [h.eq]
  simp only [List.count_append, hzero user h.user_ne, hzero salt h.salt_ne, hzero hash h.hash_ne,
    ascii_version, ascii_dollar, ascii_padding]
  decide

/-- There is only one way to read the fields of an entry. -/
theorem MosquittoEntry.saltDecodable_iff (h : MosquittoEntry entry user salt hash) :
    SaltDecodable entry ↔ Base64.Decodable salt := by
  constructor
  · exact fun hall => hall user salt (hash ++ ascii "==") h.eq
  · intro hdec user' salt' hash' heq
    rcases h.count_separators with ⟨hcolons, hdollars⟩
    have hentry := h.eq
    rw [ascii_version, ascii_dollar] at hentry heq
    -- no separators are left for the user and the salt
    rw [heq] at hcolons hdollars
    simp only [List.count_append, List.count_cons, List.count_nil] at hcolons hdollars
    have huser' : colon ∉ user' := List.count_eq_zero.1 (by simp at hcolons; omega)
    have hsalt' : dollar ∉ salt' := List.count_eq_zero.1 (by simp [colon, dollar] at hdollars ⊢; omega)
    have huser : colon ∉ user := fun hmem => (h.user_ne colon hmem).1 rfl
    have hsalt : dollar ∉ salt := fun hmem => (h.salt_ne dollar hmem).2 rfl
    have heq' : user ++ colon :: (dollar :: 0x36 :: dollar :: (salt ++ dollar :: (hash ++ ascii "=="))) =
        user' ++ colon :: (dollar :: 0x36 :: dollar :: (salt' ++ dollar :: hash')) := by
      simpa using hentry.symm.trans heq
    have hrest := (Replace.append_sep_inj huser huser' heq').2
    simp only [List.cons.injEq, true_and] at hrest
    rw [← (Replace.append_sep_inj hsalt hsalt' hrest).1]
    exact hdec

theorem mosquitto_oneForEach_iff (fileContents : List UInt8) :
    OneForEach (mosquittoCredentialFinder crackHash) fileContents ↔
      ∀ entry ∈ (mosquittoCredentialFinder crackHash).entries fileContents, SaltDecodable entry := by
  rw [oneForEach_iff]
  apply forall₂_congr
  intro entry hentry
  rcases matches_of_mem_entries hentry with ⟨r, hr, rest, c, hmatch⟩
  obtain rfl := List.mem_singleton.1 hr
  rcases mosquittoEntry_of_matches hmatch with ⟨user, salt, hash, h⟩
  rw [h.saltDecodable_iff]
  exact parseMosquittoEntry_ok_iff crackHash h

/-- All finders have one result for each match if and only if the salts of the Mosquitto
entries can be decoded; the finder raises on the first that cannot. -/
theorem findCredentials_iff (fileContents : List UInt8) :
    (OneForEach (unixCredentialFinder crackHash) fileContents ∧
      OneForEach (htpasswdCredentialFinder crackHash) fileContents ∧
      OneForEach (mosquittoCredentialFinder crackHash) fileContents) ↔
    ∀ entry ∈ findall mosquittoRegex fileContents, SaltDecodable entry := by
  have hentries : (mosquittoCredentialFinder crackHash).entries fileContents =
      findall mosquittoRegex fileContents := by
    simp [CredentialFinder.entries, mosquittoCredentialFinder]
  rw [← hentries, ← mosquitto_oneForEach_iff crackHash fileContents]
  constructor
  · exact fun h => h.2.2
  · exact fun h => ⟨unix_oneForEach crackHash fileContents, htpasswd_oneForEach crackHash fileContents, h⟩

/-- A password file whose second entry has a salt of five characters. -/
def samplePasswordFile : List UInt8 :=
  ascii "one:$6$c2FsdA==$" ++ List.replicate 86 0x41 ++ ascii "==\ntwo:$6$c2Fsd$" ++
    List.replicate 86 0x41 ++ ascii "==\n"

/-- No credential of the file is returned. -/
theorem findCredentials_sample :
    ¬ ∀ fileContents, OneForEach (mosquittoCredentialFinder fun _ _ => (none, none)) fileContents := by
  intro h
  rcases h samplePasswordFile with ⟨results, hresults, -⟩
  have hnone : ((mosquittoCredentialFinder fun _ _ => (none, none)).findCredentials
      samplePasswordFile).toOption = none := by
    decide +kernel
  rw [hresults] at hnone
  cases hnone

end FactCore.UsersAndPasswords
