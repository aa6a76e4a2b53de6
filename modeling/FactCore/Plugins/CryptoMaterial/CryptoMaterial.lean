import FactCore.Lib.Text
import FactCore.Plugins.CryptoMaterial.KeyBlocks
import FactCore.Plugins.CryptoMaterial.KeyParser

/-! # The crypto material analysis

`convert_yara_result` of `plugins/analysis/crypto_material/code/crypto_material.py`
and the functions that it chooses by the name of a rule. A match that is not a key
must not keep the other keys of the file from being reported; `Harmless` names the
matches whose readers return.
-/

namespace FactCore.CryptoMaterial

open Binary

/-- An entry of the YARA results; its meta data is not read. -/
structure YaraResult where
  rule : String
  strings : List Match

/-- `CryptoMaterialMatch`. -/
structure CryptoMaterialMatch where
  rule : String
  material : List String
  count : Nat
  hashes : List String
deriving DecidableEq, Repr

/-! ## The source's functions -/

/-- `STARTEND`. -/
def startEnd : List String :=
  ["PgpPublicKeyBlock", "PgpPrivateKeyBlock", "PgpPublicKeyBlock_GnuPG", "genericPublicKey",
    "SshRsaPrivateKeyBlock", "SshEncryptedRsaPrivateKeyBlock", "SSLPrivateKey"]

/-- `STARTONLY`. -/
def startOnly : List String := ["SshRsaPublicKeyBlock"]

/-- `PKCS8`. -/
def pkcs8 : String := "Pkcs8PrivateKey"

/-- `PKCS12`. -/
def pkcs12 : String := "Pkcs12Certificate"

/-- `SSLCERT`. -/
def sslCert : String := "SSLCertificate"

/-- `_read_from_file`. -/
def readFromFile (fileHandle : FileHandle) (start stop : Nat) : List UInt8 :=
  ((fileHandle.seek start).read ((stop : Int) - start)).1

/-- `.decode(encoding='utf_8', errors='replace')`. -/
def decode (bytes : List UInt8) : String :=
  String.ofList ((Text.decodeReplace (bytes.map UInt8.toNat)).map Char.ofNat)

/-- The default of `min_key_len`. -/
def minKeyLen : Int := 128

/-- The texts of the pairs that are long enough. -/
def labeledKeys (fileHandle : FileHandle) (pairs : List (Nat × Nat)) : List String :=
  (pairs.filter fun p => decide (minKeyLen < (p.2 : Int) - p.1)).map fun p =>
    decode (readFromFile fileHandle p.1 p.2)

/-- `extract_labeled_keys`. -/
def extractLabeledKeys (found : List Match) (fileHandle : FileHandle) : Except Exc (List String) := do
  let pairs ← (getOffsetPairs found).mapError fun _ => Exc.indexError
  return labeledKeys fileHandle pairs

/-- `extract_start_only_key`. -/
def extractStartOnlyKey (found : List Match) : List String :=
  (found.filter fun m => m.label = "$start_string").map Match.matchedString

/-- The loop of `get_pkcs8_key` and `get_pkcs12_cert`. -/
def collectTexts (read : Match → Except Exc (Option String)) (found : List Match) :
    Except Exc (List String) :=
  found.foldlM
    (fun keys m => do
      match ← read m with
      | some key => return keys ++ [key]
      | none => return keys)
    []

variable {Certificate : Type} (ssl : OpenSSL Certificate) (md5 : String → String)

/-- `get_pkcs8_key`. -/
def getPkcs8Key (found : List Match) (fileHandle : FileHandle) : Except Exc (List String) :=
  collectTexts (fun m => readAsn1Key ssl fileHandle m.offset) found

/-- `get_pkcs12_cert`. -/
def getPkcs12Cert (found : List Match) (fileHandle : FileHandle) : Except Exc (List String) :=
  collectTexts (fun m => readPkcsCert ssl fileHandle m.offset) found

/-- The certificates that can be loaded. -/
def sslCertificates (fileHandle : FileHandle) (pairs : List (Nat × Nat)) : List String :=
  pairs.filterMap fun p => readSslCert ssl fileHandle p.1 p.2

/-- `get_ssl_cert`. -/
def getSslCert (found : List Match) (fileHandle : FileHandle) : Except Exc (List String) := do
  let pairs ← (getOffsetPairs found).mapError fun _ => Exc.indexError
  return sslCertificates ssl fileHandle pairs

/-- `_get_parsing_function`. -/
def getParsingFunction (rule : String) :
    Option (List Match → FileHandle → Except Exc (List String)) :=
  if rule ∈ startEnd then some extractLabeledKeys
  else if rule ∈ startOnly then some fun found _ => .ok (extractStartOnlyKey found)
  else if rule = pkcs8 then some (getPkcs8Key ssl)
  else if rule = pkcs12 then some (getPkcs12Cert ssl)
  else if rule = sslCert then some (getSslCert ssl)
  else none

/-- `matches.sort(key=lambda m: m.offset)`. -/
def sortMatches (found : List Match) : List Match :=
  found.mergeSort fun m m' => decide (m.offset ≤ m'.offset)

/-- The entry for the material of a rule, if there is any. -/
def entry (rule : String) (material : List String) : List CryptoMaterialMatch :=
  if material = [] then [] else [⟨rule, material, material.length, material.map md5⟩]

/-- The body of the loop of `convert_yara_result`. -/
def convertRule (fileHandle : FileHandle) (analysisResult : List CryptoMaterialMatch)
    (matchingRule : YaraResult) : Except Exc (List CryptoMaterialMatch) :=
  match getParsingFunction ssl matchingRule.rule with
  | none => .ok analysisResult
  | some parsingFunction => do
      let cryptoItems ← parsingFunction (sortMatches matchingRule.strings) fileHandle
      return analysisResult ++ entry md5 matchingRule.rule cryptoItems

/-- `convert_yara_result`. -/
def convertYaraResult (yaraResults : List YaraResult) (fileHandle : FileHandle) :
    Except Exc (List CryptoMaterialMatch) :=
  yaraResults.foldlM (convertRule ssl md5 fileHandle) []

/-! ## What can be parsed -/

/-- The text that a reader returns, if it does. -/
def parsed (outcome : Except Exc (Option String)) : Option String :=
  match outcome with
  | .ok text => text
  | .error _ => none

/-- The material of the matches of a rule that can be parsed. -/
def material (fileHandle : FileHandle) (rule : String) (found : List Match) : List String :=
  if rule ∈ startEnd then labeledKeys fileHandle ((blocks found).map (span found))
  else if rule ∈ startOnly then extractStartOnlyKey found
  else if rule = pkcs8 then found.filterMap fun m => parsed (readAsn1Key ssl fileHandle m.offset)
  else if rule = pkcs12 then found.filterMap fun m => parsed (readPkcsCert ssl fileHandle m.offset)
  else if rule = sslCert then sslCertificates ssl fileHandle ((blocks found).map (span found))
  else []

/-- One entry for each rule with material, in the order of the matches. -/
def fullResult (fileHandle : FileHandle) (yaraResults : List YaraResult) : List CryptoMaterialMatch :=
  yaraResults.flatMap fun r =>
    entry md5 r.rule (material ssl fileHandle r.rule (sortMatches r.strings))

/-- The reader for the rule returns at this offset. -/
def Harmless (content : List UInt8) (rule : String) (offset : Nat) : Prop :=
  content[offset]? = some 0x30 →
    (rule = pkcs8 → RegularLength content offset) ∧
    (rule = pkcs12 → ¬ TruncatedLength content offset ∧ ¬ NoCertificate ssl content offset)

variable {read : Match → Except Exc (Option String)} {found : List Match}

theorem collectTexts_ok (h : ∀ m ∈ found, ∃ text, read m = .ok text) :
    collectTexts read found = .ok (found.filterMap fun m => parsed (read m)) := by
  have hstep : ∀ keys m, (∃ text, read m = .ok text) →
      (do match ← read m with
          | some key => return keys ++ [key]
          | none => return keys : Except Exc (List String)) =
        .ok (keys ++ (parsed (read m)).toList) := by
    rintro keys m ⟨text, htext⟩
    rw [htext]
    cases text with
    | some key => rfl
    | none =>
        have hsame : keys ++ (parsed (.ok none)).toList = keys := List.append_nil keys
        rw [hsame]
        rfl
  rw [collectTexts, Loop.foldlM_ok hstep h, List.foldl_append_eq_append, List.nil_append,
    ← List.flatMap_def, ← List.filterMap_eq_flatMap_toList]

theorem of_collectTexts_ok {texts : List String} (h : collectTexts read found = .ok texts) :
    ∀ m ∈ found, ∃ text, read m = .ok text := by
  refine Loop.of_foldlM_ok (fun keys m r hr => ?_) h
  cases hread : read m with
  | ok text => exact ⟨text, rfl⟩
  | error exc =>
      rw [hread] at hr
      cases hr

/-- The pairs of the blocks are found without an exception. -/
theorem offsetPairs_eq (found : List Match) :
    ((getOffsetPairs found).mapError fun _ => Exc.indexError) =
      .ok ((blocks found).map (span found)) := by
  rw [getOffsetPairs_eq]
  rfl

variable {content : List UInt8} {position : Nat} {rule : String}
  {parsingFunction : List Match → FileHandle → Except Exc (List String)}

/-- The rules of the plugin have different names. -/
theorem rule_names : pkcs8 ∉ startEnd ∧ pkcs12 ∉ startEnd ∧ pkcs8 ∉ startOnly ∧ pkcs12 ∉ startOnly ∧
    pkcs8 ≠ pkcs12 := by
  decide +kernel

/-- A parsing function returns, with the material that can be parsed, if all matches are
harmless. -/
theorem parsingFunction_ok (hparse : getParsingFunction ssl rule = some parsingFunction)
    (h : ∀ m ∈ found, Harmless ssl content rule m.offset) :
    parsingFunction found ⟨content, position⟩ =
      .ok (material ssl ⟨content, position⟩ rule found) := by
  unfold getParsingFunction at hparse
  unfold material
  split_ifs at hparse ⊢ with hse hso h8 h12 hcert
  · obtain rfl := Option.some.inj hparse
    rw [extractLabeledKeys, offsetPairs_eq]
    rfl
  · obtain rfl := Option.some.inj hparse
    rfl
  · obtain rfl := Option.some.inj hparse
    exact collectTexts_ok fun m hm =>
      (readAsn1Key_ok_iff ssl).2 fun hstart => (h m hm hstart).1 h8
  · obtain rfl := Option.some.inj hparse
    exact collectTexts_ok fun m hm =>
      (readPkcsCert_ok_iff ssl).2 fun hstart => (h m hm hstart).2 h12
  · obtain rfl := Option.some.inj hparse
    rw [getSslCert, offsetPairs_eq]
    rfl

/-- A parsing function returns only if all matches are harmless. -/
theorem harmless_of_parsingFunction_ok {texts : List String}
    (hparse : getParsingFunction ssl rule = some parsingFunction)
    (h : parsingFunction found ⟨content, position⟩ = .ok texts) :
    ∀ m ∈ found, Harmless ssl content rule m.offset := by
  intro m hm hstart
  rcases rule_names with ⟨h8se, h12se, h8so, h12so, hne⟩
  constructor
  · rintro rfl
    rw [getParsingFunction, if_neg h8se, if_neg h8so, if_pos rfl] at hparse
    obtain rfl := Option.some.inj hparse
    exact (readAsn1Key_ok_iff ssl).1 (of_collectTexts_ok h m hm) hstart
  · rintro rfl
    rw [getParsingFunction, if_neg h12se, if_neg h12so, if_neg hne.symm, if_pos rfl] at hparse
    obtain rfl := Option.some.inj hparse
    exact (readPkcsCert_ok_iff ssl).1 (of_collectTexts_ok h m hm) hstart

/-- Without a parsing function there is nothing to parse. -/
theorem material_of_none (h : getParsingFunction ssl rule = none) (file : FileHandle) :
    material ssl file rule found = [] := by
  unfold getParsingFunction at h
  split_ifs at h with hse hso h8 h12 hcert
  rw [material, if_neg hse, if_neg hso, if_neg h8, if_neg h12, if_neg hcert]

/-- And nothing to raise. -/
theorem harmless_of_none (h : getParsingFunction ssl rule = none) (offset : Nat) :
    Harmless ssl content rule offset := by
  unfold getParsingFunction at h
  split_ifs at h with hse hso h8 h12 hcert
  intro hstart
  exact ⟨fun h => absurd h h8, fun h => absurd h h12⟩

theorem mem_sortMatches {m : Match} : m ∈ sortMatches found ↔ m ∈ found :=
  (List.mergeSort_perm found _).mem_iff

/-- One rule adds its entry. -/
theorem convertRule_ok (result : List CryptoMaterialMatch) (r : YaraResult)
    (h : ∀ m ∈ r.strings, Harmless ssl content r.rule m.offset) :
    convertRule ssl md5 ⟨content, position⟩ result r = .ok (result ++
      entry md5 r.rule (material ssl ⟨content, position⟩ r.rule (sortMatches r.strings))) := by
  unfold convertRule
  split
  next hnone =>
    rw [material_of_none ssl hnone, entry, if_pos rfl, List.append_nil]
  next parsingFunction hsome =>
    rw [parsingFunction_ok ssl hsome fun m hm => h m (mem_sortMatches.1 hm)]
    rfl

theorem harmless_of_convertRule_ok {result result' : List CryptoMaterialMatch} {r : YaraResult}
    (h : convertRule ssl md5 ⟨content, position⟩ result r = .ok result') :
    ∀ m ∈ r.strings, Harmless ssl content r.rule m.offset := by
  unfold convertRule at h
  split at h
  next hnone => exact fun m _ => harmless_of_none ssl hnone m.offset
  next parsingFunction hsome =>
    cases hparsed : parsingFunction (sortMatches r.strings) ⟨content, position⟩ with
    | ok texts =>
        intro m hm
        exact harmless_of_parsingFunction_ok ssl hsome hparsed m (mem_sortMatches.2 hm)
    | error exc =>
        rw [hparsed] at h
        cases h

theorem convertYaraResult_ok (results : List YaraResult)
    (h : ∀ r ∈ results, ∀ m ∈ r.strings, Harmless ssl content r.rule m.offset) :
    convertYaraResult ssl md5 results ⟨content, position⟩ =
      .ok (fullResult ssl md5 ⟨content, position⟩ results) := by
  have hstep : ∀ result (r : YaraResult), (∀ m ∈ r.strings, Harmless ssl content r.rule m.offset) →
      convertRule ssl md5 ⟨content, position⟩ result r = .ok (result ++
        entry md5 r.rule (material ssl ⟨content, position⟩ r.rule (sortMatches r.strings))) :=
    convertRule_ok ssl md5
  rw [convertYaraResult, Loop.foldlM_ok hstep h, List.foldl_append_eq_append, List.nil_append,
    ← List.flatMap_def]
  rfl

/-- `convert_yara_result` returns the material of every match that can be parsed if and
only if every match is harmless; otherwise it raises. -/
theorem convertYaraResult_iff (content : List UInt8) (position : Nat) (results : List YaraResult) :
    convertYaraResult ssl md5 results ⟨content, position⟩ =
        .ok (fullResult ssl md5 ⟨content, position⟩ results) ↔
      ∀ r ∈ results, ∀ m ∈ r.strings, Harmless ssl content r.rule m.offset := by
  constructor
  · intro h
    exact Loop.of_foldlM_ok (fun _ _ _ hr => harmless_of_convertRule_ok ssl md5 hr) h
  · exact convertYaraResult_ok ssl md5 results

/-- What the pattern of a PKCS rule says about the bytes behind an offset: two length
bytes, then the version. -/
def MatchesPattern (content : List UInt8) (version : UInt8) (offset : Nat) : Prop :=
  ∃ a b behind, content.drop offset = 0x30 :: 0x82 :: a :: b :: 0x02 :: 0x01 :: version :: behind

/-- Where the matches are those of the patterns, all length bytes lie in the file. -/
theorem regularLength_of_pattern {version : UInt8} {offset : Nat}
    (h : MatchesPattern content version offset) :
    RegularLength content offset ∧ ¬ TruncatedLength content offset := by
  rcases h with ⟨a, b, behind, hdrop⟩
  have hnext : content.drop (offset + 1) = 0x82 :: a :: b :: 0x02 :: 0x01 :: version :: behind := by
    rw [← List.drop_drop, hdrop]
    rfl
  rcases getElem?_succ hnext with ⟨hget, hlen⟩
  simp only [List.length_cons] at hlen
  rw [regularLength_of_long hget (k := 2) rfl, truncatedLength_of_long hget (k := 2) rfl]
  omega

/-- For matches of the plugin's own patterns only a container without a certificate is
left that raises. -/
theorem convertYaraResult_of_patterns (results : List YaraResult)
    (hpattern : ∀ r ∈ results, ∀ m ∈ r.strings, (r.rule = pkcs8 → MatchesPattern content 0 m.offset) ∧
      (r.rule = pkcs12 → MatchesPattern content 3 m.offset))
    (hcert : ∀ r ∈ results, r.rule = pkcs12 → ∀ m ∈ r.strings, ¬ NoCertificate ssl content m.offset) :
    convertYaraResult ssl md5 results ⟨content, position⟩ =
      .ok (fullResult ssl md5 ⟨content, position⟩ results) := by
  apply convertYaraResult_ok ssl md5 results
  intro r hr m hm _
  have hm' := hpattern r hr m hm
  constructor
  · exact fun h8 => (regularLength_of_pattern (hm'.1 h8)).1
  · exact fun h12 => ⟨(regularLength_of_pattern (hm'.2 h12)).2, hcert r hr h12 m hm⟩

/-- A PKCS#12 container that holds nothing. -/
def emptyContainer : List UInt8 :=
  [0x30, 0x82, 0x00, 0x16, 0x02, 0x01, 0x03, 0x30, 0x11, 0x06, 0x09, 0x2A, 0x86, 0x48, 0x86, 0xF7,
    0x0D, 0x01, 0x07, 0x01, 0xA0, 0x04, 0x04, 0x02, 0x30, 0x00]

/-- Loaders that know this container and nothing else. -/
def sampleOpenSSL : OpenSSL String where
  privateKeyText _ := .error .sslError
  loadKeyAndCertificates keyData :=
    if keyData = emptyContainer then .ok none else .error "Could not deserialize PKCS12 data"
  certificateText := id
  pemCertificateText _ := none

def sshKey : String := "ssh-rsa AAAAB3 user@host"

/-- The container with an SSH key behind it. -/
def sampleFile : List UInt8 := emptyContainer ++ sshKey.toList.map fun c => UInt8.ofNat c.toNat

def sampleYaraResults : List YaraResult :=
  [⟨"SshRsaPublicKeyBlock", [⟨26, "$start_string", sshKey⟩]⟩,
    ⟨pkcs12, [⟨0, "$version3", decode (emptyContainer.take 7)⟩]⟩]

/-- The container keeps the SSH key from being reported. -/
theorem convertYaraResult_sample :
    ¬ ∀ (content : List UInt8) (results : List YaraResult), ∃ result,
      convertYaraResult sampleOpenSSL id results ⟨content, 0⟩ = .ok result := by
  intro h
  rcases h sampleFile sampleYaraResults with ⟨result, hresult⟩
  have hsome := congrArg Except.toOption hresult
  have hnone : (convertYaraResult sampleOpenSSL id sampleYaraResults ⟨sampleFile, 0⟩).toOption = none := by
    decide +kernel
  rw [hnone] at hsome
  cases hsome

end FactCore.CryptoMaterial
