import FactCore.Lib.Search
import FactCore.Plugins.FileConfig.ParseXml
import FactCore.Plugins.FileConfig.ParseYaml

/-! # The parsers of config files

`_determine_config_type` and `_parse_config_from_binary` of the compare plugin
`file_config`, with the parsers it chooses from.

A JSON file is recognised by its name, but there is no branch for it, so it is read with
the parser for lines of keys and values. The parser for CSV files returns nothing if
there is no line to read.
-/

namespace FactCore

namespace FileConfig

open Lines (isSpace isLineBreak strip decodeAscii splitLines words)
open Regex

/-! ## The type of a file -/

inductive ConfigType where
  | toml
  | xml
  | csv
  | yaml
  | json
  | dualkey
deriving DecidableEq, Repr

/-- `s.endswith(ending)` -/
def endsWith (s ending : String) : Bool := ending.toList.isSuffixOf s.toList

/-- `[^\s]` -/
def isNonSpace (c : Char) : Bool := !isSpace c

/-- `\s*` -/
def blanksRegex : Regex Char := star true (cls isSpace)

/-- `\s+` -/
def gapRegex : Regex Char := plus (cls isSpace)

/-- `[^\s]+?` -/
def wordRegex : Regex Char := plusLazy (cls isNonSpace)

/-- `.+` -/
def someTextRegex : Regex Char := plus (cls isAnyChar)

/-- `re.search(r, text)` -/
def found (r : Regex Char) (text : List Char) : Bool := (Search.search (fun _ s => matchFront r s) text).isSome

/-- `re.match(r, line)` -/
def matchesLine (r : Regex Char) (line : List Char) : Bool := (matchFront r line).isSome

/-- `<\s*[^>]+>` -/
def tagRegex : Regex Char := lit ['<'] ++ blanksRegex ++ plus (cls fun c => c != '>') ++ lit ['>']

/-- `<\s*/\s*[^>]+>` -/
def endTagRegex : Regex Char :=
  lit ['<'] ++ blanksRegex ++ lit ['/'] ++ blanksRegex ++ plus (cls fun c => c != '>') ++ lit ['>']

/-- `^\s*\[.*\]\s*$` with `re.MULTILINE`, behind the first anchor. -/
def headerRegex : Regex Char :=
  blanksRegex ++ lit ['['] ++ star true (cls isAnyChar) ++ lit [']'] ++ blanksRegex ++
    ahead fun rest => rest = [] ∨ rest.head? = some '\n'

/-- `re.search(r'^\s*\[.*\]\s*$', text, re.MULTILINE)` -/
def foundHeader (text : List Char) : Bool :=
  (Search.search (fun before s =>
    if before = none ∨ before = some '\n' then matchFront headerRegex s else none) text).isSome

/-- `^[^\s]+?\s+[^\s]+?$` -/
def twoWordsRegex : Regex Char := wordRegex ++ gapRegex ++ wordRegex ++ endOfLine

/-- `["\']` -/
def quoteRegex : Regex Char := cls fun c => c == '"' || c == '\''

/-- `^[^\s]+?\s+[^\s]+?\s+["\'].*["\']$` -/
def quotedRegex : Regex Char :=
  wordRegex ++ gapRegex ++ wordRegex ++ gapRegex ++ quoteRegex ++ star true (cls isAnyChar) ++ quoteRegex ++
    endOfLine

/-- `^\s*(\S+)\s+([^=\s]+)=(.+)$` -/
def dualkeyEqualsRegex : Regex Char :=
  blanksRegex ++ group 1 (plus (cls isNonSpace)) ++ gapRegex ++
    group 2 (plus (cls fun c => c != '=' && isNonSpace c)) ++ lit ['='] ++ group 3 someTextRegex ++ endOfLine

/-- `^[^\s]+?\s+[^\s]+?\s+.+$` -/
def threeWordsRegex : Regex Char := wordRegex ++ gapRegex ++ wordRegex ++ gapRegex ++ someTextRegex ++ endOfLine

/-- `^[^\s]+?\s+[^\s]+?=.+$` -/
def wordEqualsRegex : Regex Char := wordRegex ++ gapRegex ++ wordRegex ++ lit ['='] ++ someTextRegex ++ endOfLine

/-- The line is a comment. -/
def isComment (line : List Char) : Bool := line.head? == some '#' || line.head? == some ';'

/-- The numbers of invalid lines and of lines with two keys; the loop ends at the first
invalid line. -/
def countLines : List (List Char) → ℕ × ℕ
  | [] => (0, 0)
  | line :: lines =>
      let line := strip line
      if line = [] ∨ isComment line then countLines lines
      else if (matchesLine twoWordsRegex line ∨ matchesLine quotedRegex line) ∧
          ¬ matchesLine dualkeyEqualsRegex line then (1, 0)
      else if matchesLine threeWordsRegex line ∨ matchesLine wordEqualsRegex line then
        let counts := countLines lines
        (counts.1, counts.2 + 1)
      else countLines lines

/-- The type that the name of the file tells. -/
def typeOfName (fileName : String) : Option ConfigType :=
  if endsWith fileName ".toml" then some .toml
  else if endsWith fileName ".xml" then some .xml
  else if endsWith fileName ".csv" then some .csv
  else if endsWith fileName ".yaml" || endsWith fileName ".yml" then some .yaml
  else if endsWith fileName ".json" then some .json
  else none

/-- The type that the result of the analysis `file_type` tells. -/
def typeOfMime (mime : String) : Option ConfigType :=
  if endsWith mime "toml" then some .toml
  else if endsWith mime "xml" then some .xml
  else if endsWith mime "csv" then some .csv
  else if endsWith mime "yaml" || endsWith mime "yml" then some .yaml
  else none

/-- The type that the content tells. -/
def typeOfContent (text : List Char) : Option ConfigType :=
  let counts := countLines (splitLines text)
  let dualkey := if counts.1 = 0 ∧ 0 < counts.2 then some ConfigType.dualkey else none
  if found tagRegex text then if found endTagRegex text then some .xml else dualkey
  else if foundHeader text then some .toml
  else dualkey

/-- `_determine_config_type`, for the name of the file, the MIME type if the analysis
`file_type` has a result, and the content. -/
def determineConfigType (fileName : String) (mime : Option String) (binary : List UInt8) : Option ConfigType :=
  match typeOfName fileName with
  | some configType => some configType
  | none =>
      match mime.bind typeOfMime with
      | some configType => some configType
      | none => typeOfContent (decodeAscii binary)

/-! ## The parsers -/

/-- What unpacking and indexing raise. -/
inductive ParseError where
  | valueError
  | indexError
deriving DecidableEq, Repr

/-- `_parse_helper_default`: `^[^#;\s]+?\s*[:=]\s*.+$` -/
def validKeyValueRegex : Regex Char :=
  plusLazy (cls fun c => c != '#' && c != ';' && isNonSpace c) ++ blanksRegex ++
    cls (fun c => c == ':' || c == '=') ++ blanksRegex ++ someTextRegex ++ endOfLine

/-- `\s*[:=]\s*` -/
def separatorRegex : Regex Char := blanksRegex ++ cls (fun c => c == ':' || c == '=') ++ blanksRegex

/-- `re.split(r'\s*[:=]\s*', line, maxsplit=1)` -/
def reSplit (line : List Char) : List (List Char) :=
  match splitOnce separatorRegex line with
  | some (before, behind) => [before, behind]
  | none => [line]

/-- The body of the loop of `_parse_helper_default`. -/
def parseDefaultLine (configDict : Dict String String) (line : List Char) :
    Except ParseError (Dict String String) :=
  let line := strip line
  if line = [] ∨ isComment line then .ok configDict
  else if matchesLine validKeyValueRegex line then
    match reSplit line with
    | [key, value] => .ok (configDict.set (String.ofList key) (String.ofList value))
    | _ => .error .valueError
  else .ok configDict

/-- `_parse_helper_default` -/
def parseHelperDefault (binaryData : List UInt8) : Except ParseError (Dict String String) :=
  (splitLines (decodeAscii binaryData)).foldlM parseDefaultLine ∅

/-- `_parse_helper_dualkey`: `^[^\s]+?\s+[^#;\s]+?\s+.+$` -/
def dualkeyRegex : Regex Char :=
  wordRegex ++ gapRegex ++ plusLazy (cls fun c => c != '#' && c != ';' && isNonSpace c) ++ gapRegex ++
    someTextRegex ++ endOfLine

/-- The body of the loop of `_parse_helper_dualkey`. -/
def parseDualkeyLine (configDict : Dict String String) (line : List Char) :
    Except ParseError (Dict String String) :=
  let line := strip line
  if line = [] ∨ isComment line then .ok configDict
  else
    match matchFront dualkeyEqualsRegex line with
    | some (caps, _) =>
        let key := groupText caps 1 ++ ' ' :: groupText caps 2
        .ok (configDict.set (String.ofList key) (String.ofList (strip (groupText caps 3))))
    | none =>
        if matchesLine dualkeyRegex line then
          match words line with
          | key1 :: key2 :: rest =>
              .ok (configDict.set (String.ofList (key1 ++ ' ' :: key2)) (String.ofList ([' '].intercalate rest)))
          | _ => .error .indexError
        else .ok configDict

/-- `_parse_helper_dualkey` -/
def parseHelperDualkey (binaryData : List UInt8) : Except ParseError (Dict String String) :=
  (splitLines (decodeAscii binaryData)).foldlM parseDualkeyLine ∅

/-- `_parse_helper_toml_rugged`: `^\s*\[.*\]\s*$` -/
def sectionRegex : Regex Char :=
  blanksRegex ++ lit ['['] ++ star true (cls isAnyChar) ++ lit [']'] ++ blanksRegex ++ endOfLine

/-- `_parse_helper_toml_rugged`: `^[^\s]+?\s*[:=]?\s*.+$` -/
def tomlPairRegex : Regex Char :=
  wordRegex ++ blanksRegex ++ opt (cls fun c => c == ':' || c == '=') ++ blanksRegex ++ someTextRegex ++ endOfLine

/-- `line.strip('[]')` -/
def stripBrackets (line : List Char) : List Char :=
  (line.dropWhile fun c => c = '[' ∨ c = ']').rdropWhile fun c => c = '[' ∨ c = ']'

/-- The key and the value of a line of a TOML file. -/
def tomlPair (line : List Char) : Except ParseError (List Char × List Char) :=
  if '=' ∈ line then
    match Join.splitMaxChars '=' 1 line with
    | [key, value] => .ok (key, value)
    | _ => .error .valueError
  else if ':' ∈ line then
    match Join.splitMaxChars ':' 1 line with
    | [key, value] => .ok (key, value)
    | _ => .error .valueError
  else
    match words line with
    | key :: rest => .ok (key, [' '].intercalate rest)
    | [] => .error .indexError

/-- The variables of the loop of `_parse_helper_toml_rugged`. -/
structure TomlState where
  configDict : Dict String String
  currentParentKeys : List String

/-- The body of the loop of `_parse_helper_toml_rugged`. -/
def parseTomlLine (st : TomlState) (line : List Char) : Except ParseError TomlState :=
  let line := strip line
  if line = [] ∨ line.head? = some '#' then .ok st
  else if matchesLine sectionRegex line then
    .ok { st with currentParentKeys := ((strip (stripBrackets line)).splitOn '.').map String.ofList }
  else if matchesLine tomlPairRegex line then
    match tomlPair line with
    | .ok (key, value) =>
        let key := String.ofList (strip key)
        let compositeKey :=
          if st.currentParentKeys = [] then key else Join.join ' ' (st.currentParentKeys ++ [key])
        .ok { st with configDict := st.configDict.set compositeKey (String.ofList (strip value)) }
    | .error e => .error e
  else .ok st

/-- `_parse_helper_toml_rugged` -/
def parseHelperTomlRugged (binaryData : List UInt8) : Except ParseError (Dict String String) :=
  ((splitLines (decodeAscii binaryData)).foldlM parseTomlLine ⟨∅, []⟩).map TomlState.configDict

/-- A nested dictionary, in the order of its items. -/
inductive ConfigTable (α : Type) where
  | nil
  | value (key : String) (value : α) (rest : ConfigTable α)
  | table (key : String) (members rest : ConfigTable α)

variable {α : Type}

/-- `f"{parent_key} {k}".strip() if parent_key else k` -/
def newKey (parentKey k : String) : String :=
  if parentKey = "" then k else String.ofList (Lines.stripUnicode (parentKey.toList ++ ' ' :: k.toList))

/-- `items.update(d)` -/
def updateItems (items d : Dict String α) : Dict String α :=
  d.items.foldl (fun items item => items.set item.1 item.2) items

/-- The loop of `flatten_dict`. -/
def flattenInto (parentKey : String) (items : Dict String α) : ConfigTable α → Dict String α
  | .nil => items
  | .value k v rest => flattenInto parentKey (items.set (newKey parentKey k) v) rest
  | .table k members rest =>
      flattenInto parentKey (updateItems items (flattenInto (newKey parentKey k) ∅ members)) rest

/-- `flatten_dict` -/
def flattenDict (d : ConfigTable α) : Dict String α := flattenInto "" ∅ d

/-- The libraries: each returns what it parses, unless it raises. -/
structure Libraries (α : Type) where
  fromstring : List Char → Option XmlElement
  tomlLoads : List Char → Option (ConfigTable α)
  /-- `str(v)` of a value that is no dictionary -/
  str : α → String

/-- `_parse_helper_toml` -/
def parseHelperToml (libs : Libraries α) (binaryData : List UInt8) : Except ParseError (Dict String String) :=
  match libs.tomlLoads (decodeAscii binaryData) with
  | some parsedToml => .ok ((flattenDict parsedToml).map fun _ v => libs.str v)
  | none => parseHelperTomlRugged binaryData

/-- The lines of a CSV file that are neither empty nor a comment. -/
def csvLines (binaryData : List UInt8) : List (List Char) :=
  ((splitLines (decodeAscii binaryData)).map strip).filter fun line => line ≠ [] ∧ line.head? ≠ some '#'

/-- `[part.strip() for part in line.split(',')]` -/
def csvParts (line : List Char) : List String := (line.splitOn ',').map fun part => String.ofList (strip part)

/-- A line of keys and a value at its end. -/
def addCsvLine (configDict : Dict String String) (line : List Char) : Dict String String :=
  if 2 ≤ (csvParts line).length then
    configDict.set (Join.join ' ' (csvParts line).dropLast) ((csvParts line).getLast?.getD "")
  else configDict

/-- `_parse_helper_csv`, which returns `None` if there is no line. -/
def parseHelperCsv (binaryData : List UInt8) : Option (Dict String String) :=
  match csvLines binaryData with
  | [] => none
  | [line] => some ((csvParts line).foldl (fun configDict key => configDict.set key "") ∅)
  | [line1, line2] =>
      if line1.count ',' ≠ line2.count ',' then
        some ((∅ : Dict String String).set "Error"
          "Unable to determine CSV format: number of commas do not match between first and second line")
      else if (csvParts line1).length ≠ (csvParts line2).length then
        some ((∅ : Dict String String).set "Error"
          "Unable to parse csv file: number of keys and values do not match")
      else
        some (((csvParts line1).zip (csvParts line2)).foldl
          (fun configDict item => configDict.set item.1 item.2) ∅)
  | lines => some (lines.foldl addCsvLine ∅)

/-- `_parse_config_from_binary`, which returns what the parser for the type returns. -/
def parseConfigFromBinary (libs : Libraries α) (binaryData : List UInt8) (filetype : Option ConfigType) :
    Except ParseError (Option (Dict String String)) :=
  if binaryData = [] then .ok (some ∅)
  else
    match filetype with
    | some .toml => (parseHelperToml libs binaryData).map some
    | some .xml => .ok (some (parseHelperXml libs.fromstring binaryData))
    | some .dualkey => (parseHelperDualkey binaryData).map some
    | some .csv => .ok (parseHelperCsv binaryData)
    | some .yaml => .ok (some (parseHelperYaml binaryData))
    -- there is no branch for JSON files
    | _ => (parseHelperDefault binaryData).map some

/-! ## What a parser should return -/

/-- The values of a nested dictionary, with the paths of their keys. -/
def ConfigTable.leaves (path : List String) : ConfigTable α → List (List String × α)
  | .nil => []
  | .value k v rest => (path ++ [k], v) :: rest.leaves path
  | .table k members rest => members.leaves (path ++ [k]) ++ rest.leaves path

/-- The flattening: the joined key paths and the texts of the values. -/
def flattening (str : α → String) (object : ConfigTable α) : List (String × String) :=
  (object.leaves []).map fun leaf => (Join.join ' ' leaf.1, str leaf.2)

/-- The content of the file is parsed into a dictionary, and a JSON object whose leaves
have different keys into its flattening. -/
def ParsesRight (libs : Libraries α) (jsonLoads : List Char → Option (ConfigTable α)) (fileName : String)
    (mime : Option String) (binaryData : List UInt8) : Prop :=
  ∃ configDict, parseConfigFromBinary libs binaryData (determineConfigType fileName mime binaryData) =
      .ok (some configDict) ∧
    (determineConfigType fileName mime binaryData = some .json →
      ∀ object, jsonLoads (decodeAscii binaryData) = some object →
        ((flattening libs.str object).map Prod.fst).Nodup →
        ∀ key value, configDict.get? key = some value ↔ (key, value) ∈ flattening libs.str object)

/-- The text is a key and a value around the first colon or equals sign and the blanks
beside it. -/
def SplitsInto (line key value : List Char) : Prop :=
  ∃ blanks sep blanks', line = key ++ (blanks ++ sep :: (blanks' ++ value)) ∧
    (∀ c ∈ key, c ≠ ':' ∧ c ≠ '=') ∧ (∀ c ∈ key.getLast?, isSpace c = false) ∧
    (∀ c ∈ blanks, isSpace c = true) ∧ (sep = ':' ∨ sep = '=') ∧ (∀ c ∈ blanks', isSpace c = true) ∧
    ∀ c ∈ value.head?, isSpace c = false

/-- A line with a key and a value. -/
def KeyValueLine (line : List Char) (key value : String) : Prop :=
  matchesLine validKeyValueRegex (strip line) = true ∧ SplitsInto (strip line) key.toList value.toList

/-- The last line with the key has the value. -/
def LastKeyValue (lines : List (List Char)) (key value : String) : Prop :=
  ∃ front line back, lines = front ++ line :: back ∧ KeyValueLine line key value ∧
    ∀ line' ∈ back, ∀ value', ¬ KeyValueLine line' key value'

/-- A CSV file that is not empty has a line that is neither blank nor a comment, and the
lines of a JSON file with an object are at the same time lines with the keys and values
of its leaves. -/
structure ReadableAs (libs : Libraries α) (jsonLoads : List Char → Option (ConfigTable α))
    (configType : Option ConfigType) (binaryData : List UInt8) : Prop where
  csv : configType = some .csv → binaryData ≠ [] →
    ∃ line ∈ splitLines (decodeAscii binaryData), strip line ≠ [] ∧ (strip line).head? ≠ some '#'
  json : configType = some .json → ∀ object, jsonLoads (decodeAscii binaryData) = some object →
    ((flattening libs.str object).map Prod.fst).Nodup → ∀ key value,
      LastKeyValue (splitLines (decodeAscii binaryData)) key value ↔ (key, value) ∈ flattening libs.str object

/-! ## Lines with a key and a value -/

variable {line key value : List Char} {configDict : Dict String String}

theorem exists_matches_of_matchesLine {r : Regex Char} (h : matchesLine r line = true) :
    ∃ w rest caps, line = w ++ rest ∧ Matches r [] w rest caps := by
  rcases Option.isSome_iff_exists.1 h with ⟨⟨caps, rest⟩, hfront⟩
  rcases matches_of_matchFront hfront with ⟨w, hw, hmatch⟩
  exact ⟨w, rest, caps, hw, hmatch⟩

/-- A separator is no blank. -/
theorem isSpace_of_separator {sep : Char} (h : sep = ':' ∨ sep = '=') : isSpace sep = false := by
  rcases h with rfl | rfl
  · decide
  · decide

theorem eq_of_separator {c : Char} (h : (c == ':' || c == '=') = true) : c = ':' ∨ c = '=' := by
  rwa [Bool.or_eq_true, beq_iff_eq, beq_iff_eq] at h

theorem not_separator {c : Char} (h : c ≠ ':' ∧ c ≠ '=') : ¬ (c == ':' || c == '=') = true := by
  intro hsep
  rcases eq_of_separator hsep with rfl | rfl
  · exact h.1 rfl
  · exact h.2 rfl

/-- The split starts behind the key, since nothing in the key leads to a separator. -/
theorem matchFront_separator_eq_none {a b blanks rest : List Char} {sep : Char} (hkey : key = a ++ b)
    (hb : b ≠ []) (hsep : ∀ c ∈ key, c ≠ ':' ∧ c ≠ '=') (hlast : ∀ c ∈ key.getLast?, isSpace c = false) :
    matchFront separatorRegex (b ++ (blanks ++ sep :: rest)) = none := by
  rw [matchFront_eq_none]
  intro w rest' caps heq h
  rcases matches_append.1 h with ⟨_, w3, _, rfl, h12, -⟩
  rcases matches_append.1 h12 with ⟨w1, w2, _, rfl, hblanks, hcls⟩
  rcases matches_star_cls.1 hblanks with ⟨hspace, rfl⟩
  rcases matches_cls.1 hcls with ⟨sep', rfl, hsep', -⟩
  rcases List.eq_nil_or_concat b with rfl | ⟨b, x, rfl⟩
  · exact hb rfl
  rw [List.concat_eq_append] at hkey heq
  subst hkey
  -- the last character of the key is among the blanks, is the separator, or stands behind it
  have hx : isSpace x = false := hlast x (by rw [← List.append_assoc, List.getLast?_concat]; rfl)
  have hxsep := hsep x (by simp)
  simp only [List.append_assoc, List.singleton_append] at heq
  rcases List.append_eq_append_iff.1 heq with ⟨c, rfl, hc⟩ | ⟨c, rfl, hc⟩
  · cases c with
    | nil =>
        obtain rfl : x = sep' := (List.cons.inj hc).1
        exact not_separator hxsep hsep'
    | cons y c =>
        obtain rfl : x = y := (List.cons.inj hc).1
        rw [hspace x (by simp)] at hx
        cases hx
  · cases c with
    | nil =>
        obtain rfl : sep' = x := (List.cons.inj hc).1
        exact not_separator hxsep hsep'
    | cons y c =>
        obtain rfl : sep' = y := (List.cons.inj hc).1
        exact not_separator (hsep sep' (by simp)) hsep'

theorem reSplit_of_splitsInto (h : SplitsInto line key value) : reSplit line = [key, value] := by
  rcases h with ⟨blanks, sep, blanks', rfl, hkey, hlast, hblanks, hsep, hblanks', hvalue⟩
  have hsepcls : (sep == ':' || sep == '=') = true := by
    rcases hsep with rfl | rfl
    · rfl
    · rfl
  have hfirst : (runs blanksRegex ([], blanks ++ sep :: (blanks' ++ value))).head? =
      some ([], sep :: (blanks' ++ value)) := by
    apply head_star (rounds_cls hblanks _)
    intro c hc
    obtain rfl : sep = c := Option.some.inj hc
    exact isSpace_of_separator hsep
  have hmid : (runs (cls fun c => c == ':' || c == '=') ([], sep :: (blanks' ++ value))).head? =
      some ([], blanks' ++ value) := by
    rw [runs, if_pos hsepcls]
    rfl
  have hlastBlanks : (runs blanksRegex ([], blanks' ++ value)).head? = some ([], value) :=
    head_star (rounds_cls hblanks' hvalue)
  have hfront : matchFront separatorRegex (blanks ++ sep :: (blanks' ++ value)) = some ([], value) :=
    head_append (head_append hfirst hmid) hlastBlanks
  have hsplit : splitOnce separatorRegex (key ++ (blanks ++ sep :: (blanks' ++ value))) = some (key, value) :=
    splitOnce_append (fun _ _ hab hb => matchFront_separator_eq_none hab hb hkey hlast) hfront
  rw [reSplit, hsplit]

/-- A line with a separator has a first one. -/
theorem exists_first_separator (h : ∃ c ∈ line, c = ':' ∨ c = '=') :
    ∃ front sep behind, line = front ++ sep :: behind ∧ (sep = ':' ∨ sep = '=') ∧
      ∀ c ∈ front, c ≠ ':' ∧ c ≠ '=' := by
  have hsome : (line.find? fun c => c == ':' || c == '=').isSome = true := by
    rw [List.find?_isSome]
    rcases h with ⟨c, hc, hsep⟩
    exact ⟨c, hc, by simpa using hsep⟩
  rcases Option.isSome_iff_exists.1 hsome with ⟨sep, hfind⟩
  rcases List.find?_eq_some_iff_append.1 hfind with ⟨hsep, front, behind, hline, hfront⟩
  exact ⟨front, sep, behind, hline, eq_of_separator hsep, fun c hc => by simpa using hfront c hc⟩

theorem getLast?_rdropWhile_isSpace {s : List Char} {c : Char} (hc : c ∈ (s.rdropWhile isSpace).getLast?) :
    isSpace c = false := by
  have hne : s.rdropWhile isSpace ≠ [] := by
    intro hnil
    rw [hnil] at hc
    cases hc
  obtain rfl := Option.some.inj ((List.getLast?_eq_getLast_of_ne_nil hne).symm.trans hc)
  exact Bool.eq_false_iff.2 (List.rdropWhile_last_not isSpace s hne)

theorem head?_dropWhile_isSpace {s : List Char} {c : Char} (hc : c ∈ (s.dropWhile isSpace).head?) :
    isSpace c = false := by
  have hnot := List.head?_dropWhile_not isSpace s
  rw [Option.mem_def.1 hc] at hnot
  exact hnot

/-- A line with a separator is split. -/
theorem exists_splitsInto (h : ∃ c ∈ line, c = ':' ∨ c = '=') : ∃ key value, SplitsInto line key value := by
  rcases exists_first_separator h with ⟨front, sep, behind, hline, hsep, hfront⟩
  refine ⟨front.rdropWhile isSpace, behind.dropWhile isSpace, front.rtakeWhile isSpace, sep,
    behind.takeWhile isSpace, ?_, ?_, ?_, ?_, hsep, ?_, ?_⟩
  · rw [List.takeWhile_append_dropWhile, ← List.append_assoc, List.rdropWhile_append_rtakeWhile, hline]
  · exact fun c hc => hfront c ((List.rdropWhile_prefix isSpace front).subset hc)
  · exact fun c hc => getLast?_rdropWhile_isSpace hc
  · exact fun c hc => List.mem_rtakeWhile_imp hc
  · exact fun c hc => List.mem_takeWhile_imp hc
  · exact fun c hc => head?_dropWhile_isSpace hc

/-- A valid line starts with a key and has a separator. -/
theorem valid_line (h : matchesLine validKeyValueRegex line = true) :
    line ≠ [] ∧ isComment line = false ∧ ∃ c ∈ line, c = ':' ∨ c = '=' := by
  rcases exists_matches_of_matchesLine h with ⟨w, rest, caps, rfl, hmatch⟩
  rcases matches_append.1 hmatch with ⟨_, w6, _, rfl, h5, -⟩
  rcases matches_append.1 h5 with ⟨_, w5, _, rfl, h4, -⟩
  rcases matches_append.1 h4 with ⟨_, w4, _, rfl, h3, -⟩
  rcases matches_append.1 h3 with ⟨_, w3, _, rfl, h2, hsep⟩
  rcases matches_append.1 h2 with ⟨w1, w2, _, rfl, hkey, -⟩
  rcases matches_plusLazy_cls.1 hkey with ⟨hne, hcls, -⟩
  rcases matches_cls.1 hsep with ⟨sep, rfl, hsep, -⟩
  rcases List.exists_cons_of_ne_nil hne with ⟨c, w1, rfl⟩
  have hc := hcls c List.mem_cons_self
  simp only [Bool.and_eq_true, bne_iff_ne, Ne] at hc
  refine ⟨by simp, ?_, sep, by simp, ?_⟩
  · simp [isComment, hc.1.1, hc.1.2]
  · simpa using hsep

/-- The body of the loop never raises; it stores the key and the value of a line. -/
theorem parseDefaultLine_ok (configDict : Dict String String) (line : List Char) :
    (∃ key value, KeyValueLine line key value ∧
      parseDefaultLine configDict line = .ok (configDict.set key value)) ∨
    (∀ key value, ¬ KeyValueLine line key value) ∧ parseDefaultLine configDict line = .ok configDict := by
  by_cases hvalid : matchesLine validKeyValueRegex (strip line) = true
  · rcases valid_line hvalid with ⟨hne, hcomment, hsep⟩
    rcases exists_splitsInto hsep with ⟨key, value, hsplit⟩
    have hskip : ¬ (strip line = [] ∨ isComment (strip line) = true) := by simp [hne, hcomment]
    left
    refine ⟨String.ofList key, String.ofList value, ⟨hvalid, ?_⟩, ?_⟩
    · rwa [String.toList_ofList, String.toList_ofList]
    · rw [parseDefaultLine]
      simp only [if_neg hskip, if_pos hvalid, reSplit_of_splitsInto hsplit]
  · right
    refine ⟨fun key value h => hvalid h.1, ?_⟩
    rw [parseDefaultLine]
    simp only [if_neg hvalid, ite_self]

/-- A line has one key and one value. -/
theorem KeyValueLine.unique {key key' value value' : String} (h : KeyValueLine line key value)
    (h' : KeyValueLine line key' value') : key = key' ∧ value = value' := by
  have hlists : [key.toList, value.toList] = [key'.toList, value'.toList] :=
    (reSplit_of_splitsInto h.2).symm.trans (reSplit_of_splitsInto h'.2)
  have hvalues := (List.cons.inj hlists).2
  exact ⟨String.toList_inj.1 (List.cons.inj hlists).1, String.toList_inj.1 (List.cons.inj hvalues).1⟩

theorem lastKeyValue_cons {lines : List (List Char)} {key value : String} :
    LastKeyValue (line :: lines) key value ↔ LastKeyValue lines key value ∨
      KeyValueLine line key value ∧ ∀ line' ∈ lines, ∀ value', ¬ KeyValueLine line' key value' := by
  constructor
  · rintro ⟨front, found, back, heq, hfound, hback⟩
    cases front with
    | nil =>
        obtain ⟨rfl, rfl⟩ := List.cons.inj heq
        exact .inr ⟨hfound, hback⟩
    | cons first front =>
        obtain ⟨rfl, rfl⟩ := List.cons.inj heq
        exact .inl ⟨front, found, back, rfl, hfound, hback⟩
  · rintro (⟨front, found, back, rfl, hfound, hback⟩ | ⟨hline, hlines⟩)
    · exact ⟨line :: front, found, back, rfl, hfound, hback⟩
    · exact ⟨[], line, lines, rfl, hline, hlines⟩

/-- The loop returns for each key the value of its last line. -/
theorem foldlM_parseDefaultLine (lines : List (List Char)) (configDict : Dict String String) :
    ∃ result, lines.foldlM parseDefaultLine configDict = .ok result ∧ ∀ key value,
      result.get? key = some value ↔ LastKeyValue lines key value ∨
        (∀ line ∈ lines, ∀ value', ¬ KeyValueLine line key value') ∧ configDict.get? key = some value := by
  induction lines generalizing configDict with
  | nil =>
      refine ⟨configDict, rfl, fun key value => ?_⟩
      constructor
      · exact fun h => .inr ⟨fun line hline => absurd hline List.not_mem_nil, h⟩
      · rintro (⟨front, line, back, heq, -⟩ | ⟨-, h⟩)
        · exact absurd heq.symm (List.append_ne_nil_of_right_ne_nil front (List.cons_ne_nil line back))
        · exact h
  | cons line lines ih =>
      rcases parseDefaultLine_ok configDict line with ⟨key', value', hline, hok⟩ | ⟨hnone, hok⟩
      · rcases ih (configDict.set key' value') with ⟨result, hresult, hget⟩
        refine ⟨result, by rw [List.foldlM_cons, hok]; exact hresult, fun key value => ?_⟩
        rw [hget, lastKeyValue_cons, Dict.get?_set, List.forall_mem_cons]
        by_cases hkey : key = key'
        · subst hkey
          rw [if_pos rfl]
          constructor
          · rintro (h | ⟨hlater, hvalue⟩)
            · exact .inl (.inl h)
            · obtain rfl := Option.some.inj hvalue
              exact .inl (.inr ⟨hline, hlater⟩)
          · rintro ((h | ⟨hfirst, hlater⟩) | ⟨⟨hno, -⟩, -⟩)
            · exact .inl h
            · exact .inr ⟨hlater, by rw [(hline.unique hfirst).2]⟩
            · exact absurd hline (hno value')
        · have hother : ∀ value, ¬ KeyValueLine line key value := fun value h => hkey (h.unique hline).1
          rw [if_neg hkey]
          constructor
          · rintro (h | ⟨hlater, hvalue⟩)
            · exact .inl (.inl h)
            · exact .inr ⟨⟨hother, hlater⟩, hvalue⟩
          · rintro ((h | ⟨hfirst, -⟩) | ⟨⟨-, hlater⟩, hvalue⟩)
            · exact .inl h
            · exact absurd hfirst (hother value)
            · exact .inr ⟨hlater, hvalue⟩
      · rcases ih configDict with ⟨result, hresult, hget⟩
        refine ⟨result, by rw [List.foldlM_cons, hok]; exact hresult, fun key value => ?_⟩
        have hlast : LastKeyValue (line :: lines) key value ↔ LastKeyValue lines key value :=
          lastKeyValue_cons.trans (or_iff_left fun h => hnone key value h.1)
        rw [hget, hlast, List.forall_mem_cons, and_iff_right (hnone key)]

/-- The parser for keys and values is total, and it returns the last lines of the keys. -/
theorem parseHelperDefault_ok (binaryData : List UInt8) :
    ∃ configDict, parseHelperDefault binaryData = .ok configDict ∧ ∀ key value,
      configDict.get? key = some value ↔ LastKeyValue (splitLines (decodeAscii binaryData)) key value := by
  rcases foldlM_parseDefaultLine (splitLines (decodeAscii binaryData)) ∅ with ⟨configDict, hok, hget⟩
  refine ⟨configDict, hok, fun key value => ?_⟩
  rw [hget]
  apply or_iff_left
  rintro ⟨-, h⟩
  cases h

/-! ## The other parsers return a dictionary -/

/-- A loop whose body never raises does not raise. -/
theorem foldlM_ok {σ : Type} {step : σ → List Char → Except ParseError σ}
    (hstep : ∀ st line, ∃ st', step st line = .ok st') (lines : List (List Char)) (st : σ) :
    ∃ st', lines.foldlM step st = .ok st' := by
  induction lines generalizing st with
  | nil => exact ⟨st, rfl⟩
  | cons line lines ih =>
      rcases hstep st line with ⟨mid, hmid⟩
      rcases ih mid with ⟨st', hst'⟩
      exact ⟨st', by rw [List.foldlM_cons, hmid]; exact hst'⟩

theorem exists_nonSpace_of_strip (h : strip line ≠ []) : ∃ c ∈ strip line, isSpace c = false := by
  refine ⟨(strip line).getLast h, List.getLast_mem h, ?_⟩
  exact Bool.eq_false_iff.2 (List.rdropWhile_last_not isSpace (line.dropWhile isSpace) h)

/-- Where three words match, there are two words to take. -/
theorem words_of_dualkey (h : matchesLine dualkeyRegex line = true) :
    ∃ key1 key2 rest, words line = key1 :: key2 :: rest := by
  rcases exists_matches_of_matchesLine h with ⟨w, rest, caps, rfl, hmatch⟩
  rcases matches_append.1 hmatch with ⟨_, w6, _, rfl, h5, -⟩
  rcases matches_append.1 h5 with ⟨_, w5, _, rfl, h4, -⟩
  rcases matches_append.1 h4 with ⟨_, gap2, _, rfl, h3, hgap2⟩
  rcases matches_append.1 h3 with ⟨_, key2, _, rfl, h2, hkey2⟩
  rcases matches_append.1 h2 with ⟨key1, gap1, _, rfl, hkey1, hgap1⟩
  rcases matches_plusLazy_cls.1 hkey1 with ⟨hne1, hcls1, -⟩
  rcases matches_plus_cls.1 hgap1 with ⟨hgapne1, hspace1, -⟩
  rcases matches_plusLazy_cls.1 hkey2 with ⟨hne2, hcls2, -⟩
  rcases matches_plus_cls.1 hgap2 with ⟨hgapne2, hspace2, -⟩
  rcases List.exists_cons_of_ne_nil hgapne1 with ⟨b1, gap1, rfl⟩
  rcases List.exists_cons_of_ne_nil hgapne2 with ⟨b2, gap2, rfl⟩
  have hword1 : ∀ c ∈ key1, isSpace c = false := by simpa [isNonSpace] using hcls1
  have hword2 : ∀ c ∈ key2, isSpace c = false := by
    intro c hc
    have := hcls2 c hc
    simp only [isNonSpace, Bool.and_eq_true, Bool.not_eq_true'] at this
    exact this.2
  have hline : key1 ++ b1 :: gap1 ++ key2 ++ b2 :: gap2 ++ w5 ++ w6 ++ rest =
      key1 ++ b1 :: (gap1 ++ (key2 ++ b2 :: (gap2 ++ w5 ++ w6 ++ rest))) := by simp
  refine ⟨key1, key2, words (gap2 ++ w5 ++ w6 ++ rest), ?_⟩
  rw [hline, Lines.words_append hne1 hword1 (hspace1 b1 List.mem_cons_self),
    Lines.words_append_blanks fun c hc => hspace1 c (List.mem_cons_of_mem b1 hc),
    Lines.words_append hne2 hword2 (hspace2 b2 List.mem_cons_self)]

theorem parseDualkeyLine_ok (configDict : Dict String String) (line : List Char) :
    ∃ result, parseDualkeyLine configDict line = .ok result := by
  unfold parseDualkeyLine
  simp only
  split
  next => exact ⟨_, rfl⟩
  next =>
    split
    next => exact ⟨_, rfl⟩
    next =>
      split
      next hmatch =>
        rcases words_of_dualkey hmatch with ⟨key1, key2, rest, hwords⟩
        rw [hwords]
        exact ⟨_, rfl⟩
      next => exact ⟨_, rfl⟩

theorem parseHelperDualkey_ok (binaryData : List UInt8) :
    ∃ configDict, parseHelperDualkey binaryData = .ok configDict := foldlM_ok parseDualkeyLine_ok _ ∅

/-- A line with the separator has two parts. -/
theorem splitMaxChars_of_mem {sep : Char} (h : sep ∈ line) :
    ∃ key value, Join.splitMaxChars sep 1 line = [key, value] := by
  rcases List.eq_append_cons_of_mem h with ⟨front, behind, rfl, hfront⟩
  exact ⟨front, behind, Join.splitMaxChars_append 0 hfront⟩

theorem tomlPair_ok (h : strip line ≠ []) : ∃ pair, tomlPair (strip line) = .ok pair := by
  unfold tomlPair
  split
  next hmem =>
    rcases splitMaxChars_of_mem hmem with ⟨key, value, hsplit⟩
    rw [hsplit]
    exact ⟨_, rfl⟩
  next =>
    split
    next hmem =>
      rcases splitMaxChars_of_mem hmem with ⟨key, value, hsplit⟩
      rw [hsplit]
      exact ⟨_, rfl⟩
    next =>
      rcases exists_nonSpace_of_strip h with ⟨c, hc, hspace⟩
      rcases List.exists_cons_of_ne_nil (Lines.words_ne_nil hc hspace) with ⟨key, rest, hwords⟩
      rw [hwords]
      exact ⟨_, rfl⟩

theorem parseTomlLine_ok (st : TomlState) (line : List Char) : ∃ st', parseTomlLine st line = .ok st' := by
  unfold parseTomlLine
  simp only
  split
  next => exact ⟨_, rfl⟩
  next hskip =>
    rcases tomlPair_ok fun hnil => hskip (.inl hnil) with ⟨pair, hpair⟩
    rw [hpair]
    split
    next => exact ⟨_, rfl⟩
    next =>
      split
      next => exact ⟨_, rfl⟩
      next => exact ⟨_, rfl⟩

theorem parseHelperToml_ok (libs : Libraries α) (binaryData : List UInt8) :
    ∃ configDict, parseHelperToml libs binaryData = .ok configDict := by
  unfold parseHelperToml
  split
  next => exact ⟨_, rfl⟩
  next =>
    rcases foldlM_ok parseTomlLine_ok (splitLines (decodeAscii binaryData)) ⟨∅, []⟩ with ⟨st, hst⟩
    refine ⟨st.configDict, ?_⟩
    rw [parseHelperTomlRugged, hst]
    rfl

/-- Only a file without lines has no result. -/
theorem parseHelperCsv_eq_none {binaryData : List UInt8} :
    parseHelperCsv binaryData = none ↔ csvLines binaryData = [] := by
  unfold parseHelperCsv
  constructor
  · intro h
    split at h
    next hlines => exact hlines
    next => cases h
    next =>
      split at h
      next => cases h
      next =>
        split at h
        next => cases h
        next => cases h
    next => cases h
  · intro h
    rw [h]

theorem csvLines_ne_nil {binaryData : List UInt8} : csvLines binaryData ≠ [] ↔
    ∃ line ∈ splitLines (decodeAscii binaryData), strip line ≠ [] ∧ (strip line).head? ≠ some '#' := by
  rw [csvLines, Ne, List.filter_eq_nil_iff]
  simp only [List.forall_mem_map, decide_eq_true_eq]
  push Not
  rfl

/-- Every type but two has a parser that always returns a dictionary. -/
theorem parseConfigFromBinary_ok (libs : Libraries α) {configType : Option ConfigType}
    (binaryData : List UInt8) (hcsv : configType ≠ some .csv) :
    ∃ configDict, parseConfigFromBinary libs binaryData configType = .ok (some configDict) := by
  unfold parseConfigFromBinary
  split
  next => exact ⟨∅, rfl⟩
  next =>
    split
    next =>
      rcases parseHelperToml_ok libs binaryData with ⟨configDict, hok⟩
      exact ⟨configDict, by rw [hok]; rfl⟩
    next => exact ⟨_, rfl⟩
    next =>
      rcases parseHelperDualkey_ok binaryData with ⟨configDict, hok⟩
      exact ⟨configDict, by rw [hok]; rfl⟩
    next => exact absurd rfl hcsv
    next => exact ⟨_, rfl⟩
    next =>
      rcases parseHelperDefault_ok binaryData with ⟨configDict, hok, -⟩
      exact ⟨configDict, by rw [hok]; rfl⟩

/-- A JSON file is read as lines of keys and values. -/
theorem parseConfigFromBinary_json (libs : Libraries α) (binaryData : List UInt8) :
    ∃ configDict, parseConfigFromBinary libs binaryData (some .json) = .ok (some configDict) ∧
      ∀ key value, configDict.get? key = some value ↔
        LastKeyValue (splitLines (decodeAscii binaryData)) key value := by
  rcases parseHelperDefault_ok binaryData with ⟨configDict, hok, hget⟩
  refine ⟨configDict, ?_, hget⟩
  unfold parseConfigFromBinary
  by_cases hempty : binaryData = []
  · subst hempty
    exact congrArg (fun result => result.map some) hok
  · rw [if_neg hempty]
    exact congrArg (fun result => result.map some) hok

/-- The files that are parsed as they should be. -/
theorem parsesRight_iff (libs : Libraries α) (jsonLoads : List Char → Option (ConfigTable α))
    (fileName : String) (mime : Option String) (binaryData : List UInt8) :
    ParsesRight libs jsonLoads fileName mime binaryData ↔
      ReadableAs libs jsonLoads (determineConfigType fileName mime binaryData) binaryData := by
  unfold ParsesRight
  generalize determineConfigType fileName mime binaryData = configType
  constructor
  · rintro ⟨configDict, hok, hjson⟩
    constructor
    · rintro rfl hne
      rw [parseConfigFromBinary, if_neg hne] at hok
      apply csvLines_ne_nil.1
      intro hnil
      rw [parseHelperCsv_eq_none.2 hnil] at hok
      cases hok
    · rintro rfl object hloads hnodup key value
      rcases parseConfigFromBinary_json libs binaryData with ⟨result, hresult, hget⟩
      obtain rfl : configDict = result := Option.some.inj (Except.ok.inj (hok.symm.trans hresult))
      rw [← hget]
      exact hjson rfl object hloads hnodup key value
  · intro h
    by_cases hcsv : configType = some .csv
    · subst hcsv
      by_cases hempty : binaryData = []
      · exact ⟨∅, by rw [parseConfigFromBinary, if_pos hempty], fun h => by cases h⟩
      · have hlines := csvLines_ne_nil.2 (h.csv rfl hempty)
        rcases Option.ne_none_iff_exists'.1 (fun hnone => hlines (parseHelperCsv_eq_none.1 hnone))
          with ⟨configDict, hsome⟩
        exact ⟨configDict, by rw [parseConfigFromBinary, if_neg hempty, ← hsome], fun h => by cases h⟩
    · by_cases hjson : configType = some .json
      · subst hjson
        rcases parseConfigFromBinary_json libs binaryData with ⟨configDict, hok, hget⟩
        refine ⟨configDict, hok, fun _ object hloads hnodup key value => ?_⟩
        rw [hget]
        exact h.json rfl object hloads hnodup key value
      · rcases parseConfigFromBinary_ok libs binaryData hcsv with ⟨configDict, hok⟩
        exact ⟨configDict, hok, fun h => absurd h hjson⟩

/-- A key has no blank and no separator in it. -/
theorem KeyValueLine.plain_key {key value : String} (h : KeyValueLine line key value) :
    ∀ c ∈ key.toList, isSpace c = false ∧ c ≠ ':' ∧ c ≠ '=' := by
  rcases h with ⟨hvalid, blanks, sep, blanks', hline, hkey, hlast, -⟩
  rcases exists_matches_of_matchesLine hvalid with ⟨w, rest, caps, hw, hmatch⟩
  rcases matches_append.1 hmatch with ⟨_, w6, _, rfl, h5, -⟩
  rcases matches_append.1 h5 with ⟨_, w5, _, rfl, h4, -⟩
  rcases matches_append.1 h4 with ⟨_, w4, _, rfl, h3, -⟩
  rcases matches_append.1 h3 with ⟨_, w3, _, rfl, h2, hsep⟩
  rcases matches_append.1 h2 with ⟨front, gap, _, rfl, hfront, hgap⟩
  rcases matches_plusLazy_cls.1 hfront with ⟨-, hcls, -⟩
  rcases matches_star_cls.1 hgap with ⟨hspace, -⟩
  rcases matches_cls.1 hsep with ⟨sep', rfl, hsep', -⟩
  have hword : ∀ c ∈ front, isSpace c = false := by
    intro c hc
    have := hcls c hc
    simp only [isNonSpace, Bool.and_eq_true, Bool.not_eq_true'] at this
    exact this.2
  refine fun c hc => ⟨?_, hkey c hc⟩
  -- the key ends before the gap behind the first word of the match
  rw [hw] at hline
  simp only [List.append_assoc, List.singleton_append] at hline
  rcases List.append_eq_append_iff.1 hline with ⟨more, hmore, hgap⟩ | ⟨more, rfl, -⟩
  · have hblank : (∀ c ∈ more, isSpace c = true) → isSpace c = false := by
      intro hall
      rcases List.eq_nil_or_concat more with rfl | ⟨init, x, rfl⟩
      · rw [hmore, List.append_nil] at hc
        exact hword c hc
      · rw [hmore, List.concat_eq_append, ← List.append_assoc, List.getLast?_concat] at hlast
        have hx := hlast x rfl
        rw [hall x (by simp)] at hx
        cases hx
    rcases List.append_eq_append_iff.1 hgap with ⟨more', rfl, hsep⟩ | ⟨more', rfl, -⟩
    · cases more' with
      | nil => exact hblank (by simpa using hspace)
      | cons x more' =>
          obtain rfl : sep' = x := (List.cons.inj hsep).1
          exact absurd hsep' (not_separator (hkey sep' (by rw [hmore]; simp)))
    · exact hblank fun c hc => hspace c (List.mem_append_left more' hc)
  · exact hword c (List.mem_append_left more hc)

/-- No JSON file with a value in a nested object is parsed as it should be. -/
theorem ReadableAs.flat {libs : Libraries α} {jsonLoads : List Char → Option (ConfigTable α)}
    {binaryData : List UInt8} {object : ConfigTable α} (h : ReadableAs libs jsonLoads (some .json) binaryData)
    (hloads : jsonLoads (decodeAscii binaryData) = some object)
    (hnodup : ((flattening libs.str object).map Prod.fst).Nodup) :
    ∀ leaf ∈ object.leaves [], leaf.1.length ≤ 1 := by
  intro leaf hleaf
  have hmem : (Join.join ' ' leaf.1, libs.str leaf.2) ∈ flattening libs.str object :=
    List.mem_map.2 ⟨leaf, hleaf, rfl⟩
  rcases (h.json rfl object hloads hnodup _ _).2 hmem with ⟨front, line, back, -, hline, -⟩
  have hplain := hline.plain_key
  by_contra hlong
  match hpath : leaf.1 with
  | [] => simp [hpath] at hlong
  | [key] => simp [hpath] at hlong
  | key :: key' :: path =>
      -- the joined path has a blank
      rw [hpath, Join.join, String.toList_ofList, List.map_cons, List.map_cons,
        List.intercalate_cons_cons] at hplain
      have hblank := (hplain ' ' (by simp)).1
      exact absurd hblank (by decide)

def sampleLibraries : Libraries String where
  fromstring := fun _ => none
  tomlLoads := fun _ => none
  str := id

/-- `{"a": "b"}` -/
def sampleJson : List UInt8 := [123, 34, 97, 34, 58, 32, 34, 98, 34, 125]

/-- The object that this is. -/
def sampleObject : ConfigTable String := .value "a" "b" .nil

/-- The JSON object is read as a line with the key `{"a"`, and a CSV file with a comment
only is read as nothing. -/
theorem parseConfigFromBinary_sample :
    ¬ ParsesRight sampleLibraries (fun _ => some sampleObject) "a.json" none sampleJson ∧
      ¬ ParsesRight sampleLibraries (fun _ => none) "a.csv" none [35] := by
  constructor
  · have htype : determineConfigType "a.json" none sampleJson = some .json := by decide +kernel
    have hkey : (parseConfigFromBinary sampleLibraries sampleJson (some .json)).toOption.map
        (fun result => result.bind fun configDict => configDict.get? "a") = some none := by decide +kernel
    rintro ⟨configDict, hok, hjson⟩
    rw [htype] at hok
    rw [hok] at hkey
    have hmem : ("a", "b") ∈ flattening id sampleObject := by decide +kernel
    have hvalue := (hjson htype sampleObject rfl (by decide +kernel) "a" "b").2 hmem
    exact absurd (hvalue.symm.trans (Option.some.inj hkey)) (by decide)
  · have htype : determineConfigType "a.csv" none [35] = some .csv := by decide +kernel
    have hnone : parseHelperCsv [35] = none := parseHelperCsv_eq_none.2 (by decide +kernel)
    rintro ⟨configDict, hok, -⟩
    rw [htype, parseConfigFromBinary, if_neg (List.cons_ne_nil _ _), hnone] at hok
    cases hok

end FileConfig

end FactCore
