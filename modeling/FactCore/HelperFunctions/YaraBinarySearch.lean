import Mathlib.Data.Bool.AllAny
import FactCore.Lib.Dict
import FactCore.Lib.Join
import FactCore.Lib.Lines
import FactCore.Lib.Loop
import FactCore.Lib.Regex
import FactCore.Lib.Replace

/-! # The YARA binary search

`_parse_raw_result` of `helperFunctions/yara_binary_search.py`, against the output that
`yara -s` writes: for each match the name of the rule and the path, then a line for each
string.

The expression that cuts the output into blocks wants rule names of two characters and
strings with a name; the loop over the strings compares the number of strings only after
it has added one. `Readable` says for which matches this does not matter.
-/

namespace FactCore.YaraBinarySearch

open Regex

abbrev Str := List Char

/-! ## The source's functions -/

/-- The characters of an identifier, `[a-zA-Z0-9_]`. -/
def isWord (c : Char) : Bool :=
  (('a' ≤ c && c ≤ 'z') || ('A' ≤ c && c ≤ 'Z')) || ('0' ≤ c && c ≤ '9') || c == '_'

/-- The first character of an identifier, `[a-zA-Z_]`. -/
def isWordStart (c : Char) : Bool := (('a' ≤ c && c ≤ 'z') || ('A' ≤ c && c ≤ 'Z')) || c == '_'

/-- `[0-9a-f]`. -/
def isHexDigit (c : Char) : Bool := ('0' ≤ c && c ≤ '9') || ('a' ≤ c && c ≤ 'f')

/-- `[^\n]`, which is also `.`. -/
def notNewline (c : Char) : Bool := c != '\n'

/-- `[a-zA-Z_][a-zA-Z0-9_]+ [^\n]+\n`. -/
def ruleLineRegex : Regex Char :=
  cls isWordStart ++ plus (cls isWord) ++ lit [' '] ++ plus (cls notNewline) ++ lit ['\n']

/-- `0x[0-9a-f]+:\$[a-zA-Z0-9_]+: .+\n`. -/
def stringLineRegex : Regex Char :=
  lit ['0', 'x'] ++ plus (cls isHexDigit) ++ lit [':', '$'] ++ plus (cls isWord) ++ lit [':', ' '] ++
    plus (cls notNewline) ++ lit ['\n']

/-- The expression of `_parse_raw_result`. -/
def blockRegex : Regex Char := ruleLineRegex ++ plus stringLineRegex

/-- What unpacking raises that finds another number of fields. -/
inductive Exc where
  | valueError
deriving DecidableEq, Repr

/-- An entry of the result. -/
structure Entry where
  offset : Str
  condition : Str
  matchStr : Str
deriving DecidableEq, Repr

/-- The results: by uid, by rule. -/
abbrev Results := Dict Str (Dict Str (List Entry))

/-- `Path(path_str).name`. -/
def pathName (pathStr : Str) : Str :=
  (((pathStr.splitOn '/').filter fun part => part ≠ [] ∧ part ≠ ['.']).getLast?).getD []

/-- `results.setdefault(uid, {}).setdefault(rule, [])`. -/
def setDefault (results : Results) (uid rule : Str) : Results :=
  let rules := (results.get? uid).getD ∅
  results.set uid (rules.set rule ((rules.get? rule).getD []))

/-- `results[uid][rule].append(entry)`, for keys that are there. -/
def append (results : Results) (uid rule : Str) (entry : Entry) : Results :=
  let rules := (results.get? uid).getD ∅
  results.set uid (rules.set rule ((rules.get? rule).getD [] ++ [entry]))

/-- `results[uid][rule]`. -/
def entriesOf (results : Results) (uid rule : Str) : Option (List Entry) :=
  (results.get? uid).bind fun rules => rules.get? rule

/-- `len(results[uid][rule])`. -/
def count (results : Results) (uid rule : Str) : Nat := ((entriesOf results uid rule).getD []).length

/-- The loop over the string lines of a block. -/
def addStrings (limit : Nat) (uid rule : Str) : Results → List Str → Except Exc Results
  | results, [] => .ok results
  | results, matchLine :: rest =>
      match Join.splitMaxChars ':' 2 matchLine with
      | [offset, condition, matchStr] =>
          let results := append results uid rule ⟨offset, condition, matchStr.drop 1⟩
          if limit ≤ count results uid rule then .ok results
          else addStrings limit uid rule results rest
      | _ => .error .valueError

/-- The body of the loop over the blocks. -/
def addBlock (limit : Nat) (results : Results) (resultStr : Str) : Except Exc Results :=
  match Lines.splitUnicodeLines resultStr with
  | ruleStr :: matchLines =>
      match Join.splitMaxChars ' ' 1 ruleStr with
      | [rule, pathStr] =>
          let uid := pathName pathStr
          addStrings limit uid rule (setDefault results uid rule) matchLines
      | _ => .error .valueError
  | [] => .error .valueError

/-- `_parse_raw_result`; `limit` is `config.backend.binary_search.max_strings_per_match`. -/
def parseRawResult (limit : Nat) (rawResult : Str) : Except Exc Results :=
  (findall blockRegex rawResult).foldlM (addBlock limit) ∅

/-! ## The output of YARA -/

/-- A string match: the offset in hexadecimal digits, the identifier without its dollar
sign, and the matching text on one line. -/
structure StringMatch where
  digits : Str
  identifier : Str
  text : Str
  digits_ne_nil : digits ≠ []
  digits_hex : ∀ c ∈ digits, isHexDigit c = true
  identifier_word : ∀ c ∈ identifier, isWord c = true
  text_ne_nil : text ≠ []
  text_one_line : ∀ c ∈ text, Lines.isLineBoundary c = false

/-- A legal identifier. -/
def IsIdentifier : Str → Prop
  | [] => False
  | c :: rest => isWordStart c = true ∧ ∀ c ∈ rest, isWord c = true

/-- A match: the rule, the path of the file with the uid at its end, and the strings. -/
structure RuleMatch where
  rule : Str
  dir : Str
  uid : Str
  strings : List StringMatch
  rule_identifier : IsIdentifier rule
  dir_one_line : ∀ c ∈ dir, Lines.isLineBoundary c = false
  uid_one_line : ∀ c ∈ uid, Lines.isLineBoundary c = false
  uid_name : uid ≠ [] ∧ uid ≠ ['.'] ∧ '/' ∉ uid

/-- The line of a string, without its line feed. -/
def StringMatch.line (s : StringMatch) : Str :=
  ['0', 'x'] ++ s.digits ++ [':', '$'] ++ s.identifier ++ [':', ' '] ++ s.text

def RuleMatch.path (m : RuleMatch) : Str := m.dir ++ '/' :: m.uid

/-- A rule line, and the lines of the strings behind it. -/
def block (rule path : Str) (strings : List StringMatch) : Str :=
  (rule ++ ' ' :: path) ++ '\n' :: (strings.map StringMatch.line).flatMap fun line => line ++ ['\n']

def RuleMatch.render (m : RuleMatch) : Str := block m.rule m.path m.strings

/-- The output of one scan. -/
def renderScan (found : List RuleMatch) : Str := found.flatMap RuleMatch.render

/-- The outputs of the scans, joined as for a single firmware. -/
def renderScans (scans : List (List RuleMatch)) : Str := ['\n'].intercalate (scans.map renderScan)

/-- What the result should have for a string. -/
def StringMatch.entry (s : StringMatch) : Entry := ⟨'0' :: 'x' :: s.digits, '$' :: s.identifier, s.text⟩

/-- The matches of a rule in a file. -/
def matchesOf (found : List RuleMatch) (uid rule : Str) : List RuleMatch :=
  found.filter fun m => m.uid = uid ∧ m.rule = rule

/-- The result has exactly the matches, grouped by uid and rule, and of each group the
first entries up to the limit. -/
structure Grouped (limit : Nat) (found : List RuleMatch) (results : Results) : Prop where
  uids : ∀ uid, uid ∈ results ↔ ∃ m ∈ found, m.uid = uid
  entries : ∀ uid rule, entriesOf results uid rule =
    if matchesOf found uid rule = [] then none
    else some (((matchesOf found uid rule).flatMap fun m => m.strings.map StringMatch.entry).take limit)

/-- The parser gives the matches back, for every limit. -/
def ParsesBack (scans : List (List RuleMatch)) : Prop :=
  ∀ limit, 1 ≤ limit → ∃ results, parseRawResult limit (renderScans scans) = .ok results ∧
    Grouped limit scans.flatten results

/-- Two matches of one rule in one file. -/
def SameKey (m m' : RuleMatch) : Prop := m.uid = m'.uid ∧ m.rule = m'.rule

/-- The matches with strings have a rule name of at least two characters and named strings
only, no two of them are of the same rule in the same file, and a match without strings
is of a rule and file of one of them. -/
structure Readable (found : List RuleMatch) : Prop where
  named : ∀ m ∈ found, m.strings ≠ [] → 2 ≤ m.rule.length ∧ ∀ s ∈ m.strings, s.identifier ≠ []
  once : (found.filter fun m => m.strings ≠ []).Pairwise fun m m' => ¬ SameKey m m'
  covered : ∀ m ∈ found, m.strings = [] → ∃ m' ∈ found, m'.strings ≠ [] ∧ SameKey m m'

/-! ## Characters -/

variable {c : Char}

theorem toNat_of_isWord (h : isWord c = true) : 48 ≤ c.toNat ∧ c.toNat ≤ 122 := by
  simp only [isWord, Bool.or_eq_true, Bool.and_eq_true, decide_eq_true_eq, beq_iff_eq, Char.le_def,
    UInt32.le_iff_toNat_le] at h
  change (((97 ≤ c.toNat ∧ c.toNat ≤ 122) ∨ (65 ≤ c.toNat ∧ c.toNat ≤ 90)) ∨
    (48 ≤ c.toNat ∧ c.toNat ≤ 57)) ∨ c = '_' at h
  rcases h with h | rfl
  · omega
  · decide

theorem isWord_of_isWordStart (h : isWordStart c = true) : isWord c = true := by
  simp only [isWordStart, isWord, Bool.or_eq_true] at h ⊢
  rcases h with h | h
  · exact .inl (.inl h)
  · exact .inr h

theorem isWord_of_isHexDigit (h : isHexDigit c = true) : isWord c = true := by
  simp only [isHexDigit, isWord, Bool.or_eq_true, Bool.and_eq_true, decide_eq_true_eq, beq_iff_eq,
    Char.le_def, UInt32.le_iff_toNat_le] at h ⊢
  rcases h with h | h
  · exact .inl (.inr h)
  · refine .inl (.inl (.inl ⟨h.1, ?_⟩))
    have hle : 'f'.val.toNat ≤ 'z'.val.toNat := by decide
    omega

theorem toNat_of_isLineBoundary (h : Lines.isLineBoundary c = true) : c.toNat ≤ 30 ∨ 123 ≤ c.toNat := by
  simp only [Lines.isLineBoundary, Lines.isLineBreak, Bool.or_eq_true, Bool.and_eq_true,
    decide_eq_true_eq, beq_iff_eq] at h
  rcases h with ((h | rfl) | rfl) | rfl
  · omega
  · exact .inr (by decide)
  · exact .inr (by decide)
  · exact .inr (by decide)

/-- No character of an identifier ends a line. -/
theorem isLineBoundary_of_isWord (h : isWord c = true) : Lines.isLineBoundary c = false := by
  have hbound := toNat_of_isWord h
  apply Bool.eq_false_iff.2
  intro hline
  have := toNat_of_isLineBoundary hline
  omega

/-- A separator is no character of an identifier. -/
theorem notMem_of_word {l : Str} (h : ∀ c ∈ l, isWord c = true) {sep : Char}
    (hsep : isWord sep = false) : sep ∉ l := by
  intro hmem
  rw [h sep hmem] at hsep
  cases hsep

theorem newline_notMem_of_oneLine {l : Str} (h : ∀ c ∈ l, Lines.isLineBoundary c = false) : '\n' ∉ l :=
  fun hmem => absurd (h _ hmem) (by decide)

theorem IsIdentifier.word {l : Str} (h : IsIdentifier l) : ∀ c ∈ l, isWord c = true := by
  cases l with
  | nil => exact absurd h id
  | cons x l =>
      intro c hc
      rcases List.mem_cons.1 hc with rfl | hc
      · exact isWord_of_isWordStart h.1
      · exact h.2 c hc

/-! ## What the expressions match -/

variable {caps caps' : Captures Char} {w rest : Str}

theorem matches_ruleLine (h : Matches ruleLineRegex caps w rest caps') :
    ∃ name path, w = (name ++ ' ' :: path) ++ ['\n'] ∧ 2 ≤ name.length ∧ IsIdentifier name ∧
      path ≠ [] ∧ '\n' ∉ path ∧ caps' = caps := by
  unfold ruleLineRegex at h
  rcases matches_append.1 h with ⟨_, w5, _, rfl, h4, h5⟩
  rcases matches_append.1 h4 with ⟨_, path, _, rfl, h3, hpath⟩
  rcases matches_append.1 h3 with ⟨_, w3, _, rfl, h2, hblank⟩
  rcases matches_append.1 h2 with ⟨_, more, _, rfl, hfirst, hmore⟩
  rcases matches_cls.1 hfirst with ⟨x, rfl, hx, rfl⟩
  rcases matches_plus_cls.1 hmore with ⟨hne, hword, rfl⟩
  rcases matches_lit.1 hblank with ⟨rfl, rfl⟩
  rcases matches_plus_cls.1 hpath with ⟨hpne, hpline, rfl⟩
  rcases matches_lit.1 h5 with ⟨rfl, rfl⟩
  refine ⟨x :: more, path, by simp, ?_, ⟨hx, hword⟩, hpne, ?_, rfl⟩
  · have := List.length_pos_iff.2 hne
    rw [List.length_cons]
    omega
  · exact fun hmem => absurd (hpline _ hmem) (by decide)

theorem matches_stringLine (h : Matches stringLineRegex caps w rest caps') :
    ∃ digits ident text, w = (['0', 'x'] ++ digits ++ [':', '$'] ++ ident ++ [':', ' '] ++ text) ++ ['\n'] ∧
      digits ≠ [] ∧ (∀ c ∈ digits, isHexDigit c = true) ∧ ident ≠ [] ∧ (∀ c ∈ ident, isWord c = true) ∧
      text ≠ [] ∧ '\n' ∉ text ∧ caps' = caps := by
  unfold stringLineRegex at h
  rcases matches_append.1 h with ⟨_, w7, _, rfl, h6, h7⟩
  rcases matches_append.1 h6 with ⟨_, text, _, rfl, h5, htext⟩
  rcases matches_append.1 h5 with ⟨_, w5, _, rfl, h4, hcolon⟩
  rcases matches_append.1 h4 with ⟨_, ident, _, rfl, h3, hident⟩
  rcases matches_append.1 h3 with ⟨_, w3, _, rfl, h2, hdollar⟩
  rcases matches_append.1 h2 with ⟨_, digits, _, rfl, hzero, hdigits⟩
  rcases matches_lit.1 hzero with ⟨rfl, rfl⟩
  rcases matches_plus_cls.1 hdigits with ⟨hdne, hhex, rfl⟩
  rcases matches_lit.1 hdollar with ⟨rfl, rfl⟩
  rcases matches_plus_cls.1 hident with ⟨hine, hword, rfl⟩
  rcases matches_lit.1 hcolon with ⟨rfl, rfl⟩
  rcases matches_plus_cls.1 htext with ⟨htne, htline, rfl⟩
  rcases matches_lit.1 h7 with ⟨rfl, rfl⟩
  refine ⟨digits, ident, text, rfl, hdne, hhex, hine, hword, htne, ?_, rfl⟩
  exact fun hmem => absurd (htline _ hmem) (by decide)

/-- A rule line with a name of two characters. -/
theorem ruleLine_matches {name path : Str} (hname : IsIdentifier name) (h2 : 2 ≤ name.length)
    (hpath : path ≠ []) (hline : '\n' ∉ path) :
    Matches ruleLineRegex caps ((name ++ ' ' :: path) ++ ['\n']) rest caps := by
  cases name with
  | nil => exact absurd hname id
  | cons x more =>
      have hmore : more ≠ [] := by
        rintro rfl
        simp at h2
      have hpline : ∀ c ∈ path, notNewline c = true := by
        intro c hc
        have hne : c ≠ '\n' := fun h => hline (h ▸ hc)
        simpa [notNewline] using hne
      have hfirst : Matches (cls isWordStart) caps [x] (more ++ ([' '] ++ (path ++ (['\n'] ++ rest)))) caps :=
        .cls hname.1
      have hrest : Matches (plus (cls isWord)) caps more ([' '] ++ (path ++ (['\n'] ++ rest))) caps :=
        matches_plus_cls.2 ⟨hmore, hname.2, rfl⟩
      have hblank : Matches (lit [' ']) caps [' '] (path ++ (['\n'] ++ rest)) caps :=
        matches_lit.2 ⟨rfl, rfl⟩
      have hfile : Matches (plus (cls notNewline)) caps path (['\n'] ++ rest) caps :=
        matches_plus_cls.2 ⟨hpath, hpline, rfl⟩
      have hend : Matches (lit ['\n']) caps ['\n'] rest caps := matches_lit.2 ⟨rfl, rfl⟩
      have hword : ((x :: more) ++ ' ' :: path) ++ ['\n'] = [x] ++ more ++ [' '] ++ path ++ ['\n'] := by
        simp
      rw [hword]
      exact (((hfirst.seq hrest).seq hblank).seq hfile).seq hend

/-- The line of a named string. -/
theorem stringLine_matches {s : StringMatch} (hident : s.identifier ≠ []) :
    Matches stringLineRegex caps (s.line ++ ['\n']) rest caps := by
  have htext : ∀ c ∈ s.text, notNewline c = true := by
    intro c hc
    have hne : c ≠ '\n' := fun h => newline_notMem_of_oneLine s.text_one_line (h ▸ hc)
    simpa [notNewline] using hne
  have h0 : Matches (lit ['0', 'x']) caps ['0', 'x']
      (s.digits ++ ([':', '$'] ++ (s.identifier ++ ([':', ' '] ++ (s.text ++ (['\n'] ++ rest)))))) caps :=
    matches_lit.2 ⟨rfl, rfl⟩
  have hdigits : Matches (plus (cls isHexDigit)) caps s.digits
      ([':', '$'] ++ (s.identifier ++ ([':', ' '] ++ (s.text ++ (['\n'] ++ rest))))) caps :=
    matches_plus_cls.2 ⟨s.digits_ne_nil, s.digits_hex, rfl⟩
  have hdollar : Matches (lit [':', '$']) caps [':', '$']
      (s.identifier ++ ([':', ' '] ++ (s.text ++ (['\n'] ++ rest)))) caps := matches_lit.2 ⟨rfl, rfl⟩
  have hname : Matches (plus (cls isWord)) caps s.identifier
      ([':', ' '] ++ (s.text ++ (['\n'] ++ rest))) caps :=
    matches_plus_cls.2 ⟨hident, s.identifier_word, rfl⟩
  have hcolon : Matches (lit [':', ' ']) caps [':', ' '] (s.text ++ (['\n'] ++ rest)) caps :=
    matches_lit.2 ⟨rfl, rfl⟩
  have hmatch : Matches (plus (cls notNewline)) caps s.text (['\n'] ++ rest) caps :=
    matches_plus_cls.2 ⟨s.text_ne_nil, htext, rfl⟩
  have hend : Matches (lit ['\n']) caps ['\n'] rest caps := matches_lit.2 ⟨rfl, rfl⟩
  exact (((((h0.seq hdigits).seq hdollar).seq hname).seq hcolon).seq hmatch).seq hend

/-- Both expressions match one line, so there is only one way. -/
theorem determined_of_line {r : Regex Char} {l : Str} (hl : '\n' ∉ l)
    (hline : ∀ w rest caps', Matches r caps w rest caps' → ∃ l, w = l ++ ['\n'] ∧ '\n' ∉ l ∧ caps' = caps)
    (h : Matches r caps (l ++ ['\n']) rest caps) :
    Determined r (caps, (l ++ ['\n']) ++ rest) (caps, rest) := by
  apply determined_of_unique h
  intro w' rest' c'' htext h'
  rcases hline w' rest' c'' h' with ⟨l', rfl, hl', rfl⟩
  rw [List.append_assoc, List.append_assoc] at htext
  exact ⟨(Replace.append_sep_inj hl hl' htext).2.symm, rfl⟩

theorem StringMatch.line_oneLine (s : StringMatch) : ∀ c ∈ s.line, Lines.isLineBoundary c = false := by
  have hdigits : ∀ c ∈ s.digits, Lines.isLineBoundary c = false :=
    fun c hc => isLineBoundary_of_isWord (isWord_of_isHexDigit (s.digits_hex c hc))
  have hident : ∀ c ∈ s.identifier, Lines.isLineBoundary c = false :=
    fun c hc => isLineBoundary_of_isWord (s.identifier_word c hc)
  have hzero : ∀ c ∈ ['0', 'x'], Lines.isLineBoundary c = false :=
    List.all_iff_forall_prop.1 (by decide)
  have hdollar : ∀ c ∈ [':', '$'], Lines.isLineBoundary c = false :=
    List.all_iff_forall_prop.1 (by decide)
  have hcolon : ∀ c ∈ [':', ' '], Lines.isLineBoundary c = false :=
    List.all_iff_forall_prop.1 (by decide)
  simp only [StringMatch.line, List.forall_mem_append]
  exact ⟨⟨⟨⟨⟨hzero, hdigits⟩, hdollar⟩, hident⟩, hcolon⟩, s.text_one_line⟩

theorem RuleMatch.path_oneLine (m : RuleMatch) : ∀ c ∈ m.path, Lines.isLineBoundary c = false := by
  have hslash : Lines.isLineBoundary '/' = false := by decide
  simp only [RuleMatch.path, List.forall_mem_append, List.forall_mem_cons]
  exact ⟨m.dir_one_line, hslash, m.uid_one_line⟩

theorem RuleMatch.path_ne_nil (m : RuleMatch) : m.path ≠ [] := by simp [RuleMatch.path]

/-! ## The blocks that are found -/

/-- The text does not start with a line for a string. -/
def NoString (text : Str) : Prop := text.head? ≠ some '0'

theorem runs_stringLine_eq_nil {text : Str} (h : NoString text) :
    runs stringLineRegex (caps, text) = [] := by
  rw [List.eq_nil_iff_forall_not_mem]
  rintro ⟨caps', rest⟩ hmem
  rcases mem_runs.1 hmem with ⟨w, rfl, hmatch⟩
  rcases matches_stringLine hmatch with ⟨digits, ident, text, rfl, -⟩
  exact h (by simp)

/-- The lines of some strings, each with its line feed. -/
def stringLines (strings : List StringMatch) : Str :=
  (strings.map StringMatch.line).flatMap fun line => line ++ ['\n']

theorem stringLines_cons (s : StringMatch) (strings : List StringMatch) :
    stringLines (s :: strings) = (s.line ++ ['\n']) ++ stringLines strings := rfl

theorem block_eq (rule path : Str) (strings : List StringMatch) :
    block rule path strings = ((rule ++ ' ' :: path) ++ ['\n']) ++ stringLines strings := by
  simp [block, stringLines]

/-- The line of a named string can be matched in one way. -/
theorem determined_stringLine {s : StringMatch} (hident : s.identifier ≠ []) (text : Str) :
    Determined stringLineRegex (caps, (s.line ++ ['\n']) ++ text) (caps, text) := by
  apply determined_of_line (newline_notMem_of_oneLine s.line_oneLine)
  · intro w rest caps' h
    rcases matches_stringLine h with ⟨digits, ident, text, rfl, -, hhex, -, hword, -, hnl, rfl⟩
    refine ⟨_, rfl, ?_, rfl⟩
    have hd := notMem_of_word (fun c hc => isWord_of_isHexDigit (hhex c hc)) (by decide : isWord '\n' = false)
    have hi := notMem_of_word hword (by decide : isWord '\n' = false)
    simp [hd, hi, hnl]
  · exact stringLine_matches hident

/-- So can a rule line. -/
theorem determined_ruleLine {name path : Str} (hname : IsIdentifier name) (h2 : 2 ≤ name.length)
    (hpath : path ≠ []) (hline : '\n' ∉ path) (text : Str) :
    Determined ruleLineRegex (caps, ((name ++ ' ' :: path) ++ ['\n']) ++ text) (caps, text) := by
  have hnl : ∀ {name path : Str}, IsIdentifier name → '\n' ∉ path → '\n' ∉ name ++ ' ' :: path := by
    intro name path hname hline
    have hn := notMem_of_word hname.word (by decide : isWord '\n' = false)
    simp [hn, hline]
  apply determined_of_line (hnl hname hline)
  · intro w rest caps' h
    rcases matches_ruleLine h with ⟨name', path', rfl, -, hname', -, hline', rfl⟩
    exact ⟨_, rfl, hnl hname' hline', rfl⟩
  · exact ruleLine_matches hname h2 hpath hline

/-- All string lines are taken. -/
theorem rounds_stringLines {strings : List StringMatch} {text : Str}
    (hident : ∀ s ∈ strings, s.identifier ≠ []) (htext : NoString text) :
    Rounds stringLineRegex (caps, stringLines strings ++ text) (caps, text) := by
  induction strings with
  | nil => exact .stop (runs_stringLine_eq_nil htext)
  | cons s strings ih =>
      rw [stringLines_cons, List.append_assoc]
      refine .next (determined_stringLine (hident s List.mem_cons_self) _) ?_
        (ih fun s' hs' => hident s' (List.mem_cons_of_mem s hs'))
      simp only [List.length_append, List.length_cons, List.length_nil]
      omega

/-- A block with strings is matched as a whole. -/
theorem matchFront_block {rule path text : Str} {strings : List StringMatch} (hname : IsIdentifier rule)
    (h2 : 2 ≤ rule.length) (hpath : path ≠ []) (hline : '\n' ∉ path) (hne : strings ≠ [])
    (hident : ∀ s ∈ strings, s.identifier ≠ []) (htext : NoString text) :
    matchFront blockRegex (block rule path strings ++ text) = some ([], text) := by
  rcases List.exists_cons_of_ne_nil hne with ⟨s, strings, rfl⟩
  have hfirst := hident s List.mem_cons_self
  have hmore : ∀ s' ∈ strings, s'.identifier ≠ [] := fun s' hs' => hident s' (List.mem_cons_of_mem s hs')
  rw [matchFront, blockRegex, block_eq, List.append_assoc,
    (determined_ruleLine hname h2 hpath hline _).head_append, stringLines_cons, List.append_assoc, plus,
    (determined_stringLine hfirst _).head_append]
  exact head_star (rounds_stringLines hmore htext)

/-- No block starts in a piece of a line behind which there is no string line. -/
theorem matchFront_eq_none_of_noString {l text : Str} (hl : '\n' ∉ l) (htext : NoString text) :
    matchFront blockRegex (l ++ '\n' :: text) = none := by
  rw [matchFront_eq_none]
  intro w rest c heq h
  rcases matches_append.1 h with ⟨w1, w2, c1, rfl, hrule, hstrings⟩
  rcases matches_append.1 hstrings with ⟨w3, w4, c2, rfl, hstring, -⟩
  rcases matches_ruleLine hrule with ⟨name, path, rfl, -, hname, -, hpath, -⟩
  rcases matches_stringLine hstring with ⟨digits, ident, str, rfl, -⟩
  have hn := notMem_of_word hname.word (by decide : isWord '\n' = false)
  have hnl : '\n' ∉ name ++ ' ' :: path := by simp [hn, hpath]
  -- the first line feed ends the rule line
  simp only [List.append_assoc, List.singleton_append] at heq
  have htail := Replace.append_sep_inj hl hnl (by simpa using heq)
  apply htext
  rw [htail.2]
  rfl

/-- A line behind which there is no string line is skipped. -/
theorem findall_skip_line {l text : Str} (hl : '\n' ∉ l) (htext : NoString text) :
    findall blockRegex (l ++ '\n' :: text) = findall blockRegex text := by
  have hsplit : l ++ '\n' :: text = (l ++ ['\n']) ++ text := by simp
  rw [hsplit]
  apply findall_of_no_match
  intro a b hab hb
  -- what is left of the line still ends with its line feed
  rcases List.eq_nil_or_concat b with rfl | ⟨b', x, rfl⟩
  · exact absurd rfl hb
  · have hlast : l = a ++ b' ∧ '\n' = x := by
      rw [List.concat_eq_append, ← List.append_assoc] at hab
      have := List.append_inj' hab rfl
      exact ⟨this.1, List.head_eq_of_cons_eq this.2⟩
    obtain ⟨rfl, rfl⟩ := hlast
    have hb' : '\n' ∉ b' := fun hmem => hl (List.mem_append_right a hmem)
    rw [List.concat_eq_append, List.append_assoc]
    exact matchFront_eq_none_of_noString hb' htext

theorem noString_block {rule path text : Str} {strings : List StringMatch} (hname : IsIdentifier rule) :
    NoString (block rule path strings ++ text) := by
  cases rule with
  | nil => exact absurd hname id
  | cons x rule =>
      intro h
      obtain rfl : x = '0' := by simpa [block] using h
      exact absurd hname.1 (by decide)

theorem noString_renderScan {found : List RuleMatch} {text : Str} (htext : NoString text) :
    NoString (renderScan found ++ text) := by
  cases found with
  | nil => exact htext
  | cons m found =>
      have hcons : renderScan (m :: found) ++ text =
          block m.rule m.path m.strings ++ (renderScan found ++ text) := by
        simp [renderScan, RuleMatch.render]
      rw [hcons]
      exact noString_block m.rule_identifier

/-- The matches of strings have names, and rules have names of two characters. -/
def Named (found : List RuleMatch) : Prop :=
  ∀ m ∈ found, m.strings ≠ [] → 2 ≤ m.rule.length ∧ ∀ s ∈ m.strings, s.identifier ≠ []

/-- The blocks with strings. -/
def stringBlocks (found : List RuleMatch) : List RuleMatch := found.filter fun m => m.strings ≠ []

theorem findall_render {m : RuleMatch} {text : Str} (hnamed : Named [m]) (htext : NoString text) :
    findall blockRegex (m.render ++ text) =
      (stringBlocks [m]).map RuleMatch.render ++ findall blockRegex text := by
  by_cases hne : m.strings = []
  · have hnl : '\n' ∉ m.rule ++ ' ' :: m.path := by
      have hrule := notMem_of_word m.rule_identifier.word (by decide : isWord '\n' = false)
      have hpath := newline_notMem_of_oneLine m.path_oneLine
      simp [hrule, hpath]
    have hline : m.render ++ text = (m.rule ++ ' ' :: m.path) ++ '\n' :: text := by
      simp [RuleMatch.render, block, hne]
    rw [hline, findall_skip_line hnl htext]
    simp [stringBlocks, hne]
  · rcases hnamed m List.mem_cons_self hne with ⟨h2, hident⟩
    have hfront := matchFront_block m.rule_identifier h2 m.path_ne_nil
      (newline_notMem_of_oneLine m.path_oneLine) hne hident htext
    have hblock : block m.rule m.path m.strings ≠ [] := by simp [block]
    rw [RuleMatch.render, findall_of_matchFront hfront hblock]
    simp [stringBlocks, hne, RuleMatch.render]

theorem findall_renderScan {found : List RuleMatch} {text : Str} (hnamed : Named found)
    (htext : NoString text) :
    findall blockRegex (renderScan found ++ text) =
      (stringBlocks found).map RuleMatch.render ++ findall blockRegex text := by
  induction found with
  | nil => rfl
  | cons m found ih =>
      have hcons : renderScan (m :: found) ++ text = m.render ++ (renderScan found ++ text) := by
        simp [renderScan]
      have hm : Named [m] := by
        intro m' hm'
        obtain rfl := List.mem_singleton.1 hm'
        exact hnamed m' List.mem_cons_self
      have hblocks : stringBlocks (m :: found) = stringBlocks [m] ++ stringBlocks found := by
        rw [stringBlocks, stringBlocks, stringBlocks, ← List.filter_append]
        rfl
      rw [hcons, findall_render hm (noString_renderScan htext),
        ih fun m' hm' => hnamed m' (List.mem_cons_of_mem m hm'), hblocks, List.map_append,
        List.append_assoc]

theorem renderScans_cons_cons (found found' : List RuleMatch) (scans : List (List RuleMatch)) :
    renderScans (found :: found' :: scans) =
      renderScan found ++ ([] ++ '\n' :: renderScans (found' :: scans)) := by
  simp [renderScans, List.intercalate_cons_cons]

theorem noString_renderScans (scans : List (List RuleMatch)) : NoString (renderScans scans) := by
  cases scans with
  | nil => exact fun h => by cases h
  | cons found scans =>
      cases scans with
      | nil =>
          have hone : renderScans [found] = renderScan found ++ [] := by simp [renderScans]
          rw [hone]
          exact noString_renderScan fun h => by cases h
      | cons found' scans =>
          rw [renderScans_cons_cons]
          exact noString_renderScan fun h => by simp at h

/-- Of the joined outputs exactly the blocks with strings are found. -/
theorem findall_renderScans {scans : List (List RuleMatch)} (hnamed : Named scans.flatten) :
    findall blockRegex (renderScans scans) = (stringBlocks scans.flatten).map RuleMatch.render := by
  have hnil : NoString [] := fun h => by cases h
  induction scans with
  | nil => rfl
  | cons found scans ih =>
      have hfound : Named found := fun m hm => hnamed m (by simp [hm])
      have hscans : Named scans.flatten := fun m hm =>
        hnamed m (by rw [List.flatten_cons]; exact List.mem_append_right found hm)
      cases scans with
      | nil =>
          have hone := findall_renderScan hfound hnil
          rw [List.append_nil] at hone
          have hempty : findall blockRegex ([] : Str) = [] := rfl
          rw [hempty, List.append_nil] at hone
          simpa [renderScans] using hone
      | cons found' scans =>
          have hnewline : NoString ([] ++ '\n' :: renderScans (found' :: scans)) := by
            intro h
            simp at h
          rw [renderScans_cons_cons, findall_renderScan hfound hnewline,
            findall_skip_line List.not_mem_nil (noString_renderScans _), ih hscans, ← List.map_append]
          simp [stringBlocks]

/-! ## The fields of a block -/

theorem splitMaxChars_line (s : StringMatch) :
    Join.splitMaxChars ':' 2 s.line = ['0' :: 'x' :: s.digits, '$' :: s.identifier, ' ' :: s.text] := by
  have hdigits := notMem_of_word (fun c hc => isWord_of_isHexDigit (s.digits_hex c hc))
    (by decide : isWord ':' = false)
  have hident := notMem_of_word s.identifier_word (by decide : isWord ':' = false)
  have hline : s.line = ('0' :: 'x' :: s.digits) ++ ':' :: (('$' :: s.identifier) ++ ':' :: (' ' :: s.text)) := by
    simp [StringMatch.line]
  rw [hline, Join.splitMaxChars_append 1 (by simpa using hdigits), Join.splitMaxChars_append 0 (by simpa using hident)]
  rfl

theorem pathName_path (m : RuleMatch) : pathName m.path = m.uid := by
  rcases m.uid_name with ⟨hne, hdot, hslash⟩
  have hsplit : m.path.splitOn '/' = m.dir.splitOn '/' ++ [m.uid] := by
    rw [RuleMatch.path, List.splitOn_append_cons_self, List.splitOn_eq_singleton hslash]
  rw [pathName, hsplit, List.filter_append, List.filter_cons_of_pos (by simp [hne, hdot])]
  simp

/-! ## The results -/

variable {results results' : Results} {uid rule : Str}

theorem entriesOf_set {rules : Dict Str (List Entry)} (u r : Str) :
    entriesOf (results.set uid rules) u r = if u = uid then rules.get? r else entriesOf results u r := by
  unfold entriesOf
  rw [Dict.get?_set]
  split
  · rfl
  · rfl

/-- The rules under a uid, with the entries of one rule set. -/
theorem entriesOf_update (entries : List Entry) (u r : Str) :
    entriesOf (results.set uid (((results.get? uid).getD ∅).set rule entries)) u r =
      if u = uid ∧ r = rule then some entries else entriesOf results u r := by
  rw [entriesOf_set, Dict.get?_set]
  by_cases hu : u = uid
  · subst hu
    rw [if_pos rfl]
    by_cases hr : r = rule
    · rw [if_pos hr, if_pos ⟨rfl, hr⟩]
    · rw [if_neg hr, if_neg fun h => hr h.2]
      unfold entriesOf
      cases results.get? u with
      | none => rfl
      | some rules => rfl
  · rw [if_neg hu, if_neg fun h => hu h.1]

theorem getD_rules : ((((results.get? uid).getD ∅).get? rule).getD []) = (entriesOf results uid rule).getD [] := by
  unfold entriesOf
  cases results.get? uid with
  | none => rfl
  | some rules => rfl

theorem entriesOf_setDefault (u r : Str) : entriesOf (setDefault results uid rule) u r =
    if u = uid ∧ r = rule then some ((entriesOf results uid rule).getD []) else entriesOf results u r := by
  rw [setDefault, entriesOf_update, getD_rules]

theorem entriesOf_append (entry : Entry) (u r : Str) : entriesOf (append results uid rule entry) u r =
    if u = uid ∧ r = rule then some ((entriesOf results uid rule).getD [] ++ [entry])
    else entriesOf results u r := by
  rw [append, entriesOf_update, getD_rules]

theorem mem_set_uid {rules : Dict Str (List Entry)} (u : Str) :
    u ∈ results.set uid rules ↔ u = uid ∨ u ∈ results := by
  rw [← Dict.mem_keys, ← Dict.mem_keys]
  exact Dict.mem_keys_setItem

/-- Entries are added as long as the number does not reach the limit; it is compared behind
each entry. -/
def appendUpTo (limit : Nat) : List Entry → List Entry → List Entry
  | old, [] => old
  | old, entry :: rest =>
      if limit ≤ (old ++ [entry]).length then old ++ [entry] else appendUpTo limit (old ++ [entry]) rest

section AddStrings

variable {old : List Entry} (hold : entriesOf results uid rule = some old)

include hold

theorem mem_append_iff (entry : Entry) (u : Str) : u ∈ append results uid rule entry ↔ u ∈ results := by
  have huid : uid ∈ results := by
    unfold entriesOf at hold
    rcases Option.bind_eq_some_iff.1 hold with ⟨rules, hrules, -⟩
    exact Dict.mem_of_get? hrules
  rw [append, mem_set_uid]
  exact or_iff_right_of_imp fun h => h ▸ huid

theorem entriesOf_append_self (entry : Entry) :
    entriesOf (append results uid rule entry) uid rule = some (old ++ [entry]) := by
  rw [entriesOf_append, if_pos ⟨rfl, rfl⟩, hold]
  rfl

/-- One round: the entry is added, and the limit is checked behind it. -/
theorem addStrings_cons (limit : Nat) (s : StringMatch) (lines : List Str) :
    addStrings limit uid rule results (s.line :: lines) =
      if limit ≤ (old ++ [s.entry]).length then .ok (append results uid rule s.entry)
      else addStrings limit uid rule (append results uid rule s.entry) lines := by
  have hcount : count (append results uid rule s.entry) uid rule = (old ++ [s.entry]).length := by
    rw [count, entriesOf_append_self hold]
    rfl
  rw [addStrings, splitMaxChars_line, ← hcount]
  rfl

end AddStrings

/-- What the loop over the string lines does. -/
theorem addStrings_ok (limit : Nat) (strings : List StringMatch) {old : List Entry}
    (hold : entriesOf results uid rule = some old) :
    ∃ results', addStrings limit uid rule results (strings.map StringMatch.line) = .ok results' ∧
      (∀ u r, entriesOf results' u r = if u = uid ∧ r = rule then
        some (appendUpTo limit old (strings.map StringMatch.entry)) else entriesOf results u r) ∧
      ∀ u, u ∈ results' ↔ u ∈ results := by
  induction strings generalizing results old with
  | nil =>
      refine ⟨results, rfl, fun u r => ?_, fun u => Iff.rfl⟩
      split
      next h =>
        rw [h.1, h.2, hold]
        rfl
      next => rfl
  | cons s strings ih =>
      rw [List.map_cons, List.map_cons, addStrings_cons hold, appendUpTo]
      by_cases hlimit : limit ≤ (old ++ [s.entry]).length
      · rw [if_pos hlimit, if_pos hlimit]
        refine ⟨_, rfl, fun u r => ?_, mem_append_iff hold s.entry⟩
        rw [entriesOf_append, hold]
        rfl
      · rw [if_neg hlimit, if_neg hlimit]
        rcases ih (entriesOf_append_self hold s.entry) with ⟨results', hok, hentries, huids⟩
        refine ⟨results', hok, fun u r => ?_, fun u => (huids u).trans (mem_append_iff hold s.entry u)⟩
        rw [hentries]
        split
        next => rfl
        next hkey => rw [entriesOf_append, if_neg hkey]

theorem splitUnicodeLines_block {path : Str} {strings : List StringMatch} (hname : IsIdentifier rule)
    (hpath : ∀ c ∈ path, Lines.isLineBoundary c = false) :
    Lines.splitUnicodeLines (block rule path strings) =
      (rule ++ ' ' :: path) :: strings.map StringMatch.line := by
  have hblock : block rule path strings =
      ((rule ++ ' ' :: path) :: strings.map StringMatch.line).flatMap fun line => line ++ ['\n'] := by
    simp [block]
  rw [hblock]
  apply Lines.splitUnicodeLines_flatMap
  rw [List.forall_mem_cons]
  constructor
  · have hblank : Lines.isLineBoundary ' ' = false := by decide
    rw [List.forall_mem_append, List.forall_mem_cons]
    exact ⟨fun c hc => isLineBoundary_of_isWord (hname.word c hc), hblank, hpath⟩
  · intro line hline
    rcases List.mem_map.1 hline with ⟨s, -, rfl⟩
    exact s.line_oneLine

/-- What the body of the loop over the blocks does. -/
theorem addBlock_ok (limit : Nat) (results : Results) {path : Str} (strings : List StringMatch)
    (hname : IsIdentifier rule) (hpath : ∀ c ∈ path, Lines.isLineBoundary c = false) :
    ∃ results', addBlock limit results (block rule path strings) = .ok results' ∧
      (∀ u r, entriesOf results' u r = if u = pathName path ∧ r = rule then
        some (appendUpTo limit ((entriesOf results (pathName path) rule).getD [])
          (strings.map StringMatch.entry))
        else entriesOf results u r) ∧
      ∀ u, u ∈ results' ↔ u = pathName path ∨ u ∈ results := by
  have hblank := notMem_of_word hname.word (by decide : isWord ' ' = false)
  have hsplit : Join.splitMaxChars ' ' 1 (rule ++ ' ' :: path) = [rule, path] := by
    rw [Join.splitMaxChars_append 0 hblank]
    rfl
  have hstep : addBlock limit results (block rule path strings) =
      addStrings limit (pathName path) rule (setDefault results (pathName path) rule)
        (strings.map StringMatch.line) := by
    rw [addBlock, splitUnicodeLines_block hname hpath]
    simp only [hsplit]
  have hdefault : entriesOf (setDefault results (pathName path) rule) (pathName path) rule =
      some ((entriesOf results (pathName path) rule).getD []) := by
    rw [entriesOf_setDefault, if_pos ⟨rfl, rfl⟩]
  rcases addStrings_ok limit strings hdefault with ⟨results', hok, hentries, huids⟩
  refine ⟨results', by rw [hstep, hok], fun u r => ?_, fun u => ?_⟩
  · rw [hentries]
    split
    next => rfl
    next hkey => rw [entriesOf_setDefault, if_neg hkey]
  · rw [huids, setDefault, mem_set_uid]

/-! ## All blocks -/

/-- The entries of a group after some blocks. -/
def groupEntries (limit : Nat) (u r : Str) (old : Option (List Entry)) (blocks : List RuleMatch) :
    Option (List Entry) :=
  blocks.foldl (fun old m =>
    if u = m.uid ∧ r = m.rule then some (appendUpTo limit (old.getD []) (m.strings.map StringMatch.entry))
    else old) old

theorem foldlM_addBlock (limit : Nat) (blocks : List RuleMatch) (results : Results) :
    ∃ results', (blocks.map RuleMatch.render).foldlM (addBlock limit) results = .ok results' ∧
      (∀ u r, entriesOf results' u r = groupEntries limit u r (entriesOf results u r) blocks) ∧
      ∀ u, u ∈ results' ↔ (∃ m ∈ blocks, m.uid = u) ∨ u ∈ results := by
  induction blocks generalizing results with
  | nil => exact ⟨results, rfl, fun _ _ => rfl, fun u => by simp⟩
  | cons m blocks ih =>
      rcases addBlock_ok limit results m.strings m.rule_identifier m.path_oneLine with
        ⟨mid, hmid, hentries, huids⟩
      rw [pathName_path] at hentries huids
      rcases ih mid with ⟨results', hok, hentries', huids'⟩
      refine ⟨results', ?_, fun u r => ?_, fun u => ?_⟩
      · rw [List.map_cons, List.foldlM_cons, RuleMatch.render, hmid]
        exact hok
      · rw [hentries', hentries, groupEntries, groupEntries, List.foldl_cons]
        congr 1
        split
        next h => rw [h.1, h.2]
        next => rfl
      · rw [huids', huids, List.exists_mem_cons_iff, eq_comm (a := u), or_assoc]
        exact or_left_comm

variable {limit : Nat} {old entries : List Entry} {found blocks : List RuleMatch}

/-- Below the limit the entries are cut at the limit. -/
theorem appendUpTo_of_lt (h : old.length < limit) :
    appendUpTo limit old entries = (old ++ entries).take limit := by
  induction entries generalizing old with
  | nil => rw [appendUpTo, List.append_nil, List.take_of_length_le (by omega)]
  | cons entry entries ih =>
      have hlen : (old ++ [entry]).length = old.length + 1 := by simp
      have hsplit : old ++ entry :: entries = (old ++ [entry]) ++ entries := by simp
      rw [appendUpTo, hsplit]
      split
      next hle =>
        have hlimit : limit = (old ++ [entry]).length := by omega
        rw [hlimit, List.take_left]
      next hnot => exact ih (by omega)

/-- The first entry is added in any case. -/
theorem length_appendUpTo (hne : entries ≠ []) : old.length + 1 ≤ (appendUpTo limit old entries).length := by
  induction entries generalizing old with
  | nil => exact absurd rfl hne
  | cons entry entries ih =>
      have hlen : (old ++ [entry]).length = old.length + 1 := by simp
      rw [appendUpTo]
      split
      next => omega
      next =>
        cases entries with
        | nil => rw [appendUpTo, hlen]
        | cons entry' entries =>
            have hrest : (old ++ [entry]).length + 1 ≤
                (appendUpTo limit (old ++ [entry]) (entry' :: entries)).length :=
              ih (List.cons_ne_nil entry' entries)
            omega

/-- Only the matches of the group count. -/
theorem groupEntries_eq (limit : Nat) (u r : Str) (o : Option (List Entry)) (blocks : List RuleMatch) :
    groupEntries limit u r o blocks = (matchesOf blocks u r).foldl
      (fun old m => some (appendUpTo limit (old.getD []) (m.strings.map StringMatch.entry))) o := by
  induction blocks generalizing o with
  | nil => rfl
  | cons m blocks ih =>
      rw [groupEntries, List.foldl_cons, matchesOf, List.filter_cons]
      by_cases hkey : m.uid = u ∧ m.rule = r
      · rw [if_pos ⟨hkey.1.symm, hkey.2.symm⟩, if_pos (decide_eq_true hkey), List.foldl_cons]
        exact ih _
      · rw [if_neg fun h => hkey ⟨h.1.symm, h.2.symm⟩, if_neg (by simpa using hkey)]
        exact ih _

theorem mem_matchesOf {m : RuleMatch} {u r : Str} :
    m ∈ matchesOf found u r ↔ m ∈ found ∧ m.uid = u ∧ m.rule = r := by
  rw [matchesOf, List.mem_filter, decide_eq_true_eq]

theorem mem_stringBlocks {m : RuleMatch} : m ∈ stringBlocks found ↔ m ∈ found ∧ m.strings ≠ [] := by
  rw [stringBlocks, List.mem_filter, decide_eq_true_eq]

/-- Matches without strings have no entries. -/
theorem flatMap_matchesOf (u r : Str) :
    (matchesOf (stringBlocks found) u r).flatMap (fun m => m.strings.map StringMatch.entry) =
      (matchesOf found u r).flatMap fun m => m.strings.map StringMatch.entry := by
  induction found with
  | nil => rfl
  | cons m found ih =>
      unfold stringBlocks matchesOf at ih ⊢
      by_cases hne : m.strings = []
      · rw [List.filter_cons_of_neg (by simpa using hne), ih, List.filter_cons]
        split
        next => simp [hne]
        next => rfl
      · rw [List.filter_cons_of_pos (by simpa using hne), List.filter_cons, List.filter_cons]
        split
        next => rw [List.flatMap_cons, List.flatMap_cons, ih]
        next => exact ih

/-- At least one entry is added for each block of the group. -/
theorem length_foldl_appendUpTo (limit : Nat) (hne : ∀ m ∈ blocks, m.strings ≠ []) (o : Option (List Entry)) :
    (o.getD []).length + blocks.length ≤ ((blocks.foldl (fun old m =>
      some (appendUpTo limit (old.getD []) (m.strings.map StringMatch.entry))) o).getD []).length := by
  induction blocks generalizing o with
  | nil => simp
  | cons m blocks ih =>
      have hm : m.strings.map StringMatch.entry ≠ [] := by
        simpa using hne m List.mem_cons_self
      have hrest := ih (fun m' hm' => hne m' (List.mem_cons_of_mem m hm'))
        (some (appendUpTo limit (o.getD []) (m.strings.map StringMatch.entry)))
      have hfirst : (o.getD []).length + 1 ≤
          (appendUpTo limit (o.getD []) (m.strings.map StringMatch.entry)).length := length_appendUpTo hm
      rw [List.foldl_cons, List.length_cons]
      simp only [Option.getD_some] at hrest
      omega

/-- The parser on matches whose blocks are all found. -/
theorem parseRawResult_of_named {scans : List (List RuleMatch)} (hnamed : Named scans.flatten) (limit : Nat) :
    ∃ results, parseRawResult limit (renderScans scans) = .ok results ∧
      (∀ u r, entriesOf results u r =
        (matchesOf (stringBlocks scans.flatten) u r).foldl
          (fun old m => some (appendUpTo limit (old.getD []) (m.strings.map StringMatch.entry))) none) ∧
      ∀ u, u ∈ results ↔ ∃ m ∈ stringBlocks scans.flatten, m.uid = u := by
  rcases foldlM_addBlock limit (stringBlocks scans.flatten) ∅ with ⟨results, hok, hentries, huids⟩
  refine ⟨results, ?_, fun u r => ?_, fun u => ?_⟩
  · rw [parseRawResult, findall_renderScans hnamed, hok]
  · rw [hentries, groupEntries_eq]
    rfl
  · rw [huids]
    apply or_iff_left
    exact fun h => absurd h (Dict.notMem_empty u)

/-- Of the blocks with strings at most one is of a rule and file. -/
theorem matchesOf_of_once (honce : (stringBlocks found).Pairwise fun m m' => ¬ SameKey m m') (u r : Str) :
    matchesOf (stringBlocks found) u r = [] ∨ ∃ m, matchesOf (stringBlocks found) u r = [m] := by
  have hpair := honce.sublist (List.filter_sublist (p := fun m => m.uid = u ∧ m.rule = r))
  change (matchesOf (stringBlocks found) u r).Pairwise _ at hpair
  have hkey : ∀ m ∈ matchesOf (stringBlocks found) u r, m.uid = u ∧ m.rule = r :=
    fun m hm => (mem_matchesOf.1 hm).2
  match hgroup : matchesOf (stringBlocks found) u r with
  | [] => exact .inl rfl
  | [m] => exact .inr ⟨m, rfl⟩
  | m :: m' :: more =>
      rw [hgroup] at hpair hkey
      have hm := hkey m List.mem_cons_self
      have hm' := hkey m' (List.mem_cons_of_mem m List.mem_cons_self)
      refine absurd ?_ (List.rel_of_pairwise_cons hpair List.mem_cons_self)
      exact ⟨hm.1.trans hm'.1.symm, hm.2.trans hm'.2.symm⟩

/-- A group without strings has no matches at all. -/
theorem matchesOf_eq_nil_iff
    (hcovered : ∀ m ∈ found, m.strings = [] → ∃ m' ∈ found, m'.strings ≠ [] ∧ SameKey m m') (u r : Str) :
    matchesOf (stringBlocks found) u r = [] ↔ matchesOf found u r = [] := by
  rw [List.eq_nil_iff_forall_not_mem, List.eq_nil_iff_forall_not_mem]
  constructor
  · intro h m hm
    rcases mem_matchesOf.1 hm with ⟨hfound, huid, hrule⟩
    by_cases hne : m.strings = []
    · rcases hcovered m hfound hne with ⟨m', hfound', hne', huid', hrule'⟩
      apply h m'
      exact mem_matchesOf.2 ⟨mem_stringBlocks.2 ⟨hfound', hne'⟩, huid' ▸ huid, hrule' ▸ hrule⟩
    · exact h m (mem_matchesOf.2 ⟨mem_stringBlocks.2 ⟨hfound, hne⟩, huid, hrule⟩)
  · intro h m hm
    rcases mem_matchesOf.1 hm with ⟨hblock, hkey⟩
    exact h m (mem_matchesOf.2 ⟨(mem_stringBlocks.1 hblock).1, hkey⟩)

theorem parsesBack_of_readable {scans : List (List RuleMatch)} (h : Readable scans.flatten) :
    ParsesBack scans := by
  intro limit hlimit
  rcases parseRawResult_of_named h.named limit with ⟨results, hok, hentries, huids⟩
  refine ⟨results, hok, fun u => ?_, fun u r => ?_⟩
  · rw [huids]
    constructor
    · rintro ⟨m, hm, huid⟩
      exact ⟨m, (mem_stringBlocks.1 hm).1, huid⟩
    · rintro ⟨m, hm, huid⟩
      by_cases hne : m.strings = []
      · rcases h.covered m hm hne with ⟨m', hm', hne', huid', -⟩
        exact ⟨m', mem_stringBlocks.2 ⟨hm', hne'⟩, huid'.symm.trans huid⟩
      · exact ⟨m, mem_stringBlocks.2 ⟨hm, hne⟩, huid⟩
  · rw [hentries, ← flatMap_matchesOf]
    rcases matchesOf_of_once h.once u r with hgroup | ⟨m, hgroup⟩
    · rw [if_pos ((matchesOf_eq_nil_iff h.covered u r).1 hgroup), hgroup]
      rfl
    · have hne : matchesOf scans.flatten u r ≠ [] := by
        rw [Ne, ← matchesOf_eq_nil_iff h.covered u r, hgroup]
        exact List.cons_ne_nil m []
      rw [if_neg hne, hgroup]
      -- the only block starts from no entries, below the limit
      have hcut : appendUpTo limit [] (m.strings.map StringMatch.entry) =
          ([] ++ m.strings.map StringMatch.entry).take limit := appendUpTo_of_lt (by rw [List.length_nil]; omega)
      simpa using hcut

/-! ## What the blocks name -/

/-- The rules have two characters, and so have the names of the strings with their dollar
sign. -/
def NamedEntries (results : Results) : Prop :=
  ∀ u r entries, entriesOf results u r = some entries →
    2 ≤ r.length ∧ ∀ entry ∈ entries, 2 ≤ entry.condition.length

theorem mem_appendUpTo {entry : Entry} (h : entry ∈ appendUpTo limit old entries) :
    entry ∈ old ∨ entry ∈ entries := by
  induction entries generalizing old with
  | nil => exact .inl h
  | cons entry' entries ih =>
      have hstep : entry ∈ old ++ [entry'] ∨ entry ∈ entries := by
        rw [appendUpTo] at h
        split at h
        next => exact .inl h
        next => exact ih h
      rcases hstep with hmem | hmem
      · rcases List.mem_append.1 hmem with hold | hone
        · exact .inl hold
        · exact .inr (List.mem_cons.2 (.inl (List.mem_singleton.1 hone)))
      · exact .inr (List.mem_cons_of_mem entry' hmem)

/-- A matched string line is the line of a named string. -/
theorem exists_stringMatch (hw : ∀ c ∈ w, Lines.isLineBoundary c = true → c = '\n')
    (h : Matches stringLineRegex caps w rest caps') :
    ∃ s : StringMatch, w = s.line ++ ['\n'] ∧ s.identifier ≠ [] := by
  rcases matches_stringLine h with ⟨digits, ident, text, rfl, hdne, hhex, hine, hword, htne, hnl, -⟩
  have htext : ∀ c ∈ text, Lines.isLineBoundary c = false := by
    intro c hc
    apply Bool.eq_false_iff.2
    intro hline
    have := hw c (by simp [hc]) hline
    exact hnl (this ▸ hc)
  exact ⟨⟨digits, ident, text, hdne, hhex, hword, htne, htext⟩, rfl, hine⟩

/-- So are the repeated string lines. -/
theorem exists_stringLines (hw : ∀ c ∈ w, Lines.isLineBoundary c = true → c = '\n')
    (h : Matches (star true stringLineRegex) caps w rest caps') :
    ∃ strings, w = stringLines strings ∧ ∀ s ∈ strings, s.identifier ≠ [] := by
  generalize hr : star true stringLineRegex = r at h
  induction h with
  | starNil => exact ⟨[], rfl, fun s hs => absurd hs List.not_mem_nil⟩
  | starCons hne h1 h2 ih1 ih2 =>
      cases hr
      rw [List.forall_mem_append] at hw
      rcases exists_stringMatch hw.1 h1 with ⟨s, rfl, hident⟩
      rcases ih2 hw.2 rfl with ⟨strings, rfl, hidents⟩
      exact ⟨s :: strings, rfl, List.forall_mem_cons.2 ⟨hident, hidents⟩⟩
  | _ => cases hr

/-- A block that is found has a rule of two characters and named strings. -/
theorem exists_block (hw : ∀ c ∈ w, Lines.isLineBoundary c = true → c = '\n')
    (h : Matches blockRegex caps w rest caps') :
    ∃ name path strings, w = block name path strings ∧ IsIdentifier name ∧ 2 ≤ name.length ∧
      (∀ c ∈ path, Lines.isLineBoundary c = false) ∧ ∀ s ∈ strings, s.identifier ≠ [] := by
  rcases matches_append.1 h with ⟨w1, w2, c1, rfl, hrule, hstrings⟩
  rcases matches_append.1 hstrings with ⟨w3, w4, c2, rfl, hstring, hmore⟩
  rw [List.forall_mem_append, List.forall_mem_append] at hw
  rcases matches_ruleLine hrule with ⟨name, path, rfl, h2, hname, -, hnl, -⟩
  rcases exists_stringMatch hw.2.1 hstring with ⟨s, rfl, hident⟩
  rcases exists_stringLines hw.2.2 hmore with ⟨strings, rfl, hidents⟩
  refine ⟨name, path, s :: strings, ?_, hname, h2, ?_, List.forall_mem_cons.2 ⟨hident, hidents⟩⟩
  · rw [block_eq, stringLines_cons]
  · intro c hc
    apply Bool.eq_false_iff.2
    intro hline
    have := hw.1 c (by simp [hc]) hline
    exact hnl (this ▸ hc)

/-- A found block keeps the invariant. -/
theorem namedEntries_addBlock (hw : ∀ c ∈ w, Lines.isLineBoundary c = true → c = '\n')
    (h : Matches blockRegex caps w rest caps') (hnamed : NamedEntries results)
    (hok : addBlock limit results w = .ok results') : NamedEntries results' := by
  rcases exists_block hw h with ⟨name, path, strings, rfl, hname, h2, hpath, hidents⟩
  rcases addBlock_ok limit results strings hname hpath with ⟨mid, hmid, hentries, -⟩
  obtain rfl : mid = results' := Except.ok.inj (hmid.symm.trans hok)
  intro u r entries hgroup
  rw [hentries] at hgroup
  split at hgroup
  next hkey =>
    obtain rfl := Option.some.inj hgroup
    refine ⟨hkey.2 ▸ h2, fun entry hentry => ?_⟩
    rcases mem_appendUpTo hentry with hold | hnew
    · cases hgroup' : entriesOf results (pathName path) name with
      | none =>
          rw [hgroup'] at hold
          exact absurd hold List.not_mem_nil
      | some entries =>
          rw [hgroup'] at hold
          exact (hnamed _ _ _ hgroup').2 entry hold
    · rcases List.mem_map.1 hnew with ⟨s, hs, rfl⟩
      have hpos := List.length_pos_iff.2 (hidents s hs)
      change 2 ≤ s.identifier.length + 1
      omega
  next => exact hnamed u r entries hgroup

/-- All blocks keep it. -/
theorem namedEntries_foldlM {blocks : List Str}
    (hblocks : ∀ w ∈ blocks, (∀ c ∈ w, Lines.isLineBoundary c = true → c = '\n') ∧
      ∃ rest caps', Matches blockRegex [] w rest caps')
    (hnamed : NamedEntries results) (hok : blocks.foldlM (addBlock limit) results = .ok results') :
    NamedEntries results' := by
  induction blocks generalizing results with
  | nil =>
      obtain rfl : results = results' := Except.ok.inj hok
      exact hnamed
  | cons w blocks ih =>
      rw [List.foldlM_cons] at hok
      rcases hblocks w List.mem_cons_self with ⟨hw, rest, caps', hmatch⟩
      cases hmid : addBlock limit results w with
      | error e =>
          rw [hmid] at hok
          cases hok
      | ok mid =>
          rw [hmid] at hok
          apply ih (fun w' hw' => hblocks w' (List.mem_cons_of_mem w hw'))
          · exact namedEntries_addBlock hw hmatch hnamed hmid
          · exact hok

/-- The only line boundaries of a block are line feeds. -/
theorem newline_of_mem_render {m : RuleMatch} (hc : c ∈ m.render) (hline : Lines.isLineBoundary c = true) :
    c = '\n' := by
  have hrule : ∀ c ∈ m.rule, Lines.isLineBoundary c = false :=
    fun c hc => isLineBoundary_of_isWord (m.rule_identifier.word c hc)
  have hall : ∀ c ∈ m.render, Lines.isLineBoundary c = false ∨ c = '\n' := by
    intro c hc
    rw [RuleMatch.render, block_eq, stringLines] at hc
    simp only [List.mem_append, List.mem_cons, List.mem_flatMap, List.mem_map, List.not_mem_nil,
      or_false] at hc
    rcases hc with ((hc | rfl | hc) | rfl) | ⟨line, ⟨s, -, rfl⟩, hc | rfl⟩
    · exact .inl (hrule c hc)
    · exact .inl (by decide)
    · exact .inl (m.path_oneLine c hc)
    · exact .inr rfl
    · exact .inl (s.line_oneLine c hc)
    · exact .inr rfl
  apply (hall c hc).resolve_left
  rw [hline]
  exact Bool.noConfusion

theorem newline_of_mem_renderScans {scans : List (List RuleMatch)} (hc : c ∈ renderScans scans)
    (hline : Lines.isLineBoundary c = true) : c = '\n' := by
  have hscan : ∀ found : List RuleMatch, c ∈ renderScan found → c = '\n' := by
    intro found hmem
    rcases List.mem_flatMap.1 hmem with ⟨m, -, hmem⟩
    exact newline_of_mem_render hmem hline
  induction scans with
  | nil => exact absurd hc List.not_mem_nil
  | cons found scans ih =>
      cases scans with
      | nil =>
          rw [renderScans, List.map_singleton, List.intercalate_singleton] at hc
          exact hscan found hc
      | cons found' scans =>
          rw [renderScans_cons_cons] at hc
          rcases List.mem_append.1 hc with hc | hc
          · exact hscan found hc
          · rcases List.mem_cons.1 hc with rfl | hc
            · rfl
            · exact ih hc

/-- Whatever is parsed from the output of YARA has names. -/
theorem namedEntries_parseRawResult {scans : List (List RuleMatch)}
    (hok : parseRawResult limit (renderScans scans) = .ok results) : NamedEntries results := by
  refine namedEntries_foldlM (fun w hw => ⟨fun c hc => ?_, matches_of_mem_findall hw⟩) ?_ hok
  · exact newline_of_mem_renderScans ((isInfix_of_mem_findall hw).subset hc)
  · intro u r entries h
    cases h

/-! ## The matches that come back -/

theorem named_of_parsesBack {scans : List (List RuleMatch)} (h : ParsesBack scans) : Named scans.flatten := by
  intro m hm hne
  -- a limit that cuts nothing off
  rcases h ((((matchesOf scans.flatten m.uid m.rule).flatMap fun m => m.strings.map StringMatch.entry).length) + 1)
    (by omega) with ⟨results, hok, hgrouped⟩
  have hmem : m ∈ matchesOf scans.flatten m.uid m.rule := mem_matchesOf.2 ⟨hm, rfl, rfl⟩
  have hentries := hgrouped.entries m.uid m.rule
  rw [if_neg (List.ne_nil_of_mem hmem), List.take_of_length_le (by omega)] at hentries
  rcases namedEntries_parseRawResult hok _ _ _ hentries with ⟨hrule, hall⟩
  refine ⟨hrule, fun s hs hident => ?_⟩
  have hentry : s.entry ∈ (matchesOf scans.flatten m.uid m.rule).flatMap fun m => m.strings.map StringMatch.entry :=
    List.mem_flatMap.2 ⟨m, hmem, List.mem_map_of_mem hs⟩
  have hcondition : 2 ≤ s.identifier.length + 1 := hall _ hentry
  rw [hident, List.length_nil] at hcondition
  omega

theorem readable_of_parsesBack {scans : List (List RuleMatch)} (h : ParsesBack scans) :
    Readable scans.flatten := by
  have hnamed := named_of_parsesBack h
  -- with the limit one, a second block of a group shows
  rcases h 1 (by omega) with ⟨results, hok, hgrouped⟩
  rcases parseRawResult_of_named hnamed 1 with ⟨results', hok', hentries, -⟩
  obtain rfl : results = results' := Except.ok.inj (hok.symm.trans hok')
  refine ⟨hnamed, ?_, fun m hm hnil => ?_⟩
  · apply List.pairwise_iff_forall_sublist.2
    rintro m m' hsub ⟨huid, hrule⟩
    have hgroup : [m, m'].Sublist (matchesOf (stringBlocks scans.flatten) m.uid m.rule) := by
      have hfilter := List.Sublist.filter (fun m'' => m''.uid = m.uid ∧ m''.rule = m.rule) hsub
      rwa [List.filter_eq_self.2 (by simp [huid, hrule])] at hfilter
    have hne : ∀ m'' ∈ matchesOf (stringBlocks scans.flatten) m.uid m.rule, m''.strings ≠ [] :=
      fun m'' hm'' => (mem_stringBlocks.1 (mem_matchesOf.1 hm'').1).2
    have hlength := length_foldl_appendUpTo 1 hne none
    rw [← hentries, hgrouped.entries] at hlength
    have htwo := hgroup.length_le
    simp only [List.length_cons, List.length_nil, Option.getD_none] at htwo hlength
    split at hlength
    next => rw [Option.getD_none, List.length_nil] at hlength; omega
    next => rw [Option.getD_some, List.length_take] at hlength; omega
  · have hmem : m ∈ matchesOf scans.flatten m.uid m.rule := mem_matchesOf.2 ⟨hm, rfl, rfl⟩
    have hgroup := hgrouped.entries m.uid m.rule
    rw [if_neg (List.ne_nil_of_mem hmem), hentries] at hgroup
    cases hblocks : matchesOf (stringBlocks scans.flatten) m.uid m.rule with
    | nil =>
        rw [hblocks] at hgroup
        cases hgroup
    | cons m' more =>
        have hm' : m' ∈ matchesOf (stringBlocks scans.flatten) m.uid m.rule := by
          rw [hblocks]
          exact List.mem_cons_self
        rcases mem_matchesOf.1 hm' with ⟨hblock, huid, hrule⟩
        rcases mem_stringBlocks.1 hblock with ⟨hfound, hne⟩
        exact ⟨m', hfound, hne, huid.symm, hrule.symm⟩

/-- The parser gives exactly the readable matches back. -/
theorem parsesBack_iff (scans : List (List RuleMatch)) : ParsesBack scans ↔ Readable scans.flatten :=
  ⟨readable_of_parsesBack, parsesBack_of_readable⟩

/-- An anonymous string, `$`. -/
def sampleString : StringMatch where
  digits := ['1', 'a']
  identifier := []
  text := ['E', 'L', 'F']
  digits_ne_nil := List.cons_ne_nil _ _
  digits_hex := List.all_iff_forall_prop.1 (by decide)
  identifier_word := List.all_iff_forall_prop.1 (by decide)
  text_ne_nil := List.cons_ne_nil _ _
  text_one_line := List.all_iff_forall_prop.1 (by decide)

/-- Its rule. -/
def sampleMatch : RuleMatch where
  rule := "elf".toList
  dir := "/media/data".toList
  uid := "abc_3".toList
  strings := [sampleString]
  rule_identifier := ⟨by decide, List.all_iff_forall_prop.1 (by decide)⟩
  dir_one_line := List.all_iff_forall_prop.1 (by decide)
  uid_one_line := List.all_iff_forall_prop.1 (by decide)
  uid_name := by decide

/-- A match of an anonymous string is dropped, and with it the rule and the file. -/
theorem parseRawResult_sample :
    parseRawResult 10 (renderScans [[sampleMatch]]) = .ok ∅ ∧ ¬ ParsesBack [[sampleMatch]] := by
  have hnone : findall blockRegex (renderScans [[sampleMatch]]) = [] := by decide +kernel
  have hempty : parseRawResult 10 (renderScans [[sampleMatch]]) = .ok ∅ := by
    rw [parseRawResult, hnone]
    rfl
  refine ⟨hempty, fun h => ?_⟩
  rcases h 10 (by omega) with ⟨results, hok, hgrouped⟩
  obtain rfl : ∅ = results := Except.ok.inj (hempty.symm.trans hok)
  have huid := (hgrouped.uids sampleMatch.uid).2 ⟨sampleMatch, List.mem_singleton_self _, rfl⟩
  exact Dict.notMem_empty _ huid

end FactCore.YaraBinarySearch
