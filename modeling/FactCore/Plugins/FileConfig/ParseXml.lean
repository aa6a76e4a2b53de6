import Mathlib.Data.Bool.AllAny
import FactCore.Lib.Dict
import FactCore.Lib.Join
import FactCore.Lib.Lines
import FactCore.Lib.Regex
import FactCore.Lib.Replace

/-! # XML config files

`_parse_helper_xml` and `_parse_helper_xml_rugged` of the compare plugin `file_config`.
The first walks the tree of elements that the library returns, the second goes over the
lines with the stack of the open tags; it is used where the library fails.

A leaf without a text gets an empty value from the second one and none from the first.
-/

namespace FactCore

namespace FileConfig

open Lines (isSpace isLineBreak strip decodeAscii splitLines)
open Regex

/-! ## The parsers -/

/-- An element of `xml.etree.ElementTree`, as far as it is read. -/
inductive XmlElement where
  | mk (tag : String) (text : Option String) (children : List XmlElement)

/-- `config_dict[key] = element.text.strip()`, if there is a text. -/
def setText (configDict : Dict String String) (key : String) (text : Option String) : Dict String String :=
  match text with
  | none => configDict
  | some text =>
      if strip text.toList = [] then configDict else configDict.set key (String.ofList (strip text.toList))

mutual

/-- `parse_element` -/
def parseElement (parentKeys : List String) (configDict : Dict String String) :
    XmlElement → Dict String String
  | .mk tag text children =>
      parseElements (parentKeys ++ [tag]) (setText configDict (Join.join ' ' (parentKeys ++ [tag])) text)
        children

/-- The loop over the children. -/
def parseElements (parentKeys : List String) (configDict : Dict String String) :
    List XmlElement → Dict String String
  | [] => configDict
  | child :: rest => parseElements parentKeys (parseElement parentKeys configDict child) rest

end

/-- `\w` in ASCII text. -/
def isWord (c : Char) : Bool :=
  (('a' ≤ c && c ≤ 'z') || ('A' ≤ c && c ≤ 'Z')) || ('0' ≤ c && c ≤ '9') || c == '_'

/-- `.` -/
def isAnyChar (c : Char) : Bool := c != '\n'

/-- `$` -/
def endOfLine : Regex Char := ahead fun rest => rest = [] ∨ rest = ['\n']

/-- `^<(\w+)>$` -/
def openingTagRegex : Regex Char := lit ['<'] ++ group 1 (plus (cls isWord)) ++ lit ['>'] ++ endOfLine

/-- `^</(\w+)>$` -/
def closingTagRegex : Regex Char := lit ['<', '/'] ++ group 1 (plus (cls isWord)) ++ lit ['>'] ++ endOfLine

/-- `^<(\w+)>(.*?)</\1>$` -/
def inlineTagRegex : Regex Char :=
  lit ['<'] ++ group 1 (plus (cls isWord)) ++ lit ['>'] ++ group 2 (star false (cls isAnyChar)) ++
    lit ['<', '/'] ++ backref 1 ++ lit ['>'] ++ endOfLine

/-- `match.group(n)` -/
def groupText (caps : Captures Char) (n : ℕ) : List Char := (caps.lookup n).getD []

/-- The variables of the loop of `_parse_helper_xml_rugged`. -/
structure XmlState where
  configDict : Dict String String
  parentKeys : List String

/-- The body of the loop of `_parse_helper_xml_rugged`. -/
def parseXmlLine (st : XmlState) (line : List Char) : XmlState :=
  let line := strip line
  if line = [] then st
  else
    match matchFront openingTagRegex line, matchFront closingTagRegex line with
    | some (caps, _), _ => { st with parentKeys := st.parentKeys ++ [String.ofList (groupText caps 1)] }
    | none, some (caps, _) =>
        if st.parentKeys.getLast? = some (String.ofList (groupText caps 1)) then
          { st with parentKeys := st.parentKeys.dropLast }
        else st
    | none, none =>
        match matchFront inlineTagRegex line with
        | none => st
        | some (caps, _) =>
            let key := Join.join ' ' (st.parentKeys ++ [String.ofList (groupText caps 1)])
            { st with configDict := st.configDict.set key (String.ofList (strip (groupText caps 2))) }

/-- `_parse_helper_xml_rugged` -/
def parseHelperXmlRugged (binaryData : List UInt8) : Dict String String :=
  ((splitLines (decodeAscii binaryData)).foldl parseXmlLine ⟨∅, []⟩).configDict

/-- `_parse_helper_xml`; `fromstring` is that of `xml.etree.ElementTree`, unless it raises. -/
def parseHelperXml (fromstring : List Char → Option XmlElement) (binaryData : List UInt8) :
    Dict String String :=
  match fromstring (decodeAscii binaryData) with
  | some root => parseElement [] ∅ root
  | none => parseHelperXmlRugged binaryData

/-! ## Written documents -/

/-- A tree of elements without attributes; a leaf has a text, which may be empty. -/
inductive XmlTree where
  | leaf (tag : String) (text : List Char)
  | node (tag : String) (children : List XmlTree)

def openingTag (tag : String) : List Char := '<' :: tag.toList ++ ['>']

def closingTag (tag : String) : List Char := '<' :: '/' :: tag.toList ++ ['>']

/-- A tag of word characters. -/
def IsTag (tag : String) : Prop := tag.toList ≠ [] ∧ ∀ c ∈ tag.toList, isWord c = true

/-- A text in one line without markup characters. -/
def IsText (text : List Char) : Prop :=
  ∀ c ∈ text, isLineBreak c = false ∧ c ≠ '<' ∧ c ≠ '>' ∧ c ≠ '&'

def IsIndent (blanks : List Char) : Prop := ∀ c ∈ blanks, isSpace c = true ∧ isLineBreak c = false

/-- The trees are written with one opening tag, closing tag or leaf in a line. -/
inductive WrittenXml : List XmlTree → List (List Char) → Prop
  | nil : WrittenXml [] []
  | leaf {indent : List Char} {tag : String} {text : List Char} {trees : List XmlTree}
      {lines : List (List Char)} : IsIndent indent → IsTag tag → IsText text → WrittenXml trees lines →
      WrittenXml (.leaf tag text :: trees) ((indent ++ (openingTag tag ++ text ++ closingTag tag)) :: lines)
  | node {indent indent' : List Char} {tag : String} {children trees : List XmlTree}
      {inner lines : List (List Char)} : IsIndent indent → IsIndent indent' → IsTag tag →
      WrittenXml children inner → WrittenXml trees lines →
      WrittenXml (.node tag children :: trees)
        ((indent ++ openingTag tag) :: (inner ++ (indent' ++ closingTag tag) :: lines))

/-- The elements that the library returns: the text of an element with children is what
stands before the first of them, a leaf that is empty has no text. -/
inductive ParsedXml : List XmlTree → List XmlElement → Prop
  | nil : ParsedXml [] []
  | leaf {tag : String} {text : List Char} {trees : List XmlTree} {elements : List XmlElement} :
      ParsedXml trees elements →
      ParsedXml (.leaf tag text :: trees)
        (.mk tag (if text = [] then none else some (String.ofList text)) [] :: elements)
  | node {tag : String} {blanks : Option String} {children trees : List XmlTree}
      {inner elements : List XmlElement} : (∀ text ∈ blanks, strip text.toList = []) →
      ParsedXml children inner → ParsedXml trees elements →
      ParsedXml (.node tag children :: trees) (.mk tag blanks inner :: elements)

/-- A tree, the content of a file in which it is written, and what the library makes of it. -/
structure XmlDocument where
  tree : XmlTree
  binaryData : List UInt8
  root : XmlElement
  written : WrittenXml [tree] (splitLines (decodeAscii binaryData))
  parsed : ParsedXml [tree] [root]

/-- Both parsers return the same dictionary. -/
def XmlDocument.Agrees (doc : XmlDocument) : Prop :=
  ∀ fromstring, fromstring (decodeAscii doc.binaryData) = some doc.root → ∀ key,
    (parseHelperXmlRugged doc.binaryData).get? key = (parseHelperXml fromstring doc.binaryData).get? key

mutual

/-- The leaves of a tree in document order: the keys of the tags that enclose them, and
their texts. -/
def leavesOf (parentKeys : List String) : XmlTree → List (String × List Char)
  | .leaf tag text => [(Join.join ' ' (parentKeys ++ [tag]), text)]
  | .node tag children => leaves (parentKeys ++ [tag]) children

/-- The leaves of some trees. -/
def leaves (parentKeys : List String) : List XmlTree → List (String × List Char)
  | [] => []
  | tree :: trees => leavesOf parentKeys tree ++ leaves parentKeys trees

end

/-- The text of the last leaf with a key. -/
def lastText (entries : List (String × List Char)) (key : String) : Option (List Char) :=
  ((entries.filter fun entry => entry.1 = key).getLast?).map Prod.snd

/-- Of the leaves with the same key the last one has a text. -/
def XmlDocument.EndsWithText (doc : XmlDocument) : Prop :=
  ∀ key, ∀ text ∈ lastText (leaves [] [doc.tree]) key, strip text ≠ []

/-! ## What the expressions match -/

variable {caps caps' : Captures Char} {w rest tag text front : List Char}

theorem notMem_of_word {sep : Char} (h : ∀ c ∈ tag, isWord c = true) (hsep : isWord sep = false) :
    sep ∉ tag := by
  intro hmem
  rw [h sep hmem] at hsep
  cases hsep

theorem matches_endOfLine :
    Matches endOfLine caps w rest caps' ↔ w = [] ∧ (rest = [] ∨ rest = ['\n']) ∧ caps' = caps := by
  rw [endOfLine, matches_ahead, decide_eq_true_eq]

/-- The tag of a line is its first group. -/
theorem matches_group_tag : Matches (group 1 (plus (cls isWord))) caps w rest caps' ↔
    w ≠ [] ∧ (∀ c ∈ w, isWord c = true) ∧ caps' = (1, w) :: caps := by
  rw [matches_group]
  constructor
  · rintro ⟨caps'', h, rfl⟩
    rcases matches_plus_cls.1 h with ⟨hne, hword, rfl⟩
    exact ⟨hne, hword, rfl⟩
  · rintro ⟨hne, hword, rfl⟩
    exact ⟨caps, matches_plus_cls.2 ⟨hne, hword, rfl⟩, rfl⟩

/-- A line with a tag behind a fixed text. -/
theorem matches_tagLine :
    Matches (lit front ++ group 1 (plus (cls isWord)) ++ lit ['>'] ++ endOfLine) caps w rest caps' ↔
      ∃ tag, w = front ++ tag ++ ['>'] ∧ tag ≠ [] ∧ (∀ c ∈ tag, isWord c = true) ∧
        (rest = [] ∨ rest = ['\n']) ∧ caps' = (1, tag) :: caps := by
  constructor
  · intro h
    rcases matches_append.1 h with ⟨_, w4, _, rfl, h3, h4⟩
    rcases matches_append.1 h3 with ⟨_, w3, _, rfl, h2, hclose⟩
    rcases matches_append.1 h2 with ⟨w1, w2, _, rfl, hfront, htag⟩
    rcases matches_lit.1 hfront with ⟨rfl, rfl⟩
    rcases matches_group_tag.1 htag with ⟨hne, hword, rfl⟩
    rcases matches_lit.1 hclose with ⟨rfl, rfl⟩
    rcases matches_endOfLine.1 h4 with ⟨rfl, hrest, rfl⟩
    exact ⟨w2, by simp, hne, hword, hrest, rfl⟩
  · rintro ⟨tag, rfl, hne, hword, hrest, rfl⟩
    have hfront : Matches (lit front) caps front (tag ++ (['>'] ++ ([] ++ rest))) caps :=
      matches_lit.2 ⟨rfl, rfl⟩
    have htag : Matches (group 1 (plus (cls isWord))) caps tag (['>'] ++ ([] ++ rest)) ((1, tag) :: caps) :=
      matches_group_tag.2 ⟨hne, hword, rfl⟩
    have hclose : Matches (lit ['>']) ((1, tag) :: caps) ['>'] ([] ++ rest) ((1, tag) :: caps) :=
      matches_lit.2 ⟨rfl, rfl⟩
    have hend : Matches endOfLine ((1, tag) :: caps) [] rest ((1, tag) :: caps) :=
      matches_endOfLine.2 ⟨rfl, hrest, rfl⟩
    have hall := ((hfront.seq htag).seq hclose).seq hend
    rwa [List.append_nil] at hall

/-- Such a line is matched as a whole. -/
theorem matchFront_tagLine (hne : tag ≠ []) (hword : ∀ c ∈ tag, isWord c = true) :
    matchFront (lit front ++ group 1 (plus (cls isWord)) ++ lit ['>'] ++ endOfLine) (front ++ tag ++ ['>']) =
      some ([(1, tag)], []) := by
  have hline : Matches (lit front ++ group 1 (plus (cls isWord)) ++ lit ['>'] ++ endOfLine) []
      (front ++ tag ++ ['>']) [] [(1, tag)] := matches_tagLine.2 ⟨tag, rfl, hne, hword, .inl rfl, rfl⟩
  apply matchFront_of_unique hline (List.append_nil _).symm
  intro w' rest' caps' htext h
  rcases matches_tagLine.1 h with ⟨tag', rfl, -, hword', -, rfl⟩
  rw [List.append_assoc, List.append_assoc, List.append_assoc] at htext
  -- both tags end at the first bracket
  have htail := Replace.append_sep_inj (notMem_of_word hword (by decide)) (notMem_of_word hword' (by decide))
    (List.append_cancel_left htext)
  exact ⟨htail.2.symm, by rw [htail.1]⟩

/-- A complete leaf is matched with its tag and its text. -/
theorem matches_inlineTag : Matches inlineTagRegex caps w rest caps' ↔
    ∃ tag text, w = '<' :: tag ++ '>' :: (text ++ '<' :: '/' :: (tag ++ ['>'])) ∧ tag ≠ [] ∧
      (∀ c ∈ tag, isWord c = true) ∧ (∀ c ∈ text, isAnyChar c = true) ∧ (rest = [] ∨ rest = ['\n']) ∧
      caps' = (2, text) :: (1, tag) :: caps := by
  constructor
  · intro h
    rcases matches_append.1 h with ⟨_, w8, _, rfl, h7, h8⟩
    rcases matches_append.1 h7 with ⟨_, w7, _, rfl, h6, hclose'⟩
    rcases matches_append.1 h6 with ⟨_, w6, _, rfl, h5, hback⟩
    rcases matches_append.1 h5 with ⟨_, w5, _, rfl, h4, hslash⟩
    rcases matches_append.1 h4 with ⟨_, text, _, rfl, h3, htext⟩
    rcases matches_append.1 h3 with ⟨_, w3, _, rfl, h2, hclose⟩
    rcases matches_append.1 h2 with ⟨w1, tag, _, rfl, hopen, htag⟩
    rcases matches_lit.1 hopen with ⟨rfl, rfl⟩
    rcases matches_group_tag.1 htag with ⟨hne, hword, rfl⟩
    rcases matches_lit.1 hclose with ⟨rfl, rfl⟩
    rcases matches_group.1 htext with ⟨_, hstar, rfl⟩
    rcases matches_star_cls.1 hstar with ⟨hany, rfl⟩
    rcases matches_lit.1 hslash with ⟨rfl, rfl⟩
    rcases matches_backref.1 hback with ⟨hlookup, rfl⟩
    rcases matches_lit.1 hclose' with ⟨rfl, rfl⟩
    rcases matches_endOfLine.1 h8 with ⟨rfl, hrest, rfl⟩
    -- the second tag is the first one again
    obtain rfl : tag = w6 := Option.some.inj hlookup
    exact ⟨tag, text, by simp, hne, hword, hany, hrest, rfl⟩
  · rintro ⟨tag, text, rfl, hne, hword, hany, hrest, rfl⟩
    have hopen : Matches (lit ['<']) caps ['<']
        (tag ++ (['>'] ++ (text ++ (['<', '/'] ++ (tag ++ (['>'] ++ ([] ++ rest))))))) caps :=
      matches_lit.2 ⟨rfl, rfl⟩
    have htag : Matches (group 1 (plus (cls isWord))) caps tag
        (['>'] ++ (text ++ (['<', '/'] ++ (tag ++ (['>'] ++ ([] ++ rest)))))) ((1, tag) :: caps) :=
      matches_group_tag.2 ⟨hne, hword, rfl⟩
    have hclose : Matches (lit ['>']) ((1, tag) :: caps) ['>']
        (text ++ (['<', '/'] ++ (tag ++ (['>'] ++ ([] ++ rest))))) ((1, tag) :: caps) :=
      matches_lit.2 ⟨rfl, rfl⟩
    have htext : Matches (group 2 (star false (cls isAnyChar))) ((1, tag) :: caps) text
        (['<', '/'] ++ (tag ++ (['>'] ++ ([] ++ rest)))) ((2, text) :: (1, tag) :: caps) :=
      matches_group.2 ⟨_, matches_star_cls.2 ⟨hany, rfl⟩, rfl⟩
    have hslash : Matches (lit ['<', '/']) ((2, text) :: (1, tag) :: caps) ['<', '/']
        (tag ++ (['>'] ++ ([] ++ rest))) ((2, text) :: (1, tag) :: caps) := matches_lit.2 ⟨rfl, rfl⟩
    have hback : Matches (backref 1) ((2, text) :: (1, tag) :: caps) tag (['>'] ++ ([] ++ rest))
        ((2, text) :: (1, tag) :: caps) := matches_backref.2 ⟨rfl, rfl⟩
    have hclose' : Matches (lit ['>']) ((2, text) :: (1, tag) :: caps) ['>'] ([] ++ rest)
        ((2, text) :: (1, tag) :: caps) := matches_lit.2 ⟨rfl, rfl⟩
    have hend : Matches endOfLine ((2, text) :: (1, tag) :: caps) [] rest ((2, text) :: (1, tag) :: caps) :=
      matches_endOfLine.2 ⟨rfl, hrest, rfl⟩
    have hword : '<' :: tag ++ '>' :: (text ++ '<' :: '/' :: (tag ++ ['>'])) =
        ['<'] ++ tag ++ ['>'] ++ text ++ ['<', '/'] ++ tag ++ ['>'] ++ [] := by simp
    rw [hword]
    exact ((((((hopen.seq htag).seq hclose).seq htext).seq hslash).seq hback).seq hclose').seq hend

/-- The line of a leaf is matched as a whole. -/
theorem matchFront_inlineTag (hne : tag ≠ []) (hword : ∀ c ∈ tag, isWord c = true) (htext : IsText text) :
    matchFront inlineTagRegex ('<' :: tag ++ '>' :: (text ++ '<' :: '/' :: (tag ++ ['>']))) =
      some ([(2, text), (1, tag)], []) := by
  have hany : ∀ c ∈ text, isAnyChar c = true := by
    intro c hc
    have hnl : c ≠ '\n' := by
      rintro rfl
      exact absurd (htext _ hc).1 (by decide)
    simpa [isAnyChar] using hnl
  have hopen : '<' ∉ text := fun hmem => (htext _ hmem).2.1 rfl
  have hline : Matches inlineTagRegex [] ('<' :: tag ++ '>' :: (text ++ '<' :: '/' :: (tag ++ ['>']))) []
      [(2, text), (1, tag)] := matches_inlineTag.2 ⟨tag, text, rfl, hne, hword, hany, .inl rfl, rfl⟩
  apply matchFront_of_unique hline (List.append_nil _).symm
  intro w' rest' caps' heq h
  rcases matches_inlineTag.1 h with ⟨tag', text', rfl, -, hword', -, -, rfl⟩
  simp only [List.cons_append, List.append_assoc] at heq
  -- the first bracket ends both tags
  have hinner := Replace.append_sep_inj (notMem_of_word hword (by decide)) (notMem_of_word hword' (by decide))
    (List.cons.inj heq).2
  obtain rfl := hinner.1
  have htail : '<' ∉ '/' :: (tag ++ ['>']) := by
    have hmem := notMem_of_word hword (by decide : isWord '<' = false)
    simp [hmem]
  have hopen' : '<' ∉ text' := by
    intro hmem
    rcases List.eq_append_cons_of_mem hmem with ⟨a, b, rfl, ha⟩
    have heq' := hinner.2
    rw [List.append_assoc] at heq'
    apply htail
    rw [(Replace.append_sep_inj hopen ha heq').2]
    simp
  have hlast := Replace.append_sep_inj hopen hopen' hinner.2
  obtain rfl := hlast.1
  have hrest : tag ++ ['>'] ++ [] = tag ++ ['>'] ++ rest' := by
    simpa using (List.cons.inj hlast.2).2
  exact ⟨(List.append_cancel_left hrest).symm, rfl⟩

/-! ## The lines -/

variable {blanks : List Char} {tagName : String} {st : XmlState}

/-- A line in brackets is found behind its indentation. -/
theorem strip_indent (hblanks : IsIndent blanks) (inner : List Char) :
    strip (blanks ++ ('<' :: inner ++ ['>'])) = '<' :: inner ++ ['>'] := by
  rw [Lines.strip_append fun c hc => (hblanks c hc).1]
  apply Lines.strip_of_trimmed
  constructor
  · intro c hc
    obtain rfl : '<' = c := by simpa using hc
    decide
  · intro c hc
    rw [List.getLast?_concat] at hc
    obtain rfl : '>' = c := Option.some.inj hc
    decide

/-- A second character that belongs to a tag is no slash. -/
theorem matchFront_closingTag_eq_none (hne : tag ≠ []) (hword : ∀ c ∈ tag, isWord c = true)
    (behind : List Char) : matchFront closingTagRegex ('<' :: tag ++ behind) = none := by
  rw [matchFront_eq_none]
  intro w' rest' caps' heq h
  rcases matches_tagLine.1 h with ⟨tag', rfl, -⟩
  rcases List.exists_cons_of_ne_nil hne with ⟨c, tag, rfl⟩
  obtain rfl : c = '/' := (List.cons.inj (List.cons.inj heq).2).1
  exact absurd (hword _ List.mem_cons_self) (by decide)

/-- A slash belongs to no tag. -/
theorem matchFront_openingTag_eq_none_of_slash (behind : List Char) :
    matchFront openingTagRegex ('<' :: '/' :: behind) = none := by
  rw [matchFront_eq_none]
  intro w' rest' caps' heq h
  rcases matches_tagLine.1 h with ⟨tag', rfl, hne, hword, -⟩
  rcases List.exists_cons_of_ne_nil hne with ⟨c, tag', rfl⟩
  obtain rfl : '/' = c := (List.cons.inj (List.cons.inj heq).2).1
  exact absurd (hword _ List.mem_cons_self) (by decide)

/-- Behind the tag of a leaf the line does not end. -/
theorem matchFront_openingTag_eq_none_of_behind {behind : List Char} (hword : ∀ c ∈ tag, isWord c = true)
    (hbehind : behind ≠ []) (hline : behind ≠ ['\n']) :
    matchFront openingTagRegex ('<' :: tag ++ '>' :: behind) = none := by
  rw [matchFront_eq_none]
  intro w' rest' caps' heq h
  rcases matches_tagLine.1 h with ⟨tag', rfl, -, hword', hrest, -⟩
  rw [List.append_assoc, List.append_assoc] at heq
  have htail := Replace.append_sep_inj (notMem_of_word hword (by decide)) (notMem_of_word hword' (by decide))
    (List.cons.inj heq).2
  have hend : behind = rest' := htail.2
  rcases hrest with rfl | rfl
  · exact hbehind hend
  · exact hline hend

/-- An opening tag is pushed. -/
theorem parseXmlLine_openingTag (hblanks : IsIndent blanks) (htag : IsTag tagName) :
    parseXmlLine st (blanks ++ openingTag tagName) = { st with parentKeys := st.parentKeys ++ [tagName] } := by
  have hopening : matchFront openingTagRegex (openingTag tagName) = some ([(1, tagName.toList)], []) :=
    matchFront_tagLine htag.1 htag.2
  have hne : openingTag tagName ≠ [] := List.cons_ne_nil _ _
  rw [parseXmlLine, openingTag, strip_indent hblanks, ← openingTag]
  simp only [hopening, if_neg hne, groupText, List.lookup_cons_self, Option.getD_some, String.ofList_toList]

/-- A closing tag is popped, if it is on top. -/
theorem parseXmlLine_closingTag (hblanks : IsIndent blanks) (htag : IsTag tagName)
    (htop : st.parentKeys.getLast? = some tagName) :
    parseXmlLine st (blanks ++ closingTag tagName) = { st with parentKeys := st.parentKeys.dropLast } := by
  have hopening : matchFront openingTagRegex (closingTag tagName) = none :=
    matchFront_openingTag_eq_none_of_slash _
  have hclosing : matchFront closingTagRegex (closingTag tagName) = some ([(1, tagName.toList)], []) :=
    matchFront_tagLine htag.1 htag.2
  have hne : closingTag tagName ≠ [] := List.cons_ne_nil _ _
  have hstrip : strip (blanks ++ closingTag tagName) = closingTag tagName := strip_indent hblanks _
  rw [parseXmlLine, hstrip]
  simp only [hopening, hclosing, if_neg hne, groupText, List.lookup_cons_self, Option.getD_some,
    String.ofList_toList, if_pos htop]

/-- The text of a leaf is stored, also an empty one. -/
theorem parseXmlLine_leaf (hblanks : IsIndent blanks) (htag : IsTag tagName) (htext : IsText text) :
    parseXmlLine st (blanks ++ (openingTag tagName ++ text ++ closingTag tagName)) =
      { st with configDict :=
          st.configDict.set (Join.join ' ' (st.parentKeys ++ [tagName])) (String.ofList (strip text)) } := by
  have hline : openingTag tagName ++ text ++ closingTag tagName =
      '<' :: tagName.toList ++ '>' :: (text ++ '<' :: '/' :: (tagName.toList ++ ['>'])) := by
    simp [openingTag, closingTag]
  have hbracket : openingTag tagName ++ text ++ closingTag tagName =
      '<' :: (tagName.toList ++ '>' :: (text ++ '<' :: '/' :: tagName.toList)) ++ ['>'] := by
    simp [openingTag, closingTag]
  have hbehind : text ++ '<' :: '/' :: (tagName.toList ++ ['>']) ≠ [] :=
    List.append_ne_nil_of_right_ne_nil text (List.cons_ne_nil _ _)
  have hnewline : text ++ '<' :: '/' :: (tagName.toList ++ ['>']) ≠ ['\n'] := by
    intro h
    have hlen := congrArg List.length h
    simp only [List.length_append, List.length_cons, List.length_nil] at hlen
    omega
  have hopening := matchFront_openingTag_eq_none_of_behind htag.2 hbehind hnewline
  have hclosing := matchFront_closingTag_eq_none htag.1 htag.2
    ('>' :: (text ++ '<' :: '/' :: (tagName.toList ++ ['>'])))
  have hinline := matchFront_inlineTag htag.1 htag.2 htext
  have hne : '<' :: tagName.toList ++ '>' :: (text ++ '<' :: '/' :: (tagName.toList ++ ['>'])) ≠ [] :=
    List.cons_ne_nil _ _
  have hfirst : groupText [(2, text), (1, tagName.toList)] 1 = tagName.toList := rfl
  have hsecond : groupText [(2, text), (1, tagName.toList)] 2 = text := rfl
  rw [parseXmlLine, hbracket, strip_indent hblanks, ← hbracket, hline]
  simp only [hopening, hclosing, hinline, if_neg hne, hfirst, hsecond, String.ofList_toList]

/-! ## The two runs -/

/-- The assignment for a leaf. -/
def setLeaf (configDict : Dict String String) (entry : String × List Char) : Dict String String :=
  configDict.set entry.1 (String.ofList (strip entry.2))

/-- The lines of some trees assign their leaves and leave the stack as it was. -/
theorem foldl_parseXmlLine {trees : List XmlTree} {lines : List (List Char)} (h : WrittenXml trees lines)
    (configDict : Dict String String) (parentKeys : List String) :
    lines.foldl parseXmlLine ⟨configDict, parentKeys⟩ =
      ⟨(leaves parentKeys trees).foldl setLeaf configDict, parentKeys⟩ := by
  induction h generalizing configDict parentKeys with
  | nil => rfl
  | leaf hblanks htag htext hrest ih =>
      rw [List.foldl_cons, parseXmlLine_leaf hblanks htag htext, ih, leaves, leavesOf]
      rfl
  | node hblanks hblanks' htag hinner hrest ihInner ih =>
      rw [List.foldl_cons, parseXmlLine_openingTag hblanks htag, List.foldl_append, ihInner, List.foldl_cons,
        parseXmlLine_closingTag hblanks' htag List.getLast?_concat, ih, leaves, leavesOf, List.foldl_append,
        List.dropLast_concat]

/-- The traversal assigns the leaves that have a text. -/
theorem parseElements_eq {trees : List XmlTree} {elements : List XmlElement} (h : ParsedXml trees elements)
    (configDict : Dict String String) (parentKeys : List String) :
    parseElements parentKeys configDict elements =
      ((leaves parentKeys trees).filter fun entry => strip entry.2 ≠ []).foldl setLeaf configDict := by
  induction h generalizing configDict parentKeys with
  | nil => rfl
  | @leaf tag text trees elements hrest ih =>
      have hset : setText configDict (Join.join ' ' (parentKeys ++ [tag]))
          (if text = [] then none else some (String.ofList text)) =
            if strip text = [] then configDict
            else setLeaf configDict (Join.join ' ' (parentKeys ++ [tag]), text) := by
        by_cases hnil : text = []
        · subst hnil
          rfl
        · rw [if_neg hnil, setText, String.toList_ofList, setLeaf]
      rw [parseElements, parseElement, parseElements, hset, ih, leaves, leavesOf, List.singleton_append,
        List.filter_cons]
      by_cases hblank : strip text = []
      · rw [if_pos hblank, if_neg (by simpa using hblank)]
      · rw [if_neg hblank, if_pos (by simpa using hblank), List.foldl_cons]
  | @node tag blanks children trees inner elements hblank hinner hrest ihInner ih =>
      have hset : setText configDict (Join.join ' ' (parentKeys ++ [tag])) blanks = configDict := by
        cases blanks with
        | none => rfl
        | some text => rw [setText, if_pos (hblank text rfl)]
      rw [parseElements, parseElement, hset, ihInner, ih, leaves, leavesOf, List.filter_append,
        List.foldl_append]

/-! ## The last leaf with a key -/

variable {entries : List (String × List Char)} {configDict : Dict String String} {key : String}

theorem get?_foldl_setLeaf (entries : List (String × List Char)) (configDict : Dict String String)
    (key : String) : (entries.foldl setLeaf configDict).get? key =
      ((lastText entries key).map fun text => String.ofList (strip text)).or (configDict.get? key) := by
  have hget := Dict.get?_foldl_assign Prod.fst (fun entry => String.ofList (strip entry.2)) entries configDict key
  rw [lastText, Option.map_map]
  exact hget

/-- A last leaf that has a text is the last one with a text. -/
theorem lastText_filter (h : ∀ text ∈ lastText entries key, strip text ≠ []) :
    lastText (entries.filter fun entry => strip entry.2 ≠ []) key = lastText entries key := by
  have hswap : (entries.filter fun entry => strip entry.2 ≠ []).filter (fun entry => entry.1 = key) =
      (entries.filter fun entry => entry.1 = key).filter fun entry => strip entry.2 ≠ [] := by
    rw [List.filter_filter, List.filter_filter]
    apply List.filter_congr
    intro entry _
    exact Bool.and_comm _ _
  unfold lastText at h ⊢
  rw [hswap]
  rcases List.eq_nil_or_concat (entries.filter fun entry => entry.1 = key) with hnil | ⟨front, last, hlast⟩
  · rw [hnil]
    rfl
  · rw [hlast, List.concat_eq_append, List.getLast?_concat] at h
    have htext : strip last.2 ≠ [] := h _ rfl
    rw [hlast, List.concat_eq_append, List.filter_append, List.filter_cons, if_pos (decide_eq_true htext),
      List.filter_nil, List.getLast?_concat, List.getLast?_concat]

theorem text_of_lastText_filter {text : List Char}
    (h : text ∈ lastText (entries.filter fun entry => strip entry.2 ≠ []) key) : strip text ≠ [] := by
  rcases Option.map_eq_some_iff.1 h with ⟨entry, hentry, rfl⟩
  have hmem := List.mem_of_mem_filter (List.mem_of_getLast? hentry)
  exact of_decide_eq_true (List.mem_filter.1 hmem).2

theorem ofList_ne_of_strip {text text' : List Char} (h : strip text ≠ []) (h' : strip text' = []) :
    String.ofList (strip text) ≠ String.ofList (strip text') := by
  intro heq
  have hlist := congrArg String.toList heq
  rw [String.toList_ofList, String.toList_ofList, h'] at hlist
  exact h hlist

/-- The parsers agree exactly where of the leaves with the same key the last one has a text. -/
theorem XmlDocument.agrees_iff (doc : XmlDocument) : doc.Agrees ↔ doc.EndsWithText := by
  have hrugged : parseHelperXmlRugged doc.binaryData = (leaves [] [doc.tree]).foldl setLeaf ∅ := by
    rw [parseHelperXmlRugged, foldl_parseXmlLine doc.written]
  have hstrict : ∀ fromstring, fromstring (decodeAscii doc.binaryData) = some doc.root →
      parseHelperXml fromstring doc.binaryData =
        ((leaves [] [doc.tree]).filter fun entry => strip entry.2 ≠ []).foldl setLeaf ∅ := by
    intro fromstring hfrom
    rw [parseHelperXml, hfrom, ← parseElements_eq doc.parsed]
    rfl
  have hnone : ∀ key, (∅ : Dict String String).get? key = none := fun _ => rfl
  constructor
  · intro h key text htext hblank
    have hagree := h (fun _ => some doc.root) rfl key
    rw [hrugged, hstrict _ rfl, get?_foldl_setLeaf, get?_foldl_setLeaf, hnone, Option.or_none,
      Option.or_none, htext, Option.map_some] at hagree
    rcases Option.map_eq_some_iff.1 hagree.symm with ⟨text', htext', heq⟩
    exact ofList_ne_of_strip (text_of_lastText_filter htext') hblank heq
  · intro h fromstring hfrom key
    rw [hrugged, hstrict fromstring hfrom, get?_foldl_setLeaf, get?_foldl_setLeaf, lastText_filter (h key)]

/-- `<a></a>` -/
def sampleData : List UInt8 := [60, 97, 62, 60, 47, 97, 62]

theorem written_sample : WrittenXml [.leaf "a" []] (splitLines (decodeAscii sampleData)) := by
  have hline : splitLines (decodeAscii sampleData) =
      [[] ++ (openingTag "a" ++ [] ++ closingTag "a")] := by decide +kernel
  have htag : IsTag "a" := by
    constructor
    · decide +kernel
    · exact List.all_iff_forall_prop.1 (by decide +kernel)
  rw [hline]
  exact .leaf (fun _ h => absurd h List.not_mem_nil) htag (fun _ h => absurd h List.not_mem_nil) .nil

theorem parsed_sample : ParsedXml [.leaf "a" []] [.mk "a" none []] := .leaf .nil

/-- A leaf without a text. -/
def sampleDocument : XmlDocument where
  tree := .leaf "a" []
  binaryData := sampleData
  root := .mk "a" none []
  written := written_sample
  parsed := parsed_sample

/-- It has an empty value on one side and none on the other. -/
theorem parseHelperXmlRugged_sample :
    (parseHelperXmlRugged sampleDocument.binaryData).get? "a" = some "" ∧
      (parseElement [] ∅ sampleDocument.root).get? "a" = none ∧ ¬ sampleDocument.Agrees := by
  have hrugged : (parseHelperXmlRugged sampleDocument.binaryData).get? "a" = some "" := by decide +kernel
  have hstrict : (parseElement [] ∅ sampleDocument.root).get? "a" = none := rfl
  refine ⟨hrugged, hstrict, fun h => ?_⟩
  have hagree := h (fun _ => some sampleDocument.root) rfl "a"
  rw [hrugged] at hagree
  exact absurd (hagree.trans hstrict) (by decide)

end FileConfig

end FactCore
