import FactCore.Lib.Dict
import FactCore.Lib.Join
import FactCore.Lib.Lines
import FactCore.Lib.Outline

/-! # YAML config files

`_parse_helper_yaml` of the compare plugin `file_config`. The keys that enclose a
line are found by its indentation. A comment is recognised in the first column
only; indented, it is read like any other line.
-/

namespace FactCore

namespace FileConfig

open Lines (isSpace isLineBreak strip Trimmed decodeAscii encodeAscii)
open Outline (Mapping Line Item)

/-! ## The parser -/

/-- `re.match(r'^([^:]+):\s*(.*)$', line)` -/
def matchKeyValue (line : List Char) : Option (List Char × List Char) :=
  match line.dropWhile (· ≠ ':') with
  | [] => none
  | _ :: rest =>
      if line.takeWhile (· ≠ ':') = [] then none
      else some (line.takeWhile (· ≠ ':'), rest.dropWhile isSpace)

/-- `len(line) - len(line.lstrip(' '))` -/
def indentLevel (line : List Char) : ℕ := line.length - (line.dropWhile (· = ' ')).length

/-- The variables of the loop; the parent keys innermost first. -/
structure YamlState where
  configDict : Dict String String
  currentParentKeys : List (String × ℕ)

/-- The body of the loop of `_parse_helper_yaml`. -/
def parseYamlLine (st : YamlState) (line : List Char) : YamlState :=
  if line = [] ∨ line.head? = some '#' then st
  else
    match matchKeyValue line with
    | none => st
    | some (group1, group2) =>
        let key := String.ofList (strip group1)
        let parentKeys := st.currentParentKeys.dropWhile fun parent => indentLevel line ≤ parent.2
        if group2 = [] then { st with currentParentKeys := (key, indentLevel line) :: parentKeys }
        else
          let compositeKey :=
            if parentKeys = [] then key
            else Join.join ' ' ((parentKeys.map Prod.fst).reverse ++ [key])
          { configDict := st.configDict.set compositeKey (String.ofList (strip group2))
            currentParentKeys := (key, indentLevel line) :: parentKeys }

/-- `_parse_helper_yaml` -/
def parseHelperYaml (binaryData : List UInt8) : Dict String String :=
  ((Lines.splitLines (decodeAscii binaryData)).foldl parseYamlLine ⟨∅, []⟩).configDict

/-! ## Rendered documents -/

/-- A key without a colon, a line break or blanks around it. -/
structure IsKey (key : String) : Prop where
  ne : key.toList ≠ []
  ascii : ∀ c ∈ key.toList, c.toNat < 128
  noColon : ':' ∉ key.toList
  oneLine : ∀ c ∈ key.toList, isLineBreak c = false
  trimmed : Trimmed key.toList

/-- A value in one line without blanks around it. -/
structure IsValue (value : String) : Prop where
  ne : value.toList ≠ []
  ascii : ∀ c ∈ value.toList, c.toNat < 128
  oneLine : ∀ c ∈ value.toList, isLineBreak c = false
  trimmed : Trimmed value.toList

/-- `key: value`, or `key:` for a parent. -/
def entryText (line : Line String String) : List Char :=
  List.replicate line.indent ' ' ++ line.key.toList ++ ':' ::
    (line.value.elim [] fun value => ' ' :: value.toList)

/-- A line of a document. -/
inductive DocLine where
  | blank (blanks : List Char)
  | comment (indent : List Char) (text : List UInt8)
  | entry (line : Line String String)

namespace DocLine

def bytes : DocLine → List UInt8
  | blank blanks => encodeAscii blanks
  | comment indent text => encodeAscii indent ++ 35 :: text
  | entry line => encodeAscii (entryText line)

/-- The line of the mapping that is rendered. -/
def entry? : DocLine → Option (Line String String)
  | entry line => some line
  | _ => none

/-- Blanks that are no line break. -/
def IsBlank (s : List Char) : Prop := ∀ c ∈ s, isSpace c = true ∧ isLineBreak c = false

/-- Blank lines and comments are lines of this kind. -/
def WellFormed : DocLine → Prop
  | blank blanks => IsBlank blanks
  | comment indent text => IsBlank indent ∧ ∀ c ∈ decodeAscii text, isLineBreak c = false
  | entry _ => True

end DocLine

/-- A mapping, rendered with blank lines and comments between its lines. -/
structure YamlDocument where
  mapping : Mapping String String
  indent : ℕ
  lines : List DocLine
  rendered : lines.filterMap DocLine.entry? = mapping.lines indent
  keys : ∀ key ∈ mapping.keys, IsKey key
  values : ∀ value ∈ mapping.values, IsValue value
  between : ∀ line ∈ lines, line.WellFormed

/-- The content of the file. -/
def YamlDocument.binaryData (doc : YamlDocument) : List UInt8 :=
  [10].intercalate (doc.lines.map DocLine.bytes)

/-- The entries by their joined paths, the last one of each. -/
def assignAll (entries : List (List String × String)) : Dict String String :=
  entries.foldl (fun configDict entry => configDict.set (Join.join ' ' entry.1) entry.2) ∅

/-- The parser returns the leaves of the mapping. -/
def YamlDocument.Right (doc : YamlDocument) : Prop :=
  ∀ key, (parseHelperYaml doc.binaryData).get? key = (assignAll (doc.mapping.leaves [])).get? key

/-! ## Comments that are read -/

/-- What is read of a comment: nothing in the first column or without a colon. -/
def commentLine (indent text : List Char) : Option (Line String String) :=
  if indent = [] ∨ ':' ∉ text then none
  else
    let value := strip ((text.dropWhile (· ≠ ':')).drop 1)
    some
      { indent := (indent.takeWhile (· = ' ')).length
        key := String.ofList (strip ('#' :: text.takeWhile (· ≠ ':')))
        value := if value = [] then none else some (String.ofList value) }

/-- The lines that have a colon, apart from comments in the first column. -/
def DocLine.item : DocLine → Option (Item String String)
  | blank _ => none
  | comment indent text => (commentLine indent (decodeAscii text)).map .stray
  | entry line => some (.own line)

/-- No key in the first column looks like a comment, and the comments that are
read have no value and do not stand above a leaf that is indented more. -/
def YamlDocument.Undisturbed (doc : YamlDocument) : Prop :=
  (∀ line ∈ doc.mapping.lines doc.indent, line.indent = 0 → line.key.toList.head? ≠ some '#') ∧
    Outline.Undisturbed none (doc.lines.filterMap DocLine.item)

/-! ## What a line is read as -/

/-- The line of an outline that the loop body makes of a line. -/
def readLine? (line : List Char) : Option (Line String String) :=
  if line = [] ∨ line.head? = some '#' then none
  else (matchKeyValue line).map fun groups =>
    { indent := indentLevel line
      key := String.ofList (strip groups.1)
      value := if groups.2 = [] then none else some (String.ofList (strip groups.2)) }

/-- The text in front of the first colon, and the rest with the colon. -/
theorem span_colon {front rest : List Char} (hcolon : ':' ∉ front) :
    (front ++ ':' :: rest).takeWhile (· ≠ ':') = front ∧
      (front ++ ':' :: rest).dropWhile (· ≠ ':') = ':' :: rest := by
  have hfront : ∀ c ∈ front, decide (c ≠ ':') = true := by
    intro c hc
    apply decide_eq_true
    rintro rfl
    exact hcolon hc
  rw [List.takeWhile_append_of_pos hfront, List.dropWhile_append_of_pos hfront]
  constructor
  · simp
  · rfl

theorem matchKeyValue_append {front rest : List Char} (hne : front ≠ []) (hcolon : ':' ∉ front) :
    matchKeyValue (front ++ ':' :: rest) = some (front, rest.dropWhile isSpace) := by
  obtain ⟨htake, hdrop⟩ := @span_colon front rest hcolon
  rw [matchKeyValue, hdrop, htake]
  exact if_neg hne

theorem matchKeyValue_eq_none {line : List Char} (hcolon : ':' ∉ line) : matchKeyValue line = none := by
  have hdrop : line.dropWhile (· ≠ ':') = [] := by
    rw [List.dropWhile_eq_nil_iff]
    intro c hc
    apply decide_eq_true
    rintro rfl
    exact hcolon hc
  rw [matchKeyValue, hdrop]

theorem indentLevel_eq (line : List Char) : indentLevel line = (line.takeWhile (· = ' ')).length := by
  have hlength := congrArg List.length (List.takeWhile_append_dropWhile (p := (· = ' ')) (l := line))
  rw [List.length_append] at hlength
  unfold indentLevel
  omega

/-- The indentation is what stands in front of the first other character. -/
theorem indentLevel_append {c : Char} (hc : c ≠ ' ') (blanks rest : List Char) :
    indentLevel (blanks ++ c :: rest) = (blanks.takeWhile (· = ' ')).length := by
  rw [indentLevel_eq, List.takeWhile_append]
  split
  · rename_i hall
    have htake : (c :: rest).takeWhile (· = ' ') = [] := List.takeWhile_cons_of_neg (by simpa using hc)
    rw [htake, List.append_nil, ← hall]
  · rfl

theorem strip_dropWhile (s : List Char) : strip (s.dropWhile isSpace) = strip s := by
  unfold strip
  rw [List.dropWhile_idempotent]

theorem strip_eq_nil {s : List Char} : strip s = [] ↔ s.dropWhile isSpace = [] := by
  rw [strip, List.rdropWhile_eq_nil_iff]
  constructor
  · intro hall
    rw [List.dropWhile_eq_nil_iff]
    intro c hc
    rw [← List.takeWhile_append_dropWhile (p := isSpace) (l := s)] at hc
    rcases List.mem_append.1 hc with hfront | hback
    · exact List.mem_takeWhile_imp hfront
    · exact hall c hback
  · intro hnil c hc
    rw [hnil] at hc
    cases hc

/-! ## The lines of a document -/

theorem readLine?_blank {blanks : List Char} (h : ∀ c ∈ blanks, isSpace c = true) :
    readLine? blanks = none := by
  have hcolon : ':' ∉ blanks := fun hmem => absurd (h ':' hmem) (by decide)
  unfold readLine?
  rw [matchKeyValue_eq_none hcolon]
  split
  · rfl
  · rfl

theorem readLine?_comment {indent : List Char} (h : ∀ c ∈ indent, isSpace c = true) (text : List Char) :
    readLine? (indent ++ '#' :: text) = commentLine indent text := by
  have hcolon : ':' ∉ indent := fun hmem => absurd (h ':' hmem) (by decide)
  unfold readLine? commentLine
  cases indent with
  | nil => simp
  | cons c indent =>
      have hc : c ≠ '#' := by
        rintro rfl
        exact absurd (h '#' List.mem_cons_self) (by decide)
      rw [if_neg (by simpa using hc)]
      by_cases htext : ':' ∈ text
      · obtain ⟨front, rest, rfl, hfront⟩ := List.eq_append_cons_of_mem htext
        rw [if_neg (by simp)]
        have hmatch : matchKeyValue (c :: indent ++ '#' :: (front ++ ':' :: rest)) =
            some (c :: indent ++ '#' :: front, rest.dropWhile isSpace) := by
          have hsplit : c :: indent ++ '#' :: (front ++ ':' :: rest) =
              (c :: indent ++ '#' :: front) ++ ':' :: rest := by simp
          rw [hsplit]
          apply matchKeyValue_append (by simp)
          simp only [List.mem_append, List.mem_cons, not_or]
          exact ⟨by simpa using hcolon, by decide, hfront⟩
        obtain ⟨htake, hdrop⟩ := @span_colon front rest hfront
        rw [hmatch, htake, hdrop, Option.map_some, indentLevel_append (by decide), Lines.strip_append h,
          strip_dropWhile]
        simp only [List.drop_succ_cons, List.drop_zero, strip_eq_nil]
      · rw [if_pos (.inr htext), matchKeyValue_eq_none, Option.map_none]
        simp only [List.mem_append, List.mem_cons, not_or]
        exact ⟨by simpa using hcolon, by decide, htext⟩

theorem readLine?_entry {line : Line String String} (hkey : IsKey line.key)
    (hvalue : ∀ value ∈ line.value, IsValue value) :
    readLine? (entryText line) =
      if line.indent = 0 ∧ line.key.toList.head? = some '#' then none else some line := by
  obtain ⟨indent, key, value⟩ := line
  obtain ⟨c, tail, hchars⟩ : ∃ c tail, key.toList = c :: tail := List.exists_cons_of_ne_nil hkey.ne
  have hc : isSpace c = false := hkey.trimmed.1 c (by rw [hchars]; rfl)
  have hblank : c ≠ ' ' := by
    rintro rfl
    cases hc
  have hspaces : ∀ b ∈ List.replicate indent ' ', isSpace b = true := by
    intro b hb
    rw [List.eq_of_mem_replicate hb]
    rfl
  have hcolon : ':' ∉ List.replicate indent ' ' ++ key.toList := by
    rw [List.mem_append, not_or]
    exact ⟨fun hmem => absurd (hspaces ':' hmem) (by decide), hkey.noColon⟩
  have hmatch : matchKeyValue (entryText ⟨indent, key, value⟩) =
      some (List.replicate indent ' ' ++ key.toList,
        (value.elim [] fun value => ' ' :: value.toList).dropWhile isSpace) := by
    apply matchKeyValue_append _ hcolon
    rw [hchars]
    simp
  have hlevel : indentLevel (entryText ⟨indent, key, value⟩) = indent := by
    unfold entryText
    rw [hchars, List.append_assoc, List.cons_append, indentLevel_append hblank, List.takeWhile_eq_self_iff.2, List.length_replicate]
    intro b hb
    rw [List.eq_of_mem_replicate hb]
    rfl
  have hstart : (entryText ⟨indent, key, value⟩ = [] ∨ (entryText ⟨indent, key, value⟩).head? = some '#') ↔
      indent = 0 ∧ key.toList.head? = some '#' := by
    unfold entryText
    cases indent with
    | zero => simp [hchars]
    | succ indent => simp [List.replicate_succ]
  have hstrip : strip (List.replicate indent ' ' ++ key.toList) = key.toList := by
    rw [Lines.strip_append hspaces, Lines.strip_of_trimmed hkey.trimmed]
  unfold readLine?
  simp only [hstart, hmatch, hlevel, hstrip, Option.map_some, String.ofList_toList]
  cases value with
  | none => rfl
  | some value =>
      have hvalue := hvalue value rfl
      have hdrop : (' ' :: value.toList).dropWhile isSpace = value.toList := by
        rw [List.dropWhile_cons_of_pos (by rfl), Lines.dropWhile_of_trimmed hvalue.trimmed]
      simp only [Option.elim_some, hdrop, if_neg hvalue.ne, Lines.strip_of_trimmed hvalue.trimmed,
        String.ofList_toList]

/-! ## The loop -/

/-- The loop has read these entries, with these keys open. -/
def Represents (st : YamlState) (r : Outline.Reader String String) : Prop :=
  st.configDict = assignAll r.entries ∧ st.currentParentKeys = r.stack

theorem assignAll_append (entries : List (List String × String)) (path : List String) (value : String) :
    assignAll (entries ++ [(path, value)]) = (assignAll entries).set (Join.join ' ' path) value := by
  unfold assignAll
  rw [List.foldl_append]
  rfl

theorem compositeKey_eq (parentKeys : List (String × ℕ)) (key : String) :
    (if parentKeys = [] then key else Join.join ' ' ((parentKeys.map Prod.fst).reverse ++ [key])) =
      Join.join ' ' ((parentKeys.map Prod.fst).reverse ++ [key]) := by
  split
  · rename_i hnil
    rw [hnil]
    simp [Join.join]
  · rfl

/-- The loop body reads the line as the line of an outline. -/
theorem Represents.parseYamlLine {st : YamlState} {r : Outline.Reader String String}
    (h : Represents st r) (line : List Char) :
    Represents (FileConfig.parseYamlLine st line) ((readLine? line).elim r r.readLine) := by
  obtain ⟨hdict, hstack⟩ := h
  unfold FileConfig.parseYamlLine readLine?
  split
  · exact ⟨hdict, hstack⟩
  · cases matchKeyValue line with
    | none => exact ⟨hdict, hstack⟩
    | some groups =>
        simp only [Option.map_some, Option.elim_some, hstack]
        split
        · constructor
          · simp [Outline.Reader.readLine, hdict]
          · rfl
        · constructor
          · simp only [Outline.Reader.readLine, Option.map_some, Option.toList_some, assignAll_append,
              hdict]
            rw [compositeKey_eq]
            rfl
          · rfl

/-- The loop over the lines reads the outline of those that have a colon. -/
theorem Represents.parseYamlLines {st : YamlState} {r : Outline.Reader String String}
    (h : Represents st r) (lines : List (List Char)) :
    Represents (lines.foldl FileConfig.parseYamlLine st) (r.read (lines.filterMap readLine?)) := by
  induction lines generalizing st r with
  | nil => exact h
  | cons line lines ih =>
      have hstep := ih (h.parseYamlLine line)
      rw [List.foldl_cons]
      cases hline : readLine? line with
      | none =>
          rw [List.filterMap_cons_none hline]
          rwa [hline] at hstep
      | some read =>
          rw [List.filterMap_cons_some hline]
          rwa [hline] at hstep

/-! ## The document -/

variable (doc : YamlDocument)

/-- A line of the document as the parser sees it. -/
def DocLine.text (line : DocLine) : List Char := decodeAscii line.bytes

theorem isAscii_of_isBlank {s : List Char} (h : DocLine.IsBlank s) : ∀ c ∈ s, c.toNat < 128 := by
  intro c hc
  have hspace := (h c hc).1
  simp only [isSpace, Bool.or_eq_true, Bool.and_eq_true, decide_eq_true_eq, beq_iff_eq] at hspace
  rcases hspace with (rfl | hrange) | hrange
  · decide
  · omega
  · omega

theorem mem_entryText {line : Line String String} {c : Char} (h : c ∈ entryText line) :
    c = ' ' ∨ c = ':' ∨ c ∈ line.key.toList ∨ ∃ value ∈ line.value, c ∈ value.toList := by
  unfold entryText at h
  rcases List.mem_append.1 h with hfront | hback
  · rcases List.mem_append.1 hfront with hspace | hkey
    · exact .inl (List.eq_of_mem_replicate hspace)
    · exact .inr (.inr (.inl hkey))
  · rcases List.mem_cons.1 hback with hcolon | hvalue
    · exact .inr (.inl hcolon)
    · cases hline : line.value with
      | none =>
          rw [hline] at hvalue
          cases hvalue
      | some value =>
          rw [hline] at hvalue
          rcases List.mem_cons.1 hvalue with hspace | hmem
          · exact .inl hspace
          · exact .inr (.inr (.inr ⟨value, rfl, hmem⟩))

variable {line : DocLine}

theorem YamlDocument.mem_lines {entry : Line String String} (h : DocLine.entry entry ∈ doc.lines) :
    entry ∈ doc.mapping.lines doc.indent := by
  rw [← doc.rendered]
  exact List.mem_filterMap.2 ⟨.entry entry, h, rfl⟩

theorem YamlDocument.isKey {entry : Line String String} (h : DocLine.entry entry ∈ doc.lines) :
    IsKey entry.key :=
  doc.keys entry.key (Mapping.mem_of_mem_lines (doc.mem_lines h)).1

theorem YamlDocument.isValue {entry : Line String String} (h : DocLine.entry entry ∈ doc.lines) :
    ∀ value ∈ entry.value, IsValue value := fun value hvalue =>
  doc.values value ((Mapping.mem_of_mem_lines (doc.mem_lines h)).2 value hvalue)

theorem text_blank {blanks : List Char} (h : DocLine.IsBlank blanks) :
    (DocLine.blank blanks).text = blanks :=
  Lines.decodeAscii_encodeAscii (isAscii_of_isBlank h)

theorem text_comment {indent : List Char} (h : DocLine.IsBlank indent) (text : List UInt8) :
    (DocLine.comment indent text).text = indent ++ '#' :: decodeAscii text := by
  unfold DocLine.text DocLine.bytes
  rw [Lines.decodeAscii_append, Lines.decodeAscii_encodeAscii (isAscii_of_isBlank h)]
  rfl

theorem YamlDocument.text_entry {entry : Line String String} (h : DocLine.entry entry ∈ doc.lines) :
    (DocLine.entry entry).text = entryText entry := by
  apply Lines.decodeAscii_encodeAscii
  intro c hc
  rcases mem_entryText hc with rfl | rfl | hkey | ⟨value, hvalue, hmem⟩
  · decide
  · decide
  · exact (doc.isKey h).ascii c hkey
  · exact (doc.isValue h value hvalue).ascii c hmem

/-- No line of the document contains a line break. -/
theorem YamlDocument.text_oneLine (h : line ∈ doc.lines) : ∀ c ∈ line.text, isLineBreak c = false := by
  intro c hc
  have hformed := doc.between line h
  cases line with
  | blank blanks =>
      rw [text_blank hformed] at hc
      exact (hformed c hc).2
  | comment indent text =>
      rw [text_comment hformed.1] at hc
      rcases List.mem_append.1 hc with hindent | htext
      · exact (hformed.1 c hindent).2
      · rcases List.mem_cons.1 htext with rfl | htext
        · decide
        · exact hformed.2 c htext
  | entry entry =>
      rw [doc.text_entry h] at hc
      rcases mem_entryText hc with rfl | rfl | hkey | ⟨value, hvalue, hmem⟩
      · decide
      · decide
      · exact (doc.isKey h).oneLine c hkey
      · exact (doc.isValue h value hvalue).oneLine c hmem

/-- The parser reads the outline of the lines of the document. -/
theorem YamlDocument.parseHelperYaml_eq : parseHelperYaml doc.binaryData =
    assignAll ((⟨[], []⟩ : Outline.Reader String String).read
      ((doc.lines.map DocLine.text).filterMap readLine?)).entries := by
  have hlines : ∀ text ∈ doc.lines.map DocLine.text, ∀ c ∈ text, isLineBreak c = false := by
    intro text htext
    obtain ⟨line, hline, rfl⟩ := List.mem_map.1 htext
    exact doc.text_oneLine hline
  have hdecode : decodeAscii doc.binaryData = ['\n'].intercalate (doc.lines.map DocLine.text) := by
    rw [YamlDocument.binaryData, Lines.decodeAscii_intercalate, List.map_map]
    rfl
  have hempty : ∀ st, parseYamlLine st [] = st := fun st => if_pos (.inl rfl)
  rw [parseHelperYaml, hdecode, Lines.foldl_splitLines hempty hlines]
  have hinit : Represents ⟨∅, []⟩ ⟨[], []⟩ := ⟨rfl, rfl⟩
  exact (hinit.parseYamlLines (doc.lines.map DocLine.text)).1

/-- Apart from keys that look like comments, every line is read as expected. -/
theorem YamlDocument.filterMap_readLine?
    (h : ∀ entry ∈ doc.mapping.lines doc.indent, entry.indent = 0 → entry.key.toList.head? ≠ some '#') :
    (doc.lines.map DocLine.text).filterMap readLine? = (doc.lines.filterMap DocLine.item).map Item.line := by
  rw [List.filterMap_map, List.map_filterMap]
  apply List.filterMap_congr
  intro line hline
  have hformed := doc.between line hline
  show readLine? line.text = line.item.map Item.line
  cases line with
  | blank blanks =>
      rw [text_blank hformed, readLine?_blank fun c hc => (hformed c hc).1]
      rfl
  | comment indent text =>
      rw [text_comment hformed.1, readLine?_comment fun c hc => (hformed.1 c hc).1]
      unfold DocLine.item
      rw [Option.map_map]
      exact (congrFun Option.map_id _).symm
  | entry entry =>
      rw [doc.text_entry hline, readLine?_entry (doc.isKey hline) (doc.isValue hline), if_neg]
      · rfl
      · rintro ⟨hindent, hhead⟩
        exact h entry (doc.mem_lines hline) hindent hhead

theorem YamlDocument.filterMap_own? :
    (doc.lines.filterMap DocLine.item).filterMap Item.own? = doc.mapping.lines doc.indent := by
  rw [List.filterMap_filterMap, ← doc.rendered]
  apply List.filterMap_congr
  intro line _
  cases line with
  | blank blanks => rfl
  | comment indent text =>
      show ((commentLine indent (decodeAscii text)).map Item.stray).bind Item.own? = none
      cases commentLine indent (decodeAscii text) with
      | none => rfl
      | some stray => rfl
  | entry entry => rfl

/-- An undisturbed document is read as its mapping. -/
theorem YamlDocument.right_of_undisturbed (h : doc.Undisturbed) : doc.Right := by
  intro key
  obtain ⟨hkeys, hitems⟩ := h
  let start : Outline.Reader String String := ⟨[], []⟩
  have hread : (start.read ((doc.lines.filterMap DocLine.item).map Item.line)).entries =
      (start.read ((doc.lines.filterMap DocLine.item).filterMap Item.own?)).entries :=
    Outline.read_of_undisturbed hitems (fun _ _ => rfl) rfl
  have hleaves := (Outline.read_lines doc.mapping doc.indent start).1
  rw [doc.filterMap_own?, hleaves] at hread
  rw [doc.parseHelperYaml_eq, doc.filterMap_readLine? hkeys, hread]
  rfl

/-! ## Documents that are disturbed -/

theorem mem_assignAll {entries : List (List String × String)} {key : String} :
    key ∈ assignAll entries ↔ ∃ entry ∈ entries, Join.join ' ' entry.1 = key := by
  unfold assignAll
  rw [Dict.mem_foldl_assign, or_iff_left (Dict.notMem_empty key), List.mem_map]

/-- The key of a comment contains its first character. -/
theorem hash_mem_commentLine {indent text : List Char} {stray : Line String String}
    (h : commentLine indent text = some stray) : '#' ∈ stray.key.toList := by
  unfold commentLine at h
  split at h
  · cases h
  · obtain rfl := Option.some.inj h
    rw [String.toList_ofList]
    exact Lines.mem_strip_cons (by rfl) _

/-- If no key contains a `#`, only undisturbed documents are read as their
mapping. -/
theorem YamlDocument.undisturbed_of_right (hkeys : ∀ key ∈ doc.mapping.keys, '#' ∉ key.toList)
    (h : doc.Right) : doc.Undisturbed := by
  have hfirst : ∀ entry ∈ doc.mapping.lines doc.indent, entry.indent = 0 →
      entry.key.toList.head? ≠ some '#' := by
    intro entry hentry _ hhead
    exact hkeys entry.key (Mapping.mem_of_mem_lines hentry).1 (List.mem_of_mem_head? hhead)
  refine ⟨hfirst, ?_⟩
  by_contra hdisturbed
  have hstray : ∀ stray, Item.stray stray ∈ doc.lines.filterMap DocLine.item → '#' ∈ stray.key.toList := by
    intro stray hmem
    obtain ⟨line, -, hitem⟩ := List.mem_filterMap.1 hmem
    cases line with
    | blank blanks => cases hitem
    | comment indent text =>
        obtain ⟨stray', hcomment, heq⟩ := Option.map_eq_some_iff.1 hitem
        obtain rfl := Item.stray.inj heq
        exact hash_mem_commentLine hcomment
    | entry entry => cases hitem
  let start : Outline.Reader String String := ⟨[], []⟩
  have hopen : ∀ indent, ¬ Outline.Within none indent →
      ∃ key ∈ Outline.path (Outline.popTo indent start.stack), '#' ∈ key.toList :=
    fun indent hbeyond => absurd trivial hbeyond
  obtain ⟨entry, hentry, key, hkey, hhash⟩ := Outline.exists_stray_key hstray hopen hdisturbed
  -- the joined path is a key of the result that contains a `#`
  have hmem : Join.join ' ' entry.1 ∈ assignAll (doc.mapping.leaves []) := by
    rw [Dict.mem_iff_isSome, ← h, doc.parseHelperYaml_eq, doc.filterMap_readLine? hfirst,
      ← Dict.mem_iff_isSome]
    exact mem_assignAll.2 ⟨entry, hentry, rfl⟩
  obtain ⟨leaf, hleaf, hjoin⟩ := mem_assignAll.1 hmem
  have hjoined : '#' ∈ (Join.join ' ' leaf.1).toList := by
    rw [hjoin]
    exact (Join.mem_toList_join (by decide)).2 ⟨key, hkey, hhash⟩
  obtain ⟨key', hkey', hhash'⟩ := (Join.mem_toList_join (by decide)).1 hjoined
  rcases Mapping.mem_keys_of_mem_leaves hleaf hkey' with hnil | hmapping
  · cases hnil
  · exact hkeys key' hmapping hhash'

/-- An undisturbed document is read as its mapping, and if no key contains a `#`
no other document is. -/
theorem parseHelperYaml_right (doc : YamlDocument) :
    (doc.Undisturbed → doc.Right) ∧
      ((∀ key ∈ doc.mapping.keys, '#' ∉ key.toList) → (doc.Right ↔ doc.Undisturbed)) := by
  refine ⟨doc.right_of_undisturbed, ?_⟩
  intro hkeys
  exact ⟨doc.undisturbed_of_right hkeys, doc.right_of_undisturbed⟩

/-! ## An indented comment with a colon -/

theorem trimmed_singleton {c : Char} (h : isSpace c = false) : Trimmed [c] := by
  constructor
  · intro d hd
    rwa [← Option.some.inj hd]
  · intro d hd
    rwa [← Option.some.inj hd]

theorem isKey_singleton {c : Char} (hascii : c.toNat < 128) (hcolon : c ≠ ':')
    (hspace : isSpace c = false) (hbreak : isLineBreak c = false) : IsKey (String.ofList [c]) where
  ne := by simp
  ascii := by simpa using hascii
  noColon := by simpa using hcolon.symm
  oneLine := by simpa using hbreak
  trimmed := by simpa using trimmed_singleton hspace

theorem IsKey.isValue {key : String} (h : IsKey key) : IsValue key := ⟨h.ne, h.ascii, h.oneLine, h.trimmed⟩

def notedMapping : Mapping String String := .parent "a" 1 (.leaf "b" "1" .nil) .nil

/-- `  # c: 2`, between the parent and its leaf. -/
def notedLines : List DocLine :=
  [.entry ⟨0, "a", none⟩, .comment [' ', ' '] [32, 99, 58, 32, 50], .entry ⟨2, "b", some "1"⟩]

theorem notedMapping_keys : ∀ key ∈ notedMapping.keys, IsKey key := by
  intro key hkey
  rcases List.mem_cons.1 hkey with rfl | hkey
  · exact isKey_singleton (c := 'a') (by decide) (by decide) rfl rfl
  · obtain rfl := List.mem_singleton.1 hkey
    exact isKey_singleton (c := 'b') (by decide) (by decide) rfl rfl

theorem notedMapping_values : ∀ value ∈ notedMapping.values, IsValue value := by
  intro value hvalue
  obtain rfl := List.mem_singleton.1 hvalue
  exact (isKey_singleton (c := '1') (by decide) (by decide) rfl rfl).isValue

theorem notedLines_wellFormed : ∀ line ∈ notedLines, line.WellFormed := by
  intro line hline
  rcases List.mem_cons.1 hline with rfl | hline
  · trivial
  · rcases List.mem_cons.1 hline with rfl | hline
    · constructor
      · simp [DocLine.IsBlank, isSpace, isLineBreak]
      · have hall : (decodeAscii [32, 99, 58, 32, 50]).all (fun c => !isLineBreak c) = true := by
          decide +kernel
        intro c hc
        simpa using List.all_eq_true.1 hall c hc
    · obtain rfl := List.mem_singleton.1 hline
      trivial

def notedDocument : YamlDocument where
  mapping := notedMapping
  indent := 0
  lines := notedLines
  rendered := rfl
  keys := notedMapping_keys
  values := notedMapping_values
  between := notedLines_wellFormed

/-- The comment becomes an entry of the result. -/
theorem notedDocument_not_right : ¬ notedDocument.Right := by
  intro hright
  have hcomment := hright "a # c"
  have hread : (parseHelperYaml notedDocument.binaryData).get? "a # c" = some "2" := by decide +kernel
  have hleaves : (assignAll (notedDocument.mapping.leaves [])).get? "a # c" = none := by decide +kernel
  rw [hread, hleaves] at hcomment
  cases hcomment

end FileConfig

end FactCore
