import FactCore.Lib.Pep440

/-! # Comparing versions that are not PEP 440

`Lookup._coerce_version` and `_compare_version` of the plugin `cve_lookup`
(`internal/lookup.py`). A version that is no version number after PEP 440 is
rewritten in steps until it is one.

Which characters are digits, parts of a word or blanks, and what their lower
case is, is given by the Unicode tables of the language.
-/

namespace FactCore

/-- The character classes of the language, as far as they are relied on. -/
structure UnicodeTables where
  /-- `str.lower` -/
  lower : List Char → List Char
  /-- `\d` -/
  isDecimal : Char → Bool
  /-- `\w` -/
  isWord : Char → Bool
  /-- `\s` -/
  isSpace : Char → Bool
  decimal_ascii : ∀ c : Char, c.toNat < 128 → isDecimal c = Pep440.isDigit c
  decimal_word : ∀ c, isDecimal c = true → isWord c = true
  space_word : ∀ c, isSpace c = true → isWord c = false
  space_ascii : ∀ c : Char, c.toNat < 128 →
    isSpace c = (c == ' ' || (9 ≤ c.toNat && c.toNat ≤ 13) || (28 ≤ c.toNat && c.toNat ≤ 31))
  word_ascii : ∀ c : Char, c.toNat < 128 →
    isWord c = (Pep440.isDigit c || Pep440.isLetter c.toLower || c == '_')

namespace CveLookup

open Pep440 (isDigit isLetter isSeparator Version spanEpoch spanRelease)

/-- `str.rstrip` with a class of characters. -/
def rstrip (p : Char → Bool) (s : List Char) : List Char := (s.reverse.dropWhile p).reverse

variable (u : UnicodeTables)

/-- `packaging.version.parse`; without a result it raises an `InvalidVersion`. -/
def parseVersion (version : List Char) : Option Version :=
  Pep440.readVersion ((rstrip u.isSpace (version.dropWhile u.isSpace)).map Char.toLower)

/-! ## `VALID_VERSION_REGEX` -/

/-- `a(lpha)?|b(eta)?|c|dev|post|pre(view)?|r|rc`, or none of them. At most one
of them is followed by a digit, so their order does not matter. -/
def validTags : List (List Char) :=
  ["alpha".toList, "a".toList, "beta".toList, "b".toList, "c".toList, "dev".toList, "post".toList,
    "preview".toList, "pre".toList, "r".toList, "rc".toList, []]

/-- `[.-]?` -/
def spanDotHyphen : List Char → List Char × List Char
  | '.' :: rest => (['.'], rest)
  | '-' :: rest => (['-'], rest)
  | s => ([], s)

/-- `([.-]?(a(lpha)?|b(eta)?|c|dev|post|pre(view)?|r|rc)?\d+)?` -/
def spanTag (s : List Char) : List Char × List Char :=
  let (separator, body) := spanDotHyphen s
  match validTags.find? fun tag => tag <+: body ∧ (body.drop tag.length).head?.any u.isDecimal with
  | none => ([], s)
  | some tag =>
      (separator ++ tag ++ (body.drop tag.length).takeWhile u.isDecimal,
        (body.drop tag.length).dropWhile u.isDecimal)

/-- `v?` -/
def spanV : List Char → List Char × List Char
  | 'v' :: rest => (['v'], rest)
  | s => ([], s)

/-- `VALID_VERSION_REGEX.match`: the matched text and what follows it. -/
def validVersion (s : List Char) : Option (List Char × List Char) :=
  let (v, s) := spanV s
  let (epoch, s) := spanEpoch u.isDecimal s
  let (release, s) := spanRelease u.isDecimal s
  if release.head?.any u.isDecimal then
    let (tag, s) := spanTag u s
    some (v ++ epoch ++ release ++ tag, s)
  else none

/-! ## `Lookup._coerce_version` -/

/-- `version.lower().replace('~', '-').replace(':', '!', 1).replace('_', '-')` -/
def fixedVersion (version : List Char) : List Char :=
  ((((u.lower version).map fun c => if c = '~' then '-' else c).replace ':' '!').map
    fun c => if c = '_' then '-' else c)

/-- `re.sub(r'[^\w.-]', '', rest).lstrip('._-')` -/
def cleanRest (rest : List Char) : List Char :=
  (rest.filter fun c => u.isWord c || c == '.' || c == '-').dropWhile
    fun c => c == '.' || c == '_' || c == '-'

/-- `Lookup._coerce_version`. -/
def coerceVersion (version : List Char) : Option Version :=
  match parseVersion u version with
  | some v => some v
  | none =>
      let fixed := fixedVersion u version
      match parseVersion u fixed with
      | some v => some v
      | none =>
          match validVersion u fixed with
          | some (valid, rest) => parseVersion u (valid ++ '+' :: cleanRest u rest)
          | none => parseVersion u (fixed.takeWhile fun c => c == 'v' || c == '.' || u.isDecimal c)

/-- `Lookup._compare_version`: without a version there is nothing to compare. -/
def compareVersion (version1 version2 : List Char) (op : Version → Version → Bool) : Bool :=
  match coerceVersion u version1, coerceVersion u version2 with
  | some v1, some v2 => op v1 v2
  | _, _ => false

/-! ## The matched text as a version -/

variable {u} {s valid rest t : List Char}

theorem UnicodeTables.decimal_of_digit {c : Char} (h : isDigit c = true) : u.isDecimal c = true := by
  have hascii : c.toNat < 128 := by
    simp only [isDigit, Bool.and_eq_true, decide_eq_true_eq, Char.le_def, UInt32.le_iff_toNat_le] at h
    have hle : c.val.toNat ≤ 57 := h.2
    show c.val.toNat < 128
    omega
  rw [u.decimal_ascii c hascii, h]

theorem validTags_letters : ∀ word ∈ validTags, ∀ c ∈ word, isLetter c = true := by
  have hall : (validTags.all fun word => word.all isLetter) = true := by decide
  intro word hword
  exact List.all_eq_true.1 (List.all_eq_true.1 hall word hword)

/-- A tag of the pattern is one of a pre-release, a post-release or a
development release. -/
theorem validTags_read : ∀ word ∈ validTags, word ≠ [] →
    (Pep440.readTag Pep440.preTags word).map Prod.snd = some [] ∨
    (Pep440.readTag Pep440.preTags word = none ∧
      Pep440.readTag Pep440.postTags word = some ((), [])) ∨
    (Pep440.readTag Pep440.preTags word = none ∧ Pep440.readTag Pep440.postTags word = none ∧
      Pep440.readTag Pep440.devTags word = some ((), [])) := by decide

/-- What the pattern matches behind the release. -/
structure TagMatch (u : UnicodeTables) (tag rest sep word : List Char) (d : Char)
    (digits : List Char) : Prop where
  tag_eq : tag = sep ++ (word ++ d :: digits)
  sep_mem : sep ∈ [[], ['.'], ['-']]
  word_mem : word ∈ validTags
  decimal : ∀ c ∈ d :: digits, u.isDecimal c = true
  atEnd : ∀ c ∈ rest.head?, u.isDecimal c = false

theorem spanDotHyphen_spec (s : List Char) : (spanDotHyphen s).1 ∈ [[], ['.'], ['-']] ∧
    (spanDotHyphen s).1 ++ (spanDotHyphen s).2 = s := by
  unfold spanDotHyphen
  split
  · exact ⟨by simp, rfl⟩
  · exact ⟨by simp, rfl⟩
  · exact ⟨by simp, rfl⟩

theorem spanTag_spec (u : UnicodeTables) (s : List Char) :
    (spanTag u s).1 ++ (spanTag u s).2 = s ∧ ((spanTag u s).1 = [] ∨
      ∃ sep word d digits, TagMatch u (spanTag u s).1 (spanTag u s).2 sep word d digits) := by
  obtain ⟨hsep, happend⟩ := spanDotHyphen_spec s
  rcases hsplit : spanDotHyphen s with ⟨sep, body⟩
  rw [hsplit] at hsep happend
  unfold spanTag
  simp only [hsplit]
  split
  · exact ⟨rfl, .inl rfl⟩
  · rename_i word hfind
    have hfits := List.find?_some hfind
    rw [decide_eq_true_eq] at hfits
    obtain ⟨⟨tail, rfl⟩, hdigit⟩ := hfits
    rw [List.drop_left] at hdigit ⊢
    cases tail with
    | nil => cases hdigit
    | cons d tail =>
        have hd : u.isDecimal d = true := hdigit
        have htake : (d :: tail).takeWhile u.isDecimal = d :: tail.takeWhile u.isDecimal :=
          List.takeWhile_cons_of_pos hd
        constructor
        · rw [List.append_assoc, List.takeWhile_append_dropWhile, List.append_assoc]
          exact happend
        · refine .inr ⟨sep, word, d, tail.takeWhile u.isDecimal, ?_⟩
          refine ⟨by rw [htake, List.append_assoc], hsep, List.mem_of_find?_eq_some hfind, ?_, ?_⟩
          · rw [← htake]
            exact fun c hc => List.mem_takeWhile_imp hc
          · intro c hc
            have hnot := List.head?_dropWhile_not u.isDecimal (d :: tail)
            rw [hc] at hnot
            simpa using hnot

/-- Another end of the version, which does not go on with its numbers where the
rest that was found does not. -/
structure Follows (u : UnicodeTables) (rest t : List Char) : Prop where
  number : Pep440.AtNumberEnd t
  dot : ∀ d tail, t = '.' :: d :: tail → isDigit d = true →
    ∃ d' tail', rest = '.' :: d' :: tail' ∧ u.isDecimal d' = true
  bang : Pep440.AtBangDigit isDigit t → Pep440.AtBangDigit u.isDecimal rest

section

variable {tag sep word digits : List Char} {d : Char}

/-- The release ends where the tag begins, whatever follows the tag. -/
theorem releaseEnd_tag (hend : Pep440.ReleaseEnd u.isDecimal (tag ++ rest)) (ht : Follows u rest t)
    (htag : tag = [] ∨ ∃ sep word d digits, TagMatch u tag rest sep word d digits) :
    Pep440.ReleaseEnd isDigit (tag ++ t) := by
  rcases htag with rfl | ⟨sep, word, d, digits, hmatch⟩
  · rintro c tail rfl
    rw [Bool.or_eq_false_iff]
    refine ⟨ht.number c rfl, ?_⟩
    by_contra hdot
    rw [Bool.not_eq_false, Bool.and_eq_true, beq_iff_eq] at hdot
    obtain ⟨rfl, hhead⟩ := hdot
    cases tail with
    | nil => cases hhead
    | cons d tail =>
        obtain ⟨d', tail', rfl, hd'⟩ := ht.dot d tail rfl hhead
        have hfalse := hend '.' (d' :: tail') rfl
        simp [hd'] at hfalse
  · obtain ⟨rfl, hsep, hword, hdecimal, -⟩ := hmatch
    have hd : u.isDecimal d = true := hdecimal d List.mem_cons_self
    have hletter : ∀ l w, word = l :: w → isDigit l = false ∧ l ≠ '.' := by
      rintro l w rfl
      have hl : isLetter l = true := validTags_letters _ hword l List.mem_cons_self
      refine ⟨Pep440.not_isDigit_of_isLetter hl, ?_⟩
      rintro rfl
      exact absurd hl (by decide)
    intro c tail heq
    -- a digit, or a dot in front of one, would have been part of the release before
    simp only [List.mem_cons, List.not_mem_nil, or_false] at hsep
    rcases hsep with rfl | rfl | rfl
    · cases word with
      | nil =>
          have hfalse := hend d _ rfl
          rw [hd, Bool.true_or] at hfalse
          cases hfalse
      | cons l w =>
          obtain ⟨rfl, -⟩ := List.cons.inj heq
          obtain ⟨hdigit, hdot⟩ := hletter l w rfl
          simp [hdigit, hdot]
    · obtain ⟨rfl, htail⟩ := List.cons.inj heq
      cases word with
      | nil =>
          have hfalse := hend '.' _ rfl
          simp [hd] at hfalse
      | cons l w =>
          obtain ⟨hdigit, -⟩ := hletter l w rfl
          rw [← htail]
          simp [hdigit]
          decide
    · obtain ⟨rfl, -⟩ := List.cons.inj heq
      simp
      decide

/-- What is read behind the release is decided by the tag. -/
theorem readFrom_tag {v : Version} (hv : Pep440.Fresh .pre v)
    (hend : Pep440.ReleaseEnd u.isDecimal (tag ++ rest))
    (hdigits : ∀ c ∈ tag, u.isDecimal c = true → isDigit c = true)
    (htag : tag = [] ∨ ∃ sep word d digits, TagMatch u tag rest sep word d digits) :
    ∃ stage w, Pep440.Fresh stage w ∧ ∀ t, Follows u rest t →
      Pep440.readFrom .pre v (tag ++ t) = Pep440.readFrom stage w t := by
  rcases htag with rfl | ⟨sep, word, d, digits, hmatch⟩
  · exact ⟨.pre, v, hv, fun _ _ => rfl⟩
  · obtain ⟨rfl, hsep, hword, hdecimal, -⟩ := hmatch
    have hall : ∀ c ∈ d :: digits, isDigit c = true := fun c hc =>
      hdigits c (by simp only [List.mem_append]; exact .inr (.inr hc)) (hdecimal c hc)
    have hassoc : ∀ t, sep ++ (word ++ d :: digits) ++ t = sep ++ (word ++ d :: digits ++ t) :=
      fun t => List.append_assoc _ _ _
    obtain ⟨hlabel, hdev, hpost, hpre⟩ := hv
    have hnodev : v.dev = none := hdev (by decide)
    by_cases hempty : word = []
    · -- only the short form of a post-release has no tag
      subst hempty
      have hd : u.isDecimal d = true := hdecimal d List.mem_cons_self
      have hhyphen : sep = ['-'] := by
        simp only [List.mem_cons, List.not_mem_nil, or_false] at hsep
        rcases hsep with rfl | rfl | rfl
        · have hfalse := hend d _ rfl
          rw [hd, Bool.true_or] at hfalse
          cases hfalse
        · have hfalse := hend '.' _ rfl
          simp [hd] at hfalse
        · rfl
      subst hhyphen
      refine ⟨.dev, { v with post := some (Pep440.value (d :: digits)) }, ?_, ?_⟩
      · exact ⟨hlabel, fun _ => hnodev, by simp, by simp⟩
      · intro t ht
        exact Pep440.readFrom_short ⟨hlabel, hdev, hpost, hpre⟩ hall ht.number
    · have hlength : sep.length ≤ 1 := by
        simp only [List.mem_cons, List.not_mem_nil, or_false] at hsep
        rcases hsep with rfl | rfl | rfl <;> simp
      have hseparator : ∀ c ∈ sep, isSeparator c = true := by
        simp only [List.mem_cons, List.not_mem_nil, or_false] at hsep
        rcases hsep with rfl | rfl | rfl
        · exact fun c hc => absurd hc List.not_mem_nil
        · exact List.forall_mem_singleton.2 (by decide)
        · exact List.forall_mem_singleton.2 (by decide)
      have hread := fun t (ht : Follows u rest t) =>
        Pep440.readFrom_word (v := v) ⟨hlabel, hdev, hpost, hpre⟩ hempty hlength hseparator
          (validTags_letters word hword) hall ht.number
      rcases validTags_read word hword hempty with htag | ⟨hnone, htag⟩ | ⟨hnone, hnone', htag⟩
      · obtain ⟨⟨a, tail⟩, htag, rfl⟩ := Option.map_eq_some_iff.1 htag
        refine ⟨.post, { v with pre := some (a, Pep440.value (d :: digits)) }, ?_, ?_⟩
        · exact ⟨hlabel, fun _ => hnodev, fun _ => hpost (.inl rfl), by simp⟩
        · intro t ht
          rw [hassoc]
          exact (hread t ht).1 a htag
      · refine ⟨.dev, { v with post := some (Pep440.value (d :: digits)) }, ?_, ?_⟩
        · exact ⟨hlabel, fun _ => hnodev, by simp, by simp⟩
        · intro t ht
          rw [hassoc]
          exact (hread t ht).2.1 hnone htag
      · refine ⟨.label, { v with dev := some (Pep440.value (d :: digits)) }, ?_, ?_⟩
        · exact ⟨hlabel, by simp, by simp, by simp⟩
        · intro t ht
          rw [hassoc]
          exact (hread t ht).2.2 hnone hnone' htag

end

theorem spanV_append (s : List Char) : (spanV s).1 ++ (spanV s).2 = s := by
  unfold spanV
  split <;> rfl

theorem dropV_spanV {v s' x : List Char} (h : spanV s = (v, s')) (hx : ∀ c ∈ x.head?, c ≠ 'v') :
    Pep440.dropV (v ++ x) = x := by
  obtain rfl : (spanV s).1 = v := by rw [h]
  unfold spanV
  split
  · rfl
  · unfold Pep440.dropV
    split
    · rename_i heq
      exact absurd rfl (hx 'v' (by rw [← List.nil_append x, heq]; rfl))
    · rfl

theorem not_decimal {c : Char} (hascii : c.toNat < 128) (hdigit : isDigit c = false) :
    u.isDecimal c = false := by
  rw [u.decimal_ascii c hascii, hdigit]

/-- An epoch is a number with an exclamation mark. -/
theorem spanEpoch_shape {p : Char → Bool} {epoch s' : List Char} (h : spanEpoch p s = (epoch, s')) :
    epoch = [] ∨ ∃ d digits, epoch = d :: digits ++ ['!'] ∧ ∀ c ∈ d :: digits, p c = true := by
  unfold spanEpoch at h
  split at h
  · rename_i c digits d rest htake hdrop
    split at h
    · obtain ⟨rfl, -⟩ := Prod.mk.inj h
      refine .inr ⟨c, digits, rfl, ?_⟩
      rw [← htake]
      exact fun x hx => List.mem_takeWhile_imp hx
    · exact .inl (Prod.mk.inj h).1.symm
  · exact .inl (Prod.mk.inj h).1.symm

/-- The epoch of the matched text is also found by the grammar. -/
theorem spanEpoch_valid {epoch body : List Char} {d : Char}
    (h : spanEpoch u.isDecimal s = (epoch, d :: body ++ rest))
    (hascii : ∀ c ∈ epoch ++ d :: body, u.isDecimal c = true → isDigit c = true)
    (hbang : '!' ∉ d :: body) (hd : u.isDecimal d = true) (ht : Follows u rest t) :
    spanEpoch isDigit (epoch ++ (d :: body ++ t)) = (epoch, d :: body ++ t) := by
  have happend := Pep440.spanEpoch_append u.isDecimal s
  rw [h] at happend
  rcases spanEpoch_shape h with rfl | ⟨e, digits, rfl, hdecimal⟩
  · have hnone : (spanEpoch u.isDecimal (d :: body ++ rest)).1 = [] := by
      rw [show d :: body ++ rest = s from happend, h]
    show spanEpoch isDigit (d :: body ++ t) = ([], d :: body ++ t)
    exact Pep440.spanEpoch_replace hnone (fun c => UnicodeTables.decimal_of_digit)
      (not_decimal (by decide) (by decide)) hbang ht.number ht.bang
  · have hdigits : ∀ c ∈ e :: digits, isDigit c = true := fun c hc =>
      hascii c (by simp only [List.mem_append]; exact .inl (.inl hc)) (hdecimal c hc)
    have hdigit : isDigit d = true := hascii d (by simp) hd
    rw [List.append_assoc, List.singleton_append]
    exact Pep440.spanEpoch_digits hdigits (by decide) hdigit

/-- The parts of the matched text. -/
theorem validVersion_parts (h : validVersion u s = some (valid, rest)) :
    ∃ v s₁ epoch s₂ release s₃ tag, spanV s = (v, s₁) ∧ spanEpoch u.isDecimal s₁ = (epoch, s₂) ∧
      spanRelease u.isDecimal s₂ = (release, s₃) ∧ spanTag u s₃ = (tag, rest) ∧
      release.head?.any u.isDecimal = true ∧ valid = v ++ epoch ++ release ++ tag := by
  unfold validVersion at h
  simp only at h
  split at h
  · rename_i hhead
    obtain ⟨hvalid, hrest⟩ := Prod.mk.inj (Option.some.inj h)
    exact ⟨_, _, _, _, _, _, _, rfl, rfl, rfl, Prod.ext rfl hrest, hhead, hvalid.symm⟩
  · cases h

theorem validVersion_append (h : validVersion u s = some (valid, rest)) : valid ++ rest = s := by
  obtain ⟨v, s₁, epoch, s₂, release, s₃, tag, hv, hepoch, hrelease, htag, -, rfl⟩ :=
    validVersion_parts h
  have hv' := spanV_append s
  have hepoch' := Pep440.spanEpoch_append u.isDecimal s₁
  have hrelease' := Pep440.spanRelease_append u.isDecimal s₂
  have htag' := (spanTag_spec u s₃).1
  rw [hv] at hv'
  rw [hepoch] at hepoch'
  rw [hrelease] at hrelease'
  rw [htag] at htag'
  rw [← hv', ← hepoch', ← hrelease', ← htag']
  simp only [List.append_assoc]

/-- Neither the release nor the tag has an exclamation mark. -/
theorem bang_notMem {s₂ s₃ release tag : List Char}
    (hrelease : spanRelease u.isDecimal s₂ = (release, s₃)) (htag : spanTag u s₃ = (tag, rest)) :
    '!' ∉ release ++ tag := by
  have hbang : u.isDecimal '!' = false := not_decimal (by decide) (by decide)
  intro hmem
  rcases List.mem_append.1 hmem with hmem | hmem
  · have hcases : u.isDecimal '!' = true ∨ '!' = '.' := by
      rw [show release = (spanRelease u.isDecimal s₂).1 by rw [hrelease]] at hmem
      exact Pep440.mem_spanRelease hmem
    rcases hcases with hdecimal | heq
    · rw [hbang] at hdecimal
      cases hdecimal
    · exact absurd heq (by decide)
  · rcases (spanTag_spec u s₃).2 with hnil | ⟨sep, word, d, digits, hmatch⟩
    · rw [htag] at hnil
      rw [show tag = [] from hnil] at hmem
      cases hmem
    · rw [htag] at hmatch
      obtain ⟨heq, hsep, hword, hdecimal, -⟩ := hmatch
      rw [show tag = _ from heq] at hmem
      rcases List.mem_append.1 hmem with hmem | hmem
      · simp only [List.mem_cons, List.not_mem_nil, or_false] at hsep
        rcases hsep with rfl | rfl | rfl
        · cases hmem
        · exact absurd (List.mem_singleton.1 hmem) (by decide)
        · exact absurd (List.mem_singleton.1 hmem) (by decide)
      · rcases List.mem_append.1 hmem with hmem | hmem
        · exact absurd (validTags_letters word hword _ hmem) (by decide)
        · have hd := hdecimal _ hmem
          rw [hbang] at hd
          cases hd

/-- The matched text is a version, and stays its beginning with another end. -/
theorem readVersion_valid (h : validVersion u s = some (valid, rest))
    (hascii : ∀ c ∈ valid, u.isDecimal c = true → isDigit c = true) :
    ∃ stage v, Pep440.Fresh stage v ∧ ∀ t, Follows u rest t →
      Pep440.readVersion (valid ++ t) = Pep440.finish (Pep440.readFrom stage v t) := by
  obtain ⟨v, s₁, epoch, s₂, release, s₃, tag, hv, hepoch, hrelease, htag, hhead, rfl⟩ :=
    validVersion_parts h
  have hsplit := Pep440.spanRelease_append u.isDecimal s₂
  have hend := Pep440.releaseEnd_spanRelease u.isDecimal s₂
  obtain ⟨htagRest, htagMatch⟩ := spanTag_spec u s₃
  rw [hrelease] at hsplit hend
  rw [htag] at htagRest htagMatch
  simp only at hsplit hend htagRest htagMatch
  rw [← htagRest] at hend
  have hmem : ∀ c, c ∈ epoch ∨ c ∈ release ∨ c ∈ tag → u.isDecimal c = true → isDigit c = true := by
    intro c hc
    apply hascii c
    simp only [List.mem_append]
    tauto
  have hfresh : Pep440.Fresh .pre (Pep440.ofRelease epoch release) :=
    ⟨rfl, fun _ => rfl, fun _ => rfl, fun _ => rfl⟩
  obtain ⟨stage, w, hw, hread⟩ := readFrom_tag hfresh hend (fun c hc => hmem c (.inr (.inr hc))) htagMatch
  obtain ⟨d, more, hd⟩ : ∃ d more, release = d :: more := by
    cases release with
    | nil => cases hhead
    | cons d more => exact ⟨d, more, rfl⟩
  have hdecimal : u.isDecimal d = true := by
    rw [hd] at hhead
    exact hhead
  have hdigit : isDigit d = true := hmem d (.inr (.inl (by rw [hd]; simp))) hdecimal
  have hbang := bang_notMem hrelease htag
  have hs₂ : s₂ = d :: (more ++ tag) ++ rest := by
    rw [← hsplit, ← htagRest, hd]
    simp
  refine ⟨stage, w, hw, ?_⟩
  intro t ht
  -- the stages of the grammar stop where those of the pattern do
  have hV : Pep440.dropV (v ++ (epoch ++ (release ++ (tag ++ t)))) = epoch ++ (release ++ (tag ++ t)) := by
    apply dropV_spanV hv
    rintro c hc rfl
    rcases spanEpoch_shape hepoch with rfl | ⟨e, digits, rfl, hdigits⟩
    · rw [hd] at hc
      obtain rfl := Option.some.inj hc
      exact absurd hdigit (by decide)
    · have hv' := hdigits 'v' (by rw [← Option.some.inj hc]; exact List.mem_cons_self)
      rw [not_decimal (by decide) (by decide)] at hv'
      cases hv'
  have hE : spanEpoch isDigit (epoch ++ (release ++ (tag ++ t))) = (epoch, release ++ (tag ++ t)) := by
    have hbody : release ++ (tag ++ t) = d :: (more ++ tag) ++ t := by
      rw [hd]
      simp
    rw [hbody]
    rw [hs₂] at hepoch
    refine spanEpoch_valid hepoch ?_ ?_ hdecimal ht
    · intro c hc
      apply hmem c
      rw [hd]
      simp only [List.mem_append, List.mem_cons] at hc ⊢
      tauto
    · rw [hd] at hbang
      exact hbang
  have hR : spanRelease isDigit (release ++ (tag ++ t)) = (release, tag ++ t) :=
    Pep440.spanRelease_replace hrelease (fun c hc => hmem c (.inr (.inl hc)))
      (releaseEnd_tag hend ht htagMatch)
  have hhead' : (release ++ (tag ++ t)).head?.any isDigit = true := by
    rw [hd]
    exact hdigit
  calc Pep440.readVersion (v ++ epoch ++ release ++ tag ++ t)
      = Pep440.readVersion (v ++ (epoch ++ (release ++ (tag ++ t)))) := by
        simp only [List.append_assoc]
    _ = Pep440.readRelease epoch (release ++ (tag ++ t)) := by rw [Pep440.readVersion, hV, hE]
    _ = Pep440.finish (Pep440.readFrom .pre (Pep440.ofRelease epoch release) (tag ++ t)) := by
        rw [Pep440.readRelease, if_pos hhead', hR]
    _ = Pep440.finish (Pep440.readFrom stage w t) := by rw [hread t ht]

/-! ## Blanks and upper case around the matched text -/

theorem range_of_isVersionChar {c : Char} (h : Pep440.isVersionChar c = true) :
    33 ≤ c.toNat ∧ c.toNat < 128 ∧ ¬ (65 ≤ c.toNat ∧ c.toNat ≤ 90) := by
  simp only [Pep440.isVersionChar, Bool.or_eq_true, beq_iff_eq] at h
  rcases h with (((hdigit | hletter) | hsep) | rfl) | rfl
  · simp only [isDigit, Bool.and_eq_true, decide_eq_true_eq] at hdigit
    have hlow : 48 ≤ c.toNat := hdigit.1
    have hhigh : c.toNat ≤ 57 := hdigit.2
    omega
  · simp only [isLetter, Bool.and_eq_true, decide_eq_true_eq] at hletter
    have hlow : 97 ≤ c.toNat := hletter.1
    have hhigh : c.toNat ≤ 122 := hletter.2
    omega
  · simp only [isSeparator, Bool.or_eq_true, beq_iff_eq] at hsep
    rcases hsep with (rfl | rfl) | rfl <;> decide
  · decide
  · decide

theorem toLower_of_range {c : Char} (h : ¬ (65 ≤ c.toNat ∧ c.toNat ≤ 90)) : c.toLower = c := by
  unfold Char.toLower
  rw [dif_neg]
  intro hupper
  exact h ⟨hupper.1, hupper.2⟩

/-- Only letters come out of upper case. -/
theorem eq_of_toLower {a b : Char} (h : a.toLower = b) (hb : isLetter b = false) : a = b := by
  by_cases hupper : 65 ≤ a.toNat ∧ a.toNat ≤ 90
  · have hletter : isLetter a.toLower = true := by
      have hall : ∀ n : Fin 26, isLetter (Char.ofNat (65 + n)).toLower = true := by decide
      have hn := hall ⟨a.toNat - 65, by omega⟩
      rwa [Nat.add_sub_cancel' hupper.1, Char.ofNat_toNat] at hn
    rw [h, hb] at hletter
    cases hletter
  · rw [← h, toLower_of_range hupper]

theorem toNat_of_decimal {c : Char} (h : u.isDecimal c = true) :
    isDigit c = true ∨ 128 ≤ c.toNat := by
  by_cases hascii : c.toNat < 128
  · rw [u.decimal_ascii c hascii] at h
    exact .inl h
  · exact .inr (Nat.le_of_not_lt hascii)

/-- The matched text consists of decimals and of characters of a version. -/
theorem mem_valid (h : validVersion u s = some (valid, rest)) {c : Char} (hc : c ∈ valid) :
    u.isDecimal c = true ∨ Pep440.isVersionChar c = true := by
  obtain ⟨v, s₁, epoch, s₂, release, s₃, tag, hv, hepoch, hrelease, htag, -, rfl⟩ :=
    validVersion_parts h
  simp only [List.mem_append] at hc
  rcases hc with ((hc | hc) | hc) | hc
  · unfold spanV at hv
    split at hv
    · obtain ⟨rfl, -⟩ := Prod.mk.inj hv
      rw [List.mem_singleton.1 hc]
      exact .inr (by decide)
    · obtain ⟨rfl, -⟩ := Prod.mk.inj hv
      cases hc
  · rw [show epoch = (spanEpoch u.isDecimal s₁).1 by rw [hepoch]] at hc
    exact (Pep440.mem_spanEpoch hc).imp_right fun heq => by rw [heq]; decide
  · rw [show release = (spanRelease u.isDecimal s₂).1 by rw [hrelease]] at hc
    exact (Pep440.mem_spanRelease hc).imp_right fun heq => by rw [heq]; decide
  · have hspec := (spanTag_spec u s₃).2
    rw [htag] at hspec
    rcases hspec with rfl | ⟨sep, word, d, digits, hmatch⟩
    · cases hc
    · obtain ⟨rfl, hsep, hword, hdecimal, -⟩ := hmatch
      simp only [List.mem_append] at hc
      rcases hc with hc | hc | hc
      · simp only [List.mem_cons, List.not_mem_nil, or_false] at hsep
        rcases hsep with rfl | rfl | rfl
        · cases hc
        · rw [List.mem_singleton.1 hc]
          exact .inr (by decide)
        · rw [List.mem_singleton.1 hc]
          exact .inr (by decide)
      · exact .inr (Pep440.isVersionChar_of_isLetter (validTags_letters word hword c hc))
      · exact .inl (hdecimal c hc)

theorem valid_ne_nil (h : validVersion u s = some (valid, rest)) : valid ≠ [] := by
  obtain ⟨v, s₁, epoch, s₂, release, s₃, tag, -, -, -, -, hhead, rfl⟩ := validVersion_parts h
  rintro hnil
  simp only [List.append_eq_nil_iff] at hnil
  rw [hnil.1.2] at hhead
  cases hhead

/-- The rest does not go on with a digit. -/
theorem rest_head (h : validVersion u s = some (valid, rest)) :
    ∀ c ∈ rest.head?, u.isDecimal c = false := by
  obtain ⟨v, s₁, epoch, s₂, release, s₃, tag, -, -, hrelease, htag, -, rfl⟩ := validVersion_parts h
  have hend := Pep440.releaseEnd_spanRelease u.isDecimal s₂
  obtain ⟨happend, hspec⟩ := spanTag_spec u s₃
  rw [hrelease] at hend
  rw [htag] at happend hspec
  rcases hspec with rfl | ⟨sep, word, d, digits, hmatch⟩
  · obtain rfl : rest = s₃ := happend
    intro c hc
    cases rest with
    | nil => cases hc
    | cons d tail =>
        obtain rfl := Option.some.inj hc
        exact (Bool.or_eq_false_iff.1 (hend d tail rfl)).1
  · exact hmatch.atEnd

theorem not_space {c : Char} (h : u.isDecimal c = true ∨ Pep440.isVersionChar c = true) :
    u.isSpace c = false := by
  rcases h with hdecimal | hchar
  · by_contra hspace
    rw [Bool.not_eq_false] at hspace
    have hword := u.decimal_word c hdecimal
    rw [u.space_word c hspace] at hword
    cases hword
  · obtain ⟨hlow, hhigh, -⟩ := range_of_isVersionChar hchar
    rw [u.space_ascii c hhigh]
    have hblank : c ≠ ' ' := by
      rintro rfl
      exact absurd hlow (by decide)
    simp only [Bool.or_eq_false_iff, beq_eq_false_iff_ne, Bool.and_eq_false_iff,
      decide_eq_false_iff_not]
    exact ⟨⟨hblank, by omega⟩, by omega⟩

theorem toLower_of_mem {c : Char} (h : u.isDecimal c = true ∨ Pep440.isVersionChar c = true) :
    c.toLower = c := by
  apply toLower_of_range
  rcases h with hdecimal | hchar
  · rcases toNat_of_decimal hdecimal with hdigit | hlarge
    · exact (range_of_isVersionChar (Pep440.isVersionChar_of_isDigit hdigit)).2.2
    · omega
  · exact (range_of_isVersionChar hchar).2.2

theorem rstrip_append {p : Char → Bool} {a b : List Char} (h : ∀ c ∈ a, p c = false) :
    rstrip p (a ++ b) = a ++ rstrip p b := by
  unfold rstrip
  rw [List.reverse_append, List.dropWhile_append]
  split
  · rename_i hempty
    have hnil : b.reverse.dropWhile p = [] := List.isEmpty_iff.1 hempty
    have hself : a.reverse.dropWhile p = a.reverse := by
      cases hrev : a.reverse with
      | nil => rfl
      | cons c l =>
          have hc := h c (List.mem_reverse.1 (by rw [hrev]; exact List.mem_cons_self))
          rw [List.dropWhile_cons_of_neg (by rw [hc]; decide)]
    rw [hself, hnil, List.reverse_reverse, List.reverse_nil, List.append_nil]
  · rw [List.reverse_append, List.reverse_reverse]

/-- Around the matched text nothing is stripped or changed. -/
theorem parseVersion_valid (h : validVersion u s = some (valid, rest)) (t : List Char) :
    parseVersion u (valid ++ t) =
      Pep440.readVersion (valid ++ (rstrip u.isSpace t).map Char.toLower) := by
  have hall : ∀ c ∈ valid, u.isSpace c = false := fun c hc => not_space (mem_valid h hc)
  have hlower : valid.map Char.toLower = valid := by
    calc valid.map Char.toLower = valid.map id :=
          List.map_congr_left fun c hc => toLower_of_mem (mem_valid h hc)
      _ = valid := List.map_id valid
  obtain ⟨c, tail, hcons⟩ := List.exists_cons_of_ne_nil (valid_ne_nil h)
  have hdrop : (valid ++ t).dropWhile u.isSpace = valid ++ t := by
    rw [hcons, List.cons_append, List.dropWhile_cons_of_neg]
    rw [hall c (by rw [hcons]; exact List.mem_cons_self)]
    decide
  rw [parseVersion, hdrop, rstrip_append hall, List.map_append, hlower]

theorem rstrip_isPrefix (p : Char → Bool) (s : List Char) : rstrip p s <+: s := by
  have hsuffix := List.reverse_prefix.2 (List.dropWhile_suffix p (l := s.reverse))
  rwa [List.reverse_reverse] at hsuffix

/-- Without its blanks and in lower case the rest follows the matched text. -/
theorem follows_rest (h : validVersion u s = some (valid, rest)) :
    Follows u rest ((rstrip u.isSpace rest).map Char.toLower) := by
  obtain ⟨tail, htail⟩ := rstrip_isPrefix u.isSpace rest
  have hlower : ∀ {a b : Char}, a.toLower = b → isLetter b = false → a = b := eq_of_toLower
  refine ⟨?_, ?_, ?_⟩
  · intro c hc
    cases hstrip : rstrip u.isSpace rest with
    | nil => simp [hstrip] at hc
    | cons a l =>
        rw [hstrip] at hc htail
        obtain rfl := Option.some.inj hc
        have ha := rest_head h a (by rw [← htail]; rfl)
        by_contra hdigit
        rw [Bool.not_eq_false] at hdigit
        have heq := hlower rfl (Pep440.not_isLetter_of_isDigit hdigit)
        rw [← heq] at hdigit
        rw [UnicodeTables.decimal_of_digit hdigit] at ha
        cases ha
  · intro d l heq hd
    obtain ⟨a, l', hstrip, hdot, hl⟩ := List.map_eq_cons_iff.1 heq
    obtain ⟨b, l'', rfl, hb, -⟩ := List.map_eq_cons_iff.1 hl
    obtain rfl := hlower hdot (by decide)
    obtain rfl := hlower hb (Pep440.not_isLetter_of_isDigit hd)
    rw [hstrip] at htail
    exact ⟨b, l'' ++ tail, htail.symm, UnicodeTables.decimal_of_digit hd⟩
  · rintro ⟨d, l, heq, hd⟩
    obtain ⟨a, l', hstrip, hbang, hl⟩ := List.map_eq_cons_iff.1 heq
    obtain ⟨b, l'', rfl, hb, -⟩ := List.map_eq_cons_iff.1 hl
    obtain rfl := hlower hbang (by decide)
    obtain rfl := hlower hb (Pep440.not_isLetter_of_isDigit hd)
    rw [hstrip] at htail
    exact ⟨b, l'' ++ tail, htail.symm, UnicodeTables.decimal_of_digit hd⟩

theorem follows_of_atLabel (ht : Pep440.AtLabel t) : Follows u rest t := by
  refine ⟨?_, ?_, ?_⟩
  · intro c hc
    rw [ht c hc]
    decide
  · rintro d l rfl -
    exact absurd (ht '.' rfl) (by decide)
  · rintro ⟨d, l, rfl, -⟩
    exact absurd (ht '!' rfl) (by decide)

/-- Only a matched text with the ten digits is accepted by the grammar. -/
theorem digits_of_parseVersion (h : validVersion u s = some (valid, rest)) {w : Version}
    (hw : parseVersion u (valid ++ t) = some w) :
    ∀ c ∈ valid, u.isDecimal c = true → isDigit c = true := by
  intro c hc hdecimal
  rw [parseVersion_valid h] at hw
  have hchar := Pep440.isVersionChar_of_readVersion hw (List.mem_append_left _ hc)
  rw [← u.decimal_ascii c (range_of_isVersionChar hchar).2.1]
  exact hdecimal

/-! ## When the version is kept -/

/-- What `_coerce_version` is meant to do with a version that starts with a
valid one: it returns a version with the same public part. -/
def Keeps (u : UnicodeTables) (version valid : List Char) : Prop :=
  ∃ v p, coerceVersion u version = some v ∧ parseVersion u valid = some p ∧
    v.publicPart = p.publicPart

/-- What may follow the valid version. If the rewritten text is a version as a
whole, only a local label; otherwise the cleaned rest has to be a local label,
and the digits in front of it have to be those of the grammar. -/
def RestFits (u : UnicodeTables) (valid rest : List Char) : Prop :=
  if (parseVersion u (valid ++ rest)).isSome then Pep440.AtLabel (rstrip u.isSpace rest)
  else (∀ c ∈ valid, u.isDecimal c = true → isDigit c = true) ∧
    Pep440.IsLocal ((cleanRest u rest).map Char.toLower)

theorem atLabel_toLower (s : List Char) : Pep440.AtLabel (s.map Char.toLower) ↔ Pep440.AtLabel s := by
  cases s with
  | nil => exact Iff.rfl
  | cons c rest =>
      have hiff : c.toLower = '+' ↔ c = '+' :=
        ⟨fun h => eq_of_toLower h (by decide), fun h => by rw [h]; decide⟩
      simp only [Pep440.AtLabel, List.map_cons, List.head?_cons, Option.mem_def, Option.some.injEq,
        forall_eq', hiff]

theorem rstrip_cleanRest (rest : List Char) :
    rstrip u.isSpace ('+' :: cleanRest u rest) = '+' :: cleanRest u rest := by
  have hall : ∀ c ∈ '+' :: cleanRest u rest, u.isSpace c = false := by
    intro c hc
    rcases List.mem_cons.1 hc with rfl | hmem
    · exact not_space (.inr (by decide))
    · have hfilter := (List.mem_filter.1 ((List.dropWhile_suffix _).mem hmem)).2
      simp only [Bool.or_eq_true, beq_iff_eq] at hfilter
      rcases hfilter with (hword | rfl) | rfl
      · by_contra hspace
        rw [Bool.not_eq_false] at hspace
        rw [u.space_word c hspace] at hword
        cases hword
      · exact not_space (.inr (by decide))
      · exact not_space (.inr (by decide))
  have happend := rstrip_append (b := []) hall
  rwa [List.append_nil, show rstrip u.isSpace [] = [] from rfl, List.append_nil] at happend

/-- The second and the third attempt. -/
theorem coerceVersion_eq {version : List Char} (hinvalid : parseVersion u version = none)
    (hmatch : validVersion u (fixedVersion u version) = some (valid, rest)) :
    coerceVersion u version = (parseVersion u (valid ++ rest)).or
      (parseVersion u (valid ++ '+' :: cleanRest u rest)) := by
  have hfixed := validVersion_append hmatch
  rw [← hfixed] at hmatch
  unfold coerceVersion
  simp only [hinvalid, ← hfixed, hmatch]
  cases parseVersion u (valid ++ rest) with
  | none => rfl
  | some v => rfl

/-- The valid version itself, as the grammar reads it. -/
theorem parseVersion_self (hmatch : validVersion u s = some (valid, rest)) {stage : Pep440.Stage}
    {v : Version} (hv : Pep440.Fresh stage v) (hread : ∀ t, Follows u rest t →
      Pep440.readVersion (valid ++ t) = Pep440.finish (Pep440.readFrom stage v t)) :
    parseVersion u valid = some v := by
  have hnil := parseVersion_valid hmatch []
  have hlabel : Pep440.AtLabel [] := by
    intro c hc
    cases hc
  rw [List.append_nil] at hnil
  rw [hnil]
  show Pep440.readVersion (valid ++ []) = some v
  rw [hread [] (follows_of_atLabel hlabel), Pep440.readFrom_of_atLabel hv hlabel]
  show some { v with localLabel := none } = some v
  rw [← hv.1]

/-- With a label, the valid version is kept, if it is a label. -/
theorem parseVersion_label (hmatch : validVersion u s = some (valid, rest)) {stage : Pep440.Stage}
    {v : Version} (hv : Pep440.Fresh stage v) (hread : ∀ t, Follows u rest t →
      Pep440.readVersion (valid ++ t) = Pep440.finish (Pep440.readFrom stage v t)) :
    ∃ label, parseVersion u (valid ++ '+' :: cleanRest u rest) =
      if Pep440.IsLocal ((cleanRest u rest).map Char.toLower) then
        some { v with localLabel := label }
      else none := by
  have hlabel : Pep440.AtLabel ('+' :: (cleanRest u rest).map Char.toLower) := by
    rintro c ⟨⟩
    rfl
  rw [parseVersion_valid hmatch, rstrip_cleanRest, List.map_cons, show '+'.toLower = '+' from rfl,
    hread _ (follows_of_atLabel hlabel), Pep440.readFrom_of_atLabel hv hlabel]
  unfold Pep440.finish Pep440.readLocal
  refine ⟨some ((((cleanRest u rest).map Char.toLower).splitOnP isSeparator).map Pep440.localPart), ?_⟩
  by_cases hlocal : Pep440.IsLocal ((cleanRest u rest).map Char.toLower)
  · simp only [if_pos hlocal, Option.map_some]
  · simp only [if_neg hlocal, Option.map_none]

/-- A version that starts with a valid one is kept if and only if the rest is a
local label after it has been cleaned. -/
theorem coerceVersion_keeps_iff {version : List Char} (hinvalid : parseVersion u version = none)
    (hmatch : validVersion u (fixedVersion u version) = some (valid, rest)) :
    Keeps u version valid ↔ RestFits u valid rest := by
  unfold Keeps RestFits
  rw [coerceVersion_eq hinvalid hmatch]
  cases hparse : parseVersion u (valid ++ rest) with
  | some w =>
      -- the rewritten text is a version, of which the valid one is the beginning
      obtain ⟨stage, v, hv, hread⟩ := readVersion_valid hmatch (digits_of_parseVersion hmatch hparse)
      have hself := parseVersion_self hmatch hv hread
      have hpublic : v.publicPart = v := by
        unfold Version.publicPart
        rw [← hv.1]
      rw [parseVersion_valid hmatch, hread _ (follows_rest hmatch)] at hparse
      have hiff := Pep440.publicPart_finish hv hparse
      rw [atLabel_toLower] at hiff
      rw [hself, if_pos (by rfl), ← hiff]
      constructor
      · rintro ⟨w', p, hw, hp, heq⟩
        obtain rfl := Option.some.inj hw
        obtain rfl := Option.some.inj hp
        rw [heq, hpublic]
      · intro heq
        exact ⟨w, v, rfl, rfl, by rw [heq, hpublic]⟩
  | none =>
      rw [if_neg (by simp), Option.none_or]
      constructor
      · rintro ⟨w, p, hw, hp, heq⟩
        have hdigits := digits_of_parseVersion hmatch hw
        obtain ⟨stage, v, hv, hread⟩ := readVersion_valid hmatch hdigits
        obtain ⟨label, hlabel⟩ := parseVersion_label hmatch hv hread
        rw [hlabel] at hw
        refine ⟨hdigits, ?_⟩
        by_contra hlocal
        rw [if_neg hlocal] at hw
        cases hw
      · rintro ⟨hdigits, hlocal⟩
        obtain ⟨stage, v, hv, hread⟩ := readVersion_valid hmatch hdigits
        have hself := parseVersion_self hmatch hv hread
        obtain ⟨label, hlabel⟩ := parseVersion_label hmatch hv hread
        rw [if_pos hlocal] at hlabel
        exact ⟨_, v, hlabel, hself, rfl⟩

/-! ## A tilde at the end -/

def asciiWord (c : Char) : Bool := isDigit c || isLetter c.toLower || c == '_'

def asciiSpace (c : Char) : Bool :=
  c == ' ' || (9 ≤ c.toNat && c.toNat ≤ 13) || (28 ≤ c.toNat && c.toNat ≤ 31)

theorem asciiWord_of_isDigit (c : Char) (h : isDigit c = true) : asciiWord c = true := by
  simp [asciiWord, h]

theorem asciiWord_of_asciiSpace (c : Char) (h : asciiSpace c = true) : asciiWord c = false := by
  have hsmall : c.toNat ≤ 32 := by
    simp only [asciiSpace, Bool.or_eq_true, beq_iff_eq, Bool.and_eq_true, decide_eq_true_eq] at h
    rcases h with (rfl | hrange) | hrange
    · decide
    · omega
    · omega
  have hlower : c.toLower = c := toLower_of_range (by omega)
  have hword : ∀ p : Char → Bool, (∀ d, p d = true → Pep440.isVersionChar d = true) → p c = false := by
    intro p hp
    by_contra htrue
    have hrange := range_of_isVersionChar (hp c (Bool.eq_true_of_not_eq_false htrue))
    omega
  have hunderscore : c ≠ '_' := by
    rintro rfl
    exact absurd hsmall (by decide)
  unfold asciiWord
  rw [hlower, hword isDigit fun _ => Pep440.isVersionChar_of_isDigit,
    hword isLetter fun _ => Pep440.isVersionChar_of_isLetter]
  simpa using hunderscore

/-- The character classes on ASCII texts. -/
def asciiTables : UnicodeTables where
  lower := fun s => s.map Char.toLower
  isDecimal := isDigit
  isWord := asciiWord
  isSpace := asciiSpace
  decimal_ascii := fun _ _ => rfl
  decimal_word := asciiWord_of_isDigit
  space_word := asciiWord_of_asciiSpace
  space_ascii := fun _ _ => rfl
  word_ascii := fun _ _ => rfl

/-- A tilde at the end leaves an empty label, which is none. -/
theorem trailingTilde_not_kept :
    parseVersion asciiTables "1.0~".toList = none ∧
    validVersion asciiTables (fixedVersion asciiTables "1.0~".toList) =
      some ("1.0".toList, "-".toList) ∧
    coerceVersion asciiTables "1.0~".toList = none ∧
    ¬ Keeps asciiTables "1.0~".toList "1.0".toList := by
  have hcoerce : coerceVersion asciiTables "1.0~".toList = none := by decide +kernel
  refine ⟨by decide +kernel, by decide +kernel, hcoerce, ?_⟩
  rintro ⟨v, p, hv, -, -⟩
  rw [hcoerce] at hv
  cases hv

/-- A revision of a package becomes a label. -/
theorem revision_keeps_iff :
    Keeps asciiTables "2:2.78-foo".toList "2!2.78".toList ↔
      RestFits asciiTables "2!2.78".toList "-foo".toList :=
  coerceVersion_keeps_iff (by decide +kernel) (by decide +kernel)

end CveLookup

end FactCore
