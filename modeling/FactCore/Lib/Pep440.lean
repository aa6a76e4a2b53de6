import Mathlib.Data.Char
import Mathlib.Data.List.Lex
import Mathlib.Data.List.TakeWhile
import Mathlib.Data.Prod.Lex
import Mathlib.Order.WithBot

/-! # Version numbers after PEP 440

The grammar of version numbers and their order, as PEP 440 gives them in its
appendix: an epoch, a release, and optional pre-, post- and development
segments, followed by a local label. The text is read in one pass; each segment
takes as much as it can, and what a segment leaves is read by the next.
-/

namespace Pep440

/-! ## Characters -/

def isDigit (c : Char) : Bool := '0' ≤ c && c ≤ '9'

def isLetter (c : Char) : Bool := 'a' ≤ c && c ≤ 'z'

/-- The separators of a spelling, `[-_.]`. -/
def isSeparator (c : Char) : Bool := c == '-' || c == '_' || c == '.'

/-- The number that decimal digits stand for. -/
def value (digits : List Char) : Nat :=
  digits.foldl (fun n c => 10 * n + (c.toNat - '0'.toNat)) 0

/-! ## Versions -/

/-- The normal forms of the tags of pre-releases, in their order. -/
inductive PreTag where
  | alpha
  | beta
  | rc
deriving DecidableEq

def PreTag.rank : PreTag → Nat
  | .alpha => 0
  | .beta => 1
  | .rc => 2

/-- A part of a local label: a number if it consists of digits. -/
inductive LocalPart where
  | number (n : Nat)
  | word (w : List Char)
deriving DecidableEq

structure Version where
  epoch : Nat
  release : List Nat
  pre : Option (PreTag × Nat)
  post : Option Nat
  dev : Option Nat
  localLabel : Option (List LocalPart)
deriving DecidableEq

namespace Version

/-- The version without its local label. -/
def publicPart (v : Version) : Version := { v with localLabel := none }

/-- Trailing zeros of the release do not count. -/
def trimmedRelease (v : Version) : List Nat := (v.release.reverse.dropWhile (· == 0)).reverse

/-- A development release without other segments comes before all pre-releases,
a release without a pre-release segment after them. -/
def preKey (v : Version) : WithBot (WithTop (Lex (Nat × Nat))) :=
  match v.pre with
  | some (tag, n) => ↑(↑(toLex (tag.rank, n)) : WithTop (Lex (Nat × Nat)))
  | none => if v.post = none ∧ v.dev ≠ none then ⊥ else ↑(⊤ : WithTop (Lex (Nat × Nat)))

def postKey (v : Version) : WithBot Nat := v.post

def devKey (v : Version) : WithTop Nat := v.dev

/-- Numbers come after words, and after nothing. -/
def LocalPart.key : LocalPart → Lex (WithBot Nat × List Char)
  | .number n => toLex (WithBot.some n, [])
  | .word w => toLex (⊥, w)

def localKey (v : Version) : WithBot (List (Lex (WithBot Nat × List Char))) :=
  v.localLabel.map fun parts => parts.map LocalPart.key

/-- What versions are compared by. -/
def key (v : Version) :
    Lex (Nat × Lex (List Nat × Lex (WithBot (WithTop (Lex (Nat × Nat))) × Lex (WithBot Nat ×
      Lex (WithTop Nat × WithBot (List (Lex (WithBot Nat × List Char)))))))) :=
  toLex (v.epoch, toLex (v.trimmedRelease, toLex (v.preKey, toLex (v.postKey,
    toLex (v.devKey, v.localKey)))))

instance : LE Version := ⟨fun v w => v.key ≤ w.key⟩

instance : LT Version := ⟨fun v w => v.key < w.key⟩

instance (v w : Version) : Decidable (v ≤ w) := inferInstanceAs (Decidable (v.key ≤ w.key))

instance (v w : Version) : Decidable (v < w) := inferInstanceAs (Decidable (v.key < w.key))

end Version

/-! ## Reading a version -/

/-- `v?` -/
def dropV : List Char → List Char
  | 'v' :: rest => rest
  | s => s

/-- Digits and an exclamation mark in front of another digit, `(\d+!)?`. -/
def spanEpoch (isDigit : Char → Bool) (s : List Char) : List Char × List Char :=
  match s.takeWhile isDigit, s.dropWhile isDigit with
  | c :: digits, '!' :: d :: rest =>
      if isDigit d then (c :: digits ++ ['!'], d :: rest) else ([], s)
  | _, _ => ([], s)

/-- Digits, and dots that digits follow; at a digit this is `\d+(\.\d+)*`. -/
def spanRelease (isDigit : Char → Bool) : List Char → List Char × List Char
  | [] => ([], [])
  | c :: rest =>
      if isDigit c || (c == '.' && rest.head?.any isDigit) then
        (c :: (spanRelease isDigit rest).1, (spanRelease isDigit rest).2)
      else ([], c :: rest)

/-- `[-_.]?` -/
def dropSeparator : List Char → List Char
  | [] => []
  | c :: rest => if isSeparator c then rest else c :: rest

variable {α : Type*}

/-- One of several tags; the first that fits is taken. -/
def readTag (tags : List (List Char × α)) (s : List Char) : Option (α × List Char) :=
  tags.findSome? fun tag => if tag.1 <+: s then some (tag.2, s.drop tag.1.length) else none

/-- A segment `[-_.]?tag[-_.]?[0-9]*`, if there is one. -/
def readSegment (tags : List (List Char × α)) (s : List Char) : Option (α × Nat) × List Char :=
  match readTag tags (dropSeparator s) with
  | none => (none, s)
  | some (a, rest) =>
      (some (a, value ((dropSeparator rest).takeWhile isDigit)), (dropSeparator rest).dropWhile isDigit)

def preTags : List (List Char × PreTag) :=
  [("alpha".toList, .alpha), ("a".toList, .alpha), ("beta".toList, .beta), ("b".toList, .beta),
    ("preview".toList, .rc), ("pre".toList, .rc), ("c".toList, .rc), ("rc".toList, .rc)]

def postTags : List (List Char × Unit) :=
  [("post".toList, ()), ("rev".toList, ()), ("r".toList, ())]

def devTags : List (List Char × Unit) := [("dev".toList, ())]

/-- A post-release, also in the short form `-N`. -/
def readPost (s : List Char) : Option Nat × List Char :=
  match s with
  | '-' :: c :: rest =>
      if isDigit c then
        (some (value ((c :: rest).takeWhile isDigit)), (c :: rest).dropWhile isDigit)
      else ((readSegment postTags s).1.map Prod.snd, (readSegment postTags s).2)
  | _ => ((readSegment postTags s).1.map Prod.snd, (readSegment postTags s).2)

/-- `[a-z0-9]+([-_.][a-z0-9]+)*` -/
def IsLocal (s : List Char) : Prop :=
  ∀ part ∈ s.splitOnP isSeparator, part ≠ [] ∧ ∀ c ∈ part, isDigit c || isLetter c

instance (s : List Char) : Decidable (IsLocal s) := inferInstanceAs (Decidable (∀ _ ∈ _, _))

def localPart (part : List Char) : LocalPart :=
  if part.all isDigit then .number (value part) else .word part

/-- The end of a version: nothing, or a local label. -/
def readLocal (s : List Char) : Option (Option (List LocalPart)) :=
  match s with
  | [] => some none
  | '+' :: rest =>
      if IsLocal rest then some (some ((rest.splitOnP isSeparator).map localPart)) else none
  | _ => none

/-- The segments behind the release that are still to be read. -/
inductive Stage where
  | pre
  | post
  | dev
  | label
deriving DecidableEq

def readFromDev (v : Version) (s : List Char) : Version × List Char :=
  ({ v with dev := (readSegment devTags s).1.map Prod.snd }, (readSegment devTags s).2)

def readFromPost (v : Version) (s : List Char) : Version × List Char :=
  readFromDev { v with post := (readPost s).1 } (readPost s).2

def readFromPre (v : Version) (s : List Char) : Version × List Char :=
  readFromPost { v with pre := (readSegment preTags s).1 } (readSegment preTags s).2

/-- Read the segments that are still to come, all others being known, and what
is left behind them. -/
def readFrom : Stage → Version → List Char → Version × List Char
  | .pre => readFromPre
  | .post => readFromPost
  | .dev => readFromDev
  | .label => Prod.mk

/-- A version up to its label, and the text behind it. -/
def finish (r : Version × List Char) : Option Version :=
  (readLocal r.2).map fun label => { r.1 with localLabel := label }

/-- A version that consists of epoch and release. -/
def ofRelease (epoch release : List Char) : Version where
  epoch := value epoch.dropLast
  release := (release.splitOn '.').map value
  pre := none
  post := none
  dev := none
  localLabel := none

/-- Read release and segments. -/
def readRelease (epoch s : List Char) : Option Version :=
  if s.head?.any isDigit then
    finish (readFrom .pre (ofRelease epoch (spanRelease isDigit s).1) (spanRelease isDigit s).2)
  else none

/-- Read a version in lower case without surrounding blanks. -/
def readVersion (s : List Char) : Option Version :=
  readRelease (spanEpoch isDigit (dropV s)).1 (spanEpoch isDigit (dropV s)).2

/-! ## Reading one segment -/

theorem not_isLetter_of_isDigit {c : Char} (h : isDigit c = true) : isLetter c = false := by
  simp only [isDigit, isLetter, Bool.and_eq_true, Bool.and_eq_false_iff, decide_eq_true_eq,
    decide_eq_false_iff_not, Char.le_def, UInt32.le_iff_toNat_le] at h ⊢
  simp at h ⊢
  omega

theorem not_isSeparator_of_isDigit {c : Char} (h : isDigit c = true) : isSeparator c = false := by
  simp only [isSeparator, Bool.or_eq_false_iff, beq_eq_false_iff_ne]
  refine ⟨⟨?_, ?_⟩, ?_⟩ <;> · rintro rfl; revert h; decide

/-- The text goes on with something that is not part of a word. -/
def AtWordEnd (s : List Char) : Prop := ∀ c ∈ s.head?, isLetter c = false

/-- The text goes on with something that is not part of a number. -/
def AtNumberEnd (s : List Char) : Prop := ∀ c ∈ s.head?, isDigit c = false

/-- The text goes on with something that is not a separator. -/
def AtPart (s : List Char) : Prop := ∀ c ∈ s.head?, isSeparator c = false

theorem isPrefix_append_iff {t word rest : List Char} (ht : ∀ c ∈ t, isLetter c = true)
    (hrest : AtWordEnd rest) : t <+: word ++ rest ↔ t <+: word := by
  induction word generalizing t with
  | nil =>
      cases t with
      | nil => exact iff_of_true List.nil_prefix List.nil_prefix
      | cons c t =>
          refine iff_of_false ?_ (by simp)
          rintro ⟨tail, rfl⟩
          have hletter := ht c List.mem_cons_self
          rw [hrest c rfl] at hletter
          cases hletter
  | cons d word ih =>
      cases t with
      | nil => exact iff_of_true List.nil_prefix List.nil_prefix
      | cons c t =>
          rw [List.cons_append, List.cons_prefix_cons, List.cons_prefix_cons,
            ih fun c hc => ht c (List.mem_cons_of_mem _ hc)]

/-- Whether a word is a tag does not depend on what follows the word. -/
theorem readTag_append {tags : List (List Char × α)} {word rest : List Char}
    (htags : ∀ tag ∈ tags, ∀ c ∈ tag.1, isLetter c = true) (hrest : AtWordEnd rest) :
    readTag tags (word ++ rest) = (readTag tags word).map fun r => (r.1, r.2 ++ rest) := by
  induction tags with
  | nil => rfl
  | cons tag tags ih =>
      have hiff : tag.1 <+: word ++ rest ↔ tag.1 <+: word :=
        isPrefix_append_iff (htags tag List.mem_cons_self) hrest
      unfold readTag at ih ⊢
      rw [List.findSome?_cons, List.findSome?_cons]
      by_cases h : tag.1 <+: word
      · rw [if_pos h, if_pos (hiff.2 h)]
        show some _ = some _
        rw [List.drop_append_of_le_length h.length_le]
      · rw [if_neg h, if_neg (mt hiff.1 h)]
        exact ih fun tag htag => htags tag (List.mem_cons_of_mem _ htag)

/-- A table of tags, checked entry by entry. -/
theorem words_of_all {tags : List (List Char × α)}
    (h : (tags.all fun tag => !tag.1.isEmpty && tag.1.all isLetter) = true) :
    ∀ tag ∈ tags, tag.1 ≠ [] ∧ ∀ c ∈ tag.1, isLetter c = true := by
  intro tag htag
  have hword := List.all_eq_true.1 h tag htag
  rw [Bool.and_eq_true, Bool.not_eq_true', List.isEmpty_eq_false_iff] at hword
  exact ⟨hword.1, List.all_eq_true.1 hword.2⟩

theorem words_preTags : ∀ tag ∈ preTags, tag.1 ≠ [] ∧ ∀ c ∈ tag.1, isLetter c = true :=
  words_of_all (by decide)

theorem words_postTags : ∀ tag ∈ postTags, tag.1 ≠ [] ∧ ∀ c ∈ tag.1, isLetter c = true :=
  words_of_all (by decide)

theorem words_devTags : ∀ tag ∈ devTags, tag.1 ≠ [] ∧ ∀ c ∈ tag.1, isLetter c = true :=
  words_of_all (by decide)

theorem letters_preTags : ∀ tag ∈ preTags, ∀ c ∈ tag.1, isLetter c = true :=
  fun tag htag => (words_preTags tag htag).2

theorem letters_postTags : ∀ tag ∈ postTags, ∀ c ∈ tag.1, isLetter c = true :=
  fun tag htag => (words_postTags tag htag).2

theorem letters_devTags : ∀ tag ∈ devTags, ∀ c ∈ tag.1, isLetter c = true :=
  fun tag htag => (words_devTags tag htag).2

theorem dropSeparator_of_atPart {s : List Char} (h : AtPart s) : dropSeparator s = s := by
  cases s with
  | nil => rfl
  | cons c rest => rw [dropSeparator, if_neg (by rw [h c rfl]; decide)]

theorem dropSeparator_append {sep body : List Char} (hsep : sep.length ≤ 1)
    (hall : ∀ c ∈ sep, isSeparator c = true) (h : AtPart body) : dropSeparator (sep ++ body) = body := by
  match sep with
  | [] => exact dropSeparator_of_atPart h
  | [c] => rw [List.singleton_append, dropSeparator, if_pos (hall c List.mem_cons_self)]

theorem takeWhile_digits {digits rest : List Char} (hdigits : ∀ c ∈ digits, isDigit c = true)
    (hrest : AtNumberEnd rest) : (digits ++ rest).takeWhile isDigit = digits := by
  rw [List.takeWhile_append_of_pos hdigits]
  cases rest with
  | nil => simp
  | cons c rest => simp [hrest c rfl]

theorem dropWhile_digits {digits rest : List Char} (hdigits : ∀ c ∈ digits, isDigit c = true)
    (hrest : AtNumberEnd rest) : (digits ++ rest).dropWhile isDigit = rest := by
  rw [List.dropWhile_append_of_pos hdigits]
  cases rest with
  | nil => rfl
  | cons c rest => simp [hrest c rfl]

theorem atWordEnd_digits {d : Char} {s : List Char} (hd : isDigit d = true) :
    AtWordEnd (d :: s) := by
  rintro c ⟨⟩
  exact not_isLetter_of_isDigit hd

theorem atPart_digits {d : Char} {s : List Char} (hd : isDigit d = true) : AtPart (d :: s) := by
  rintro c ⟨⟩
  exact not_isSeparator_of_isDigit hd

section

variable {tags : List (List Char × α)} {sep word digits rest : List Char} {d : Char}

/-- A tag with a number is read as a whole. -/
theorem readSegment_word {a : α} (htags : ∀ tag ∈ tags, ∀ c ∈ tag.1, isLetter c = true)
    (hsep : sep.length ≤ 1) (hall : ∀ c ∈ sep, isSeparator c = true)
    (hword : AtPart (word ++ d :: digits ++ rest)) (hread : readTag tags word = some (a, []))
    (hdigits : ∀ c ∈ d :: digits, isDigit c = true) (hrest : AtNumberEnd rest) :
    readSegment tags (sep ++ (word ++ d :: digits ++ rest)) = (some (a, value (d :: digits)), rest) := by
  have hd : isDigit d = true := hdigits d List.mem_cons_self
  have htag : readTag tags (word ++ d :: digits ++ rest) = some (a, d :: digits ++ rest) := by
    rw [List.append_assoc, readTag_append htags (by exact atWordEnd_digits hd), hread]
    rfl
  unfold readSegment
  rw [dropSeparator_append hsep hall hword, htag]
  show (some (a, value ((dropSeparator (d :: digits ++ rest)).takeWhile isDigit)), _) = _
  rw [dropSeparator_of_atPart (by exact atPart_digits hd), takeWhile_digits hdigits hrest,
    dropWhile_digits hdigits hrest]

/-- A word that is no tag is left as it is. -/
theorem readSegment_other (htags : ∀ tag ∈ tags, ∀ c ∈ tag.1, isLetter c = true)
    (hsep : sep.length ≤ 1) (hall : ∀ c ∈ sep, isSeparator c = true) (hword : AtPart (word ++ rest))
    (hread : readTag tags word = none) (hrest : AtWordEnd rest) :
    readSegment tags (sep ++ (word ++ rest)) = (none, sep ++ (word ++ rest)) := by
  unfold readSegment
  rw [dropSeparator_append hsep hall hword, readTag_append htags hrest, hread]
  rfl

theorem readSegment_eq_of_none {s : List Char} (h : (readSegment tags s).1 = none) :
    (readSegment tags s).2 = s := by
  unfold readSegment at h ⊢
  cases hread : readTag tags (dropSeparator s) with
  | none => rfl
  | some r => rw [hread] at h; cases h

end

theorem readPost_eq_of_none {s : List Char} (h : (readPost s).1 = none) : (readPost s).2 = s := by
  unfold readPost at h ⊢
  split at h
  · split at h
    · cases h
    · rename_i hdigit
      simp only [hdigit]
      exact readSegment_eq_of_none (Option.map_eq_none_iff.1 h)
  · exact readSegment_eq_of_none (Option.map_eq_none_iff.1 h)

/-! ## The public part

What is read behind a segment changes the public part, unless it is a local
label. -/

/-- Nothing is known yet of the segments that are to be read, and of the label. -/
def Fresh (stage : Stage) (v : Version) : Prop :=
  v.localLabel = none ∧ (stage ≠ .label → v.dev = none) ∧
    (stage = .pre ∨ stage = .post → v.post = none) ∧ (stage = .pre → v.pre = none)

/-- The text is at its end, or goes on with a local label. -/
def AtLabel (s : List Char) : Prop := ∀ c ∈ s.head?, c = '+'

theorem readSegment_of_atLabel {tags : List (List Char × α)} {s : List Char}
    (htags : ∀ tag ∈ tags, tag.1 ≠ [] ∧ ∀ c ∈ tag.1, isLetter c = true) (h : AtLabel s) :
    readSegment tags s = (none, s) := by
  have hend : AtWordEnd s := by
    intro c hc
    rw [h c hc]
    decide
  have hpart : AtPart ([] ++ s) := by
    intro c hc
    rw [h c hc]
    decide
  have hread : readTag tags [] = none := by
    rw [readTag, List.findSome?_eq_none_iff]
    intro tag htag
    rw [if_neg (by rw [List.prefix_nil]; exact (htags tag htag).1)]
  have hnone : readSegment tags ([] ++ ([] ++ s)) = (none, [] ++ ([] ++ s)) :=
    readSegment_other (fun tag htag => (htags tag htag).2) (by simp) (by simp) hpart hread hend
  exact hnone

theorem readPost_of_atLabel {s : List Char} (h : AtLabel s) : readPost s = (none, s) := by
  have hsegment : readSegment postTags s = (none, s) := readSegment_of_atLabel words_postTags h
  unfold readPost
  split
  · exact absurd (h _ rfl) (by decide)
  · rw [hsegment]
    rfl

theorem readFrom_of_atLabel {stage : Stage} {v : Version} {s : List Char} (hv : Fresh stage v)
    (h : AtLabel s) : readFrom stage v s = (v, s) := by
  have hpre : readSegment preTags s = (none, s) := readSegment_of_atLabel words_preTags h
  have hpost := readPost_of_atLabel h
  have hdev : readSegment devTags s = (none, s) := readSegment_of_atLabel words_devTags h
  obtain ⟨epoch, release, pre, post, dev, label⟩ := v
  obtain ⟨-, hvdev, hvpost, hvpre⟩ := hv
  cases stage with
  | label => rfl
  | dev =>
      obtain rfl : dev = none := hvdev (by decide)
      simp only [readFrom, readFromDev, hdev, Option.map_none]
  | post =>
      obtain rfl : dev = none := hvdev (by decide)
      obtain rfl : post = none := hvpost (.inr rfl)
      simp only [readFrom, readFromPost, readFromDev, hpost, hdev, Option.map_none]
  | pre =>
      obtain rfl : dev = none := hvdev (by decide)
      obtain rfl : post = none := hvpost (.inl rfl)
      obtain rfl : pre = none := hvpre rfl
      simp only [readFrom, readFromPre, readFromPost, readFromDev, hpre, hpost, hdev, Option.map_none]

/-- If no segment is found, nothing is read. -/
theorem readFrom_eq {stage : Stage} {v : Version} {s : List Char} (hv : Fresh stage v)
    (h : (readFrom stage v s).1 = v) : (readFrom stage v s).2 = s := by
  obtain ⟨epoch, release, pre, post, dev, label⟩ := v
  obtain ⟨-, hvdev, hvpost, hvpre⟩ := hv
  have hdevs : ∀ s, ((readSegment devTags s).1.map Prod.snd) = none → (readSegment devTags s).2 = s :=
    fun s hnone => readSegment_eq_of_none (Option.map_eq_none_iff.1 hnone)
  cases stage with
  | label => rfl
  | dev =>
      obtain rfl : dev = none := hvdev (by decide)
      simp only [readFrom, readFromDev, Version.mk.injEq, true_and, and_true] at h ⊢
      exact hdevs s h
  | post =>
      obtain rfl : dev = none := hvdev (by decide)
      obtain rfl : post = none := hvpost (.inr rfl)
      simp only [readFrom, readFromPost, readFromDev, Version.mk.injEq, true_and, and_true] at h ⊢
      rw [hdevs _ h.2, readPost_eq_of_none h.1]
  | pre =>
      obtain rfl : dev = none := hvdev (by decide)
      obtain rfl : post = none := hvpost (.inl rfl)
      obtain rfl : pre = none := hvpre rfl
      simp only [readFrom, readFromPre, readFromPost, readFromDev, Version.mk.injEq, true_and,
        and_true] at h ⊢
      rw [hdevs _ h.2.2, readPost_eq_of_none h.2.1, readSegment_eq_of_none h.1]

theorem localLabel_readFrom (stage : Stage) (v : Version) (s : List Char) :
    (readFrom stage v s).1.localLabel = v.localLabel := by
  cases stage <;> rfl

theorem atLabel_of_readLocal {s : List Char} {label : Option (List LocalPart)}
    (h : readLocal s = some label) : AtLabel s := by
  intro c hc
  cases s with
  | nil => cases hc
  | cons d rest =>
      obtain rfl := Option.some.inj hc
      by_contra hne
      unfold readLocal at h
      split at h
      · rename_i heq
        cases heq
      · rename_i heq
        exact hne (List.cons.inj heq).1
      · cases h

/-- The public part of a version is what was known of it before the rest was
read if and only if the rest is no more than a label. -/
theorem publicPart_finish {stage : Stage} {v w : Version} {s : List Char} (hv : Fresh stage v)
    (h : finish (readFrom stage v s) = some w) : w.publicPart = v ↔ AtLabel s := by
  obtain ⟨label, hlabel, rfl⟩ := Option.map_eq_some_iff.1 h
  have hpublic : Version.publicPart { (readFrom stage v s).1 with localLabel := label } =
      (readFrom stage v s).1 := by
    have hnone : (readFrom stage v s).1.localLabel = none := by rw [localLabel_readFrom, hv.1]
    unfold Version.publicPart
    rw [← hnone]
  rw [hpublic]
  constructor
  · intro heq
    have hrest := atLabel_of_readLocal hlabel
    rw [readFrom_eq hv heq] at hrest
    exact hrest
  · intro hend
    rw [readFrom_of_atLabel hv hend]

/-! ## The alphabet of the grammar -/

/-- The characters that a version in lower case consists of. -/
def isVersionChar (c : Char) : Bool :=
  isDigit c || isLetter c || isSeparator c || c == '!' || c == '+'

/-- What is read of a text before its rest consists of version characters. -/
def Reads (s rest : List Char) : Prop := ∀ c ∈ s, isVersionChar c = true ∨ c ∈ rest

theorem Reads.refl (s : List Char) : Reads s s := fun _ hc => .inr hc

theorem Reads.trans {s t rest : List Char} (hst : Reads s t) (ht : Reads t rest) : Reads s rest := by
  intro c hc
  rcases hst c hc with hchar | hmem
  · exact .inl hchar
  · exact ht c hmem

theorem Reads.append {t rest : List Char} (h : ∀ c ∈ t, isVersionChar c = true) :
    Reads (t ++ rest) rest := by
  intro c hc
  rcases List.mem_append.1 hc with ht | hrest
  · exact .inl (h c ht)
  · exact .inr hrest

theorem isVersionChar_of_isDigit {c : Char} (h : isDigit c = true) : isVersionChar c = true := by
  simp [isVersionChar, h]

theorem isVersionChar_of_isLetter {c : Char} (h : isLetter c = true) : isVersionChar c = true := by
  simp [isVersionChar, h]

theorem isVersionChar_of_isSeparator {c : Char} (h : isSeparator c = true) :
    isVersionChar c = true := by
  simp [isVersionChar, h]

theorem reads_digits (s : List Char) : Reads s (s.dropWhile isDigit) := by
  have hsplit : Reads (s.takeWhile isDigit ++ s.dropWhile isDigit) (s.dropWhile isDigit) :=
    Reads.append fun c hc => isVersionChar_of_isDigit (List.mem_takeWhile_imp hc)
  rwa [List.takeWhile_append_dropWhile] at hsplit

theorem reads_dropV (s : List Char) : Reads s (dropV s) := by
  unfold dropV
  split
  · exact Reads.append (t := ['v']) (List.forall_mem_singleton.2 (by decide))
  · exact Reads.refl s

theorem spanEpoch_append (p : Char → Bool) (s : List Char) :
    (spanEpoch p s).1 ++ (spanEpoch p s).2 = s := by
  unfold spanEpoch
  split
  · rename_i c digits d rest htake hdrop
    split
    · have hsplit := List.takeWhile_append_dropWhile (p := p) (l := s)
      rw [htake, hdrop] at hsplit
      simpa using hsplit
    · rfl
  · rfl

theorem mem_spanEpoch {p : Char → Bool} {s : List Char} {c : Char} (h : c ∈ (spanEpoch p s).1) :
    p c = true ∨ c = '!' := by
  unfold spanEpoch at h
  split at h
  · rename_i e digits d rest htake hdrop
    split at h
    · rw [← htake] at h
      rcases List.mem_append.1 h with hdigit | hbang
      · exact .inl (List.mem_takeWhile_imp hdigit)
      · exact .inr (List.mem_singleton.1 hbang)
    · cases h
  · cases h

theorem reads_spanEpoch (s : List Char) : Reads s (spanEpoch isDigit s).2 := by
  have hsplit : Reads ((spanEpoch isDigit s).1 ++ (spanEpoch isDigit s).2) (spanEpoch isDigit s).2 := by
    apply Reads.append
    intro c hc
    rcases mem_spanEpoch hc with hdigit | rfl
    · exact isVersionChar_of_isDigit hdigit
    · decide
  rwa [spanEpoch_append] at hsplit

theorem spanRelease_append (p : Char → Bool) (s : List Char) :
    (spanRelease p s).1 ++ (spanRelease p s).2 = s := by
  induction s with
  | nil => rfl
  | cons c rest ih =>
      unfold spanRelease
      split
      · exact congrArg (c :: ·) ih
      · rfl

theorem mem_spanRelease {p : Char → Bool} {s : List Char} {c : Char}
    (h : c ∈ (spanRelease p s).1) : p c = true ∨ c = '.' := by
  induction s with
  | nil => cases h
  | cons d rest ih =>
      unfold spanRelease at h
      split at h
      · rename_i hd
        rcases List.mem_cons.1 h with rfl | hrest
        · rcases Bool.or_eq_true_iff.1 hd with hp | hdot
          · exact .inl hp
          · exact .inr (eq_of_beq (Bool.and_eq_true_iff.1 hdot).1)
        · exact ih hrest
      · cases h

theorem reads_spanRelease (s : List Char) : Reads s (spanRelease isDigit s).2 := by
  have hsplit : Reads ((spanRelease isDigit s).1 ++ (spanRelease isDigit s).2)
      (spanRelease isDigit s).2 := by
    apply Reads.append
    intro c hc
    rcases mem_spanRelease hc with hdigit | rfl
    · exact isVersionChar_of_isDigit hdigit
    · decide
  rwa [spanRelease_append] at hsplit

theorem reads_dropSeparator (s : List Char) : Reads s (dropSeparator s) := by
  cases s with
  | nil => exact Reads.refl []
  | cons c rest =>
      by_cases hsep : isSeparator c = true
      · rw [dropSeparator, if_pos hsep]
        exact Reads.append (t := [c]) fun d hd =>
          isVersionChar_of_isSeparator ((List.mem_singleton.1 hd) ▸ hsep)
      · rw [dropSeparator, if_neg hsep]
        exact Reads.refl _

theorem reads_readSegment {tags : List (List Char × α)}
    (htags : ∀ tag ∈ tags, ∀ c ∈ tag.1, isLetter c = true) (s : List Char) :
    Reads s (readSegment tags s).2 := by
  unfold readSegment
  cases hread : readTag tags (dropSeparator s) with
  | none => exact Reads.refl s
  | some r =>
      obtain ⟨a, rest⟩ := r
      obtain ⟨tag, htag, hsome⟩ := List.exists_of_findSome?_eq_some hread
      split at hsome
      · rename_i hfits
        obtain ⟨-, rfl⟩ := Prod.mk.inj (Option.some.inj hsome)
        have hword : Reads (dropSeparator s) ((dropSeparator s).drop tag.1.length) := by
          obtain ⟨rest, heq⟩ := hfits
          rw [← heq, List.drop_left]
          exact Reads.append fun c hc => isVersionChar_of_isLetter (htags tag htag c hc)
        exact (((reads_dropSeparator s).trans hword).trans (reads_dropSeparator _)).trans (reads_digits _)
      · cases hsome

theorem reads_readPost (s : List Char) : Reads s (readPost s).2 := by
  unfold readPost
  split
  · split
    · exact (Reads.append (t := ['-']) (List.forall_mem_singleton.2 (by decide))).trans (reads_digits _)
    · exact reads_readSegment letters_postTags _
  · exact reads_readSegment letters_postTags _

theorem reads_readFromPre (v : Version) (s : List Char) : Reads s (readFrom .pre v s).2 :=
  ((reads_readSegment letters_preTags s).trans (reads_readPost _)).trans
    (reads_readSegment letters_devTags _)

/-- Splitting loses nothing but the separators. -/
theorem mem_splitOnP {p : Char → Bool} {s : List Char} {c : Char} (hc : c ∈ s) :
    p c = true ∨ ∃ part ∈ s.splitOnP p, c ∈ part := by
  induction s with
  | nil => cases hc
  | cons d rest ih =>
      rw [List.splitOnP_cons_eq_if_modifyHead]
      obtain ⟨first, parts, hparts⟩ := List.exists_cons_of_ne_nil (List.splitOnP_ne_nil p rest)
      rw [hparts] at ih
      by_cases hd : p d = true
      · rw [if_pos hd, hparts]
        rcases List.mem_cons.1 hc with rfl | hrest
        · exact .inl hd
        · exact (ih hrest).imp_right fun ⟨part, hpart, hmem⟩ => ⟨part, List.mem_cons_of_mem _ hpart, hmem⟩
      · rw [if_neg hd, hparts, List.modifyHead_cons]
        rcases List.mem_cons.1 hc with rfl | hrest
        · exact .inr ⟨c :: first, List.mem_cons_self, List.mem_cons_self⟩
        · refine (ih hrest).imp_right ?_
          rintro ⟨part, hpart, hmem⟩
          rcases List.mem_cons.1 hpart with rfl | hpart
          · exact ⟨d :: part, List.mem_cons_self, List.mem_cons_of_mem _ hmem⟩
          · exact ⟨part, List.mem_cons_of_mem _ hpart, hmem⟩

theorem reads_readLocal {s : List Char} {label : Option (List LocalPart)}
    (h : readLocal s = some label) : Reads s [] := by
  unfold readLocal at h
  split at h
  · exact Reads.refl []
  · split at h
    · rename_i rest hlocal
      intro c hc
      rcases List.mem_cons.1 hc with rfl | hrest
      · exact .inl (by decide)
      · rcases mem_splitOnP (p := isSeparator) hrest with hsep | ⟨part, hpart, hmem⟩
        · exact .inl (isVersionChar_of_isSeparator hsep)
        · rcases Bool.or_eq_true_iff.1 ((hlocal part hpart).2 c hmem) with hdigit | hletter
          · exact .inl (isVersionChar_of_isDigit hdigit)
          · exact .inl (isVersionChar_of_isLetter hletter)
    · cases h
  · cases h

/-- A version consists of version characters. -/
theorem isVersionChar_of_readVersion {s : List Char} {v : Version} (h : readVersion s = some v)
    {c : Char} (hc : c ∈ s) : isVersionChar c = true := by
  unfold readVersion readRelease at h
  split at h
  · obtain ⟨label, hlabel, -⟩ := Option.map_eq_some_iff.1 h
    have hreads : Reads s [] := ((((reads_dropV s).trans (reads_spanEpoch _)).trans
      (reads_spanRelease _)).trans (reads_readFromPre _ _)).trans (reads_readLocal hlabel)
    exact (hreads c hc).resolve_right (by simp)
  · cases h

/-! ## A tag with a number

What a segment with a number is, does not depend on what follows the number. -/

theorem not_isSeparator_of_isLetter {c : Char} (h : isLetter c = true) : isSeparator c = false := by
  simp only [isSeparator, Bool.or_eq_false_iff, beq_eq_false_iff_ne]
  refine ⟨⟨?_, ?_⟩, ?_⟩ <;> · rintro rfl; revert h; decide

theorem not_isDigit_of_isLetter {c : Char} (h : isLetter c = true) : isDigit c = false := by
  by_contra hdigit
  rw [Bool.not_eq_false] at hdigit
  rw [not_isLetter_of_isDigit hdigit] at h
  cases h

/-- A post-release that is not in the short form is a segment with a tag. -/
theorem readPost_segment {s : List Char} (h : ∀ c rest, s = '-' :: c :: rest → isDigit c = false) :
    readPost s = ((readSegment postTags s).1.map Prod.snd, (readSegment postTags s).2) := by
  unfold readPost
  split
  · rename_i c rest
    rw [if_neg (by rw [h c rest rfl]; decide)]
  · rfl

section

variable {sep word digits rest : List Char} {d : Char} {v : Version}

theorem atPart_word (hword : ∀ c ∈ word, isLetter c = true) (hd : isDigit d = true) :
    AtPart (word ++ d :: digits ++ rest) := by
  cases word with
  | nil => exact atPart_digits hd
  | cons c word =>
      rintro e ⟨⟩
      exact not_isSeparator_of_isLetter (hword c List.mem_cons_self)

theorem readSegment_none {tags : List (List Char × α)}
    (htags : ∀ tag ∈ tags, ∀ c ∈ tag.1, isLetter c = true) (hsep : sep.length ≤ 1)
    (hall : ∀ c ∈ sep, isSeparator c = true) (hword : ∀ c ∈ word, isLetter c = true)
    (hread : readTag tags word = none) (hd : isDigit d = true) :
    readSegment tags (sep ++ (word ++ d :: digits ++ rest)) =
      (none, sep ++ (word ++ d :: digits ++ rest)) := by
  rw [List.append_assoc word]
  refine readSegment_other htags hsep hall ?_ hread (by exact atWordEnd_digits hd)
  rw [← List.append_assoc]
  exact atPart_word hword hd

/-- The short form of a post-release. -/
theorem readFrom_short (hv : Fresh .pre v) (hdigits : ∀ c ∈ d :: digits, isDigit c = true)
    (hrest : AtNumberEnd rest) : readFrom .pre v ('-' :: (d :: digits ++ rest)) =
      readFrom .dev { v with post := some (value (d :: digits)) } rest := by
  have hd : isDigit d = true := hdigits d List.mem_cons_self
  have hpre : readSegment preTags (['-'] ++ ([] ++ d :: digits ++ rest)) =
      (none, ['-'] ++ ([] ++ d :: digits ++ rest)) :=
    readSegment_none letters_preTags (by simp) (List.forall_mem_singleton.2 (by decide)) (by simp)
      (by decide) hd
  have hpost : readPost ('-' :: (d :: digits ++ rest)) = (some (value (d :: digits)), rest) := by
    rw [List.cons_append, readPost, if_pos hd, ← List.cons_append, takeWhile_digits hdigits hrest,
      dropWhile_digits hdigits hrest]
  simp only [List.singleton_append, List.nil_append] at hpre
  simp only [readFrom, readFromPre, readFromPost, hpre, hpost]
  rw [← hv.2.2.2 rfl]

/-- The tag of a word decides which segment it begins. -/
theorem readFrom_word (hv : Fresh .pre v) (hne : word ≠ []) (hsep : sep.length ≤ 1)
    (hall : ∀ c ∈ sep, isSeparator c = true) (hword : ∀ c ∈ word, isLetter c = true)
    (hdigits : ∀ c ∈ d :: digits, isDigit c = true) (hrest : AtNumberEnd rest) :
    (∀ tag, readTag preTags word = some (tag, []) →
      readFrom .pre v (sep ++ (word ++ d :: digits ++ rest)) =
        readFrom .post { v with pre := some (tag, value (d :: digits)) } rest) ∧
    (readTag preTags word = none → readTag postTags word = some ((), []) →
      readFrom .pre v (sep ++ (word ++ d :: digits ++ rest)) =
        readFrom .dev { v with post := some (value (d :: digits)) } rest) ∧
    (readTag preTags word = none → readTag postTags word = none →
      readTag devTags word = some ((), []) →
      readFrom .pre v (sep ++ (word ++ d :: digits ++ rest)) =
        readFrom .label { v with dev := some (value (d :: digits)) } rest) := by
  have hd : isDigit d = true := hdigits d List.mem_cons_self
  have hpart : AtPart (word ++ d :: digits ++ rest) := atPart_word hword hd
  have hpre : v.pre = none := hv.2.2.2 rfl
  have hpost : v.post = none := hv.2.2.1 (.inl rfl)
  -- behind a separator comes a letter, so this is not the short form
  have hsegment : readPost (sep ++ (word ++ d :: digits ++ rest)) =
      ((readSegment postTags (sep ++ (word ++ d :: digits ++ rest))).1.map Prod.snd,
        (readSegment postTags (sep ++ (word ++ d :: digits ++ rest))).2) := by
    apply readPost_segment
    obtain ⟨c, word, rfl⟩ := List.exists_cons_of_ne_nil hne
    have hc : isLetter c = true := hword c List.mem_cons_self
    intro e tail heq
    match sep with
    | [] =>
        obtain ⟨rfl, -⟩ := List.cons.inj heq
        exact absurd hc (by decide)
    | [s] =>
        obtain ⟨rfl, -⟩ := List.cons.inj (List.cons.inj heq).2
        exact not_isDigit_of_isLetter hc
  refine ⟨?_, ?_, ?_⟩
  · intro tag htag
    have hread := readSegment_word letters_preTags hsep hall hpart htag hdigits hrest
    simp only [readFrom, readFromPre, hread]
  · intro hnone htag
    have hskip : readSegment preTags (sep ++ (word ++ d :: digits ++ rest)) =
        (none, sep ++ (word ++ d :: digits ++ rest)) :=
      readSegment_none letters_preTags hsep hall hword hnone hd
    have hread := readSegment_word letters_postTags hsep hall hpart htag hdigits hrest
    simp only [readFrom, readFromPre, readFromPost, hskip, hsegment, hread, Option.map_some]
    rw [← hpre]
  · intro hnone hnonePost htag
    have hskip : readSegment preTags (sep ++ (word ++ d :: digits ++ rest)) =
        (none, sep ++ (word ++ d :: digits ++ rest)) :=
      readSegment_none letters_preTags hsep hall hword hnone hd
    have hskipPost : readSegment postTags (sep ++ (word ++ d :: digits ++ rest)) =
        (none, sep ++ (word ++ d :: digits ++ rest)) :=
      readSegment_none letters_postTags hsep hall hword hnonePost hd
    have hread := readSegment_word letters_devTags hsep hall hpart htag hdigits hrest
    simp only [readFrom, readFromPre, readFromPost, readFromDev, hskip, hsegment, hskipPost, hread,
      Option.map_some, Option.map_none]
    rw [← hpre, ← hpost]

end

/-! ## Epoch and release with another end

The same epoch and release are read if something else follows them, and also
if the text was first read with a larger class of digits. -/

section

variable {p q : Char → Bool} {s t : List Char}

/-- The text does not go on with a release. -/
def ReleaseEnd (p : Char → Bool) (t : List Char) : Prop :=
  ∀ c rest, t = c :: rest → (p c || (c == '.' && rest.head?.any p)) = false

theorem releaseEnd_spanRelease (p : Char → Bool) (s : List Char) :
    ReleaseEnd p (spanRelease p s).2 := by
  induction s with
  | nil =>
      intro c rest h
      cases h
  | cons d tail ih =>
      unfold spanRelease
      split
      · exact ih
      · rename_i hd
        rintro c rest ⟨⟩
        exact Bool.eq_false_of_not_eq_true hd

theorem spanRelease_of_releaseEnd (h : ReleaseEnd p t) : spanRelease p t = ([], t) := by
  cases t with
  | nil => rfl
  | cons c rest => rw [spanRelease, h c rest rfl]; rfl

theorem head_spanRelease (h : s.head?.any p = true) :
    ∃ d tail, (spanRelease p s).1 = d :: tail ∧ p d = true := by
  cases s with
  | nil => cases h
  | cons d rest =>
      have hd : p d = true := h
      exact ⟨d, _, by rw [spanRelease, hd]; rfl, hd⟩

theorem spanRelease_replace {release s' : List Char} (h : spanRelease p s = (release, s'))
    (hsub : ∀ c ∈ release, p c = true → q c = true) (ht : ReleaseEnd q t) :
    spanRelease q (release ++ t) = (release, t) := by
  obtain rfl : (spanRelease p s).1 = release := by rw [h]
  clear h
  induction s with
  | nil => exact spanRelease_of_releaseEnd ht
  | cons c rest ih =>
      by_cases hc : (p c || (c == '.' && rest.head?.any p)) = true
      · have hspan : (spanRelease p (c :: rest)).1 = c :: (spanRelease p rest).1 := by
          rw [spanRelease, if_pos hc]
        rw [hspan] at hsub ⊢
        have hrest := ih fun d hd => hsub d (List.mem_cons_of_mem _ hd)
        have hcond : (q c || (c == '.' && ((spanRelease p rest).1 ++ t).head?.any q)) = true := by
          rcases Bool.or_eq_true_iff.1 hc with hp | hdot
          · rw [hsub c List.mem_cons_self hp, Bool.true_or]
          · obtain ⟨hdot, hhead⟩ := Bool.and_eq_true_iff.1 hdot
            obtain ⟨d, tail, hd, hpd⟩ := head_spanRelease hhead
            have hq : q d = true := hsub d (by rw [hd]; simp) hpd
            rw [hd, hdot]
            simp [hq]
        rw [List.cons_append, spanRelease, if_pos hcond, hrest]
      · have hspan : (spanRelease p (c :: rest)).1 = [] := by rw [spanRelease, if_neg hc]
        rw [hspan]
        exact spanRelease_of_releaseEnd ht

/-- An exclamation mark and a digit. -/
def AtBangDigit (p : Char → Bool) (t : List Char) : Prop := ∃ d rest, t = '!' :: d :: rest ∧ p d = true

theorem spanEpoch_digits {d c : Char} {digits rest : List Char}
    (hdigits : ∀ c ∈ d :: digits, p c = true) (hbang : p '!' = false) (hc : p c = true) :
    spanEpoch p (d :: digits ++ '!' :: c :: rest) = (d :: digits ++ ['!'], c :: rest) := by
  have htake : (d :: digits ++ '!' :: c :: rest).takeWhile p = d :: digits := by
    rw [List.takeWhile_append_of_pos hdigits]
    simp [hbang]
  have hdrop : (d :: digits ++ '!' :: c :: rest).dropWhile p = '!' :: c :: rest := by
    rw [List.dropWhile_append_of_pos hdigits]
    simp [hbang]
  unfold spanEpoch
  rw [htake, hdrop]
  simp [hc]

theorem spanEpoch_eq_self (h : ∀ digits, digits ≠ [] → (∀ c ∈ digits, p c = true) →
    ∀ d rest, s = digits ++ '!' :: d :: rest → p d = false) : spanEpoch p s = ([], s) := by
  unfold spanEpoch
  split
  · rename_i c digits d rest htake hdrop
    have hsplit := List.takeWhile_append_dropWhile (p := p) (l := s)
    rw [htake, hdrop] at hsplit
    have hall : ∀ e ∈ c :: digits, p e = true := by
      rw [← htake]
      exact fun e he => List.mem_takeWhile_imp he
    rw [h (c :: digits) (by simp) hall d rest hsplit.symm]
    rfl
  · rfl

/-- Without an epoch, there is none with another end either. -/
theorem spanEpoch_replace {body rest : List Char} (hnone : (spanEpoch p (body ++ rest)).1 = [])
    (hsub : ∀ c, q c = true → p c = true) (hbang : p '!' = false) (hbody : '!' ∉ body)
    (hend : ∀ c ∈ t.head?, q c = false) (ht : AtBangDigit q t → AtBangDigit p rest) :
    spanEpoch q (body ++ t) = ([], body ++ t) := by
  apply spanEpoch_eq_self
  intro digits hne hdigits d tail heq
  -- the exclamation mark is the first one on both sides, so the digits are the body
  have hlength : digits = body ∧ t = '!' :: d :: tail := by
    rcases List.append_eq_append_iff.1 heq with ⟨l, rfl, hl⟩ | ⟨l, rfl, hl⟩
    · cases l with
      | nil => exact ⟨(List.append_nil _), hl⟩
      | cons e l =>
          subst hl
          have hq := hdigits e (by simp)
          rw [hend e rfl] at hq
          cases hq
    · cases l with
      | nil => exact ⟨(List.append_nil _).symm, hl.symm⟩
      | cons e l =>
          obtain ⟨rfl, -⟩ := List.cons.inj hl
          exact absurd (by simp) hbody
  obtain ⟨rfl, rfl⟩ := hlength
  by_contra hd
  rw [Bool.not_eq_false] at hd
  obtain ⟨e, end_, rfl, he⟩ := ht ⟨d, tail, rfl, hd⟩
  obtain ⟨c, more, rfl⟩ := List.exists_cons_of_ne_nil hne
  rw [spanEpoch_digits (fun c hc => hsub c (hdigits c hc)) hbang he] at hnone
  cases hnone

end

end Pep440
