import Mathlib.Data.List.Basic
import FactCore.WebInterface.Filter

/-! # When every uid becomes one link

The replacements run over a text that already contains links. The text is described
by the characters that are left and the links that were made; a replacement makes
more links and may also change the uid of the root inside the links. It is shown that
the result is the intended one exactly when no replacement changes a link and no
occurrence of a uid is found inside a longer match.
-/

namespace FactCore.Filter

open Replace (replaceAll Diverges)
open UidPattern (matchAt isHex isDigit)

/-! ## Occurrences of uids -/

section

variable {uid v : Uid} {s : List Char} {segs : List Segment}

theorem toList_ne_nil (h : IsUid uid) : uid.toList ≠ [] := by
  have hlen := h.length
  intro hnil
  rw [hnil, List.length_nil] at hlen
  omega

/-- Neither a hexadecimal digit nor an underscore. -/
def IsSeparator (c : Char) : Prop := isHex c = false ∧ c ≠ '_'

instance (c : Char) : Decidable (IsSeparator c) := inferInstanceAs (Decidable (_ ∧ _))

theorem notMem_of_isSeparator (h : IsUid uid) {c : Char} (hc : IsSeparator c) : c ∉ uid.toList := by
  intro hmem
  rcases h.char hmem with hhex | rfl
  · rw [hc.1] at hhex
    cases hhex
  · exact hc.2 rfl

theorem lt_notMem (h : IsUid uid) : '<' ∉ uid.toList := notMem_of_isSeparator h (by decide)

theorem slash_notMem (h : IsUid uid) : '/' ∉ uid.toList := notMem_of_isSeparator h (by decide)

theorem quote_notMem (h : IsUid uid) : '"' ∉ uid.toList := notMem_of_isSeparator h (by decide)

theorem gt_notMem (h : IsUid uid) : '>' ∉ uid.toList := notMem_of_isSeparator h (by decide)

theorem underscore_notMem {l : List Char} (h : ∀ c ∈ l, isHex c = true) : '_' ∉ l := by
  intro hmem
  have hhex := h _ hmem
  revert hhex
  decide

/-- A uid that occurs in another one is at its beginning. -/
theorem le_of_occurs (hu : IsUid uid) (hv : IsUid v) (h : uid.toList <:+: v.toList) : uid ≤ v := by
  obtain ⟨p, x, hoccurs⟩ := h
  obtain ⟨hash, size, hlen, -, -, -, huid⟩ := hu.parts
  obtain ⟨hash', size', hlen', hhash', -, hsize', hv⟩ := hv.parts
  have hdigits' := underscore_notMem fun c hc => UidPattern.isHex_of_isDigit (hsize' c hc)
  have heq : hash' ++ '_' :: size' = (p ++ hash) ++ '_' :: (size ++ x) := by
    rw [← hv, ← hoccurs, huid]
    simp only [List.append_assoc, List.cons_append]
  obtain ⟨hhash_eq, -⟩ := (List.append_cons_inj_of_notMem (underscore_notMem hhash') hdigits').1 heq
  have hpnil : p = [] := by
    have hsum := congrArg List.length hhash_eq
    rw [List.length_append, hlen, hlen'] at hsum
    apply List.length_eq_zero_iff.1
    omega
  rw [hpnil, List.nil_append] at hoccurs
  rw [← not_lt, String.lt_iff_toList_lt, ← hoccurs]
  exact (List.prefix_append uid.toList x).le

theorem not_infix_of_lt (hu : IsUid uid) (hv : IsUid v) (h : v < uid) : ¬uid.toList <:+: v.toList :=
  fun hoccurs => absurd (le_of_occurs hu hv hoccurs) (not_le_of_gt h)

/-- Where a uid stands, the pattern matches. -/
theorem matchAt_ne_none (hu : IsUid uid) (h : uid.toList <+: s) : matchAt s ≠ none := by
  obtain ⟨x, rfl⟩ := h
  obtain ⟨hash, size, hlen, hhash, hne, hsize, huid⟩ := hu.parts
  have hmatch : matchAt (uid.toList ++ x) = some (hash ++ '_' :: (size ++ x.takeWhile isDigit)) := by
    apply UidPattern.matchAt_eq_some.2
    refine ⟨hash, size ++ x.takeWhile isDigit, x.dropWhile isDigit, hlen, hhash, ?_, ?_, ?_, rfl, ?_⟩
    · exact List.append_ne_nil_of_left_ne_nil hne _
    · intro c hc
      rcases List.mem_append.1 hc with hc | hc
      · exact hsize c hc
      · exact List.mem_takeWhile_imp hc
    · intro c hc
      cases hd : (x.dropWhile isDigit).head? with
      | none => rw [hd] at hc; cases hc
      | some d =>
          have hnot := List.head?_dropWhile_not isDigit x
          rw [hd] at hc hnot
          cases hc
          exact hnot
    · rw [huid]
      simp only [List.append_assoc, List.cons_append, List.takeWhile_append_dropWhile]
  rw [hmatch]
  exact Option.some_ne_none _

end

/-! ## Texts with links -/

/-- A character that is left, or a link with the text of the uid of its root. -/
inductive Item where
  | char (c : Char)
  | link (uid : Uid) (root : List Char)

/-- `<a href="/analysis/{uid}/ro/{root}">{uid}</a>`, cut at characters that are in no uid. -/
def linkText (uid root : List Char) : List Char :=
  '<' :: ("a href=\"/analysis".toList ++ '/' :: (uid ++ '/' :: ("ro".toList ++ '/' :: (root ++ '"' :: '>' ::
    (uid ++ '<' :: '/' :: ('a' :: ['>']))))))

namespace Item

/-- The text of the input. -/
def text : Item → List Char
  | char c => [c]
  | link u _ => u.toList

/-- The text of the result. -/
def shown : Item → List Char
  | char c => [c]
  | link u root => linkText u.toList root

end Item

/-- The characters before the first link. -/
def leading : List Item → List Char
  | .char c :: items => c :: leading items
  | _ => []

/-- A pass over the items: the uid becomes a link where it is left, and it is
replaced in the roots of the links. -/
def linkFrom (uid : Uid) (root : List Char) : Nat → List Item → List Item
  | _, [] => []
  | skip + 1, _ :: items => linkFrom uid root skip items
  | 0, .link v r :: items =>
      .link v (replaceAll uid.toList (linkText uid.toList root) r) :: linkFrom uid root 0 items
  | 0, .char c :: items =>
      if uid.toList <+: c :: leading items then
        .link uid root :: linkFrom uid root (uid.toList.length - 1) items
      else .char c :: linkFrom uid root 0 items

def linkAll (uid : Uid) (root : List Char) (items : List Item) : List Item := linkFrom uid root 0 items

section

variable {uid v : Uid} {root r l : List Char} {c : Char} {items items' : List Item}

theorem toList_linkTo (uid : Uid) (rootUid : Option Uid) :
    (linkTo uid rootUid).toList = linkText uid.toList (rootText rootUid).toList := by
  have hopen : "<a href=\"/analysis/".toList = '<' :: ("a href=\"/analysis".toList ++ ['/']) := by simp
  have hroot : "/ro/".toList = '/' :: ("ro".toList ++ ['/']) := by simp
  have htext : "\">".toList = ['"', '>'] := by simp
  have hclose : "</a>".toList = ['<', '/', 'a', '>'] := by simp
  unfold linkTo linkText
  simp only [String.toList_append]
  rw [hopen, hroot, htext, hclose]
  simp only [List.append_assoc, List.cons_append, List.nil_append]

theorem linkFrom_skip (l : List Char) (items : List Item) :
    linkFrom uid root l.length (l.map .char ++ items) = linkAll uid root items := by
  induction l with
  | nil => cases items <;> rfl
  | cons c l ih => exact ih

theorem leading_append (l : List Char) (items : List Item) :
    leading (l.map .char ++ items) = l ++ leading items := by
  induction l with
  | nil => rfl
  | cons c l ih => exact congrArg (c :: ·) ih

theorem linkAll_occurrence (hne : uid.toList ≠ []) (items : List Item) :
    linkAll uid root (uid.toList.map .char ++ items) = .link uid root :: linkAll uid root items := by
  cases hcs : uid.toList with
  | nil => exact absurd hcs hne
  | cons c cs =>
      have hstarts : uid.toList <+: c :: leading (cs.map .char ++ items) := by
        rw [leading_append, hcs]
        exact List.prefix_append (c :: cs) _
      show linkFrom uid root 0 (.char c :: (cs.map .char ++ items)) = _
      rw [linkFrom, if_pos hstarts, hcs]
      congr 1
      exact linkFrom_skip cs items

theorem linkAll_char (h : ¬uid.toList <+: c :: leading items) :
    linkAll uid root (.char c :: items) = .char c :: linkAll uid root items := by
  rw [linkAll, linkFrom, if_neg h, linkAll]

theorem linkAll_link : linkAll uid root (.link v r :: items) =
    .link v (replaceAll uid.toList (linkText uid.toList root) r) :: linkAll uid root items := rfl

theorem exists_of_prefix_leading (h : l <+: leading items) : ∃ items', items = l.map .char ++ items' := by
  induction l generalizing items with
  | nil => exact ⟨items, rfl⟩
  | cons c l ih =>
      cases items with
      | nil => exact absurd (List.prefix_nil.1 h) (List.cons_ne_nil c l)
      | cons item items =>
          cases item with
          | link u r => exact absurd (List.prefix_nil.1 h) (List.cons_ne_nil c l)
          | char d =>
              obtain ⟨rfl, hrest⟩ := List.cons_prefix_cons.1 h
              obtain ⟨items', rfl⟩ := ih hrest
              exact ⟨items', rfl⟩

/-- A pass goes from link to link, from occurrence to occurrence and over the other
characters. -/
theorem linkAll_induction {P : List Item → Prop} (hne : uid.toList ≠ []) (hnil : P [])
    (hlink : ∀ v r items, P items → P (.link v r :: items))
    (hfound : ∀ items, P items → P (uid.toList.map .char ++ items))
    (hchar : ∀ c items, ¬uid.toList <+: c :: leading items → P items → P (.char c :: items))
    (items : List Item) : P items := by
  induction hlen : items.length using Nat.strong_induction_on generalizing items with
  | _ n ih =>
      cases items with
      | nil => exact hnil
      | cons item items =>
          have hshorter : items.length < n := by
            rw [← hlen, List.length_cons]
            omega
          cases item with
          | link v r => exact hlink v r items (ih items.length hshorter items rfl)
          | char c =>
              by_cases hstarts : uid.toList <+: c :: leading items
              · have hpos := List.length_pos_iff.2 hne
                have hleading : uid.toList <+: leading (.char c :: items) := hstarts
                obtain ⟨rest, hrest⟩ := exists_of_prefix_leading hleading
                have hrestlen : rest.length < n := by
                  have hsum := congrArg List.length hrest
                  rw [List.length_append, List.length_map] at hsum
                  omega
                rw [hrest]
                exact hfound rest (ih rest.length hrestlen rest rfl)
              · exact hchar c items hstarts (ih items.length hshorter items rfl)

omit uid v root r items items' in
theorem text_chars (l : List Char) : (l.map Item.char).flatMap Item.text = l := by
  rw [List.flatMap_map]
  exact List.flatMap_singleton' l

omit uid v root r items items' in
theorem shown_chars (l : List Char) : (l.map Item.char).flatMap Item.shown = l := by
  rw [List.flatMap_map]
  exact List.flatMap_singleton' l

theorem text_linkAll (hne : uid.toList ≠ []) (items : List Item) :
    (linkAll uid root items).flatMap Item.text = items.flatMap Item.text := by
  induction items using linkAll_induction hne with
  | hnil => rfl
  | hlink v r items ih => rw [linkAll_link, List.flatMap_cons, List.flatMap_cons, ih]; rfl
  | hfound items ih =>
      rw [linkAll_occurrence hne, List.flatMap_cons, ih, List.flatMap_append, text_chars]
      rfl
  | hchar c items hstarts ih => rw [linkAll_char hstarts, List.flatMap_cons, List.flatMap_cons, ih]

/-- The links of a pass are new ones and the old ones with a changed root. -/
theorem mem_linkAll (hne : uid.toList ≠ []) (items : List Item) (h : .link v r ∈ linkAll uid root items) :
    (v = uid ∧ r = root) ∨
      ∃ r', .link v r' ∈ items ∧ r = replaceAll uid.toList (linkText uid.toList root) r' := by
  induction items using linkAll_induction hne with
  | hnil => exact absurd h List.not_mem_nil
  | hlink v' r' items ih =>
      rw [linkAll_link] at h
      rcases List.mem_cons.1 h with heq | h
      · cases heq
        exact Or.inr ⟨r', List.mem_cons_self, rfl⟩
      · rcases ih h with hnew | ⟨r₀, hmem, hr⟩
        · exact Or.inl hnew
        · exact Or.inr ⟨r₀, List.mem_cons_of_mem _ hmem, hr⟩
  | hfound items ih =>
      rw [linkAll_occurrence hne] at h
      rcases List.mem_cons.1 h with heq | h
      · cases heq
        exact Or.inl ⟨rfl, rfl⟩
      · rcases ih h with hnew | ⟨r₀, hmem, hr⟩
        · exact Or.inl hnew
        · exact Or.inr ⟨r₀, List.mem_append_right _ hmem, hr⟩
  | hchar c items hstarts ih =>
      rw [linkAll_char hstarts] at h
      rcases List.mem_cons.1 h with heq | h
      · cases heq
      · rcases ih h with hnew | ⟨r₀, hmem, hr⟩
        · exact Or.inl hnew
        · exact Or.inr ⟨r₀, List.mem_cons_of_mem _ hmem, hr⟩

/-! ## The pass on the text -/

/-- The characters before the first link, and what follows begins with a separator. -/
theorem shown_eq_leading (items : List Item) : items.flatMap Item.shown = leading items ∨
    ∃ rest, items.flatMap Item.shown = leading items ++ '<' :: rest := by
  induction items with
  | nil => exact Or.inl rfl
  | cons item items ih =>
      cases item with
      | link v r => exact Or.inr ⟨_, rfl⟩
      | char c =>
          rcases ih with heq | ⟨rest, heq⟩
          · left
            rw [List.flatMap_cons, heq]
            rfl
          · right
            refine ⟨rest, ?_⟩
            rw [List.flatMap_cons, heq]
            rfl

/-- A link is changed at its root only. -/
theorem replaceAll_linkText (hu : IsUid uid) (hv : ¬uid.toList <:+: v.toList) (new : List Char)
    (r rest : List Char) : replaceAll uid.toList new (linkText v.toList r ++ rest) =
      linkText v.toList (replaceAll uid.toList new r) ++ replaceAll uid.toList new rest := by
  have hne := toList_ne_nil hu
  have hlt := lt_notMem hu
  have hslash := slash_notMem hu
  have hquote := quote_notMem hu
  have hgt := gt_notMem hu
  -- no piece between the separators is as long as a uid
  have hshort : ∀ l : List Char, l.length < 66 → ¬uid.toList <:+: l :=
    fun l hl h => absurd h.length_le (by have := hu.length; omega)
  have hopen : ¬uid.toList <:+: "a href=\"/analysis".toList := hshort _ (by simp)
  have hro : ¬uid.toList <:+: "ro".toList := hshort _ (by simp)
  have hnil : ¬uid.toList <:+: [] := hshort [] (by decide)
  have ha : ¬uid.toList <:+: ['a'] := hshort ['a'] (by decide)
  have hstart (b : List Char) : replaceAll uid.toList new ('<' :: b) = '<' :: replaceAll uid.toList new b :=
    Replace.replaceAll_append_sep_of_absent hne hlt hnil b
  have hslash' (b : List Char) : replaceAll uid.toList new ('/' :: b) = '/' :: replaceAll uid.toList new b :=
    Replace.replaceAll_append_sep_of_absent hne hslash hnil b
  have hgt' (b : List Char) : replaceAll uid.toList new ('>' :: b) = '>' :: replaceAll uid.toList new b :=
    Replace.replaceAll_append_sep_of_absent hne hgt hnil b
  have hend (b : List Char) : replaceAll uid.toList new ('a' :: '>' :: b) =
      'a' :: '>' :: replaceAll uid.toList new b :=
    Replace.replaceAll_append_sep_of_absent hne hgt ha b
  unfold linkText
  simp only [List.cons_append, List.append_assoc, List.nil_append]
  rw [hstart, Replace.replaceAll_append_sep_of_absent hne hslash hopen,
    Replace.replaceAll_append_sep_of_absent hne hslash hv,
    Replace.replaceAll_append_sep_of_absent hne hslash hro,
    Replace.replaceAll_append_sep hne hquote, hgt',
    Replace.replaceAll_append_sep_of_absent hne hlt hv, hslash', hend]

/-- A pass over the items is the replacement in the text, when the uid is in no uid of
a link. -/
theorem shown_linkAll (root : List Char) (hu : IsUid uid) (items : List Item)
    (hlinks : ∀ v r, .link v r ∈ items → ¬uid.toList <:+: v.toList) :
    (linkAll uid root items).flatMap Item.shown =
      replaceAll uid.toList (linkText uid.toList root) (items.flatMap Item.shown) := by
  have hne := toList_ne_nil hu
  induction items using linkAll_induction hne with
  | hnil => rfl
  | hlink v r items ih =>
      have hrest := ih fun v' r' h => hlinks v' r' (List.mem_cons_of_mem _ h)
      rw [linkAll_link, List.flatMap_cons, List.flatMap_cons, hrest, Item.shown, Item.shown,
        replaceAll_linkText hu (hlinks v r List.mem_cons_self)]
  | hfound items ih =>
      have hrest := ih fun v' r' h => hlinks v' r' (List.mem_append_right _ h)
      rw [linkAll_occurrence hne, List.flatMap_cons, List.flatMap_append, hrest, shown_chars,
        Replace.replaceAll_occurrence hne]
      rfl
  | hchar c items hstarts ih =>
      have hrest := ih fun v' r' h => hlinks v' r' (List.mem_cons_of_mem _ h)
      have hstarts' : ¬uid.toList <+: c :: items.flatMap Item.shown := by
        rcases shown_eq_leading items with heq | ⟨rest, heq⟩
        · rwa [heq]
        · rw [heq]
          intro h
          apply hstarts
          exact Replace.prefix_of_prefix_append_sep (a := c :: leading items)
            (lt_notMem hu) h
      rw [linkAll_char hstarts, List.flatMap_cons, List.flatMap_cons, hrest]
      exact (Replace.replaceAll_cons hstarts').symm

/-! ## The items are determined by the texts -/

/-- The links have uids, and their roots are as they were or begin to differ. -/
def Sound (root : List Char) (items : List Item) : Prop :=
  ∀ v r, .link v r ∈ items → IsUid v ∧ (r = root ∨ Diverges '<' r root)

/-- The links have uids, and their roots are as they were. -/
def Plain (root : List Char) (items : List Item) : Prop :=
  ∀ v r, .link v r ∈ items → IsUid v ∧ r = root

theorem linkText_inj (hu : IsUid uid) (hv : IsUid v) {r' rest rest' : List Char}
    (hr : r = root ∨ Diverges '<' r root) (hr' : r' = root)
    (h : linkText uid.toList r ++ rest = linkText v.toList r' ++ rest') : uid = v ∧ r = r' ∧ rest = rest' := by
  unfold linkText at h
  simp only [List.cons_append, List.append_assoc, List.nil_append] at h
  have huids := (List.cons.inj (List.append_cancel_left (List.cons.inj h).2)).2
  obtain ⟨huv, hroots⟩ := Replace.append_sep_inj (slash_notMem hu)
    (slash_notMem hv) huids
  have hroots := (List.cons.inj (List.append_cancel_left hroots)).2
  rcases hr with rfl | hdiverges
  · rw [hr'] at hroots ⊢
    have hafter := List.append_cancel_left hroots
    rw [huv] at hafter
    simp only [List.cons.injEq, true_and, List.append_cancel_left_eq] at hafter
    exact ⟨String.toList_inj.1 huv, rfl, hafter⟩
  · rw [hr'] at hroots
    exact absurd hroots (hdiverges.append_ne _ _)

/-- No uid begins as a link does. -/
theorem lt_cons_ne (hu : IsUid uid) (x y : List Char) : '<' :: y ≠ uid.toList ++ x := by
  intro h
  cases hcs : uid.toList with
  | nil => exact toList_ne_nil hu hcs
  | cons c cs =>
      rw [hcs] at h
      obtain rfl : '<' = c := (List.cons.inj h).1
      apply lt_notMem hu
      rw [hcs]
      exact List.mem_cons_self

theorem text_ne_nil (hp : Sound root items) (hne : items ≠ []) : items.flatMap Item.text ≠ [] := by
  cases items with
  | nil => exact absurd rfl hne
  | cons item items =>
      cases item with
      | char c => exact List.cons_ne_nil c _
      | link v r => exact List.append_ne_nil_of_left_ne_nil (toList_ne_nil (hp v r List.mem_cons_self).1) _

theorem Plain.sound (hp : Plain root items) : Sound root items :=
  fun v r h => ⟨(hp v r h).1, Or.inl (hp v r h).2⟩

/-- Items that stand for the same input and show the same result are the same: where one
has a link and the other has not, the results differ. -/
theorem eq_of_shown_eq (hs : Sound root items) (hp : Plain root items')
    (htext : items.flatMap Item.text = items'.flatMap Item.text)
    (hshown : items.flatMap Item.shown = items'.flatMap Item.shown) : items = items' := by
  induction items generalizing items' with
  | nil =>
      by_contra hne
      exact text_ne_nil hp.sound (fun h => hne h.symm) htext.symm
  | cons item items ih =>
      have hs' : Sound root items := fun v r h => hs v r (List.mem_cons_of_mem _ h)
      cases items' with
      | nil => exact absurd htext (text_ne_nil hs (List.cons_ne_nil item items))
      | cons item' items' =>
          have hp' : Plain root items' := fun v r h => hp v r (List.mem_cons_of_mem _ h)
          rw [List.flatMap_cons, List.flatMap_cons] at htext hshown
          cases item with
          | char c =>
              cases item' with
              | char c' =>
                  obtain ⟨hc, htext⟩ := List.cons.inj htext
                  rw [hc, ih hs' hp' htext (List.cons.inj hshown).2]
              | link v' r' =>
                  obtain rfl : c = '<' := (List.cons.inj hshown).1
                  exact absurd htext (lt_cons_ne (hp v' r' List.mem_cons_self).1 _ _)
          | link v r =>
              cases item' with
              | char c' =>
                  obtain rfl : '<' = c' := (List.cons.inj hshown).1
                  exact absurd htext.symm (lt_cons_ne (hs v r List.mem_cons_self).1 _ _)
              | link v' r' =>
                  obtain ⟨hv, hr⟩ := hs v r List.mem_cons_self
                  obtain ⟨hv', hr'⟩ := hp v' r' List.mem_cons_self
                  obtain ⟨rfl, rfl, hrest⟩ := linkText_inj hv hv' hr hr' hshown
                  rw [ih hs' hp' (List.append_cancel_left htext) hrest]

/-- A pass keeps the items sound. -/
theorem Sound.linkAll (hs : Sound root items) (hu : IsUid uid) : Sound root (linkAll uid root items) := by
  intro v r h
  rcases mem_linkAll (toList_ne_nil hu) items h with ⟨rfl, rfl⟩ | ⟨r', hmem, rfl⟩
  · exact ⟨hu, Or.inl rfl⟩
  · obtain ⟨hv, hr'⟩ := hs v r' hmem
    have hlt := lt_notMem hu
    refine ⟨hv, ?_⟩
    unfold linkText
    rcases hr' with rfl | hdiverges
    · rcases Replace.replaceAll_cases (toList_ne_nil hu) hlt _ r' with ⟨-, heq⟩ | hdiverges
      · exact Or.inl heq
      · exact Or.inr hdiverges
    · exact Or.inr (hdiverges.replaceAll (toList_ne_nil hu) hlt _)

/-! ## The intended passes -/

/-- The items when the links of some uids were made. -/
def linkedItems (root : List Char) (keep : Uid → Prop) [DecidablePred keep] (segs : List Segment) :
    List Item :=
  segs.flatMap fun
    | .uid u => if keep u then [.link u root] else u.toList.map .char
    | .other c => [.char c]

/-- What a pass must not meet: the uid in the root of an earlier link, or inside a later
match. -/
def StepOk (root : List Char) (uid : Uid) : List Segment → Prop
  | [] => True
  | .other _ :: segs => StepOk root uid segs
  | .uid v :: segs =>
      (v < uid → ¬uid.toList <:+: root) ∧
        (uid < v → ∀ d < v.toList.length,
          ¬uid.toList <+: v.toList.drop d ++ leading (linkedItems root (· < uid) segs)) ∧
        StepOk root uid segs

end

section

variable {uid v : Uid} {root l s : List Char} {c : Char} {items items' : List Item} {segs : List Segment}
  {keep keep' : Uid → Prop} [DecidablePred keep] [DecidablePred keep']

theorem linkedItems_uid (keep : Uid → Prop) [DecidablePred keep] (h : keep uid) :
    linkedItems root keep (.uid uid :: segs) = .link uid root :: linkedItems root keep segs := by
  show (if keep uid then _ else _) ++ linkedItems root keep segs = _
  rw [if_pos h]
  rfl

theorem linkedItems_uid_not (keep : Uid → Prop) [DecidablePred keep] (h : ¬keep uid) :
    linkedItems root keep (.uid uid :: segs) = uid.toList.map .char ++ linkedItems root keep segs := by
  show (if keep uid then _ else _) ++ linkedItems root keep segs = _
  rw [if_neg h]

theorem linkedItems_other :
    linkedItems root keep (.other c :: segs) = .char c :: linkedItems root keep segs := rfl

theorem text_linkedItems (root : List Char) (keep : Uid → Prop) [DecidablePred keep] (segs : List Segment) :
    (linkedItems root keep segs).flatMap Item.text = segs.flatMap Segment.text := by
  induction segs with
  | nil => rfl
  | cons seg segs ih =>
      cases seg with
      | other c =>
          rw [linkedItems_other, List.flatMap_cons, List.flatMap_cons, ih]
          rfl
      | uid u =>
          by_cases h : keep u
          · rw [linkedItems_uid keep h, List.flatMap_cons, List.flatMap_cons, ih]
            rfl
          · rw [linkedItems_uid_not keep h, List.flatMap_append, List.flatMap_cons, ih, text_chars]
            rfl

theorem leading_prefix_text (items : List Item) : leading items <+: items.flatMap Item.text := by
  induction items with
  | nil => exact List.nil_prefix
  | cons item items ih =>
      cases item with
      | link v r => exact List.nil_prefix
      | char c => exact List.cons_prefix_cons.2 ⟨rfl, ih⟩

/-- A pass leaves characters when the uid starts at none of them. -/
theorem linkAll_chars (l : List Char) :
    linkAll uid root (l.map .char ++ items) = l.map .char ++ items' ↔
      (∀ d < l.length, ¬uid.toList <+: l.drop d ++ leading items) ∧ linkAll uid root items = items' := by
  induction l with
  | nil => simp
  | cons c l ih =>
      have hleading : leading (l.map .char ++ items) = l ++ leading items := leading_append l items
      rw [List.map_cons, List.cons_append, List.cons_append]
      by_cases hstarts : uid.toList <+: c :: (l ++ leading items)
      · constructor
        · intro h
          rw [linkAll, linkFrom, hleading, if_pos hstarts] at h
          cases (List.cons.inj h).1
        · rintro ⟨h, -⟩
          exact absurd hstarts (h 0 (Nat.succ_pos _))
      · have hstarts' : ¬uid.toList <+: c :: leading (l.map .char ++ items) := by rwa [hleading]
        rw [linkAll_char hstarts', List.cons.injEq, eq_self_iff_true, true_and, ih]
        constructor
        · rintro ⟨h, heq⟩
          refine ⟨fun d hd => ?_, heq⟩
          cases d with
          | zero => exact hstarts
          | succ d => exact h d (Nat.lt_of_succ_lt_succ hd)
        · rintro ⟨h, heq⟩
          exact ⟨fun d hd => h (d + 1) (Nat.succ_lt_succ hd), heq⟩

/-- One pass is the intended one when it meets nothing else. -/
theorem linkAll_eq_iff (hdec : Decomposes s segs) (hu : IsUid uid) :
    linkAll uid root (linkedItems root (· < uid) segs) = linkedItems root (· ≤ uid) segs ↔
      StepOk root uid segs := by
  induction hdec with
  | nil => exact ⟨fun _ => trivial, fun _ => rfl⟩
  | other c s segs hmatch hrest ih =>
      -- a uid starts at a match only
      have hstarts : ¬uid.toList <+: c :: leading (linkedItems root (· < uid) segs) := by
        intro h
        apply matchAt_ne_none (s := c :: s) hu ?_ hmatch
        have hleading := leading_prefix_text (linkedItems root (· < uid) segs)
        rw [text_linkedItems root _ segs, hrest.text_eq] at hleading
        exact h.trans (List.cons_prefix_cons.2 ⟨rfl, hleading⟩)
      rw [linkedItems_other, linkedItems_other, linkAll_char hstarts, List.cons.injEq, StepOk, ← ih]
      exact ⟨fun h => h.2, fun h => ⟨rfl, h⟩⟩
  | uid v s segs hmatch hrest ih =>
      rw [StepOk, ← ih]
      rcases lt_trichotomy v uid with hlt | rfl | hgt
      · rw [linkedItems_uid (· < uid) hlt, linkedItems_uid (· ≤ uid) hlt.le, linkAll_link, List.cons.injEq, Item.link.injEq]
        have hroot : replaceAll uid.toList (linkText uid.toList root) root = root ↔ ¬uid.toList <:+: root :=
          Replace.replaceAll_eq_self_iff (toList_ne_nil hu)
            (lt_notMem hu) _ root
        rw [hroot]
        constructor
        · rintro ⟨⟨-, h⟩, heq⟩
          exact ⟨fun _ => h, fun hgt => absurd hgt (lt_asymm hlt), heq⟩
        · rintro ⟨h, -, heq⟩
          exact ⟨⟨rfl, h hlt⟩, heq⟩
      · rw [linkedItems_uid_not (· < v) (lt_irrefl v), linkedItems_uid (· ≤ v) le_rfl,
          linkAll_occurrence (toList_ne_nil hu), List.cons.injEq]
        constructor
        · rintro ⟨-, heq⟩
          exact ⟨fun h => absurd h (lt_irrefl _), fun h => absurd h (lt_irrefl _), heq⟩
        · rintro ⟨-, -, heq⟩
          exact ⟨rfl, heq⟩
      · rw [linkedItems_uid_not (· < uid) (lt_asymm hgt), linkedItems_uid_not (· ≤ uid) (not_le_of_gt hgt),
          linkAll_chars]
        constructor
        · rintro ⟨h, heq⟩
          exact ⟨fun hlt => absurd hgt (lt_asymm hlt), fun _ => h, heq⟩
        · rintro ⟨-, h, heq⟩
          exact ⟨h hgt, heq⟩

theorem linkedItems_congr (h : ∀ v, .uid v ∈ segs → (keep v ↔ keep' v)) :
    linkedItems root keep segs = linkedItems root keep' segs := by
  induction segs with
  | nil => rfl
  | cons seg segs ih =>
      have hrest := ih fun v hv => h v (List.mem_cons_of_mem _ hv)
      cases seg with
      | other c => rw [linkedItems_other, linkedItems_other, hrest]
      | uid v =>
          have hv := h v List.mem_cons_self
          by_cases hkeep : keep v
          · rw [linkedItems_uid keep hkeep, linkedItems_uid keep' (hv.1 hkeep), hrest]
          · rw [linkedItems_uid_not keep hkeep, linkedItems_uid_not keep' (hv.not.1 hkeep), hrest]

theorem plain_linkedItems (hdec : Decomposes s segs) : Plain root (linkedItems root keep segs) := by
  intro v r h
  rw [linkedItems, List.mem_flatMap] at h
  obtain ⟨seg, hseg, h⟩ := h
  cases seg with
  | other c => exact absurd (List.mem_singleton.1 h) Item.noConfusion
  | uid u =>
      simp only at h
      split at h
      · cases List.mem_singleton.1 h
        exact ⟨hdec.isUid hseg, rfl⟩
      · obtain ⟨c, -, hc⟩ := List.mem_map.1 h
        cases hc

/-! ## Undoing a pass -/

/-- The links of a uid become characters again. -/
def unlink (uid : Uid) (items : List Item) : List Item :=
  items.flatMap fun
    | .link v r => if v = uid then v.toList.map .char else [.link v r]
    | .char c => [.char c]

theorem unlink_chars (l : List Char) (items : List Item) :
    unlink uid (l.map .char ++ items) = l.map .char ++ unlink uid items := by
  rw [unlink, List.flatMap_append]
  congr 1
  rw [List.flatMap_map]
  exact List.flatMap_pure_eq_map _ l

theorem unlink_self {r : List Char} : unlink uid (.link uid r :: items) = uid.toList.map .char ++ unlink uid items := by
  show (if uid = uid then _ else _) ++ unlink uid items = _
  rw [if_pos rfl]

theorem unlink_ne {r : List Char} (h : v ≠ uid) : unlink uid (.link v r :: items) = .link v r :: unlink uid items := by
  show (if v = uid then _ else _) ++ unlink uid items = _
  rw [if_neg h]
  rfl

/-- A pass that changed no root is undone when its links are undone. -/
theorem unlink_linkAll (hu : IsUid uid) (items : List Item) (hs : Sound root items)
    (hno : ∀ r, .link uid r ∉ items) (hp : Plain root (linkAll uid root items)) :
    unlink uid (linkAll uid root items) = items := by
  have hne := toList_ne_nil hu
  have hlt := lt_notMem hu
  induction items using linkAll_induction hne with
  | hnil => rfl
  | hlink v r items ih =>
      rw [linkAll_link] at hp ⊢
      have hrest := ih (fun v r h => hs v r (List.mem_cons_of_mem _ h))
        (fun r h => hno r (List.mem_cons_of_mem _ h)) (fun v r h => hp v r (List.mem_cons_of_mem _ h))
      have hvne : v ≠ uid := by
        rintro rfl
        exact hno r List.mem_cons_self
      have hroot := (hp v _ List.mem_cons_self).2
      -- a root that differs stays different
      have hr : r = root := by
        rcases (hs v r List.mem_cons_self).2 with hr | hdiverges
        · exact hr
        · exact absurd hroot (hdiverges.replaceAll hne hlt _).ne
      rw [unlink_ne hvne, hrest, hroot, hr]
  | hfound items ih =>
      rw [linkAll_occurrence hne] at hp ⊢
      have hrest := ih (fun v r h => hs v r (List.mem_append_right _ h))
        (fun r h => hno r (List.mem_append_right _ h)) (fun v r h => hp v r (List.mem_cons_of_mem _ h))
      rw [unlink_self, hrest]
  | hchar c items hstarts ih =>
      rw [linkAll_char hstarts] at hp ⊢
      have hrest := ih (fun v r h => hs v r (List.mem_cons_of_mem _ h))
        (fun r h => hno r (List.mem_cons_of_mem _ h)) (fun v r h => hp v r (List.mem_cons_of_mem _ h))
      exact congrArg (.char c :: ·) hrest

theorem unlink_linkedItems (segs : List Segment) :
    unlink uid (linkedItems root (· ≤ uid) segs) = linkedItems root (· < uid) segs := by
  induction segs with
  | nil => rfl
  | cons seg segs ih =>
      cases seg with
      | other c => exact congrArg (.char c :: ·) ih
      | uid v =>
          rcases lt_trichotomy v uid with hlt | rfl | hgt
          · rw [linkedItems_uid (· ≤ uid) hlt.le, linkedItems_uid (· < uid) hlt, unlink_ne hlt.ne, ih]
          · rw [linkedItems_uid (· ≤ v) le_rfl, linkedItems_uid_not (· < v) (lt_irrefl v), unlink_self, ih]
          · rw [linkedItems_uid_not (· ≤ uid) (not_le_of_gt hgt), linkedItems_uid_not (· < uid) (lt_asymm hgt),
              unlink_chars, ih]

/-! ## All passes -/

/-- A pass leads to the intended items exactly when it starts at the intended items and
meets nothing else. -/
theorem linkAll_eq_linkedItems (hdec : Decomposes s segs) (hu : IsUid uid) (hs : Sound root items)
    (hno : ∀ r, .link uid r ∉ items) :
    linkAll uid root items = linkedItems root (· ≤ uid) segs ↔
      items = linkedItems root (· < uid) segs ∧ StepOk root uid segs := by
  constructor
  · intro h
    have hp : Plain root (linkAll uid root items) := by
      rw [h]
      exact plain_linkedItems hdec
    have hitems : items = linkedItems root (· < uid) segs := by
      rw [← unlink_linkAll hu items hs hno hp, h, unlink_linkedItems]
    refine ⟨hitems, (linkAll_eq_iff hdec hu).1 ?_⟩
    rw [← hitems, h]
  · rintro ⟨rfl, hok⟩
    exact (linkAll_eq_iff hdec hu).2 hok

/-- The passes lead to the intended items exactly when they start at them and none meets
anything else. -/
theorem passes_iff (hdec : Decomposes s segs) (todo : List Uid) (hsorted : todo.Pairwise (· < ·))
    (huids : ∀ u ∈ todo, IsUid u) (hbelow : ∀ v, .uid v ∈ segs → v ∉ todo → ∀ u ∈ todo, v < u)
    (hs : Sound root items) (hlinks : ∀ v r, .link v r ∈ items → ∀ u ∈ todo, v < u) :
    todo.foldl (fun items u => linkAll u root items) items = linkedItems root (fun _ => True) segs ↔
      items = linkedItems root (· ∉ todo) segs ∧ ∀ u ∈ todo, StepOk root u segs := by
  induction todo generalizing items with
  | nil =>
      have hall : linkedItems root (· ∉ []) segs = linkedItems root (fun _ => True) segs :=
        linkedItems_congr fun v _ => ⟨fun _ => trivial, fun _ => List.not_mem_nil⟩
      rw [hall]
      exact ⟨fun h => ⟨h, fun u hu => absurd hu List.not_mem_nil⟩, fun h => h.1⟩
  | cons u todo ih =>
      obtain ⟨hfirst, hsorted'⟩ := List.pairwise_cons.1 hsorted
      have hu := huids u List.mem_cons_self
      have hafter : ∀ v, .uid v ∈ segs → (v ∉ todo ↔ v ≤ u) := by
        intro v hv
        constructor
        · intro hnot
          by_cases heq : v = u
          · exact heq.le
          · refine (hbelow v hv ?_ u List.mem_cons_self).le
            exact fun hmem => (List.mem_cons.1 hmem).elim heq hnot
        · exact fun hle hmem => absurd (hfirst v hmem) (not_lt_of_ge hle)
      have hbefore : ∀ v, .uid v ∈ segs → (v ∉ u :: todo ↔ v < u) := by
        intro v hv
        constructor
        · exact fun hnot => hbelow v hv hnot u List.mem_cons_self
        · intro hlt hmem
          rcases List.mem_cons.1 hmem with rfl | hmem
          · exact lt_irrefl _ hlt
          · exact lt_asymm hlt (hfirst v hmem)
      have hstep := ih hsorted' (fun u' h => huids u' (List.mem_cons_of_mem _ h))
        (fun v hv hnot u' hu' => ((hafter v hv).1 hnot).trans_lt (hfirst u' hu')) (hs.linkAll hu) ?_
      · rw [List.foldl_cons, hstep, linkedItems_congr hafter, linkedItems_congr hbefore,
          linkAll_eq_linkedItems hdec hu hs fun r h => lt_irrefl u (hlinks u r h u List.mem_cons_self),
          List.forall_mem_cons, and_assoc]
      · intro v r h u' hu'
        rcases mem_linkAll (toList_ne_nil hu) items h with ⟨rfl, -⟩ | ⟨r', hmem, -⟩
        · exact hfirst u' hu'
        · exact hlinks v r' hmem u' (List.mem_cons_of_mem _ hu')

theorem sound_passes (todo : List Uid) (huids : ∀ u ∈ todo, IsUid u) (hs : Sound root items) :
    Sound root (todo.foldl (fun items u => linkAll u root items) items) := by
  induction todo generalizing items with
  | nil => exact hs
  | cons u todo ih =>
      exact ih (fun u' h => huids u' (List.mem_cons_of_mem _ h)) (hs.linkAll (huids u List.mem_cons_self))

theorem text_passes (todo : List Uid) (huids : ∀ u ∈ todo, IsUid u) :
    (todo.foldl (fun items u => linkAll u root items) items).flatMap Item.text =
      items.flatMap Item.text := by
  induction todo generalizing items with
  | nil => rfl
  | cons u todo ih =>
      rw [List.foldl_cons, ih fun u' h => huids u' (List.mem_cons_of_mem _ h),
        text_linkAll (toList_ne_nil (huids u List.mem_cons_self))]

/-- The passes over the items are the replacements in the text. -/
theorem shown_passes (todo : List Uid) (hsorted : todo.Pairwise (· < ·)) (huids : ∀ u ∈ todo, IsUid u)
    (hs : Sound root items) (hlinks : ∀ v r, .link v r ∈ items → ∀ u ∈ todo, v < u) :
    (todo.foldl (fun items u => linkAll u root items) items).flatMap Item.shown =
      todo.foldl (fun tmp u => replaceAll u.toList (linkText u.toList root) tmp)
        (items.flatMap Item.shown) := by
  induction todo generalizing items with
  | nil => rfl
  | cons u todo ih =>
      obtain ⟨hfirst, hsorted'⟩ := List.pairwise_cons.1 hsorted
      have hu := huids u List.mem_cons_self
      have hshown := shown_linkAll root hu items fun v r h =>
        not_infix_of_lt hu (hs v r h).1 (hlinks v r h u List.mem_cons_self)
      rw [List.foldl_cons, List.foldl_cons, ← hshown]
      refine ih hsorted' (fun u' h => huids u' (List.mem_cons_of_mem _ h)) (hs.linkAll hu) ?_
      intro v r h u' hu'
      rcases mem_linkAll (toList_ne_nil hu) items h with ⟨rfl, -⟩ | ⟨r', hmem, -⟩
      · exact hfirst u' hu'
      · exact hlinks v r' hmem u' (List.mem_cons_of_mem _ hu')

/-! ## The condition -/

/-- A match of a smaller uid begins before some characters are read. -/
def CutBefore (uid : Uid) (n : Nat) (segs : List Segment) : Prop :=
  ∃ between w rest, segs = between ++ .uid w :: rest ∧ w < uid ∧ (between.flatMap Segment.text).length < n

theorem leading_cases (root : List Char) (keep : Uid → Prop) [DecidablePred keep] (segs : List Segment) :
    leading (linkedItems root keep segs) = segs.flatMap Segment.text ∨ ∃ between w rest,
      segs = between ++ .uid w :: rest ∧ keep w ∧
        leading (linkedItems root keep segs) = between.flatMap Segment.text := by
  induction segs with
  | nil => exact Or.inl rfl
  | cons seg segs ih =>
      cases seg with
      | other c =>
          rcases ih with heq | ⟨between, w, rest, rfl, hw, heq⟩
          · exact Or.inl (congrArg (c :: ·) heq)
          · exact Or.inr ⟨.other c :: between, w, rest, rfl, hw, congrArg (c :: ·) heq⟩
      | uid v =>
          by_cases hv : keep v
          · exact Or.inr ⟨[], v, segs, rfl, hv, by rw [linkedItems_uid keep hv]; rfl⟩
          · rw [linkedItems_uid_not keep hv, leading_append]
            rcases ih with heq | ⟨between, w, rest, rfl, hw, heq⟩
            · exact Or.inl (congrArg (v.toList ++ ·) heq)
            · exact Or.inr ⟨.uid v :: between, w, rest, rfl, hw, congrArg (v.toList ++ ·) heq⟩

theorem length_leading_le (root : List Char) (keep : Uid → Prop) [DecidablePred keep]
    (between rest : List Segment) (h : keep v) :
    (leading (linkedItems root keep (between ++ .uid v :: rest))).length ≤
      (between.flatMap Segment.text).length := by
  induction between with
  | nil =>
      rw [List.nil_append, linkedItems_uid keep h]
      exact Nat.le_refl 0
  | cons seg between ih =>
      cases seg with
      | other c => exact Nat.succ_le_succ ih
      | uid u =>
          rw [List.cons_append]
          by_cases hu : keep u
          · rw [linkedItems_uid keep hu]
            exact Nat.zero_le _
          · rw [linkedItems_uid_not keep hu, leading_append, List.flatMap_cons, List.length_append,
              List.length_append]
            exact Nat.add_le_add_left ih _

/-- A uid starts among the characters that are left when it starts in the text and is not
cut by a link. -/
theorem prefix_leading_iff (l : List Char) (segs : List Segment) :
    uid.toList <+: l ++ leading (linkedItems root (· < uid) segs) ↔
      uid.toList <+: l ++ segs.flatMap Segment.text ∧ ¬CutBefore uid (uid.toList.length - l.length) segs := by
  have hleading : l ++ leading (linkedItems root (· < uid) segs) <+: l ++ segs.flatMap Segment.text := by
    apply (List.prefix_append_right_inj l).2
    rw [← text_linkedItems root (· < uid)]
    exact leading_prefix_text _
  constructor
  · intro h
    refine ⟨h.trans hleading, ?_⟩
    rintro ⟨between, w, rest, rfl, hw, hlen⟩
    have hle := length_leading_le root (· < uid) between rest hw
    have hread := h.length_le
    rw [List.length_append] at hread
    omega
  · rintro ⟨h, hcut⟩
    rcases leading_cases root (· < uid) segs with heq | ⟨between, w, rest, hsegs, hw, heq⟩
    · rwa [heq]
    · apply List.prefix_of_prefix_length_le h hleading
      have hlen : uid.toList.length - l.length ≤ (between.flatMap Segment.text).length := by
        by_contra hlt
        exact hcut ⟨between, w, rest, hsegs, hw, Nat.lt_of_not_le hlt⟩
      rw [List.length_append, heq]
      omega

theorem stepOk_iff (segs : List Segment) : StepOk root uid segs ↔
    (∀ v, .uid v ∈ segs → v < uid → ¬uid.toList <:+: root) ∧
      ∀ before v after, segs = before ++ .uid v :: after → uid < v → ∀ d < v.toList.length,
        uid.toList <+: v.toList.drop d ++ after.flatMap Segment.text →
          CutBefore uid (d + uid.toList.length - v.toList.length) after := by
  have hcut : ∀ (v : Uid) (after : List Segment), ∀ d < v.toList.length,
      (¬uid.toList <+: v.toList.drop d ++ leading (linkedItems root (· < uid) after) ↔
        (uid.toList <+: v.toList.drop d ++ after.flatMap Segment.text →
          CutBefore uid (d + uid.toList.length - v.toList.length) after)) := by
    intro v after d hd
    have hlen : uid.toList.length - (v.toList.drop d).length = d + uid.toList.length - v.toList.length := by
      rw [List.length_drop]
      omega
    rw [prefix_leading_iff, hlen]
    exact not_and_not_right
  induction segs with
  | nil =>
      refine ⟨fun _ => ⟨fun v h => absurd h List.not_mem_nil, ?_⟩, fun _ => trivial⟩
      intro before v after h
      exact absurd h.symm (List.append_ne_nil_of_right_ne_nil _ (List.cons_ne_nil _ _))
  | cons seg segs ih =>
      cases seg with
      | other c =>
          refine Iff.trans ih ?_
          constructor
          · rintro ⟨hroot, h⟩
            refine ⟨fun v hv => hroot v ((List.mem_cons.1 hv).resolve_left Segment.noConfusion), ?_⟩
            intro before v after heq
            cases before with
            | nil => cases (List.cons.inj heq).1
            | cons seg before => exact h before v after (List.cons.inj heq).2
          · rintro ⟨hroot, h⟩
            exact ⟨fun v hv => hroot v (List.mem_cons_of_mem _ hv), fun before v after heq =>
              h (.other c :: before) v after (congrArg (.other c :: ·) heq)⟩
      | uid u =>
          refine Iff.trans (and_congr_right' (and_congr_right' ih)) ?_
          constructor
          · rintro ⟨hu, hinside, hroot, h⟩
            constructor
            · intro v hv
              rcases List.mem_cons.1 hv with heq | hv
              · cases heq
                exact hu
              · exact hroot v hv
            · intro before v after heq
              cases before with
              | nil =>
                  cases heq
                  exact fun hlt d hd => (hcut _ _ d hd).1 (hinside hlt d hd)
              | cons seg before => exact h before v after (List.cons.inj heq).2
          · rintro ⟨hroot, h⟩
            exact ⟨hroot u List.mem_cons_self,
              fun hlt d hd => (hcut u segs d hd).2 (h [] u segs rfl hlt d hd),
              fun v hv => hroot v (List.mem_cons_of_mem _ hv), fun before v after heq =>
                h (.uid u :: before) v after (congrArg (.uid u :: ·) heq)⟩

end

/-- No uid of the input but the least one occurs in the uid of the root, and where a uid
of the input starts inside a match of a larger one, a match of a smaller one begins before
its end. -/
structure Undisturbed (inputData : String) (rootUid : Option Uid) : Prop where
  root : ∀ u ∈ findall inputData, ∀ v ∈ findall inputData, v < u → ¬u.toList <:+: (rootText rootUid).toList
  inside : ∀ u ∈ findall inputData, ∀ before v after, segments inputData = before ++ .uid v :: after →
    u < v → ∀ d < v.toList.length, u.toList <+: v.toList.drop d ++ after.flatMap Segment.text →
      CutBefore u (d + u.toList.length - v.toList.length) after

section

variable {inputData : String} {rootUid : Option Uid} {uid : Uid} {segs : List Segment}

theorem mem_getAllUidsInString : uid ∈ getAllUidsInString inputData ↔ uid ∈ findall inputData := by
  rw [getAllUidsInString, (Join.sorted_perm _).mem_iff, List.mem_dedup]

theorem getAllUidsInString_sorted (inputData : String) : (getAllUidsInString inputData).Pairwise (· < ·) := by
  have hle : (getAllUidsInString inputData).Pairwise (· ≤ ·) := List.pairwise_insertionSort (· ≤ ·) _
  have hnodup : (getAllUidsInString inputData).Nodup := (Join.sorted_perm _).nodup_iff.2 (List.nodup_dedup _)
  exact (hle.and hnodup).imp fun h => lt_of_le_of_ne h.1 h.2

theorem toList_uidsToLink : (uidsToLink inputData rootUid).toList =
    (getAllUidsInString inputData).foldl
      (fun tmp u => replaceAll u.toList (linkText u.toList (rootText rootUid).toList) tmp) inputData.toList := by
  have hfold : ∀ (us : List Uid) (tmp : String),
      (us.foldl (fun tmp u => replace tmp u (linkTo u rootUid)) tmp).toList =
        us.foldl (fun tmp u => replaceAll u.toList (linkText u.toList (rootText rootUid).toList) tmp)
          tmp.toList := by
    intro us
    induction us with
    | nil => exact fun tmp => rfl
    | cons u us ih =>
        intro tmp
        rw [List.foldl_cons, List.foldl_cons, ih, replace, String.toList_ofList, toList_linkTo]
  exact hfold _ _

theorem linkedItems_none {root : List Char} {keep : Uid → Prop} [DecidablePred keep]
    (h : ∀ v, .uid v ∈ segs → ¬keep v) :
    linkedItems root keep segs = (segs.flatMap Segment.text).map .char := by
  induction segs with
  | nil => rfl
  | cons seg segs ih =>
      have hrest := ih fun v hv => h v (List.mem_cons_of_mem _ hv)
      cases seg with
      | other c => rw [linkedItems_other, hrest]; rfl
      | uid v =>
          rw [linkedItems_uid_not keep (h v List.mem_cons_self), hrest, List.flatMap_cons, List.map_append]
          rfl

/-- When all links were made the items show the intended result. -/
theorem shown_linkedItems (rootUid : Option Uid) (segs : List Segment) :
    (linkedItems (rootText rootUid).toList (fun _ => True) segs).flatMap Item.shown =
      segs.flatMap (Segment.linked rootUid) := by
  induction segs with
  | nil => rfl
  | cons seg segs ih =>
      cases seg with
      | other c => rw [linkedItems_other, List.flatMap_cons, List.flatMap_cons, ih]; rfl
      | uid v =>
          rw [linkedItems_uid _ trivial, List.flatMap_cons, List.flatMap_cons, ih, Segment.linked,
            toList_linkTo]
          rfl

/-- Every uid becomes exactly one link exactly when the replacements do not disturb each
other. -/
theorem linksOnce_iff_undisturbed (inputData : String) (rootUid : Option Uid) :
    LinksOnce inputData rootUid (uidsToLink inputData rootUid) ↔ Undisturbed inputData rootUid := by
  have hdec := decomposes_segments inputData
  have hsorted := getAllUidsInString_sorted inputData
  have huids : ∀ u ∈ getAllUidsInString inputData, IsUid u :=
    fun u hu => hdec.isUid (mem_findall.1 (mem_getAllUidsInString.1 hu))
  have hall : ∀ v, .uid v ∈ segments inputData → v ∈ getAllUidsInString inputData :=
    fun v hv => mem_getAllUidsInString.2 (mem_findall.2 hv)
  -- the input is the items without links
  let start : List Item := inputData.toList.map .char
  have hnolink : ∀ v r, .link v r ∉ start := by
    intro v r h
    obtain ⟨c, -, hc⟩ := List.mem_map.1 h
    cases hc
  have hstart : start = linkedItems (rootText rootUid).toList (· ∉ getAllUidsInString inputData)
      (segments inputData) := by
    rw [linkedItems_none fun v hv => not_not.2 (hall v hv), hdec.text_eq]
  have hsound : Sound (rootText rootUid).toList start := fun v r h => absurd h (hnolink v r)
  have hlinks : ∀ v r, .link v r ∈ start → ∀ u ∈ getAllUidsInString inputData, v < u :=
    fun v r h => absurd h (hnolink v r)
  have hpasses := passes_iff hdec (getAllUidsInString inputData) hsorted huids
    (fun v hv hnot => absurd (hall v hv) hnot) hsound hlinks
  have hshown := shown_passes (getAllUidsInString inputData) hsorted huids hsound hlinks
  rw [shown_chars, ← toList_uidsToLink] at hshown
  have hresult := shown_linkedItems rootUid (segments inputData)
  have hok : (∀ u ∈ getAllUidsInString inputData, StepOk (rootText rootUid).toList u (segments inputData)) ↔
      Undisturbed inputData rootUid := by
    constructor
    · intro h
      constructor
      · intro u hu v hv hlt
        have hu := (stepOk_iff _).1 (h u (mem_getAllUidsInString.2 hu))
        exact hu.1 v (mem_findall.1 hv) hlt
      · intro u hu before v after heq
        have hu := (stepOk_iff _).1 (h u (mem_getAllUidsInString.2 hu))
        exact hu.2 before v after heq
    · intro h u hu
      have hu := mem_getAllUidsInString.1 hu
      exact (stepOk_iff _).2 ⟨fun v hv => h.root u hu v (mem_findall.2 hv), h.inside u hu⟩
  rw [← hok]
  constructor
  · intro h
    have heq := h.result_eq
    rw [← hshown, ← hresult] at heq
    refine (hpasses.1 (eq_of_shown_eq (sound_passes _ huids hsound) (plain_linkedItems hdec) ?_ heq)).2
    rw [text_passes _ huids, text_linkedItems, hdec.text_eq, text_chars]
  · intro h
    refine ⟨?_, hdec.text_eq, ?_⟩
    · rw [findall, hdec.findFrom_eq]
    · rw [← hshown, hpasses.2 ⟨hstart, h⟩, hresult]

end

/-! ## The uid of the root in the text -/

/-- A text with two uids. -/
def twoUids : String := uniformUid 1 ++ " " ++ uniformUid 2

theorem toList_twoUids : twoUids.toList = (uniformUid 1).toList ++ ' ' :: ((uniformUid 2).toList ++ []) := by
  have hspace : " ".toList = [' '] := by simp
  rw [twoUids, String.toList_append, String.toList_append, hspace, List.append_assoc, List.append_nil]
  rfl

theorem decomposes_twoUids :
    Decomposes twoUids.toList [.uid (uniformUid 1), .other ' ', .uid (uniformUid 2)] := by
  rw [toList_twoUids]
  refine .uid _ _ _ ?_ (.other _ _ _ ?_ (.uid _ _ _ ?_ .nil))
  · rw [toList_uniformUid, toList_uniformUid]
    decide +kernel
  · rw [toList_uniformUid]
    decide +kernel
  · rw [toList_uniformUid]
    decide +kernel

theorem getAllUidsInString_twoUids : getAllUidsInString twoUids = [uniformUid 1, uniformUid 2] := by
  have hlt : uniformUid 1 < uniformUid 2 := by
    rw [String.lt_iff_toList_lt, toList_uniformUid, toList_uniformUid]
    decide +kernel
  have hnodup : [uniformUid 1, uniformUid 2].Nodup := by simp [hlt.ne]
  have hfindall : findall twoUids = [uniformUid 1, uniformUid 2] := decomposes_twoUids.findFrom_eq
  rw [getAllUidsInString, hfindall, hnodup.dedup]
  exact List.Pairwise.insertionSort_eq (by simp [hlt.le])

/-- The second uid is the uid of the root, so it is replaced in the first link, too. -/
theorem twoUids_linkInLink :
    ¬LinksOnce twoUids (some (uniformUid 2)) (uidsToLink twoUids (some (uniformUid 2))) := by
  intro h
  have heq := h.result_eq
  rw [toList_uidsToLink, getAllUidsInString_twoUids, segments, decomposes_twoUids.segmentsFrom_eq,
    toList_twoUids] at heq
  simp only [List.foldl_cons, List.foldl_nil, List.flatMap_cons, List.flatMap_nil, Segment.linked,
    toList_linkTo, rootText, toList_uniformUid] at heq
  revert heq
  decide +kernel

end FactCore.Filter
