import FactCore.HelperFunctions.Uid
import FactCore.Lib.Join
import FactCore.Lib.Replace

/-! # Uids as links

`web_interface/filter.py` finds the uids in a text and replaces one after the other
by a link. Next to it stands what the result should be: the text is decomposed into
the matches of the pattern and the characters between them, and each match becomes
one link.
-/

namespace FactCore.Filter

open Replace (replaceAll)
open UidPattern (matchAt)

/-! ## The code -/

/-- The matches in a text after some characters were skipped. -/
def findFrom : Nat → List Char → List Uid
  | _, [] => []
  | skip + 1, _ :: s => findFrom skip s
  | 0, c :: s =>
      match matchAt (c :: s) with
      | some uid => String.ofList uid :: findFrom (uid.length - 1) s
      | none => findFrom 0 s

/-- `re.findall(r'[a-f0-9]{64}_[0-9]+', string)`. -/
def findall (string : String) : List Uid := findFrom 0 string.toList

/-- `get_all_uids_in_string`. The list is sorted, so the order of the set of its
elements has no influence. -/
def getAllUidsInString (string : String) : List Uid := Join.sorted (findall string).dedup

/-- `tmp.replace(old, new)`. -/
def replace (tmp old new : String) : String :=
  String.ofList (replaceAll old.toList new.toList tmp.toList)

/-- `str(root_uid)`. -/
def rootText : Option Uid → String
  | none => "None"
  | some rootUid => rootUid

/-- `<a href="/analysis/{uid}/ro/{root_uid}">{uid}</a>`. -/
def linkTo (uid : Uid) (rootUid : Option Uid) : String :=
  "<a href=\"/analysis/" ++ uid ++ "/ro/" ++ rootText rootUid ++ "\">" ++ uid ++ "</a>"

/-- `uids_to_link`, for a text. -/
def uidsToLink (inputData : String) (rootUid : Option Uid) : String :=
  (getAllUidsInString inputData).foldl (fun tmp uid => replace tmp uid (linkTo uid rootUid)) inputData

/-! ## What the result should be -/

/-- A match of the pattern, or a character outside the matches. -/
inductive Segment where
  | uid (uid : Uid)
  | other (c : Char)
  deriving DecidableEq, Repr

namespace Segment

def text : Segment → List Char
  | .uid u => u.toList
  | .other c => [c]

/-- A match is shown as a link. -/
def linked (rootUid : Option Uid) : Segment → List Char
  | .uid u => (linkTo u rootUid).toList
  | .other c => [c]

def uid? : Segment → Option Uid
  | .uid u => some u
  | .other _ => none

end Segment

/-- The decomposition of a text after some characters were skipped. -/
def segmentsFrom : Nat → List Char → List Segment
  | _, [] => []
  | skip + 1, _ :: s => segmentsFrom skip s
  | 0, c :: s =>
      match matchAt (c :: s) with
      | some uid => .uid (String.ofList uid) :: segmentsFrom (uid.length - 1) s
      | none => .other c :: segmentsFrom 0 s

/-- The matches of a text, each with as many digits as there are, and the characters
between them. -/
def segments (inputData : String) : List Segment := segmentsFrom 0 inputData.toList

/-- Each match became one link with its uid, nothing else was changed, and the text
of the input remains when the links are removed. -/
structure LinksOnce (inputData : String) (rootUid : Option Uid) (result : String) : Prop where
  matches_eq : (segments inputData).filterMap Segment.uid? = findall inputData
  text_eq : (segments inputData).flatMap Segment.text = inputData.toList
  result_eq : result.toList = (segments inputData).flatMap (Segment.linked rootUid)

/-! ## The decomposition -/

/-- The decomposition as a relation: the leftmost match is taken. -/
inductive Decomposes : List Char → List Segment → Prop
  | nil : Decomposes [] []
  | uid (uid : Uid) (s : List Char) (segs : List Segment) (hmatch : matchAt (uid.toList ++ s) = some uid.toList)
      (hrest : Decomposes s segs) : Decomposes (uid.toList ++ s) (.uid uid :: segs)
  | other (c : Char) (s : List Char) (segs : List Segment) (hmatch : matchAt (c :: s) = none)
      (hrest : Decomposes s segs) : Decomposes (c :: s) (.other c :: segs)

variable {s t u : List Char} {segs : List Segment} {uid v : Uid}

theorem isUid_of_matchAt (h : matchAt s = some uid.toList) : IsUid uid := by
  obtain ⟨hash, size, rest, hlen, hhash, hne, hsize, -, heq, -⟩ := UidPattern.matchAt_eq_some.1 h
  have huid := isUid_ofList hlen hhash hne hsize
  rwa [← heq, String.ofList_toList] at huid

/-- A match is at the beginning of the text. -/
theorem exists_of_matchAt (h : matchAt s = some u) : u ≠ [] ∧ ∃ rest, s = u ++ rest := by
  obtain ⟨hash, size, rest, hlen, -, -, -, -, heq, hs⟩ := UidPattern.matchAt_eq_some.1 h
  refine ⟨?_, rest, hs⟩
  rw [heq]
  intro hnil
  have hlength := congrArg List.length hnil
  rw [List.length_append, hlen, List.length_nil] at hlength
  omega

theorem exists_decomposes (s : List Char) : ∃ segs, Decomposes s segs := by
  induction hlen : s.length using Nat.strong_induction_on generalizing s with
  | _ n ih =>
      cases s with
      | nil => exact ⟨[], .nil⟩
      | cons c s =>
          cases hmatch : matchAt (c :: s) with
          | none =>
              obtain ⟨segs, hsegs⟩ := ih s.length (by rw [← hlen, List.length_cons]; omega) s rfl
              exact ⟨_, .other c s segs hmatch hsegs⟩
          | some u =>
              obtain ⟨hne, rest, hs⟩ := exists_of_matchAt hmatch
              have hpos := List.length_pos_iff.2 hne
              have hrest : rest.length < n := by
                have hsum := congrArg List.length hs
                rw [List.length_append] at hsum
                omega
              obtain ⟨segs, hsegs⟩ := ih rest.length hrest rest rfl
              have huid : (String.ofList u).toList = u := String.toList_ofList
              have hdecomposes := Decomposes.uid (String.ofList u) rest segs
              rw [huid, ← hs] at hdecomposes
              exact ⟨_, hdecomposes hmatch hsegs⟩

theorem findFrom_skip (l s : List Char) : findFrom l.length (l ++ s) = findFrom 0 s := by
  induction l with
  | nil => rfl
  | cons c l ih => exact ih

theorem segmentsFrom_skip (l s : List Char) : segmentsFrom l.length (l ++ s) = segmentsFrom 0 s := by
  induction l with
  | nil => rfl
  | cons c l ih => exact ih

theorem Decomposes.segmentsFrom_eq (h : Decomposes s segs) : segmentsFrom 0 s = segs := by
  induction h with
  | nil => rfl
  | uid uid s segs hmatch hrest ih =>
      cases hcs : uid.toList with
      | nil =>
          rw [hcs] at hmatch
          exact absurd rfl (exists_of_matchAt hmatch).1
      | cons c cs =>
          rw [hcs] at hmatch
          rw [List.cons_append] at hmatch ⊢
          rw [segmentsFrom, hmatch]
          show _ :: segmentsFrom cs.length (cs ++ s) = _
          rw [segmentsFrom_skip, ih, ← hcs, String.ofList_toList]
  | other c s segs hmatch hrest ih =>
      rw [segmentsFrom, hmatch]
      show _ :: segmentsFrom 0 s = _
      rw [ih]

theorem Decomposes.findFrom_eq (h : Decomposes s segs) : findFrom 0 s = segs.filterMap Segment.uid? := by
  induction h with
  | nil => rfl
  | uid uid s segs hmatch hrest ih =>
      cases hcs : uid.toList with
      | nil =>
          rw [hcs] at hmatch
          exact absurd rfl (exists_of_matchAt hmatch).1
      | cons c cs =>
          rw [hcs] at hmatch
          rw [List.cons_append] at hmatch ⊢
          rw [findFrom, hmatch]
          show _ :: findFrom cs.length (cs ++ s) = _
          rw [findFrom_skip, ih, ← hcs, String.ofList_toList]
          rfl
  | other c s segs hmatch hrest ih =>
      rw [findFrom, hmatch]
      show findFrom 0 s = _
      rw [ih]
      rfl

theorem Decomposes.text_eq (h : Decomposes s segs) : segs.flatMap Segment.text = s := by
  induction h with
  | nil => rfl
  | uid uid s segs hmatch hrest ih => rw [List.flatMap_cons, ih, Segment.text]
  | other c s segs hmatch hrest ih => rw [List.flatMap_cons, ih, Segment.text, List.singleton_append]

theorem decomposes_segments (inputData : String) : Decomposes inputData.toList (segments inputData) := by
  obtain ⟨segs, hsegs⟩ := exists_decomposes inputData.toList
  rw [segments, hsegs.segmentsFrom_eq]
  exact hsegs

theorem mem_findall {inputData : String} : uid ∈ findall inputData ↔ .uid uid ∈ segments inputData := by
  rw [findall, (decomposes_segments inputData).findFrom_eq, List.mem_filterMap]
  constructor
  · rintro ⟨seg, hseg, heq⟩
    cases seg with
    | uid uid' =>
        cases heq
        exact hseg
    | other c => cases heq
  · exact fun h => ⟨_, h, rfl⟩

theorem Decomposes.isUid (h : Decomposes s segs) (hmem : .uid uid ∈ segs) : IsUid uid := by
  induction h with
  | nil => exact absurd hmem List.not_mem_nil
  | uid uid' s segs hmatch hrest ih =>
      rcases List.mem_cons.1 hmem with heq | hmem
      · cases heq
        exact isUid_of_matchAt hmatch
      · exact ih hmem
  | other c s segs hmatch hrest ih =>
      rcases List.mem_cons.1 hmem with heq | hmem
      · cases heq
      · exact ih hmem

end FactCore.Filter
