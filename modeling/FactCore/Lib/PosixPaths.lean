import Mathlib.Tactic.Common
import FactCore.Lib.Join

/-! # Path names in a directory tree

What a path name means is a walk: every name on it leads to a child, `..` to the
parent, and an empty name or `.` nowhere. The textual normalisation of `os.path.normpath`
and the paths of `pathlib` are related to these walks here. The directory trees have no
links, as the text of a path cannot say where a link leads.
-/

universe u

namespace PosixPaths

open Join (join split)

/-! ## Directory trees -/

/-- The directories of a tree, seen from the moves that a path name can make. -/
structure DirTree (D : Type u) where
  root : D
  parent : D → D
  child : D → String → Option D
  parent_root : parent root = root
  parent_child : ∀ {d name d'}, child d name = some d' → parent d' = d

namespace DirTree

variable {D : Type u} (tree : DirTree D)

/-- The move for one component of a path name. -/
def enter (d : D) (comp : String) : Option D :=
  if comp = "" ∨ comp = "." then some d
  else if comp = ".." then some (tree.parent d)
  else tree.child d comp

/-- Where a path name leads. -/
def walk (d : D) (comps : List String) : Option D := comps.foldlM tree.enter d

@[simp] theorem walk_nil (d : D) : tree.walk d [] = some d := rfl

theorem walk_append (d : D) (front behind : List String) :
    tree.walk d (front ++ behind) = (tree.walk d front).bind fun mid => tree.walk mid behind := by
  simp [walk, List.foldlM_append]

theorem walk_snoc (d : D) (front : List String) (comp : String) :
    tree.walk d (front ++ [comp]) = (tree.walk d front).bind fun mid => tree.enter mid comp := by
  rw [walk_append]
  congr 1
  funext mid
  simp [walk]

end DirTree

/-! ## Normalisation -/

/-- A component that leads into a child. -/
def IsName (comp : String) : Prop := comp ≠ "" ∧ comp ≠ "." ∧ comp ≠ ".."

instance instDecidableIsName (comp : String) : Decidable (IsName comp) := inferInstanceAs (Decidable (_ ∧ _))

/-- One pass of the loop in `os.path.normpath`. -/
def normStep (rooted : Bool) (done : List String) (comp : String) : List String :=
  if comp = "" ∨ comp = "." then done
  else if comp ≠ ".." ∨ (rooted = false ∧ done = []) ∨ done.getLast? = some ".." then done ++ [comp]
  else done.dropLast

/-- The loop of `os.path.normpath`. -/
def normComps (rooted : Bool) (comps : List String) : List String := comps.foldl (normStep rooted) []

/-- What the loop holds: no component is empty or `.`, and `..` is left over only where the
path name is relative. -/
structure Normal (rooted : Bool) (done : List String) : Prop where
  nontrivial : ∀ comp ∈ done, comp ≠ "" ∧ comp ≠ "."
  rooted_names : rooted = true → ∀ comp ∈ done, comp ≠ ".."

theorem Normal.step {rooted : Bool} {done : List String} (h : Normal rooted done) (comp : String) :
    Normal rooted (normStep rooted done comp) := by
  unfold normStep
  split
  · exact h
  rename_i htrivial
  obtain ⟨hempty, hdot⟩ := not_or.1 htrivial
  split
  · rename_i happend
    constructor
    · intro comp' hmem
      rcases List.mem_append.1 hmem with hmem | hmem
      · exact h.nontrivial comp' hmem
      · rw [List.mem_singleton.1 hmem]
        exact ⟨hempty, hdot⟩
    · intro hrooted comp' hmem
      rcases List.mem_append.1 hmem with hmem | hmem
      · exact h.rooted_names hrooted comp' hmem
      · rw [List.mem_singleton.1 hmem]
        rcases happend with hname | ⟨hrelative, -⟩ | hlast
        · exact hname
        · simp [hrelative] at hrooted
        · exact absurd rfl (h.rooted_names hrooted ".." (List.mem_of_getLast? hlast))
  · exact ⟨fun comp' hmem => h.nontrivial comp' (List.dropLast_subset _ hmem),
      fun hrooted comp' hmem => h.rooted_names hrooted comp' (List.dropLast_subset _ hmem)⟩

theorem Normal.foldl {rooted : Bool} {done : List String} (h : Normal rooted done) (comps : List String) :
    Normal rooted (comps.foldl (normStep rooted) done) := by
  induction comps generalizing done with
  | nil => exact h
  | cons comp comps ih => exact ih (h.step comp)

theorem normal_normComps (rooted : Bool) (comps : List String) : Normal rooted (normComps rooted comps) :=
  Normal.foldl ⟨by simp, by simp⟩ comps

theorem isName_of_mem_normComps {comps : List String} {comp : String} (h : comp ∈ normComps true comps) :
    IsName comp := by
  have hnormal := normal_normComps true comps
  exact ⟨(hnormal.nontrivial comp h).1, (hnormal.nontrivial comp h).2, hnormal.rooted_names rfl comp h⟩

/-- Components that lead nowhere can be left out. -/
theorem normComps_filter (rooted : Bool) (comps : List String) :
    normComps rooted (comps.filter fun comp => comp ≠ "" ∧ comp ≠ ".") = normComps rooted comps := by
  suffices hall : ∀ done, (comps.filter fun comp => comp ≠ "" ∧ comp ≠ ".").foldl (normStep rooted) done =
      comps.foldl (normStep rooted) done from hall []
  induction comps with
  | nil => intro done; rfl
  | cons comp comps ih =>
      intro done
      by_cases htrivial : comp = "" ∨ comp = "."
      · rw [List.filter_cons_of_neg (by simpa [← not_or] using htrivial), ih, List.foldl_cons, normStep,
          if_pos htrivial]
      · rw [List.filter_cons_of_pos (by simpa [← not_or] using htrivial), List.foldl_cons, ih,
          List.foldl_cons]

/-- Names are kept as they are. -/
theorem normComps_of_names (rooted : Bool) {comps : List String} (h : ∀ comp ∈ comps, IsName comp) :
    normComps rooted comps = comps := by
  suffices hall : ∀ done, comps.foldl (normStep rooted) done = done ++ comps by
    simpa [normComps] using hall []
  induction comps with
  | nil => simp
  | cons comp comps ih =>
      intro done
      obtain ⟨hempty, hdot, hup⟩ := h comp List.mem_cons_self
      have hstep : normStep rooted done comp = done ++ [comp] := by simp [normStep, hempty, hdot, hup]
      rw [List.foldl_cons, hstep, ih fun comp' hmem => h comp' (List.mem_cons_of_mem _ hmem),
        List.append_assoc, List.singleton_append]

namespace DirTree

variable {D : Type u} (tree : DirTree D)

/-- One pass of the loop stays with the walk. -/
theorem walk_normStep {rooted : Bool} {start d d' : D} {done : List String} {comp : String}
    (hstart : rooted = true → start = tree.root) (hnormal : Normal rooted done)
    (hwalk : tree.walk start done = some d) (henter : tree.enter d comp = some d') :
    tree.walk start (normStep rooted done comp) = some d' := by
  unfold normStep
  split
  · rename_i htrivial
    rw [enter, if_pos htrivial, Option.some.injEq] at henter
    rw [← henter, hwalk]
  rename_i htrivial
  split
  · rw [walk_snoc, hwalk, Option.bind_some, henter]
  · rename_i happend
    push Not at happend
    obtain ⟨rfl, hrelative, hlast⟩ := happend
    rw [enter, if_neg htrivial, if_pos rfl, Option.some.injEq] at henter
    rcases List.eq_nil_or_concat' done with rfl | ⟨front, name, rfl⟩
    · -- above the root is the root
      have hrooted : rooted = true := by
        cases rooted with
        | false => exact absurd rfl (hrelative rfl)
        | true => rfl
      rw [walk_nil, Option.some.injEq] at hwalk
      rw [List.dropLast_nil, walk_nil, ← henter, ← hwalk, hstart hrooted, tree.parent_root]
    · rw [walk_snoc] at hwalk
      obtain ⟨mid, hmid, hname⟩ := Option.bind_eq_some_iff.1 hwalk
      obtain ⟨hempty, hdot⟩ := hnormal.nontrivial name (by simp)
      have hup : name ≠ ".." := by simpa using hlast
      have hchild : tree.child mid name = some d := by simpa [enter, hempty, hdot, hup] using hname
      rw [List.dropLast_concat, hmid, ← tree.parent_child hchild, henter]

/-- The normalised path name leads where the path name leads. -/
theorem walk_normComps {rooted : Bool} {start d : D} {comps : List String}
    (hstart : rooted = true → start = tree.root) (h : tree.walk start comps = some d) :
    tree.walk start (normComps rooted comps) = some d := by
  suffices hall : ∀ done mid, Normal rooted done → tree.walk start done = some mid →
      tree.walk mid comps = some d → tree.walk start (comps.foldl (normStep rooted) done) = some d from
    hall [] start ⟨by simp, by simp⟩ rfl h
  clear h
  induction comps with
  | nil =>
      intro done mid hnormal hdone hrest
      rw [walk_nil, Option.some.injEq] at hrest
      rw [List.foldl_nil, hdone, hrest]
  | cons comp comps ih =>
      intro done mid hnormal hdone hrest
      obtain ⟨next, henter, hrest⟩ :
          ∃ next, tree.enter mid comp = some next ∧ tree.walk next comps = some d := by
        simpa [walk, Option.bind_eq_some_iff] using hrest
      exact ih _ next (hnormal.step comp) (tree.walk_normStep hstart hnormal hdone henter) hrest

end DirTree

/-! ## The tree of all names -/

/-- The tree in which every directory has a child of every name; a directory is the list of
names that lead to it. -/
def allNames : DirTree (List String) where
  root := []
  parent := List.dropLast
  child := fun d name => some (d ++ [name])
  parent_root := rfl
  parent_child := by
    intro d name d' h
    rw [Option.some.injEq] at h
    rw [← h, List.dropLast_concat]

theorem allNames_walk_names {names : List String} (h : ∀ name ∈ names, IsName name) (d : List String) :
    allNames.walk d names = some (d ++ names) := by
  induction names generalizing d with
  | nil => simp
  | cons name names ih =>
      obtain ⟨hempty, hdot, hup⟩ := h name List.mem_cons_self
      have henter : allNames.enter d name = some (d ++ [name]) := by
        simp [DirTree.enter, hempty, hdot, hup, allNames]
      have hrest := ih (fun name' hmem => h name' (List.mem_cons_of_mem _ hmem)) (d ++ [name])
      rw [DirTree.walk, List.foldlM_cons, henter]
      rw [DirTree.walk] at hrest
      simpa using hrest

theorem allNames_walk_isSome (d : List String) (comps : List String) : (allNames.walk d comps).isSome := by
  induction comps generalizing d with
  | nil => rfl
  | cons comp comps ih =>
      have henter : ∃ d', allNames.enter d comp = some d' := by
        unfold DirTree.enter
        split
        · exact ⟨_, rfl⟩
        · split
          · exact ⟨_, rfl⟩
          · exact ⟨_, rfl⟩
      obtain ⟨d', henter⟩ := henter
      rw [DirTree.walk, List.foldlM_cons, henter]
      exact ih d'

/-- From the root, the normalised components are the place that the path name leads to. -/
theorem allNames_walk_root {comps place : List String} :
    allNames.walk [] comps = some place ↔ normComps true comps = place := by
  obtain ⟨d, hd⟩ := Option.isSome_iff_exists.1 (allNames_walk_isSome [] comps)
  have hnormal : allNames.walk [] (normComps true comps) = some d := allNames.walk_normComps (fun _ => rfl) hd
  have hnames : ∀ name ∈ normComps true comps, IsName name := fun _ hmem => isName_of_mem_normComps hmem
  rw [allNames_walk_names hnames, List.nil_append, Option.some.injEq] at hnormal
  rw [hd, Option.some.injEq, hnormal]

/-! ## The paths of `pathlib` -/

/-- What a path name starts with. Two slashes are kept apart from one, and three are one. -/
inductive Anchor where
  | relative
  | absolute
  | doubled
deriving DecidableEq

namespace Anchor

def str : Anchor → String
  | relative => ""
  | absolute => "/"
  | doubled => "//"

/-- The anchor of a path name. -/
def ofChars (s : List Char) : Anchor :=
  match (s.takeWhile (· == '/')).length with
  | 0 => relative
  | 2 => doubled
  | _ => absolute

theorem ofChars_append (anchor : Anchor) {s : List Char} (h : s.head? ≠ some '/') :
    ofChars (anchor.str.toList ++ s) = anchor := by
  have hnone : s.takeWhile (· == '/') = [] := by
    cases s with
    | nil => rfl
    | cons c s =>
        have hc : c ≠ '/' := by simpa using h
        simp [hc]
  cases anchor <;> simp [ofChars, str, hnone]

end Anchor

/-- A component that `pathlib` keeps. -/
def IsPart (comp : String) : Prop := (comp ≠ "" ∧ comp ≠ ".") ∧ '/' ∉ comp.toList

instance instDecidableIsPart (comp : String) : Decidable (IsPart comp) := inferInstanceAs (Decidable (_ ∧ _))

/-- A `pathlib.PurePosixPath`. -/
structure PurePath where
  anchor : Anchor
  parts : List String
  isPart : ∀ part ∈ parts, IsPart part
deriving DecidableEq

namespace PurePath

theorem eq_of {p q : PurePath} (hanchor : p.anchor = q.anchor) (hparts : p.parts = q.parts) : p = q := by
  cases p
  cases q
  simp_all

/-- `Path(s)`. -/
def parse (s : String) : PurePath where
  anchor := Anchor.ofChars s.toList
  parts := (split '/' s).filter fun comp => comp ≠ "" ∧ comp ≠ "."
  isPart := by
    intro part hmem
    obtain ⟨hsplit, hkept⟩ := List.mem_filter.1 hmem
    exact ⟨of_decide_eq_true hkept, Join.notMem_of_mem_split hsplit⟩

/-- `str(path)`. -/
def str (p : PurePath) : String :=
  if p.anchor = .relative ∧ p.parts = [] then "." else p.anchor.str ++ join '/' p.parts

/-- `path.is_absolute()`. -/
def isAbsolute (p : PurePath) : Bool := p.anchor ≠ .relative

/-- `path.name`. -/
def name (p : PurePath) : String := p.parts.getLast?.getD ""

/-- `path.parent`. -/
def parent (p : PurePath) : PurePath :=
  { p with
    parts := p.parts.dropLast
    isPart := fun part hmem => p.isPart part (List.dropLast_subset _ hmem) }

/-- `path / other`. -/
def div (p other : PurePath) : PurePath :=
  if other.isAbsolute then other
  else
    { p with
      parts := p.parts ++ other.parts
      isPart := fun part hmem => (List.mem_append.1 hmem).elim (p.isPart part) (other.isPart part) }

theorem div_of_relative {p other : PurePath} (h : other.isAbsolute = false) :
    (p.div other).anchor = p.anchor ∧ (p.div other).parts = p.parts ++ other.parts := by
  rw [div, if_neg (by simp [h])]
  exact ⟨rfl, rfl⟩

end PurePath

/-- `os.path.normpath`. -/
def normpath (s : String) : String :=
  let anchor := Anchor.ofChars s.toList
  let path := anchor.str ++ join '/' (normComps (anchor ≠ .relative) (split '/' s))
  if path = "" then "." else path

theorem PurePath.isAbsolute_parse (s : String) :
    (PurePath.parse s).isAbsolute = "/".toList.isPrefixOf s.toList := by
  show decide (Anchor.ofChars s.toList ≠ .relative) = ['/'].isPrefixOf s.toList
  unfold Anchor.ofChars
  cases s.toList with
  | nil => rfl
  | cons c rest =>
      by_cases hc : c = '/'
      · subst hc
        rw [List.takeWhile_cons_of_pos (by simp), List.length_cons]
        split <;> simp_all
      · rw [List.takeWhile_cons_of_neg (by simp [hc])]
        simp [List.isPrefixOf, Ne.symm hc]

/-! ## Reading back what was written -/

variable {s : String} {parts : List String}

theorem split_slash_append (s : String) : split '/' ("/" ++ s) = "" :: split '/' s := by
  have hchars : ("/" ++ s).toList = '/' :: s.toList := by simp
  rw [split, hchars, List.splitOn_cons_eq_if_modifyHead]
  simp [split]

theorem join_eq_empty (h : ∀ part ∈ parts, IsPart part) : join '/' parts = "" ↔ parts = [] := by
  constructor
  · intro hempty
    by_contra hne
    have hsplit : split '/' (join '/' parts) = parts := Join.split_join (fun part hmem => (h part hmem).2) hne
    have hone : split '/' "" = [""] := by simp [split]
    rw [hempty, hone] at hsplit
    exact (h "" (by rw [← hsplit]; exact List.mem_cons_self)).1.1 rfl
  · rintro rfl
    rfl

theorem head?_join (h : ∀ part ∈ parts, IsPart part) : (join '/' parts).toList.head? ≠ some '/' := by
  rw [join, String.toList_ofList]
  cases parts with
  | nil => simp
  | cons part parts =>
      obtain ⟨⟨hempty, -⟩, hslash⟩ := h part List.mem_cons_self
      have hchars : part.toList ≠ [] := by simpa using hempty
      obtain ⟨c, rest, hpart⟩ := List.exists_cons_of_ne_nil hchars
      have hc : c ≠ '/' := by
        rintro rfl
        exact hslash (by rw [hpart]; exact List.mem_cons_self)
      cases parts with
      | nil => simpa [hpart] using hc
      | cons part' parts => simpa [hpart, List.intercalate_cons_cons] using hc

/-- The components of a written path are its parts, and some that lead nowhere. -/
theorem filter_split_join (h : ∀ part ∈ parts, IsPart part) :
    ((split '/' (join '/' parts)).filter fun comp => comp ≠ "" ∧ comp ≠ ".") = parts := by
  by_cases hne : parts = []
  · subst hne
    have hone : split '/' (join '/' ([] : List String)) = [""] := by simp [join, split]
    rw [hone]
    simp
  · rw [Join.split_join (fun part hmem => (h part hmem).2) hne]
    exact List.filter_eq_self.2 fun part hmem => decide_eq_true (h part hmem).1

theorem PurePath.parse_append (anchor : Anchor) (h : ∀ part ∈ parts, IsPart part) :
    PurePath.parse (anchor.str ++ join '/' parts) = ⟨anchor, parts, h⟩ := by
  have hanchor : Anchor.ofChars (anchor.str ++ join '/' parts).toList = anchor := by
    rw [String.toList_append]
    exact Anchor.ofChars_append anchor (head?_join h)
  have hparts :
      (split '/' (anchor.str ++ join '/' parts)).filter (fun comp => comp ≠ "" ∧ comp ≠ ".") = parts := by
    cases anchor with
    | relative => simpa [Anchor.str] using filter_split_join h
    | absolute => simpa [Anchor.str, split_slash_append] using filter_split_join h
    | doubled =>
        have hdouble : "//" ++ join '/' parts = "/" ++ ("/" ++ join '/' parts) := by
          rw [← String.append_assoc]
          rfl
        simpa [Anchor.str, hdouble, split_slash_append] using filter_split_join h
  exact PurePath.eq_of hanchor hparts

/-- `Path(str(path))` is `path`. -/
theorem PurePath.parse_str (p : PurePath) : PurePath.parse p.str = p := by
  unfold PurePath.str
  split
  · rename_i hempty
    refine PurePath.eq_of ?_ ?_
    · rw [hempty.1]
      rfl
    · rw [hempty.2]
      rfl
  · exact PurePath.parse_append p.anchor p.isPart

/-! ## Normalised paths -/

theorem mem_of_mem_normComps {rooted : Bool} {comps : List String} {comp : String}
    (h : comp ∈ normComps rooted comps) : comp ∈ comps := by
  suffices hall : ∀ done, comp ∈ comps.foldl (normStep rooted) done → comp ∈ done ∨ comp ∈ comps from
    (hall [] h).resolve_left List.not_mem_nil
  clear h
  induction comps with
  | nil => exact fun done h => Or.inl h
  | cons comp' comps ih =>
      intro done h
      rcases ih _ h with hstep | hmem
      · unfold normStep at hstep
        split at hstep
        · exact Or.inl hstep
        · split at hstep
          · rcases List.mem_append.1 hstep with hdone | hlast
            · exact Or.inl hdone
            · exact Or.inr (by rw [List.mem_singleton.1 hlast]; exact List.mem_cons_self)
          · exact Or.inl (List.dropLast_subset _ hstep)
      · exact Or.inr (List.mem_cons_of_mem _ hmem)

/-- The path without `..` as far as its text tells. -/
def PurePath.normal (p : PurePath) : PurePath :=
  { p with
    parts := normComps p.isAbsolute p.parts
    isPart := fun part hmem => p.isPart part (mem_of_mem_normComps hmem) }

/-- `os.path.normpath` is the normalisation of the path that the text names. -/
theorem normpath_eq (s : String) : normpath s = (PurePath.parse s).normal.str := by
  have hcomps : normComps (decide (Anchor.ofChars s.toList ≠ .relative)) (split '/' s) =
      (PurePath.parse s).normal.parts :=
    (normComps_filter _ _).symm
  have hempty : (Anchor.ofChars s.toList).str ++ join '/' (PurePath.parse s).normal.parts = "" ↔
      (PurePath.parse s).normal.anchor = .relative ∧ (PurePath.parse s).normal.parts = [] := by
    rw [String.append_eq_empty_iff, join_eq_empty (PurePath.parse s).normal.isPart]
    refine and_congr_left fun _ => ?_
    show (Anchor.ofChars s.toList).str = "" ↔ Anchor.ofChars s.toList = .relative
    cases Anchor.ofChars s.toList <;> simp [Anchor.str]
  unfold normpath PurePath.str
  simp only [hcomps, hempty]
  rfl

theorem normpath_str (p : PurePath) : normpath p.str = p.normal.str := by rw [normpath_eq, PurePath.parse_str]

theorem PurePath.parts_normal {p : PurePath} (h : p.isAbsolute = true) :
    p.normal.parts = normComps true p.parts := by
  show normComps p.isAbsolute p.parts = _
  rw [h]

/-- A relative target is resolved from the directory of an absolute path as it is walked. -/
theorem PurePath.resolve {p : PurePath} {target : String} (hanchor : p.anchor = .absolute)
    (hnames : ∀ part ∈ p.parts, IsName part) (hrelative : (PurePath.parse target).isAbsolute = false) :
    (p.parent.div (PurePath.parse target)).normal.anchor = .absolute ∧
      allNames.walk p.parts.dropLast (split '/' target) =
        some (p.parent.div (PurePath.parse target)).normal.parts := by
  have hparent : ∀ name ∈ p.parts.dropLast, IsName name :=
    fun name hmem => hnames name (List.dropLast_subset _ hmem)
  obtain ⟨hdivAnchor, hdivParts⟩ := PurePath.div_of_relative (p := p.parent) hrelative
  have hrooted : (p.parent.div (PurePath.parse target)).anchor = .absolute := hdivAnchor.trans hanchor
  have habsolute : (p.parent.div (PurePath.parse target)).isAbsolute = true :=
    decide_eq_true (by simp [hrooted])
  have hfilter : (p.parts.dropLast ++ split '/' target).filter (fun comp => comp ≠ "" ∧ comp ≠ ".") =
      (p.parent.div (PurePath.parse target)).parts := by
    rw [hdivParts, List.filter_append]
    congr 1
    exact List.filter_eq_self.2
      fun name hmem => decide_eq_true ⟨(hparent name hmem).1, (hparent name hmem).2.1⟩
  have hwalk : allNames.walk [] (p.parts.dropLast ++ split '/' target) =
      some (p.parent.div (PurePath.parse target)).normal.parts := by
    rw [allNames_walk_root, PurePath.parts_normal habsolute, ← hfilter, normComps_filter]
  rw [DirTree.walk_append, allNames_walk_names hparent] at hwalk
  exact ⟨hrooted, by simpa using hwalk⟩

/-! ## Links

A link has a path and a target. What it means is a walk again. -/

/-- A path from the root without detours. -/
def IsFilePath (path : String) : Prop :=
  ∃ names : List String, (∀ name ∈ names, IsName name ∧ IsPart name) ∧ path = "/" ++ join '/' names

/-- The names on a path. -/
def namesOf (path : String) : List String := (PurePath.parse path).parts

theorem IsFilePath.parse {path : String} (h : IsFilePath path) :
    (PurePath.parse path).anchor = .absolute ∧ (∀ name ∈ namesOf path, IsName name) ∧
      path = "/" ++ join '/' (namesOf path) := by
  obtain ⟨names, hnames, rfl⟩ := h
  have hparse : PurePath.parse ("/" ++ join '/' names) =
      ⟨.absolute, names, fun name hmem => (hnames name hmem).2⟩ :=
    PurePath.parse_append .absolute fun name hmem => (hnames name hmem).2
  have hnamesOf : namesOf ("/" ++ join '/' names) = names := by rw [namesOf, hparse]
  refine ⟨by rw [hparse], ?_, by rw [hnamesOf]⟩
  rw [hnamesOf]
  exact fun name hmem => (hnames name hmem).1

theorem IsFilePath.str_parse {path : String} (h : IsFilePath path) : (PurePath.parse path).str = path := by
  obtain ⟨hanchor, -, hpath⟩ := h.parse
  rw [PurePath.str, if_neg (by simp [hanchor]), hanchor]
  exact hpath.symm

/-- A link with this path and this target leads to the place: a relative target is walked from
the directory of the link and an absolute one from the root. -/
def LeadsTo (link target place : String) : Prop :=
  allNames.walk (if (PurePath.parse target).isAbsolute then [] else (namesOf link).dropLast)
    (split '/' target) = some (namesOf place)

instance instDecidableLeadsTo (link target place : String) : Decidable (LeadsTo link target place) :=
  inferInstanceAs (Decidable (_ = _))

/-- A relative target, added to the directory of the link and normalised, is the place that the
link leads to. -/
theorem eq_normpath_iff {link target place : String} (hlink : IsFilePath link) (hplace : IsFilePath place)
    (hrelative : (PurePath.parse target).isAbsolute = false) :
    place = normpath ((PurePath.parse link).parent.div (PurePath.parse target)).str ↔
      LeadsTo link target place := by
  obtain ⟨hanchor, hnames, -⟩ := hlink.parse
  obtain ⟨hrooted, hwalk⟩ := PurePath.resolve hanchor hnames hrelative
  unfold LeadsTo
  rw [if_neg (by simp [hrelative]), namesOf, hwalk, Option.some.injEq, normpath_str]
  constructor
  · intro heq
    rw [heq, namesOf, PurePath.parse_str]
  · intro hparts
    rw [PurePath.eq_of (hrooted.trans hplace.parse.1.symm) hparts, hplace.str_parse]

/-- Where an absolute target is read as a path, it is the place that the link leads to if it has
one slash in front and does not go up. -/
theorem eq_str_parse_iff {target place : String} (link : String) (hplace : IsFilePath place)
    (habsolute : (PurePath.parse target).isAbsolute = true) :
    place = (PurePath.parse target).str ↔
      LeadsTo link target place ∧ (PurePath.parse target).anchor = .absolute ∧ ".." ∉ split '/' target := by
  obtain ⟨hanchor, hnames, -⟩ := hplace.parse
  unfold LeadsTo
  rw [if_pos habsolute, allNames_walk_root, ← normComps_filter]
  show place = (PurePath.parse target).str ↔
    normComps true (PurePath.parse target).parts = (PurePath.parse place).parts ∧ _
  have hup : ".." ∉ split '/' target ↔ ∀ part ∈ (PurePath.parse target).parts, IsName part := by
    constructor
    · intro hsplit part hmem
      obtain ⟨hsplit', hkept⟩ := List.mem_filter.1 hmem
      obtain ⟨hempty, hdot⟩ := of_decide_eq_true hkept
      exact ⟨hempty, hdot, fun heq => hsplit (heq ▸ hsplit')⟩
    · intro hall hsplit
      exact (hall ".." (List.mem_filter.2 ⟨hsplit, by decide⟩)).2.2 rfl
  constructor
  · intro heq
    have hparse : PurePath.parse place = PurePath.parse target := by rw [heq, PurePath.parse_str]
    have hall : ∀ part ∈ (PurePath.parse target).parts, IsName part := by
      rw [← hparse]
      exact hnames
    rw [normComps_of_names true hall, hup, ← hparse]
    exact ⟨rfl, hanchor, hnames⟩
  · rintro ⟨hparts, hsingle, hnot⟩
    rw [normComps_of_names true (hup.1 hnot)] at hparts
    have hparse : PurePath.parse place = PurePath.parse target :=
      PurePath.eq_of (hanchor.trans hsingle.symm) hparts.symm
    rw [← hparse, hplace.str_parse]

end PosixPaths
