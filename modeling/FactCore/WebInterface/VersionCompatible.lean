import Mathlib.Tactic.Common
import Mathlib.Tactic.Tauto
import Mathlib.Data.List.DropRight

/-! # Compatible versions

`version_is_compatible` and `_coerce_version` of `web_interface/filter.py`: whether the
results that a version of a plugin has stored can be shown by another version. A
version is semantic, or at least a version after PEP 440, or neither; the packages
`semver` and `packaging` read them.

A version that is not semantic is coerced to a semantic one in any case, also where
the code goes on with it as a text. `version_is_compatible_iff` says for which versions
the function keeps the contract in its docstring.
-/

namespace FactCore.VersionCompatible

/-- `semver.Version`. -/
structure SemVersion where
  major : ℕ
  minor : ℕ
  patch : ℕ
  prerelease : Option String
  build : Option String
deriving DecidableEq

/-- The packages: `semver.Version.parse` and `is_compatible`; `packaging.version.Version`
with its properties and its equality. The parsers return nothing for a text that they
reject with an exception. -/
structure Packages (π : Type) where
  parseSemver : String → Option SemVersion
  isCompatible : SemVersion → SemVersion → Bool
  parsePep440 : String → Option π
  major : π → ℕ
  minor : π → ℕ
  micro : π → ℕ
  pre : π → Option (String × ℕ)
  eq : π → π → Bool

/-- `InvalidVersion` is a subclass of `ValueError`. -/
inductive Exc where
  | valueError
  | invalidVersion (message : String)
  | typeError (message : String)
deriving DecidableEq

def Exc.isValueError : Exc → Bool
  | valueError => true
  | invalidVersion _ => true
  | typeError _ => false

/-- An argument: a text or a version object. -/
inductive Arg where
  | text (s : String)
  | semver (v : SemVersion)

variable {π : Type} (p : Packages π)

/-! ## The code -/

/-- `packaging.version.Version(version)`: a text that is not valid raises an
`InvalidVersion`, and anything but a text a `TypeError`. -/
def packagingVersion : Arg → Except Exc π
  | .text s =>
      match p.parsePep440 s with
      | some v => .ok v
      | none => .error (.invalidVersion ("Invalid version: '" ++ s ++ "'"))
  | .semver _ => .error (.typeError "expected string or bytes-like object, got 'Version'")

/-- `str(coerced.pre)`, as the constructor of `semver.Version` takes it. -/
def preText (pre : String × ℕ) : String := "('" ++ pre.1 ++ "', " ++ toString pre.2 ++ ")"

/-- `_coerce_version`. -/
def coerceVersion (version : String) : Except Exc SemVersion := do
  let coerced ← packagingVersion p (.text version)
  return ⟨p.major coerced, p.minor coerced, p.micro coerced, (p.pre coerced).map preText, none⟩

/-- The first lines for each of the two arguments: the version and whether it counts as a
semantic one. -/
def convert (forgiving : Bool) : Arg → Except Exc (SemVersion × Bool)
  | .semver v => .ok (v, true)
  | .text s =>
      match p.parseSemver s with
      | some v => .ok (v, true)
      | none => do
          let v ← coerceVersion p s
          return (v, forgiving)

/-- The comparison of two versions that do not count as semantic ones. -/
def comparePackaging (version other : Arg) : Except Exc Bool := do
  let v ← packagingVersion p version
  let v' ← packagingVersion p other
  return p.eq v v'

/-- `version_is_compatible`. -/
def versionIsCompatible (version other : Arg) (forgiving : Bool) : Except Exc Bool := do
  let (version, versionIsSemver) ← convert p forgiving version
  let (other, otherIsSemver) ← convert p forgiving other
  if versionIsSemver ^^ otherIsSemver then return false
  if !versionIsSemver && !otherIsSemver then
    -- the two variables hold the coerced versions here, not the texts
    match comparePackaging p (.semver version) (.semver other) with
    | .error (.invalidVersion _) => .error .valueError
    | result => result
  else return p.isCompatible version other

/-! ## The contract -/

/-- A semantic version. -/
def Semantic (s : String) : Prop := (p.parseSemver s).isSome = true

/-- A semantic version or a version after PEP 440. -/
def Known (s : String) : Prop := Semantic p s ∨ (p.parsePep440 s).isSome = true

/-- The semantic version that a version is or is coerced to. -/
def coerced? (s : String) : Option SemVersion :=
  (p.parseSemver s).or ((coerceVersion p s).toOption)

/-- Both texts are versions after PEP 440, and these are equal. -/
def EqualAsPep440 (s s' : String) : Prop :=
  ∃ v v', p.parsePep440 s = some v ∧ p.parsePep440 s' = some v' ∧ p.eq v v' = true

/-- What the docstring promises about the result for two texts. -/
structure Contract (version other : String) (forgiving : Bool) (result : Except Exc Bool) : Prop where
  semantic : ∀ v v', p.parseSemver version = some v → p.parseSemver other = some v' →
    result = .ok (p.isCompatible v v')
  mixed : forgiving = false → (Semantic p version ↔ ¬ Semantic p other) → result = .ok false
  neither : forgiving = false → ¬ Semantic p version → ¬ Semantic p other →
    (result = .ok true ↔ EqualAsPep440 p version other)
  coerced : forgiving = true → ∀ v v', coerced? p version = some v → coerced? p other = some v' →
    result = .ok (p.isCompatible v v')
  unknown : forgiving = true → (Known p version ↔ ¬ Known p other) → result = .ok false
  error : ∀ e, result = .error e → e.isValueError = true ∧ ¬ Known p version ∧ ¬ Known p other

/-! ## The conversion of one version -/

variable {p} {s version other : String} {forgiving : Bool} {v v' : SemVersion} {w : π}

/-- The semantic version that a version after PEP 440 is coerced to. -/
def coercion (p : Packages π) (w : π) : SemVersion :=
  ⟨p.major w, p.minor w, p.micro w, (p.pre w).map preText, none⟩

theorem convert_semantic (h : p.parseSemver s = some v) : convert p forgiving (.text s) = .ok (v, true) := by
  rw [convert, h]

theorem coerceVersion_ok (h : p.parsePep440 s = some w) : coerceVersion p s = .ok (coercion p w) := by
  rw [coerceVersion, packagingVersion, h]
  rfl

theorem coerceVersion_error (h : p.parsePep440 s = none) :
    coerceVersion p s = .error (.invalidVersion ("Invalid version: '" ++ s ++ "'")) := by
  rw [coerceVersion, packagingVersion, h]
  rfl

theorem convert_pep440 (h : p.parseSemver s = none) (h' : p.parsePep440 s = some w) :
    convert p forgiving (.text s) = .ok (coercion p w, forgiving) := by
  rw [convert, h]
  simp only [coerceVersion_ok h']
  rfl

theorem convert_unknown (h : ¬ Known p s) : convert p forgiving (.text s) =
    .error (.invalidVersion ("Invalid version: '" ++ s ++ "'")) := by
  rcases not_or.1 h with ⟨hsemver, hpep⟩
  have hnone : p.parseSemver s = none := Option.not_isSome_iff_eq_none.1 hsemver
  rw [convert, hnone]
  simp only [coerceVersion_error (Option.not_isSome_iff_eq_none.1 hpep)]
  rfl

/-- What a version that is known is: a semantic one, or else one that is coerced. -/
theorem Known.cases (h : Known p s) : (∃ v, p.parseSemver s = some v) ∨
    (p.parseSemver s = none ∧ ∃ w, p.parsePep440 s = some w) := by
  cases hsemver : p.parseSemver s with
  | some v => exact .inl ⟨v, rfl⟩
  | none =>
      refine .inr ⟨rfl, Option.isSome_iff_exists.1 (h.resolve_left fun hs => ?_)⟩
      rw [Semantic, hsemver] at hs
      cases hs

theorem not_semantic (h : p.parseSemver s = none) : ¬ Semantic p s := by
  rw [Semantic, h]
  exact Bool.false_ne_true

theorem semantic_of_parse (h : p.parseSemver s = some v) : Semantic p s := by
  rw [Semantic, h]
  rfl

theorem coerced?_unknown (h : ¬ Known p s) : coerced? p s = none := by
  rcases not_or.1 h with ⟨hsemver, hpep⟩
  rw [coerced?, Option.not_isSome_iff_eq_none.1 hsemver,
    coerceVersion_error (Option.not_isSome_iff_eq_none.1 hpep)]
  rfl

theorem coerced?_pep440 (h : p.parseSemver s = none) (h' : p.parsePep440 s = some w) :
    coerced? p s = some (coercion p w) := by
  rw [coerced?, h, coerceVersion_ok h']
  rfl

theorem coerced?_semantic (h : p.parseSemver s = some v) : coerced? p s = some v := by
  rw [coerced?, h]
  rfl

/-- A version that is known converts to the semantic version it is or is coerced to. It
counts as semantic if it is, and in any case when the comparison is forgiving. -/
theorem convert_known (forgiving : Bool) (h : Known p s) : ∃ v b,
    convert p forgiving (.text s) = .ok (v, b) ∧ coerced? p s = some v ∧
      (b = true ↔ Semantic p s ∨ forgiving = true) := by
  rcases h.cases with ⟨v, hv⟩ | ⟨hnone, w, hw⟩
  · refine ⟨v, true, convert_semantic hv, coerced?_semantic hv, ?_⟩
    exact iff_of_true rfl (.inl (semantic_of_parse hv))
  · refine ⟨coercion p w, forgiving, convert_pep440 hnone hw, coerced?_pep440 hnone hw, ?_⟩
    exact (or_iff_right (not_semantic hnone)).symm

/-! ## The result for two versions -/

theorem result_unknown_left (h : ¬ Known p version) (other : Arg) :
    versionIsCompatible p (.text version) other forgiving =
      .error (.invalidVersion ("Invalid version: '" ++ version ++ "'")) := by
  rw [versionIsCompatible, convert_unknown h]
  rfl

/-- Both conversions succeed: the two texts are not looked at again. -/
theorem result_of_convert {a b : Arg} {x y : Bool} (ha : convert p forgiving a = .ok (v, x))
    (hb : convert p forgiving b = .ok (v', y)) :
    versionIsCompatible p a b forgiving =
      if x ^^ y then .ok false
      else if !x && !y then .error (.typeError "expected string or bytes-like object, got 'Version'")
      else .ok (p.isCompatible v v') := by
  rw [versionIsCompatible, ha]
  simp only [bind, Except.bind, hb]
  cases x <;> cases y <;> rfl

theorem result_unknown_right (h : Known p version) (h' : ¬ Known p other) :
    versionIsCompatible p (.text version) (.text other) forgiving =
      .error (.invalidVersion ("Invalid version: '" ++ other ++ "'")) := by
  rcases h.cases with ⟨v, hv⟩ | ⟨hnone, w, hw⟩
  · rw [versionIsCompatible, convert_semantic hv, convert_unknown h']
    rfl
  · rw [versionIsCompatible, convert_pep440 hnone hw, convert_unknown h']
    rfl

/-! ## The cases in which the contract is kept -/

theorem contract_unknown (h : ¬ Known p version) (h' : ¬ Known p other) :
    Contract p version other forgiving
      (versionIsCompatible p (.text version) (.text other) forgiving) := by
  rw [result_unknown_left h]
  have hsemver := (not_or.1 h).1
  have hsemver' := (not_or.1 h').1
  constructor
  · exact fun v v' hv _ => absurd (semantic_of_parse hv) hsemver
  · exact fun _ hmixed => absurd (hmixed.2 hsemver') hsemver
  · refine fun _ _ _ => iff_of_false (fun hok => by cases hok) ?_
    rintro ⟨w, w', hw, -, -⟩
    exact (not_or.1 h).2 (Option.isSome_iff_exists.2 ⟨w, hw⟩)
  · intro _ v v' hv
    rw [coerced?_unknown h] at hv
    cases hv
  · exact fun _ hone => absurd (hone.2 h') h
  · intro e he
    obtain rfl := Except.error.inj he
    exact ⟨rfl, h, h'⟩

theorem xor_of_iff_not {b b' : Bool} (h : b = true ↔ ¬ b' = true) : (b ^^ b') = true := by
  revert h
  cases b <;> cases b' <;> decide

/-- Two known versions, of which one is semantic or the comparison is forgiving: the code
does not get to the comparison with the package `packaging`. -/
theorem contract_known (h : Known p version) (h' : Known p other)
    (hcond : forgiving = true ∨ Semantic p version ∨ Semantic p other) :
    Contract p version other forgiving
      (versionIsCompatible p (.text version) (.text other) forgiving) := by
  -- `b` and `b'` say which of the two count as semantic, and one of them does
  rcases convert_known forgiving h with ⟨v, b, hconvert, hv, hb⟩
  rcases convert_known forgiving h' with ⟨v', b', hconvert', hv', hb'⟩
  rw [result_of_convert hconvert hconvert']
  have hany : b = true ∨ b' = true := by
    rw [hb, hb']
    tauto
  constructor
  · intro a a' ha ha'
    have hbtrue : b = true := hb.2 (.inl (semantic_of_parse ha))
    have hbtrue' : b' = true := hb'.2 (.inl (semantic_of_parse ha'))
    have hav : v = a := Option.some_inj.1 (hv.symm.trans (coerced?_semantic ha))
    have hav' : v' = a' := Option.some_inj.1 (hv'.symm.trans (coerced?_semantic ha'))
    rw [hbtrue, hbtrue', hav, hav']
    rfl
  · intro hforgiving hmixed
    -- exactly one of the two counts as semantic
    have hdiff : b = true ↔ ¬ b' = true := by
      rw [hb, hb', hforgiving]
      simpa using hmixed
    rw [if_pos (xor_of_iff_not hdiff)]
  · intro hforgiving hnot hnot'
    rw [hforgiving] at hcond
    tauto
  · intro hforgiving a a' ha ha'
    rw [hb.2 (.inr hforgiving), hb'.2 (.inr hforgiving), Option.some_inj.1 (hv.symm.trans ha),
      Option.some_inj.1 (hv'.symm.trans ha')]
    rfl
  · exact fun _ hone => absurd h' (hone.1 h)
  · intro e he
    have hok : (!b && !b') = false := by
      rcases hany with rfl | rfl
      · rfl
      · exact Bool.and_false _
    rw [hok] at he
    split at he <;> cases he

/-! ## The cases in which it is broken -/

/-- One version is not known: the code raises an `InvalidVersion` although the other is. -/
theorem not_contract_unknown (h : Known p version ↔ ¬ Known p other) :
    ¬ Contract p version other forgiving
      (versionIsCompatible p (.text version) (.text other) forgiving) := by
  intro hcontract
  -- the error is only allowed if both are unknown
  by_cases hversion : Known p version
  · have hother : ¬ Known p other := h.1 hversion
    exact (hcontract.error _ (result_unknown_right hversion hother)).2.1 hversion
  · have hother : Known p other := by
      by_contra hnot
      exact hversion (h.2 hnot)
    exact (hcontract.error _ (result_unknown_left hversion _)).2.2 hother

/-- Two versions after PEP 440 that are not semantic, and no forgiving: the package is
given the coerced versions and raises a `TypeError`. -/
theorem not_contract_pep440 (h : Known p version) (h' : Known p other) (hnot : ¬ Semantic p version)
    (hnot' : ¬ Semantic p other) :
    ¬ Contract p version other false
      (versionIsCompatible p (.text version) (.text other) false) := by
  intro hcontract
  rcases convert_known false h with ⟨v, b, hconvert, -, hb⟩
  rcases convert_known false h' with ⟨v', b', hconvert', -, hb'⟩
  have hbfalse : b = false := by
    rw [Bool.eq_false_iff, Ne, hb]
    simpa using hnot
  have hbfalse' : b' = false := by
    rw [Bool.eq_false_iff, Ne, hb']
    simpa using hnot'
  have hresult := result_of_convert hconvert hconvert'
  rw [hbfalse, hbfalse'] at hresult
  exact (hcontract.error _ hresult).2.1 h

/-- `version_is_compatible` keeps its contract for two texts if and only if both are
unknown, or both are known and one of them is semantic or the comparison is forgiving. -/
theorem version_is_compatible_iff (p : Packages π) (version other : String) (forgiving : Bool) :
    Contract p version other forgiving
        (versionIsCompatible p (.text version) (.text other) forgiving) ↔
      (¬ Known p version ∧ ¬ Known p other) ∨
        (Known p version ∧ Known p other ∧
          (forgiving = true ∨ Semantic p version ∨ Semantic p other)) := by
  constructor
  · intro hcontract
    by_cases hversion : Known p version <;> by_cases hother : Known p other
    · refine .inr ⟨hversion, hother, ?_⟩
      by_contra hnot
      rcases not_or.1 hnot with ⟨hforgiving, hsemantic⟩
      rcases not_or.1 hsemantic with ⟨hleft, hright⟩
      obtain rfl : forgiving = false := Bool.eq_false_iff.2 hforgiving
      exact not_contract_pep440 hversion hother hleft hright hcontract
    · exact absurd hcontract (not_contract_unknown (iff_of_true hversion hother))
    · exact absurd hcontract (not_contract_unknown (iff_of_false hversion (not_not.2 hother)))
    · exact .inl ⟨hversion, hother⟩
  · rintro (⟨hversion, hother⟩ | ⟨hversion, hother, hcond⟩)
    · exact contract_unknown hversion hother
    · exact contract_known hversion hother hcond

/-- The packages on the texts `'1.1.0'`, a semantic version, and `'1.2'`, which is one after
PEP 440 only. A version of the latter kind is the list of its numbers. -/
def samplePackages : Packages (List ℕ) where
  parseSemver s := if s = "1.1.0" then some ⟨1, 1, 0, none, none⟩ else none
  isCompatible v v' :=
    if v.major == 0 && v'.major == 0 then
      v.minor == v'.minor && v.patch == v'.patch && v.prerelease == v'.prerelease
    else v.major == v'.major && decide (v.minor ≤ v'.minor) && v.prerelease == v'.prerelease
  parsePep440 s :=
    if s = "1.1.0" then some [1, 1, 0] else if s = "1.2" then some [1, 2] else none
  major w := w.getD 0 0
  minor w := w.getD 1 0
  micro w := w.getD 2 0
  pre _ := none
  eq w w' := w.rdropWhile (· == 0) == w'.rdropWhile (· == 0)

/-- Two equal versions that are not semantic end with a `TypeError`, and a semantic version
together with a text that is no version with an `InvalidVersion`. -/
theorem version_is_compatible_raises :
    ¬ Contract samplePackages "1.2" "1.2" false
        (versionIsCompatible samplePackages (.text "1.2") (.text "1.2") false) ∧
    versionIsCompatible samplePackages (.text "1.2") (.text "1.2") false =
      .error (.typeError "expected string or bytes-like object, got 'Version'") ∧
    ¬ Contract samplePackages "1.1.0" "x" true
        (versionIsCompatible samplePackages (.text "1.1.0") (.text "x") true) ∧
    versionIsCompatible samplePackages (.text "1.1.0") (.text "x") true =
      .error (.invalidVersion "Invalid version: 'x'") := by
  have htwo : Known samplePackages "1.2" := .inr rfl
  have hsemantic : Known samplePackages "1.1.0" := .inl rfl
  have hnot : ¬ Semantic samplePackages "1.2" := by
    rw [Semantic]
    decide
  have hunknown : ¬ Known samplePackages "x" := by
    rw [Known, Semantic]
    decide
  refine ⟨not_contract_pep440 htwo htwo hnot hnot, by decide, ?_, by decide⟩
  exact not_contract_unknown (iff_of_true hsemantic hunknown)

end FactCore.VersionCompatible
