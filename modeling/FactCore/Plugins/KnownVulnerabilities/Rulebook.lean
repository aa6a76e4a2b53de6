import Mathlib.Data.Set.Finite.Lemmas
import FactCore.Lib.Join
import FactCore.Lib.Loop

/-! # Rules for known vulnerabilities

`evaluate` of `plugins/analysis/known_vulnerabilities/internal/rulebook.py`. The values at
the path of a rule are collected from nested dictionaries and lists, and the relation is
applied to each of them.

The collection keeps lists in lists as they are, gives up at the first element that lacks
a key, and drops the rest of the path where a value is no list. `Mapped` says for which
paths this does not matter, whatever the relation.
-/

namespace FactCore.Rulebook

/-! ## The source's functions -/

/-- A value of an analysis result, over the scalars `σ`. -/
inductive Value (σ : Type) where
  | dict (items : List (String × Value σ))
  | list (items : List (Value σ))
  | scalar (s : σ)

variable {σ : Type}

inductive PyError where
  | keyError
  | valueError
  | indexError
  | typeError
  | attributeError
deriving DecidableEq

/-- The operators of the language; `none` where they raise a `TypeError`. -/
structure Operators (σ : Type) where
  eq : Value σ → Value σ → Bool
  is : Value σ → Value σ → Bool
  gt : Value σ → Value σ → Option Bool
  lt : Value σ → Value σ → Option Bool
  /-- `x in y` -/
  contains : Value σ → Value σ → Option Bool
  /-- `bool(set(x).intersection(set(y)))` -/
  intersects : Value σ → Value σ → Option Bool

/-- The keys of `RELATIONS`. -/
inductive Relation where
  | «exists»
  | equals
  | is
  | gt
  | lt
  | «in»
  | reverseIn
  | intersection
deriving DecidableEq

def orTypeError (result : Option Bool) : Except PyError Bool :=
  match result with
  | some b => .ok b
  | none => .error .typeError

/-- `_apply_relation`, with the table `RELATIONS`. -/
def applyRelation (ops : Operators σ) (relation : Relation) (x y : Value σ) : Except PyError Bool :=
  match relation with
  | .exists => .ok true
  | .equals => .ok (ops.eq x y)
  | .is => .ok (ops.is x y)
  | .gt => orTypeError (ops.gt x y)
  | .lt => orTypeError (ops.lt x y)
  | .in => orTypeError (ops.contains x y)
  | .reverseIn => orTypeError (ops.contains y x)
  | .intersection => orTypeError (ops.intersects x y)

/-- `SingleRule` -/
structure SingleRule (σ : Type) where
  valuePath : List String
  relation : Relation
  comparison : Value σ

inductive Quantifier where
  | any
  | all
deriving DecidableEq

/-- `MetaRule` -/
structure MetaRule (σ : Type) where
  rules : List (SingleRule σ)
  relation : Quantifier

/-- `SubPathRule` -/
structure SubPathRule (σ : Type) where
  basePath : List String
  metaRule : MetaRule σ

/-- The rules that are evaluated along a path. -/
inductive Rule (σ : Type) where
  | singleRule (rule : SingleRule σ)
  | metaRule (rule : MetaRule σ)
  | subPathRule (rule : SubPathRule σ)

/-- `_get_dotted_path_from_dictionary`, for the keys between the dots. -/
def getKeys : Value σ → String → List String → Except PyError (Value σ)
  | .dict items, key, rest =>
      match items.lookup key with
      | none => .error .keyError
      | some value =>
          match rest with
          | [] => .ok value
          | key' :: rest => getKeys value key' rest
  | _, _, _ => .error .valueError

/-- `_get_dotted_path_from_dictionary` -/
def getDottedPath (dictionary : Value σ) (dottedPath : String) : Except PyError (Value σ) :=
  match Join.split '.' dottedPath with
  | key :: rest => getKeys dictionary key rest
  | [] => .error .valueError

/-- `_get_value` -/
def getValue : Value σ → List String → Except PyError (Value σ)
  | _, [] => .error .indexError
  | analysis, part :: path =>
      match getDottedPath analysis part with
      | .error e => .error e
      | .ok (.list items) =>
          if path ≠ [] then (items.mapM fun item => getValue item path).map .list else .ok (.list items)
      | .ok value => .ok value

/-- The value itself, or some of its elements if it is a list. -/
def anyValue (holds : Value σ → Except PyError Bool) (values : Value σ) : Except PyError Bool :=
  match values with
  | .list items => items.anyM holds
  | value => holds value

/-- `_evaluate_single_rule` -/
def evaluateSingleRule (ops : Operators σ) (analysis : Value σ) (rule : SingleRule σ) : Except PyError Bool :=
  match getValue analysis rule.valuePath with
  | .error e => .error e
  | .ok values =>
      match rule.comparison with
      | .list _ => applyRelation ops rule.relation values rule.comparison
      | _ => anyValue (fun value => applyRelation ops rule.relation value rule.comparison) values

/-- `except KeyError: return False`, and the analysis has to have items. -/
def evaluateWith (analysis : Value σ) (result : Except PyError Bool) : Except PyError Bool :=
  match analysis with
  | .dict _ =>
      match result with
      | .error .keyError => .ok false
      | result => result
  | _ => .error .attributeError

/-- `evaluate` of one of the rules of a `MetaRule`. -/
def evaluateSingle (ops : Operators σ) (analysis : Value σ) (rule : SingleRule σ) : Except PyError Bool :=
  evaluateWith analysis (evaluateSingleRule ops analysis rule)

/-- `_evaluate_meta_rule` -/
def evaluateMetaRule (ops : Operators σ) (analysis : Value σ) (rule : MetaRule σ) : Except PyError Bool :=
  match rule.relation with
  | .any => rule.rules.anyM (evaluateSingle ops analysis)
  | .all => rule.rules.allM (evaluateSingle ops analysis)

/-- `_evaluate_sub_path_rule` -/
def evaluateSubPathRule (ops : Operators σ) (analysis : Value σ) (rule : SubPathRule σ) : Except PyError Bool :=
  match getValue analysis rule.basePath with
  | .error e => .error e
  | .ok values => anyValue (fun value => evaluateMetaRule ops value rule.metaRule) values

/-- `evaluate` -/
def evaluate (ops : Operators σ) (analysis : Value σ) : Rule σ → Except PyError Bool
  | .singleRule rule => evaluateSingle ops analysis rule
  | .metaRule rule => evaluateWith analysis (evaluateMetaRule ops analysis rule)
  | .subPathRule rule => evaluateWith analysis (evaluateSubPathRule ops analysis rule)

/-! ## Existential paths -/

def IsList : Value σ → Prop
  | .list _ => True
  | _ => False

/-- The keys of a path. -/
def components (path : List String) : List String := path.flatMap (Join.split '.')

/-- The keys lead from a value to another one, with a choice of an element in each list
that is met, also at the end. -/
inductive Reaches : Value σ → List String → Value σ → Prop
  | here {value : Value σ} : ¬ IsList value → Reaches value [] value
  | element {items : List (Value σ)} {item value : Value σ} {keys : List String} : item ∈ items →
      Reaches item keys value → Reaches (.list items) keys value
  | key {items : List (String × Value σ)} {key : String} {keys : List String} {value value' : Value σ} :
      items.lookup key = some value → Reaches value keys value' → Reaches (.dict items) (key :: keys) value'

/-- What is evaluated is whether some value that is reached has a property. -/
def Existential (result : Except PyError Bool) (analysis : Value σ) (path : List String)
    (holds : Value σ → Except PyError Bool) : Prop :=
  ∃ b, result = .ok b ∧ (b = true ↔ ∃ value, Reaches analysis (components path) value ∧ holds value = .ok true)

/-- The property can be evaluated on all values that are reached. -/
def Applicable (analysis : Value σ) (path : List String) (holds : Value σ → Except PyError Bool) : Prop :=
  ∀ value, Reaches analysis (components path) value → ∃ b, holds value = .ok b

/-- The path is existential in each `SingleRule` with a scalar to compare with, and in each
`SubPathRule`. -/
structure PathRight (analysis : Value σ) (path : List String) : Prop where
  single : ∀ (ops : Operators σ) (relation : Relation) (s : σ),
    Applicable analysis path (fun value => applyRelation ops relation value (.scalar s)) →
      Existential (evaluate ops analysis (.singleRule ⟨path, relation, .scalar s⟩)) analysis path
        fun value => applyRelation ops relation value (.scalar s)
  subPath : ∀ (ops : Operators σ) (metaRule : MetaRule σ),
    Applicable analysis path (fun value => evaluateMetaRule ops value metaRule) →
      Existential (evaluate ops analysis (.subPathRule ⟨path, metaRule⟩)) analysis path
        fun value => evaluateMetaRule ops value metaRule

/-- A `MetaRule` is any or all of its rules. -/
def MetaRight (ops : Operators σ) (analysis : Value σ) (rule : MetaRule σ) : Prop :=
  ∀ holds : SingleRule σ → Bool, (∀ r ∈ rule.rules, evaluate ops analysis (.singleRule r) = .ok (holds r)) →
    evaluate ops analysis (.metaRule rule) = .ok
      (match rule.relation with
      | .any => rule.rules.any holds
      | .all => rule.rules.all holds)

/-! ## Paths that are collected as they should be -/

/-- The keys lead through dictionaries only. -/
inductive KeysLead : Value σ → List String → Value σ → Prop
  | here {value : Value σ} : KeysLead value [] value
  | key {items : List (String × Value σ)} {key : String} {keys : List String} {value value' : Value σ} :
      items.lookup key = some value → KeysLead value keys value' → KeysLead (.dict items) (key :: keys) value'

/-- A part of a path leads through dictionaries to a value. -/
def LeadsTo (analysis : Value σ) (part : String) (value : Value σ) : Prop :=
  KeysLead analysis (Join.split '.' part) value

/-- Some of the keys lead to a dictionary that lacks the next one. -/
def KeyLacking (analysis : Value σ) (keys : List String) : Prop :=
  ∃ front key back members, keys = front ++ key :: back ∧ KeysLead analysis front (.dict members) ∧
    members.lookup key = none

/-- A part of a path leads through dictionaries to one that lacks the next key. -/
def LacksKey (analysis : Value σ) (part : String) : Prop := KeyLacking analysis (Join.split '.' part)

/-- The path can be followed from all elements of the lists. -/
def Followed : Value σ → List String → Prop
  | _, [] => False
  | analysis, part :: path => ∃ value, LeadsTo analysis part value ∧
      ∀ items, value = .list items → path ≠ [] → ∀ item ∈ items, Followed item path

/-- The first element from which the path cannot be followed lacks a key of it. -/
def LacksFirst : Value σ → List String → Prop
  | _, [] => False
  | analysis, part :: path => LacksKey analysis part ∨
      path ≠ [] ∧ ∃ front item back, LeadsTo analysis part (.list (front ++ item :: back)) ∧
        (∀ other ∈ front, Followed other path) ∧ LacksFirst item path

/-- The path has one part and leads to a value that is no list of lists; or it has two
parts, the first leads to a list, and the second from each element to a value that is no
list; or a list is empty; or nothing is reached and a key is missing first. -/
inductive Mapped : Value σ → List String → Prop
  | direct {analysis value : Value σ} {part : String} : LeadsTo analysis part value →
      (∀ items, value = .list items → ∀ item ∈ items, ¬ IsList item) → Mapped analysis [part]
  | elements {analysis : Value σ} {part part' : String} {items : List (Value σ)} :
      LeadsTo analysis part (.list items) →
      (∀ item ∈ items, ∃ value, LeadsTo item part' value ∧ ¬ IsList value) → Mapped analysis [part, part']
  | empty {analysis : Value σ} {part : String} {path : List String} : LeadsTo analysis part (.list []) →
      Mapped analysis (part :: path)
  | lacking {analysis : Value σ} {path : List String} : LacksFirst analysis path →
      (∀ value, ¬ Reaches analysis (components path) value) → Mapped analysis path

/-! ## What is reached -/

variable {analysis value value' item : Value σ} {key part part' : String} {keys keys' path : List String}
  {items : List (Value σ)}

theorem isList_iff : IsList value ↔ ∃ items, value = .list items := by
  cases value with
  | dict _ | scalar _ => exact iff_of_false id (by rintro ⟨_, h⟩; cases h)
  | list items => exact iff_of_true trivial ⟨items, rfl⟩

theorem reaches_list : Reaches (.list items) keys value ↔ ∃ item ∈ items, Reaches item keys value := by
  constructor
  · intro h
    cases h with
    | here hnot => exact absurd trivial hnot
    | element hitem h => exact ⟨_, hitem, h⟩
  · rintro ⟨item, hitem, h⟩
    exact .element hitem h

theorem reaches_dict {members : List (String × Value σ)} : Reaches (.dict members) (key :: keys) value ↔
    ∃ value', members.lookup key = some value' ∧ Reaches value' keys value := by
  constructor
  · intro h
    cases h with
    | key hkey h => exact ⟨_, hkey, h⟩
  · rintro ⟨value', hkey, h⟩
    exact .key hkey h

theorem reaches_nil (hnot : ¬ IsList value) : Reaches value [] value' ↔ value' = value := by
  constructor
  · intro h
    cases h with
    | here _ => rfl
    | element _ _ => exact absurd trivial hnot
  · rintro rfl
    exact .here hnot

theorem Reaches.not_isList (h : Reaches analysis keys value) : ¬ IsList value := by
  induction h with
  | here hnot => exact hnot
  | element _ _ ih => exact ih
  | key _ _ ih => exact ih

/-- Dictionaries leave no choice. -/
theorem KeysLead.reaches_iff (h : KeysLead analysis keys value) :
    Reaches analysis (keys ++ keys') value' ↔ Reaches value keys' value' := by
  induction h with
  | here => rfl
  | key hkey _ ih =>
      rw [List.cons_append, reaches_dict, ← ih]
      constructor
      · rintro ⟨next, hnext, h⟩
        obtain rfl := Option.some.inj (hkey.symm.trans hnext)
        exact h
      · intro h
        exact ⟨_, hkey, h⟩

theorem components_cons : components (part :: path) = Join.split '.' part ++ components path := rfl

theorem components_ne_nil (h : path ≠ []) : components path ≠ [] := by
  cases path with
  | nil => exact absurd rfl h
  | cons part path =>
      rw [components_cons]
      exact List.append_ne_nil_of_left_ne_nil Join.split_ne_nil _

theorem LeadsTo.reaches_iff (h : LeadsTo analysis part value) :
    Reaches analysis (components (part :: path)) value' ↔ Reaches value (components path) value' := by
  rw [components_cons]
  exact KeysLead.reaches_iff h

theorem LeadsTo.reaches_single (h : LeadsTo analysis part value) :
    Reaches analysis (components [part]) value' ↔ Reaches value [] value' := h.reaches_iff

/-! ## What is smaller -/

theorem sizeOf_of_lookup {members : List (String × Value σ)} (h : members.lookup key = some value) :
    sizeOf value < sizeOf (Value.dict members) := by
  have hmem : (key, value) ∈ members := by
    rw [List.lookup_eq_some_iff] at h
    rcases h with ⟨front, back, rfl, -⟩
    simp
  have hlt := List.sizeOf_lt_of_mem hmem
  simp only [Prod.mk.sizeOf_spec, Value.dict.sizeOf_spec] at hlt ⊢
  omega

theorem Reaches.sizeOf_le (h : Reaches analysis keys value) : sizeOf value ≤ sizeOf analysis := by
  induction h with
  | here _ => exact Nat.le_refl _
  | element hitem _ ih =>
      have hlt := List.sizeOf_lt_of_mem hitem
      simp only [Value.list.sizeOf_spec]
      omega
  | key hkey _ ih =>
      have hlt := sizeOf_of_lookup hkey
      omega

/-- Behind a key there are smaller values only. -/
theorem Reaches.sizeOf_lt (h : Reaches analysis keys value) (hne : keys ≠ []) :
    sizeOf value < sizeOf analysis := by
  induction h with
  | here _ => exact absurd rfl hne
  | element hitem _ ih =>
      have hlt := List.sizeOf_lt_of_mem hitem
      have hrest := ih hne
      simp only [Value.list.sizeOf_spec]
      omega
  | key hkey hrest _ =>
      have hlt := sizeOf_of_lookup hkey
      have hle := hrest.sizeOf_le
      omega

/-! ## What is collected -/

theorem keysLead_nil : KeysLead analysis [] value ↔ analysis = value := by
  constructor
  · intro h
    cases h
    rfl
  · rintro rfl
    exact .here

theorem keysLead_dict {members : List (String × Value σ)} : KeysLead (.dict members) (key :: keys) value ↔
    ∃ next, members.lookup key = some next ∧ KeysLead next keys value := by
  constructor
  · intro h
    cases h with
    | key hkey h => exact ⟨_, hkey, h⟩
  · rintro ⟨next, hkey, h⟩
    exact .key hkey h

/-- Only a dictionary has keys. -/
theorem not_keysLead (hdict : ∀ members, analysis ≠ .dict members) : ¬ KeysLead analysis (key :: keys) value := by
  intro h
  cases h with
  | key _ _ => exact hdict _ rfl

theorem getKeys_ok_iff : getKeys analysis key keys = .ok value ↔ KeysLead analysis (key :: keys) value := by
  induction keys generalizing analysis key with
  | nil =>
      cases analysis with
      | dict members =>
          rw [getKeys, keysLead_dict]
          cases members.lookup key with
          | none => simp
          | some next => simp [keysLead_nil]
      | list _ | scalar _ => exact iff_of_false (fun h => by cases h) (not_keysLead fun _ h => by cases h)
  | cons key' keys ih =>
      cases analysis with
      | dict members =>
          rw [getKeys, keysLead_dict]
          cases members.lookup key with
          | none => simp
          | some next => simp [ih]
      | list _ | scalar _ => exact iff_of_false (fun h => by cases h) (not_keysLead fun _ h => by cases h)

theorem keyLacking_dict {members : List (String × Value σ)} : KeyLacking (.dict members) (key :: keys) ↔
    members.lookup key = none ∨ ∃ next, members.lookup key = some next ∧ KeyLacking next keys := by
  constructor
  · rintro ⟨front, key', back, members', hkeys, hlead, hnone⟩
    cases front with
    | nil =>
        obtain ⟨rfl, rfl⟩ := List.cons.inj hkeys
        obtain rfl := Value.dict.inj (keysLead_nil.1 hlead)
        exact .inl hnone
    | cons first front =>
        obtain ⟨rfl, rfl⟩ := List.cons.inj hkeys
        rcases keysLead_dict.1 hlead with ⟨next, hnext, hlead⟩
        exact .inr ⟨next, hnext, front, key', back, members', rfl, hlead, hnone⟩
  · rintro (hnone | ⟨next, hnext, front, key', back, members', rfl, hlead, hnone⟩)
    · exact ⟨[], key, keys, members, rfl, .here, hnone⟩
    · exact ⟨key :: front, key', back, members', rfl, .key hnext hlead, hnone⟩

/-- Only a dictionary can lack a key. -/
theorem not_keyLacking (hdict : ∀ members, analysis ≠ .dict members) : ¬ KeyLacking analysis (key :: keys) := by
  rintro ⟨front, key', back, members, hkeys, hlead, -⟩
  cases front with
  | nil => exact hdict members (keysLead_nil.1 hlead)
  | cons first front => exact not_keysLead hdict hlead

theorem not_keyLacking_nil : ¬ KeyLacking analysis [] := by
  rintro ⟨front, key, back, members, hkeys, -⟩
  exact List.append_ne_nil_of_right_ne_nil front (List.cons_ne_nil key back) hkeys.symm

theorem getKeys_keyError_iff :
    getKeys analysis key keys = .error .keyError ↔ KeyLacking analysis (key :: keys) := by
  induction keys generalizing analysis key with
  | nil =>
      cases analysis with
      | dict members =>
          rw [getKeys, keyLacking_dict]
          cases members.lookup key with
          | none => simp
          | some next => simp [not_keyLacking_nil]
      | list _ | scalar _ => exact iff_of_false (fun h => by cases h) (not_keyLacking fun _ h => by cases h)
  | cons key' keys ih =>
      cases analysis with
      | dict members =>
          rw [getKeys, keyLacking_dict]
          cases members.lookup key with
          | none => simp
          | some next => simp [ih]
      | list _ | scalar _ => exact iff_of_false (fun h => by cases h) (not_keyLacking fun _ h => by cases h)

/-- A part of a path has a key. -/
theorem exists_keys (part : String) : ∃ key keys, Join.split '.' part = key :: keys :=
  List.exists_cons_of_ne_nil Join.split_ne_nil

theorem getDottedPath_ok_iff : getDottedPath analysis part = .ok value ↔ LeadsTo analysis part value := by
  rcases exists_keys part with ⟨key, keys, hsplit⟩
  rw [LeadsTo, getDottedPath, hsplit]
  exact getKeys_ok_iff

theorem getDottedPath_keyError_iff : getDottedPath analysis part = .error .keyError ↔ LacksKey analysis part := by
  rcases exists_keys part with ⟨key, keys, hsplit⟩
  rw [LacksKey, getDottedPath, hsplit]
  exact getKeys_keyError_iff

/-- What is no list is collected as it is. -/
theorem getValue_of_not_isList (h : LeadsTo analysis part value) (hnot : ¬ IsList value) (path : List String) :
    getValue analysis (part :: path) = .ok value := by
  rw [getValue, getDottedPath_ok_iff.2 h]
  cases value with
  | dict members => rfl
  | list items => exact absurd trivial hnot
  | scalar s => rfl

/-- So is a list at the end of the path. -/
theorem getValue_single (h : LeadsTo analysis part value) : getValue analysis [part] = .ok value := by
  rw [getValue, getDottedPath_ok_iff.2 h]
  cases value with
  | dict members => rfl
  | list items => rfl
  | scalar s => rfl

/-- A list before it is mapped. -/
theorem getValue_list (h : LeadsTo analysis part (.list items)) (hne : path ≠ []) :
    getValue analysis (part :: path) = (items.mapM fun item => getValue item path).map .list := by
  rw [getValue, getDottedPath_ok_iff.2 h]
  exact if_pos hne

/-- One of the two happens. -/
theorem getValue_cases (h : LeadsTo analysis part value) (path : List String) :
    (∃ items, value = .list items ∧ path ≠ []) ∨ getValue analysis (part :: path) = .ok value := by
  by_cases hlist : IsList value
  · by_cases hpath : path = []
    · subst hpath
      exact .inr (getValue_single h)
    · rcases isList_iff.1 hlist with ⟨items, rfl⟩
      exact .inl ⟨items, rfl, hpath⟩
  · exact .inr (getValue_of_not_isList h hlist path)

theorem getValue_error {e : PyError} (h : getDottedPath analysis part = .error e) (path : List String) :
    getValue analysis (part :: path) = .error e := by
  rw [getValue, h]

theorem map_list_eq_ok {result : Except PyError (List (Value σ))} :
    result.map Value.list = .ok value ↔ ∃ items, result = .ok items ∧ value = .list items := by
  cases result with
  | error e => exact iff_of_false (fun h => by cases h) (by rintro ⟨_, h, -⟩; cases h)
  | ok items =>
      constructor
      · intro h
        exact ⟨items, rfl, (Except.ok.inj h).symm⟩
      · rintro ⟨items', h, rfl⟩
        obtain rfl := Except.ok.inj h
        rfl

theorem map_list_eq_error {result : Except PyError (List (Value σ))} {e : PyError} :
    result.map Value.list = .error e ↔ result = .error e := by
  cases result with
  | error e' =>
      constructor
      · intro h
        exact congrArg Except.error (Except.error.inj h)
      · intro h
        exact congrArg Except.error (Except.error.inj h)
  | ok items => exact iff_of_false (fun h => by cases h) (fun h => by cases h)

/-- Something is collected if and only if the path can be followed everywhere. -/
theorem exists_getValue_ok_iff : (∃ value, getValue analysis path = .ok value) ↔ Followed analysis path := by
  induction path generalizing analysis with
  | nil => exact iff_of_false (by rintro ⟨_, h⟩; cases h) id
  | cons part path ih =>
      constructor
      · rintro ⟨value, h⟩
        cases hlead : getDottedPath analysis part with
        | error e =>
            rw [getValue_error hlead] at h
            cases h
        | ok next =>
            have hlead' := getDottedPath_ok_iff.1 hlead
            refine ⟨next, hlead', ?_⟩
            rintro items rfl hne item hitem
            rw [getValue_list hlead' hne, map_list_eq_ok] at h
            rcases h with ⟨values, hvalues, -⟩
            rcases Loop.exists_of_mapM_ok hvalues hitem with ⟨y, -, hy⟩
            exact ih.1 ⟨y, hy⟩
      · rintro ⟨next, hlead, hitems⟩
        rcases getValue_cases hlead path with ⟨items, rfl, hne⟩ | hkept
        · have hall : ∀ item ∈ items, ∃ y, getValue item path = .ok y :=
            fun item hitem => ih.2 (hitems items rfl hne item hitem)
          rcases Loop.exists_mapM_ok hall with ⟨values, hvalues⟩
          refine ⟨.list values, ?_⟩
          rw [getValue_list hlead hne, hvalues]
          rfl
        · exact ⟨next, hkept⟩

/-- The collection gives up at a missing key if and only if that is what fails first. -/
theorem getValue_keyError_iff : getValue analysis path = .error .keyError ↔ LacksFirst analysis path := by
  induction path generalizing analysis with
  | nil => exact iff_of_false (fun h => by cases h) id
  | cons part path ih =>
      rw [LacksFirst, ← getDottedPath_keyError_iff]
      cases hlead : getDottedPath analysis part with
      | error e =>
          rw [getValue_error hlead]
          constructor
          · intro h
            exact .inl (congrArg Except.error (Except.error.inj h))
          · rintro (h | ⟨-, front, item, back, hlist, -⟩)
            · exact congrArg Except.error (Except.error.inj h)
            · rw [getDottedPath_ok_iff.2 hlist] at hlead
              cases hlead
      | ok next =>
          have hlead' := getDottedPath_ok_iff.1 hlead
          rw [or_iff_right (by simp)]
          constructor
          · intro h
            rcases getValue_cases hlead' path with ⟨items, rfl, hne⟩ | hkept
            · rw [getValue_list hlead' hne, map_list_eq_error, Loop.mapM_eq_error_iff] at h
              rcases h with ⟨front, item, back, rfl, hfront, hitem⟩
              refine ⟨hne, front, item, back, hlead', fun other hother => ?_, ih.1 hitem⟩
              exact exists_getValue_ok_iff.1 (hfront other hother)
            · rw [hkept] at h
              cases h
          · rintro ⟨hne, front, item, back, hlist, hfront, hitem⟩
            rw [getValue_list hlist hne, map_list_eq_error, Loop.mapM_eq_error_iff]
            exact ⟨front, item, back, rfl, fun other hother => exists_getValue_ok_iff.2 (hfront other hother),
              ih.2 hitem⟩

/-! ## Mapped paths are existential -/

variable {holds : Value σ → Except PyError Bool} {members : List (String × Value σ)}

/-- What both kinds of rules with a path do with the values that are collected. -/
def anyCollected (holds : Value σ → Except PyError Bool) (analysis : Value σ) (path : List String) :
    Except PyError Bool :=
  match getValue analysis path with
  | .error e => .error e
  | .ok values => anyValue holds values

theorem anyCollected_of_list {values : List (Value σ)} (h : getValue analysis path = .ok (.list values)) :
    anyCollected holds analysis path = values.anyM holds := by
  rw [anyCollected, h]
  rfl

theorem anyCollected_of_value (h : getValue analysis path = .ok value) (hnot : ¬ IsList value) :
    anyCollected holds analysis path = holds value := by
  rw [anyCollected, h]
  cases value with
  | dict members => rfl
  | list items => exact absurd trivial hnot
  | scalar s => rfl

theorem anyCollected_error {e : PyError} (h : getValue analysis path = .error e) :
    anyCollected holds analysis path = .error e := by
  rw [anyCollected, h]

/-- Where exactly the values that are reached are collected, the answer is right. -/
theorem existential_of_values {values : List (Value σ)}
    (hget : getValue (.dict members) path = .ok (.list values))
    (hvalues : ∀ value, value ∈ values ↔ Reaches (.dict members) (components path) value)
    (happ : Applicable (.dict members) path holds) :
    Existential (evaluateWith (.dict members) (anyCollected holds (.dict members) path)) (.dict members) path
      holds := by
  have hall : ∀ value ∈ values, ∃ b, holds value = .ok b := fun value hvalue => happ value ((hvalues value).1 hvalue)
  rcases Loop.exists_anyM_ok hall with ⟨b, hb, hiff⟩
  refine ⟨b, ?_, ?_⟩
  · rw [anyCollected_of_list hget, hb]
    rfl
  · rw [hiff]
    simp only [hvalues]

/-- One part that leads to a value or a flat list. -/
theorem existential_direct (hlead : LeadsTo (.dict members) part value)
    (hlists : ∀ items, value = .list items → ∀ item ∈ items, ¬ IsList item)
    (happ : Applicable (.dict members) [part] holds) :
    Existential (evaluateWith (.dict members) (anyCollected holds (.dict members) [part])) (.dict members)
      [part] holds := by
  have hreach : ∀ value', Reaches (.dict members) (components [part]) value' ↔ Reaches value [] value' :=
    fun value' => hlead.reaches_single
  by_cases hlist : IsList value
  · rcases isList_iff.1 hlist with ⟨items, rfl⟩
    apply existential_of_values (getValue_single hlead) _ happ
    intro value'
    rw [hreach, reaches_list]
    constructor
    · intro hmem
      exact ⟨value', hmem, .here (hlists items rfl value' hmem)⟩
    · rintro ⟨item, hitem, h⟩
      rw [(reaches_nil (hlists items rfl item hitem)).1 h]
      exact hitem
  · rcases happ value ((hreach value).2 (.here hlist)) with ⟨b, hb⟩
    refine ⟨b, ?_, ?_⟩
    · rw [anyCollected_of_value (getValue_single hlead) hlist, hb]
      rfl
    · simp only [hreach, reaches_nil hlist, exists_eq_left, hb, Except.ok.injEq]

/-- One part that leads to a list, and one behind it for each element. -/
theorem existential_elements (hlead : LeadsTo (.dict members) part (.list items))
    (hitems : ∀ item ∈ items, ∃ value, LeadsTo item part' value ∧ ¬ IsList value)
    (happ : Applicable (.dict members) [part, part'] holds) :
    Existential (evaluateWith (.dict members) (anyCollected holds (.dict members) [part, part']))
      (.dict members) [part, part'] holds := by
  have hall : ∀ item ∈ items, ∃ y, getValue item [part'] = .ok y := by
    intro item hitem
    rcases hitems item hitem with ⟨value, hvalue, -⟩
    exact ⟨value, getValue_single hvalue⟩
  rcases Loop.exists_mapM_ok hall with ⟨values, hvalues⟩
  have hget : getValue (.dict members) [part, part'] = .ok (.list values) := by
    rw [getValue_list hlead (List.cons_ne_nil _ _), hvalues]
    rfl
  apply existential_of_values hget _ happ
  intro value
  rw [Loop.mem_of_mapM_ok hvalues, hlead.reaches_iff, reaches_list]
  -- each element gives the one value to which the second part leads
  have hone : ∀ item ∈ items, getValue item [part'] = .ok value ↔ Reaches item (components [part']) value := by
    intro item hitem
    rcases hitems item hitem with ⟨value', hvalue', hnot⟩
    rw [getValue_single hvalue', hvalue'.reaches_single, reaches_nil hnot]
    exact ⟨fun h => (Except.ok.inj h).symm, fun h => congrArg Except.ok h.symm⟩
  constructor
  · rintro ⟨item, hitem, h⟩
    exact ⟨item, hitem, (hone item hitem).1 h⟩
  · rintro ⟨item, hitem, h⟩
    exact ⟨item, hitem, (hone item hitem).2 h⟩

theorem existential_empty (hlead : LeadsTo (.dict members) part (.list []))
    (happ : Applicable (.dict members) (part :: path) holds) :
    Existential (evaluateWith (.dict members) (anyCollected holds (.dict members) (part :: path)))
      (.dict members) (part :: path) holds := by
  have hget : getValue (.dict members) (part :: path) = .ok (.list []) := by
    by_cases hne : path = []
    · subst hne
      exact getValue_single hlead
    · rw [getValue_list hlead hne]
      rfl
  apply existential_of_values hget _ happ
  intro value
  rw [hlead.reaches_iff, reaches_list]
  simp

/-- Where the missing key is met first and nothing is reached, the answer is no. -/
theorem existential_lacking (hlacks : LacksFirst (.dict members) path)
    (hnone : ∀ value, ¬ Reaches (.dict members) (components path) value) :
    Existential (evaluateWith (.dict members) (anyCollected holds (.dict members) path)) (.dict members) path
      holds := by
  refine ⟨false, ?_, ?_⟩
  · rw [anyCollected_error (getValue_keyError_iff.2 hlacks)]
    rfl
  · simp [hnone]

theorem existential_of_mapped (h : Mapped (.dict members) path) (happ : Applicable (.dict members) path holds) :
    Existential (evaluateWith (.dict members) (anyCollected holds (.dict members) path)) (.dict members) path
      holds := by
  cases h with
  | direct hlead hlists => exact existential_direct hlead hlists happ
  | elements hlead hitems => exact existential_elements hlead hitems happ
  | empty hlead => exact existential_empty hlead happ
  | lacking hlacks hnone => exact existential_lacking hlacks hnone

/-! ## Existential paths are mapped -/

/-- The path is existential for every relation that may raise a `TypeError`. -/
def RightForAll (members : List (String × Value σ)) (path : List String) : Prop :=
  ∀ answer : Value σ → Option Bool,
    Applicable (.dict members) path (fun value => orTypeError (answer value)) →
      Existential
        (evaluateWith (.dict members)
          (anyCollected (fun value => orTypeError (answer value)) (.dict members) path))
        (.dict members) path fun value => orTypeError (answer value)

/-- A total relation is applicable. -/
theorem applicable_some (answer : Value σ → Bool) :
    Applicable analysis path fun value => orTypeError (some (answer value)) := fun value _ => ⟨answer value, rfl⟩

/-- Nothing but a missing key may end the collection. -/
theorem eq_keyError_of_rightForAll (hright : RightForAll members path) {e : PyError}
    (h : getValue (.dict members) path = .error e) : e = .keyError := by
  rcases hright (fun _ => some false) (applicable_some fun _ => false) with ⟨b, hb, -⟩
  rw [anyCollected_error h] at hb
  cases e with
  | keyError => rfl
  | valueError => cases hb
  | indexError => cases hb
  | typeError => cases hb
  | attributeError => cases hb

/-- If a missing key ends it, nothing is reached. -/
theorem not_reaches_of_rightForAll (hright : RightForAll members path)
    (h : getValue (.dict members) path = .error .keyError) (value : Value σ) :
    ¬ Reaches (.dict members) (components path) value := by
  intro hreach
  rcases hright (fun _ => some true) (applicable_some fun _ => true) with ⟨b, hb, hiff⟩
  rw [anyCollected_error h] at hb
  obtain rfl : false = b := Except.ok.inj hb
  exact Bool.false_ne_true (hiff.2 ⟨value, hreach, rfl⟩)

/-- No list is among the values that are collected. -/
theorem not_isList_of_rightForAll (hright : RightForAll members path) {values : List (Value σ)}
    (h : getValue (.dict members) path = .ok (.list values)) : ∀ value ∈ values, ¬ IsList value := by
  intro value hvalue hlist
  classical
  -- a relation that cannot be applied to lists
  have happ : Applicable (.dict members) path
      fun value => orTypeError (if IsList value then none else some false) := by
    intro value hreach
    refine ⟨false, ?_⟩
    exact congrArg orTypeError (if_neg hreach.not_isList)
  rcases hright _ happ with ⟨b, hb, -⟩
  have hraises : values.anyM (fun value => orTypeError (if IsList value then none else some false)) =
      .error PyError.typeError := by
    apply Loop.anyM_eq_error
    · intro value' _
      by_cases hlist' : IsList value'
      · exact .inr (by rw [if_pos hlist']; rfl)
      · exact .inl (by rw [if_neg hlist']; rfl)
    · exact ⟨value, hvalue, by rw [if_pos hlist]; rfl⟩
  rw [anyCollected_of_list h, hraises] at hb
  cases hb

/-- What is compared is reached, or the relation that holds of it alone tells. -/
theorem reaches_of_rightForAll (hright : RightForAll members path) {values : List (Value σ)}
    (h : getValue (.dict members) path = .ok (.list values)) (hvalue : value ∈ values) :
    Reaches (.dict members) (components path) value := by
  classical
  rcases hright (fun value' => some (decide (value' = value))) (applicable_some _) with ⟨b, hb, hiff⟩
  have hany : values.anyM (fun value' => orTypeError (some (decide (value' = value)))) =
      (.ok true : Except PyError Bool) := by
    have hok := Loop.anyM_ok (l := values) (ε := PyError)
      (g := fun value' => orTypeError (some (decide (value' = value)))) fun value' _ => rfl
    rw [hok]
    congr 1
    exact List.any_eq_true.2 ⟨value, hvalue, decide_eq_true rfl⟩
  rw [anyCollected_of_list h, hany] at hb
  obtain rfl : true = b := Except.ok.inj hb
  rcases hiff.1 rfl with ⟨value', hreach, heq⟩
  obtain rfl : value' = value := of_decide_eq_true (Except.ok.inj heq)
  exact hreach

/-- The same for a value that is no list. -/
theorem reaches_value_of_rightForAll (hright : RightForAll members path)
    (h : getValue (.dict members) path = .ok value) (hnot : ¬ IsList value) :
    Reaches (.dict members) (components path) value := by
  classical
  rcases hright (fun value' => some (decide (value' = value))) (applicable_some _) with ⟨b, hb, hiff⟩
  rw [anyCollected_of_value h hnot, decide_eq_true rfl] at hb
  obtain rfl : true = b := Except.ok.inj hb
  rcases hiff.1 rfl with ⟨value', hreach, heq⟩
  obtain rfl : value' = value := of_decide_eq_true (Except.ok.inj heq)
  exact hreach

/-- A part of a path that is followed, with what is collected if that is no list. -/
theorem leadsTo_of_getValue (h : getValue analysis (part :: path) = .ok value) (hnot : ¬ IsList value) :
    LeadsTo analysis part value := by
  cases hlead : getDottedPath analysis part with
  | error e =>
      rw [getValue_error hlead] at h
      cases h
  | ok next =>
      have hlead' := getDottedPath_ok_iff.1 hlead
      rcases getValue_cases hlead' path with ⟨items, rfl, hne⟩ | hkept
      · rw [getValue_list hlead' hne, map_list_eq_ok] at h
        rcases h with ⟨values, -, rfl⟩
        exact absurd trivial hnot
      · obtain rfl : next = value := Except.ok.inj (hkept.symm.trans h)
        exact hlead'

/-- Behind a mapped list there is one part: the largest value that is collected would not be
reached behind two. -/
theorem single_of_rightForAll {path' : List String}
    (hright : RightForAll members (part :: part' :: path')) (hlead : LeadsTo (.dict members) part (.list items))
    {values : List (Value σ)} (hvalues : items.mapM (fun item => getValue item (part' :: path')) = .ok values)
    (hne : values ≠ []) : path' = [] := by
  by_contra hpath
  have hget : getValue (.dict members) (part :: part' :: path') = .ok (.list values) := by
    rw [getValue_list hlead (List.cons_ne_nil _ _), hvalues]
    rfl
  have hnot := not_isList_of_rightForAll hright hget
  rcases Set.exists_max_image {value | value ∈ values} sizeOf (List.finite_toSet values)
    (List.exists_mem_of_ne_nil values hne) with ⟨largest, hmem, hmax⟩
  have hreach := reaches_of_rightForAll hright hget hmem
  rw [hlead.reaches_iff, reaches_list] at hreach
  rcases hreach with ⟨item, hitem, hreach⟩
  rcases Loop.exists_of_mapM_ok hvalues hitem with ⟨next, hnext, heq⟩
  have hlead' := leadsTo_of_getValue heq (hnot next hnext)
  rw [hlead'.reaches_iff] at hreach
  have hlt := hreach.sizeOf_lt (components_ne_nil hpath)
  have hle := hmax next hnext
  omega

/-- A mapped list is empty, or all its elements have a value at the one part behind it. -/
theorem mapped_list_of_rightForAll {path' : List String} (hright : RightForAll members (part :: part' :: path'))
    (hlead : LeadsTo (.dict members) part (.list items)) {collected : Value σ}
    (hget : getValue (.dict members) (part :: part' :: path') = .ok collected) :
    Mapped (.dict members) (part :: part' :: path') := by
  have hmap := hget
  rw [getValue_list hlead (List.cons_ne_nil _ _), map_list_eq_ok] at hmap
  rcases hmap with ⟨values, hvalues, rfl⟩
  by_cases hitems : items = []
  · subst hitems
    exact .empty hlead
  · have hlength := Loop.length_of_mapM_ok hvalues
    have hne : values ≠ [] := by
      rintro rfl
      exact hitems (List.length_eq_zero_iff.1 hlength.symm)
    obtain rfl := single_of_rightForAll hright hlead hvalues hne
    refine .elements hlead fun item hitem => ?_
    rcases Loop.exists_of_mapM_ok hvalues hitem with ⟨value, hvalue, heq⟩
    have hnot := not_isList_of_rightForAll hright hget value hvalue
    exact ⟨value, leadsTo_of_getValue heq hnot, hnot⟩

/-- Where the rest of a path is dropped the value itself is compared, but only smaller ones
are reached. -/
theorem isList_of_rightForAll {path' : List String} (hright : RightForAll members (part :: part' :: path'))
    (hlead : LeadsTo (.dict members) part value) : IsList value := by
  by_contra hlist
  have hreach := reaches_value_of_rightForAll hright (getValue_of_not_isList hlead hlist _) hlist
  rw [hlead.reaches_iff] at hreach
  have hlt := hreach.sizeOf_lt (components_ne_nil (List.cons_ne_nil part' path'))
  omega

theorem mapped_of_rightForAll (hright : RightForAll members path) : Mapped (.dict members) path := by
  cases path with
  | nil =>
      have hindex : getValue (.dict members) [] = .error PyError.indexError := rfl
      cases eq_keyError_of_rightForAll hright hindex
  | cons part path =>
      cases hget : getValue (.dict members) (part :: path) with
      | error e =>
          obtain rfl := eq_keyError_of_rightForAll hright hget
          exact .lacking (getValue_keyError_iff.1 hget) (not_reaches_of_rightForAll hright hget)
      | ok collected =>
          have hsome := exists_getValue_ok_iff.1 ⟨collected, hget⟩
          rcases hsome with ⟨next, hlead, -⟩
          cases path with
          | nil =>
              refine .direct hlead ?_
              rintro items rfl
              exact not_isList_of_rightForAll hright (getValue_single hlead)
          | cons part' path =>
              rcases isList_iff.1 (isList_of_rightForAll hright hlead) with ⟨items, rfl⟩
              exact mapped_list_of_rightForAll hright hlead hget

/-! ## The rules -/

theorem evaluate_single (ops : Operators σ) (members : List (String × Value σ)) (path : List String)
    (relation : Relation) (s : σ) :
    evaluate ops (.dict members) (.singleRule ⟨path, relation, .scalar s⟩) =
      evaluateWith (.dict members)
        (anyCollected (fun value => applyRelation ops relation value (.scalar s)) (.dict members) path) := rfl

theorem evaluate_subPath (ops : Operators σ) (members : List (String × Value σ)) (path : List String)
    (metaRule : MetaRule σ) :
    evaluate ops (.dict members) (.subPathRule ⟨path, metaRule⟩) =
      evaluateWith (.dict members)
        (anyCollected (fun value => evaluateMetaRule ops value metaRule) (.dict members) path) := rfl

/-- The operators of which only one tells anything. -/
def gtOnly (answer : Value σ → Option Bool) : Operators σ where
  eq := fun _ _ => false
  is := fun _ _ => false
  gt := fun value _ => answer value
  lt := fun _ _ => none
  contains := fun _ _ => none
  intersects := fun _ _ => none

theorem pathRight_iff [Inhabited σ] (members : List (String × Value σ)) (path : List String) :
    PathRight (.dict members) path ↔ Mapped (.dict members) path := by
  constructor
  · intro h
    apply mapped_of_rightForAll
    intro answer happ
    exact h.single (gtOnly answer) .gt default happ
  · intro h
    constructor
    · intro ops relation s happ
      rw [evaluate_single]
      exact existential_of_mapped h happ
    · intro ops metaRule happ
      rw [evaluate_subPath]
      exact existential_of_mapped h happ

/-- A meta rule is always any or all of its rules. -/
theorem metaRight (ops : Operators σ) (members : List (String × Value σ)) (rule : MetaRule σ) :
    MetaRight ops (.dict members) rule := by
  intro answers hanswers
  have hsingle : ∀ r ∈ rule.rules, evaluateSingle ops (.dict members) r = .ok (answers r) := hanswers
  rw [evaluate, evaluateMetaRule]
  cases rule.relation with
  | any =>
      simp only [Loop.anyM_ok hsingle]
      rfl
  | all =>
      simp only [Loop.allM_ok hsingle]
      rfl

/-- Meta rules are right, and the paths that are existential are the mapped ones. -/
theorem rules_iff [Inhabited σ] :
    (∀ (ops : Operators σ) members (rule : MetaRule σ), MetaRight ops (.dict members) rule) ∧
      ∀ (members : List (String × Value σ)) path, PathRight (.dict members) path ↔ Mapped (.dict members) path :=
  ⟨metaRight, pathRight_iff⟩

/-- Numbers as they are compared in the language. -/
def numberOperators : Operators ℕ where
  eq
    | .scalar m, .scalar n => m == n
    | _, _ => false
  is
    | .scalar m, .scalar n => m == n
    | _, _ => false
  gt
    | .scalar m, .scalar n => some (n < m)
    | _, _ => none
  lt
    | .scalar m, .scalar n => some (m < n)
    | _, _ => none
  contains := fun _ _ => none
  intersects := fun _ _ => none

/-- The first component in the list has no version. -/
def sampleAnalysis : Value ℕ :=
  .dict [("software", .dict [("found", .list [.dict [], .dict [("version", .scalar 1)]])])]

def sampleRule : SingleRule ℕ := ⟨["software.found", "version"], .equals, .scalar 1⟩

/-- The version of the second component is reached and equal, and is not found. -/
theorem evaluate_sample :
    evaluate numberOperators sampleAnalysis (.singleRule sampleRule) = .ok false ∧
      Reaches sampleAnalysis (components sampleRule.valuePath) (.scalar 1) ∧
      applyRelation numberOperators sampleRule.relation (.scalar 1) sampleRule.comparison = .ok true ∧
      ¬ PathRight sampleAnalysis sampleRule.valuePath := by
  have heval : evaluate numberOperators sampleAnalysis (.singleRule sampleRule) = .ok false := by
    decide +kernel
  have hkeys : components sampleRule.valuePath = ["software", "found", "version"] := by decide +kernel
  have hreach : Reaches sampleAnalysis (components sampleRule.valuePath) (.scalar 1) := by
    rw [hkeys]
    refine .key rfl (.key rfl (.element (.tail _ (.head _)) (.key rfl (.here ?_))))
    exact id
  refine ⟨heval, hreach, rfl, fun hright => ?_⟩
  have happ : Applicable sampleAnalysis sampleRule.valuePath
      fun value => applyRelation numberOperators .equals value (.scalar 1) := fun value _ => ⟨_, rfl⟩
  rcases hright.single numberOperators .equals 1 happ with ⟨b, hb, hiff⟩
  obtain rfl : false = b := Except.ok.inj (heval.symm.trans hb)
  exact Bool.false_ne_true (hiff.2 ⟨.scalar 1, hreach, rfl⟩)

end FactCore.Rulebook
