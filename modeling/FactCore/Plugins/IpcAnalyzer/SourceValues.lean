import Mathlib.Algebra.Ring.Int.Defs
import Mathlib.Data.List.Basic
import FactCore.Lib.Loop

/-! # Values that come from source functions

`get_vars_from_varnode` and `find_source_value` of
`plugins/analysis/ipc/docker/ipc_analyzer/ipc_analysis/helper_functions.py`: the
value that a variable got from the last call of a source function (`sprintf`,
`snprintf`, `memcpy`, …) that writes to it.

The loop over the calls returns at the end of its first pass, so that only the last
call counts, and the loop over the casts of its destination does not expect a varnode
without a definition. `find_source_value_iff` says what is left.
-/

namespace FactCore.SourceValues

open Loop (Terminates)

variable {ω ν σ : Type}

/-- The accessors of Ghidra for a function with its variables and symbols: `ω` are the
p-code operations, `ν` the varnodes and `σ` the variables. -/
structure Ghidra (ω ν σ : Type) where
  addressSize : ℕ
  getAllVariables : List σ
  localSymbols : List σ
  globalSymbols : List σ
  minAddressOffset : σ → ℤ
  isParameter : σ → Bool
  storageOffset : σ → ℤ
  firstVarnodeOffset : σ → Option ℤ
  addressOffset : ν → ℤ
  getDef : ν → Option ω
  isCast : ω → Bool
  getInputs : ω → List ν
  getInput : ω → ℕ → ν
  calledFunctionName : ν → String

/-- An access to a property of `None`. -/
inductive Exc where
  | attributeError (message : String)
deriving DecidableEq

variable (g : Ghidra ω ν σ)

/-- `offset & bitmask`. -/
def masked (offset : ℤ) : ℤ := offset % (2 ^ g.addressSize : ℤ)

/-- The variables and symbols at the offset of an input of a definition. -/
def varsAtInput (vndefInput : ν) : List σ :=
  let vndefInputOffset := masked g (g.addressOffset vndefInput)
  (g.getAllVariables.filter fun localVar => masked g (g.minAddressOffset localVar) = vndefInputOffset) ++
    (g.localSymbols.filter fun localSymbol => !g.isParameter localSymbol &&
      decide (vndefInputOffset = masked g (g.storageOffset localSymbol))) ++
    g.globalSymbols.filter fun globalSymbol =>
      (g.firstVarnodeOffset globalSymbol).any fun offset =>
        decide (vndefInputOffset = masked g offset)

/-- `get_vars_from_varnode`. -/
def getVarsFromVarnode (varnode : ν) : List σ :=
  match g.getDef varnode with
  | none => []
  | some vndef => (g.getInputs vndef).flatMap (varsAtInput g)

/-! ## The code -/

/-- The loop condition `def_op.getOpcode() == PcodeOp.CAST` and the body of the loop. -/
def castBody : ν × Option ω → (ν × Option ω) ⊕ Except Exc (ν × Option ω)
  | (_, none) => .inr (.error (.attributeError "'NoneType' object has no attribute 'getOpcode'"))
  | (varnode, some defOp) =>
      if g.isCast defOp then .inl (g.getInput defOp 0, g.getDef (g.getInput defOp 0))
      else .inr (.ok (varnode, some defOp))

/-- The while loop: the varnode behind the casts and its definition. -/
def stripCasts (fuel : ℕ) (sourceVarnode : ν) : Option (Except Exc (ν × Option ω)) :=
  Loop.iterate (castBody g) fuel (sourceVarnode, g.getDef sourceVarnode)

/-- `source_value`: the third input of `snprintf`, and the second one otherwise. -/
def sourceValue (source : ω) : ν :=
  if g.calledFunctionName (g.getInput source 0) = "snprintf" then g.getInput source 3
  else g.getInput source 2

section

variable [DecidableEq σ]

/-- The end of the body of the loop: `return source_value` or `return None`. -/
def answer (var : σ) (source : ω) (sourceVars : List σ) : Option ν :=
  if var ∈ sourceVars then some (sourceValue g source) else none

/-- The body of the loop over the calls. -/
def lookAt (fuel : ℕ) (var : σ) (source : ω) : Option (Except Exc (Option ν)) :=
  let sourceVarnode := g.getInput source 1
  let sourceVars := getVarsFromVarnode g sourceVarnode
  if sourceVars = [] then
    (stripCasts g fuel sourceVarnode).map fun outcome => outcome.map fun stripped =>
      match stripped.2 with
      | some _ => answer g var source (getVarsFromVarnode g stripped.1)
      | none => none
  else some (.ok (answer g var source sourceVars))

/-- `find_source_value`. Every path through the body of the loop returns. -/
def findSourceValue (fuel : ℕ) (var : σ) (sources : List ω) : Option (Except Exc (Option ν)) :=
  match sources.reverse with
  | [] => some (.ok none)
  | source :: _ => lookAt g fuel var source

end

/-! ## The calls that write to a variable -/

/-- The second varnode is what is left of the first one without its casts. -/
inductive Stripped : ν → ν → Prop
  | refl {v : ν} (h : ∀ defOp, g.getDef v = some defOp → g.isCast defOp = false) : Stripped v v
  | cast {v v' : ν} {defOp : ω} (hdef : g.getDef v = some defOp) (hcast : g.isCast defOp = true)
      (h : Stripped (g.getInput defOp 0) v') : Stripped v v'

/-- The variable is one of those to which the destination of a call resolves; casts are
looked through if there are none at the destination itself. -/
def Writes (source : ω) (var : σ) : Prop :=
  var ∈ getVarsFromVarnode g (g.getInput source 1) ∨
    getVarsFromVarnode g (g.getInput source 1) = [] ∧
      ∃ v, Stripped g (g.getInput source 1) v ∧ var ∈ getVarsFromVarnode g v

/-- The destination has variables, or its casts lead to a varnode with a definition. -/
def Resolves (source : ω) : Prop :=
  getVarsFromVarnode g (g.getInput source 1) ≠ [] ∨
    ∃ v defOp, Stripped g (g.getInput source 1) v ∧ g.getDef v = some defOp

/-- What should be returned for a list of calls in program order: the value argument of
the last call that writes to the variable. -/
def IsSourceValue (var : σ) (sources : List ω) : Option ν → Prop
  | some value => ∃ front source back, sources = front ++ source :: back ∧ Writes g source var ∧
      (∀ later ∈ back, ¬ Writes g later var) ∧ value = sourceValue g source
  | none => ∀ source ∈ sources, ¬ Writes g source var

variable {g} {v v' : ν} {source : ω} {var : σ}

/-! ## The loop over the casts -/

/-- How the loop ends at a varnode whose definition is not a cast. -/
def castOutcome (g : Ghidra ω ν σ) (v : ν) : Except Exc (ν × Option ω) :=
  match g.getDef v with
  | none => .error (.attributeError "'NoneType' object has no attribute 'getOpcode'")
  | some defOp => .ok (v, some defOp)

theorem castBody_of_not_cast (h : ∀ defOp, g.getDef v = some defOp → g.isCast defOp = false) :
    castBody g (v, g.getDef v) = .inr (castOutcome g v) := by
  unfold castOutcome
  cases hdef : g.getDef v with
  | none => rfl
  | some defOp => simp [castBody, h defOp hdef]

theorem castBody_of_cast {defOp : ω} (hdef : g.getDef v = some defOp) (hcast : g.isCast defOp = true) :
    castBody g (v, g.getDef v) = .inl (g.getInput defOp 0, g.getDef (g.getInput defOp 0)) := by
  rw [hdef, castBody, if_pos hcast]

theorem terminates_stripCasts (h : Stripped g v v') :
    Terminates (fun fuel => stripCasts g fuel v) (castOutcome g v') := by
  induction h with
  | refl hdef => exact .of_return (castBody_of_not_cast hdef)
  | cast hdef hcast _ ih => exact .of_step (castBody_of_cast hdef hcast) ih

theorem stripped_of_stripCasts {fuel : ℕ} {outcome : Except Exc (ν × Option ω)}
    (h : stripCasts g fuel v = some outcome) : ∃ v', Stripped g v v' ∧ outcome = castOutcome g v' := by
  induction fuel generalizing v with
  | zero => cases h
  | succ fuel ih =>
      by_cases hcast : ∃ defOp, g.getDef v = some defOp ∧ g.isCast defOp = true
      · rcases hcast with ⟨defOp, hdef, hcast⟩
        rw [stripCasts, Loop.iterate, castBody_of_cast hdef hcast] at h
        rcases ih h with ⟨v', hstripped, houtcome⟩
        exact ⟨v', .cast hdef hcast hstripped, houtcome⟩
      · have hnot : ∀ defOp, g.getDef v = some defOp → g.isCast defOp = false := fun defOp hdef =>
          Bool.eq_false_iff.2 fun hc => hcast ⟨defOp, hdef, hc⟩
        rw [stripCasts, Loop.iterate, castBody_of_not_cast hnot] at h
        exact ⟨v, .refl hnot, (Option.some_inj.1 h).symm⟩

/-- The casts lead to one varnode only. -/
theorem Stripped.unique {v'' : ν} (h : Stripped g v v') (h' : Stripped g v v'') : v'' = v' := by
  induction h with
  | refl hnot =>
      cases h' with
      | refl => rfl
      | cast hdef hcast => exact absurd hcast (Bool.eq_false_iff.1 (hnot _ hdef))
  | cast hdef hcast _ ih =>
      cases h' with
      | refl hnot => exact absurd hcast (Bool.eq_false_iff.1 (hnot _ hdef))
      | cast hdef' _ hrest =>
          obtain rfl := Option.some_inj.1 (hdef.symm.trans hdef')
          exact ih hrest

/-! ## The last call -/

section

variable [DecidableEq σ] {r : Option ν}

theorem answer_eq_iff {sourceVars : List σ} : answer g var source sourceVars = r ↔
    var ∈ sourceVars ∧ r = some (sourceValue g source) ∨ var ∉ sourceVars ∧ r = none := by
  unfold answer
  by_cases hvar : var ∈ sourceVars <;> simp [hvar, eq_comm]

/-- A destination with variables is looked at as it is. -/
theorem terminates_lookAt_of_vars (hvars : getVarsFromVarnode g (g.getInput source 1) ≠ []) :
    Terminates (fun fuel => lookAt g fuel var source) (.ok r) ↔ Resolves g source ∧
      (Writes g source var ∧ r = some (sourceValue g source) ∨ ¬ Writes g source var ∧ r = none) := by
  have hwrites : Writes g source var ↔ var ∈ getVarsFromVarnode g (g.getInput source 1) :=
    or_iff_left fun h => hvars h.1
  have hlook : ∀ fuel, lookAt g fuel var source =
      some (.ok (answer g var source (getVarsFromVarnode g (g.getInput source 1)))) := fun fuel => by
    rw [lookAt, if_neg hvars]
  rw [hwrites, ← answer_eq_iff]
  constructor
  · rintro ⟨n, hn⟩
    have hok := (hlook n).symm.trans (hn n (Nat.le_refl n))
    exact ⟨.inl hvars, Except.ok.inj (Option.some_inj.1 hok)⟩
  · rintro ⟨-, rfl⟩
    exact ⟨0, fun fuel _ => hlook fuel⟩

omit [DecidableEq σ] in
/-- Of a destination without variables, the varnode behind its casts counts. -/
theorem writes_iff_of_stripped (hvars : getVarsFromVarnode g (g.getInput source 1) = []) {v : ν}
    (hstripped : Stripped g (g.getInput source 1) v) :
    Writes g source var ↔ var ∈ getVarsFromVarnode g v := by
  rw [Writes, hvars]
  constructor
  · rintro (hmem | ⟨-, v', hv', hmem⟩)
    · exact absurd hmem List.not_mem_nil
    · rwa [hstripped.unique hv'] at hmem
  · exact fun hmem => .inr ⟨rfl, v, hstripped, hmem⟩

/-- A destination without variables needs a definition behind its casts. -/
theorem terminates_lookAt_of_no_vars (hvars : getVarsFromVarnode g (g.getInput source 1) = []) :
    Terminates (fun fuel => lookAt g fuel var source) (.ok r) ↔ Resolves g source ∧
      (Writes g source var ∧ r = some (sourceValue g source) ∨ ¬ Writes g source var ∧ r = none) := by
  have hlook : (fun fuel => lookAt g fuel var source) = fun fuel =>
      (stripCasts g fuel (g.getInput source 1)).map fun outcome => outcome.map fun stripped =>
        match stripped.2 with
        | some _ => answer g var source (getVarsFromVarnode g stripped.1)
        | none => none := by
    funext fuel
    rw [lookAt, if_pos hvars]
  rw [hlook]
  constructor
  · rintro ⟨n, hn⟩
    rcases Option.map_eq_some_iff.1 (hn n (Nat.le_refl n)) with ⟨outcome, hstrip, houtcome⟩
    rcases stripped_of_stripCasts hstrip with ⟨v, hstripped, rfl⟩
    unfold castOutcome at houtcome
    cases hdef : g.getDef v with
    | none =>
        -- the access to the opcode of a missing definition raises
        rw [hdef] at houtcome
        cases houtcome
    | some defOp =>
        rw [hdef] at houtcome
        have hanswer : answer g var source (getVarsFromVarnode g v) = r := Except.ok.inj houtcome
        rw [answer_eq_iff, ← writes_iff_of_stripped hvars hstripped] at hanswer
        exact ⟨.inr ⟨v, defOp, hstripped, hdef⟩, hanswer⟩
  · rintro ⟨hresolves, hr⟩
    rcases hresolves with hne | ⟨v, defOp, hstripped, hdef⟩
    · exact absurd hvars hne
    · rw [writes_iff_of_stripped hvars hstripped, ← answer_eq_iff] at hr
      have hstrip := terminates_stripCasts hstripped
      rw [castOutcome, hdef] at hstrip
      subst hr
      exact hstrip.map _

/-- The body of the loop returns if the destination resolves, and then it tells whether
the call writes to the variable. -/
theorem terminates_lookAt_iff :
    Terminates (fun fuel => lookAt g fuel var source) (.ok r) ↔ Resolves g source ∧
      (Writes g source var ∧ r = some (sourceValue g source) ∨ ¬ Writes g source var ∧ r = none) := by
  by_cases hvars : getVarsFromVarnode g (g.getInput source 1) = []
  · exact terminates_lookAt_of_no_vars hvars
  · exact terminates_lookAt_of_vars hvars

end

/-- Only the last call counts: its destination has to resolve, and no call before it may
write to the variable if it does not. -/
theorem find_source_value_iff [DecidableEq σ] (g : Ghidra ω ν σ) (var : σ) (sources : List ω) :
    (∃ r, Terminates (fun fuel => findSourceValue g fuel var sources) (.ok r) ∧
      IsSourceValue g var sources r) ↔
    sources = [] ∨ ∃ front source, sources = front ++ [source] ∧ Resolves g source ∧
      (Writes g source var ∨ ∀ earlier ∈ front, ¬ Writes g earlier var) := by
  rcases List.eq_nil_or_concat sources with rfl | ⟨front, source, rfl⟩
  · refine iff_of_true ⟨none, ⟨0, fun _ _ => rfl⟩, fun source h => ?_⟩ (.inl rfl)
    exact absurd h List.not_mem_nil
  · have hlast : (fun fuel => findSourceValue g fuel var (front ++ [source])) =
        fun fuel => lookAt g fuel var source := by
      funext fuel
      rw [findSourceValue, List.reverse_append, List.reverse_singleton, List.singleton_append]
    rw [List.concat_eq_append, hlast]
    constructor
    · rintro ⟨r, hreturn, hvalue⟩
      rcases terminates_lookAt_iff.1 hreturn with ⟨hresolves, ⟨hwrites, -⟩ | ⟨-, rfl⟩⟩
      · exact .inr ⟨front, source, rfl, hresolves, .inl hwrites⟩
      · exact .inr ⟨front, source, rfl, hresolves, .inr fun earlier h =>
          hvalue earlier (List.mem_append_left _ h)⟩
    · rintro (hnil | ⟨front', source', happend, hresolves, hor⟩)
      · exact absurd hnil (List.append_ne_nil_of_right_ne_nil front (List.cons_ne_nil source []))
      · obtain ⟨rfl, heq⟩ := List.append_inj' happend rfl
        obtain rfl := List.singleton_inj.1 heq
        by_cases hwrites : Writes g source var
        · exact ⟨_, terminates_lookAt_iff.2 ⟨hresolves, .inl ⟨hwrites, rfl⟩⟩, front, source, [], rfl,
            hwrites, fun _ h => absurd h List.not_mem_nil, rfl⟩
        · refine ⟨none, terminates_lookAt_iff.2 ⟨hresolves, .inr ⟨hwrites, rfl⟩⟩, fun s hs => ?_⟩
          rcases List.mem_append.1 hs with hfront | hlast
          · exact hor.resolve_left hwrites s hfront
          · rwa [List.mem_singleton.1 hlast]

/-! ## Two calls -/

/-- Call `n` writes to variable `n`: its destination is varnode `n`, defined by an
operation with the address of the variable as its input. -/
def sampleGhidra : Ghidra ℕ ℕ ℕ where
  addressSize := 32
  getAllVariables := [1, 2]
  localSymbols := []
  globalSymbols := []
  minAddressOffset := fun localVar => localVar
  isParameter := fun _ => false
  storageOffset := fun _ => 0
  firstVarnodeOffset := fun _ => none
  addressOffset := fun varnode => varnode
  getDef := fun varnode => some varnode
  isCast := fun _ => false
  getInputs := fun op => [op]
  getInput := fun op index => if index = 1 then op else 10 * op + index
  calledFunctionName := fun _ => "sprintf"

/-- Variable 1 is written by the first call, which is not looked at. -/
theorem find_source_value_first :
    ¬ ∃ r, Terminates (fun fuel => findSourceValue sampleGhidra fuel 1 [1, 2]) (.ok r) ∧
      IsSourceValue sampleGhidra 1 [1, 2] r := by
  rintro ⟨r, ⟨n, hn⟩, hvalue⟩
  have hreturn : (some (.ok none) : Option (Except Exc (Option ℕ))) = some (.ok r) := hn n (Nat.le_refl n)
  obtain rfl : none = r := Except.ok.inj (Option.some_inj.1 hreturn)
  exact hvalue 1 List.mem_cons_self (.inl (by decide))

end FactCore.SourceValues
