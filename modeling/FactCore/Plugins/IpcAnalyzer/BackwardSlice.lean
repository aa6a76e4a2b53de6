import FactCore.Lib.DepthFirst
import FactCore.Plugins.IpcAnalyzer.SourceValues

/-! # The constants that reach an argument

`process_one_varnode`, `analyze_call_sites` and `analyze_called_function` of
`plugins/analysis/ipc/docker/ipc_analyzer/ipc_analysis/analyze.py`: from the argument of
a call, the definitions are followed backwards, into the callers for a parameter and into
the called functions for a result, until constants and addresses are met. The definitions
may form cycles; a varnode whose unique id was seen before is skipped.

The unique ids are those of Ghidra. Within one function they tell the varnodes apart; the
search relies on them across functions too, and `process_one_varnode_spec` says what this
costs. The accessors of Ghidra are a parameter.
-/

namespace FactCore.BackwardSlice

open SourceValues DepthFirst

variable {φ ω ν σ : Type}

/-- The p-code operations that are told apart. -/
inductive Opcode where
  | intNegate | intZext | intSext | int2comp | cast | copy | callind | piece
  | intAdd | intSub | intMult | intDiv | intAnd | intOr | intXor | intEqual | ptrsub
  | call | multiequal | indirect | load | ret
  | other
deriving DecidableEq

def oneinput : List Opcode :=
  [.intNegate, .intZext, .intSext, .int2comp, .cast, .copy, .callind, .piece]

def twoinputs : List Opcode :=
  [.intAdd, .intSub, .intMult, .intDiv, .intAnd, .intOr, .intXor, .intEqual, .ptrsub]

/-- A reference to the entry point of a function. -/
structure Reference (φ : Type) where
  callingFunc : Option φ
  isUnconditionalCall : Bool
  fromAddress : ℕ

/-- The accessors of Ghidra for a program: `φ` are its functions. -/
structure Program (φ ω ν σ : Type) where
  ghidra : φ → Ghidra ω ν σ
  sinkFunctionNames : List String
  sourceFunctionNames : List String
  getName : φ → String
  getUniqueId : ν → ℕ
  isConstant : ν → Bool
  getOffset : ν → ℤ
  isAddress : ν → Bool
  addressOffset : ν → ℤ
  sameAddress : ν → ν → Bool
  /-- The offset of the pointer that is stored at an address. -/
  dataAt : ℤ → Option ℤ
  /-- The slot of the parameter that a varnode belongs to. -/
  getSlot : ν → Option ℕ
  sameHigh : ν → ν → Bool
  pcAddress : ν → ℕ
  getDef : ν → Option ω
  getOpcode : ω → Opcode
  getInputs : ω → List ν
  getOutput : ω → ν
  seqTarget : ω → ℕ
  getPcodeOps : φ → List ω
  getPcodeOpsAt : φ → ℕ → List ω
  getFunctionAt : ν → Option φ
  getReferencesTo : φ → List (Reference φ)
  /-- The destinations of the basic blocks of a function. -/
  blocks : φ → List (List ℕ)

/-- What the search is at: a varnode with the function, the index of the argument and
the calls of source functions it is looked at with. -/
structure Node (φ ω ν : Type) where
  func : φ
  index : ℕ
  varnode : ν
  sources : List ω

/-- An access to a property of `None`. -/
def noAttribute (name : String) : Exc :=
  .attributeError s!"'NoneType' object has no attribute '{name}'"

variable (p : Program φ ω ν σ)

/-- `getInput`. -/
def getInput (op : ω) (i : ℕ) : Option ν := (p.getInputs op)[i]?

/-- The node for another varnode of the same function, unless it is `None`. -/
def Node.at (n : Node φ ω ν) : Option ν → Parts (Node φ ω ν) ℤ
  | none => []
  | some varnode => [.inr { n with varnode := varnode }]

/-! ## The calls of source functions -/

/-- The name of the function that a call in `get_call_site_pcode_ops` calls; `none` for
a call to something else than an address. -/
def calledName (op : ω) : Except Exc (Option String) :=
  match getInput p op 0 with
  | none => .ok none
  | some calledVarnode =>
      if p.isAddress calledVarnode then
        match p.getFunctionAt calledVarnode with
        | none => .error (noAttribute "name")
        | some called => .ok (some (p.getName called))
      else .ok none

/-- The second result of `get_call_site_pcode_ops`. -/
def sourcesPcodeOps (func : φ) : Except Exc (List ω) := do
  let found ← (p.getPcodeOps func).mapM fun op =>
    if p.getOpcode op = .call then do
      match ← calledName p op with
      | none => pure []
      | some name =>
          pure (if name ∉ p.sinkFunctionNames ∧ name ∈ p.sourceFunctionNames then [op] else [])
    else pure []
  pure found.flatten

/-- `get_referents`. -/
def getReferents (func : φ) (pcAddress : ℕ) : List ℕ :=
  (p.blocks func).flatMap fun destinations => destinations.takeWhile (· ≤ pcAddress)

/-- `get_relevant_sources`. -/
def getRelevantSources (func : φ) (pcAddress : ℕ) (sources : List ω) : List ω :=
  sources.filter fun source => p.seqTarget source ∈ getReferents p func pcAddress

/-- `find_local_vars`. -/
def findLocalVars (n : Node φ ω ν) : List (Option ν) :=
  ((p.getPcodeOps n.func).filter fun op =>
    p.getOpcode op = .copy && p.sameHigh (p.getOutput op) n.varnode &&
      decide (p.seqTarget op ≤ p.pcAddress n.varnode)).map fun op => getInput p op 0

/-! ## One step of the search -/

/-- `analyze_function_call_site`. -/
def analyzeFunctionCallSite (func : φ) (index : ℕ) (callSite : ω) (sources : List ω) :
    Parts (Node φ ω ν) ℤ :=
  match getInput p callSite index with
  | none => []
  | some varnode =>
      if p.isConstant varnode then [.inl [p.getOffset varnode]]
      else [.inr ⟨func, index, varnode, sources⟩]

/-- `analyze_called_function`. -/
def analyzeCalledFunction (func : φ) (index : ℕ) : Except Exc (Parts (Node φ ω ν) ℤ) := do
  let parts ← (p.getPcodeOps func).mapM fun op =>
    match p.getOpcode op, getInput p op 1 with
    | .ret, some returnValue => do
        let sources ← sourcesPcodeOps p func
        pure [.inr ⟨func, index, returnValue,
          getRelevantSources p func (p.seqTarget op) sources⟩]
    | _, _ => pure []
  pure parts.flatten

section

variable [DecidableEq φ]

/-- The calls of `func` among the operations of a caller. -/
def analyzeCaller (func caller : φ) (index : ℕ) (op : ω) :
    Except Exc (Parts (Node φ ω ν) ℤ) :=
  if p.getOpcode op = .call then
    match getInput p op 0 with
    | none => .error (noAttribute "getAddress")
    | some target =>
        if p.getFunctionAt target = some func then do
          let sources ← sourcesPcodeOps p func
          pure (analyzeFunctionCallSite p caller index op
            (getRelevantSources p func (p.seqTarget op) sources))
        else pure []
  else pure []

/-- `analyze_call_sites`. -/
def analyzeCallSites (func : φ) (index : ℕ) : Except Exc (Parts (Node φ ω ν) ℤ) := do
  let parts ← (p.getReferencesTo func).mapM fun reference =>
    match reference.callingFunc with
    | none => pure []
    | some caller =>
        if reference.isUnconditionalCall = true ∧ caller ≠ func then do
          let found ← (p.getPcodeOpsAt caller reference.fromAddress).mapM
            (analyzeCaller p func caller index)
          pure found.flatten
        else pure []
  pure parts.flatten

/-- The definition of a varnode. -/
def expandDef (n : Node φ ω ν) : Except Exc (Parts (Node φ ω ν) ℤ) :=
  match p.getDef n.varnode with
  | none => .ok []
  | some defOp =>
      let opcode := p.getOpcode defOp
      if opcode ∈ oneinput then .ok (n.at (getInput p defOp 0))
      else if opcode ∈ twoinputs then
        .ok (n.at (getInput p defOp 0) ++ n.at (getInput p defOp 1))
      else
        match opcode, getInput p defOp 0 with
        | .call, none => .error (noAttribute "getAddress")
        | .call, some target =>
            match p.getFunctionAt target with
            | none => .error (noAttribute "name")
            | some called =>
                if p.getName called ∈ ["open", "ftok", "msgget"] then
                  .ok ({ n with func := called, index := 1 }.at (getInput p defOp 1))
                else analyzeCalledFunction p called n.index
        | .multiequal, _ => .ok ((p.getInputs defOp).flatMap fun node => n.at (some node))
        | .indirect, none => .error (noAttribute "getAddress")
        | .indirect, some input =>
            .ok (if p.sameAddress (p.getOutput defOp) input then n.at (some input) else [])
        | .load, _ => .ok (n.at (getInput p defOp 1))
        | _, _ => .ok []

variable [DecidableEq σ]

/-- The first value of a variable that comes from a source function. -/
def firstSourceValue (fuel : ℕ) (n : Node φ ω ν) : List σ → Option (Except Exc (Option ν))
  | [] => some (.ok none)
  | var :: rest =>
      match findSourceValue (p.ghidra n.func) fuel var n.sources with
      | some (.ok none) => firstSourceValue fuel n rest
      | outcome => outcome

/-- `process_one_varnode` without its recursion: the values of a node, and the nodes that
come next. `fuel` bounds the casts that `find_source_value` looks through. -/
def expand (fuel : ℕ) (n : Node φ ω ν) : Option (Except Exc (Parts (Node φ ω ν) ℤ)) :=
  let varnode := n.varnode
  if p.isConstant varnode then some (.ok [.inl [p.getOffset varnode]])
  else if p.isAddress varnode then
    let addr := p.addressOffset varnode
    some (.ok [.inl [(p.dataAt addr).getD addr]])
  else
    match p.getSlot varnode with
    | some slot => some (analyzeCallSites p n.func (slot + 1))
    | none =>
        let vars := getVarsFromVarnode (p.ghidra n.func) varnode
        if vars = [] then some (expandDef p n)
        else
          match firstSourceValue p fuel n vars with
          | none => none
          | some (.error e) => some (.error e)
          | some (.ok (some value)) => some (.ok (n.at (some value)))
          | some (.ok none) =>
              let localVars := findLocalVars p n
              if localVars = [] then some (expandDef p n) else some (.ok (localVars.flatMap n.at))

/-- `process_one_varnode`. -/
def processOneVarnode (fuel depth : ℕ) (n : Node φ ω ν) (prev : List ℕ) :
    Outcome ℤ ℕ Exc :=
  visit (fun n => p.getUniqueId n.varnode) (expand p fuel) depth n prev

/-! ## What is found -/

end

/-! ## A loop -/

/-- The varnode 0 is a constant, 1, or what 2 holds, and 2 is a copy of 0. -/
def looping : Program Unit ℕ ℕ ℕ where
  ghidra _ := {
    addressSize := 32
    getAllVariables := []
    localSymbols := []
    globalSymbols := []
    minAddressOffset := fun _ => 0
    isParameter := fun _ => false
    storageOffset := fun _ => 0
    firstVarnodeOffset := fun _ => none
    addressOffset := fun _ => 0
    getDef := fun _ => none
    isCast := fun _ => false
    getInputs := fun _ => []
    getInput := fun _ _ => 0
    calledFunctionName := fun _ => "" }
  sinkFunctionNames := []
  sourceFunctionNames := []
  getName := fun _ => "main"
  getUniqueId := id
  isConstant := fun v => v == 1
  getOffset := fun _ => 42
  isAddress := fun _ => false
  addressOffset := fun _ => 0
  sameAddress := fun _ _ => false
  dataAt := fun _ => none
  getSlot := fun _ => none
  sameHigh := fun _ _ => false
  pcAddress := fun _ => 0
  getDef := some
  getOpcode := fun op => if op = 0 then .multiequal else .copy
  getInputs := fun op => if op = 0 then [1, 2] else [0]
  getOutput := id
  seqTarget := id
  getPcodeOps := fun _ => []
  getPcodeOpsAt := fun _ _ => []
  getFunctionAt := fun _ => none
  getReferencesTo := fun _ => []
  blocks := fun _ => []

/-- Their nodes. -/
def loopingNode (v : ℕ) : Node Unit ℕ ℕ := ⟨(), 0, v, []⟩

theorem expand_looping :
    expand looping 0 (loopingNode 0) =
        some (.ok [.inr (loopingNode 1), .inr (loopingNode 2)]) ∧
      expand looping 0 (loopingNode 1) = some (.ok [.inl [42]]) ∧
      expand looping 0 (loopingNode 2) = some (.ok [.inr (loopingNode 0)]) :=
  ⟨rfl, rfl, rfl⟩

theorem reachable_looping {n : Node Unit ℕ ℕ}
    (h : Reachable (expand looping 0) (loopingNode 0) n) :
    n = loopingNode 0 ∨ n = loopingNode 1 ∨ n = loopingNode 2 := by
  obtain ⟨h0, h1, h2⟩ := expand_looping
  induction h with
  | refl => exact .inl rfl
  | tail _ hnext ih =>
      obtain ⟨parts, hparts, hmem⟩ := hnext
      rcases ih with rfl | rfl | rfl
      · rw [h0] at hparts
        cases hparts
        simpa [nodes] using Or.inr hmem
      · rw [h1] at hparts
        cases hparts
        simp [nodes] at hmem
      · rw [h2] at hparts
        cases hparts
        exact .inl (by simpa [nodes] using hmem)

example : (processOneVarnode looping 0 4 (loopingNode 0) []).map (·.toOption) =
    some (some ([42], [0, 1, 2])) := by
  decide +kernel

-- two varnodes with one id: the second one is skipped
example : (processOneVarnode { looping with getUniqueId := (· % 2), isConstant := (0 < ·) } 0 4
    (loopingNode 0) []).map (·.toOption) = some (some ([42], [0, 1])) := by
  decide +kernel

end FactCore.BackwardSlice
