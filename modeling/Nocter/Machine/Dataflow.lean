import Mathlib.Data.Finset.Sort
import Mathlib.Data.Finset.Union
import Nocter.Library.Loop
import Nocter.Machine.Body

/-!
# Dataflow of a machine body

The dataflow authority of a closed body: the exact inputs of every operation, the uses and
definitions of every block, block liveness by a worklist over the control-flow graph, and
the values live after every operation.
-/

namespace Nocter.Machine

inductive MachineDataflowError where
  | unknownValue (value : MachineValueId)
  | invalidValueDefinition (value : MachineValueId)
  | duplicateValueDefinition (value : MachineValueId)
  | unknownOperation (operation : MachineOperationId)
  | duplicateOperation (operation : MachineOperationId)
  | unownedOperation (operation : MachineOperationId)
  | unknownAddress (address : MachineAddressId)
  | unknownPack (pack : MachinePackId)
  | unknownBlock (block : MachineBlockId)
  | branchArity (block : MachineBlockId)
  | branchType (block : MachineBlockId)
  | suspendArity (block : MachineBlockId)
  | inconsistentLiveness (block : MachineBlockId)
deriving DecidableEq, Repr

abbrev Attempt := Except MachineDataflowError

/-- Value dependencies and liveness immediately after one operation. -/
structure MachineOperationDataflow where
  inputs : Finset MachineValueId
  liveAfter : Finset MachineValueId
deriving DecidableEq

structure BlockFacts where
  uses : Finset MachineValueId
  definitions : Finset MachineValueId
  terminatorInputs : Finset MachineValueId
  successors : Finset MachineBlockId
  predecessors : Finset MachineBlockId
  liveIn : Finset MachineValueId
  liveOut : Finset MachineValueId
deriving DecidableEq

structure MachineFunctionDataflow where
  operations : List MachineOperationDataflow
  blocks : List BlockFacts
deriving DecidableEq

def orError {α : Type} (value : Option α) (error : MachineDataflowError) : Attempt α :=
  value.elim (.error error) .ok

variable (body : MachineBody)

def requireValue (value : MachineValueId) : Attempt TypeId := do
  return (← orError (body.value value) (.unknownValue value)).ty

def insertValue (value : MachineValueId) (inputs : Finset MachineValueId) :
    Attempt (Finset MachineValueId) := do
  let _ ← requireValue body value
  return insert value inputs

def addAddressStep (inputs : Finset MachineValueId) :
    MachineAddressStep → Attempt (Finset MachineValueId)
  | .offsetValue value => insertValue body value inputs
  | .index (.value value) => insertValue body value inputs
  | .offset _ => .ok inputs
  | .dereference => .ok inputs
  | .viewDereference => .ok inputs
  | .index (.constant _) => .ok inputs

def addAddressInputs (addressId : MachineAddressId) (inputs : Finset MachineValueId) :
    Attempt (Finset MachineValueId) := do
  let address ← orError (body.address addressId) (.unknownAddress addressId)
  let inputs ← match address.root with
    | .stack _ => pure inputs
    | .data => pure inputs
    | .pointer value => insertValue body value inputs
    | .view value => insertValue body value inputs
  address.steps.foldlM (addAddressStep body) inputs

def addPackSegment (inputs : Finset MachineValueId) :
    MachinePackSegment → Attempt (Finset MachineValueId)
  | .value value _ => insertValue body value inputs
  | .keyedValue key _ value _ => do insertValue body value (← insertValue body key inputs)
  | .spread spread => do
      insertValue body spread.remaining (← addAddressInputs body spread.iterator inputs)

def addPackInputs (packId : MachinePackId) (inputs : Finset MachineValueId) :
    Attempt (Finset MachineValueId) := do
  let pack ← orError (body.pack packId) (.unknownPack packId)
  let inputs ← insertValue body pack.length inputs
  pack.segments.foldlM (addPackSegment body) inputs

def addCallTarget (inputs : Finset MachineValueId) :
    MachineCallTarget → Attempt (Finset MachineValueId)
  | .erased callable => addAddressInputs body callable inputs
  | _ => .ok inputs

def addCallAllocation (inputs : Finset MachineValueId) :
    MachineCallAllocation → Attempt (Finset MachineValueId)
  | .explicit address => addAddressInputs body address inputs
  | _ => .ok inputs

def addCallPack (inputs : Finset MachineValueId) :
    Option MachineCallPack → Attempt (Finset MachineValueId)
  | some (.prepared pack) => addPackInputs body pack inputs
  | _ => .ok inputs

def addCallInputs (call : MachineCall) (inputs : Finset MachineValueId) :
    Attempt (Finset MachineValueId) := do
  let inputs ← addCallTarget body inputs call.target
  let inputs ← call.arguments.foldlM (fun inputs argument => insertValue body argument inputs) inputs
  let inputs ← addCallAllocation body inputs call.allocation
  addCallPack body inputs call.pack

def addAggregateWrite (inputs : Finset MachineValueId) :
    MachineAggregateWrite → Attempt (Finset MachineValueId)
  | .tag _ _ => .ok inputs
  | .value _ value => insertValue body value inputs
  | .repeatedValue _ _ _ value => insertValue body value inputs

def operationInputs : MachineOperationKind → Attempt (Finset MachineValueId)
  | .constant => .ok ∅
  | .releaseRegion => .ok ∅
  | .setDropFlag => .ok ∅
  | .packLength => .ok ∅
  | .packNext => .ok ∅
  | .destroyPack => .ok ∅
  | .load source => addAddressInputs body source ∅
  | .addressOf source => addAddressInputs body source ∅
  | .store destination value => do insertValue body value (← addAddressInputs body destination ∅)
  | .unary operand => insertValue body operand ∅
  | .numericConversion operand => insertValue body operand ∅
  | .borrowWeakening source => insertValue body source ∅
  | .binary left right => do insertValue body right (← insertValue body left ∅)
  | .comparison left right => do insertValue body right (← insertValue body left ∅)
  | .indexBorrow receiver index => do
      let inputs ← insertValue body receiver ∅
      match index with
      | .value value => insertValue body value inputs
      | .constant _ => return inputs
  | .aggregate writes => writes.foldlM (addAggregateWrite body) ∅
  | .eraseCallable environment => insertValue body environment ∅
  | .invokeDrop _ place _ => addAddressInputs body place ∅
  | .reportError place => addAddressInputs body place ∅
  | .releaseError place => addAddressInputs body place ∅
  | .releaseComputation place => addAddressInputs body place ∅
  | .releaseErasedCallable place => addAddressInputs body place ∅
  | .driveComputation computation destination => do
      let inputs ← addAddressInputs body computation ∅
      match destination with
      | some destination => addAddressInputs body destination inputs
      | none => return inputs
  | .createRegion parent => insertValue body parent ∅
  | .releaseMappedStorage pointer bytes => do
      insertValue body bytes (← insertValue body pointer ∅)
  | .call call => addCallInputs body call ∅

/-- The inputs and the successors of a terminator while its targets are collected. -/
abbrev TerminatorFlow := Finset MachineValueId × Finset MachineBlockId

def addArgument (target : MachineBlockId) (inputs : Finset MachineValueId)
    (pair : MachineValueId × MachineValueId) : Attempt (Finset MachineValueId) := do
  let argumentTy ← requireValue body pair.1
  let parameterTy ← requireValue body pair.2
  if argumentTy ≠ parameterTy then .error (.branchType target)
  else return insert pair.1 inputs

def addTarget (flow : TerminatorFlow) (target : MachineBranchTarget) : Attempt TerminatorFlow := do
  let block ← orError (body.block target.block) (.unknownBlock target.block)
  if block.parameters.length ≠ target.arguments.length then .error (.branchArity target.block)
  else
    let inputs ← (target.arguments.zip block.parameters).foldlM (addArgument body target.block)
      flow.1
    return (inputs, insert target.block flow.2)

def terminatorFlow : MachineTerminator → Attempt TerminatorFlow
  | .goto target => addTarget body (∅, ∅) target
  | .branch condition thenTarget elseTarget => do
      let inputs ← insertValue body condition ∅
      addTarget body (← addTarget body (inputs, ∅) thenTarget) elseTarget
  | .branchDropFlag initialized uninitialized => do
      addTarget body (← addTarget body (∅, ∅) initialized) uninitialized
  | .switchValue subject cases fallback => do
      let inputs ← insertValue body subject ∅
      addTarget body (← cases.foldlM (addTarget body) (inputs, ∅)) fallback
  | .switchTag subject cases fallback => do
      let inputs ← addAddressInputs body subject ∅
      addTarget body (← cases.foldlM (addTarget body) (inputs, ∅)) fallback
  | .suspend computation resume => do
      let inputs ← insertValue body computation ∅
      let block ← orError (body.block resume.block) (.unknownBlock resume.block)
      if resume.arguments ≠ [] ∨ block.parameters.length ≠ 1 then
        .error (.suspendArity resume.block)
      else return (inputs, {resume.block})
  | .return value => returned value
  | .exit value => returned value
  | .trap => .ok (∅, ∅)
  | .unreachable => .ok (∅, ∅)
where
  returned (value : Option MachineValueId) : Attempt TerminatorFlow :=
    match value with
    | some value => do return (← insertValue body value ∅, ∅)
    | none => .ok (∅, ∅)

def definesValue (valueId : MachineValueId) : MachineValueDefinition → Bool
  | .blockParameter block position =>
      ((body.block block).bind fun block => block.parameters[position]?) = some valueId
  | .operation operation =>
      ((body.operation operation).bind MachineOperation.result) = some valueId

def require (valid : Bool) (error : MachineDataflowError) : Attempt Unit :=
  if valid then .ok () else .error error

def validateValueDefinitions : Attempt Unit := do
  body.values.zipIdx.forM fun (value, valueId) =>
    require (definesValue body valueId value.definition) (.invalidValueDefinition valueId)
  body.blocks.zipIdx.forM fun (block, blockId) =>
    block.parameters.zipIdx.forM fun (valueId, position) =>
      require ((body.value valueId).map MachineValue.definition =
        some (.blockParameter blockId position)) (.invalidValueDefinition valueId)
  body.operations.zipIdx.forM fun (operation, operationId) =>
    match operation.result with
    | some valueId =>
        require ((body.value valueId).map MachineValue.definition = some (.operation operationId))
          (.invalidValueDefinition valueId)
    | none => .ok ()

/-- Claims one operation for a block; no operation has two owners. -/
def claimOperation (owners : List (Option MachineBlockId))
    (claim : MachineBlockId × MachineOperationId) : Attempt (List (Option MachineBlockId)) :=
  match owners[claim.2]? with
  | none => .error (.unknownOperation claim.2)
  | some (some _) => .error (.duplicateOperation claim.2)
  | some none => .ok (owners.set claim.2 (some claim.1))

/-- The operations of all blocks in order, each with its block. -/
def claims : List (MachineBlockId × MachineOperationId) :=
  body.blocks.zipIdx.flatMap fun (block, blockId) => block.operations.map fun o => (blockId, o)

def operationOwnership : Attempt (List MachineBlockId) := do
  let owners ← (claims body).foldlM claimOperation (List.replicate body.operations.length none)
  owners.zipIdx.mapM fun (owner, operation) => orError owner (.unownedOperation operation)

/-- The definitions and the uses found in a block so far. -/
abbrev BlockScan := Finset MachineValueId × Finset MachineValueId

def addUses (uses definitions inputs : Finset MachineValueId) : Finset MachineValueId :=
  uses ∪ inputs.filter fun input => input ∉ definitions

def scanOperation (operations : List MachineOperationDataflow) (ownership : List MachineBlockId)
    (blockId : MachineBlockId) (scan : BlockScan) (operationId : MachineOperationId) :
    Attempt BlockScan := do
  if ownership[operationId]? ≠ some blockId then .error (.unknownOperation operationId)
  else
    let flow ← orError operations[operationId]? (.unknownOperation operationId)
    let uses := addUses scan.2 scan.1 flow.inputs
    let operation ← orError (body.operation operationId) (.unknownOperation operationId)
    match operation.result with
    | some result =>
        let _ ← requireValue body result
        if result ∈ scan.1 then .error (.duplicateValueDefinition result)
        else return (insert result scan.1, uses)
    | none => return (scan.1, uses)

def blockFact (operations : List MachineOperationDataflow) (ownership : List MachineBlockId)
    (entry : MachineBlock × MachineBlockId) : Attempt BlockFacts := do
  let (block, blockId) := entry
  block.parameters.forM fun parameter => do
    let _ ← requireValue body parameter
  let (definitions, uses) ← block.operations.foldlM
    (scanOperation body operations ownership blockId) (block.parameters.toFinset, ∅)
  let (terminatorInputs, successors) ← terminatorFlow body block.terminator
  return {
    uses := addUses uses definitions terminatorInputs
    definitions, terminatorInputs, successors
    predecessors := ∅
    liveIn := ∅
    liveOut := ∅ }

def addPredecessor (facts : List BlockFacts) (edge : MachineBlockId × MachineBlockId) :
    Attempt (List BlockFacts) := do
  let fact ← orError facts[edge.2]? (.unknownBlock edge.2)
  return facts.set edge.2 { fact with predecessors := insert edge.1 fact.predecessors }

/-- The edges of the graph, by predecessor and then by successor. -/
def edges (facts : List BlockFacts) : List (MachineBlockId × MachineBlockId) :=
  facts.zipIdx.flatMap fun (fact, predecessor) =>
    (fact.successors.sort (· ≤ ·)).map fun successor => (predecessor, successor)

def blockFacts (operations : List MachineOperationDataflow) (ownership : List MachineBlockId) :
    Attempt (List BlockFacts) := do
  let _ ← orError (body.block body.entry) (.unknownBlock body.entry)
  let facts ← body.blocks.zipIdx.mapM (blockFact body operations ownership)
  (edges facts).foldlM addPredecessor facts

structure LivenessSolver where
  facts : List BlockFacts
  pending : Finset MachineBlockId

def successorsLive (facts : List BlockFacts) (fact : BlockFacts) : Finset MachineValueId :=
  fact.successors.biUnion fun successor => (facts[successor]?).elim ∅ BlockFacts.liveIn

/-- Recomputes one block. There is no result when a block identity has no facts. -/
def solveBlock (facts : List BlockFacts) (pending : Finset MachineBlockId)
    (block : MachineBlockId) : Option LivenessSolver := do
  let fact ← facts[block]?
  if ∀ successor ∈ fact.successors, successor < facts.length then
    let liveOut := successorsLive facts fact
    let liveIn := fact.uses ∪ liveOut.filter fun value => value ∉ fact.definitions
    let pending := if liveIn ≠ fact.liveIn then pending ∪ fact.predecessors else pending
    some ⟨facts.set block { fact with liveIn, liveOut }, pending⟩
  else none

/-- One pass of the worklist loop: the last pending block is visited. -/
def solveStep (solver : LivenessSolver) : Option (LivenessSolver ⊕ List BlockFacts) :=
  if h : solver.pending.Nonempty then
    let block := solver.pending.max' h
    (solveBlock solver.facts (solver.pending.erase block) block).map .inl
  else some (.inr solver.facts)

/-- The worklist loop, for at most so many passes. -/
def solveLiveness (passes : ℕ) (facts : List BlockFacts) : Option (List BlockFacts) :=
  Loop.attempt solveStep passes ⟨facts, Finset.range facts.length⟩

/-- The values live before an operation, and the operation's values live after it. -/
def completeOperation (state : Finset MachineValueId × List MachineOperationDataflow)
    (operationId : MachineOperationId) :
    Attempt (Finset MachineValueId × List MachineOperationDataflow) := do
  let (live, operations) := state
  let operation ← orError (body.operation operationId) (.unknownOperation operationId)
  let flow ← orError operations[operationId]? (.unknownOperation operationId)
  let operations := operations.set operationId { flow with liveAfter := live }
  let live := match operation.result with
    | some result => live.erase result
    | none => live
  return (live ∪ flow.inputs, operations)

def completeBlock (facts : List BlockFacts) (operations : List MachineOperationDataflow)
    (entry : MachineBlock × MachineBlockId) : Attempt (List MachineOperationDataflow) := do
  let (block, blockId) := entry
  let fact ← orError facts[blockId]? (.unknownBlock blockId)
  let (live, operations) ← block.operations.reverse.foldlM (completeOperation body)
    (fact.liveOut ∪ fact.terminatorInputs, operations)
  let live := block.parameters.foldl Finset.erase live
  if live ≠ fact.liveIn then .error (.inconsistentLiveness blockId)
  else return operations

def completeOperationLiveness (facts : List BlockFacts)
    (operations : List MachineOperationDataflow) : Attempt (List MachineOperationDataflow) :=
  body.blocks.zipIdx.foldlM (completeBlock body facts) operations

/-- The facts of all blocks before liveness is solved. -/
def collect : Attempt (List MachineOperationDataflow × List BlockFacts) := do
  validateValueDefinitions body
  let operations ← body.operations.mapM fun operation => do
    return (⟨← operationInputs body operation.kind, ∅⟩ : MachineOperationDataflow)
  let ownership ← operationOwnership body
  return (operations, ← blockFacts body operations ownership)

/-- The dataflow of a body, when the worklist makes at most so many passes. -/
def build (passes : ℕ) : Option (Attempt MachineFunctionDataflow) :=
  match collect body with
  | .error error => some (.error error)
  | .ok (operations, facts) =>
      (solveLiveness passes facts).map fun facts => do
        return ⟨← completeOperationLiveness body facts operations, facts⟩

end Nocter.Machine
