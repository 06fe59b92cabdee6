import Mathlib.Data.Nat.Notation

/-!
# Machine bodies

The target-independent form of one function: tables of values, addresses, packs,
operations and blocks, each under dense identities.
-/

namespace Nocter.Machine

abbrev MachineFunctionId := ℕ
abbrev MachineBlockId := ℕ
abbrev MachineValueId := ℕ
abbrev MachineStackId := ℕ
abbrev MachineAddressId := ℕ
abbrev MachinePackId := ℕ
abbrev MachineOperationId := ℕ
abbrev TypeId := ℕ

inductive MachineValueDefinition where
  | blockParameter (block : MachineBlockId) (position : ℕ)
  | operation (operation : MachineOperationId)
deriving DecidableEq, Repr

structure MachineValue where
  ty : TypeId
  definition : MachineValueDefinition
deriving DecidableEq, Repr

inductive MachineAddressRoot where
  | stack (stack : MachineStackId)
  | data
  | pointer (value : MachineValueId)
  | view (value : MachineValueId)
deriving DecidableEq, Repr

inductive MachineIndex where
  | constant (index : ℕ)
  | value (value : MachineValueId)
deriving DecidableEq, Repr

inductive MachineAddressStep where
  | offset (offset : ℕ)
  | offsetValue (value : MachineValueId)
  | dereference
  | viewDereference
  | index (index : MachineIndex)
deriving DecidableEq, Repr

structure MachineAddress where
  root : MachineAddressRoot
  steps : List MachineAddressStep
deriving DecidableEq, Repr

inductive MachineAggregateWrite where
  | tag (offset value : ℕ)
  | value (offset : ℕ) (value : MachineValueId)
  | repeatedValue (offset stride count : ℕ) (value : MachineValueId)
deriving DecidableEq, Repr

/-- The ambient contexts a primitive of the runtime reads. -/
structure PrimitiveContexts where
  allocation : Bool
  process : Bool
deriving DecidableEq, Repr

inductive MachineCallTarget where
  | direct (function : MachineFunctionId)
  | primitive (contexts : PrimitiveContexts)
  | imported
  | erased (callable : MachineAddressId)
deriving DecidableEq, Repr

/-- The allocation context during one call. -/
inductive MachineCallAllocation where
  | inherit
  | lexical (stack : MachineStackId)
  | explicit (address : MachineAddressId)
deriving DecidableEq, Repr

inductive MachineCallPack where
  | prepared (pack : MachinePackId)
  | forwarded
deriving DecidableEq, Repr

structure MachineCall where
  target : MachineCallTarget
  arguments : List MachineValueId
  allocation : MachineCallAllocation
  pack : Option MachineCallPack
deriving DecidableEq, Repr

structure MachinePackSpread where
  iterator : MachineAddressId
  remaining : MachineValueId
  next : MachineFunctionId
  destruction : Option MachineFunctionId
deriving DecidableEq, Repr

inductive MachinePackSegment where
  | value (value : MachineValueId) (destruction : Option MachineFunctionId)
  | keyedValue (key : MachineValueId) (keyDestruction : Option MachineFunctionId)
      (value : MachineValueId) (valueDestruction : Option MachineFunctionId)
  | spread (spread : MachinePackSpread)
deriving DecidableEq, Repr

structure MachinePack where
  length : MachineValueId
  segments : List MachinePackSegment
deriving DecidableEq, Repr

inductive MachineOperationKind where
  | constant
  | load (source : MachineAddressId)
  | addressOf (source : MachineAddressId)
  | store (destination : MachineAddressId) (value : MachineValueId)
  | unary (operand : MachineValueId)
  | binary (left right : MachineValueId)
  | numericConversion (operand : MachineValueId)
  | comparison (left right : MachineValueId)
  | indexBorrow (receiver : MachineValueId) (index : MachineIndex)
  | borrowWeakening (source : MachineValueId)
  | aggregate (writes : List MachineAggregateWrite)
  | eraseCallable (environment : MachineValueId)
  | invokeDrop (target : MachineFunctionId) (place : MachineAddressId)
      (allocation : MachineCallAllocation)
  | reportError (place : MachineAddressId)
  | releaseError (place : MachineAddressId)
  | releaseComputation (place : MachineAddressId)
  | releaseErasedCallable (place : MachineAddressId)
  | releaseMappedStorage (pointer bytes : MachineValueId)
  | driveComputation (computation : MachineAddressId) (destination : Option MachineAddressId)
  | createRegion (parent : MachineValueId)
  | releaseRegion
  | setDropFlag
  | call (call : MachineCall)
  | packLength
  | packNext
  | destroyPack
deriving DecidableEq, Repr

structure MachineOperation where
  kind : MachineOperationKind
  result : Option MachineValueId
deriving DecidableEq, Repr

structure MachineBranchTarget where
  block : MachineBlockId
  arguments : List MachineValueId
deriving DecidableEq, Repr

inductive MachineTerminator where
  | goto (target : MachineBranchTarget)
  | branch (condition : MachineValueId) (thenTarget elseTarget : MachineBranchTarget)
  | branchDropFlag (initialized uninitialized : MachineBranchTarget)
  | switchValue (subject : MachineValueId) (cases : List MachineBranchTarget)
      (fallback : MachineBranchTarget)
  | switchTag (subject : MachineAddressId) (cases : List MachineBranchTarget)
      (fallback : MachineBranchTarget)
  | suspend (computation : MachineValueId) (resume : MachineBranchTarget)
  | return (value : Option MachineValueId)
  | exit (value : Option MachineValueId)
  | trap
  | unreachable
deriving DecidableEq, Repr

structure MachineBlock where
  parameters : List MachineValueId
  operations : List MachineOperationId
  terminator : MachineTerminator
deriving DecidableEq, Repr

structure MachineBody where
  addresses : List MachineAddress
  values : List MachineValue
  operations : List MachineOperation
  packs : List MachinePack
  blocks : List MachineBlock
  entry : MachineBlockId
deriving DecidableEq, Repr

namespace MachineBody

variable (body : MachineBody)

def address (id : MachineAddressId) : Option MachineAddress := body.addresses[id]?

def value (id : MachineValueId) : Option MachineValue := body.values[id]?

def operation (id : MachineOperationId) : Option MachineOperation := body.operations[id]?

def pack (id : MachinePackId) : Option MachinePack := body.packs[id]?

def block (id : MachineBlockId) : Option MachineBlock := body.blocks[id]?

end MachineBody

end Nocter.Machine
