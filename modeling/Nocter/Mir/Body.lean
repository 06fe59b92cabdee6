import Mathlib.Data.List.Basic
import Mathlib.Data.Nat.Notation

/-!
# MIR bodies

The storage, values and control flow of one function: tables of locals, drop flags, places, values,
operations and blocks, each under dense identities. An execution path enters the body and follows
the edges of the terminators.
-/

namespace Nocter.Mir

abbrev MirLocalId := ℕ
abbrev MirDropFlagId := ℕ
abbrev MirPlaceId := ℕ
abbrev MirValueId := ℕ
abbrev MirOperationId := ℕ
abbrev MirBlockId := ℕ
abbrev TypeId := ℕ
abbrev ExecutableItemId := ℕ

inductive MirLocalKind where
  | parameter (position : ℕ)
  | user
  | temporary
  | region
  deriving DecidableEq

structure MirLocal where
  ty : TypeId
  kind : MirLocalKind
  deriving DecidableEq

inductive MirPlaceRoot where
  | local (id : MirLocalId)
  | static
  | dereference (value : MirValueId)
  deriving DecidableEq

inductive MirProjectionKind where
  | field
  | tupleElement
  | closureCapture
  | variantPayload
  | borrowDereference
  | fixedIndex (index : ℕ)
  | dynamicIndex (index : MirValueId)
  | optionalPayload
  | packEntryKey
  | packEntryValue
  | fallibleSuccess
  | fallibleFailure
  | opaqueWitness
  deriving DecidableEq

structure MirPlace where
  root : MirPlaceRoot
  projections : List MirProjectionKind
  ty : TypeId
  deriving DecidableEq

inductive MirValueDefinition where
  | blockParameter (block : MirBlockId) (position : ℕ)
  | operation (operation : MirOperationId)
  deriving DecidableEq

structure MirValue where
  ty : TypeId
  definition : MirValueDefinition
  deriving DecidableEq

inductive MirAggregate where
  | struct (fields : List MirValueId)
  | enum (payload : List MirValueId)
  | fixedArray (elements : List MirValueId)
  | fixedArrayRepeat (value : MirValueId)
  | tuple (elements : List MirValueId)
  | optional (value : Option MirValueId)
  | fallibleSuccess (value : Option MirValueId)
  | fallibleFailure (value : MirValueId)
  | closure (captures : List MirValueId)
  | opaqueWitness (witness : MirValueId)
  deriving DecidableEq

inductive MirCallTarget where
  | direct
  | standardPrimitive
  | targetService
  | structural
  | erasedCallable (callable : MirPlaceId)
  deriving DecidableEq

/-- The allocation context during one call. -/
inductive MirCallAllocation where
  | inherit
  | region (region : MirLocalId)
  | explicit (place : MirPlaceId)
  deriving DecidableEq

structure MirPackSpread where
  iterator : MirPlaceId
  remaining : MirValueId
  receiver : MirValueId
  deriving DecidableEq

inductive MirPackSegment where
  | value (value : MirValueId)
  | keyedValue (key value : MirValueId)
  | spread (spread : MirPackSpread)
  deriving DecidableEq

structure MirPackArgument where
  length : MirValueId
  segments : List MirPackSegment
  deriving DecidableEq

inductive MirCallPack where
  | prepared (pack : MirPackArgument)
  | forwarded
  deriving DecidableEq

structure MirCall where
  target : MirCallTarget
  arguments : List MirValueId
  pack : Option MirCallPack
  allocation : MirCallAllocation
  deriving DecidableEq

inductive MirOperationKind where
  | constant
  | read (place : MirPlaceId)
  | borrow (place : MirPlaceId)
  | store (destination : MirPlaceId) (value : MirValueId)
  | initializePlace (destination : MirPlaceId) (value : MirValueId)
  | setDropFlag (flag : MirDropFlagId)
  | unary (operand : MirValueId)
  | binary (left right : MirValueId)
  | numericConversion (operand : MirValueId)
  | aggregate (aggregate : MirAggregate)
  | eraseCallable (environment : MirValueId)
  | call (call : MirCall)
  | packLength
  | packNext
  | destroyPack
  | invokeDrop (place : MirPlaceId) (allocation : MirCallAllocation)
  | reportError (place : MirPlaceId)
  | releaseError (place : MirPlaceId)
  | releaseComputation (place : MirPlaceId)
  | releaseErasedCallable (place : MirPlaceId)
  | driveComputation (computation : MirPlaceId) (destination : Option MirPlaceId)
  | createRegion (parent : MirValueId) (region : MirLocalId)
  | releaseRegion (region : MirLocalId)
  deriving DecidableEq

def MirOperationKind.producesValue : MirOperationKind → Bool
  | constant | read _ | borrow _ | unary _ | binary _ _ | numericConversion _ | aggregate _
  | eraseCallable _ | call _ | packLength | packNext => true
  | _ => false

structure MirOperation where
  kind : MirOperationKind
  result : Option MirValueId
  deriving DecidableEq

structure MirBranchTarget where
  block : MirBlockId
  arguments : List MirValueId
  deriving DecidableEq

inductive MirSwitchValue where
  | integer (value : Int)
  | variant (variant : ℕ)
  | optionalPresent
  | optionalAbsent
  | fallibleSuccess
  | fallibleFailure
  deriving DecidableEq

structure MirSwitchCase where
  value : MirSwitchValue
  target : MirBranchTarget
  deriving DecidableEq

inductive MirSwitchSubject where
  | value (value : MirValueId)
  | place (place : MirPlaceId)
  deriving DecidableEq

inductive MirTerminator where
  | goto (target : MirBranchTarget)
  | branch (condition : MirValueId) (thenTarget elseTarget : MirBranchTarget)
  | branchDropFlag (flag : MirDropFlagId) (initialized uninitialized : MirBranchTarget)
  | switch (subject : MirSwitchSubject) (cases : List MirSwitchCase) (fallback : MirBranchTarget)
  | suspend (computation : MirValueId) (resume : MirBranchTarget)
  | return (value : Option MirValueId)
  | exit (status : Option MirValueId)
  | trap
  | unreachable
  deriving DecidableEq

namespace MirTerminator

def successors : MirTerminator → List MirBranchTarget
  | goto target => [target]
  | branch _ thenTarget elseTarget => [thenTarget, elseTarget]
  | branchDropFlag _ initialized uninitialized => [initialized, uninitialized]
  | switch _ cases fallback => cases.map MirSwitchCase.target ++ [fallback]
  | suspend _ resume => [resume]
  | .return _ | exit _ | trap | unreachable => []

def isSuspend : MirTerminator → Bool
  | suspend _ _ => true
  | _ => false

def isReturn : MirTerminator → Bool
  | .return _ => true
  | _ => false

def isExit : MirTerminator → Bool
  | exit _ => true
  | _ => false

end MirTerminator

structure MirBlock where
  parameters : List MirValueId
  operations : List MirOperationId
  terminator : MirTerminator
  deriving DecidableEq

/-- The types of the elements and of the next result of the pack a body receives. -/
structure MirPackInput where
  element : TypeId
  next : TypeId
  deriving DecidableEq

structure MirBody where
  parameters : List MirLocalId
  pack : Option MirPackInput
  locals : List MirLocal
  dropFlags : List MirPlaceId
  places : List MirPlace
  values : List MirValue
  operations : List MirOperation
  blocks : List MirBlock
  entry : MirBlockId
  deriving DecidableEq

inductive MirFunctionExecution where
  | immediate
  | deferred (output : TypeId)
  deriving DecidableEq

/-- One complete callable body, with the result an invocation observes. -/
structure MirFunction where
  item : ExecutableItemId
  result : TypeId
  execution : MirFunctionExecution
  body : MirBody
  deriving DecidableEq

def MirFunction.bodyResult (function : MirFunction) : TypeId :=
  match function.execution with
  | .immediate => function.result
  | .deferred output => output

def placeValues (place : MirPlace) : List MirValueId :=
  (match place.root with
    | .local _ | .static => []
    | .dereference value => [value]) ++
  place.projections.filterMap fun
    | .dynamicIndex index => some index
    | _ => none

inductive MirValidationError where
  | unknownType (ty : TypeId)
  | unknownItem (item : ExecutableItemId)
  | unknownLocal (id : MirLocalId)
  | unknownDropFlag (flag : MirDropFlagId)
  | unknownPlace (place : MirPlaceId)
  | unknownValue (value : MirValueId)
  | unknownOperation (operation : MirOperationId)
  | unknownBlock (block : MirBlockId)
  | nonStorableLocal (id : MirLocalId)
  | duplicateParameter (parameter : MirLocalId)
  | invalidParameterKind (parameter : MirLocalId) (position : ℕ)
  | orphanParameter (parameter : MirLocalId)
  | invalidPackInput (item : ExecutableItemId)
  | invalidAsyncFrame (item : ExecutableItemId)
  | placeTypeMismatch (place : MirPlaceId)
  | dynamicDropFlag (flag : MirDropFlagId)
  | invalidValueDefinition (value : MirValueId)
  | duplicateOperation (operation : MirOperationId)
  | orphanOperation (operation : MirOperationId)
  | invalidOperationResult (operation : MirOperationId)
  | operationType (operation : MirOperationId)
  | entryHasParameters
  | edgeArity (block : MirBlockId) (expected actual : ℕ)
  | edgeType (block : MirBlockId) (position : ℕ)
  | unreachableBlock (block : MirBlockId)
  | valueDoesNotDominate (value : MirValueId) (block : MirBlockId)
  | nonBooleanBranch (block : MirBlockId)
  | duplicateSwitchCase (block : MirBlockId)
  | invalidSwitchSubject (block : MirBlockId)
  | invalidReturn (block : MirBlockId)
  | invalidRootTerminator (block : MirBlockId)
  | invalidPackExit (block : MirBlockId)
  | invalidRegionFlow (block : MirBlockId) (region : Option MirLocalId)
  deriving DecidableEq

abbrev Validation := Except MirValidationError

def orError {α : Type} (value : Option α) (error : MirValidationError) : Validation α :=
  match value with
  | some value => .ok value
  | none => .error error

@[simp] theorem orError_ok {α : Type} {value : Option α} {error : MirValidationError} {a : α} :
    orError value error = .ok a ↔ value = some a := by
  cases value with
  | none => exact ⟨fun h => (by cases h), fun h => (by cases h)⟩
  | some b => exact ⟨fun h => congrArg some (Except.ok.inj h), fun h => congrArg Except.ok (Option.some.inj h)⟩

section Paths

variable (body : MirBody)

/-- The operations of a block that its body knows, in order. -/
def blockOperations (block : MirBlock) : List MirOperation :=
  block.operations.filterMap fun id => body.operations[id]?

/-- Execution reaches the block after it has run the blocks of a list. -/
inductive Path : List MirBlockId → MirBlockId → Prop
  | entry : Path [] body.entry
  | step {visited : List MirBlockId} {id : MirBlockId} {block : MirBlock} {target : MirBranchTarget}
      (h : Path visited id) (hblock : body.blocks[id]? = some block)
      (htarget : target ∈ block.terminator.successors) : Path (visited ++ [id]) target.block

end Paths

end Nocter.Mir
