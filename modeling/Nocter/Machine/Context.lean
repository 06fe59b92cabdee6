import Nocter.Library.Loop
import Nocter.Machine.Body

/-!
# Ambient contexts of machine functions

The allocation and the process context reach a function through a hidden lane. Which
functions have the lane is a whole-program fixed point over calls, destructions, pack
callbacks and the cancellation of deferred bodies.
-/

namespace Nocter.Machine

/-- One ambient capability with a dedicated hidden lane. -/
inductive MachineContextKind where
  | allocation
  | process
deriving DecidableEq, Repr

/-- How a function obtains an ambient context. -/
inductive MachineContextRequirement where
  | none
  | incoming
  | programRoot
deriving DecidableEq, Repr

inductive MachineFunctionKind where
  | callable
  | processRoot
  | testRoot
deriving DecidableEq, Repr

inductive MachineCancellationAction where
  | releaseAwaited (value : MachineValueId)
  | destroy (address : MachineAddressId) (destruction : MachineFunctionId)
  | releaseRegion (stack : MachineStackId)
  | destroyPack
deriving DecidableEq, Repr

/-- The cancellation of a deferred body before its first poll and at every suspension, and the
destruction of its completed output. -/
structure MachineAsyncFrame where
  initial : List MachineCancellationAction
  states : List (List MachineCancellationAction)
  completedDestruction : Option MachineFunctionId
deriving DecidableEq, Repr

inductive MachineFunctionExecution where
  | immediate
  | deferred (frame : MachineAsyncFrame)
deriving DecidableEq, Repr

structure MachineFunction where
  kind : MachineFunctionKind
  execution : MachineFunctionExecution
  body : MachineBody
deriving DecidableEq, Repr

inductive MachineContextError where
  | unknownFunction (kind : MachineContextKind) (function : MachineFunctionId)
  | unknownPack (kind : MachineContextKind) (function : MachineFunctionId) (pack : MachinePackId)
deriving DecidableEq, Repr

abbrev ContextAttempt := Except MachineContextError

abbrev Requirements := List MachineContextRequirement

variable (kind : MachineContextKind)

def functionRequiresContext (requirements : Requirements) (function : MachineFunctionId) :
    ContextAttempt Bool :=
  (requirements[function]?).elim (.error (.unknownFunction kind function)) fun requirement =>
    .ok (requirement ≠ .none)

def primitiveUsesContext (contexts : PrimitiveContexts) : Bool :=
  match kind with
  | .allocation => contexts.allocation
  | .process => contexts.process

def targetRequiresContext (requirements : Requirements) :
    MachineCallTarget → ContextAttempt Bool
  | .direct function => functionRequiresContext kind requirements function
  | .primitive contexts => .ok (primitiveUsesContext kind contexts)
  | .imported => .ok false
  | .erased _ => .ok true

/-- Explicit and lexical allocation satisfy the allocation capability locally. -/
def passesIncoming (allocation : MachineCallAllocation) : Bool :=
  kind = .process || allocation = .inherit

def operationRequiresContext (requirements : Requirements) :
    MachineOperationKind → ContextAttempt Bool
  | .call call => do
      let target ← targetRequiresContext kind requirements call.target
      return target && passesIncoming kind call.allocation
  | .invokeDrop target _ allocation => do
      return (← functionRequiresContext kind requirements target) && passesIncoming kind allocation
  | _ => .ok false

/-- The functions a segment of a pack calls back, in the order they are consulted. -/
def segmentCallbacks : MachinePackSegment → List MachineFunctionId
  | .value _ destruction => destruction.toList
  | .keyedValue _ keyDestruction _ valueDestruction =>
      keyDestruction.toList ++ valueDestruction.toList
  | .spread spread => spread.next :: spread.destruction.toList

def packRequiresContext (requirements : Requirements) (pack : MachinePack) : ContextAttempt Bool :=
  (pack.segments.flatMap segmentCallbacks).anyM (functionRequiresContext kind requirements)

def destroyed : MachineCancellationAction → Option MachineFunctionId
  | .destroy _ destruction => some destruction
  | _ => none

def frameTargets (frame : MachineAsyncFrame) : List MachineFunctionId :=
  (frame.initial ++ frame.states.flatten).filterMap destroyed ++ frame.completedDestruction.toList

def asyncFrameRequiresContext (requirements : Requirements) (function : MachineFunction) :
    ContextAttempt Bool :=
  match function.execution with
  | .deferred frame => (frameTargets frame).anyM (functionRequiresContext kind requirements)
  | .immediate => .ok false

/-- The requirement of a function that needs the context. -/
def requirementOf : MachineFunctionKind → MachineContextRequirement
  | .processRoot => .programRoot
  | .testRoot => .programRoot
  | .callable => .incoming

variable (functions : List MachineFunction)

def markRequirement (requirements : Requirements) (function : MachineFunctionId) :
    ContextAttempt Requirements :=
  match requirements[function]? with
  | none => .error (.unknownFunction kind function)
  | some requirement =>
      if requirement ≠ .none then .ok requirements
      else
        match functions[function]? with
        | none => .error (.unknownFunction kind function)
        | some target => .ok (requirements.set function (requirementOf target.kind))

/-- One operation of a function marks the target of the pack it passes. -/
def propagateOperation (previous : Requirements) (functionId : MachineFunctionId)
    (function : MachineFunction) (requirements : Requirements) :
    MachineOperationKind → ContextAttempt Requirements
  | .call call =>
      match call.target with
      | .direct target =>
          match call.pack with
          | some (.prepared packId) =>
              match function.body.pack packId with
              | none => .error (.unknownPack kind functionId packId)
              | some pack => do
                  if ← packRequiresContext kind previous pack then
                    markRequirement kind functions requirements target
                  else return requirements
          | some .forwarded => do
              if ← functionRequiresContext kind previous functionId then
                markRequirement kind functions requirements target
              else return requirements
          | none => .ok requirements
      | _ => .ok requirements
  | _ => .ok requirements

def propagatePackCallbacks (previous requirements : Requirements) : ContextAttempt Requirements :=
  functions.zipIdx.foldlM (fun requirements (function, functionId) =>
    function.body.operations.foldlM (fun requirements operation =>
      propagateOperation kind functions previous functionId function requirements operation.kind)
      requirements) requirements

def bodyRequiresContext (previous : Requirements) (function : MachineFunction) :
    ContextAttempt Bool := do
  if ← asyncFrameRequiresContext kind previous function then return true
  else function.body.operations.anyM fun operation =>
    operationRequiresContext kind previous operation.kind

def propagateFunctionBodies (previous requirements : Requirements) : ContextAttempt Requirements :=
  functions.zipIdx.foldlM (fun requirements (function, functionId) => do
    if ← bodyRequiresContext kind previous function then
      markRequirement kind functions requirements functionId
    else return requirements) requirements

/-- The requirement a function starts with. -/
def initialRequirement (function : MachineFunction) : MachineContextRequirement :=
  match kind, function.kind, function.execution with
  | .allocation, .processRoot, _ => .programRoot
  | .allocation, .testRoot, _ => .programRoot
  | .allocation, .callable, .deferred _ => .incoming
  | .allocation, .callable, .immediate => .none
  | .process, _, _ => .none

def propagate (previous : Requirements) : ContextAttempt Requirements := do
  let requirements ← propagatePackCallbacks kind functions previous previous
  propagateFunctionBodies kind functions previous requirements

/-- One round of the loop, which ends when nothing changes or a reference is unknown. -/
def buildRound (previous : Requirements) : Requirements ⊕ ContextAttempt Requirements :=
  match propagate kind functions previous with
  | .error error => .inr (.error error)
  | .ok requirements => if requirements = previous then .inr (.ok requirements) else .inl requirements

/-- The plan of one context, within so many rounds. -/
def buildPlan (rounds : ℕ) : Option (ContextAttempt Requirements) :=
  Loop.attempt (fun previous => some (buildRound kind functions previous)) rounds
    (functions.map (initialRequirement kind))

/-- Whether the call uses the caller's own incoming lane. -/
def callRequiresIncoming (plan : Requirements) (call : MachineCall) : ContextAttempt Bool := do
  let required ← targetRequiresContext kind plan call.target
  return required && passesIncoming kind call.allocation

end Nocter.Machine
