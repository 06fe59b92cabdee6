import Nocter.Library.Dominance
import Nocter.Mir.RegionFlow

/-!
# Validation of MIR functions

A function is accepted when its definitions, edges and uses fit together: every use stands behind
its definition in the same block or in a block whose definitions dominate the block of the use. On
every execution path each value is then defined before it is used.
-/

namespace Nocter.Mir

/-- The types and the program around a body. The relations of types that no path depends on are
functions of the identities they check. -/
structure MirValidationEnvironment where
  containsItem : ExecutableItemId → Bool
  containsType : TypeId → Bool
  isNonStorable : TypeId → Bool
  isVoid : TypeId → Bool
  optionalPayload : TypeId → Option TypeId
  futureOutput : TypeId → Option TypeId
  bool : TypeId
  itemPackInput : ExecutableItemId → Option MirPackInput
  validateAsyncFunction : MirFunction → Validation Unit
  validatePlace : MirBody → MirPlaceId → Validation Unit
  validateOperation : MirBody → MirOperationId → Option TypeId → Validation Unit
  validateSwitchSubject :
    MirBody → MirBlockId → MirSwitchSubject → List MirSwitchCase → Validation Unit

def check (valid : Bool) (error : MirValidationError) : Validation Unit :=
  if valid then .ok () else .error error

variable (environment : MirValidationEnvironment) (passes : ℕ) (function : MirFunction)
  (body : MirBody)

section Declarations

def requireType (ty : TypeId) : Validation Unit := check (environment.containsType ty) (.unknownType ty)

def requireBlock (block : MirBlockId) : Validation MirBlock :=
  orError body.blocks[block]? (.unknownBlock block)

def requireOperation (operation : MirOperationId) : Validation MirOperation :=
  orError body.operations[operation]? (.unknownOperation operation)

def requirePlace (place : MirPlaceId) : Validation MirPlace :=
  orError body.places[place]? (.unknownPlace place)

def requireValue (value : MirValueId) : Validation MirValue :=
  orError body.values[value]? (.unknownValue value)

def valueType (value : MirValueId) : Validation TypeId := do
  return (← requireValue body value).ty

def validatePackInput : Validation Unit := do
  let invalid := MirValidationError.invalidPackInput function.item
  match function.body.pack with
  | none => check ((environment.itemPackInput function.item).isNone) invalid
  | some pack => do
    requireType environment pack.element
    requireType environment pack.next
    check (environment.optionalPayload pack.next = some pack.element) invalid
    check (environment.itemPackInput function.item = some pack) invalid

def validateParameter (seen : Finset MirLocalId) (entry : MirLocalId × ℕ) :
    Validation (Finset MirLocalId) := do
  check (entry.1 ∉ seen) (.duplicateParameter entry.1)
  let parameter ← orError body.locals[entry.1]? (.unknownLocal entry.1)
  check (parameter.kind = .parameter entry.2) (.invalidParameterKind entry.1 entry.2)
  return insert entry.1 seen

def validateParameters : Validation Unit := do
  let _ ← body.parameters.zipIdx.foldlM (validateParameter body) ∅
  body.locals.zipIdx.forM fun entry =>
    match entry.1.kind with
    | .parameter position => check (body.parameters[position]? = some entry.2) (.orphanParameter entry.2)
    | _ => .ok ()

def validateStorage : Validation Unit := do
  body.locals.zipIdx.forM fun entry => do
    requireType environment entry.1.ty
    check (!environment.isNonStorable entry.1.ty) (.nonStorableLocal entry.2)
  body.places.zipIdx.forM fun entry => environment.validatePlace body entry.2
  body.dropFlags.zipIdx.forM fun entry => do
    let place ← requirePlace body entry.1
    check (placeValues place).isEmpty (.dynamicDropFlag entry.2)

def validateValueDefinition (entry : MirValue × MirValueId) : Validation Unit := do
  requireType environment entry.1.ty
  match entry.1.definition with
  | .blockParameter block position => do
    let found ← requireBlock body block
    check (found.parameters[position]? = some entry.2) (.invalidValueDefinition entry.2)
  | .operation operation => do
    let found ← requireOperation body operation
    check (found.result = some entry.2) (.invalidValueDefinition entry.2)

abbrev Locations := FiniteMap MirOperationId (MirBlockId × ℕ)

def locateOperation (block : MirBlockId) (locations : Locations) (entry : MirOperationId × ℕ) :
    Validation Locations := do
  let _ ← requireOperation body entry.1
  check (locations.get? entry.1).isNone (.duplicateOperation entry.1)
  return locations.insert entry.1 (block, entry.2)

def validateOperationMembership : Validation Locations := do
  let locations ← body.blocks.zipIdx.foldlM (fun locations entry =>
    entry.1.operations.zipIdx.foldlM (locateOperation body entry.2) locations) FiniteMap.empty
  (List.range body.operations.length).forM fun operation =>
    check (locations.get? operation).isSome (.orphanOperation operation)
  return locations

/-- The operations of the block that destroy the pack. -/
def destroys (block : MirBlock) : List MirOperationId :=
  block.operations.filter fun id => (body.operations[id]?).any fun found => found.kind = .destroyPack

def validatePackExit (entry : MirBlock × MirBlockId) : Validation Unit := do
  let found := destroys body entry.1
  check (found.isEmpty || entry.1.terminator.isReturn && found.length = 1 &&
    entry.1.operations.getLast? = found.head?) (.invalidPackExit entry.2)
  check (body.pack.isNone || !entry.1.terminator.isReturn || found.length = 1)
    (.invalidPackExit entry.2)

end Declarations

section Edges

abbrev Predecessors := FiniteMap MirBlockId (Finset MirBlockId)

def validateResumeEdge (edge : MirBranchTarget) : Validation Unit := do
  let destination ← requireBlock body edge.block
  check (edge.arguments.isEmpty && destination.parameters.length = 1)
    (.edgeArity edge.block 1 edge.arguments.length)

def validateEdge (edge : MirBranchTarget) : Validation Unit := do
  let destination ← requireBlock body edge.block
  check (edge.arguments.length = destination.parameters.length)
    (.edgeArity edge.block destination.parameters.length edge.arguments.length)
  (edge.arguments.zip destination.parameters).zipIdx.forM fun entry => do
    let argument ← valueType body entry.1.1
    let parameter ← valueType body entry.1.2
    check (argument = parameter) (.edgeType edge.block entry.2)

def edgeCheck (suspends : Bool) (target : MirBranchTarget) : Validation Unit :=
  if suspends then validateResumeEdge body target else validateEdge body target

/-- A validated successor is a block of the body, so that its predecessors are recorded. -/
def recordEdge (source : MirBlockId) (suspends : Bool) (predecessors : Predecessors)
    (target : MirBranchTarget) : Validation Predecessors := do
  edgeCheck body suspends target
  return predecessors.insert target.block
    (insert source ((predecessors.get? target.block).getD ∅))

def recordEdges (predecessors : Predecessors) (entry : MirBlock × MirBlockId) :
    Validation Predecessors :=
  entry.1.terminator.successors.foldlM (recordEdge body entry.2 entry.1.terminator.isSuspend)
    predecessors

structure ReachableSearch where
  reachable : Finset MirBlockId
  pending : List MirBlockId

def reachableStep (search : ReachableSearch) :
    ReachableSearch ⊕ Validation (Finset MirBlockId) :=
  match search.pending with
  | [] => .inr (.ok search.reachable)
  | id :: rest =>
    if id ∈ search.reachable then .inl ⟨search.reachable, rest⟩
    else match requireBlock body id with
      | .error error => .inr (.error error)
      | .ok block => .inl ⟨insert id search.reachable,
          (block.terminator.successors.map MirBranchTarget.block).reverse ++ rest⟩

def blockIds : List MirBlockId := List.range body.blocks.length

def validateEdgesAndReachability : Option (Validation Predecessors) :=
  let edges : Validation Predecessors := do
    let entry ← requireBlock body body.entry
    check entry.parameters.isEmpty .entryHasParameters
    body.blocks.zipIdx.foldlM (recordEdges body)
      (FiniteMap.ofKeys (blockIds body).toFinset fun _ => some ∅)
  match edges with
  | .error error => some (.error error)
  | .ok predecessors =>
    (Loop.within (reachableStep body) passes ⟨∅, [body.entry]⟩).map fun search => do
      let reachable ← search
      (blockIds body).forM fun block => check (block ∈ reachable) (.unreachableBlock block)
      return predecessors

end Edges

section Dominators

abbrev Dominators := FiniteMap MirBlockId (Finset MirBlockId)

variable (entry : MirBlockId) (predecessors : Predecessors)

/-- The common dominators of some blocks, of which there must be one. -/
def meetDominators (dominators : Dominators) : List MirBlockId → Option (Finset MirBlockId)
  | [] => none
  | first :: rest => do
    let next ← dominators.get? first
    rest.foldlM (fun next predecessor => do
      let others ← dominators.get? predecessor
      return {candidate ∈ next | candidate ∈ others}) next

def refineBlock (state : Dominators × Bool) (block : MirBlockId) : Option (Dominators × Bool) :=
  if block = entry then some state
  else do
    let incoming ← predecessors.get? block
    let next ← meetDominators state.1 (incoming.sort (· ≤ ·))
    let next := insert block next
    let current ← state.1.get? block
    return if next = current then state else (state.1.insert block next, true)

def dominatorRound (dominators : Dominators) : Option (Dominators ⊕ Dominators) := do
  let state ← (predecessors.keys.sort (· ≤ ·)).foldlM (refineBlock entry predecessors)
    (dominators, false)
  return if state.2 then .inl state.1 else .inr state.1

def initialDominators : Dominators :=
  FiniteMap.ofKeys predecessors.keys fun block =>
    some (if block = entry then {block} else predecessors.keys)

/-- There is no result where a block other than the entry has no predecessor. -/
def computeDominators : Option Dominators :=
  Loop.attempt (dominatorRound entry predecessors) passes (initialDominators entry predecessors)

end Dominators

section Uses

def aggregateValues : MirAggregate → List MirValueId
  | .struct fields => fields
  | .enum payload => payload
  | .fixedArray elements => elements
  | .fixedArrayRepeat value => [value]
  | .tuple elements => elements
  | .optional value => value.toList
  | .fallibleSuccess value => value.toList
  | .fallibleFailure value => [value]
  | .closure captures => captures
  | .opaqueWitness witness => [witness]

def valuesOfPlace (place : MirPlaceId) : Validation (List MirValueId) := do
  return placeValues (← requirePlace body place)

def subjectValues : MirSwitchSubject → Validation (List MirValueId)
  | .value value => return [value]
  | .place place => valuesOfPlace body place

def segmentValues : MirPackSegment → Validation (List MirValueId)
  | .value value => return [value]
  | .keyedValue key value => return [key, value]
  | .spread spread => do
    return [spread.remaining, spread.receiver] ++ (← valuesOfPlace body spread.iterator)

def callValues (call : MirCall) : Validation (List MirValueId) := do
  let callable ← match call.target with
    | .erasedCallable callable => valuesOfPlace body callable
    | _ => pure []
  let allocation ← match call.allocation with
    | .explicit place => valuesOfPlace body place
    | _ => pure []
  let pack ← match call.pack with
    | some (.prepared pack) => do
      let segments ← pack.segments.mapM (segmentValues body)
      pure (pack.length :: segments.flatten)
    | _ => pure []
  return call.arguments ++ callable ++ allocation ++ pack

def operationValues (operation : MirOperation) : Validation (List MirValueId) :=
  match operation.kind with
  | .constant | .setDropFlag _ | .packLength | .packNext | .destroyPack | .releaseRegion _ => return []
  | .createRegion parent _ => return [parent]
  | .read place | .borrow place | .invokeDrop place _ | .reportError place | .releaseError place
  | .releaseComputation place | .releaseErasedCallable place => valuesOfPlace body place
  | .driveComputation computation destination => do
    let computed ← valuesOfPlace body computation
    let stored ← match destination with
      | some destination => valuesOfPlace body destination
      | none => pure []
    return computed ++ stored
  | .store destination value | .initializePlace destination value => do
    return (← valuesOfPlace body destination) ++ [value]
  | .unary operand | .numericConversion operand => return [operand]
  | .binary left right => return [left, right]
  | .aggregate aggregate => return aggregateValues aggregate
  | .eraseCallable captured => return [captured]
  | .call call => callValues body call

variable (locations : Locations) (dominators : Dominators)

def validateUse (useBlock : MirBlockId) (usePosition : ℕ) (value : MirValueId) : Validation Unit := do
  let data ← requireValue body value
  let (definitionBlock, definitionPosition) ← (match data.definition with
    | .blockParameter block _ => pure (block, none)
    | .operation operation => do
      let location ← orError (locations.get? operation) (.invalidValueDefinition value)
      pure (location.1, some location.2) : Validation (MirBlockId × Option ℕ))
  check
    (if definitionBlock = useBlock then definitionPosition.all fun position => position < usePosition
      else definitionBlock ∈ (dominators.get? useBlock).getD ∅)
    (.valueDoesNotDominate value useBlock)

def resultType (operation : MirOperation) : Validation (Option TypeId) :=
  match operation.result with
  | some value => do return some (← valueType body value)
  | none => return none

/-- Every operation has a location, as the membership of operations has shown. -/
def validateOperationUses (entry : MirOperation × MirOperationId) : Validation Unit := do
  let location ← orError (locations.get? entry.2) (.orphanOperation entry.2)
  check (entry.1.kind.producesValue = entry.1.result.isSome) (.invalidOperationResult entry.2)
  let result ← resultType body entry.1
  environment.validateOperation body entry.2 result
  let values ← operationValues body entry.1
  values.forM (validateUse body locations dominators location.1 location.2)

def validateSuspendTerminator (block : MirBlockId) (computation : MirValueId)
    (resume : MirBranchTarget) : Validation (List MirValueId) := do
  check (function.execution ≠ .immediate) (.invalidRootTerminator block)
  let ty ← valueType function.body computation
  let output ← orError (environment.futureOutput ty) (.invalidReturn block)
  let destination ← requireBlock function.body resume.block
  check (destination.parameters.head?.any fun value =>
    (valueType function.body value).toOption = some output) (.invalidReturn block)
  return [computation]

/-- The values that the terminator of a block uses, after the checks of their types. -/
def validateTerminator (block : MirBlockId) : MirTerminator → Validation (List MirValueId)
  | .goto target => return target.arguments
  | .branch condition thenTarget elseTarget => do
    let ty ← valueType function.body condition
    check (ty = environment.bool) (.nonBooleanBranch block)
    return condition :: (thenTarget.arguments ++ elseTarget.arguments)
  | .branchDropFlag flag initialized uninitialized => do
    let _ ← orError function.body.dropFlags[flag]? (.unknownDropFlag flag)
    return initialized.arguments ++ uninitialized.arguments
  | .switch subject cases fallback => do
    environment.validateSwitchSubject function.body block subject cases
    let inspected ← subjectValues function.body subject
    check (cases.map MirSwitchCase.value).Nodup (.duplicateSwitchCase block)
    return inspected ++ cases.flatMap (fun entry => entry.target.arguments) ++ fallback.arguments
  | .suspend computation resume => validateSuspendTerminator environment function block computation resume
  | .return none => do
    check (environment.isVoid function.bodyResult) (.invalidReturn block)
    return []
  | .return (some value) => do
    let ty ← valueType function.body value
    check (ty = function.bodyResult) (.invalidReturn block)
    return [value]
  | .exit _ => .error (.invalidReturn block)
  | .trap | .unreachable => return []

def validateTerminatorUses (entry : MirBlock × MirBlockId) : Validation Unit := do
  let values ← validateTerminator environment function entry.2 entry.1.terminator
  values.forM (validateUse function.body locations dominators entry.2 entry.1.operations.length)

end Uses

section Function

def validateDeclarations : Validation Locations := do
  environment.validateAsyncFunction function
  check (environment.containsItem function.item) (.unknownItem function.item)
  requireType environment function.bodyResult
  validatePackInput environment function
  validateParameters function.body
  validateStorage environment function.body
  function.body.values.zipIdx.forM (validateValueDefinition environment function.body)
  let locations ← validateOperationMembership function.body
  function.body.blocks.zipIdx.forM (validatePackExit function.body)
  return locations

def validateUses (locations : Locations) (dominators : Dominators) : Validation Unit := do
  function.body.operations.zipIdx.forM
    (validateOperationUses environment function.body locations dominators)
  function.body.blocks.zipIdx.forM (validateTerminatorUses environment function locations dominators)

/-- The passes bound each of the loops. -/
def validateFunction : Option (Validation Unit) :=
  match validateDeclarations environment function with
  | .error error => some (.error error)
  | .ok locations =>
    (validateEdgesAndReachability passes function.body).bind fun
    | .error error => some (.error error)
    | .ok predecessors =>
      (computeDominators passes function.body.entry predecessors).bind fun dominators =>
        match validateUses environment function locations dominators with
        | .error error => some (.error error)
        | .ok () => validateRegionFlow function.body passes

end Function

section Paths

/-- What the blocks of a path contribute, in the order of the path. -/
def along {α : Type} (visited : List MirBlockId) (f : MirBlock → List α) : List α :=
  visited.flatMap fun id => (body.blocks[id]?).elim [] f

def operationResults (operations : List MirOperationId) : List MirValueId :=
  operations.filterMap fun id => (body.operations[id]?).bind MirOperation.result

def blockDefinitions (block : MirBlock) : List MirValueId :=
  block.parameters ++ operationResults body block.operations

/-- The values defined when execution has run some blocks and so many operations of the next. -/
def definedBefore (visited : List MirBlockId) (block : MirBlock) (position : ℕ) : List MirValueId :=
  along body visited (blockDefinitions body) ++ block.parameters ++
    operationResults body (block.operations.take position)

def terminatorValues : MirTerminator → Validation (List MirValueId)
  | .goto target => return target.arguments
  | .branch condition thenTarget elseTarget =>
    return condition :: (thenTarget.arguments ++ elseTarget.arguments)
  | .branchDropFlag _ initialized uninitialized =>
    return initialized.arguments ++ uninitialized.arguments
  | .switch subject cases fallback => do
    let inspected ← subjectValues body subject
    return inspected ++ cases.flatMap (fun entry => entry.target.arguments) ++ fallback.arguments
  | .suspend computation resume => return computation :: resume.arguments
  | .return value | .exit value => return value.toList
  | .trap | .unreachable => return []

/-- The resumed block has one parameter, of the type of the computation's output. -/
def Resumes (computation : MirValueId) (resume : MirBranchTarget) (destination : MirBlock) : Prop :=
  resume.arguments = [] ∧ ∃ parameter ty output, destination.parameters = [parameter] ∧
    valueType body computation = .ok ty ∧ environment.futureOutput ty = some output ∧
    valueType body parameter = .ok output

/-- The edge passes an argument of the same type for each parameter. -/
def Passes (target : MirBranchTarget) (destination : MirBlock) : Prop :=
  List.Forall₂ (fun argument parameter => ∃ ty, valueType body argument = .ok ty ∧
    valueType body parameter = .ok ty) target.arguments destination.parameters

/-- What every execution path of an accepted body respects. -/
structure SoundBody : Prop where
  operations : ∀ visited id block position operation, Path body visited id →
    body.blocks[id]? = some block → block.operations[position]? = some operation →
    ∃ found values, body.operations[operation]? = some found ∧ operationValues body found = .ok values ∧
      ∀ value ∈ values, value ∈ definedBefore body visited block position
  terminators : ∀ visited id block, Path body visited id → body.blocks[id]? = some block →
    ∃ values, terminatorValues body block.terminator = .ok values ∧
      ∀ value ∈ values, value ∈ definedBefore body visited block block.operations.length
  edges : ∀ visited id block target, Path body visited id → body.blocks[id]? = some block →
    target ∈ block.terminator.successors → block.terminator.isSuspend = false →
    ∃ destination, body.blocks[target.block]? = some destination ∧ Passes body target destination
  resumes : ∀ visited id block computation resume, Path body visited id →
    body.blocks[id]? = some block → block.terminator = .suspend computation resume →
    ∃ destination, body.blocks[resume.block]? = some destination ∧
      Resumes environment body computation resume destination
  packs : body.pack ≠ none → ∀ visited id block, Path body visited id →
    body.blocks[id]? = some block → block.terminator.isReturn = true →
    (along body (visited ++ [id]) (destroys body)).length = 1

end Paths

section Dominance

variable (entry : MirBlockId) (predecessors : Predecessors)

def graphOf : FlowGraph MirBlockId where
  nodes := predecessors.keys
  entry := entry
  preds block := (predecessors.get? block).getD ∅

def candidatesOf (dominators : Dominators) (block : MirBlockId) : Finset MirBlockId :=
  (dominators.get? block).getD ∅

/-- The dominators that are computed for the blocks of the graph. -/
structure RoundInvariant (dominators : Dominators) : Prop where
  keys : dominators.keys = predecessors.keys
  refining : (graphOf entry predecessors).Refining (candidatesOf dominators)

/-- A graph all of whose edges join its blocks, with a predecessor of every block but the entry. -/
structure Connected : Prop where
  start : entry ∈ predecessors.keys
  edges : ∀ block ∈ predecessors.keys, (graphOf entry predecessors).preds block ⊆ predecessors.keys
  preds : ∀ block ∈ predecessors.keys, block ≠ entry →
    (graphOf entry predecessors).preds block ≠ ∅

variable {entry predecessors}

theorem get_candidatesOf {dominators : Dominators} {block : MirBlockId}
    (h : block ∈ dominators.keys) : dominators.get? block = some (candidatesOf dominators block) := by
  obtain ⟨found, hfound⟩ := Option.isSome_iff_exists.mp (dominators.mem_keys.mp h)
  rw [candidatesOf, hfound]
  rfl

theorem meetRest_eq {dominators : Dominators} {rest : List MirBlockId}
    (hrest : ∀ block ∈ rest, block ∈ dominators.keys) (next : Finset MirBlockId) :
    ∃ result, rest.foldlM (fun next predecessor => do
        let others ← dominators.get? predecessor
        return {candidate ∈ next | candidate ∈ others} : Finset MirBlockId → MirBlockId →
          Option (Finset MirBlockId)) next = some result ∧
      ∀ d, d ∈ result ↔ d ∈ next ∧ ∀ block ∈ rest, d ∈ candidatesOf dominators block := by
  induction rest generalizing next with
  | nil => exact ⟨next, rfl, fun d => by simp⟩
  | cons block rest ih =>
    obtain ⟨result, hresult, hmem⟩ := ih (fun other hother => hrest other (List.mem_cons_of_mem _ hother))
      {candidate ∈ next | candidate ∈ candidatesOf dominators block}
    refine ⟨result, ?_, fun d => ?_⟩
    · rw [List.foldlM_cons, get_candidatesOf (hrest block List.mem_cons_self)]
      exact hresult
    · rw [hmem, Finset.mem_filter, List.forall_mem_cons, and_assoc]

theorem meetDominators_eq {dominators : Dominators} {blocks : List MirBlockId} (hne : blocks ≠ [])
    (hblocks : ∀ block ∈ blocks, block ∈ dominators.keys) :
    ∃ result, meetDominators dominators blocks = some result ∧
      ∀ d, d ∈ result ↔ ∀ block ∈ blocks, d ∈ candidatesOf dominators block := by
  cases blocks with
  | nil => exact absurd rfl hne
  | cons first rest =>
    obtain ⟨result, hresult, hmem⟩ := meetRest_eq
      (fun block hblock => hblocks block (List.mem_cons_of_mem _ hblock))
      (candidatesOf dominators first)
    refine ⟨result, ?_, fun d => by rw [hmem, List.forall_mem_cons]⟩
    rw [meetDominators, get_candidatesOf (hblocks first List.mem_cons_self)]
    exact hresult

theorem candidatesOf_insert {dominators : Dominators} {block : MirBlockId}
    {next : Finset MirBlockId} :
    candidatesOf (dominators.insert block next) = Function.update (candidatesOf dominators) block next := by
  funext other
  rw [candidatesOf, FiniteMap.get_insert, Function.update_apply]
  split <;> rfl

/-- One visit either leaves a solved equation alone or removes candidates. -/
theorem refineBlock_spec (hgraph : Connected entry predecessors) {dominators : Dominators}
    (h : RoundInvariant entry predecessors dominators) (changed : Bool) {block : MirBlockId}
    (hblock : block ∈ predecessors.keys) : ∃ next,
      refineBlock entry predecessors (dominators, changed) block = some next ∧
      RoundInvariant entry predecessors next.1 ∧
      (next = (dominators, changed) ∧ (block ≠ entry →
        (graphOf entry predecessors).meet (candidatesOf dominators) block =
          candidatesOf dominators block) ∨
       next.2 = true ∧ (graphOf entry predecessors).candidateCount (candidatesOf next.1) <
        (graphOf entry predecessors).candidateCount (candidatesOf dominators)) := by
  by_cases hentry : block = entry
  · exact ⟨_, if_pos hentry, h, Or.inl ⟨rfl, fun hne => absurd hentry hne⟩⟩
  · have hincoming : predecessors.get? block = some ((graphOf entry predecessors).preds block) :=
      get_candidatesOf hblock
    have hpreds : ∀ p ∈ ((graphOf entry predecessors).preds block).sort (· ≤ ·), p ∈ dominators.keys := by
      intro p hp
      rw [h.keys]
      exact hgraph.edges block hblock ((Finset.mem_sort _).mp hp)
    have hne : ((graphOf entry predecessors).preds block).sort (· ≤ ·) ≠ [] := by
      intro hnil
      apply hgraph.preds block hblock hentry
      rw [← Finset.sort_toFinset ((graphOf entry predecessors).preds block) (· ≤ ·), hnil,
        List.toFinset_nil]
    obtain ⟨common, hcommon, hmem⟩ := meetDominators_eq hne hpreds
    have hmeet : insert block common =
        (graphOf entry predecessors).meet (candidatesOf dominators) block := by
      ext d
      rw [FlowGraph.meet, Finset.mem_insert, Finset.mem_insert, Finset.mem_filter, hmem]
      refine or_congr_right ⟨fun hd => ⟨?_, fun p hp => hd p ((Finset.mem_sort _).mpr hp)⟩,
        fun hd p hp => hd.2 p ((Finset.mem_sort _).mp hp)⟩
      obtain ⟨p, hp⟩ := List.exists_mem_of_ne_nil _ hne
      exact h.refining.subset p (hgraph.edges block hblock ((Finset.mem_sort _).mp hp)) (hd p hp)
    have hrefine : refineBlock entry predecessors (dominators, changed) block = some
        (if insert block common = candidatesOf dominators block then (dominators, changed)
          else (dominators.insert block (insert block common), true)) := by
      rw [refineBlock, if_neg hentry, hincoming]
      simp only [Option.bind_eq_bind, Option.bind_some, hcommon,
        get_candidatesOf (h.keys ▸ hblock : block ∈ dominators.keys)]
      rfl
    refine ⟨_, hrefine, ?_⟩
    rw [hmeet]
    split
    · rename_i heq
      exact ⟨h, Or.inl ⟨rfl, fun _ => heq⟩⟩
    · rename_i hchanged
      have hcandidates : candidatesOf (dominators.insert block
          ((graphOf entry predecessors).meet (candidatesOf dominators) block)) =
          (graphOf entry predecessors).refineAt (candidatesOf dominators) block :=
        candidatesOf_insert
      refine ⟨⟨?_, ?_⟩, Or.inr ⟨rfl, ?_⟩⟩
      · rw [← h.keys]
        exact Finset.insert_eq_self.mpr (h.keys ▸ hblock)
      · rw [hcandidates]
        exact h.refining.refineAt hgraph.edges hblock hentry
      · rw [hcandidates]
        exact FlowGraph.candidateCount_refineAt_lt h.refining hblock hentry hchanged

theorem refineBlocks_spec (hgraph : Connected entry predecessors) {dominators : Dominators}
    (h : RoundInvariant entry predecessors dominators) (changed : Bool) {blocks : List MirBlockId}
    (hblocks : ∀ block ∈ blocks, block ∈ predecessors.keys) : ∃ next,
      blocks.foldlM (refineBlock entry predecessors) (dominators, changed) = some next ∧
      RoundInvariant entry predecessors next.1 ∧
      (next = (dominators, changed) ∧ (∀ block ∈ blocks, block ≠ entry →
        (graphOf entry predecessors).meet (candidatesOf dominators) block =
          candidatesOf dominators block) ∨
       next.2 = true ∧ (graphOf entry predecessors).candidateCount (candidatesOf next.1) <
        (graphOf entry predecessors).candidateCount (candidatesOf dominators)) := by
  induction blocks generalizing dominators changed with
  | nil => exact ⟨_, rfl, h, Or.inl ⟨rfl, fun block hblock => absurd hblock List.not_mem_nil⟩⟩
  | cons block blocks ih =>
    obtain ⟨⟨middle, flag⟩, hmiddle, hinv, hstep⟩ :=
      refineBlock_spec hgraph h changed (hblocks block List.mem_cons_self)
    obtain ⟨next, hnext, hinv', hrest⟩ := ih hinv flag
      fun other hother => hblocks other (List.mem_cons_of_mem _ hother)
    refine ⟨next, ?_, hinv', ?_⟩
    · rw [List.foldlM_cons, hmiddle]
      exact hnext
    · rcases hstep with ⟨heq, hstable⟩ | ⟨hflag, hless⟩
      · obtain ⟨rfl, rfl⟩ := Prod.mk.inj heq
        exact hrest.imp_left fun hrest => ⟨hrest.1, List.forall_mem_cons.mpr ⟨hstable, hrest.2⟩⟩
      · rcases hrest with ⟨rfl, _⟩ | ⟨hchanged, hless'⟩
        · exact Or.inr ⟨hflag, hless⟩
        · exact Or.inr ⟨hchanged, hless'.trans hless⟩

/-- The blocks that dominate each block of the graph. -/
def ExactDominators (entry : MirBlockId) (predecessors : Predecessors) (dominators : Dominators) :
    Prop :=
  ∀ block ∈ predecessors.keys, ∃ found, dominators.get? block = some found ∧
    ∀ d, d ∈ found ↔ d ∈ predecessors.keys ∧ (graphOf entry predecessors).Dominates d block

theorem dominatorRound_spec (hgraph : Connected entry predecessors) {dominators : Dominators}
    (h : RoundInvariant entry predecessors dominators) :
    (∃ next, dominatorRound entry predecessors dominators = some (.inl next) ∧
      RoundInvariant entry predecessors next ∧
      (graphOf entry predecessors).candidateCount (candidatesOf next) <
        (graphOf entry predecessors).candidateCount (candidatesOf dominators)) ∨
    ∃ next, dominatorRound entry predecessors dominators = some (.inr next) ∧
      ExactDominators entry predecessors next := by
  obtain ⟨⟨next, changed⟩, hnext, hinv, hrest⟩ := refineBlocks_spec hgraph h false
    fun block (hblock : block ∈ predecessors.keys.sort (· ≤ ·)) => (Finset.mem_sort _).mp hblock
  have hround : dominatorRound entry predecessors dominators =
      some (if changed then .inl next else .inr next) := by
    rw [dominatorRound, hnext]
    rfl
  rcases hrest with ⟨heq, hstable⟩ | ⟨hchanged, hless⟩
  · obtain ⟨rfl, rfl⟩ := Prod.mk.inj heq
    refine Or.inr ⟨next, hround, fun block hblock => ⟨_, get_candidatesOf (hinv.keys ▸ hblock), ?_⟩⟩
    intro d
    exact hinv.refining.dominates (fun b hb hne =>
      hstable b ((Finset.mem_sort _).mpr hb) hne) hblock
  · have htrue : changed = true := hchanged
    rw [htrue] at hround
    exact Or.inl ⟨next, hround, hinv, hless⟩

theorem roundInvariant_initial (hgraph : Connected entry predecessors) :
    RoundInvariant entry predecessors (initialDominators entry predecessors) := by
  have hlargest : ∀ block ∈ predecessors.keys,
      candidatesOf (initialDominators entry predecessors) block =
        (graphOf entry predecessors).largest block := by
    intro block hblock
    rw [candidatesOf, initialDominators, FiniteMap.get_ofKeys, if_pos hblock]
    rfl
  have hstart : (graphOf entry predecessors).Refining (graphOf entry predecessors).largest :=
    FlowGraph.refining_largest hgraph.start
  refine ⟨?_, ?_⟩
  · ext block
    rw [FiniteMap.mem_keys, initialDominators, FiniteMap.get_ofKeys]
    split
    · rename_i hblock
      exact ⟨fun _ => hblock, fun _ => rfl⟩
    · rename_i hblock
      exact ⟨fun h => (by cases h), fun h => absurd h hblock⟩
  · exact hstart.congr hgraph.start hgraph.edges hlargest

/-- On every graph whose blocks other than the entry have predecessors the loop ends with exactly
the dominators. -/
theorem computeDominators_exact (hgraph : Connected entry predecessors)
    (hpasses : predecessors.keys.card * predecessors.keys.card < passes) :
    ∃ dominators, computeDominators passes entry predecessors = some dominators ∧
      ExactDominators entry predecessors dominators := by
  refine Loop.attempt_spec (P := RoundInvariant entry predecessors)
    (fun dominators => (graphOf entry predecessors).candidateCount (candidatesOf dominators))
    (fun dominators h => dominatorRound_spec hgraph h) (roundInvariant_initial hgraph) ?_
  refine lt_of_le_of_lt (Finset.sum_le_card_nsmul _ _ predecessors.keys.card fun block hblock => ?_)
    hpasses
  exact Finset.card_le_card ((roundInvariant_initial hgraph).refining.subset block hblock)

theorem computeDominators_sound (hgraph : Connected entry predecessors) {dominators : Dominators}
    (h : computeDominators passes entry predecessors = some dominators) :
    ExactDominators entry predecessors dominators := by
  refine Loop.attempt_sound (P := RoundInvariant entry predecessors) (fun s t hs hstep => ?_)
    (fun s r hs hstep => ?_) (roundInvariant_initial hgraph) h
  · rcases dominatorRound_spec hgraph hs with ⟨next, hnext, hinv, _⟩ | ⟨next, hnext, _⟩
    · cases hnext.symm.trans hstep
      exact hinv
    · cases hnext.symm.trans hstep
  · rcases dominatorRound_spec hgraph hs with ⟨next, hnext, _⟩ | ⟨next, hnext, hexact⟩
    · cases hnext.symm.trans hstep
    · cases hnext.symm.trans hstep
      exact hexact

end Dominance

section Graph

variable {body passes}

theorem check_ok {valid : Bool} {error : MirValidationError} :
    check valid error = .ok () ↔ valid = true := by
  cases valid with
  | true => exact ⟨fun _ => rfl, fun _ => rfl⟩
  | false => exact ⟨fun h => (by cases h), fun h => (by cases h)⟩

theorem edgeCheck_block {suspends : Bool} {target : MirBranchTarget}
    (h : edgeCheck body suspends target = .ok ()) : target.block < body.blocks.length := by
  have hblock : ∀ {rest : MirBlock → Validation Unit},
      (requireBlock body target.block >>= rest) = .ok () → target.block < body.blocks.length := by
    intro rest h
    obtain ⟨destination, hdestination, _⟩ := except_bind_ok.mp h
    rw [requireBlock, orError_ok] at hdestination
    exact (List.getElem?_eq_some_iff.mp hdestination).1
  rw [edgeCheck] at h
  split at h
  · exact hblock h
  · exact hblock h

def IsEdge (body : MirBody) (source target : MirBlockId) : Prop :=
  ∃ block edge, body.blocks[source]? = some block ∧ edge ∈ block.terminator.successors ∧
    edge.block = target

/-- Every block is recorded, with sources of its edges only. -/
structure Recorded (body : MirBody) (predecessors : Predecessors) : Prop where
  keys : ∀ block, block ∈ predecessors.keys ↔ block < body.blocks.length
  edges : ∀ block source, source ∈ (predecessors.get? block).getD ∅ → IsEdge body source block

def Grows (predecessors next : Predecessors) : Prop :=
  ∀ block source, source ∈ (predecessors.get? block).getD ∅ → source ∈ (next.get? block).getD ∅

theorem recordEdge_spec {source : MirBlockId} {block : MirBlock} {target : MirBranchTarget}
    (hblock : body.blocks[source]? = some block) (htarget : target ∈ block.terminator.successors)
    {predecessors next : Predecessors}
    (h : recordEdge body source block.terminator.isSuspend predecessors target = .ok next)
    (hrecorded : Recorded body predecessors) : Recorded body next ∧ Grows predecessors next ∧
      (edgeCheck body block.terminator.isSuspend target = .ok () ∧
        source ∈ (next.get? target.block).getD ∅) := by
  obtain ⟨_, hedge, h⟩ := except_bind_ok.mp h
  obtain rfl := Except.ok.inj h
  have hlt := edgeCheck_block hedge
  refine ⟨⟨fun other => ?_, fun other found hfound => ?_⟩, fun other found hfound => ?_, hedge, ?_⟩
  · rw [FiniteMap.insert, Finset.mem_insert, hrecorded.keys]
    exact ⟨fun h => h.elim (fun h => h ▸ hlt) id, Or.inr⟩
  · rw [FiniteMap.get_insert] at hfound
    split at hfound
    · rename_i heq
      rcases Finset.mem_insert.mp hfound with rfl | hold
      · exact ⟨block, target, hblock, htarget, heq.symm⟩
      · rw [heq]
        exact hrecorded.edges target.block found hold
    · exact hrecorded.edges other found hfound
  · rw [FiniteMap.get_insert]
    split
    · rename_i heq
      rw [heq] at hfound
      exact Finset.mem_insert_of_mem hfound
    · exact hfound
  · rw [FiniteMap.get_insert, if_pos rfl]
    exact Finset.mem_insert_self _ _

theorem Grows.refl (predecessors : Predecessors) : Grows predecessors predecessors :=
  fun _ _ h => h

theorem Grows.trans (predecessors middle next : Predecessors) (h : Grows predecessors middle)
    (h' : Grows middle next) : Grows predecessors next :=
  fun block source hsource => h' block source (h block source hsource)

/-- The edges of a block are checked, and recorded at their targets. -/
def EdgesOf (body : MirBody) (entry : MirBlock × MirBlockId) (predecessors : Predecessors) : Prop :=
  ∀ target ∈ entry.1.terminator.successors,
    edgeCheck body entry.1.terminator.isSuspend target = .ok () ∧
      entry.2 ∈ (predecessors.get? target.block).getD ∅

theorem EdgesOf.mono (entry : MirBlock × MirBlockId) (predecessors next : Predecessors)
    (hgrows : Grows predecessors next) (h : EdgesOf body entry predecessors) :
    EdgesOf body entry next := fun target htarget =>
  ⟨(h target htarget).1, hgrows _ _ (h target htarget).2⟩

theorem recordEdges_spec {entry : MirBlock × MirBlockId}
    (hentry : body.blocks[entry.2]? = some entry.1) {predecessors next : Predecessors}
    (h : recordEdges body predecessors entry = .ok next) (hrecorded : Recorded body predecessors) :
    Recorded body next ∧ Grows predecessors next ∧ EdgesOf body entry next :=
  foldlM_ok_spec (I := Recorded body) (R := Grows)
    (Q := fun target predecessors => edgeCheck body entry.1.terminator.isSuspend target = .ok () ∧
      entry.2 ∈ (predecessors.get? target.block).getD ∅)
    .refl .trans (fun _ _ _ hgrows hmem => ⟨hmem.1, hgrows _ _ hmem.2⟩)
    (fun _ htarget _ _ hstep hrecorded => recordEdge_spec hentry htarget hstep hrecorded)
    h hrecorded

/-- A pending block is the entry or the target of an edge. -/
def Found (body : MirBody) (search : ReachableSearch) : Prop :=
  ∀ block, block ∈ search.reachable ∨ block ∈ search.pending →
    block = body.entry ∨ ∃ source, IsEdge body source block

theorem reachableStep_found {search next : ReachableSearch} (h : Found body search)
    (hstep : reachableStep body search = .inl next) : Found body next := by
  rw [reachableStep] at hstep
  split at hstep
  · cases hstep
  · rename_i id rest hpending
    have hrest : ∀ block ∈ rest, block = body.entry ∨ ∃ source, IsEdge body source block :=
      fun block hblock => h block (Or.inr (by
        rw [hpending]
        exact List.mem_cons_of_mem _ hblock))
    split at hstep
    · cases hstep
      exact fun block hblock => hblock.elim (fun hblock => h block (Or.inl hblock)) (hrest block)
    · split at hstep
      · cases hstep
      · rename_i found hfound
        cases hstep
        rw [requireBlock, orError_ok] at hfound
        intro block hblock
        rcases hblock with hblock | hblock
        · rcases Finset.mem_insert.mp hblock with rfl | hblock
          · exact h _ (Or.inr (by
              rw [hpending]
              exact List.mem_cons_self))
          · exact h block (Or.inl hblock)
        · rcases List.mem_append.mp hblock with hblock | hblock
          · obtain ⟨edge, hedge, rfl⟩ := List.mem_map.mp (List.mem_reverse.mp hblock)
            exact Or.inr ⟨id, found, edge, hfound, hedge, rfl⟩
          · exact hrest block hblock

theorem reachable_found {reachable : Finset MirBlockId}
    (h : Loop.within (reachableStep body) passes ⟨∅, [body.entry]⟩ = some (.ok reachable)) :
    ∀ block ∈ reachable, block = body.entry ∨ ∃ source, IsEdge body source block := by
  have hstart : Found body ⟨∅, [body.entry]⟩ := by
    intro block hblock
    rcases hblock with hblock | hblock
    · exact absurd hblock (Finset.notMem_empty _)
    · exact Or.inl (List.mem_singleton.mp hblock)
  refine Loop.within_sound (P := Found body)
    (Q := fun result => ∀ reachable, result = .ok reachable → ∀ block ∈ reachable,
      block = body.entry ∨ ∃ source, IsEdge body source block)
    (fun _ _ h hstep => reachableStep_found h hstep) (fun search result hsearch hstep => ?_)
    hstart h reachable rfl
  rw [reachableStep] at hstep
  split at hstep
  · cases hstep
    rintro _ ⟨⟩ block hblock
    exact hsearch block (Or.inl hblock)
  · split at hstep
    · cases hstep
    · split at hstep
      · cases hstep
        rintro _ ⟨⟩
      · cases hstep

/-- The graph of an accepted body: the checked edges, all of them and no others. -/
structure EdgesAccepted (body : MirBody) (predecessors : Predecessors) : Prop where
  noParameters : ∀ block, body.blocks[body.entry]? = some block → block.parameters = []
  recorded : Recorded body predecessors
  edges : ∀ id block, body.blocks[id]? = some block → EdgesOf body (block, id) predecessors
  connected : Connected body.entry predecessors

theorem validateEdgesAndReachability_spec {predecessors : Predecessors}
    (h : validateEdgesAndReachability passes body = some (.ok predecessors)) :
    EdgesAccepted body predecessors := by
  rw [validateEdgesAndReachability] at h
  split at h
  · cases h
  · rename_i found hfound
    obtain ⟨entry, hentry, hfound⟩ := except_bind_ok.mp hfound
    obtain ⟨_, hparameters, hfold⟩ := except_bind_ok.mp hfound
    rw [requireBlock, orError_ok] at hentry
    rw [check_ok, List.isEmpty_iff] at hparameters
    have hstart : Recorded body (FiniteMap.ofKeys (blockIds body).toFinset fun _ => some ∅) := by
      refine ⟨fun block => ?_, fun block source hsource => ?_⟩
      · have hmem : block ∈ (blockIds body).toFinset ↔ block < body.blocks.length := by
          rw [List.mem_toFinset, blockIds, List.mem_range]
        rw [FiniteMap.mem_keys, FiniteMap.get_ofKeys, ← hmem]
        split
        · rename_i hblock
          exact ⟨fun _ => hblock, fun _ => rfl⟩
        · rename_i hblock
          exact ⟨fun h => (by cases h), fun h => absurd h hblock⟩
      · rw [FiniteMap.get_ofKeys] at hsource
        split at hsource
        · exact absurd hsource (Finset.notMem_empty _)
        · exact absurd hsource (Finset.notMem_empty _)
    obtain ⟨hrecorded, _, hedges⟩ := foldlM_ok_spec (I := Recorded body) (R := Grows)
      (Q := EdgesOf body) .refl .trans EdgesOf.mono
      (fun entry hentry _ _ hstep hrecorded =>
        recordEdges_spec (List.mem_zipIdx_iff_getElem?.mp hentry) hstep hrecorded) hfold hstart
    obtain ⟨search, hsearch, hrest⟩ := Option.map_eq_some_iff.mp h
    obtain ⟨reachable, hreachable, hrest⟩ := except_bind_ok.mp hrest
    obtain ⟨_, hall, hfinal⟩ := except_bind_ok.mp hrest
    obtain rfl := Except.ok.inj hfinal
    rw [hreachable] at hsearch
    have hedges' : ∀ id block, body.blocks[id]? = some block → EdgesOf body (block, id) found :=
      fun id block hblock => hedges (block, id) (List.mem_zipIdx_iff_getElem?.mpr hblock)
    refine ⟨fun block hblock => ?_, hrecorded, hedges', ⟨?_, fun block hblock source hsource => ?_,
      fun block hblock hne => ?_⟩⟩
    · exact Option.some.inj (hentry.symm.trans hblock) ▸ hparameters
    · rw [hrecorded.keys]
      exact (List.getElem?_eq_some_iff.mp hentry).1
    · obtain ⟨origin, _, horigin, _, _⟩ := hrecorded.edges block source hsource
      rw [hrecorded.keys]
      exact (List.getElem?_eq_some_iff.mp horigin).1
    · have hreach := forM_ok_iff.mp hall block (List.mem_range.mpr ((hrecorded.keys block).mp hblock))
      rw [check_ok, decide_eq_true_iff] at hreach
      rcases reachable_found hsearch block hreach with heq | ⟨source, origin, edge, horigin, hedge, rfl⟩
      · exact absurd heq hne
      · exact Finset.ne_empty_of_mem (hedges' source origin horigin edge hedge).2

/-- The paths of an accepted body are the walks of its graph. -/
theorem EdgesAccepted.path_iff {predecessors : Predecessors} (h : EdgesAccepted body predecessors)
    {visited : List MirBlockId} {id : MirBlockId} :
    Path body visited id ↔ (graphOf body.entry predecessors).Walk visited id := by
  constructor
  · intro hpath
    induction hpath with
    | entry => exact .entry
    | step _ hblock htarget ih =>
      have hedge := h.edges _ _ hblock _ htarget
      exact ih.step ((h.recorded.keys _).mpr (edgeCheck_block hedge.1)) hedge.2
  · intro hwalk
    induction hwalk with
    | entry => exact .entry
    | step _ _ hedge ih =>
      obtain ⟨block, target, hblock, htarget, rfl⟩ := h.recorded.edges _ _ hedge
      exact ih.step hblock htarget

theorem EdgesAccepted.path_block {predecessors : Predecessors} (h : EdgesAccepted body predecessors)
    {visited : List MirBlockId} {id : MirBlockId} (hpath : Path body visited id) :
    id < body.blocks.length := by
  cases hpath with
  | entry => exact (h.recorded.keys _).mp h.connected.start
  | step _ hblock htarget => exact edgeCheck_block (h.edges _ _ hblock _ htarget).1

end Graph

section Definitions

variable {environment passes function body}

theorem mem_operationResults {operations : List MirOperationId} {value : MirValueId} :
    value ∈ operationResults body operations ↔ ∃ operation ∈ operations, ∃ found,
      body.operations[operation]? = some found ∧ found.result = some value := by
  rw [operationResults, List.mem_filterMap]
  refine exists_congr fun operation => and_congr_right fun _ => ?_
  rw [Option.bind_eq_some_iff]

theorem mem_along {α : Type} {visited : List MirBlockId} {f : MirBlock → List α} {a : α} :
    a ∈ along body visited f ↔ ∃ id ∈ visited, ∃ block, body.blocks[id]? = some block ∧ a ∈ f block := by
  rw [along, List.mem_flatMap]
  refine exists_congr fun id => and_congr_right fun _ => ?_
  cases body.blocks[id]? with
  | none => simp
  | some block => simp

/-- Every operation of a block is known and located there, and nowhere else. -/
structure Located (body : MirBody) (locations : Locations) : Prop where
  located : ∀ operation id position, locations.get? operation = some (id, position) →
    ∃ block, body.blocks[id]? = some block ∧ block.operations[position]? = some operation
  found : ∀ id block position operation, body.blocks[id]? = some block →
    block.operations[position]? = some operation →
    body.operations[operation]? ≠ none ∧ locations.get? operation = some (id, position)

theorem validateOperationMembership_spec {locations : Locations}
    (h : validateOperationMembership body = .ok locations) : Located body locations := by
  obtain ⟨found, hfound, h⟩ := except_bind_ok.mp h
  obtain ⟨_, _, hfinal⟩ := except_bind_ok.mp h
  obtain rfl := Except.ok.inj hfinal
  let stands (locations : Locations) : Prop :=
    ∀ operation id position, locations.get? operation = some (id, position) →
      ∃ block, body.blocks[id]? = some block ∧ block.operations[position]? = some operation
  let keeps (locations next : Locations) : Prop :=
    ∀ operation location, locations.get? operation = some location →
      next.get? operation = some location
  let holds (id : MirBlockId) (entry : MirOperationId × ℕ) (locations : Locations) : Prop :=
    body.operations[entry.1]? ≠ none ∧ locations.get? entry.1 = some (id, entry.2)
  have hblock : ∀ entry ∈ body.blocks.zipIdx, ∀ locations next,
      entry.1.operations.zipIdx.foldlM (locateOperation body entry.2) locations = .ok next →
      stands locations → stands next ∧ keeps locations next ∧
        ∀ operation ∈ entry.1.operations.zipIdx, holds entry.2 operation next := by
    intro entry hentry locations next hfold hstands
    refine foldlM_ok_spec (I := stands) (R := keeps) (Q := holds entry.2) (fun _ _ _ h => h)
      (fun _ _ _ h h' operation location hget => h' _ _ (h operation location hget))
      (fun _ _ _ h hholds => ⟨hholds.1, h _ _ hholds.2⟩) ?_ hfold hstands
    intro operation hoperation before after hstep hbefore
    obtain ⟨known, hknown, hstep⟩ := except_bind_ok.mp hstep
    obtain ⟨_, hfresh, hstep⟩ := except_bind_ok.mp hstep
    obtain rfl := Except.ok.inj hstep
    rw [requireOperation, orError_ok] at hknown
    rw [check_ok, Option.isNone_iff_eq_none] at hfresh
    have hkeeps : keeps before (before.insert operation.1 (entry.2, operation.2)) := by
      intro other location hget
      rw [FiniteMap.get_insert, if_neg]
      · exact hget
      · rintro rfl
        cases hfresh.symm.trans hget
    refine ⟨fun other id position hget => ?_, hkeeps, by rw [hknown]; exact Option.some_ne_none _, by
      rw [FiniteMap.get_insert, if_pos rfl]⟩
    rw [FiniteMap.get_insert] at hget
    split at hget
    · rename_i heq
      obtain ⟨rfl, rfl⟩ := Prod.mk.inj (Option.some.inj hget)
      rw [heq]
      exact ⟨entry.1, List.mem_zipIdx_iff_getElem?.mp hentry, List.mem_zipIdx_iff_getElem?.mp hoperation⟩
    · exact hbefore other id position hget
  obtain ⟨hstands, _, hall⟩ := foldlM_ok_spec (I := stands) (R := keeps)
    (Q := fun entry locations => ∀ operation ∈ entry.1.operations.zipIdx,
      holds entry.2 operation locations) (fun _ _ _ h => h)
    (fun _ _ _ h h' operation location hget => h' _ _ (h operation location hget))
    (fun entry _ _ h hholds operation hoperation => ⟨(hholds operation hoperation).1,
      h operation.1 (entry.2, operation.2) (hholds operation hoperation).2⟩)
    hblock hfound (fun _ _ _ hget => by cases hget)
  exact ⟨hstands, fun id block position operation hid hposition =>
    hall (block, id) (List.mem_zipIdx_iff_getElem?.mpr hid) (operation, position)
      (List.mem_zipIdx_iff_getElem?.mpr hposition)⟩

/-- Every value stands where its definition says. -/
def DefinedWhere (body : MirBody) (value : MirValueId) : MirValueDefinition → Prop
  | .blockParameter id position => ∃ block, body.blocks[id]? = some block ∧
      block.parameters[position]? = some value
  | .operation operation => ∃ found, body.operations[operation]? = some found ∧
      found.result = some value

theorem validateValueDefinition_spec {entry : MirValue × MirValueId}
    (h : validateValueDefinition environment body entry = .ok ()) :
    DefinedWhere body entry.2 entry.1.definition := by
  obtain ⟨_, _, h⟩ := except_bind_ok.mp h
  cases hdefinition : entry.1.definition with
  | blockParameter id position =>
    rw [hdefinition] at h
    obtain ⟨block, hblock, h⟩ := except_bind_ok.mp h
    rw [requireBlock, orError_ok] at hblock
    rw [check_ok, decide_eq_true_iff] at h
    exact ⟨block, hblock, h⟩
  | operation operation =>
    rw [hdefinition] at h
    obtain ⟨found, hfound, h⟩ := except_bind_ok.mp h
    rw [requireOperation, orError_ok] at hfound
    rw [check_ok, decide_eq_true_iff] at h
    exact ⟨found, hfound, h⟩

/-- A use behind its definition or in a block that the definition dominates reads a value which
every path has defined. -/
theorem validateUse_defined {predecessors : Predecessors} {locations : Locations}
    {dominators : Dominators} (hgraph : EdgesAccepted body predecessors)
    (hdominators : ExactDominators body.entry predecessors dominators)
    (hlocated : Located body locations)
    (hvalues : ∀ value data, body.values[value]? = some data → DefinedWhere body value data.definition)
    {visited : List MirBlockId} {id : MirBlockId} {block : MirBlock} {position : ℕ}
    {value : MirValueId} (hpath : Path body visited id) (hblock : body.blocks[id]? = some block)
    (h : validateUse body locations dominators id position value = .ok ()) :
    value ∈ definedBefore body visited block position := by
  have hearlier : ∀ other, other ≠ id → other ∈ (dominators.get? id).getD ∅ → other ∈ visited := by
    intro other hne hmem
    obtain ⟨found, hfound, hexact⟩ := hdominators id ((hgraph.recorded.keys id).mpr (hgraph.path_block hpath))
    rw [hfound] at hmem
    rcases List.mem_append.mp (((hexact other).mp hmem).2 visited (hgraph.path_iff.mp hpath)) with h | h
    · exact h
    · exact absurd (List.mem_singleton.mp h) hne
  obtain ⟨data, hdata, h⟩ := except_bind_ok.mp h
  rw [requireValue, orError_ok] at hdata
  have hdefined := hvalues value data hdata
  obtain ⟨⟨origin, before⟩, horigin, h⟩ := except_bind_ok.mp h
  rw [check_ok] at h
  rw [definedBefore, List.mem_append, List.mem_append]
  cases hdefinition : data.definition with
  | blockParameter definer index =>
    rw [hdefinition] at hdefined horigin
    obtain ⟨rfl, rfl⟩ := Prod.mk.inj (Except.ok.inj horigin)
    obtain ⟨home, hhome, hindex⟩ := hdefined
    have hparameter : value ∈ home.parameters := List.mem_of_getElem? hindex
    by_cases hsame : definer = id
    · rw [hsame] at hhome
      obtain rfl := Option.some.inj (hblock.symm.trans hhome)
      exact Or.inl (Or.inr hparameter)
    · rw [if_neg hsame, decide_eq_true_iff] at h
      exact Or.inl (Or.inl (mem_along.mpr ⟨definer, hearlier definer hsame h, home, hhome,
        List.mem_append_left _ hparameter⟩))
  | operation operation =>
    rw [hdefinition] at hdefined horigin
    obtain ⟨location, hlocation, horigin⟩ := except_bind_ok.mp horigin
    obtain ⟨rfl, rfl⟩ := Prod.mk.inj (Except.ok.inj horigin)
    rw [orError_ok] at hlocation
    obtain ⟨home, hhome, hindex⟩ := hlocated.located operation location.1 location.2 hlocation
    obtain ⟨found, hfound, hresult⟩ := hdefined
    by_cases hsame : location.1 = id
    · rw [hsame] at hhome
      obtain rfl := Option.some.inj (hblock.symm.trans hhome)
      rw [if_pos hsame, Option.all_some, decide_eq_true_iff] at h
      refine Or.inr (mem_operationResults.mpr ⟨operation, ?_, found, hfound, hresult⟩)
      exact List.mem_of_getElem? ((List.getElem?_take_of_lt h).trans hindex)
    · rw [if_neg hsame, decide_eq_true_iff] at h
      exact Or.inl (Or.inl (mem_along.mpr ⟨location.1, hearlier location.1 hsame h, home, hhome,
        List.mem_append_right _ (mem_operationResults.mpr ⟨operation, List.mem_of_getElem? hindex,
          found, hfound, hresult⟩)⟩))

end Definitions

section Acceptance

variable {environment passes function body}

theorem validateEdge_spec {target : MirBranchTarget} (h : validateEdge body target = .ok ()) :
    ∃ destination, body.blocks[target.block]? = some destination ∧ Passes body target destination := by
  obtain ⟨destination, hdestination, h⟩ := except_bind_ok.mp h
  obtain ⟨_, hlength, h⟩ := except_bind_ok.mp h
  rw [requireBlock, orError_ok] at hdestination
  rw [check_ok, decide_eq_true_iff] at hlength
  refine ⟨destination, hdestination, List.forall₂_iff_zip.mpr ⟨hlength, fun {argument parameter} hmem => ?_⟩⟩
  obtain ⟨position, hposition⟩ := List.getElem?_of_mem hmem
  have hentry := forM_ok_iff.mp h ((argument, parameter), position)
    (List.mem_zipIdx_iff_getElem?.mpr hposition)
  obtain ⟨ty, hty, hentry⟩ := except_bind_ok.mp hentry
  obtain ⟨ty', hty', hentry⟩ := except_bind_ok.mp hentry
  rw [check_ok, decide_eq_true_iff] at hentry
  exact ⟨ty, hty, hentry ▸ hty'⟩

theorem validateResumeEdge_spec {target : MirBranchTarget}
    (h : validateResumeEdge body target = .ok ()) : ∃ destination parameter,
      body.blocks[target.block]? = some destination ∧ target.arguments = [] ∧
      destination.parameters = [parameter] := by
  obtain ⟨destination, hdestination, h⟩ := except_bind_ok.mp h
  rw [requireBlock, orError_ok] at hdestination
  rw [check_ok, Bool.and_eq_true, decide_eq_true_iff, List.isEmpty_iff] at h
  obtain ⟨parameter, hparameter⟩ := List.length_eq_one_iff.mp h.2
  exact ⟨destination, parameter, hdestination, h.1, hparameter⟩

theorem validateSuspend_spec {id : MirBlockId} {computation : MirValueId} {resume : MirBranchTarget}
    {values : List MirValueId}
    (h : validateSuspendTerminator environment function id computation resume = .ok values)
    (hedge : validateResumeEdge function.body resume = .ok ()) :
    values = [computation] ∧ ∃ destination, function.body.blocks[resume.block]? = some destination ∧
      Resumes environment function.body computation resume destination := by
  obtain ⟨_, _, h⟩ := except_bind_ok.mp h
  obtain ⟨ty, hty, h⟩ := except_bind_ok.mp h
  obtain ⟨output, houtput, h⟩ := except_bind_ok.mp h
  obtain ⟨destination, hdestination, h⟩ := except_bind_ok.mp h
  obtain ⟨_, hparameter, h⟩ := except_bind_ok.mp h
  obtain rfl := Except.ok.inj h
  rw [orError_ok] at houtput
  rw [requireBlock, orError_ok] at hdestination
  obtain ⟨destination', parameter, hdestination', harguments, hparameters⟩ :=
    validateResumeEdge_spec hedge
  obtain rfl := Option.some.inj (hdestination.symm.trans hdestination')
  rw [check_ok, hparameters, List.head?_cons, Option.any_some, decide_eq_true_iff] at hparameter
  refine ⟨rfl, destination, hdestination, harguments, parameter, ty, output, hparameters, hty, houtput, ?_⟩
  cases hvalue : valueType function.body parameter with
  | error error =>
    rw [hvalue] at hparameter
    cases hparameter
  | ok found =>
    rw [hvalue] at hparameter
    exact congrArg Except.ok (Option.some.inj hparameter)

theorem validateTerminator_values {id : MirBlockId} {terminator : MirTerminator}
    {values : List MirValueId}
    (h : validateTerminator environment function id terminator = .ok values)
    (hedges : ∀ target ∈ terminator.successors,
      edgeCheck function.body terminator.isSuspend target = .ok ()) :
    terminatorValues function.body terminator = .ok values := by
  cases terminator with
  | goto target => exact h
  | branch condition thenTarget elseTarget =>
    obtain ⟨_, _, h⟩ := except_bind_ok.mp h
    obtain ⟨_, _, h⟩ := except_bind_ok.mp h
    exact h
  | branchDropFlag flag initialized uninitialized =>
    obtain ⟨_, _, h⟩ := except_bind_ok.mp h
    exact h
  | «switch» subject cases fallback =>
    obtain ⟨_, _, h⟩ := except_bind_ok.mp h
    obtain ⟨inspected, hinspected, h⟩ := except_bind_ok.mp h
    obtain ⟨_, _, h⟩ := except_bind_ok.mp h
    exact except_bind_ok.mpr ⟨inspected, hinspected, h⟩
  | suspend computation resume =>
    have hedge : validateResumeEdge function.body resume = .ok () :=
      hedges resume List.mem_cons_self
    obtain ⟨rfl, _, _, harguments, _⟩ := validateSuspend_spec h hedge
    rw [terminatorValues, harguments]
    rfl
  | «return» value =>
    cases value with
    | none =>
      obtain ⟨_, _, h⟩ := except_bind_ok.mp h
      exact h
    | some value =>
      obtain ⟨_, _, h⟩ := except_bind_ok.mp h
      obtain ⟨_, _, h⟩ := except_bind_ok.mp h
      exact h
  | exit status => cases h
  | trap => exact h
  | unreachable => exact h

/-- A block with an edge does not return. -/
theorem visited_not_return {visited : List MirBlockId} {id : MirBlockId} (h : Path body visited id) :
    ∀ other ∈ visited, ∃ block, body.blocks[other]? = some block ∧
      block.terminator.isReturn = false := by
  induction h with
  | entry => exact fun other hother => absurd hother List.not_mem_nil
  | @step visited id block target _ hblock htarget ih =>
    intro other hother
    rcases List.mem_append.mp hother with hother | hother
    · exact ih other hother
    · refine ⟨block, List.mem_singleton.mp hother ▸ hblock, ?_⟩
      cases hterminator : block.terminator <;> rw [hterminator] at htarget
      case «return» value => cases htarget
      all_goals rfl

theorem validatePackExit_spec {entry : MirBlock × MirBlockId}
    (h : validatePackExit body entry = .ok ()) :
    (entry.1.terminator.isReturn = false → destroys body entry.1 = []) ∧
      (body.pack ≠ none → entry.1.terminator.isReturn = true → (destroys body entry.1).length = 1) := by
  obtain ⟨_, hplace, hcount⟩ := except_bind_ok.mp h
  rw [check_ok] at hplace hcount
  constructor
  · intro hreturn
    simpa [hreturn] using hplace
  · intro hpack hreturn
    have hsome : body.pack.isNone = false := by
      cases hbody : body.pack with
      | none => exact absurd hbody hpack
      | some pack => rfl
    simpa [hsome, hreturn] using hcount

theorem packs_sound (hpack : body.pack ≠ none)
    (hexits : ∀ id block, body.blocks[id]? = some block → validatePackExit body (block, id) = .ok ())
    {visited : List MirBlockId} {id : MirBlockId} {block : MirBlock} (hpath : Path body visited id)
    (hblock : body.blocks[id]? = some block) (hreturn : block.terminator.isReturn = true) :
    (along body (visited ++ [id]) (destroys body)).length = 1 := by
  have hnone : along body visited (destroys body) = [] := by
    rw [List.eq_nil_iff_forall_not_mem]
    intro operation hmem
    obtain ⟨other, hother, found, hfound, hmem⟩ := mem_along.mp hmem
    obtain ⟨found', hfound', hreturn'⟩ := visited_not_return hpath other hother
    obtain rfl := Option.some.inj (hfound.symm.trans hfound')
    rw [(validatePackExit_spec (hexits other found hfound)).1 hreturn'] at hmem
    exact absurd hmem List.not_mem_nil
  have hlast : along body (visited ++ [id]) (destroys body) =
      along body visited (destroys body) ++ destroys body block := by
    simp [along, hblock]
  rw [hlast, hnone, List.nil_append]
  exact (validatePackExit_spec (hexits id block hblock)).2 hpack hreturn

theorem sound_of_passes {locations : Locations} {predecessors : Predecessors}
    {dominators : Dominators}
    (hvalues : function.body.values.zipIdx.forM (validateValueDefinition environment function.body) =
      .ok ()) (hmembership : validateOperationMembership function.body = .ok locations)
    (hexits : function.body.blocks.zipIdx.forM (validatePackExit function.body) = .ok ())
    (hedges : validateEdgesAndReachability passes function.body = some (.ok predecessors))
    (hdominators : computeDominators passes function.body.entry predecessors = some dominators)
    (huses : validateUses environment function locations dominators = .ok ()) :
    SoundBody environment function.body := by
  have hgraph := validateEdgesAndReachability_spec hedges
  have hexact := computeDominators_sound passes hgraph.connected hdominators
  have hlocated := validateOperationMembership_spec hmembership
  have hdefined : ∀ value data, function.body.values[value]? = some data →
      DefinedWhere function.body value data.definition := fun value data hdata =>
    validateValueDefinition_spec (forM_ok_iff.mp hvalues (data, value)
      (List.mem_zipIdx_iff_getElem?.mpr hdata))
  have hexit : ∀ id block, function.body.blocks[id]? = some block →
      validatePackExit function.body (block, id) = .ok () := fun id block hblock =>
    forM_ok_iff.mp hexits (block, id) (List.mem_zipIdx_iff_getElem?.mpr hblock)
  obtain ⟨_, hoperations, hterminators⟩ := except_bind_ok.mp huses
  have hterminator : ∀ id block, function.body.blocks[id]? = some block → ∃ values,
      validateTerminator environment function id block.terminator = .ok values ∧
      ∀ value ∈ values, validateUse function.body locations dominators id block.operations.length value =
        .ok () := by
    intro id block hblock
    obtain ⟨values, hvalues, hall⟩ := except_bind_ok.mp (forM_ok_iff.mp hterminators (block, id)
      (List.mem_zipIdx_iff_getElem?.mpr hblock))
    exact ⟨values, hvalues, forM_ok_iff.mp hall⟩
  refine ⟨?_, ?_, ?_, ?_, ?_⟩
  · intro visited id block position operation hpath hblock hposition
    obtain ⟨hknown, hlocation⟩ := hlocated.found id block position operation hblock hposition
    obtain ⟨found, hfound⟩ := Option.ne_none_iff_exists'.mp hknown
    obtain ⟨location, hlocation', h⟩ := except_bind_ok.mp (forM_ok_iff.mp hoperations
      (found, operation) (List.mem_zipIdx_iff_getElem?.mpr hfound))
    rw [orError_ok] at hlocation'
    obtain rfl := Option.some.inj (hlocation.symm.trans hlocation')
    obtain ⟨_, _, h⟩ := except_bind_ok.mp h
    obtain ⟨_, _, h⟩ := except_bind_ok.mp h
    obtain ⟨_, _, h⟩ := except_bind_ok.mp h
    obtain ⟨values, hread, hall⟩ := except_bind_ok.mp h
    exact ⟨found, values, hfound, hread, fun value hvalue =>
      validateUse_defined hgraph hexact hlocated hdefined hpath hblock (forM_ok_iff.mp hall value hvalue)⟩
  · intro visited id block hpath hblock
    obtain ⟨values, hread, hall⟩ := hterminator id block hblock
    exact ⟨values, validateTerminator_values hread fun target htarget =>
        (hgraph.edges id block hblock target htarget).1,
      fun value hvalue => validateUse_defined hgraph hexact hlocated hdefined hpath hblock
        (hall value hvalue)⟩
  · intro visited id block target _ hblock htarget hsuspend
    have hedge := (hgraph.edges id block hblock target htarget).1
    rw [edgeCheck, hsuspend] at hedge
    exact validateEdge_spec hedge
  · intro visited id block computation resume _ hblock hsuspend
    obtain ⟨values, hread, _⟩ := hterminator id block hblock
    have hedge := (hgraph.edges id block hblock resume (by
      rw [hsuspend]
      exact List.mem_cons_self)).1
    rw [hsuspend] at hread hedge
    exact (validateSuspend_spec hread hedge).2
  · intro hpack visited id block hpath hblock hreturn
    exact packs_sound hpack hexit hpath hblock hreturn

theorem accepted_sound (h : validateFunction environment passes function = some (.ok ())) :
    SoundBody environment function.body := by
  rw [validateFunction] at h
  split at h
  · cases h
  · rename_i locations hdeclarations
    obtain ⟨checked, hchecked, h⟩ := Option.bind_eq_some_iff.mp h
    split at h
    · cases h
    · rename_i predecessors
      obtain ⟨dominators, hdominators, h⟩ := Option.bind_eq_some_iff.mp h
      split at h
      · cases h
      · rename_i huses
        obtain ⟨_, _, hdeclarations⟩ := except_bind_ok.mp hdeclarations
        obtain ⟨_, _, hdeclarations⟩ := except_bind_ok.mp hdeclarations
        obtain ⟨_, _, hdeclarations⟩ := except_bind_ok.mp hdeclarations
        obtain ⟨_, _, hdeclarations⟩ := except_bind_ok.mp hdeclarations
        obtain ⟨_, _, hdeclarations⟩ := except_bind_ok.mp hdeclarations
        obtain ⟨_, _, hdeclarations⟩ := except_bind_ok.mp hdeclarations
        obtain ⟨_, hvalues, hdeclarations⟩ := except_bind_ok.mp hdeclarations
        obtain ⟨found, hmembership, hdeclarations⟩ := except_bind_ok.mp hdeclarations
        obtain ⟨_, hexits, hdeclarations⟩ := except_bind_ok.mp hdeclarations
        obtain rfl := Except.ok.inj hdeclarations
        exact sound_of_passes hvalues hmembership hexits hchecked hdominators huses

end Acceptance

end Nocter.Mir
