import Mathlib.Data.List.Lex
import Nocter.Library.FiniteMap

/-!
# Ownership flow state

The flow state of named storage is stored sparsely: a path without an explicit state takes
that of its nearest explicit ancestor. Moving or replacing a path discards the more specific
facts below it, and a join gives an explicit state to every path that an incoming state
names below a root of the entry.
-/

namespace Nocter.Ownership

inductive PlaceRoot where
  | parameter (id : ℕ)
  | localBinding (id : ℕ)
  | capture (id : ℕ)
  | static (id : ℕ)
  | value (id : ℕ)
deriving DecidableEq, Repr

inductive MoveProjection where
  | field (id : ℕ)
  | tupleElement (index : ℕ)
deriving DecidableEq, Repr

structure MovePath where
  rootIdentity : PlaceRoot
  projections : List MoveProjection
deriving DecidableEq, Repr

inductive TemporaryIdentity where
  | value (node : ℕ)
  | interpolationInProgress (node : ℕ)
  | patternResidual (node : ℕ)
  | patternUnmatched (node : ℕ)
deriving DecidableEq, Repr

section Order

def PlaceRoot.words : PlaceRoot → List ℕ
  | .parameter id => [0, id]
  | .localBinding id => [1, id]
  | .capture id => [2, id]
  | .static id => [3, id]
  | .value id => [4, id]

def MoveProjection.words : MoveProjection → List ℕ
  | .field id => [0, id]
  | .tupleElement index => [1, index]

/-- The discriminants and payloads of a path, whose order is the derived one. -/
def MovePath.words (path : MovePath) : List ℕ :=
  path.rootIdentity.words ++ path.projections.flatMap MoveProjection.words

theorem PlaceRoot.words_append {left right : PlaceRoot} {xs ys : List ℕ}
    (h : left.words ++ xs = right.words ++ ys) : left = right ∧ xs = ys := by
  cases left <;> cases right <;> simp_all [PlaceRoot.words]

theorem MoveProjection.words_append {left right : MoveProjection} {xs ys : List ℕ}
    (h : left.words ++ xs = right.words ++ ys) : left = right ∧ xs = ys := by
  cases left <;> cases right <;> simp_all [MoveProjection.words]

theorem MoveProjection.flatMap_words_injective :
    Function.Injective fun projections : List MoveProjection => projections.flatMap words := by
  intro left
  induction left with
  | nil =>
    intro right h
    cases right with
    | nil => rfl
    | cons projection rest => cases projection <;> simp [words] at h
  | cons projection rest ih =>
    intro right h
    cases right with
    | nil => cases projection <;> simp [words] at h
    | cons other others =>
      simp only [List.flatMap_cons] at h
      obtain ⟨rfl, hrest⟩ := words_append h
      rw [ih hrest]

theorem MovePath.words_injective : Function.Injective MovePath.words := by
  rintro ⟨left, xs⟩ ⟨right, ys⟩ h
  obtain ⟨hroot, hrest⟩ := PlaceRoot.words_append h
  exact congrArg₂ MovePath.mk hroot (MoveProjection.flatMap_words_injective hrest)

instance : LinearOrder MovePath := LinearOrder.lift' MovePath.words MovePath.words_injective

end Order

namespace MovePath

def root (root : PlaceRoot) : MovePath := ⟨root, []⟩

def project (path : MovePath) (projection : MoveProjection) : MovePath :=
  { path with projections := path.projections ++ [projection] }

def field (path : MovePath) (field : ℕ) : MovePath := path.project (.field field)

def tupleElement (path : MovePath) (index : ℕ) : MovePath := path.project (.tupleElement index)

def isPrefixOf (path another : MovePath) : Prop :=
  path.rootIdentity = another.rootIdentity ∧
    path.projections.length ≤ another.projections.length ∧
    path.projections <+: another.projections

instance (path another : MovePath) : Decidable (path.isPrefixOf another) :=
  inferInstanceAs (Decidable (_ ∧ _ ∧ _))

def parent (path : MovePath) : Option MovePath :=
  if path.projections = [] then none
  else some { path with projections := path.projections.dropLast }

end MovePath

inductive InitializationState where
  | initialized
  | uninitialized
  | maybeInitialized
deriving DecidableEq, Repr

def InitializationState.join (self another : InitializationState) : InitializationState :=
  if self = another then self else .maybeInitialized

inductive OwnershipStateError where
  | duplicatePath (path : MovePath)
  | unknownPath (path : MovePath)
  | notInitialized (path : MovePath) (state : InitializationState)
  | unavailableAssignmentParent (path : MovePath) (state : InitializationState)
  | duplicateTemporary (temporary : TemporaryIdentity)
  | unavailableTemporary (temporary : TemporaryIdentity)
deriving DecidableEq, Repr

/-- Flow state for named storage and evaluated owned temporaries. -/
structure OwnershipState where
  paths : FiniteMap MovePath InitializationState
  temporaries : FiniteMap TemporaryIdentity InitializationState

namespace OwnershipState

def default : OwnershipState := ⟨.empty, .empty⟩

/-- The explicit state of the path or else of its nearest explicit ancestor. -/
def nearest (self : OwnershipState) (candidate : MovePath) : Option InitializationState :=
  match self.paths.get? candidate with
  | some state => some state
  | none =>
    if candidate.projections = [] then none
    else nearest self { candidate with projections := candidate.projections.dropLast }
termination_by candidate.projections.length
decreasing_by
  rw [List.length_dropLast]
  have := List.length_pos_iff.mpr ‹_›
  omega

def stateAt (self : OwnershipState) (path : MovePath) :
    Except OwnershipStateError InitializationState :=
  match self.nearest path with
  | some state => .ok state
  | none => .error (.unknownPath path)

def declareInitialized (self : OwnershipState) (path : MovePath) :
    Except OwnershipStateError OwnershipState :=
  if (self.paths.get? path).isSome then .error (.duplicatePath path)
  else .ok { self with paths := self.paths.insert path .initialized }

/-- The first explicit state below the path that is not initialized. -/
def partialDescendant (self : OwnershipState) (path : MovePath) : Option InitializationState :=
  let descendants := self.paths.keysWhere fun candidate =>
    path ≠ candidate ∧ path.isPrefixOf candidate
  (descendants.filterMap self.paths.get?).find? (· ≠ .initialized)

def requireInitialized (self : OwnershipState) (path : MovePath) :
    Except OwnershipStateError Unit := do
  let state ← self.stateAt path
  if state ≠ .initialized then throw (.notInitialized path state)
  match self.partialDescendant path with
  | some state => throw (.notInitialized path state)
  | none => pure ()

/-- The paths without those strictly below the path. -/
def retainOutside (self : OwnershipState) (path : MovePath) :
    FiniteMap MovePath InitializationState :=
  self.paths.retain fun candidate => candidate = path ∨ ¬ path.isPrefixOf candidate

def moveOut (self : OwnershipState) (path : MovePath) :
    Except OwnershipStateError OwnershipState := do
  self.requireInitialized path
  pure { self with paths := (self.retainOutside path).insert path .uninitialized }

/-- The loop of an assignment over the proper prefixes of its path. -/
def requireParents (self : OwnershipState) (before : MovePath) :
    List MoveProjection → Except OwnershipStateError Unit
  | [] => .ok ()
  | projection :: projections => do
    let state ← self.stateAt before
    if state ≠ .initialized then throw (.unavailableAssignmentParent before state)
    self.requireParents (before.project projection) projections

/-- Replaces one writable owned path after its right-hand side has completed. -/
def assign (self : OwnershipState) (path : MovePath) :
    Except OwnershipStateError OwnershipState := do
  self.requireParents (.root path.rootIdentity) path.projections
  let retained := self.retainOutside path
  pure { self with
    paths := if (self.paths.get? path).isSome then retained.insert path .initialized else retained }

def joinStateAt (path : MovePath) (state : InitializationState) (incoming : OwnershipState) :
    Except OwnershipStateError InitializationState := do
  return state.join (← incoming.stateAt path)

/-- The joined state of a path over the incoming states. -/
def joinedAt (path : MovePath) (first : OwnershipState) (rest : List OwnershipState) :
    Except OwnershipStateError InitializationState := do
  let state ← first.stateAt path
  rest.foldlM (joinStateAt path) state

def temporaryInitialization (self : OwnershipState) (temporary : TemporaryIdentity) :
    InitializationState :=
  (self.temporaries.get? temporary).getD .uninitialized

def roots (self : OwnershipState) : Finset PlaceRoot := self.paths.keys.image MovePath.rootIdentity

/-- The paths of the entry, and those of the incoming states below its roots. -/
def joinedPaths (self : OwnershipState) (incoming : List OwnershipState) : Finset MovePath :=
  incoming.foldr
    (fun state paths =>
      state.paths.keys.filter (fun path => path.rootIdentity ∈ self.roots) ∪ paths)
    self.paths.keys

def temporaryIds (incoming : List OwnershipState) : Finset TemporaryIdentity :=
  incoming.foldr (fun state ids => state.temporaries.keys ∪ ids) ∅

def joinedTemporary (first : OwnershipState) (rest : List OwnershipState)
    (temporary : TemporaryIdentity) : InitializationState :=
  (rest.map (·.temporaryInitialization temporary)).foldl InitializationState.join
    (first.temporaryInitialization temporary)

def joinedTemporaries (first : OwnershipState) (rest : List OwnershipState) :
    FiniteMap TemporaryIdentity InitializationState :=
  .ofKeys (temporaryIds (first :: rest)) fun temporary =>
    let joined := joinedTemporary first rest temporary
    if joined ≠ .uninitialized then some joined else none

def joinReachable (self : OwnershipState) :
    List OwnershipState → Except OwnershipStateError OwnershipState
  | [] => .ok self
  | first :: rest => do
    let paths := (self.joinedPaths (first :: rest)).sort (· ≤ ·)
    let joined ← FiniteMap.collect (fun path => joinedAt path first rest) paths
    pure ⟨joined, joinedTemporaries first rest⟩

def declareTemporary (self : OwnershipState) (temporary : TemporaryIdentity) :
    Except OwnershipStateError OwnershipState :=
  if (self.temporaries.get? temporary).isSome then .error (.duplicateTemporary temporary)
  else .ok { self with temporaries := self.temporaries.insert temporary .initialized }

def consumeTemporary (self : OwnershipState) (temporary : TemporaryIdentity) :
    Except OwnershipStateError OwnershipState :=
  match self.temporaries.get? temporary with
  | some .initialized => .ok { self with temporaries := self.temporaries.erase temporary }
  | some .uninitialized | some .maybeInitialized | none => .error (.unavailableTemporary temporary)

def forgetTemporariesExcept (self : OwnershipState) (retained : List TemporaryIdentity) :
    OwnershipState :=
  { self with temporaries := self.temporaries.retain (· ∈ retained) }

def forgetRoot (self : OwnershipState) (root : PlaceRoot) : OwnershipState :=
  { self with paths := self.paths.retain (·.rootIdentity ≠ root) }

end OwnershipState

end Nocter.Ownership
