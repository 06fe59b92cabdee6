import Nocter.Arm64.Instruction
import Nocter.Library.Loop
import Nocter.Library.Traversal

/-!
# Code of a function

The items and labels of one function. Finishing gives every item its offset. A conditional
branch that does not reach its target becomes an inverted branch over an unconditional
one, which moves the items behind it, so the offsets are computed again until every
branch reaches its target.
-/

namespace Nocter.Arm64

abbrev LabelId := ℕ
abbrev FunctionId := ℕ
abbrev DataId := ℕ

inductive CodeError where
  | unknownLabel (label : LabelId)
  | duplicateLabel (label : LabelId)
  | unboundLabel (label : LabelId)
  | offsetOverflow
  | encoding (failure : EncodingError)
  deriving DecidableEq

inductive CodeItem (P : Type) where
  | instruction (instruction : Instruction P)
  | branch (target : LabelId) (link : Bool)
  | conditionalBranch (target : LabelId) (condition : BranchCondition)
  | functionBranch (target : FunctionId) (link : Bool)
  | functionAddress (target : FunctionId) (destination : Register)
  | dataAddress (target : DataId) (destination : Register)

inductive CodeFixup where
  | functionBranch (offset : ℕ) (target : FunctionId) (link : Bool)
  | functionAddress (offset : ℕ) (target : FunctionId) (destination : Register)
  | dataAddress (offset : ℕ) (target : DataId) (destination : Register)

structure CodeBuilder (P : Type) where
  items : List (CodeItem P) := []
  labels : List (Option ℕ) := []

variable {P : Type}

namespace CodeBuilder

def createLabel (code : CodeBuilder P) : LabelId × CodeBuilder P :=
  (code.labels.length, { code with labels := code.labels ++ [none] })

/-- Binds a label to the next instruction. -/
def bind (code : CodeBuilder P) (label : LabelId) : Except CodeError (CodeBuilder P) :=
  match code.labels[label]? with
  | none => .error (.unknownLabel label)
  | some (some _) => .error (.duplicateLabel label)
  | some none => .ok { code with labels := code.labels.set label (some code.items.length) }

def append (code : CodeBuilder P) (instruction : Instruction P) : CodeBuilder P :=
  { code with items := code.items ++ [.instruction instruction] }

def branch (code : CodeBuilder P) (target : LabelId) (link : Bool) : CodeBuilder P :=
  { code with items := code.items ++ [.branch target link] }

def branchConditional (code : CodeBuilder P) (target : LabelId) (condition : BranchCondition) :
    CodeBuilder P :=
  { code with items := code.items ++ [.conditionalBranch target condition] }

def branchFunction (code : CodeBuilder P) (target : FunctionId) (link : Bool) : CodeBuilder P :=
  { code with items := code.items ++ [.functionBranch target link] }

def loadFunctionAddress (code : CodeBuilder P) (target : FunctionId) (destination : Register) :
    CodeBuilder P :=
  { code with items := code.items ++ [.functionAddress target destination] }

def loadDataAddress (code : CodeBuilder P) (target : DataId) (destination : Register) :
    CodeBuilder P :=
  { code with items := code.items ++ [.dataAddress target destination] }

end CodeBuilder

/-- Final code bytes and resolved label offsets. -/
structure Code where
  bytes : List UInt8
  labelOffsets : List ℕ
  fixups : List CodeFixup
  instructionCount : ℕ

def Code.labelOffset (code : Code) (label : LabelId) : Option ℕ := code.labelOffsets[label]?

def CodeItem.size (expanded : Bool) : CodeItem P → ℕ
  | .conditionalBranch _ _ => if expanded then 8 else 4
  | .functionAddress _ _ => 8
  | .dataAddress _ _ => 8
  | _ => 4

/-- The offset of each item, which comes with whether it is expanded, and that of the end. -/
def itemOffsets : ℕ → List (CodeItem P × Bool) → Except CodeError (List ℕ)
  | offset, [] => .ok [offset]
  | offset, (item, expanded) :: items =>
    if offset + item.size expanded < 2 ^ 64 then
      match itemOffsets (offset + item.size expanded) items with
      | .ok offsets => .ok (offset :: offsets)
      | .error failure => .error failure
    else .error .offsetOverflow

def resolveLabel (offsets : List ℕ) : Option ℕ × LabelId → Except CodeError ℕ
  | (none, label) => .error (.unboundLabel label)
  | (some item, _) =>
    match offsets[item]? with
    | some offset => .ok offset
    | none => .error .offsetOverflow

def resolveLabels (bindings : List (Option ℕ)) (offsets : List ℕ) : Except CodeError (List ℕ) :=
  bindings.zipIdx.mapM (resolveLabel offsets)

def labelOffset (labels : List ℕ) (label : LabelId) : Except CodeError ℕ :=
  match labels[label]? with
  | some offset => .ok offset
  | none => .error (.unknownLabel label)

/-- Offsets are signed before they are subtracted. -/
def displacement (source target : ℕ) : Except CodeError ℤ :=
  if source < 2 ^ 63 ∧ target < 2 ^ 63 then .ok (target - source) else .error .offsetOverflow

section Finish

variable (encodeOther : Instruction P → Except EncodingError ℕ)

/-- The bytes of an instruction. -/
def encodeInstruction (instruction : Instruction P) : Except CodeError (List UInt8) :=
  match encode encodeOther instruction with
  | .ok word => .ok (encodeLe 4 word)
  | .error failure => .error (.encoding failure)

/-- The distance from an offset to a label. -/
def distance (labels : List ℕ) (offset : ℕ) (target : LabelId) : Except CodeError ℤ :=
  match labelOffset labels target with
  | .ok destination => displacement offset destination
  | .error failure => .error failure

/-- Whether an item is expanded from now on, and whether that is new. -/
def relaxItem (labels : List ℕ) (offset : ℕ) (item : CodeItem P) (expanded : Bool) :
    Except CodeError (Bool × Bool) :=
  match item with
  | .conditionalBranch target condition =>
    if expanded then .ok (true, false)
    else
      match distance labels offset target with
      | .error failure => .error failure
      | .ok displacement =>
        match encode encodeOther (.branchConditional displacement condition) with
        | .ok _ => .ok (false, false)
        | .error .branchOutOfRange => .ok (true, true)
        | .error failure => .error (.encoding failure)
  | _ => .ok (expanded, false)

/-- Relaxes the items in order. Their offsets are those of the beginning of the pass. -/
def relaxItems (labels : List ℕ) : List ((CodeItem P × Bool) × ℕ) →
    Except CodeError (List (CodeItem P × Bool) × Bool)
  | [] => .ok ([], false)
  | ((item, expanded), offset) :: items =>
    match relaxItem encodeOther labels offset item expanded with
    | .error failure => .error failure
    | .ok (expanded, changed) =>
      match relaxItems labels items with
      | .error failure => .error failure
      | .ok (relaxed, rest) => .ok ((item, expanded) :: relaxed, changed || rest)

def addressPlaceholder (destination : Register) : Except CodeError (List UInt8) :=
  match encodeInstruction encodeOther (.addressPage destination 0) with
  | .error failure => .error failure
  | .ok page =>
    match encodeInstruction encodeOther (.addSubtractImmediate .bits64 .add false
        (.general destination) (.general destination) 0 false) with
    | .error failure => .error failure
    | .ok offset => .ok (page ++ offset)

/-- A branch from an offset to a label. -/
def encodeBranch (labels : List ℕ) (offset : ℕ) (target : LabelId) (link : Bool) :
    Except CodeError (List UInt8) :=
  match distance labels offset target with
  | .error failure => .error failure
  | .ok displacement => encodeInstruction encodeOther (.branch displacement link)

/-- The bytes of an item. -/
def encodeItem (labels : List ℕ) (item : CodeItem P) (expanded : Bool) (offset : ℕ) :
    Except CodeError (List UInt8) :=
  match item with
  | .instruction instruction => encodeInstruction encodeOther instruction
  | .branch target link => encodeBranch encodeOther labels offset target link
  | .conditionalBranch target condition =>
    if expanded then
      match encodeInstruction encodeOther (.branchConditional 8 condition.invert) with
      | .error failure => .error failure
      | .ok inverted =>
        if offset + 4 < 2 ^ 64 then
          match encodeBranch encodeOther labels (offset + 4) target false with
          | .error failure => .error failure
          | .ok branch => .ok (inverted ++ branch)
        else .error .offsetOverflow
    else
      match distance labels offset target with
      | .error failure => .error failure
      | .ok displacement =>
        encodeInstruction encodeOther (.branchConditional displacement condition)
  | .functionBranch _ link => encodeInstruction encodeOther (.branch 0 link)
  | .functionAddress _ destination => addressPlaceholder encodeOther destination
  | .dataAddress _ destination => addressPlaceholder encodeOther destination

/-- The whole-program reference of an item at an offset. -/
def CodeItem.fixup (offset : ℕ) : CodeItem P → Option CodeFixup
  | .functionBranch target link => some (.functionBranch offset target link)
  | .functionAddress target destination => some (.functionAddress offset target destination)
  | .dataAddress target destination => some (.dataAddress offset target destination)
  | _ => none

def encodeItems (labels : List ℕ) (items : List ((CodeItem P × Bool) × ℕ)) :
    Except CodeError Code :=
  match items.mapM fun item => encodeItem encodeOther labels item.1.1 item.1.2 item.2 with
  | .error failure => .error failure
  | .ok chunks => .ok {
      bytes := chunks.flatten
      labelOffsets := labels
      fixups := items.filterMap fun item => item.1.1.fixup item.2
      instructionCount := chunks.flatten.length / 4 }

/-- One pass of the loop of `finish`. -/
def finishPass (bindings : List (Option ℕ)) (items : List (CodeItem P × Bool)) :
    List (CodeItem P × Bool) ⊕ Except CodeError Code :=
  match itemOffsets 0 items with
  | .error failure => .inr (.error failure)
  | .ok offsets =>
    match resolveLabels bindings offsets with
    | .error failure => .inr (.error failure)
    | .ok labels =>
      match relaxItems encodeOther labels (items.zip offsets) with
      | .error failure => .inr (.error failure)
      | .ok (relaxed, changed) =>
        if changed then .inl relaxed
        else .inr (encodeItems encodeOther labels (relaxed.zip offsets))

def relaxationMeasure (items : List (CodeItem P × Bool)) : ℕ := items.countP fun item => !item.2

variable {encodeOther}

/-- An expanded item stays expanded; a pass that changes something expands an item. -/
theorem relaxItem_ok {labels : List ℕ} {offset : ℕ} {item : CodeItem P}
    {expanded relaxed changed : Bool}
    (h : relaxItem encodeOther labels offset item expanded = .ok (relaxed, changed)) :
    (changed = true ∧ expanded = false ∧ relaxed = true) ∨
      (changed = false ∧ relaxed = expanded) := by
  cases item with
  | conditionalBranch target condition =>
    simp only [relaxItem] at h
    split at h
    · next hexpanded =>
      cases h
      exact Or.inr ⟨rfl, hexpanded.symm⟩
    next hexpanded =>
    rw [Bool.not_eq_true] at hexpanded
    split at h
    · cases h
    split at h
    · cases h
      exact Or.inr ⟨rfl, hexpanded.symm⟩
    · cases h
      exact Or.inl ⟨rfl, hexpanded, rfl⟩
    · cases h
  | _ =>
    cases h
    exact Or.inr ⟨rfl, rfl⟩

theorem relaxItems_ok {labels : List ℕ} {items : List (CodeItem P × Bool)} {offsets : List ℕ}
    {relaxed : List (CodeItem P × Bool)} {changed : Bool} (hlength : items.length ≤ offsets.length)
    (h : relaxItems encodeOther labels (items.zip offsets) = .ok (relaxed, changed)) :
    relaxed.map Prod.fst = items.map Prod.fst ∧
      (changed = true → relaxationMeasure relaxed < relaxationMeasure items) ∧
      relaxationMeasure relaxed ≤ relaxationMeasure items ∧
      (changed = false → relaxed = items) := by
  induction items generalizing offsets relaxed changed with
  | nil =>
    cases h
    exact ⟨rfl, fun h => Bool.noConfusion h, Nat.le_refl _, fun _ => rfl⟩
  | cons entry items ih =>
    obtain ⟨item, expanded⟩ := entry
    cases offsets with
    | nil => cases hlength
    | cons offset offsets =>
      rw [List.zip_cons_cons, relaxItems] at h
      split at h
      · cases h
      next expanded' changed' hitem =>
      split at h
      · cases h
      next rest more hrest =>
      cases h
      obtain ⟨hitems, hless, hle, hsame⟩ := ih (Nat.le_of_succ_le_succ hlength) hrest
      unfold relaxationMeasure at hless hle ⊢
      rw [List.map_cons, List.map_cons, hitems, List.countP_cons, List.countP_cons]
      rcases relaxItem_ok hitem with ⟨rfl, rfl, rfl⟩ | ⟨rfl, rfl⟩
      · rw [if_neg (by simp), if_pos (by simp)]
        exact ⟨rfl, fun _ => by omega, by omega, fun h => Bool.noConfusion h⟩
      · refine ⟨rfl, fun hchanged => ?_, by omega, fun hchanged => ?_⟩
        · rw [Bool.false_or] at hchanged
          have := hless hchanged
          omega
        · rw [Bool.false_or] at hchanged
          rw [hsame hchanged]

theorem itemOffsets_length {offset : ℕ} {items : List (CodeItem P × Bool)} {offsets : List ℕ}
    (h : itemOffsets offset items = .ok offsets) : offsets.length = items.length + 1 := by
  induction items generalizing offset offsets with
  | nil =>
    cases h
    rfl
  | cons entry items ih =>
    obtain ⟨item, expanded⟩ := entry
    rw [itemOffsets] at h
    split at h
    · split at h
      · next rest hrest =>
        cases h
        rw [List.length_cons, List.length_cons, ih hrest]
      · cases h
    · cases h

theorem finishPass_decreases (bindings : List (Option ℕ)) :
    Loop.Decreases (finishPass encodeOther bindings) relaxationMeasure := by
  intro items next h
  unfold finishPass at h
  split at h
  · cases h
  next offsets hoffsets =>
  split at h
  · cases h
  split at h
  · cases h
  next relaxed changed hrelaxed =>
  split at h
  · next hchanged =>
    cases h
    have hlength := itemOffsets_length hoffsets
    exact (relaxItems_ok (by omega) hrelaxed).2.1 hchanged
  · cases h

variable (encodeOther) in
def CodeBuilder.finish (code : CodeBuilder P) : Except CodeError Code :=
  Loop.iterate (finishPass encodeOther code.labels) relaxationMeasure
    (finishPass_decreases code.labels) (code.items.map fun item => (item, false))

end Finish

end Nocter.Arm64
