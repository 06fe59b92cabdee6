import Nocter.Checking.ArithmeticCheckFacts

/-!
# Integer operations at compile time

Constants of every integer type are held in a wide integer. An operation is carried out there
and its result is compared with the limits of the type.
-/

namespace Nocter.ConstantEvaluation

open TwosComplement
open Model (BuiltinType)

structure IntegerSpec where
  signed : Bool
  bits : ℕ
  minimum : ℤ
  maximum : ℤ

def IntegerSpec.contains (spec : IntegerSpec) (value : ℤ) : Bool :=
  decide (value ≥ spec.minimum ∧ value ≤ spec.maximum)

def integerSpec (builtin : BuiltinType) : Option IntegerSpec := do
  let (signed, bits) ← match builtin with
    | .i8 => some (true, 8)
    | .i16 => some (true, 16)
    | .i32 => some (true, 32)
    | .i64 | .isize => some (true, 64)
    | .u8 => some (false, 8)
    | .u16 => some (false, 16)
    | .u32 => some (false, 32)
    | .u64 | .usize => some (false, 64)
    | _ => none
  let (minimum, maximum) : ℤ × ℤ :=
    if signed then (-2 ^ (bits - 1), 2 ^ (bits - 1) - 1) else (0, 2 ^ bits - 1)
  some ⟨signed, bits, minimum, maximum⟩

/-- An integer where it fits the wide type. -/
def wide (v : ℤ) : Option ℤ := checked 128 true v

def checkedDiv (left right : ℤ) : Option ℤ := if right = 0 then none else wide (left.tdiv right)

/-- The only remainder that overflows is that of the minimum of the wide type. -/
def checkedRem (left right : ℤ) : Option ℤ :=
  if right = 0 ∨ (left = minimum 128 true ∧ right = -1) then none else some (left.tmod right)

def castUnsigned (v : ℤ) : BitVec 128 := BitVec.ofInt 128 v

def castSigned (x : BitVec 128) : ℤ := x.toInt

inductive ShiftOperator where
  | shiftLeft
  | shiftRight
  deriving DecidableEq

def shift (left right : ℤ) (operator : ShiftOperator) (spec : IntegerSpec) : Option ℤ :=
  if ¬ InRange 32 false right then none
  else
    let count := right.toNat
    if count ≥ spec.bits then none
    else if operator = .shiftRight then
      some (if spec.signed then castSigned ((castUnsigned left).sshiftRight count)
        else castSigned (castUnsigned left >>> count))
    else
      let mask := 1#128 <<< spec.bits - 1
      let bits := (castUnsigned left <<< count) &&& mask
      if spec.signed ∧ bits &&& (1#128 <<< (spec.bits - 1)) ≠ 0 then
        some (castSigned bits - 2 ^ spec.bits)
      else some (castSigned bits)

inductive ScalarEvaluationFailure where
  | arithmetic
  | invalidType
  deriving DecidableEq

inductive CompileTimeBinaryOperation where
  | add
  | subtract
  | multiply
  | divide
  | remainder
  | shiftLeft
  | shiftRightSigned
  | shiftRightUnsigned
  deriving DecidableEq

/-- The result in the wide type, before it is compared with the limits. -/
def wideResult (operation : CompileTimeBinaryOperation) (spec : IntegerSpec) (left right : ℤ) :
    Except ScalarEvaluationFailure (Option ℤ) :=
  match operation with
  | .add => .ok (wide (left + right))
  | .subtract => .ok (wide (left - right))
  | .multiply => .ok (wide (left * right))
  | .divide => .ok (checkedDiv left right)
  | .remainder => .ok (checkedRem left right)
  | .shiftLeft => .ok (shift left right .shiftLeft spec)
  | .shiftRightSigned =>
    if spec.signed then .ok (shift left right .shiftRight spec) else .error .invalidType
  | .shiftRightUnsigned =>
    if spec.signed then .error .invalidType else .ok (shift left right .shiftRight spec)

/-- The result where it lies within the limits. -/
def IntegerSpec.within (spec : IntegerSpec) (result : Option ℤ) : Except ScalarEvaluationFailure ℤ :=
  match result.filter spec.contains with
  | some value => .ok value
  | none => .error .arithmetic

/-- `binary` at an integer type. -/
def binaryInteger (operation : CompileTimeBinaryOperation) (builtin : BuiltinType)
    (left right : ℤ) : Except ScalarEvaluationFailure ℤ :=
  match integerSpec builtin with
  | none => .error .invalidType
  | some spec => wideResult operation spec left right >>= spec.within

/-- `unary` for the negation of an integer. -/
def negateInteger (builtin : BuiltinType) (value : ℤ) : Except ScalarEvaluationFailure ℤ :=
  match (integerSpec builtin).filter IntegerSpec.signed with
  | none => .error .invalidType
  | some spec => spec.within (wide (-value))

/-- `convert` from an integer to an integer type. -/
def convertInteger (target : BuiltinType) (value : ℤ) : Except ScalarEvaluationFailure ℤ :=
  match (integerSpec target).filter fun spec => spec.contains value with
  | none => .error .arithmetic
  | some _ => .ok value

end Nocter.ConstantEvaluation

/-!
# Constant operations and run-time operations

An operation on constants is compared with the same operation at run time and with the trap
check that the checker selects for it.
-/

namespace Nocter.ConstantEvaluation

open TwosComplement Checking
open Model (IntegerType losslessBuiltinNumericConversion)
open Arm64 (IntegerOperation exactly evaluate DivisionFits CountFits)

def specOf (ty : IntegerType) : IntegerSpec :=
  ⟨ty.signed, ty.bits, minimum ty.bits ty.signed, maximum ty.bits ty.signed⟩

theorem integerSpec_eq (ty : IntegerType) : integerSpec ty.builtin = some (specOf ty) := by
  obtain ⟨builtin, bits, signed, numeric⟩ := ty
  cases builtin <;> first | cases numeric; rfl | cases numeric

theorem contains_iff {ty : IntegerType} {v : ℤ} :
    (specOf ty).contains v = true ↔ InRange ty.bits ty.signed v := by
  rw [IntegerSpec.contains, decide_eq_true_iff]
  rfl

/-- The outcome of a constant operation for a result of the operation. -/
def outcome : Option ℤ → Except ScalarEvaluationFailure ℤ
  | some value => .ok value
  | none => .error .arithmetic

section Evaluation

variable {ty : IntegerType} {left right : ℤ}

theorem within_some {v : ℤ} (h : InRange ty.bits ty.signed v) : (specOf ty).within (some v) = .ok v := by
  have hcontains := contains_iff.mpr h
  rw [IntegerSpec.within, Option.filter_some, if_pos hcontains]

/-- The wide type decides for no result: those that it does not hold are out of range. -/
theorem within_wide (v : ℤ) :
    (specOf ty).within (wide v) = outcome (exactly ty.bits ty.signed v) := by
  by_cases hrange : InRange ty.bits ty.signed v
  · have hwide : InRange 128 true v := hrange.toSigned ty.bits_lt
    rw [wide, checked_of_inRange hwide, within_some hrange, exactly, if_pos hrange]
    rfl
  · have hout : ¬ (specOf ty).contains v = true := fun h => hrange (contains_iff.mp h)
    rw [exactly, if_neg hrange, wide, checked]
    split_ifs
    · rw [IntegerSpec.within, Option.filter_some, if_neg hout]
      rfl
    · rfl

theorem within_checkedDiv (hl : InRange ty.bits ty.signed left) (hr : InRange ty.bits ty.signed right) :
    (specOf ty).within (checkedDiv left right) = outcome (evaluate ty.bits ty.signed .divide left right) := by
  rw [checkedDiv]
  by_cases hzero : right = 0
  · have hfits : ¬ DivisionFits ty.bits ty.signed left right := fun h => h.1 hzero
    rw [if_pos hzero, evaluate, if_neg hfits]
    rfl
  · rw [if_neg hzero, within_wide, evaluate]
    by_cases hover : ty.signed = true ∧ left = minimum ty.bits true ∧ right = -1
    · have hfits : ¬ DivisionFits ty.bits ty.signed left right := fun h => h.2 hover
      have hout : ¬ InRange ty.bits ty.signed (left.tdiv right) := by
        obtain ⟨hsigned, rfl, rfl⟩ := hover
        rw [hsigned, Int.tdiv_neg, Int.tdiv_one]
        intro hrange
        have hle : - -(2 : ℤ) ^ (ty.bits - 1) ≤ 2 ^ (ty.bits - 1) - 1 := hrange.2
        omega
      rw [if_neg hfits, exactly, if_neg hout]
    · have hfits : DivisionFits ty.bits ty.signed left right := ⟨hzero, hover⟩
      rw [if_pos hfits, exactly, if_pos (hl.tdiv hr hover)]

/-- The remainder is computed also where the division overflows. -/
theorem within_checkedRem (hl : InRange ty.bits ty.signed left) :
    (specOf ty).within (checkedRem left right) =
      outcome (if right = 0 then none else some (left.tmod right)) := by
  rw [checkedRem]
  have hminimum : left ≠ minimum 128 true := by
    rintro rfl
    have hpow : (2 : ℤ) ^ ty.bits ≤ 2 ^ (128 - 1) :=
      pow_le_pow_right₀ (by decide) (Nat.le_sub_one_of_lt ty.bits_lt)
    have hdouble := two_pow_double ty.bits_pos
    have hpos : (0 : ℤ) < 2 ^ (ty.bits - 1) := by positivity
    have hrange : InRange ty.bits ty.signed (-2 ^ (128 - 1)) := hl
    cases hsigned : ty.signed with
    | true =>
      rw [hsigned] at hrange
      have hle : -(2 : ℤ) ^ (ty.bits - 1) ≤ -2 ^ (128 - 1) := hrange.1
      omega
    | false =>
      rw [hsigned] at hrange
      have hle : (0 : ℤ) ≤ -2 ^ (128 - 1) := hrange.1
      omega
  by_cases hzero : right = 0
  · rw [if_pos (Or.inl hzero), if_pos hzero]
    rfl
  · rw [if_neg (by tauto), if_neg hzero, within_some (hl.tmod right)]
    rfl

/-- Counts that fit the width fit the type that they are converted to. -/
theorem shift_of_count {operator : ShiftOperator} {result : ℤ} (hcount : CountFits ty.bits right)
    (h : result = if operator = .shiftRight then
        (if ty.signed then castSigned ((castUnsigned left).sshiftRight right.toNat)
          else castSigned (castUnsigned left >>> right.toNat))
      else wrap ty.bits ty.signed (left * 2 ^ right.toNat)) :
    shift left right operator (specOf ty) = some result := by
  have hbits := ty.bits_eq
  have hlt : right < ty.bits := hcount.2
  have hnonneg : 0 ≤ right := hcount.1
  have hrange : ¬ ¬ InRange 32 false right := by
    rw [not_not]
    change 0 ≤ right ∧ right ≤ 2 ^ 32 - 1
    omega
  have hless : ¬ right.toNat ≥ (specOf ty).bits := by
    change ¬ right.toNat ≥ ty.bits
    omega
  rw [shift, if_neg hrange]
  dsimp only
  rw [if_neg hless, h]
  by_cases hoperator : operator = .shiftRight
  · rw [if_pos hoperator, if_pos hoperator]
    rfl
  · rw [if_neg hoperator, if_neg hoperator]
    have hlow : (castUnsigned left <<< right.toNat) &&& (1#128 <<< ty.bits - 1) =
        BitVec.ofInt 128 (wrap ty.bits false (left * 2 ^ right.toNat)) := by
      have hextend := @extend_ofInt 128 ty.bits false (left * 2 ^ right.toNat) ty.bits_lt.le
      rw [castUnsigned, shiftLeft_ofInt, and_low_mask _ ty.bits_lt, ← hextend]
      rfl
    have hbit : (BitVec.ofInt 128 (wrap ty.bits false (left * 2 ^ right.toNat))).getLsbD
        (ty.bits - 1) = (BitVec.ofInt ty.bits (left * 2 ^ right.toNat)).getLsbD (ty.bits - 1) := by
      rw [← hlow, castUnsigned, shiftLeft_ofInt, and_low_mask _ ty.bits_lt,
        setWidth_ofInt _ ty.bits_lt.le, BitVec.getLsbD_setWidth, decide_eq_true (by omega),
        Bool.true_and]
    have hcast : castSigned (BitVec.ofInt 128 (wrap ty.bits false (left * 2 ^ right.toNat))) =
        wrap ty.bits false (left * 2 ^ right.toNat) :=
      value_ofInt (by decide) ((wrap_inRange false _).toSigned ty.bits_lt)
    change (if (ty.signed = true ∧ (castUnsigned left <<< right.toNat &&& (1#128 <<< ty.bits - 1)) &&&
        (1#128 <<< (ty.bits - 1)) ≠ 0) then some (castSigned (castUnsigned left <<< right.toNat &&&
          (1#128 <<< ty.bits - 1)) - 2 ^ ty.bits)
      else some (castSigned (castUnsigned left <<< right.toNat &&& (1#128 <<< ty.bits - 1)))) = _
    have hlast : ty.bits - 1 < 128 := by omega
    rw [hlow, hcast]
    have hsign := and_bit_ne_zero (BitVec.ofInt 128 (wrap ty.bits false (left * 2 ^ right.toNat))) hlast
    rw [hbit] at hsign
    cases ty.signed with
    | false => rfl
    | true =>
      rw [wrap_true_eq, apply_ite some]
      exact if_congr ((and_iff_right rfl).trans hsign) rfl rfl

theorem shift_of_not_count {operator : ShiftOperator} (hcount : ¬ CountFits ty.bits right) :
    shift left right operator (specOf ty) = none := by
  rw [shift]
  by_cases hrange : ¬ InRange 32 false right
  · exact if_pos hrange
  · rw [if_neg hrange]
    rw [not_not] at hrange
    have hnonneg : 0 ≤ right := hrange.1
    have hmany : right.toNat ≥ ty.bits := by
      by_contra hless
      exact hcount ⟨hnonneg, by omega⟩
    exact if_pos hmany

theorem within_shiftLeft (left right : ℤ) : (specOf ty).within (shift left right .shiftLeft (specOf ty)) =
    outcome (evaluate ty.bits ty.signed .shiftLeft left right) := by
  rw [evaluate]
  by_cases hcount : CountFits ty.bits right
  · rw [if_pos hcount, shift_of_count hcount (if_neg (by decide)).symm,
      within_some (wrap_inRange _ _)]
    rfl
  · rw [if_neg hcount, shift_of_not_count hcount]
    rfl

theorem within_shiftRight (hl : InRange ty.bits ty.signed left) (right : ℤ) :
    (specOf ty).within (shift left right .shiftRight (specOf ty)) =
      outcome (evaluate ty.bits ty.signed .shiftRight left right) := by
  have hresult := hl.shiftRight right.toNat
  rw [evaluate]
  by_cases hcount : CountFits ty.bits right
  · have hshifted : left / 2 ^ right.toNat =
        if ty.signed then castSigned ((castUnsigned left).sshiftRight right.toNat)
          else castSigned (castUnsigned left >>> right.toNat) := by
      cases hsigned : ty.signed with
      | true =>
        have hwide : castSigned (castUnsigned left) = left :=
          value_ofInt (by decide) (hl.toSigned ty.bits_lt)
        have hshift := value_sshiftRight (castUnsigned left) right.toNat
        exact (congrArg (· / 2 ^ right.toNat) hwide).symm.trans hshift.symm
      | false =>
        rw [hsigned] at hl hresult
        have hshift : castUnsigned left >>> right.toNat =
            BitVec.ofInt 128 (left / 2 ^ right.toNat) := by
          refine @value_injective 128 false _ _ ?_
          rw [value_ushiftRight, castUnsigned, value_ofInt (by decide) (hl.mono ty.bits_lt.le),
            value_ofInt (by decide) (hresult.mono ty.bits_lt.le)]
        rw [if_neg Bool.false_ne_true, hshift]
        exact (value_ofInt (by decide) (hresult.toSigned ty.bits_lt)).symm
    rw [if_pos hcount, shift_of_count hcount (hshifted.trans (if_pos rfl).symm), within_some hresult]
    rfl
  · rw [if_neg hcount, shift_of_not_count hcount]
    rfl

end Evaluation

/-- The operation on constants that is evaluated for operands of a type. -/
def compileTimeOf (signed : Bool) : IntegerOperation → CompileTimeBinaryOperation
  | .add => .add
  | .subtract => .subtract
  | .multiply => .multiply
  | .divide => .divide
  | .remainder => .remainder
  | .shiftLeft => .shiftLeft
  | .shiftRight => if signed then .shiftRightSigned else .shiftRightUnsigned

/-- The remainder of the minimum of a signed type by minus one. -/
def RemainderOverflow (ty : IntegerType) (operation : IntegerOperation) (left right : ℤ) : Prop :=
  operation = .remainder ∧ ty.signed = true ∧ left = minimum ty.bits true ∧ right = -1

section Binary

variable {ty : IntegerType} {operation : IntegerOperation} {left right : ℤ}

theorem binaryInteger_eq (hl : InRange ty.bits ty.signed left) (hr : InRange ty.bits ty.signed right)
    (hover : ¬ RemainderOverflow ty operation left right) :
    binaryInteger (compileTimeOf ty.signed operation) ty.builtin left right =
      outcome (evaluate ty.bits ty.signed operation left right) := by
  rw [binaryInteger, integerSpec_eq]
  dsimp only
  cases operation with
  | add => exact within_wide (left + right)
  | subtract => exact within_wide (left - right)
  | multiply => exact within_wide (left * right)
  | divide => exact within_checkedDiv hl hr
  | remainder =>
    refine (within_checkedRem hl).trans (congrArg outcome ?_)
    rw [evaluate]
    by_cases hzero : right = 0
    · rw [if_pos hzero, if_neg fun h => h.1 hzero]
    · rw [if_neg hzero, if_pos ⟨hzero, fun h => hover ⟨rfl, h⟩⟩]
  | shiftLeft => exact within_shiftLeft left right
  | shiftRight =>
    have hselect : wideResult (compileTimeOf ty.signed .shiftRight) (specOf ty) left right =
        .ok (shift left right .shiftRight (specOf ty)) := by
      cases hsigned : ty.signed with
      | true => exact if_pos hsigned
      | false => exact if_neg (ne_true_of_eq_false hsigned)
    rw [hselect]
    exact within_shiftRight hl right

/-- A remainder that overflows at run time is a constant. -/
theorem binaryInteger_remainder (hl : InRange ty.bits ty.signed left) (hright : right = -1) :
    binaryInteger (compileTimeOf ty.signed .remainder) ty.builtin left right = .ok 0 := by
  rw [binaryInteger, integerSpec_eq]
  refine (within_checkedRem hl).trans ?_
  rw [if_neg (by omega), hright, Int.tmod_neg, Int.tmod_one]
  rfl

end Binary

/-- An integer operation of the language with its operands. -/
inductive ScalarOperation where
  | binary (operation : IntegerOperation) (ty : IntegerType) (left right : ℤ)
  | negate (ty : IntegerType) (operand : ℤ)
  | convert (source target : IntegerType) (operand : ℤ)

namespace ScalarOperation

/-- The operands are integers of the type, and the operation exists for it. -/
def WellTyped : ScalarOperation → Prop
  | binary _ ty left right => InRange ty.bits ty.signed left ∧ InRange ty.bits ty.signed right
  | negate ty operand => ty.signed = true ∧ InRange ty.bits ty.signed operand
  | convert source target operand =>
    losslessBuiltinNumericConversion source.builtin target.builtin = true ∧
      InRange source.bits source.signed operand

def compileTime : ScalarOperation → Except ScalarEvaluationFailure ℤ
  | binary operation ty left right =>
    binaryInteger (compileTimeOf ty.signed operation) ty.builtin left right
  | negate ty operand => negateInteger ty.builtin operand
  | convert _ target operand => convertInteger target.builtin operand

/-- The result at run time, where the operation does not trap. A conversion extends the
operand and never traps. -/
def runTime : ScalarOperation → Option ℤ
  | binary operation ty left right => evaluate ty.bits ty.signed operation left right
  | negate ty operand => exactly ty.bits ty.signed (-operand)
  | convert _ target operand => some (wrap target.bits target.signed operand)

/-- The check that is selected from what is known of the operands. -/
def check : ScalarOperation → Operand → Operand → ArithmeticTrapCheck
  | binary operation ty _ _, left, right =>
    arithmeticCheck (primitiveOf ty.signed operation) left right ty.builtin
  | negate ty _, operand, _ => negationCheck operand ty.builtin
  | convert _ _ _, _, _ => .notRequired

/-- What is known of the operands holds of them. -/
def Known : ScalarOperation → Operand → Operand → Prop
  | binary _ _ left right, knownLeft, knownRight => knownLeft.Holds left ∧ knownRight.Holds right
  | negate _ operand, known, _ => known.Holds operand
  | convert _ _ _, _, _ => True

/-- The check of the operation on constants. -/
def constantCheck (operation : ScalarOperation) : ArithmeticTrapCheck :=
  match operation with
  | binary _ _ left right => operation.check (.constant left) (.constant right)
  | negate _ operand => operation.check (.constant operand) (.constant operand)
  | convert _ _ operand => operation.check (.constant operand) (.constant operand)

/-- The operation is the remainder of the minimum of a signed type by minus one. -/
def Overflows : ScalarOperation → Prop
  | binary operation ty left right => RemainderOverflow ty operation left right
  | negate _ _ => False
  | convert _ _ _ => False

/-- The evaluator, the run time and the checker treat the operation alike. -/
structure Agrees (operation : ScalarOperation) : Prop where
  value : operation.compileTime = outcome operation.runTime
  proven : ∀ left right, operation.Known left right →
    (operation.check left right).Sound (∃ value, operation.compileTime = .ok value)
  constants : operation.constantCheck.Unchecked ↔ ∃ value, operation.compileTime = .ok value

theorem outcome_eq_ok {result : Option ℤ} : (∃ value, outcome result = .ok value) ↔ result ≠ none := by
  cases result with
  | none => exact iff_of_false (by rintro ⟨_, ⟨⟩⟩) fun h => h rfl
  | some value => exact iff_of_true ⟨value, rfl⟩ (Option.some_ne_none value)

theorem negateInteger_eq {ty : IntegerType} (hsigned : ty.signed = true) (operand : ℤ) :
    negateInteger ty.builtin operand = outcome (exactly ty.bits ty.signed (-operand)) := by
  rw [negateInteger, integerSpec_eq, Option.filter_some,
    if_pos (show (specOf ty).signed = true from hsigned)]
  exact within_wide (-operand)

/-- A lossless conversion keeps every value of its source type. -/
theorem lossless_inRange {source target : IntegerType}
    (h : losslessBuiltinNumericConversion source.builtin target.builtin = true) {v : ℤ}
    (hv : InRange source.bits source.signed v) : InRange target.bits target.signed v := by
  rw [losslessBuiltinNumericConversion, source.numeric, target.numeric] at h
  cases hsource : source.signed with
  | false =>
    rw [hsource] at h hv
    cases htarget : target.signed with
    | false =>
      rw [htarget] at h
      exact hv.mono (of_decide_eq_true h)
    | true =>
      rw [htarget] at h
      exact hv.toSigned (of_decide_eq_true h)
  | true =>
    rw [hsource] at h hv
    cases htarget : target.signed with
    | false =>
      rw [htarget] at h
      cases h
    | true =>
      rw [htarget] at h
      exact hv.mono (of_decide_eq_true h)

theorem convertInteger_eq {ty : IntegerType} {v : ℤ} (h : InRange ty.bits ty.signed v) :
    convertInteger ty.builtin v = .ok v := by
  rw [convertInteger, integerSpec_eq, Option.filter_some, if_pos (contains_iff.mpr h)]

theorem compileTime_eq {operation : ScalarOperation} (h : operation.WellTyped)
    (hover : ¬ operation.Overflows) : operation.compileTime = outcome operation.runTime := by
  cases operation with
  | binary operation ty left right => exact binaryInteger_eq h.1 h.2 hover
  | negate ty operand => exact negateInteger_eq h.1 operand
  | convert source target operand =>
    have hrange := lossless_inRange h.1 h.2
    refine (convertInteger_eq hrange).trans ?_
    rw [runTime, wrap_of_inRange target.bits_pos hrange]
    rfl

theorem check_sound {operation : ScalarOperation} (h : operation.WellTyped) {left right : Operand}
    (hknown : operation.Known left right) :
    (operation.check left right).Sound (operation.runTime ≠ none) := by
  cases operation with
  | binary operation ty a b => exact arithmeticCheck_sound operation hknown.1 h.1 hknown.2 h.2
  | negate ty operand => exact negationCheck_sound h.1 hknown h.2
  | convert source target operand => exact .notRequired (Option.some_ne_none _)

theorem known_constants (operation : ScalarOperation) : ∃ left right, operation.Known left right ∧
      operation.constantCheck = operation.check left right := by
  cases operation with
  | binary operation ty a b => exact ⟨.constant a, .constant b, ⟨rfl, rfl⟩, rfl⟩
  | negate ty operand => exact ⟨.constant operand, .constant operand, rfl, rfl⟩
  | convert source target operand => exact ⟨.constant operand, .constant operand, trivial, rfl⟩

/-- Constants need no check exactly where the operation has a result. -/
theorem constantCheck_iff {operation : ScalarOperation} (h : operation.WellTyped) :
    operation.constantCheck.Unchecked ↔ operation.runTime ≠ none := by
  constructor
  · intro hcheck
    obtain ⟨left, right, hknown, heq⟩ := operation.known_constants
    rw [heq] at hcheck
    exact (check_sound h hknown).safe hcheck
  · intro hresult
    cases operation with
    | binary operation ty a b => exact Or.inl (arithmeticCheck_constants h.1 h.2 hresult)
    | negate ty operand => exact Or.inl (negationCheck_constant h.1 h.2 hresult)
    | convert source target operand => exact Or.inr rfl

/-- The evaluator agrees with the run time and the checker on every operation but the remainder
of a minimum by minus one. -/
theorem scalar_operations_agree_iff {operation : ScalarOperation} (h : operation.WellTyped) :
    operation.Agrees ↔ ¬ operation.Overflows := by
  constructor
  · intro hagrees hover
    cases operation with
    | binary operation ty left right =>
      obtain ⟨rfl, hsigned, hleft, hright⟩ := hover
      have hfits : ¬ DivisionFits ty.bits ty.signed left right := fun h => h.2 ⟨hsigned, hleft, hright⟩
      have hzero := (binaryInteger_remainder h.1 hright).symm.trans hagrees.value
      rw [runTime, evaluate, if_neg hfits] at hzero
      cases hzero
    | negate ty operand => exact hover
    | convert source target operand => exact hover
  · intro hover
    have hvalue := compileTime_eq h hover
    have hresult : (∃ value, operation.compileTime = .ok value) ↔ operation.runTime ≠ none := by
      rw [hvalue]
      exact outcome_eq_ok
    refine ⟨hvalue, fun left right hknown => ?_, ?_⟩
    · rw [hresult]
      exact check_sound h hknown
    · rw [hresult]
      exact constantCheck_iff h

theorem negation_of_largest_agrees : (negate ⟨.i64, 64, true, rfl⟩ (2 ^ 63 - 1)).Agrees :=
  (@scalar_operations_agree_iff (negate ⟨.i64, 64, true, rfl⟩ (2 ^ 63 - 1))
    ⟨rfl, by decide⟩).mpr id

/-- The remainder of the least `i8` by minus one is zero as a constant, and traps at run time. -/
theorem remainder_of_minimum_disagrees : ∃ operation : ScalarOperation,
    operation.WellTyped ∧ operation.compileTime = .ok 0 ∧ operation.runTime = none ∧
      operation.constantCheck = .provenTrap ∧ ¬ operation.Agrees := by
  refine ⟨binary .remainder ⟨.i8, 8, true, rfl⟩ (-128) (-1), ⟨by decide, by decide⟩, by decide,
    by decide, by decide, fun hagrees => ?_⟩
  exact absurd hagrees.value (by decide)

end ScalarOperation

end Nocter.ConstantEvaluation
