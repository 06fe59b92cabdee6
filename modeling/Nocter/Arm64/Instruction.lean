import Nocter.Library.Word

/-!
# Instructions

The instructions of checked arithmetic and of control flow, the words of the branches and
what a processor does with such a word.
-/

namespace Nocter.Arm64

/-- One encodable general-purpose register. Register 31 is the zero register or the stack
pointer. -/
structure Register where
  number : Fin 31
  deriving DecidableEq

inductive DataRegister where
  | general (register : Register)
  | zero
  deriving DecidableEq

inductive BaseRegister where
  | general (register : Register)
  | stackPointer
  deriving DecidableEq

inductive AddSubtractDestination where
  | general (register : Register)
  | stackPointer
  | zero
  deriving DecidableEq

inductive DataSize where
  | bits32
  | bits64
  deriving DecidableEq

inductive AddSubtract where
  | add
  | subtract
  deriving DecidableEq

inductive MoveWide where
  | zero
  | keep
  deriving DecidableEq

inductive Shift where
  | left
  | rightLogical
  | rightArithmetic
  | rotateRight
  deriving DecidableEq

inductive BranchCondition where
  | equal
  | notEqual
  | carrySet
  | carryClear
  | minus
  | plus
  | overflow
  | noOverflow
  | unsignedHigher
  | unsignedLowerOrSame
  | signedGreaterOrEqual
  | signedLess
  | signedGreater
  | signedLessOrEqual
  deriving DecidableEq

def BranchCondition.invert : BranchCondition → BranchCondition
  | .equal => .notEqual
  | .notEqual => .equal
  | .carrySet => .carryClear
  | .carryClear => .carrySet
  | .minus => .plus
  | .plus => .minus
  | .overflow => .noOverflow
  | .noOverflow => .overflow
  | .unsignedHigher => .unsignedLowerOrSame
  | .unsignedLowerOrSame => .unsignedHigher
  | .signedGreaterOrEqual => .signedLess
  | .signedLess => .signedGreaterOrEqual
  | .signedGreater => .signedLessOrEqual
  | .signedLessOrEqual => .signedGreater

def BranchCondition.encoding : BranchCondition → ℕ
  | .equal => 0
  | .notEqual => 1
  | .carrySet => 2
  | .carryClear => 3
  | .minus => 4
  | .plus => 5
  | .overflow => 6
  | .noOverflow => 7
  | .unsignedHigher => 8
  | .unsignedLowerOrSame => 9
  | .signedGreaterOrEqual => 10
  | .signedLess => 11
  | .signedGreater => 12
  | .signedLessOrEqual => 13

/-- The instructions of arithmetic and control flow; the others are those of `P`. -/
inductive Instruction (P : Type) where
  | addressPage (destination : Register) (displacement : ℤ)
  | addSubtractImmediate (size : DataSize) (operation : AddSubtract) (setFlags : Bool)
      (destination : AddSubtractDestination) (source : BaseRegister) (immediate : ℕ)
      (shift12 : Bool)
  | addSubtractRegister (size : DataSize) (operation : AddSubtract) (setFlags : Bool)
      (destination left right : DataRegister)
  | moveWide (size : DataSize) (operation : MoveWide) (destination : Register)
      (immediate shift : ℕ)
  | multiplyAdd (size : DataSize) (destination left right : Register) (addend : DataRegister)
      (subtractProduct : Bool)
  | multiplyHigh (signed : Bool) (destination left right : Register)
  | multiplyLong (signed : Bool) (destination left right : Register)
  | divide (size : DataSize) (destination left right : Register) (signed : Bool)
  | variableShift (size : DataSize) (operation : Shift) (destination value amount : Register)
  | bitfieldExtend (size : DataSize) (signed : Bool) (sourceBits : ℕ)
      (destination source : Register)
  | branch (displacement : ℤ) (link : Bool)
  | branchConditional (displacement : ℤ) (condition : BranchCondition)
  | break (immediate : ℕ)
  | plain (instruction : P)

inductive EncodingError where
  | invalidRegisterRole
  | immediateOutOfRange
  | invalidShift
  | invalidLoadExtension
  | offsetOutOfRange
  | misalignedBranch
  | branchOutOfRange
  | misalignedPageAddress
  | pageAddressOutOfRange
  deriving DecidableEq

def signedScaledBy (displacement : ℤ) (scale bits : ℕ) (misaligned outOfRange : EncodingError) :
    Except EncodingError ℕ :=
  let unit : ℤ := 2 ^ scale
  if displacement.tmod unit ≠ 0 then .error misaligned
  else
    let units := displacement.tdiv unit
    let minimum : ℤ := -2 ^ (bits - 1)
    let maximum : ℤ := 2 ^ (bits - 1) - 1
    if units < minimum ∨ units > maximum then .error outOfRange
    else
      let encoded := if units < 0 then 2 ^ bits + units else units
      if 0 ≤ encoded ∧ encoded < 2 ^ 32 then .ok encoded.toNat else .error outOfRange

def signedScaled (displacement : ℤ) (bits : ℕ) : Except EncodingError ℕ :=
  signedScaledBy displacement 2 bits .misalignedBranch .branchOutOfRange

section Encoding

variable {P : Type} (encodeOther : Instruction P → Except EncodingError ℕ)

/-- The word of an instruction, where `encodeOther` has the words of all but the branches. -/
def encode (instruction : Instruction P) : Except EncodingError ℕ :=
  match instruction with
  | .branch displacement link =>
    match signedScaled displacement 26 with
    | .ok immediate => .ok ((if link then 0x94000000 else 0x14000000) ||| immediate)
    | .error failure => .error failure
  | .branchConditional displacement condition =>
    match signedScaled displacement 19 with
    | .ok immediate => .ok (0x54000000 ||| immediate <<< 5 ||| condition.encoding)
    | .error failure => .error failure
  | instruction => encodeOther instruction

end Encoding

/-- The condition flags. -/
structure Flags where
  negative : Bool
  zero : Bool
  carry : Bool
  overflow : Bool
  deriving DecidableEq

def BranchCondition.holds (flags : Flags) : BranchCondition → Bool
  | .equal => flags.zero
  | .notEqual => !flags.zero
  | .carrySet => flags.carry
  | .carryClear => !flags.carry
  | .minus => flags.negative
  | .plus => !flags.negative
  | .overflow => flags.overflow
  | .noOverflow => !flags.overflow
  | .unsignedHigher => flags.carry && !flags.zero
  | .unsignedLowerOrSame => !(flags.carry && !flags.zero)
  | .signedGreaterOrEqual => flags.negative == flags.overflow
  | .signedLess => !(flags.negative == flags.overflow)
  | .signedGreater => !flags.zero && flags.negative == flags.overflow
  | .signedLessOrEqual => !(!flags.zero && flags.negative == flags.overflow)

@[simp] theorem invert_holds (condition : BranchCondition) (flags : Flags) :
    condition.invert.holds flags = !condition.holds flags := by
  cases condition <;> simp [BranchCondition.invert, BranchCondition.holds]

/-- A processor reads a condition from four bits: three select a test of the flags, the last
inverts it. -/
def conditionHolds (code : ℕ) (flags : Flags) : Bool :=
  let result := match code / 2 with
    | 0 => flags.zero
    | 1 => flags.carry
    | 2 => flags.negative
    | 3 => flags.overflow
    | 4 => flags.carry && !flags.zero
    | 5 => flags.negative == flags.overflow
    | 6 => flags.negative == flags.overflow && !flags.zero
    | _ => true
  if code % 2 = 1 ∧ code ≠ 15 then !result else result

theorem conditionHolds_encoding (condition : BranchCondition) (flags : Flags) :
    conditionHolds condition.encoding flags = condition.holds flags := by
  cases condition <;>
    simp [conditionHolds, BranchCondition.encoding, BranchCondition.holds, Bool.and_comm]

theorem encoding_lt (condition : BranchCondition) : condition.encoding < 16 := by
  cases condition <;> decide

/-- The two's complement reading of a field of so many bits. -/
def signExtend (bits field : ℕ) : ℤ :=
  if field < 2 ^ (bits - 1) then field else field - 2 ^ bits

/-- The word at an address. -/
def fetch (bytes : List UInt8) (address : ℤ) : Option ℕ :=
  if 0 ≤ address ∧ address.toNat + 4 ≤ bytes.length then
    some (decodeLe ((bytes.drop address.toNat).take 4))
  else none

/-- Where a branch continues, and whether it links. -/
def branchWord (flags : Flags) (address : ℤ) (word : ℕ) : Option (ℤ × Bool) :=
  if word / 2 ^ 26 = 0x05 then some (address + 4 * signExtend 26 (word % 2 ^ 26), false)
  else if word / 2 ^ 26 = 0x25 then some (address + 4 * signExtend 26 (word % 2 ^ 26), true)
  else if word / 2 ^ 24 = 0x54 ∧ word / 2 ^ 4 % 2 = 0 then
    if conditionHolds (word % 2 ^ 4) flags then
      some (address + 4 * signExtend 19 (word / 2 ^ 5 % 2 ^ 19), false)
    else some (address + 4, false)
  else none

/-- One step of the processor at a branch. -/
def branchStep (bytes : List UInt8) (flags : Flags) (address : ℤ) : Option (ℤ × Bool) :=
  (fetch bytes address).bind (branchWord flags address)

/-- A displacement that is encoded in so many bits is a multiple of four in their range. -/
theorem signedScaled_ok {displacement : ℤ} {bits field : ℕ} (hpos : 0 < bits)
    (h : signedScaled displacement bits = .ok field) :
    field < 2 ^ bits ∧ 4 * signExtend bits field = displacement := by
  obtain ⟨width, rfl⟩ := Nat.exists_eq_succ_of_ne_zero hpos.ne'
  have hunit := Int.mul_tdiv_add_tmod displacement 4
  have hdouble : (2 : ℤ) ^ (width + 1) = 2 * 2 ^ width := by rw [pow_succ]; omega
  have hdoubleNat : (2 : ℕ) ^ (width + 1) = 2 * 2 ^ width := by rw [pow_succ]; omega
  have hcast : ((2 ^ width : ℕ) : ℤ) = 2 ^ width := by norm_cast
  simp only [signedScaled, signedScaledBy, show ((2 : ℤ) ^ 2) = 4 by norm_num,
    Nat.succ_eq_add_one, Nat.add_sub_cancel, hdouble] at h
  rw [signExtend, Nat.succ_eq_add_one, Nat.add_sub_cancel, hdoubleNat]
  split_ifs at h with haligned hrange hnegative hencoded hencoded
  · have hfield := Except.ok.inj h
    rw [if_neg (by omega)]
    omega
  · have hfield := Except.ok.inj h
    rw [if_pos (by omega)]
    omega

theorem encode_branch {P : Type} {encodeOther : Instruction P → Except EncodingError ℕ}
    {displacement : ℤ} {link : Bool} {word : ℕ}
    (h : encode encodeOther (.branch displacement link) = .ok word) :
    word < 2 ^ 32 ∧ ∀ flags address,
      branchWord flags address word = some (address + displacement, link) := by
  cases hfield : signedScaled displacement 26 with
  | error failure =>
    simp only [encode, hfield] at h
    cases h
  | ok field =>
    simp only [encode, hfield] at h
    obtain ⟨hlt, hdisplacement⟩ := signedScaled_ok (by decide) hfield
    cases link with
    | false =>
      have hword : 2 ^ 26 * 5 + field = word := by
        rw [Nat.two_pow_add_eq_or_of_lt hlt]
        exact Except.ok.inj h
      have hhigh : word / 2 ^ 26 = 5 := by omega
      have hlow : word % 2 ^ 26 = field := by omega
      refine ⟨by omega, fun flags address => ?_⟩
      rw [branchWord, if_pos hhigh, hlow, hdisplacement]
    | true =>
      have hword : 2 ^ 26 * 37 + field = word := by
        rw [Nat.two_pow_add_eq_or_of_lt hlt]
        exact Except.ok.inj h
      have hplain : ¬ word / 2 ^ 26 = 5 := by omega
      have hhigh : word / 2 ^ 26 = 37 := by omega
      have hlow : word % 2 ^ 26 = field := by omega
      refine ⟨by omega, fun flags address => ?_⟩
      rw [branchWord, if_neg hplain, if_pos hhigh, hlow, hdisplacement]

theorem encode_branchConditional {P : Type} {encodeOther : Instruction P → Except EncodingError ℕ}
    {displacement : ℤ} {condition : BranchCondition} {word : ℕ}
    (h : encode encodeOther (.branchConditional displacement condition) = .ok word) :
    word < 2 ^ 32 ∧ (-2 ^ 20 ≤ displacement ∧ displacement < 2 ^ 20) ∧ ∀ flags address,
      branchWord flags address word =
        some (if condition.holds flags then address + displacement else address + 4, false) := by
  cases hfield : signedScaled displacement 19 with
  | error failure =>
    simp only [encode, hfield] at h
    cases h
  | ok field =>
    simp only [encode, hfield] at h
    obtain ⟨hlt, hdisplacement⟩ := signedScaled_ok (by decide) hfield
    have hcode := encoding_lt condition
    have hword : 2 ^ 5 * (2 ^ 21 * 21 + field) + condition.encoding = word := by
      have hwide : field < 2 ^ 21 := lt_trans hlt (by decide)
      rw [Nat.two_pow_add_eq_or_of_lt (show condition.encoding < 2 ^ 5 by omega),
        Nat.two_pow_add_eq_or_of_lt hwide, mul_comm, ← Nat.shiftLeft_eq, Nat.shiftLeft_or_distrib]
      exact Except.ok.inj h
    have hbranch : ¬ word / 2 ^ 26 = 5 := by omega
    have hlink : ¬ word / 2 ^ 26 = 37 := by omega
    have hconditional : word / 2 ^ 24 = 84 ∧ word / 2 ^ 4 % 2 = 0 := by omega
    have hmiddle : word / 2 ^ 5 % 2 ^ 19 = field := by omega
    have hlow : word % 2 ^ 4 = condition.encoding := by omega
    refine ⟨by omega, ?_, fun flags address => ?_⟩
    · rw [← hdisplacement]
      unfold signExtend
      split <;> omega
    · rw [branchWord, if_neg hbranch, if_neg hlink, if_pos hconditional, hlow, hmiddle,
        hdisplacement, conditionHolds_encoding]
      split <;> rfl

end Nocter.Arm64

/-!
# Register roles

The role that the calling convention gives each register, and the registers that a function
may give its values.
-/

namespace Nocter.Arm64

/-- One scalar view of a floating-point register. Its number is independent of the
general-purpose registers. -/
structure FloatRegister where
  number : Fin 32
  deriving DecidableEq

inductive AbiRegisterRole where
  | argumentAndResult
  | indirectResult
  | allocationContext
  | processContext
  | callerSaved
  | compilerScratch
  | reserved
  | calleeSaved
  | framePointer
  | link
  deriving DecidableEq

namespace Abi

def argumentRegisterCount : ℕ := 8

def indirectResultRegister : ℕ := 8

def role (register : Register) : AbiRegisterRole :=
  let number := register.number.val
  if number < argumentRegisterCount then .argumentAndResult
  else if number = indirectResultRegister then .indirectResult
  else if number = 9 then .allocationContext
  else if number = 10 then .processContext
  else if 11 ≤ number ∧ number ≤ 14 then .callerSaved
  else if 15 ≤ number ∧ number ≤ 17 then .compilerScratch
  else if number = 18 then .reserved
  else if 19 ≤ number ∧ number ≤ 28 then .calleeSaved
  else if number = 29 then .framePointer
  else .link

/-- Scratch registers and those of a boundary are never allocated. -/
def isAllocatable (register : Register) : Bool :=
  role register = .callerSaved ∨ role register = .calleeSaved

def isCalleeSaved (register : Register) : Bool := role register = .calleeSaved

def isFloatingAllocatable (register : FloatRegister) : Bool :=
  16 ≤ register.number.val ∧ register.number.val ≤ 29

def argumentRegister (index : Fin 8) : Register := ⟨index.castLE (by decide)⟩

/-- The registers that instruction sequences use for their own values. -/
def compilerScratchRegister : Fin 3 → Register
  | 0 => ⟨16⟩
  | 1 => ⟨17⟩
  | 2 => ⟨15⟩

end Abi

end Nocter.Arm64
