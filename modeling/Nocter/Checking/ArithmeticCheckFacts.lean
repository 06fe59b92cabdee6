import Nocter.Arm64.ArithmeticCheckCode
import Nocter.Checking.ArithmeticChecks

/-!
# What the trap checks say

A check that is decided from ranges is compared with the result of the operation on operands
within the ranges. Constant operands decide it wherever there is a result.
-/

namespace Nocter.Checking

open TwosComplement
open Model (IntegerType)
open Arm64 (IntegerOperation exactly evaluate DivisionFits CountFits)

/-- The operand has a value that the checker reckons with. -/
def Operand.Holds : Operand → ℤ → Prop
  | .constant value, v => v = value
  | .tracked flow, v =>
    (∀ lower ∈ flow.lowerInclusive, lower ≤ v) ∧ ∀ upper ∈ flow.upperExclusive, v < upper
  | .unknown, _ => True

/-- A range with both ends that the value lies in. -/
structure IntegerRange.Bounds (range : IntegerRange) (lower upper v : ℤ) : Prop where
  eq : range = ⟨some lower, some upper⟩
  lower_le : lower ≤ v
  lt_upper : v < upper

/-- An operation that is not checked when it runs. -/
def ArithmeticTrapCheck.Unchecked (check : ArithmeticTrapCheck) : Prop :=
  check = .provenSafe ∨ check = .notRequired

/-- What a check says of an operation is so. -/
structure ArithmeticTrapCheck.Sound (check : ArithmeticTrapCheck) (fits : Prop) : Prop where
  safe : check.Unchecked → fits
  trap : check = .provenTrap → ¬ fits

namespace ArithmeticTrapCheck.Sound

variable {fits : Prop}

theorem provenSafe (h : fits) : Sound .provenSafe fits := ⟨fun _ => h, (by rintro ⟨⟩)⟩

theorem notRequired (h : fits) : Sound .notRequired fits := ⟨fun _ => h, (by rintro ⟨⟩)⟩

theorem provenTrap (h : ¬ fits) : Sound .provenTrap fits :=
  ⟨(by rintro (⟨⟨⟩⟩ | ⟨⟨⟩⟩)), fun _ => h⟩

theorem required : Sound .required fits := ⟨(by rintro (⟨⟨⟩⟩ | ⟨⟨⟩⟩)), (by rintro ⟨⟩)⟩

end ArithmeticTrapCheck.Sound

def domainOf (ty : IntegerType) : IntegerDomain :=
  ⟨minimum ty.bits ty.signed, maximum ty.bits ty.signed, ty.bits, ty.signed⟩

theorem integerDomain_eq (ty : IntegerType) : integerDomain ty.builtin = some (domainOf ty) := by
  obtain ⟨builtin, bits, signed, numeric⟩ := ty
  cases builtin <;> first | cases numeric; rfl | cases numeric

section Ranges

variable {ty : IntegerType} {v : ℤ}

theorem bound_succ (h : InRange ty.bits ty.signed v) : bound (v + 1) = some (v + 1) := by
  have hbits := ty.bits_eq
  have hwide : InRange 65 true v := h.toSigned (by omega)
  have hrange : -2 ^ 64 ≤ v ∧ v ≤ 2 ^ 64 - 1 := hwide
  refine checked_of_inRange ?_
  change -2 ^ 127 ≤ v + 1 ∧ v + 1 ≤ 2 ^ 127 - 1
  omega

/-- The range of an operand has both ends and holds its value. -/
theorem arithmeticRange_bounds {operand : Operand} (hholds : operand.Holds v)
    (h : InRange ty.bits ty.signed v) : ∃ lower upper,
      (arithmeticRange (domainOf ty).minimum (domainOf ty).maximum operand).Bounds lower upper v := by
  cases operand with
  | constant value =>
    obtain rfl : v = value := hholds
    exact ⟨v, v + 1, by rw [arithmeticRange, bound_succ h], le_rfl, lt_add_one v⟩
  | unknown =>
    have hmaximum : InRange ty.bits ty.signed (domainOf ty).maximum := ⟨h.1.trans h.2, le_rfl⟩
    exact ⟨(domainOf ty).minimum, (domainOf ty).maximum + 1,
      by rw [arithmeticRange, bound_succ hmaximum], h.1, Int.lt_add_one_of_le h.2⟩
  | tracked flow =>
    obtain ⟨hlower, hupper⟩ := hholds
    refine ⟨_, _, rfl, max_le ?_ h.1, lt_min ?_ (Int.lt_add_one_of_le h.2)⟩
    · cases hflow : flow.lowerInclusive with
      | none => exact h.1
      | some lower => exact hlower lower hflow
    · cases hflow : flow.upperExclusive with
      | none => exact Int.lt_add_one_of_le h.2
      | some upper => exact hupper upper hflow

theorem arithmeticRange_constant (h : InRange ty.bits ty.signed v) (minimum maximum : ℤ) :
    arithmeticRange minimum maximum (.constant v) = ⟨some v, some (v + 1)⟩ := by
  rw [arithmeticRange, bound_succ h]

end Ranges

section Results

variable {ty : IntegerType} {left right : IntegerRange} {a b leftMin leftEnd rightMin rightEnd : ℤ}

/-- A product lies between those at the ends of one factor. -/
theorem mul_between {low high : ℤ} (hlow : low ≤ a) (hhigh : a ≤ high) (b : ℤ) :
    min (low * b) (high * b) ≤ a * b ∧ a * b ≤ max (low * b) (high * b) := by
  rcases le_total 0 b with hb | hb
  · exact ⟨min_le_of_left_le (Int.mul_le_mul_of_nonneg_right hlow hb),
    le_max_of_le_right (Int.mul_le_mul_of_nonneg_right hhigh hb)⟩
  · exact ⟨min_le_of_right_le (Int.mul_le_mul_of_nonpos_right hhigh hb),
    le_max_of_le_left (Int.mul_le_mul_of_nonpos_right hlow hb)⟩

/-- A product lies between those at the ends of both factors. -/
theorem mul_between_corners {leftMax rightMax : ℤ} (hl : leftMin ≤ a) (hl' : a ≤ leftMax)
    (hr : rightMin ≤ b) (hr' : b ≤ rightMax) :
    min (min (min (leftMin * rightMin) (leftMin * rightMax)) (leftMax * rightMin))
        (leftMax * rightMax) ≤ a * b ∧
      a * b ≤ max (max (max (leftMin * rightMin) (leftMin * rightMax)) (leftMax * rightMin))
        (leftMax * rightMax) := by
  have hab := mul_between hl hl' b
  have hmin := mul_between hr hr' leftMin
  have hmax := mul_between hr hr' leftMax
  simp only [mul_comm rightMin, mul_comm rightMax, mul_comm b] at hmin hmax
  omega

/-- The result of an operation that is bounded by its extrema. -/
def exactResult (operation : PrimitiveBinary) (a b : ℤ) : Option ℤ :=
  match operation with
  | .add => some (a + b)
  | .subtract => some (a - b)
  | .multiply => some (a * b)
  | _ => none

/-- Extrema that can be computed bound the result. -/
theorem extrema_bound {operation : PrimitiveBinary} {leftMax rightMax low high result : ℤ}
    (hl : leftMin ≤ a) (hl' : a ≤ leftMax) (hr : rightMin ≤ b) (hr' : b ≤ rightMax)
    (h : extrema operation leftMin leftMax rightMin rightMax = some (low, high))
    (hresult : exactResult operation a b = some result) : low ≤ result ∧ result ≤ high := by
  cases operation with
  | add =>
    obtain rfl := Option.some.inj hresult
    simp only [extrema, Option.bind_eq_bind, Option.bind_eq_some_iff, Option.some.injEq,
      Prod.mk.injEq] at h
    obtain ⟨_, hlow, _, hhigh, rfl, rfl⟩ := h
    obtain rfl := checked_eq_some hlow
    obtain rfl := checked_eq_some hhigh
    omega
  | subtract =>
    obtain rfl := Option.some.inj hresult
    simp only [extrema, Option.bind_eq_bind, Option.bind_eq_some_iff, Option.some.injEq,
      Prod.mk.injEq] at h
    obtain ⟨_, hlow, _, hhigh, rfl, rfl⟩ := h
    obtain rfl := checked_eq_some hlow
    obtain rfl := checked_eq_some hhigh
    omega
  | multiply =>
    obtain rfl := Option.some.inj hresult
    simp only [extrema, Option.bind_eq_bind, Option.bind_eq_some_iff, Option.some.injEq,
      Prod.mk.injEq] at h
    obtain ⟨_, h₁, _, h₂, _, h₃, _, h₄, rfl, rfl⟩ := h
    obtain rfl := checked_eq_some h₁
    obtain rfl := checked_eq_some h₂
    obtain rfl := checked_eq_some h₃
    obtain rfl := checked_eq_some h₄
    exact mul_between_corners hl hl' hr hr'
  | divide => cases hresult
  | remainder => cases hresult
  | shiftLeft => cases hresult
  | shiftRightSigned => cases hresult
  | shiftRightUnsigned => cases hresult

theorem arithmeticResultCheck_sound {operation : PrimitiveBinary} {result : ℤ}
    (hl : left.Bounds leftMin leftEnd a) (hr : right.Bounds rightMin rightEnd b)
    (hresult : exactResult operation a b = some result) :
    (arithmeticResultCheck operation left right (domainOf ty).minimum (domainOf ty).maximum).Sound
      (InRange ty.bits ty.signed result) := by
  rw [hl.eq, hr.eq, arithmeticResultCheck]
  dsimp only
  cases hextrema : extrema operation leftMin (leftEnd - 1) rightMin (rightEnd - 1) with
  | none => exact .required
  | some bounds =>
    obtain ⟨low, high⟩ := bounds
    obtain ⟨hlow, hhigh⟩ := extrema_bound hl.lower_le (Int.le_sub_one_of_lt hl.lt_upper) hr.lower_le
      (Int.le_sub_one_of_lt hr.lt_upper) hextrema hresult
    dsimp only
    split_ifs with hsafe htrap
    · exact .provenSafe ⟨hsafe.1.trans hlow, hhigh.trans hsafe.2⟩
    · refine .provenTrap fun hrange => ?_
      rcases htrap with hbelow | habove
      · exact absurd hrange.1 (not_le.mpr (hhigh.trans_lt hbelow))
      · exact absurd hrange.2 (not_le.mpr (habove.lt.trans_le hlow))
    · exact .required

/-- The extrema of constants are their result. -/
theorem arithmeticResultCheck_constants {operation : PrimitiveBinary} {result : ℤ}
    (hresult : exactResult operation a b = some result) (h : InRange ty.bits ty.signed result) :
    arithmeticResultCheck operation ⟨some a, some (a + 1)⟩ ⟨some b, some (b + 1)⟩
      (domainOf ty).minimum (domainOf ty).maximum = .provenSafe := by
  have hwide : InRange 128 true result := h.toSigned ty.bits_lt
  have hextrema : extrema operation a (a + 1 - 1) b (b + 1 - 1) = some (result, result) := by
    rw [add_sub_cancel_right, add_sub_cancel_right]
    cases operation with
    | add | subtract | multiply =>
      obtain rfl := Option.some.inj hresult
      simp only [extrema, bound, checked_of_inRange hwide, Option.bind_eq_bind, Option.bind_some,
        min_self, max_self]
    | divide | remainder | shiftLeft | shiftRightSigned | shiftRightUnsigned => cases hresult
  have hwithin : result ≥ (domainOf ty).minimum ∧ result ≤ (domainOf ty).maximum := h
  rw [arithmeticResultCheck]
  dsimp only
  rw [hextrema]
  exact if_pos hwithin

theorem excludesValue_iff (h : left.Bounds leftMin leftEnd a) (value : ℤ) :
    excludesValue left value = true ↔ leftEnd ≤ value ∨ value < leftMin := by
  rw [h.eq, excludesValue, Bool.or_eq_true, Option.any_some, Option.any_some, decide_eq_true_iff,
    decide_eq_true_iff]

theorem divisionCheck_sound (hl : left.Bounds leftMin leftEnd a)
    (hr : right.Bounds rightMin rightEnd b) :
    (divisionCheck left right (domainOf ty).minimum (domainOf ty).signed).Sound
      (DivisionFits ty.bits ty.signed a b) := by
  have hleft := hl.lower_le
  have hleft' := hl.lt_upper
  have hright := hr.lower_le
  have hright' := hr.lt_upper
  rw [divisionCheck]
  split_ifs with hsafe htrap
  · simp only [Bool.and_eq_true, Bool.or_eq_true, excludesValue_iff hr, hl.eq, Option.any_some,
      decide_eq_true_iff, Bool.not_eq_true'] at hsafe
    obtain ⟨hzero, hover⟩ := hsafe
    refine .provenSafe ⟨by omega, ?_⟩
    rintro ⟨hsigned, rfl, rfl⟩
    have hminimum : (domainOf ty).minimum = minimum ty.bits true := by rw [domainOf, hsigned]
    have hdomain : (domainOf ty).signed = true := hsigned
    simp only [hdomain, reduceCtorEq, false_or, hminimum] at hover
    omega
  · refine .provenTrap fun hfits => ?_
    rw [hl.eq, hr.eq] at htrap
    simp only [Option.some.injEq] at htrap
    rcases htrap with hzero | ⟨hsigned, hlower, hupper, hone, hend⟩
    · exact hfits.1 (by omega)
    · have hminimum : (domainOf ty).minimum = minimum ty.bits true := by
        rw [domainOf, show ty.signed = true from hsigned]
      have hrange : leftEnd = (domainOf ty).minimum + 1 := checked_eq_some hupper.symm
      exact hfits.2 ⟨hsigned, by omega, by omega⟩
  · exact .required

theorem shiftCheck_sound (hr : right.Bounds rightMin rightEnd b) (bits : ℕ) :
    (shiftCheck right bits).Sound (CountFits bits b) := by
  have hright := hr.lower_le
  have hright' := hr.lt_upper
  rw [hr.eq, shiftCheck]
  simp only [Option.any_some, Bool.and_eq_true, Bool.or_eq_true, decide_eq_true_iff]
  split_ifs with hsafe htrap
  · exact .provenSafe ⟨by omega, by omega⟩
  · refine .provenTrap fun hfits => ?_
    have hlt := hfits.2
    have hnonneg := hfits.1
    omega
  · exact .required

theorem constant_bounds (v : ℤ) : IntegerRange.Bounds ⟨some v, some (v + 1)⟩ v (v + 1) v :=
  ⟨rfl, le_rfl, lt_add_one v⟩

theorem divisionCheck_constants (h : DivisionFits ty.bits ty.signed a b) :
    divisionCheck ⟨some a, some (a + 1)⟩ ⟨some b, some (b + 1)⟩ (domainOf ty).minimum
      (domainOf ty).signed = .provenSafe := by
  obtain ⟨hzero, hover⟩ := h
  rw [divisionCheck]
  refine if_pos ?_
  simp only [Bool.and_eq_true, Bool.or_eq_true, excludesValue_iff (constant_bounds b),
    Option.any_some, decide_eq_true_iff, Bool.not_eq_true']
  refine ⟨by omega, ?_⟩
  cases hsigned : ty.signed with
  | false => exact Or.inl (Or.inl hsigned)
  | true =>
    have hminimum : (domainOf ty).minimum = minimum ty.bits true := by rw [domainOf, hsigned]
    rw [hminimum]
    have hover' : ¬ (a = minimum ty.bits true ∧ b = -1) := fun h => hover ⟨hsigned, h⟩
    omega

theorem shiftCheck_constants {bits : ℕ} (h : CountFits bits b) :
    shiftCheck ⟨some b, some (b + 1)⟩ bits = .provenSafe := by
  obtain ⟨hnonneg, hlt⟩ := h
  rw [shiftCheck]
  refine if_pos ?_
  simp only [Option.any_some, Bool.and_eq_true, decide_eq_true_iff]
  omega

end Results

section Operations

variable {ty : IntegerType} {a b : ℤ}

/-- The primitive operation that the checker selects for operands of a type. -/
def primitiveOf (signed : Bool) : IntegerOperation → PrimitiveBinary
  | .add => .add
  | .subtract => .subtract
  | .multiply => .multiply
  | .divide => .divide
  | .remainder => .remainder
  | .shiftLeft => .shiftLeft
  | .shiftRight => if signed then .shiftRightSigned else .shiftRightUnsigned

theorem exactly_ne_none {v : ℤ} :
    exactly ty.bits ty.signed v ≠ none ↔ InRange ty.bits ty.signed v := by
  rw [exactly]
  split_ifs with h
  · exact iff_of_true (Option.some_ne_none v) h
  · exact iff_of_false (fun hne => hne rfl) h

theorem ite_some_ne_none {α : Type} {p : Prop} [Decidable p] {v : α} :
    (if p then some v else none) ≠ none ↔ p := by
  split_ifs with h
  · exact iff_of_true (Option.some_ne_none v) h
  · exact iff_of_false (fun hne => hne rfl) h

/-- What the check of an operation proves is so for all operands that it reckons with. -/
theorem arithmeticCheck_sound (operation : IntegerOperation) {left right : Operand}
    (hleft : left.Holds a) (ha : InRange ty.bits ty.signed a)
    (hright : right.Holds b) (hb : InRange ty.bits ty.signed b) :
    (arithmeticCheck (primitiveOf ty.signed operation) left right ty.builtin).Sound
      (evaluate ty.bits ty.signed operation a b ≠ none) := by
  obtain ⟨leftMin, leftEnd, hl⟩ := arithmeticRange_bounds hleft ha
  obtain ⟨rightMin, rightEnd, hr⟩ := arithmeticRange_bounds hright hb
  rw [arithmeticCheck, integerDomain_eq]
  dsimp only
  cases operation with
  | add =>
    rw [evaluate, exactly_ne_none]
    exact arithmeticResultCheck_sound hl hr rfl
  | subtract =>
    rw [evaluate, exactly_ne_none]
    exact arithmeticResultCheck_sound hl hr rfl
  | multiply =>
    rw [evaluate, exactly_ne_none]
    exact arithmeticResultCheck_sound hl hr rfl
  | divide =>
    rw [evaluate, ite_some_ne_none]
    exact divisionCheck_sound hl hr
  | remainder =>
    rw [evaluate, ite_some_ne_none]
    exact divisionCheck_sound hl hr
  | shiftLeft =>
    rw [evaluate, ite_some_ne_none]
    exact shiftCheck_sound hr ty.bits
  | shiftRight =>
    rw [evaluate, ite_some_ne_none]
    cases ty.signed with
    | true => exact shiftCheck_sound hr ty.bits
    | false => exact shiftCheck_sound hr ty.bits

/-- Constants whose operation has a result need no check. -/
theorem arithmeticCheck_constants {operation : IntegerOperation} (ha : InRange ty.bits ty.signed a)
    (hb : InRange ty.bits ty.signed b) (h : evaluate ty.bits ty.signed operation a b ≠ none) :
    arithmeticCheck (primitiveOf ty.signed operation) (.constant a) (.constant b) ty.builtin =
      .provenSafe := by
  rw [arithmeticCheck, integerDomain_eq]
  dsimp only
  rw [arithmeticRange_constant ha, arithmeticRange_constant hb]
  cases operation with
  | add =>
    rw [evaluate, exactly_ne_none] at h
    exact arithmeticResultCheck_constants rfl h
  | subtract =>
    rw [evaluate, exactly_ne_none] at h
    exact arithmeticResultCheck_constants rfl h
  | multiply =>
    rw [evaluate, exactly_ne_none] at h
    exact arithmeticResultCheck_constants rfl h
  | divide =>
    rw [evaluate, ite_some_ne_none] at h
    exact divisionCheck_constants h
  | remainder =>
    rw [evaluate, ite_some_ne_none] at h
    exact divisionCheck_constants h
  | shiftLeft =>
    rw [evaluate, ite_some_ne_none] at h
    exact shiftCheck_constants h
  | shiftRight =>
    rw [evaluate, ite_some_ne_none] at h
    cases ty.signed with
    | true => exact shiftCheck_constants h
    | false => exact shiftCheck_constants h

/-- The only signed integer without a negation is the minimum. -/
theorem inRange_neg (hsigned : ty.signed = true) (ha : InRange ty.bits ty.signed a) :
    InRange ty.bits ty.signed (-a) ↔ (domainOf ty).minimum < a := by
  rw [domainOf]
  rw [hsigned] at ha ⊢
  have hrange : -2 ^ (ty.bits - 1) ≤ a ∧ a ≤ 2 ^ (ty.bits - 1) - 1 := ha
  change (-2 ^ (ty.bits - 1) ≤ -a ∧ -a ≤ 2 ^ (ty.bits - 1) - 1) ↔ -2 ^ (ty.bits - 1) < a
  omega

theorem negationCheck_sound {operand : Operand} (hsigned : ty.signed = true)
    (hoperand : operand.Holds a) (ha : InRange ty.bits ty.signed a) :
    (negationCheck operand ty.builtin).Sound (exactly ty.bits ty.signed (-a) ≠ none) := by
  obtain ⟨lower, upper, h⟩ := arithmeticRange_bounds hoperand ha
  have hlower := h.lower_le
  have hupper := h.lt_upper
  rw [exactly_ne_none, inRange_neg hsigned ha, negationCheck, integerDomain_eq, Option.filter_some,
    if_pos (show (domainOf ty).signed = true from hsigned)]
  dsimp only
  rw [h.eq]
  split_ifs with htrap hsafe
  · have hend : upper = (domainOf ty).minimum + 1 := checked_eq_some htrap.2.symm
    exact .provenTrap (by omega)
  · rw [Option.any_some, decide_eq_true_iff] at hsafe
    exact .provenSafe (by omega)
  · exact .required

theorem negationCheck_constant (hsigned : ty.signed = true) (ha : InRange ty.bits ty.signed a)
    (h : exactly ty.bits ty.signed (-a) ≠ none) :
    negationCheck (.constant a) ty.builtin = .provenSafe := by
  rw [exactly_ne_none, inRange_neg hsigned ha] at h
  rw [negationCheck, integerDomain_eq, Option.filter_some,
    if_pos (show (domainOf ty).signed = true from hsigned)]
  dsimp only
  rw [arithmeticRange_constant ha, if_neg, if_pos]
  · rw [Option.any_some, decide_eq_true_iff]
    exact h
  · rintro ⟨heq, -⟩
    exact h.ne (Option.some.inj heq).symm

end Operations

end Nocter.Checking
