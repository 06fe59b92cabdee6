import Mathlib.Tactic

/-!
# Two's complement words

A word of `n` bits stands for an integer in one of two ways. Sums and differences of words
with the flags of an adder compare these integers and say when a result is exact.
-/

namespace Nocter.TwosComplement

variable {n : ℕ}

/-- The signed or unsigned integer that a word stands for. -/
def value (signed : Bool) (x : BitVec n) : ℤ := if signed then x.toInt else x.toNat

def minimum (bits : ℕ) (signed : Bool) : ℤ := if signed then -2 ^ (bits - 1) else 0

def maximum (bits : ℕ) (signed : Bool) : ℤ := if signed then 2 ^ (bits - 1) - 1 else 2 ^ bits - 1

/-- The integers of so many bits. -/
def InRange (bits : ℕ) (signed : Bool) (v : ℤ) : Prop := minimum bits signed ≤ v ∧ v ≤ maximum bits signed

instance (bits : ℕ) (signed : Bool) (v : ℤ) : Decidable (InRange bits signed v) :=
  inferInstanceAs (Decidable (_ ∧ _))

/-- An integer where it is one of so many bits. -/
def checked (bits : ℕ) (signed : Bool) (v : ℤ) : Option ℤ :=
  if InRange bits signed v then some v else none

/-- The integer of so many bits with the low bits of another one. -/
def wrap (bits : ℕ) (signed : Bool) (v : ℤ) : ℤ := value signed (BitVec.ofInt bits v)

theorem two_pow_double {bits : ℕ} (h : 0 < bits) : (2 : ℤ) ^ bits = 2 * 2 ^ (bits - 1) := by
  obtain ⟨k, rfl⟩ := Nat.exists_eq_succ_of_ne_zero h.ne'
  rw [Nat.succ_sub_one, Nat.succ_eq_add_one, pow_succ]
  omega

theorem value_ofInt {signed : Bool} {v : ℤ} (hn : 0 < n) (h : InRange n signed v) :
    value signed (BitVec.ofInt n v) = v := by
  have hdouble := two_pow_double hn
  cases signed with
  | true =>
    have hrange : -2 ^ (n - 1) ≤ v ∧ v ≤ 2 ^ (n - 1) - 1 := h
    exact BitVec.toInt_ofInt_eq_self hn hrange.1 (by omega)
  | false =>
    have hrange : 0 ≤ v ∧ v ≤ 2 ^ n - 1 := h
    change ((BitVec.ofInt n v).toNat : ℤ) = v
    rw [BitVec.toNat_ofInt]
    push_cast
    rw [Int.emod_eq_of_lt hrange.1 (by omega)]
    omega

theorem value_inRange (signed : Bool) (x : BitVec n) : InRange n signed (value signed x) := by
  cases signed with
  | true =>
    have hle := BitVec.le_toInt x
    have hlt := BitVec.toInt_lt (x := x)
    change -2 ^ (n - 1) ≤ x.toInt ∧ x.toInt ≤ 2 ^ (n - 1) - 1
    omega
  | false =>
    have hlt : (x.toNat : ℤ) < 2 ^ n := by exact_mod_cast x.isLt
    change 0 ≤ (x.toNat : ℤ) ∧ (x.toNat : ℤ) ≤ 2 ^ n - 1
    omega

theorem ofInt_value (signed : Bool) (x : BitVec n) : BitVec.ofInt n (value signed x) = x := by
  cases signed with
  | true => exact BitVec.ofInt_toInt
  | false =>
    change BitVec.ofInt n (x.toNat : ℤ) = x
    rw [BitVec.ofInt_natCast, BitVec.ofNat_toNat, BitVec.setWidth_eq]

theorem value_injective {signed : Bool} {x y : BitVec n} (h : value signed x = value signed y) :
    x = y := by
  rw [← ofInt_value signed x, h, ofInt_value]

theorem InRange.mono {bits : ℕ} {signed : Bool} {v : ℤ} (h : InRange bits signed v)
    (hbits : bits ≤ n) : InRange n signed v := by
  cases signed with
  | true =>
    have hpow : (2 : ℤ) ^ (bits - 1) ≤ 2 ^ (n - 1) :=
      pow_le_pow_right₀ (by decide) (Nat.sub_le_sub_right hbits 1)
    have hrange : -2 ^ (bits - 1) ≤ v ∧ v ≤ 2 ^ (bits - 1) - 1 := h
    change -2 ^ (n - 1) ≤ v ∧ v ≤ 2 ^ (n - 1) - 1
    omega
  | false =>
    have hpow : (2 : ℤ) ^ bits ≤ 2 ^ n := pow_le_pow_right₀ (by decide) hbits
    have hrange : 0 ≤ v ∧ v ≤ 2 ^ bits - 1 := h
    change 0 ≤ v ∧ v ≤ 2 ^ n - 1
    omega

/-- A signed type that is wider holds the integers of both signs. -/
theorem InRange.toSigned {bits : ℕ} {signed : Bool} {v : ℤ} (h : InRange bits signed v)
    (hbits : bits < n) : InRange n true v := by
  have hpow : (2 : ℤ) ^ bits ≤ 2 ^ (n - 1) :=
    pow_le_pow_right₀ (by decide) (Nat.le_sub_one_of_lt hbits)
  cases signed with
  | true => exact h.mono hbits.le
  | false =>
    have hrange : 0 ≤ v ∧ v ≤ 2 ^ bits - 1 := h
    change -2 ^ (n - 1) ≤ v ∧ v ≤ 2 ^ (n - 1) - 1
    omega

theorem checked_of_inRange {bits : ℕ} {signed : Bool} {v : ℤ} (h : InRange bits signed v) :
    checked bits signed v = some v := if_pos h

theorem checked_eq_some {bits : ℕ} {signed : Bool} {v w : ℤ} (h : checked bits signed v = some w) :
    w = v := by
  unfold checked at h
  split_ifs at h
  exact (Option.some.inj h).symm

theorem wrap_inRange {bits : ℕ} (signed : Bool) (v : ℤ) :
    InRange bits signed (wrap bits signed v) := value_inRange signed _

theorem wrap_of_inRange {bits : ℕ} {signed : Bool} {v : ℤ} (hbits : 0 < bits)
    (h : InRange bits signed v) : wrap bits signed v = v := value_ofInt hbits h

/-- The low bits of a word. -/
theorem setWidth_ofInt {bits : ℕ} (v : ℤ) (hbits : bits ≤ n) :
    (BitVec.ofInt n v).setWidth bits = BitVec.ofInt bits v := by
  apply BitVec.eq_of_toInt_eq
  rw [BitVec.toInt_setWidth, BitVec.toInt_ofInt, BitVec.toNat_ofInt]
  have hpos : (0 : ℤ) < 2 ^ n := by positivity
  have hnonneg : 0 ≤ v % ((2 ^ n : ℕ) : ℤ) := by
    push_cast
    exact Int.emod_nonneg v hpos.ne'
  rw [Int.toNat_of_nonneg hnonneg, ← Int.emod_bmod, Int.emod_emod_of_dvd, Int.emod_bmod]
  exact_mod_cast pow_dvd_pow 2 hbits

/-- Extending the low bits of a word gives the integer that they stand for. -/
theorem extend_ofInt {bits : ℕ} (signed : Bool) (v : ℤ) (hbits : bits ≤ n) :
    (if signed then ((BitVec.ofInt n v).setWidth bits).signExtend n
      else ((BitVec.ofInt n v).setWidth bits).setWidth n) =
      BitVec.ofInt n (wrap bits signed v) := by
  rw [setWidth_ofInt v hbits, wrap]
  cases signed with
  | true => rfl
  | false =>
    change (BitVec.ofInt bits v).setWidth n = BitVec.ofInt n ((BitVec.ofInt bits v).toNat : ℤ)
    rw [BitVec.ofInt_natCast, BitVec.ofNat_toNat]

theorem shiftLeft_ofInt (v : ℤ) (amount : ℕ) :
    BitVec.ofInt n v <<< amount = BitVec.ofInt n (v * 2 ^ amount) := by
  have htwo : BitVec.ofInt n (2 ^ amount) = BitVec.twoPow n amount := by
    apply BitVec.eq_of_toNat_eq
    rw [BitVec.toNat_twoPow, ← BitVec.toNat_ofNat, ← BitVec.ofInt_natCast]
    push_cast
    rfl
  rw [BitVec.shiftLeft_eq_mul_twoPow, BitVec.ofInt_mul, htwo]

theorem value_sshiftRight (x : BitVec n) (amount : ℕ) :
    value true (x.sshiftRight amount) = value true x / 2 ^ amount := by
  change (x.sshiftRight amount).toInt = x.toInt / 2 ^ amount
  rw [BitVec.toInt_sshiftRight, Int.shiftRight_eq_div_pow]
  push_cast
  rfl

theorem value_ushiftRight (x : BitVec n) (amount : ℕ) :
    value false (x >>> amount) = value false x / 2 ^ amount := by
  change ((x >>> amount).toNat : ℤ) = (x.toNat : ℤ) / 2 ^ amount
  rw [BitVec.toNat_ushiftRight, Nat.shiftRight_eq_div_pow]
  push_cast
  rfl

/-- A mask of ones keeps the low bits. -/
theorem and_low_mask {bits : ℕ} (x : BitVec n) (hbits : bits < n) :
    x &&& (1#n <<< bits - 1) = (x.setWidth bits).setWidth n := by
  have hone : (1 : ℕ) < 2 ^ n := Nat.one_lt_two_pow (by omega)
  have hlt : 2 ^ bits < 2 ^ n := Nat.pow_lt_pow_right (by decide) hbits
  have hpos : 0 < 2 ^ bits := Nat.two_pow_pos bits
  have hpower : (1#n <<< bits).toNat = 2 ^ bits := by
    rw [BitVec.toNat_shiftLeft, BitVec.toNat_ofNat, Nat.mod_eq_of_lt hone, Nat.one_shiftLeft,
      Nat.mod_eq_of_lt hlt]
  have hmask : (1#n <<< bits - 1).toNat = 2 ^ bits - 1 := by
    rw [BitVec.toNat_sub_of_le, hpower]
    · congr 1
      exact Nat.mod_eq_of_lt hone
    · rw [BitVec.le_def, hpower]
      change 1 % 2 ^ n ≤ _
      rw [Nat.mod_eq_of_lt hone]
      exact hpos
  apply BitVec.eq_of_toNat_eq
  rw [BitVec.toNat_and, hmask, Nat.and_two_pow_sub_one_eq_mod, BitVec.toNat_setWidth,
    BitVec.toNat_setWidth, Nat.mod_eq_of_lt ((Nat.mod_lt _ hpos).trans hlt)]

theorem and_bit_ne_zero {bit : ℕ} (x : BitVec n) (hbit : bit < n) :
    x &&& (1#n <<< bit) ≠ 0 ↔ x.getLsbD bit = true := by
  change x &&& BitVec.twoPow n bit ≠ 0 ↔ _
  rw [BitVec.and_twoPow]
  have hne : BitVec.twoPow n bit ≠ 0#n := by
    intro h
    have hzero := congrArg BitVec.toNat h
    rw [BitVec.toNat_twoPow_of_lt hbit, BitVec.toNat_ofNat, Nat.zero_mod] at hzero
    exact (Nat.two_pow_pos bit).ne' hzero
  cases hx : x.getLsbD bit with
  | true => simpa using hne
  | false => simp

/-- The signed reading of low bits from the unsigned one. -/
theorem wrap_true_eq (bits : ℕ) (v : ℤ) : wrap bits true v =
      if (BitVec.ofInt bits v).getLsbD (bits - 1) then wrap bits false v - 2 ^ bits
      else wrap bits false v := by
  change (BitVec.ofInt bits v).toInt = if _ then ((BitVec.ofInt bits v).toNat : ℤ) - 2 ^ bits
    else ((BitVec.ofInt bits v).toNat : ℤ)
  rw [BitVec.toInt_eq_msb_cond, BitVec.msb_eq_getLsbD_last]
  push_cast
  rfl

section Ranges

variable {bits : ℕ} {signed : Bool} {a b : ℤ}

theorem InRange.zero (bits : ℕ) (signed : Bool) : InRange bits signed 0 := by
  have hone : (1 : ℤ) ≤ 2 ^ (bits - 1) := one_le_pow₀ (by decide)
  have hone' : (1 : ℤ) ≤ 2 ^ bits := one_le_pow₀ (by decide)
  cases signed with
  | true =>
    change -2 ^ (bits - 1) ≤ (0 : ℤ) ∧ (0 : ℤ) ≤ 2 ^ (bits - 1) - 1
    omega
  | false =>
    change (0 : ℤ) ≤ 0 ∧ (0 : ℤ) ≤ 2 ^ bits - 1
    omega

/-- What lies between zero and an integer of the type. -/
theorem InRange.toward_zero (h : InRange bits signed a) (hpos : 0 ≤ a → 0 ≤ b ∧ b ≤ a)
    (hneg : a ≤ 0 → a ≤ b ∧ b ≤ 0) : InRange bits signed b := by
  have hzero := InRange.zero bits signed
  rcases le_total 0 a with ha | ha
  · exact ⟨hzero.1.trans (hpos ha).1, (hpos ha).2.trans h.2⟩
  · exact ⟨h.1.trans (hneg ha).1, (hneg ha).2.trans hzero.2⟩

theorem InRange.tmod (h : InRange bits signed a) (b : ℤ) : InRange bits signed (a.tmod b) := by
  have habs : (a.tmod b).natAbs ≤ a.natAbs := by
    rw [Int.natAbs_tmod]
    exact Nat.mod_le _ _
  refine h.toward_zero (fun ha => ?_) fun ha => ?_
  · have hnonneg := Int.tmod_nonneg b ha
    omega
  · have hnonneg := Int.tmod_nonneg b (Int.neg_nonneg_of_nonpos ha)
    rw [Int.neg_tmod] at hnonneg
    omega

theorem InRange.shiftRight (h : InRange bits signed a) (amount : ℕ) :
    InRange bits signed (a / 2 ^ amount) := by
  have hone : (1 : ℤ) ≤ 2 ^ amount := one_le_pow₀ (by decide)
  refine h.toward_zero (fun ha => ⟨Int.ediv_nonneg ha (by omega), Int.ediv_le_self _ ha⟩)
    fun ha => ⟨?_, Int.ediv_nonpos_of_nonpos_of_neg ha (by omega)⟩
  rw [Int.le_ediv_iff_mul_le (by omega)]
  nlinarith

/-- The only quotient that does not fit is that of the minimum by minus one. -/
theorem InRange.tdiv (ha : InRange bits signed a) (hb : InRange bits signed b)
    (h : ¬ (signed = true ∧ a = minimum bits true ∧ b = -1)) : InRange bits signed (a.tdiv b) := by
  have habs := Int.natAbs_tdiv_le_natAbs a b
  cases signed with
  | false =>
    have hnonneg := Int.tdiv_nonneg ha.1 hb.1
    refine ha.toward_zero (fun _ => by omega) fun hle => ?_
    have hge : 0 ≤ a := ha.1
    omega
  | true =>
    have hrange : -2 ^ (bits - 1) ≤ a ∧ a ≤ 2 ^ (bits - 1) - 1 := ha
    have hone : (1 : ℤ) ≤ 2 ^ (bits - 1) := one_le_pow₀ (by decide)
    change -2 ^ (bits - 1) ≤ a.tdiv b ∧ a.tdiv b ≤ 2 ^ (bits - 1) - 1
    refine ⟨by omega, ?_⟩
    by_cases hminimum : a = -2 ^ (bits - 1)
    · have hne : b ≠ -1 := fun hb => h ⟨rfl, hminimum, hb⟩
      have hquotient : (a.tdiv b).natAbs = a.natAbs / b.natAbs := Int.natAbs_tdiv a b
      rcases Nat.lt_or_ge 1 b.natAbs with hlt | hle
      · have hsmaller : a.natAbs / b.natAbs < a.natAbs := Nat.div_lt_self (by omega) hlt
        omega
      · have hsmall : b = 0 ∨ b = 1 := by omega
        rcases hsmall with rfl | rfl
        · rw [Int.tdiv_zero]
          omega
        · rw [Int.tdiv_one]
          omega
    · omega

end Ranges

end Nocter.TwosComplement
