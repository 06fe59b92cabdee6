import Mathlib.Data.List.DropRight
import Mathlib.Data.Nat.Bitwise
import Mathlib.Data.Nat.Size
import Mathlib.Order.Compare
import Nocter.ConstantEvaluation.Decimal
import Nocter.Library.Loop
import Nocter.Library.Word

/-!
# Arithmetic in limbs

Sums, differences, shifts, comparisons and quotients of naturals in limbs. A number has one
representation without a leading zero limb, and comparisons read only that one. Intermediate
values fit 64 bits, so they are natural numbers and only the stored limb is cut. An operation
without a value traps.
-/

namespace Nocter.ConstantEvaluation

/-- `leading_zeros` of a limb. -/
def leadingZeros (limb : UInt32) : ℕ := 32 - Nat.size limb.toNat

namespace BigNat

def one : BigNat := ⟨[1]⟩

def isZero (self : BigNat) : Bool := self.limbs.isEmpty

def bitLen (self : BigNat) : ℕ :=
  match self.limbs.getLast? with
  | none => 0
  | some last => (self.limbs.length - 1) * 32 + (32 - leadingZeros last)

/-- The limbs of 128 bits, without the leading zeros. -/
def fromU128 (value : ℕ) : BigNat :=
  ⟨[lowLimb value, lowLimb (value >>> 32), lowLimb (value >>> 64),
    lowLimb (value >>> 96)].rdropWhile (· == 0)⟩

def multipliedByPowerOfTen (self : BigNat) : (exponent : ℕ) → BigNat
  | 0 => self
  | exponent + 1 => (self.multiplySmall 10).multipliedByPowerOfTen exponent

def powerOfTen (exponent : ℕ) : BigNat := one.multipliedByPowerOfTen exponent

/-- The loop of `shifted`; a carry that is left over is one more limb. -/
def shiftLoop (partialBits : ℕ) : (carry : ℕ) → List UInt32 → List UInt32
  | carry, [] => if carry ≠ 0 then [lowLimb carry] else []
  | carry, limb :: rest =>
    let value := limb.toNat <<< partialBits ||| carry
    lowLimb value :: shiftLoop partialBits (value >>> 32) rest

def shifted (self : BigNat) (bits : ℕ) : BigNat :=
  if self.isZero then zero
  else ⟨List.replicate (bits / 32) 0 ++ shiftLoop (bits % 32) 0 self.limbs⟩

/-- The loop of `add_assign`; a limb that the other number lacks is zero. -/
def sumLoop : (carry : ℕ) → List UInt32 → List UInt32 → List UInt32
  | carry, [], _ => if carry ≠ 0 then [lowLimb carry] else []
  | carry, limb :: rest, other =>
    let value := limb.toNat + (other.headD 0).toNat + carry
    lowLimb value :: sumLoop (value >>> 32) rest other.tail

def addAssign (self other : BigNat) : BigNat :=
  let length := max self.limbs.length other.limbs.length
  ⟨sumLoop 0 (self.limbs ++ List.replicate (length - self.limbs.length) 0) other.limbs⟩

/-- The loop of `subtract_assign`. -/
def differenceLoop : (borrow : ℤ) → List UInt32 → List UInt32 → List UInt32
  | _, [], _ => []
  | borrow, limb :: rest, other =>
    let value : ℤ := limb.toNat - (other.headD 0).toNat - borrow
    UInt32.ofNat (value % 2 ^ 32).toNat ::
      differenceLoop (if value < 0 then 1 else 0) rest other.tail

def cmp (self other : BigNat) : Ordering :=
  (compare self.limbs.length other.limbs.length).then
    (List.compareLex compare self.limbs.reverse other.limbs.reverse)

def subtractAssign (self other : BigNat) : Option BigNat :=
  if self.cmp other = .lt then none
  else some ⟨(differenceLoop 0 self.limbs other.limbs).rdropWhile (· == 0)⟩

/-- One pass of the loop of `remainder`. -/
def remainderPass (denominator self : BigNat) : Option (BigNat ⊕ BigNat) :=
  if self.cmp denominator = .lt then some (.inr self)
  else do
    let shift ← checkedSub self.bitLen denominator.bitLen
    let shifted := denominator.shifted shift
    if self.cmp shifted = .lt then do
      let shift ← checkedSub shift 1
      let self ← self.subtractAssign (denominator.shifted shift)
      some (.inl self)
    else do
      let self ← self.subtractAssign shifted
      some (.inl self)

/-- Every pass takes the highest bit away. -/
def remainder (self denominator : BigNat) : Option (Except FloatLiteralError BigNat) :=
  if denominator.isZero then some (.error .invalid)
  else (Loop.attempt (remainderPass denominator) (self.bitLen + 1) self).map .ok

/-- The loop of `divide_to_u64` over the lower `bits` bits of the quotient. -/
def divideLoop (denominator : BigNat) : (bits : ℕ) → BigNat → (quotient : ℕ) → Option (BigNat × ℕ)
  | 0, self, quotient => some (self, quotient)
  | bit + 1, self, quotient =>
    let shifted := denominator.shifted bit
    if self.cmp shifted ≠ .lt then do
      let self ← self.subtractAssign shifted
      divideLoop denominator bit self (quotient ||| 1 <<< bit)
    else divideLoop denominator bit self quotient

/-- The quotient, and what is left in place. -/
def divideToU64 (self denominator : BigNat) : Option (Except FloatLiteralError ℕ × BigNat) :=
  if denominator.isZero then some (.error .invalid, self)
  else if self.cmp denominator = .lt then some (.ok 0, self)
  else do
    let highest ← checkedSub self.bitLen denominator.bitLen
    if 64 ≤ highest then some (.error .overflow, self)
    else do
      let (self, quotient) ← divideLoop denominator (highest + 1) self 0
      some (.ok quotient, self)

end BigNat

section Limbs

/-- The number that limbs stand for, lowest first. -/
def limbsValue (limbs : List UInt32) : ℕ := Nat.ofDigits (2 ^ 32) (limbs.map (·.toNat))

@[simp] theorem limbsValue_nil : limbsValue [] = 0 := rfl

theorem limbsValue_cons (limb : UInt32) (rest : List UInt32) :
    limbsValue (limb :: rest) = limb.toNat + 2 ^ 32 * limbsValue rest := by
  rw [limbsValue, List.map_cons, Nat.ofDigits_cons]
  rfl

theorem limbsValue_append (low high : List UInt32) :
    limbsValue (low ++ high) = limbsValue low + (2 ^ 32) ^ low.length * limbsValue high := by
  rw [limbsValue, List.map_append, Nat.ofDigits_append, List.length_map]
  rfl

theorem limbsValue_singleton (limb : UInt32) : limbsValue [limb] = limb.toNat := by
  rw [limbsValue_cons, limbsValue_nil, Nat.mul_zero, Nat.add_zero]

theorem limbsValue_zeros (count : ℕ) : limbsValue (List.replicate count 0) = 0 := by
  rw [limbsValue, List.map_replicate]
  exact Nat.ofDigits_replicate_zero

theorem limbsValue_lt (limbs : List UInt32) : limbsValue limbs < (2 ^ 32) ^ limbs.length := by
  have h := Nat.ofDigits_lt_base_pow_length (b := 2 ^ 32) (l := limbs.map (·.toNat)) (by decide)
    (fun digit hdigit => by
      obtain ⟨limb, _, rfl⟩ := List.mem_map.mp hdigit
      exact limb.toNat_lt)
  rwa [List.length_map] at h

/-- Leading zeros do not count. -/
theorem limbsValue_rdropWhile (limbs : List UInt32) :
    limbsValue (limbs.rdropWhile (· == 0)) = limbsValue limbs := by
  induction limbs using List.reverseRecOn with
  | nil => rfl
  | append_singleton rest last ih =>
    rw [List.rdropWhile_concat]
    split
    · next hzero =>
      rw [ih, limbsValue_append, limbsValue_singleton, eq_of_beq hzero]
      rfl
    · rfl

/-- Without a leading zero the number of limbs is the least. -/
theorem pow_le_limbsValue {limbs : List UInt32} (hne : limbs ≠ [])
    (hlast : limbs.getLast? ≠ some 0) : (2 ^ 32) ^ (limbs.length - 1) ≤ limbsValue limbs := by
  obtain ⟨init, last, rfl⟩ := (List.eq_nil_or_concat' limbs).resolve_left hne
  have hpositive : 0 < last.toNat := by
    refine Nat.pos_of_ne_zero fun hzero => hlast ?_
    rw [List.getLast?_concat, UInt32.toNat_inj.mp (hzero.trans rfl : last.toNat = (0 : UInt32).toNat)]
  rw [List.length_append, List.length_singleton, Nat.add_sub_cancel, limbsValue_append,
    limbsValue_singleton]
  exact (Nat.le_mul_of_pos_right _ hpositive).trans (Nat.le_add_left _ _)

theorem getLast?_ne_zero {limbs : List UInt32}
    (h : limbs ≠ [] → (2 ^ 32) ^ (limbs.length - 1) ≤ limbsValue limbs) :
    limbs.getLast? ≠ some 0 := by
  intro hlast
  obtain ⟨init, rfl⟩ := List.getLast?_eq_some_iff.mp hlast
  have hle := h (by simp)
  have hlt := limbsValue_lt init
  rw [List.length_append, List.length_singleton, Nat.add_sub_cancel, limbsValue_append,
    limbsValue_singleton] at hle
  exact absurd hle (Nat.not_le_of_lt hlt)

end Limbs

/-- The bits above `count` bits are those of the higher part. -/
theorem size_add_mul {low count high : ℕ} (hlow : low < 2 ^ count) (hhigh : high ≠ 0) :
    Nat.size (low + 2 ^ count * high) = count + Nat.size high := by
  have hpositive := Nat.size_pos.mpr (Nat.pos_of_ne_zero hhigh)
  apply Nat.le_antisymm
  · rw [Nat.size_le, pow_add]
    calc low + 2 ^ count * high
        < 2 ^ count * (high + 1) := by rw [Nat.mul_add, Nat.mul_one]; omega
      _ ≤ 2 ^ count * 2 ^ Nat.size high := Nat.mul_le_mul_left _ (Nat.lt_size_self high)
  · have htop : 2 ^ (Nat.size high - 1) ≤ high := Nat.lt_size.mp (by omega)
    have hle : 2 ^ (count + (Nat.size high - 1)) ≤ low + 2 ^ count * high := by
      rw [pow_add]
      exact (Nat.mul_le_mul_left _ htop).trans (Nat.le_add_left _ _)
    have hlt := Nat.lt_size.mpr hle
    omega

theorem size_mul_pow {value : ℕ} (hvalue : value ≠ 0) (count : ℕ) :
    Nat.size (value * 2 ^ count) = Nat.size value + count := by
  rw [Nat.mul_comm, ← Nat.zero_add (2 ^ count * value), size_add_mul (Nat.two_pow_pos _) hvalue,
    Nat.add_comm]

/-! A carry that runs through the columns of an operation -/

section Carry

/-- Low limbs of columns and what the columns below carry into them. -/
def carryLoop : (carry : ℕ) → (columns : List ℕ) → List UInt32
  | carry, [] => if carry ≠ 0 then [lowLimb carry] else []
  | carry, column :: rest =>
    lowLimb (column + carry) :: carryLoop ((column + carry) / 2 ^ 32) rest

variable {carry : ℕ} {columns : List ℕ}

theorem carry_lt {column : ℕ} (hcolumn : column + 2 ^ 32 ≤ 2 ^ 64) (hcarry : carry < 2 ^ 32) :
    (column + carry) / 2 ^ 32 < 2 ^ 32 := by
  rw [Nat.div_lt_iff_lt_mul (by decide)]
  omega

theorem limbsValue_carryLoop (hcolumns : ∀ column ∈ columns, column + 2 ^ 32 ≤ 2 ^ 64)
    (hcarry : carry < 2 ^ 32) :
    limbsValue (carryLoop carry columns) = Nat.ofDigits (2 ^ 32) columns + carry := by
  induction columns generalizing carry with
  | nil =>
    rw [carryLoop]
    split
    · rw [limbsValue_singleton, BigNat.toNat_lowLimb, Nat.mod_eq_of_lt hcarry, Nat.ofDigits_nil,
        Nat.zero_add]
    · next hzero =>
      rw [not_not.mp hzero]
      rfl
  | cons column rest ih =>
    rw [List.forall_mem_cons] at hcolumns
    have hsplit := Nat.div_add_mod (column + carry) (2 ^ 32)
    rw [carryLoop, limbsValue_cons, ih hcolumns.2 (carry_lt hcolumns.1 hcarry),
      BigNat.toNat_lowLimb, Nat.ofDigits_cons]
    linarith

/-- There is one more limb only for a carry out of the columns. -/
theorem carryLoop_length (hcolumns : ∀ column ∈ columns, column + 2 ^ 32 ≤ 2 ^ 64)
    (hcarry : carry < 2 ^ 32) : (carryLoop carry columns).length = columns.length ∨
      (carryLoop carry columns).length = columns.length + 1 ∧
        (2 ^ 32) ^ columns.length ≤ limbsValue (carryLoop carry columns) := by
  induction columns generalizing carry with
  | nil =>
    rw [carryLoop]
    split
    · next hpositive =>
      refine Or.inr ⟨rfl, ?_⟩
      rw [limbsValue_singleton, BigNat.toNat_lowLimb, Nat.mod_eq_of_lt hcarry]
      exact Nat.pos_of_ne_zero hpositive
    · exact Or.inl rfl
  | cons column rest ih =>
    rw [List.forall_mem_cons] at hcolumns
    rw [carryLoop, List.length_cons, List.length_cons]
    rcases ih hcolumns.2 (carry_lt hcolumns.1 hcarry) with hsame | ⟨hmore, hvalue⟩
    · exact Or.inl (congrArg (· + 1) hsame)
    · refine Or.inr ⟨congrArg (· + 1) hmore, ?_⟩
      rw [limbsValue_cons, pow_succ']
      exact (Nat.mul_le_mul_left _ hvalue).trans (Nat.le_add_left _ _)

theorem multiplyLoop_eq (multiplier : UInt32) (carry : ℕ) (limbs : List UInt32) :
    BigNat.multiplyLoop multiplier carry limbs =
      carryLoop carry (limbs.map fun limb => limb.toNat * multiplier.toNat) := by
  induction limbs generalizing carry with
  | nil => rfl
  | cons limb rest ih =>
    rw [BigNat.multiplyLoop, ih, List.map_cons, carryLoop]

theorem shiftLoop_eq {partialBits : ℕ} (hcarry : carry < 2 ^ partialBits) (limbs : List UInt32) :
    BigNat.shiftLoop partialBits carry limbs =
      carryLoop carry (limbs.map fun limb => limb.toNat * 2 ^ partialBits) := by
  induction limbs generalizing carry with
  | nil => rfl
  | cons limb rest ih =>
    have hvalue : limb.toNat <<< partialBits ||| carry = limb.toNat * 2 ^ partialBits + carry := by
      rw [← Nat.shiftLeft_add_eq_or_of_lt hcarry, Nat.shiftLeft_eq]
    have hnext : (limb.toNat * 2 ^ partialBits + carry) / 2 ^ 32 < 2 ^ partialBits := by
      rw [Nat.div_lt_iff_lt_mul (by decide)]
      calc limb.toNat * 2 ^ partialBits + carry
          < (limb.toNat + 1) * 2 ^ partialBits := by rw [Nat.add_mul]; omega
        _ ≤ 2 ^ 32 * 2 ^ partialBits := Nat.mul_le_mul_right _ limb.toNat_lt
        _ = 2 ^ partialBits * 2 ^ 32 := Nat.mul_comm _ _
    rw [BigNat.shiftLoop, hvalue, Nat.shiftRight_eq_div_pow, ih hnext, List.map_cons, carryLoop]

theorem carryLoop_zero (limbs : List UInt32) : carryLoop 0 (limbs.map (·.toNat)) = limbs := by
  induction limbs with
  | nil => rfl
  | cons limb rest ih =>
    have hlimb : lowLimb limb.toNat = limb := UInt32.ofNat_toNat
    rw [List.map_cons, carryLoop, Nat.add_zero, Nat.div_eq_of_lt limb.toNat_lt, ih, hlimb]

theorem addLoop_eq (carry : ℕ) (limbs : List UInt32) :
    BigNat.addLoop carry limbs = carryLoop carry (limbs.map (·.toNat)) := by
  induction limbs generalizing carry with
  | nil => rfl
  | cons limb rest ih =>
    rw [BigNat.addLoop, List.map_cons, carryLoop]
    split
    · next hzero => rw [hzero, carryLoop_zero]
    · rw [ih]

/-- The sums of the limbs of two numbers at one place. -/
def columnSums : List UInt32 → List UInt32 → List ℕ
  | [], _ => []
  | limb :: rest, other => (limb.toNat + (other.headD 0).toNat) :: columnSums rest other.tail

theorem sumLoop_eq (carry : ℕ) (limbs other : List UInt32) :
    BigNat.sumLoop carry limbs other = carryLoop carry (columnSums limbs other) := by
  induction limbs generalizing carry other with
  | nil => rfl
  | cons limb rest ih =>
    rw [BigNat.sumLoop, Nat.shiftRight_eq_div_pow, ih, columnSums, carryLoop]

theorem columnSums_length (limbs other : List UInt32) :
    (columnSums limbs other).length = limbs.length := by
  induction limbs generalizing other with
  | nil => rfl
  | cons limb rest ih => rw [columnSums, List.length_cons, ih, List.length_cons]

/-- The lowest limb of a number and the others. -/
theorem limbsValue_headD (limbs : List UInt32) :
    limbsValue limbs = (limbs.headD 0).toNat + 2 ^ 32 * limbsValue limbs.tail := by
  cases limbs with
  | nil => rfl
  | cons limb rest => exact limbsValue_cons limb rest

theorem ofDigits_columnSums {limbs other : List UInt32} (h : other.length ≤ limbs.length) :
    Nat.ofDigits (2 ^ 32) (columnSums limbs other) = limbsValue limbs + limbsValue other := by
  induction limbs generalizing other with
  | nil =>
    rw [List.eq_nil_of_length_eq_zero (Nat.le_zero.mp h)]
    rfl
  | cons limb rest ih =>
    have htail : other.tail.length ≤ rest.length := by
      rw [List.length_tail]
      rw [List.length_cons] at h
      omega
    rw [columnSums, Nat.ofDigits_cons, ih htail, limbsValue_cons, limbsValue_headD other]
    linarith

theorem columnSums_bounded (limbs other : List UInt32) :
    ∀ column ∈ columnSums limbs other, column + 2 ^ 32 ≤ 2 ^ 64 := by
  induction limbs generalizing other with
  | nil => exact fun _ h => absurd h List.not_mem_nil
  | cons limb rest ih =>
    have hlimb := limb.toNat_lt
    have hother := (other.headD 0).toNat_lt
    rw [columnSums, List.forall_mem_cons]
    exact ⟨by omega, ih other.tail⟩

theorem ofDigits_map_mul (limbs : List UInt32) (factor : ℕ) :
    Nat.ofDigits (2 ^ 32) (limbs.map fun limb => limb.toNat * factor) =
      limbsValue limbs * factor := by
  induction limbs with
  | nil => exact (Nat.zero_mul factor).symm
  | cons limb rest ih =>
    rw [List.map_cons, Nat.ofDigits_cons, ih, limbsValue_cons]
    ring

theorem map_mul_bounded (limbs : List UInt32) {factor : ℕ} (hfactor : factor < 2 ^ 32) :
    ∀ column ∈ limbs.map fun limb => limb.toNat * factor, column + 2 ^ 32 ≤ 2 ^ 64 := by
  intro column hcolumn
  obtain ⟨limb, _, rfl⟩ := List.mem_map.mp hcolumn
  have hlimb := limb.toNat_lt
  calc limb.toNat * factor + 2 ^ 32
      ≤ (2 ^ 32 - 1) * (2 ^ 32 - 1) + 2 ^ 32 :=
        Nat.add_le_add_right (Nat.mul_le_mul (by omega) (by omega)) _
    _ ≤ 2 ^ 64 := by decide

end Carry

section Order

theorem compare_toNat (x y : UInt32) : compare x y = compare x.toNat y.toNat := by
  change compareOfLessAndEq x y = compareOfLessAndEq x.toNat y.toNat
  simp only [compareOfLessAndEq, UInt32.lt_iff_toNat_lt, ← UInt32.toNat_inj]

/-- Higher limbs decide. -/
theorem limbsValue_lt_of_lt {low low' : List UInt32} (hlength : low.length = low'.length)
    {high high' : UInt32} (h : high.toNat < high'.toNat) :
    limbsValue (low ++ [high]) < limbsValue (low' ++ [high']) := by
  rw [limbsValue_append, limbsValue_append, limbsValue_singleton, limbsValue_singleton, ← hlength]
  calc limbsValue low + (2 ^ 32) ^ low.length * high.toNat
      < (2 ^ 32) ^ low.length * (high.toNat + 1) := by
        have hlt := limbsValue_lt low
        rw [Nat.mul_add, Nat.mul_one]
        omega
    _ ≤ (2 ^ 32) ^ low.length * high'.toNat := Nat.mul_le_mul_left _ h
    _ ≤ limbsValue low' + (2 ^ 32) ^ low.length * high'.toNat := Nat.le_add_left _ _

theorem compareLex_reverse {limbs other : List UInt32} (h : limbs.length = other.length) :
    List.compareLex compare limbs.reverse other.reverse =
      compare (limbsValue limbs) (limbsValue other) := by
  induction limbs using List.reverseRecOn generalizing other with
  | nil =>
    rw [List.eq_nil_of_length_eq_zero h.symm]
    rfl
  | append_singleton low high ih =>
    obtain ⟨low', high', rfl⟩ := (List.eq_nil_or_concat' other).resolve_left fun hnil => by
      rw [hnil, List.length_append] at h
      cases h
    have hlength : low.length = low'.length := by simpa using h
    rw [List.reverse_concat, List.reverse_concat, List.compareLex_cons_cons, ih hlength,
      compare_toNat]
    rcases Nat.lt_trichotomy high.toNat high'.toNat with hlt | heq | hgt
    · rw [compare_lt_iff_lt.mpr hlt, compare_lt_iff_lt.mpr (limbsValue_lt_of_lt hlength hlt)]
      rfl
    · rw [compare_eq_iff_eq.mpr heq, limbsValue_append, limbsValue_append, limbsValue_singleton,
        limbsValue_singleton, heq, hlength, Nat.compare_eq_ite_lt, Nat.compare_eq_ite_lt]
      simp only [Nat.add_lt_add_iff_right, Ordering.then]
    · rw [compare_gt_iff_gt.mpr hgt,
        compare_gt_iff_gt.mpr (limbsValue_lt_of_lt hlength.symm hgt)]
      rfl

end Order

section Borrow

theorem differenceLoop_length (borrow : ℤ) (limbs other : List UInt32) :
    (BigNat.differenceLoop borrow limbs other).length = limbs.length := by
  induction limbs generalizing borrow other with
  | nil => rfl
  | cons limb rest ih => rw [BigNat.differenceLoop, List.length_cons, ih, List.length_cons]

/-- What the limbs lack is borrowed beyond the highest. -/
theorem differenceLoop_value {limbs other : List UInt32} {borrow : ℤ}
    (hborrow : borrow = 0 ∨ borrow = 1) (h : other.length ≤ limbs.length) :
    ∃ missing : ℤ, (missing = 0 ∨ missing = 1) ∧
      (limbsValue (BigNat.differenceLoop borrow limbs other) : ℤ) + limbsValue other + borrow =
        limbsValue limbs + (2 ^ 32) ^ limbs.length * missing := by
  induction limbs generalizing borrow other with
  | nil =>
    rw [List.eq_nil_of_length_eq_zero (Nat.le_zero.mp h)]
    exact ⟨borrow, hborrow, by simp [BigNat.differenceLoop]⟩
  | cons limb rest ih =>
    have htail : other.tail.length ≤ rest.length := by
      rw [List.length_tail]
      rw [List.length_cons] at h
      omega
    set value : ℤ := limb.toNat - (other.headD 0).toNat - borrow with hvalue
    have hlimb := limb.toNat_lt
    have hother := (other.headD 0).toNat_lt
    have hnext : (if value < 0 then (1 : ℤ) else 0) = 0 ∨ (if value < 0 then (1 : ℤ) else 0) = 1 := by
      split
      · exact Or.inr rfl
      · exact Or.inl rfl
    obtain ⟨missing, hmissing, hrest⟩ := ih hnext htail
    have hdigit : ((UInt32.ofNat (value % 2 ^ 32).toNat).toNat : ℤ) =
        value + 2 ^ 32 * (if value < 0 then 1 else 0) := by
      rw [UInt32.toNat_ofNat', Nat.mod_eq_of_lt (by omega), Int.toNat_of_nonneg (by omega)]
      split
      · omega
      · omega
    refine ⟨missing, hmissing, ?_⟩
    rw [BigNat.differenceLoop, limbsValue_cons, limbsValue_cons, limbsValue_headD other,
      List.length_cons, pow_succ _ rest.length]
    simp only [Nat.cast_add, Nat.cast_mul, Nat.cast_pow, Nat.cast_ofNat]
    rw [← hvalue, hdigit]
    linear_combination (2 : ℤ) ^ 32 * hrest

end Borrow

namespace BigNat

/-- No leading limb is zero. -/
def Normalized (self : BigNat) : Prop := self.limbs.getLast? ≠ some 0

/-- The limbs are those of a number, none of them leading zeros. -/
structure Represents (value : BigNat) (n : ℕ) : Prop where
  normalized : value.Normalized
  toNat_eq : value.toNat = n

variable {self other : BigNat} {a b : ℕ}

theorem represents_of_le {limbs : List UInt32} (hvalue : limbsValue limbs = a)
    (hle : limbs ≠ [] → (2 ^ 32) ^ (limbs.length - 1) ≤ a) : Represents ⟨limbs⟩ a where
  normalized := getLast?_ne_zero fun hne => (hle hne).trans_eq hvalue.symm
  toNat_eq := hvalue

theorem represents_carryLoop {columns : List ℕ} (carry : ℕ)
    (hcolumns : ∀ column ∈ columns, column + 2 ^ 32 ≤ 2 ^ 64) (hcarry : carry < 2 ^ 32)
    (hle : columns ≠ [] → (2 ^ 32) ^ (columns.length - 1) ≤ Nat.ofDigits (2 ^ 32) columns) :
    Represents ⟨carryLoop carry columns⟩ (Nat.ofDigits (2 ^ 32) columns + carry) := by
  have hvalue := limbsValue_carryLoop hcolumns hcarry
  refine represents_of_le hvalue fun hne => ?_
  rcases carryLoop_length hcolumns hcarry with hsame | ⟨hmore, htop⟩
  · rw [hsame]
    refine (hle fun hnil => hne (List.eq_nil_of_length_eq_zero ?_)).trans (Nat.le_add_right _ _)
    rw [hsame, hnil, List.length_nil]
  · rw [hmore, Nat.add_sub_cancel, ← hvalue]
    exact htop

theorem zero_represents : zero.Represents 0 := ⟨(by cases ·), rfl⟩

theorem one_represents : one.Represents 1 := ⟨(by cases ·), by decide⟩

namespace Represents

theorem le (h : self.Represents a) (hne : self.limbs ≠ []) :
    (2 ^ 32) ^ (self.limbs.length - 1) ≤ a :=
  (pow_le_limbsValue hne h.normalized).trans_eq h.toNat_eq

theorem lt (h : self.Represents a) : a < (2 ^ 32) ^ self.limbs.length :=
  h.toNat_eq ▸ limbsValue_lt self.limbs

theorem length_le (h : self.Represents a) {length : ℕ} (hlt : a < (2 ^ 32) ^ length) :
    self.limbs.length ≤ length := by
  by_cases hnil : self.limbs = []
  · rw [hnil]
    exact Nat.zero_le _
  · have hpow := (Nat.pow_lt_pow_iff_right (by decide)).mp ((h.le hnil).trans_lt hlt)
    omega

theorem limbs_eq_nil_iff (h : self.Represents a) : self.limbs = [] ↔ a = 0 := by
  constructor
  · intro hnil
    rw [← h.toNat_eq, toNat, hnil]
    rfl
  · rintro rfl
    exact List.eq_nil_of_length_eq_zero (Nat.le_zero.mp (h.length_le Nat.one_pos))

theorem isZero_iff (h : self.Represents a) : self.isZero = true ↔ a = 0 := by
  rw [isZero, List.isEmpty_iff]
  exact h.limbs_eq_nil_iff

theorem multiplySmall (h : self.Represents a) {multiplier : UInt32} (hne : multiplier ≠ 0) :
    (self.multiplySmall multiplier).Represents (a * multiplier.toNat) := by
  have hpositive : 0 < multiplier.toNat :=
    Nat.pos_of_ne_zero fun hzero => hne (UInt32.toNat_inj.mp hzero)
  have hvalue : Nat.ofDigits (2 ^ 32) (self.limbs.map fun limb => limb.toNat * multiplier.toNat) =
      a * multiplier.toNat := by
    rw [ofDigits_map_mul, ← h.toNat_eq]
    rfl
  have hloop := represents_carryLoop 0 (map_mul_bounded self.limbs multiplier.toNat_lt)
    (by decide) (fun hnil => by
      rw [hvalue, List.length_map]
      exact (h.le (fun hlimbs => hnil (by rw [hlimbs]; rfl))).trans
        (Nat.le_mul_of_pos_right _ hpositive))
  rwa [← multiplyLoop_eq, hvalue, Nat.add_zero] at hloop

theorem shiftLoop (h : self.Represents a) {partialBits : ℕ} (hbits : partialBits < 32) :
    Represents ⟨BigNat.shiftLoop partialBits 0 self.limbs⟩ (a * 2 ^ partialBits) := by
  have hvalue : Nat.ofDigits (2 ^ 32) (self.limbs.map fun limb => limb.toNat * 2 ^ partialBits) =
      a * 2 ^ partialBits := by
    rw [ofDigits_map_mul, ← h.toNat_eq]
    rfl
  have hfactor : 2 ^ partialBits < 2 ^ 32 := Nat.pow_lt_pow_right (by decide) hbits
  have hloop := represents_carryLoop 0 (map_mul_bounded self.limbs hfactor) (by decide)
    (fun hnil => by
      rw [hvalue, List.length_map]
      exact (h.le (fun hlimbs => hnil (by rw [hlimbs]; rfl))).trans
        (Nat.le_mul_of_pos_right _ (Nat.two_pow_pos _)))
  rwa [← shiftLoop_eq (Nat.two_pow_pos _), hvalue, Nat.add_zero] at hloop

theorem shifted (h : self.Represents a) (bits : ℕ) : (self.shifted bits).Represents (a * 2 ^ bits) := by
  unfold BigNat.shifted
  split
  · next hzero =>
    rw [h.isZero_iff.mp hzero, Nat.zero_mul]
    exact zero_represents
  · next hzero =>
    have hpositive : a ≠ 0 := fun heq => hzero (h.isZero_iff.mpr heq)
    have hloop := h.shiftLoop (Nat.mod_lt bits (by decide))
    have hne : BigNat.shiftLoop (bits % 32) 0 self.limbs ≠ [] := fun hnil =>
      Nat.mul_ne_zero hpositive (Nat.two_pow_pos _).ne' (hloop.limbs_eq_nil_iff.mp hnil)
    have hlength := List.length_pos_of_ne_nil hne
    have hpow : a * 2 ^ bits = (2 ^ 32) ^ (bits / 32) * (a * 2 ^ (bits % 32)) := by
      rw [Nat.mul_left_comm, ← pow_mul, ← pow_add, Nat.div_add_mod]
    rw [hpow]
    refine represents_of_le ?_ fun _ => ?_
    · rw [limbsValue_append, limbsValue_zeros, List.length_replicate, Nat.zero_add]
      exact congrArg _ hloop.toNat_eq
    · rw [List.length_append, List.length_replicate, Nat.add_sub_assoc hlength, pow_add]
      exact Nat.mul_le_mul_left _ (hloop.le hne)

theorem addAssign (hself : self.Represents a) (hother : other.Represents b) :
    (self.addAssign other).Represents (a + b) := by
  set padded := self.limbs ++
    List.replicate (max self.limbs.length other.limbs.length - self.limbs.length) 0 with hpadded
  have hlength : padded.length = max self.limbs.length other.limbs.length := by
    rw [hpadded, List.length_append, List.length_replicate]
    omega
  have hpaddedValue : limbsValue padded = a := by
    rw [hpadded, limbsValue_append, limbsValue_zeros, Nat.mul_zero, Nat.add_zero]
    exact hself.toNat_eq
  have hvalue : Nat.ofDigits (2 ^ 32) (columnSums padded other.limbs) = a + b := by
    rw [ofDigits_columnSums (by omega), hpaddedValue]
    exact congrArg _ hother.toNat_eq
  have hloop := represents_carryLoop 0 (columnSums_bounded padded other.limbs) (by decide)
    (fun hnil => by
      have hpositive : 0 < padded.length := by
        rw [← columnSums_length padded other.limbs]
        exact List.length_pos_of_ne_nil hnil
      rw [hvalue, columnSums_length, hlength]
      rcases Nat.le_total self.limbs.length other.limbs.length with hle | hle
      · rw [max_eq_right hle]
        have hne : other.limbs ≠ [] := List.ne_nil_of_length_pos (by omega)
        exact (hother.le hne).trans (Nat.le_add_left _ _)
      · rw [max_eq_left hle]
        have hne : self.limbs ≠ [] := List.ne_nil_of_length_pos (by omega)
        exact (hself.le hne).trans (Nat.le_add_right _ _))
  rwa [← sumLoop_eq, hvalue, Nat.add_zero] at hloop

theorem cmp (hself : self.Represents a) (hother : other.Represents b) :
    self.cmp other = compare a b := by
  unfold BigNat.cmp
  rcases Nat.lt_trichotomy self.limbs.length other.limbs.length with hlt | heq | hgt
  · have hless : a < b := hself.lt.trans_le
      ((Nat.pow_le_pow_right (by decide) (by omega)).trans
        (hother.le (List.ne_nil_of_length_pos (by omega))))
    rw [compare_lt_iff_lt.mpr hlt, compare_lt_iff_lt.mpr hless]
    rfl
  · rw [compare_eq_iff_eq.mpr heq, compareLex_reverse heq, ← hself.toNat_eq, ← hother.toNat_eq]
    rfl
  · have hless : b < a := hother.lt.trans_le
      ((Nat.pow_le_pow_right (by decide) (by omega)).trans
        (hself.le (List.ne_nil_of_length_pos (by omega))))
    rw [compare_gt_iff_gt.mpr hgt, compare_gt_iff_gt.mpr hless]
    rfl

theorem subtractAssign (hself : self.Represents a) (hother : other.Represents b) (hle : b ≤ a) :
    ∃ difference, self.subtractAssign other = some difference ∧ difference.Represents (a - b) := by
  have hcmp : self.cmp other ≠ .lt := by
    rw [hself.cmp hother]
    exact fun h => absurd (compare_lt_iff_lt.mp h) (Nat.not_lt_of_le hle)
  obtain ⟨missing, hmissing, hvalue⟩ := differenceLoop_value
    (Or.inl (rfl : (0 : ℤ) = 0)) (hother.length_le (hle.trans_lt hself.lt))
  have hself' : limbsValue self.limbs = a := hself.toNat_eq
  have hother' : limbsValue other.limbs = b := hother.toNat_eq
  have hlt := limbsValue_lt (differenceLoop 0 self.limbs other.limbs)
  rw [differenceLoop_length] at hlt
  have hdifference : limbsValue (differenceLoop 0 self.limbs other.limbs) = a - b := by
    rw [hself', hother'] at hvalue
    rcases hmissing with rfl | rfl
    · omega
    · rw [mul_one] at hvalue
      zify at hlt
      omega
  refine ⟨_, if_neg hcmp, ?_, ?_⟩
  · intro hlast
    have hne : (differenceLoop 0 self.limbs other.limbs).rdropWhile (· == 0) ≠ [] := by
      intro hnil
      rw [hnil] at hlast
      cases hlast
    rw [List.getLast?_eq_getLast_of_ne_nil hne, Option.some.injEq] at hlast
    exact List.rdropWhile_last_not _ _ hne (beq_iff_eq.mpr hlast)
  · exact (limbsValue_rdropWhile _).trans hdifference

/-- The bits of a number without its leading zeros. -/
theorem bitLen (h : self.Represents a) : self.bitLen = Nat.size a := by
  unfold BigNat.bitLen
  split
  · next hnone =>
    rw [h.limbs_eq_nil_iff.mp (List.getLast?_eq_none_iff.mp hnone)]
    rfl
  · next last hlast =>
    obtain ⟨low, hlimbs⟩ := List.getLast?_eq_some_iff.mp hlast
    have hpositive : last.toNat ≠ 0 := fun hzero =>
      h.normalized (hlast.trans (congrArg some (UInt32.toNat_inj.mp hzero)))
    have hsize : Nat.size last.toNat ≤ 32 := Nat.size_le.mpr last.toNat_lt
    have hvalue : a = limbsValue low + (2 ^ 32) ^ low.length * last.toNat := by
      rw [← h.toNat_eq, ← limbsValue_singleton last, ← limbsValue_append, ← hlimbs]
      rfl
    have hlow := limbsValue_lt low
    rw [← pow_mul] at hvalue hlow
    rw [hvalue, size_add_mul hlow hpositive, hlimbs, List.length_append, List.length_singleton,
      leadingZeros]
    omega

/-- One pass takes a multiple of the denominator that has the highest bit of the number away, or
the next one below. -/
theorem remainderPass {denominator : BigNat} (hself : self.Represents a)
    (hdenominator : denominator.Represents b) (hpositive : 0 < b) :
    (a < b ∧ BigNat.remainderPass denominator self = some (.inr self)) ∨
      ∃ next rest, BigNat.remainderPass denominator self = some (.inl next) ∧
        next.Represents rest ∧ rest % b = a % b ∧ Nat.size rest < Nat.size a := by
  unfold BigNat.remainderPass
  rw [hself.cmp hdenominator, hself.bitLen, hdenominator.bitLen]
  by_cases hlt : a < b
  · rw [if_pos (compare_lt_iff_lt.mpr hlt)]
    exact Or.inl ⟨hlt, rfl⟩
  · have hle : b ≤ a := Nat.le_of_not_lt hlt
    have hsize := Nat.size_le_size hle
    have hsizeB := Nat.size_pos.mpr hpositive
    rw [if_neg (fun hcmp => hlt (compare_lt_iff_lt.mp hcmp)), checkedSub_of_le hsize]
    refine Or.inr ?_
    simp only [Option.bind_eq_bind, Option.bind_some]
    set shift := Nat.size a - Nat.size b with hshift
    have hshifted := hdenominator.shifted shift
    have hhigh : Nat.size (b * 2 ^ shift) = Nat.size a := by
      rw [size_mul_pow hpositive.ne']
      omega
    have hbelow := Nat.lt_size_self a
    have htop : 2 ^ (Nat.size a - 1) ≤ a := Nat.lt_size.mp (by omega)
    have hdouble : 2 ^ Nat.size a = 2 * 2 ^ (Nat.size a - 1) := by
      rw [← pow_succ', Nat.sub_add_cancel (by omega)]
    rw [hself.cmp hshifted]
    by_cases hless : a < b * 2 ^ shift
    · have hshiftPositive : 1 ≤ shift := Nat.pos_of_ne_zero fun hzero => by
        rw [hzero, pow_zero, Nat.mul_one] at hless
        exact hlt hless
      have hhalf : b * 2 ^ shift = 2 * (b * 2 ^ (shift - 1)) := by
        rw [Nat.mul_left_comm, ← pow_succ', Nat.sub_add_cancel hshiftPositive]
      have hsmall : b * 2 ^ (shift - 1) < 2 ^ (Nat.size a - 1) := by
        rw [← Nat.size_le, size_mul_pow hpositive.ne']
        omega
      obtain ⟨next, hnext, hrepresents⟩ := hself.subtractAssign
        (hdenominator.shifted (shift - 1)) (by omega)
      rw [if_pos (compare_lt_iff_lt.mpr hless), checkedSub_of_le hshiftPositive, Option.bind_some,
        hnext, Option.bind_some]
      refine ⟨next, _, rfl, hrepresents, Nat.sub_mul_mod (by omega), ?_⟩
      have hsizeRest : Nat.size (a - b * 2 ^ (shift - 1)) ≤ Nat.size a - 1 :=
        Nat.size_le.mpr (by omega)
      omega
    · have hlarge : 2 ^ (Nat.size a - 1) ≤ b * 2 ^ shift := Nat.lt_size.mp (by omega)
      obtain ⟨next, hnext, hrepresents⟩ := hself.subtractAssign hshifted (by omega)
      rw [if_neg (fun hcmp => hless (compare_lt_iff_lt.mp hcmp)), hnext, Option.bind_some]
      refine ⟨next, _, rfl, hrepresents, Nat.sub_mul_mod (by omega), ?_⟩
      have hsizeRest : Nat.size (a - b * 2 ^ shift) ≤ Nat.size a - 1 :=
        Nat.size_le.mpr (by omega)
      omega

/-- The loop ends below the denominator. -/
theorem remainder {denominator : BigNat} (hself : self.Represents a)
    (hdenominator : denominator.Represents b) (hpositive : 0 < b) :
    ∃ rest, self.remainder denominator = some (.ok rest) ∧ rest.Represents (a % b) := by
  have hbody : ∀ state : BigNat, (∃ n, state.Represents n ∧ n % b = a % b) →
      (∃ next, BigNat.remainderPass denominator state = some (.inl next) ∧
        (∃ n, next.Represents n ∧ n % b = a % b) ∧ Nat.size next.toNat < Nat.size state.toNat) ∨
      ∃ rest, BigNat.remainderPass denominator state = some (.inr rest) ∧
        rest.Represents (a % b) := by
    rintro state ⟨n, hstate, hmod⟩
    rcases hstate.remainderPass hdenominator hpositive with
      ⟨hlt, hpass⟩ | ⟨next, rest, hpass, hnext, hrest, hsize⟩
    · refine Or.inr ⟨state, hpass, ?_⟩
      rwa [← hmod, Nat.mod_eq_of_lt hlt]
    · refine Or.inl ⟨next, hpass, ⟨rest, hnext, hrest.trans hmod⟩, ?_⟩
      rwa [hnext.toNat_eq, hstate.toNat_eq]
  obtain ⟨rest, hrest, hrepresents⟩ := Loop.attempt_spec (fun state : BigNat => Nat.size state.toNat) hbody
    ⟨a, hself, rfl⟩ (show Nat.size self.toNat < self.bitLen + 1 by
      rw [hself.bitLen, hself.toNat_eq]
      exact Nat.lt_succ_self _)
  refine ⟨rest, ?_, hrepresents⟩
  rw [BigNat.remainder, if_neg (fun hzero => hpositive.ne' (hdenominator.isZero_iff.mp hzero)), hrest]
  rfl

/-- The lower bits of a quotient join the higher ones that are known. -/
theorem divideLoop {denominator : BigNat} (hdenominator : denominator.Represents b)
    (hpositive : 0 < b) {bits quotient : ℕ} (hself : self.Represents a) (hlt : a < b * 2 ^ bits)
    (hquotient : 2 ^ bits ∣ quotient) :
    ∃ rest, BigNat.divideLoop denominator bits self quotient = some (rest, quotient + a / b) ∧
      rest.Represents (a % b) := by
  induction bits generalizing self a quotient with
  | zero =>
    rw [pow_zero, Nat.mul_one] at hlt
    rw [BigNat.divideLoop, Nat.div_eq_of_lt hlt, Nat.mod_eq_of_lt hlt]
    exact ⟨self, rfl, hself⟩
  | succ bit ih =>
    have hshifted := hdenominator.shifted bit
    rw [pow_succ, ← Nat.mul_assoc] at hlt
    rw [BigNat.divideLoop, hself.cmp hshifted]
    by_cases hless : a < b * 2 ^ bit
    · rw [if_neg (not_not.mpr (compare_lt_iff_lt.mpr hless))]
      exact ih hself hless ((Nat.pow_dvd_pow 2 (Nat.le_succ bit)).trans hquotient)
    · obtain ⟨next, hnext, hrepresents⟩ := hself.subtractAssign hshifted (by omega)
      have hjoined : quotient ||| 1 <<< bit = quotient + 2 ^ bit := by
        obtain ⟨higher, rfl⟩ := hquotient
        rw [Nat.shiftLeft_eq, Nat.one_mul, Nat.mul_comm, ← Nat.shiftLeft_eq,
          Nat.shiftLeft_add_eq_or_of_lt (Nat.pow_lt_pow_right (by decide) (Nat.lt_succ_self bit))]
      have hdvd : 2 ^ bit ∣ quotient + 2 ^ bit :=
        (Nat.dvd_add_right ((Nat.pow_dvd_pow 2 (Nat.le_succ bit)).trans hquotient)).mpr dvd_rfl
      have hdiv : (a - b * 2 ^ bit) / b = a / b - 2 ^ bit := Nat.sub_mul_div a b (2 ^ bit)
      have hle : 2 ^ bit ≤ a / b := by
        rw [Nat.le_div_iff_mul_le hpositive, Nat.mul_comm]
        omega
      obtain ⟨rest, hloop, hrest⟩ := ih hrepresents (by omega) hdvd
      rw [Nat.sub_mul_mod (by omega)] at hrest
      rw [if_pos (fun hcmp => hless (compare_lt_iff_lt.mp hcmp)), hnext, hjoined]
      refine ⟨rest, ?_, hrest⟩
      rw [Option.bind_eq_bind, Option.bind_some, hloop, hdiv]
      congr 2
      omega

/-- The quotient is found where the highest bits are less than 64 places apart. -/
theorem divideToU64 {denominator : BigNat} (hself : self.Represents a)
    (hdenominator : denominator.Represents b) (hpositive : 0 < b) :
    if Nat.size a - Nat.size b < 64 then
      ∃ rest, self.divideToU64 denominator = some (.ok (a / b), rest) ∧ rest.Represents (a % b)
    else self.divideToU64 denominator = some (.error .overflow, self) := by
  rw [BigNat.divideToU64, if_neg (fun hzero => hpositive.ne' (hdenominator.isZero_iff.mp hzero)),
    hself.cmp hdenominator, hself.bitLen, hdenominator.bitLen]
  by_cases hlt : a < b
  · have hsize := Nat.size_le_size hlt.le
    rw [if_pos (compare_lt_iff_lt.mpr hlt), if_pos (by omega), Nat.div_eq_of_lt hlt,
      Nat.mod_eq_of_lt hlt]
    exact ⟨self, rfl, hself⟩
  · have hle : b ≤ a := Nat.le_of_not_lt hlt
    have hsize := Nat.size_le_size hle
    rw [if_neg (fun hcmp => hlt (compare_lt_iff_lt.mp hcmp)), checkedSub_of_le hsize]
    simp only [Option.bind_eq_bind, Option.bind_some]
    by_cases hhighest : Nat.size a - Nat.size b < 64
    · have hbits : a < b * 2 ^ (Nat.size a - Nat.size b + 1) := by
        have hpow : 2 ^ Nat.size a ≤ b * 2 ^ (Nat.size a - Nat.size b + 1) := by
          rw [← Nat.lt_size, size_mul_pow hpositive.ne']
          omega
        exact (Nat.lt_size_self a).trans_le hpow
      obtain ⟨rest, hloop, hrest⟩ := divideLoop hdenominator hpositive hself hbits (dvd_zero _)
      rw [if_pos hhighest, if_neg (by omega), hloop, Nat.zero_add]
      exact ⟨rest, rfl, hrest⟩
    · rw [if_neg hhighest, if_pos (by omega)]

theorem addSmall (h : self.Represents a) (addend : UInt32) :
    (self.addSmall addend).Represents (a + addend.toNat) := by
  have hvalue : Nat.ofDigits (2 ^ 32) (self.limbs.map (·.toNat)) = a := h.toNat_eq
  have hbounded : ∀ column ∈ self.limbs.map (·.toNat), column + 2 ^ 32 ≤ 2 ^ 64 := by
    intro column hcolumn
    obtain ⟨limb, _, rfl⟩ := List.mem_map.mp hcolumn
    have hlimb := limb.toNat_lt
    omega
  have hloop := represents_carryLoop _ hbounded addend.toNat_lt (fun hnil => by
    rw [hvalue, List.length_map]
    exact h.le fun hlimbs => hnil (by rw [hlimbs]; rfl))
  rwa [← addLoop_eq, hvalue] at hloop

theorem multipliedByPowerOfTen (h : self.Represents a) (exponent : ℕ) :
    (self.multipliedByPowerOfTen exponent).Represents (a * 10 ^ exponent) := by
  induction exponent generalizing self a with
  | zero => rwa [BigNat.multipliedByPowerOfTen, pow_zero, Nat.mul_one]
  | succ exponent ih =>
    have hten := ih (h.multiplySmall (show (10 : UInt32) ≠ 0 by decide))
    rwa [Nat.mul_assoc, show (10 : UInt32).toNat = 10 from rfl, ← pow_succ'] at hten

end Represents

theorem powerOfTen_represents (exponent : ℕ) : (powerOfTen exponent).Represents (10 ^ exponent) := by
  have h := one_represents.multipliedByPowerOfTen exponent
  rwa [Nat.one_mul] at h

theorem fromDecimalDigits_represents (digits : List UInt8) :
    (fromDecimalDigits digits).Represents (readDigits 10 0 (digits.map (·.toNat))) := by
  have hloop : ∀ (digits : List UInt8) (start : BigNat) (n : ℕ), start.Represents n →
      (digits.foldl (fun value digit => (value.multiplySmall 10).addSmall digit.toUInt32)
        start).Represents (readDigits 10 n (digits.map (·.toNat))) := by
    intro digits
    induction digits with
    | nil => exact fun start n h => h
    | cons digit rest ih =>
      exact fun start n h =>
        ih _ _ ((h.multiplySmall (show (10 : UInt32) ≠ 0 by decide)).addSmall digit.toUInt32)
  exact hloop digits zero 0 zero_represents

/-- Decimal digits are scaled by one power of ten and divided by another. -/
theorem decimal_divides (digits : List UInt8) (up down : ℕ) :
    let number := readDigits 10 0 (digits.map (·.toNat)) * 10 ^ up
    let scaled := (fromDecimalDigits digits).multipliedByPowerOfTen up
    if Nat.size number - Nat.size (10 ^ down) < 64 then
      ∃ rest, scaled.divideToU64 (powerOfTen down) = some (.ok (number / 10 ^ down), rest) ∧
        rest.Represents (number % 10 ^ down)
    else scaled.divideToU64 (powerOfTen down) = some (.error .overflow, scaled) :=
  ((fromDecimalDigits_represents digits).multipliedByPowerOfTen up).divideToU64
    (powerOfTen_represents down) (Nat.pow_pos (by decide))

/-- Every number is represented. -/
theorem exists_represents (n : ℕ) : ∃ value : BigNat, value.Represents n := by
  induction n with
  | zero => exact ⟨zero, zero_represents⟩
  | succ n ih =>
    obtain ⟨value, h⟩ := ih
    exact ⟨value.addSmall 1, h.addSmall 1⟩

/-- What the operations give for the representations of two numbers. -/
structure Exact (self other : BigNat) (a b : ℕ) : Prop where
  addAssign : (self.addAssign other).Represents (a + b)
  subtractAssign : b ≤ a →
    ∃ difference, self.subtractAssign other = some difference ∧ difference.Represents (a - b)
  multiplySmall : ∀ multiplier : UInt32, (self.multiplySmall multiplier).toNat = a * multiplier.toNat ∧
    (multiplier ≠ 0 → (self.multiplySmall multiplier).Normalized)
  addSmall : ∀ addend : UInt32, (self.addSmall addend).Represents (a + addend.toNat)
  shifted : ∀ bits, (self.shifted bits).Represents (a * 2 ^ bits)
  cmp : self.cmp other = compare a b
  remainder : 0 < b → ∃ rest, self.remainder other = some (.ok rest) ∧ rest.Represents (a % b)
  divideToU64 : 0 < b →
    if Nat.size a - Nat.size b < 64 then
      ∃ rest, self.divideToU64 other = some (.ok (a / b), rest) ∧ rest.Represents (a % b)
    else self.divideToU64 other = some (.error .overflow, self)
  byZero : b = 0 → self.remainder other = some (.error .invalid) ∧
    self.divideToU64 other = some (.error .invalid, self)

/-- Every number is represented, and the operations on representations are those on numbers. -/
theorem bigNat_exact (a b : ℕ) : (∃ self : BigNat, self.Represents a) ∧
    ∀ self other : BigNat, self.Represents a → other.Represents b → Exact self other a b := by
  refine ⟨exists_represents a, fun self other hself hother => ?_⟩
  exact {
    addAssign := hself.addAssign hother
    subtractAssign := hself.subtractAssign hother
    multiplySmall := fun multiplier => by
      refine ⟨?_, fun hne => (hself.multiplySmall hne).normalized⟩
      rw [toNat_multiplySmall, hself.toNat_eq]
    addSmall := hself.addSmall
    shifted := hself.shifted
    cmp := hself.cmp hother
    remainder := hself.remainder hother
    divideToU64 := hself.divideToU64 hother
    byZero := fun hzero => by
      have hisZero := hother.isZero_iff.mpr hzero
      exact ⟨if_pos hisZero, if_pos hisZero⟩ }

/-- A product with zero keeps its limbs, and a quotient below `2 ^ 64` may be refused. -/
theorem product_and_quotient_inexact :
    one.Normalized ∧ ¬ (one.multiplySmall 0).Normalized ∧
      ((one.shifted 65).divideToU64 ⟨[3]⟩).map Prod.fst = some (.error .overflow) ∧
      (one.shifted 65).toNat / (⟨[3]⟩ : BigNat).toNat < 2 ^ 64 := by
  refine ⟨one_represents.normalized, fun h => h rfl, by decide +kernel, by decide +kernel⟩

/-- Two limbs are divided. -/
theorem two_limbs_exact : Exact ⟨[0, 1]⟩ ⟨[10]⟩ (2 ^ 32) 10 :=
  (bigNat_exact (2 ^ 32) 10).2 ⟨[0, 1]⟩ ⟨[10]⟩ ⟨(by cases ·), by decide⟩ ⟨(by cases ·), by decide⟩

end BigNat

end Nocter.ConstantEvaluation
