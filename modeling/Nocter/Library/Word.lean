import Mathlib.Data.Nat.Basic
import Mathlib.Order.Lattice
import Mathlib.Tactic
import Mathlib.Tactic.Ring

/-!
# Fixed-width unsigned arithmetic on naturals

A machine word is a natural number below its width's bound. The checked and
saturating operations are the ones the standard library offers on such words.
-/

namespace Nocter

/-- The greatest `u64`. -/
def u64Max : ℕ := 2 ^ 64 - 1

/-- Addition that reports a result above `bound`. -/
def checkedAdd (bound a b : ℕ) : Option ℕ := if a + b ≤ bound then some (a + b) else none

/-- Subtraction that reports a negative result. -/
def checkedSub (a b : ℕ) : Option ℕ := if b ≤ a then some (a - b) else none

def checkedMul (bound a b : ℕ) : Option ℕ := if a * b ≤ bound then some (a * b) else none

/-- A store into an array that reports an index outside. -/
def checkedSet {α : Type*} (values : List α) (index : ℕ) (value : α) : Option (List α) :=
  if index < values.length then some (values.set index value) else none

def saturatingAdd (bound a b : ℕ) : ℕ := min (a + b) bound

theorem checkedAdd_eq_some {bound a b c : ℕ} :
    checkedAdd bound a b = some c ↔ a + b ≤ bound ∧ c = a + b := by
  unfold checkedAdd
  split_ifs with h
  · simp [h, eq_comm]
  · simp [h]

theorem checkedAdd_eq_none {bound a b : ℕ} : checkedAdd bound a b = none ↔ bound < a + b := by
  unfold checkedAdd
  split_ifs with h
  · simp; omega
  · simp; omega

theorem checkedAdd_of_le {bound a b : ℕ} (h : a + b ≤ bound) :
    checkedAdd bound a b = some (a + b) := if_pos h

theorem checkedSub_of_le {a b : ℕ} (h : b ≤ a) : checkedSub a b = some (a - b) := if_pos h

theorem checkedMul_of_le {bound a b : ℕ} (h : a * b ≤ bound) :
    checkedMul bound a b = some (a * b) := if_pos h

theorem checkedSet_of_lt {α : Type*} {values : List α} {index : ℕ} (h : index < values.length)
    (value : α) : checkedSet values index value = some (values.set index value) := if_pos h

theorem saturatingAdd_of_le {bound a b : ℕ} (h : a + b ≤ bound) :
    saturatingAdd bound a b = a + b := min_eq_left h

end Nocter

/-!
# Little-endian words

A natural number below `256 ^ width` is written as `width` bytes, least
significant first, and read back unchanged.
-/

namespace Nocter

def encodeLe : ℕ → ℕ → List UInt8
  | 0, _ => []
  | width + 1, value => UInt8.ofNat (value % 256) :: encodeLe width (value / 256)

def decodeLe : List UInt8 → ℕ
  | [] => 0
  | byte :: bytes => byte.toNat + 256 * decodeLe bytes

@[simp] theorem encodeLe_length (width value : ℕ) : (encodeLe width value).length = width := by
  induction width generalizing value with
  | zero => rfl
  | succ width ih => rw [encodeLe, List.length_cons, ih]

theorem decodeLe_encodeLe {width value : ℕ} (h : value < 256 ^ width) :
    decodeLe (encodeLe width value) = value := by
  induction width generalizing value with
  | zero =>
    rw [pow_zero] at h
    rw [encodeLe, decodeLe]
    omega
  | succ width ih =>
    have hrest : value / 256 < 256 ^ width := by
      rw [Nat.div_lt_iff_lt_mul (by decide), ← pow_succ]
      exact h
    have hbyte : value % 256 % 2 ^ 8 = value % 256 := by omega
    rw [encodeLe, decodeLe, ih hrest, UInt8.toNat_ofNat', hbyte]
    omega

theorem decodeLe_lt (bytes : List UInt8) : decodeLe bytes < 256 ^ bytes.length := by
  induction bytes with
  | nil => exact Nat.zero_lt_one
  | cons byte bytes ih =>
    have hbyte : byte.toNat < 256 := byte.toNat_lt
    rw [decodeLe, List.length_cons, pow_succ]
    omega

/-- Reading bytes and writing them again gives the same bytes. -/
theorem encodeLe_decodeLe (bytes : List UInt8) : encodeLe bytes.length (decodeLe bytes) = bytes := by
  induction bytes with
  | nil => rfl
  | cons byte bytes ih =>
    have hbyte : byte.toNat < 256 := byte.toNat_lt
    have hlow : (byte.toNat + 256 * decodeLe bytes) % 256 = byte.toNat := by omega
    have hhigh : (byte.toNat + 256 * decodeLe bytes) / 256 = decodeLe bytes := by omega
    rw [List.length_cons, encodeLe, decodeLe, hlow, hhigh, ih, UInt8.ofNat_toNat]

end Nocter
