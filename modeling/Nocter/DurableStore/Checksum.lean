import Mathlib.Logic.Function.Iterate
import Nocter.DurableStore.JournalFormat

/-!
# What the checksum detects

Divided bit by bit, the input is one number, and the division is linear, so the difference of
two valid records leaves nothing. A burst of 32 bits leaves something.
-/

namespace Nocter.DurableStore

open Function

/-- One bit of the division by the polynomial, the lowest bit first. -/
def divideBit (state : ℕ) : ℕ := state / 2 ^^^ (if state % 2 = 1 then 0xEDB88320 else 0)

theorem divideBit_xor (first second : ℕ) :
    divideBit (first ^^^ second) = divideBit first ^^^ divideBit second := by
  simp only [divideBit, Nat.xor_div_two, Nat.xor_mod_two_eq_one]
  by_cases hfirst : first % 2 = 1 <;> by_cases hsecond : second % 2 = 1 <;>
    simp [hfirst, hsecond, Nat.xor_assoc, Nat.xor_left_comm, Nat.xor_comm]

theorem iterate_xor (bits first second : ℕ) :
    divideBit^[bits] (first ^^^ second) = divideBit^[bits] first ^^^ divideBit^[bits] second := by
  induction bits generalizing first second with
  | zero => rfl
  | succ bits ih =>
    rw [iterate_succ_apply, divideBit_xor, ih]
    rfl

theorem iterate_shifted (bits value : ℕ) : divideBit^[bits] (2 ^ bits * value) = value := by
  induction bits with
  | zero => simp
  | succ bits ih =>
    have hbit : divideBit (2 * (2 ^ bits * value)) = 2 ^ bits * value := by simp [divideBit]
    rw [iterate_succ_apply, pow_succ', mul_assoc, hbit, ih]

theorem xor_eq_add {bits low : ℕ} (h : low < 2 ^ bits) (high : ℕ) :
    low ^^^ 2 ^ bits * high = low + 2 ^ bits * high := by
  apply Nat.eq_of_testBit_eq
  intro bit
  rw [add_comm, Nat.testBit_two_pow_mul_add high h, Nat.testBit_xor, Nat.testBit_two_pow_mul]
  split
  · simp [Nat.not_le.mpr ‹bit < bits›]
  · have hlow : low < 2 ^ bit := h.trans_le (Nat.pow_le_pow_right (by decide) (by omega))
    simp [Nat.testBit_lt_two_pow hlow, Nat.not_lt.mp ‹_›]

theorem advanceNibble_eq (state : ℕ) : advanceNibble state = divideBit^[4] state := by
  have htable : ∀ index : Fin crc32Table.length,
      crc32Table.get index = divideBit^[4] index := by decide
  have hstate : state % 16 ^^^ 2 ^ 4 * (state / 16) = state :=
    (@xor_eq_add 4 _ (Nat.mod_lt state (by decide)) _).trans (Nat.mod_add_div state 16)
  rw [advanceNibble, htable, Nat.xor_comm]
  conv_rhs => rw [← hstate, iterate_xor, iterate_shifted]

/-- The division of what follows a message goes on with what the message leaves. -/
theorem foldl_updateByte (message trailer : Bytes) (state : ℕ) :
    message.foldl updateByte state ^^^ decodeLe trailer =
      divideBit^[8 * message.length] (state ^^^ decodeLe (message ++ trailer)) := by
  induction message generalizing state with
  | nil => rfl
  | cons byte message ih =>
    have hvalue : decodeLe (byte :: message ++ trailer) =
        byte.toNat ^^^ 2 ^ 8 * decodeLe (message ++ trailer) := (xor_eq_add byte.toNat_lt _).symm
    have hbyte : updateByte state byte = divideBit^[8] (state ^^^ byte.toNat) := by
      rw [updateByte, advanceNibble_eq, advanceNibble_eq, ← iterate_add_apply]
    rw [List.foldl_cons, ih, hbyte, hvalue, List.length_cons, Nat.mul_succ,
      iterate_add_apply, ← Nat.xor_assoc, iterate_xor 8 (_ ^^^ _), iterate_shifted]

theorem crc32_value (input : Bytes) :
    crc32 input = .ok (input.foldl updateByte crc32Initial ^^^ crc32XorOut) := by
  obtain ⟨checksum, _, h⟩ := crc32_eq input
  simp only [crc32] at h ⊢
  split at h
  · exact if_pos ‹_›
  · cases h

/-- The checksum is what the division leaves of the whole input. -/
theorem crc32_divides (input : Bytes) : crc32 input =
    .ok (divideBit^[8 * input.length] (crc32Initial ^^^ decodeLe input) ^^^ crc32XorOut) := by
  have h := foldl_updateByte input [] crc32Initial
  rw [decodeLe, Nat.xor_zero, List.append_nil] at h
  rw [crc32_value, h]

/-- The division of a valid record, its checksum included, leaves a constant. -/
theorem validateCompleteRecord_eq (header remaining : Bytes) (bodyLen : ℕ) :
    validateCompleteRecord header remaining bodyLen =
      reject (divideBit^[8 * (header.length + min bodyLen remaining.length)] (crc32Initial ^^^
        decodeLe (header ++ remaining.take (bodyLen + journalTrailerBytes))) ≠ crc32XorOut)
        corruptJournal := by
  rw [← List.length_take, ← List.length_append, List.take_add, ← List.append_assoc,
    ← foldl_updateByte]
  simp only [validateCompleteRecord, crc32_value, ok_bind]
  congr 1
  apply propext
  apply not_congr
  constructor
  · intro h
    rw [h, Nat.xor_xor_cancel_left]
  · intro h
    rw [← h, Nat.xor_xor_cancel_left]

theorem divideBit_pos {state : ℕ} (hpos : 0 < state) (hlt : state < 2 ^ 32) :
    0 < divideBit state ∧ divideBit state < 2 ^ 32 := by
  unfold divideBit
  split
  · refine ⟨Nat.pos_of_ne_zero fun h => ?_, Nat.xor_lt_two_pow (by omega) (by decide)⟩
    rw [Nat.xor_eq_zero_iff] at h
    omega
  · rw [Nat.xor_zero]
    omega

theorem burst_remains {bits start burst : ℕ} (hpos : 0 < burst) (hlt : burst < 2 ^ 32) :
    divideBit^[bits] (2 ^ start * burst) ≠ 0 := by
  have hrest (more : ℕ) : 0 < divideBit^[more] burst ∧ divideBit^[more] burst < 2 ^ 32 := by
    induction more with
    | zero => exact ⟨hpos, hlt⟩
    | succ more ih =>
      rw [iterate_succ_apply']
      exact divideBit_pos ih.1 ih.2
  rcases Nat.le_total start bits with h | h
  · obtain ⟨more, rfl⟩ := Nat.exists_eq_add_of_le' h
    rw [iterate_add_apply, iterate_shifted]
    exact (hrest more).1.ne'
  · obtain ⟨more, rfl⟩ := Nat.exists_eq_add_of_le h
    rw [pow_add, mul_assoc, iterate_shifted]
    positivity

/-- A valid record with a burst of at most 32 wrong bits in its header, its body or its checksum
is refused. -/
theorem damaged_record_refused {header remaining header' remaining' : Bytes}
    {bodyLen start burst : ℕ} (hheader : header'.length = header.length)
    (hremaining : remaining'.length = remaining.length)
    (hburst : decodeLe (header ++ remaining.take (bodyLen + journalTrailerBytes)) ^^^
      decodeLe (header' ++ remaining'.take (bodyLen + journalTrailerBytes)) = 2 ^ start * burst)
    (hpos : 0 < burst) (hlt : burst < 2 ^ 32)
    (hvalid : validateCompleteRecord header remaining bodyLen = .ok ()) :
    validateCompleteRecord header' remaining' bodyLen = .error (.error corruptJournal) := by
  rw [validateCompleteRecord_eq] at hvalid ⊢
  have hfirst := not_not.mp (reject_eq_ok.mp hvalid)
  apply if_pos
  intro hsecond
  apply burst_remains hpos hlt
  rw [hheader, hremaining] at hsecond
  have hboth := iterate_xor (8 * (header.length + min bodyLen remaining.length))
    (crc32Initial ^^^ decodeLe (header ++ remaining.take (bodyLen + journalTrailerBytes)))
    (crc32Initial ^^^ decodeLe (header' ++ remaining'.take (bodyLen + journalTrailerBytes)))
  rwa [hfirst, hsecond, Nat.xor_self, Nat.xor_assoc, Nat.xor_left_comm _ crc32Initial,
    Nat.xor_xor_cancel_left, hburst] at hboth

theorem flipped_body_refused : validateCompleteRecord (journalHeader 2 1 1 1)
    (3 :: encodeLe 4 265683156) 1 = .error (.error corruptJournal) :=
  @damaged_record_refused (journalHeader 2 1 1 1) (7 :: encodeLe 4 265683156) _ _ 1 192 4 rfl rfl
    (by decide) (by decide) (by decide) (by decide +kernel)

end Nocter.DurableStore
