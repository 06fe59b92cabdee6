import Nocter.Library.Word

/-!
# Alignment

Rounding up to an alignment gives the first multiple at or after a value. Regions that
are placed one after the other, each at or after the end of the last one, lie apart.
-/

namespace Nocter

/-- The first multiple of the alignment that is not below the value. -/
def roundUp (value alignment : ℕ) : ℕ := alignment * ((value + (alignment - 1)) / alignment)

section RoundUp

variable {value alignment : ℕ}

theorem dvd_roundUp (value alignment : ℕ) : alignment ∣ roundUp value alignment := Dvd.intro _ rfl

theorem le_roundUp (h : 0 < alignment) : value ≤ roundUp value alignment := by
  have hmod := Nat.mod_lt (value + (alignment - 1)) h
  have hdiv := Nat.div_add_mod (value + (alignment - 1)) alignment
  unfold roundUp
  omega

theorem roundUp_le : roundUp value alignment ≤ value + (alignment - 1) := Nat.mul_div_le _ _

/-- A word without the bits of a mask of low bits. -/
theorem and_compl_low {word k : ℕ} (hword : word < 2 ^ 64) (hk : k ≤ 64) :
    word &&& (u64Max - (2 ^ k - 1)) = 2 ^ k * (word / 2 ^ k) := by
  have hlow : 2 ^ k - 1 < 2 ^ 64 := by
    have hpow := Nat.pow_le_pow_right (by decide : 0 < 2) hk
    have hpos := Nat.two_pow_pos k
    omega
  have hmask : u64Max - (2 ^ k - 1) = 2 ^ 64 - ((2 ^ k - 1) + 1) := by
    unfold u64Max
    omega
  refine Nat.eq_of_testBit_eq fun i => ?_
  rw [hmask, Nat.testBit_and, Nat.testBit_two_pow_sub_succ hlow, Nat.testBit_two_pow_sub_one,
    Nat.testBit_two_pow_mul, Nat.testBit_div_two_pow]
  by_cases hi : i < k
  · simp [hi, Nat.not_le.mpr hi]
  · have hle := Nat.le_of_not_lt hi
    rw [Nat.sub_add_cancel hle]
    by_cases hbit : i < 64
    · simp [hbit, hi, hle]
    · have hzero : word.testBit i = false := Nat.testBit_lt_two_pow
        (hword.trans_le (Nat.pow_le_pow_right (by decide) (Nat.le_of_not_lt hbit)))
      simp [hzero]

/-- The checked word arithmetic of rounding up. -/
def checkedRoundUp (value alignment : ℕ) : Option ℕ :=
  (checkedAdd u64Max value (alignment - 1)).map fun sum => sum &&& (u64Max - (alignment - 1))

/-- It reports exactly the values whose multiple is no word. -/
theorem checkedRoundUp_eq_some (h : alignment.isPowerOfTwo) {result : ℕ} :
    checkedRoundUp value alignment = some result ↔
      value + (alignment - 1) ≤ u64Max ∧ result = roundUp value alignment := by
  obtain ⟨k, rfl⟩ := h
  unfold checkedRoundUp
  by_cases hsum : value + (2 ^ k - 1) ≤ u64Max
  · have hk : k ≤ 64 := by
      by_contra hlarge
      have hpow := Nat.pow_le_pow_right (by decide : 0 < 2) (by omega : 65 ≤ k)
      unfold u64Max at hsum
      omega
    rw [checkedAdd_of_le hsum, Option.map_some, Option.some.injEq,
      and_compl_low (by unfold u64Max at hsum; omega) hk]
    exact ⟨fun heq => ⟨hsum, heq.symm⟩, fun heq => heq.2.symm⟩
  · rw [checkedAdd_eq_none.mpr (Nat.lt_of_not_le hsum)]
    exact ⟨nofun, fun hsome => absurd hsome.1 hsum⟩

theorem isPowerOfTwo_max {a b : ℕ} (ha : a.isPowerOfTwo) (hb : b.isPowerOfTwo) :
    (max a b).isPowerOfTwo := by
  rcases le_total a b with h | h
  · rwa [max_eq_right h]
  · rwa [max_eq_left h]

end RoundUp

/-- A range of bytes, or of registers. -/
structure Region where
  offset : ℕ
  size : ℕ
deriving DecidableEq, Repr

def Region.stop (region : Region) : ℕ := region.offset + region.size

/-- The regions lie apart, in their order, between two bounds. -/
structure Packed (regions : List Region) (start stop : ℕ) : Prop where
  above : ∀ region ∈ regions, start ≤ region.offset
  below : ∀ region ∈ regions, region.stop ≤ stop
  apart : regions.Pairwise fun region later => region.stop ≤ later.offset

namespace Packed

variable {regions : List Region} {start stop : ℕ}

theorem nil (start stop : ℕ) : Packed [] start stop :=
  ⟨fun _ h => absurd h List.not_mem_nil, fun _ h => absurd h List.not_mem_nil, List.Pairwise.nil⟩

/-- A region at or behind the end of the others. -/
theorem push (h : Packed regions start stop) {offset size : ℕ} (hstart : start ≤ offset)
    (hoffset : stop ≤ offset) : Packed (regions ++ [⟨offset, size⟩]) start (offset + size) := by
  refine ⟨fun region hregion => ?_, fun region hregion => ?_, List.pairwise_append.mpr
    ⟨h.apart, List.pairwise_singleton _ _, fun region hregion later hlater => ?_⟩⟩
  · rcases List.mem_append.mp hregion with hold | hnew
    · exact h.above region hold
    · rw [List.mem_singleton.mp hnew]
      exact hstart
  · rcases List.mem_append.mp hregion with hold | hnew
    · exact (h.below region hold).trans (hoffset.trans (Nat.le_add_right _ _))
    · rw [List.mem_singleton.mp hnew]
      exact le_rfl
  · rw [List.mem_singleton.mp hlater]
    exact (h.below region hregion).trans hoffset

theorem mono (h : Packed regions start stop) {stop' : ℕ} (hstop : stop ≤ stop') :
    Packed regions start stop' :=
  ⟨h.above, fun region hregion => (h.below region hregion).trans hstop, h.apart⟩

end Packed

end Nocter
