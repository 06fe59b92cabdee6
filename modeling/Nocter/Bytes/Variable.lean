import Nocter.Library.Leb128
import Nocter.Library.Loop
import Nocter.Library.TwosComplement
import Nocter.Library.Word

/-!
# Canonical variable-width integer codecs

The codecs of `std/bytes` for unsigned and for zigzag-signed 64-bit integers, with the checks of
the machine's arithmetic and of the indices: an operation has no result where it would trap.
-/

namespace Nocter.Variable

inductive PrefixDecode (α : Type*) where
  | decoded (value : α) (consumed : ℕ)
  | incomplete
  | overflow
  | nonCanonical
deriving DecidableEq

section Unsigned

/-- The loop of `decode_uleb128` at an index, over the bytes from there on. -/
def decodeUleb128From (value place index : ℕ) : List UInt8 → Option (PrefixDecode ℕ)
  | [] => some .incomplete
  | byte :: rest =>
    if index < 10 then do
      let payload := byte.toNat % 128
      if index = 9 ∧ 1 < payload then return .overflow
      let product ← checkedMul u64Max payload place
      let value ← checkedAdd u64Max value product
      if byte.toNat < 128 then
        if 0 < index ∧ payload = 0 then return .nonCanonical
        return .decoded value (index + 1)
      if index = 9 then return .overflow
      let place ← checkedMul u64Max place 128
      decodeUleb128From value place (index + 1) rest
    else some .incomplete

def decodeUleb128 (input : List UInt8) : Option (PrefixDecode ℕ) := decodeUleb128From 0 1 0 input

def uleb128WidthFrom (width remaining : ℕ) : ℕ :=
  if 128 ≤ remaining then uleb128WidthFrom (width + 1) (remaining / 128) else width
termination_by remaining
decreasing_by omega

def uleb128Width (value : ℕ) : ℕ := uleb128WidthFrom 1 value

/-- One pass of the loop of `encode_uleb128`. -/
def encodeStep (width index : ℕ) (state : List UInt8 × ℕ) : Option (List UInt8 × ℕ) := do
  let payload := (UInt8.ofNat (state.2 % 128)).toNat
  let byte ← if index + 1 < width then checkedAdd 255 payload 128 else some payload
  let output ← checkedSet state.1 index (UInt8.ofNat byte)
  return (output, state.2 / 128)

/-- The output bytes after the call, and the width that it returns. -/
def encodeUleb128 (output : List UInt8) (value : ℕ) : Option (List UInt8 × Option ℕ) :=
  let width := uleb128Width value
  if output.length < width then some (output, none)
  else do
    let final ← Loop.counted (encodeStep width) width 0 (output, value)
    return (final.1, some width)

end Unsigned

section ZigZag

open TwosComplement

def toBits (value : ℤ) : ℕ := (BitVec.ofInt 64 value).toNat

def fromBits (bits : ℕ) : ℤ := (BitVec.ofNat 64 bits).toInt

def zigzagEncode (value : ℤ) : Option ℕ :=
  if 0 ≤ value then checkedMul u64Max (toBits value) 2
  else do
    let next ← checked 64 true (value + 1)
    let magnitude ← checked 64 true (-next)
    let double ← checkedMul u64Max (toBits magnitude) 2
    checkedAdd u64Max double 1

def zigzagDecode (value : ℕ) : Option ℤ :=
  let magnitude := fromBits (value / 2)
  if value % 2 = 0 then some magnitude
  else do
    let negated ← checked 64 true (-magnitude)
    checked 64 true (negated - 1)

def zigzagUleb128Width (value : ℤ) : Option ℕ := (zigzagEncode value).map uleb128Width

def decodeZigzagUleb128 (input : List UInt8) : Option (PrefixDecode ℤ) := do
  match ← decodeUleb128 input with
  | .decoded value consumed => return .decoded (← zigzagDecode value) consumed
  | .incomplete => return .incomplete
  | .overflow => return .overflow
  | .nonCanonical => return .nonCanonical

def encodeZigzagUleb128 (output : List UInt8) (value : ℤ) : Option (List UInt8 × Option ℕ) := do
  encodeUleb128 output (← zigzagEncode value)

end ZigZag

section Decoding

open Leb128

variable {continuing rest : List UInt8} {byte : UInt8}

theorem pow_group_le {groups : ℕ} (h : groups ≤ 9) : 128 ^ groups ≤ 2 ^ 63 :=
  calc 128 ^ groups ≤ 128 ^ 9 := Nat.pow_le_pow_right (by omega) h
    _ = 2 ^ 63 := by norm_num

/-- A pass over a byte that announces another one. -/
theorem decodeUleb128From_cons {done : List UInt8} (hdone : done.length < 9)
    (hbyte : 128 ≤ byte.toNat) :
    decodeUleb128From (denote done) (128 ^ done.length) done.length (byte :: rest) =
      decodeUleb128From (denote (done ++ [byte])) (128 ^ (done.length + 1)) (done.length + 1)
        rest := by
  have hplace : 128 ^ (done.length + 1) ≤ 2 ^ 63 := pow_group_le hdone
  have hvalue : denote (done ++ [byte]) < 128 ^ (done.length + 1) := by
    simpa using denote_lt (done ++ [byte])
  rw [denote_append, denote, denote, Nat.mul_zero, Nat.add_zero, Nat.mul_comm] at hvalue
  have hmul : checkedMul u64Max (byte.toNat % 128) (128 ^ done.length) =
      some (byte.toNat % 128 * 128 ^ done.length) := checkedMul_of_le (by unfold u64Max; omega)
  have hadd : checkedAdd u64Max (denote done) (byte.toNat % 128 * 128 ^ done.length) =
      some (denote done + byte.toNat % 128 * 128 ^ done.length) :=
    checkedAdd_of_le (by unfold u64Max; omega)
  have hnext : checkedMul u64Max (128 ^ done.length) 128 = some (128 ^ (done.length + 1)) := by
    rw [pow_succ] at hplace ⊢
    exact checkedMul_of_le (by unfold u64Max; omega)
  rw [decodeUleb128From, if_pos (by omega)]
  simp only [hmul, hadd, hnext, Option.bind_eq_bind, Option.bind_some,
    if_neg (by omega : ¬(done.length = 9 ∧ 1 < byte.toNat % 128)),
    if_neg (by omega : ¬byte.toNat < 128), if_neg (by omega : ¬done.length = 9)]
  rw [denote_append, denote, denote, Nat.mul_zero, Nat.add_zero (byte.toNat % 128),
    Nat.mul_comm (byte.toNat % 128)]

theorem decodeUleb128From_append {done : List UInt8} (hlength : done.length + continuing.length ≤ 9)
    (hcontinuing : Continuing continuing) :
    decodeUleb128From (denote done) (128 ^ done.length) done.length (continuing ++ rest) =
      decodeUleb128From (denote (done ++ continuing)) (128 ^ (done.length + continuing.length))
        (done.length + continuing.length) rest := by
  induction continuing generalizing done with
  | nil => rw [List.append_nil, List.nil_append, List.length_nil, Nat.add_zero]
  | cons byte continuing ih =>
    rw [List.length_cons] at hlength
    obtain ⟨hbyte, hrest⟩ := List.forall_mem_cons.mp hcontinuing
    have hstep := @ih (done ++ [byte])
      (by rw [List.length_append, List.length_singleton]; omega) hrest
    rw [List.cons_append, decodeUleb128From_cons (by omega) hbyte]
    rw [List.length_append, List.length_singleton] at hstep
    rw [hstep, List.append_assoc, List.length_cons, List.singleton_append, Nat.add_assoc,
      Nat.add_comm 1]

theorem decodeUleb128_append (hlength : continuing.length ≤ 9)
    (hcontinuing : Continuing continuing) : decodeUleb128 (continuing ++ rest) =
      decodeUleb128From (denote continuing) (128 ^ continuing.length) continuing.length rest := by
  have h := @decodeUleb128From_append continuing rest [] (by rwa [List.length_nil, Nat.zero_add])
    hcontinuing
  rw [List.length_nil, Nat.zero_add, List.nil_append] at h
  exact h

theorem decodeUleb128_cut (hlength : continuing.length ≤ 9) (hcontinuing : Continuing continuing) :
    decodeUleb128 continuing = some .incomplete := by
  have h := @decodeUleb128_append continuing [] hlength hcontinuing
  rw [List.append_nil] at h
  rw [h, decodeUleb128From]

theorem decodeUleb128_excess (hlength : continuing.length = 9)
    (hcontinuing : Continuing continuing) (hbyte : 1 < byte.toNat) :
    decodeUleb128 (continuing ++ byte :: rest) = some .overflow := by
  have hvalue := denote_lt continuing
  have hplace := pow_group_le hlength.le
  rw [decodeUleb128_append hlength.le hcontinuing, decodeUleb128From, if_pos (by omega)]
  by_cases hpayload : 1 < byte.toNat % 128
  · simp only [if_pos (And.intro hlength hpayload)]
    rfl
  · have hproduct : byte.toNat % 128 * 128 ^ continuing.length ≤ 1 * 128 ^ continuing.length :=
      Nat.mul_le_mul_right _ (Nat.not_lt.mp hpayload)
    have hmul : checkedMul u64Max (byte.toNat % 128) (128 ^ continuing.length) =
        some (byte.toNat % 128 * 128 ^ continuing.length) :=
      checkedMul_of_le (by unfold u64Max; omega)
    have hadd : checkedAdd u64Max (denote continuing) (byte.toNat % 128 * 128 ^ continuing.length) =
        some (denote continuing + byte.toNat % 128 * 128 ^ continuing.length) :=
      checkedAdd_of_le (by unfold u64Max; omega)
    simp only [hmul, hadd, Option.bind_eq_bind, Option.bind_some,
      if_neg (fun h : _ ∧ _ => hpayload h.2), if_neg (by omega : ¬byte.toNat < 128), if_pos hlength]
    rfl

/-- Ten groups reach the top of the 64 bits when the tenth is zero or one. -/
theorem denote_end_le (hlength : continuing.length ≤ 9) (hbyte : byte.toNat < 128)
    (htenth : continuing.length = 9 → byte.toNat ≤ 1) : denote (continuing ++ [byte]) ≤ u64Max := by
  have hvalue := denote_lt continuing
  have hplace := pow_group_le hlength
  rw [denote_append, denote, denote, Nat.mod_eq_of_lt hbyte, Nat.mul_zero, Nat.add_zero]
  unfold u64Max
  by_cases hnine : continuing.length = 9
  · have hone := Nat.mul_le_mul_left (128 ^ continuing.length) (htenth hnine)
    omega
  · have hnext : 128 ^ (continuing.length + 1) ≤ 2 ^ 63 := pow_group_le (by omega)
    have hgroup := Nat.mul_le_mul_left (128 ^ continuing.length) (Nat.le_of_lt_succ hbyte)
    rw [pow_succ] at hnext
    omega

theorem decodeUleb128_end (hlength : continuing.length ≤ 9) (hcontinuing : Continuing continuing)
    (hbyte : byte.toNat < 128) (htenth : continuing.length = 9 → byte.toNat ≤ 1) :
    decodeUleb128 (continuing ++ byte :: rest) =
      some (if continuing ≠ [] ∧ byte = 0 then .nonCanonical
        else .decoded (denote (continuing ++ [byte])) (continuing.length + 1)) := by
  have hvalue := denote_end_le hlength hbyte htenth
  have hbyte' : byte.toNat % 128 = byte.toNat := Nat.mod_eq_of_lt hbyte
  have hdenote : denote (continuing ++ [byte]) =
      denote continuing + byte.toNat * 128 ^ continuing.length := by
    rw [denote_append, denote, denote, hbyte', Nat.mul_zero, Nat.add_zero, Nat.mul_comm]
  rw [hdenote] at hvalue
  have hmul : checkedMul u64Max byte.toNat (128 ^ continuing.length) =
      some (byte.toNat * 128 ^ continuing.length) := checkedMul_of_le (by omega)
  have hadd : checkedAdd u64Max (denote continuing) (byte.toNat * 128 ^ continuing.length) =
      some (denote continuing + byte.toNat * 128 ^ continuing.length) := checkedAdd_of_le hvalue
  have hzero : byte.toNat = 0 ↔ byte = 0 := UInt8.toNat_inj (b := 0)
  have hpos : 0 < continuing.length ↔ continuing ≠ [] := List.length_pos_iff
  rw [decodeUleb128_append hlength hcontinuing, decodeUleb128From, if_pos (by omega), hbyte']
  simp only [hmul, hadd, Option.bind_eq_bind, Option.bind_some, hbyte, if_true,
    if_neg (by omega : ¬(continuing.length = 9 ∧ 1 < byte.toNat)), hzero, hpos, hdenote]
  split <;> rfl

/-- A numeral whose last group is a needless zero. -/
def Padded (input : List UInt8) : Prop := ∃ continuing rest, continuing ≠ [] ∧
  continuing.length ≤ 9 ∧ Continuing continuing ∧ input = continuing ++ 0 :: rest

/-- A numeral with a tenth group that does not fit into 64 bits or announces another one. -/
def Excessive (input : List UInt8) : Prop := ∃ continuing byte rest, continuing.length = 9 ∧
  Continuing continuing ∧ 1 < byte.toNat ∧ input = continuing ++ byte :: rest

/-- The beginning of a longer canonical numeral. -/
def Unfinished (input : List UInt8) : Prop :=
  ∃ value ≤ u64Max, input <+: spell value ∧ input ≠ spell value

theorem length_spell_le_ten {value : ℕ} (h : value ≤ u64Max) : (spell value).length ≤ 10 :=
  length_spell_le (by omega) (Nat.lt_of_le_of_lt h (by norm_num [u64Max]))

theorem decodeUleb128_spell {value : ℕ} (h : value ≤ u64Max) :
    decodeUleb128 (spell value ++ rest) = some (.decoded value (spell value).length) := by
  have hten := length_spell_le_ten h
  obtain ⟨continuing, last, hspell, hcontinuing, hlast, hzero⟩ := exists_spell_eq value
  have hdenote := denote_spell value
  rw [hspell, List.length_append, List.length_singleton] at hten
  rw [hspell] at hdenote
  have htenth : continuing.length = 9 → last.toNat ≤ 1 := by
    intro hnine
    by_contra hone
    have hgroup := Nat.mul_le_mul_left (128 ^ continuing.length) (Nat.not_le.mp hone)
    rw [denote_append, denote, denote, Nat.mod_eq_of_lt hlast, Nat.mul_zero,
      Nat.add_zero last.toNat] at hdenote
    rw [hnine] at hgroup hdenote
    unfold u64Max at h
    omega
  rw [hspell, List.append_assoc, List.singleton_append,
    decodeUleb128_end (by omega) hcontinuing hlast htenth,
    if_neg fun h : _ ∧ _ => hzero h.1 h.2, hdenote, List.length_append, List.length_singleton]

theorem decodeUleb128_unfinished {input : List UInt8} (h : Unfinished input) :
    decodeUleb128 input = some .incomplete := by
  obtain ⟨value, hvalue, hfront, hne⟩ := h
  obtain ⟨hcontinuing, hlength⟩ := continuing_of_isPrefix hfront hne
  have hten := length_spell_le_ten hvalue
  exact decodeUleb128_cut (by omega) hcontinuing

theorem decodeUleb128_padded {input : List UInt8} (h : Padded input) :
    decodeUleb128 input = some .nonCanonical := by
  obtain ⟨continuing, rest, hne, hlength, hcontinuing, rfl⟩ := h
  rw [decodeUleb128_end hlength hcontinuing (by decide) (fun _ => by decide), if_pos ⟨hne, rfl⟩]

theorem decodeUleb128_excessive {input : List UInt8} (h : Excessive input) :
    decodeUleb128 input = some .overflow := by
  obtain ⟨continuing, byte, rest, hlength, hcontinuing, hbyte, rfl⟩ := h
  exact decodeUleb128_excess hlength hcontinuing hbyte

/-- Nine bytes that announce another one begin a canonical numeral of 64 bits. -/
theorem unfinished_of_continuing (hlength : continuing.length ≤ 9)
    (hcontinuing : Continuing continuing) : Unfinished continuing := by
  have hspell := @eq_spell continuing 1 hcontinuing (by decide) (fun _ => by decide)
  refine ⟨denote (continuing ++ [1]), denote_end_le hlength (by decide) (fun _ => by decide),
    hspell ▸ List.prefix_append _ _, fun h => ?_⟩
  have hsame := congrArg List.length (h.trans hspell.symm)
  rw [List.length_append, List.length_singleton] at hsame
  omega

/-- Every byte string has one of the four shapes. -/
theorem exists_shape (input : List UInt8) :
    (∃ value ≤ u64Max, spell value <+: input) ∨ Unfinished input ∨ Padded input ∨
      Excessive input := by
  obtain ⟨continuing, rest, rfl, hcontinuing, hrest⟩ := exists_split input
  rcases Nat.lt_or_ge 9 continuing.length with hlong | hlength
  · -- The tenth byte announces another one.
    refine Or.inr (Or.inr (Or.inr ⟨continuing.take 9, continuing[9], continuing.drop 10 ++ rest,
      List.length_take_of_le hlong.le, fun byte hbyte => hcontinuing byte (List.mem_of_mem_take hbyte),
      ?_, ?_⟩))
    · have := hcontinuing _ (List.getElem_mem hlong)
      omega
    · rw [← List.cons_append, List.getElem_cons_drop, ← List.append_assoc, List.take_append_drop]
  · rcases hrest with rfl | ⟨byte, more, rfl, hbyte⟩
    · rw [List.append_nil]
      exact Or.inr (Or.inl (unfinished_of_continuing hlength hcontinuing))
    · by_cases htenth : continuing.length = 9 → byte.toNat ≤ 1
      · by_cases hzero : continuing ≠ [] ∧ byte = 0
        · obtain ⟨hne, rfl⟩ := hzero
          exact Or.inr (Or.inr (Or.inl ⟨continuing, more, hne, hlength, hcontinuing, rfl⟩))
        · have hspell := eq_spell hcontinuing hbyte (fun hne hbyte => hzero ⟨hne, hbyte⟩)
          refine Or.inl ⟨_, denote_end_le hlength hbyte htenth, hspell ▸ ⟨more, ?_⟩⟩
          rw [List.append_assoc, List.singleton_append]
      · obtain ⟨hnine, hone⟩ := Classical.not_imp.mp htenth
        exact Or.inr (Or.inr (Or.inr
          ⟨continuing, byte, more, hnine, hcontinuing, Nat.not_le.mp hone, rfl⟩))

end Decoding

section Encoding

open Leb128

theorem uleb128WidthFrom_add_one (width value : ℕ) :
    uleb128WidthFrom width value + 1 = width + (spell value).length := by
  induction value using Nat.strongRecOn generalizing width with
  | ind value ih =>
    rw [uleb128WidthFrom]
    rcases Nat.lt_or_ge value 128 with h | h
    · rw [if_neg (Nat.not_le.mpr h), spell_of_lt h, List.length_singleton]
    · rw [if_pos h, ih (value / 128) (by omega), spell_of_le h, List.length_cons]
      omega

theorem uleb128Width_eq (value : ℕ) : uleb128Width value = (spell value).length := by
  have h := uleb128WidthFrom_add_one 1 value
  unfold uleb128Width
  omega

/-- The loop writes the spelling of what remains behind the bytes written so far. -/
theorem counted_encodeStep {width remaining : ℕ} {done tail : List UInt8}
    (hwidth : width = done.length + (spell remaining).length)
    (htail : (spell remaining).length ≤ tail.length) :
    ∃ final, Loop.counted (encodeStep width) (spell remaining).length done.length
      (done ++ tail, remaining) =
        some (done ++ spell remaining ++ tail.drop (spell remaining).length, final) := by
  induction remaining using Nat.strongRecOn generalizing done tail with
  | ind remaining ih =>
    obtain ⟨old, rest, rfl⟩ := List.exists_cons_of_length_pos
      (Nat.lt_of_lt_of_le (List.length_pos_iff.mpr (spell_ne_nil remaining)) htail)
    have hset : ∀ byte, checkedSet (done ++ old :: rest) done.length byte =
        some (done ++ byte :: rest) := by
      intro byte
      rw [checkedSet_of_lt (by rw [List.length_append, List.length_cons]; omega),
        List.set_append_right _ _ le_rfl, Nat.sub_self, List.set_cons_zero]
    have hpayload : (UInt8.ofNat (remaining % 128)).toNat = remaining % 128 :=
      toNat_ofNat_lt (by omega)
    rcases Nat.lt_or_ge remaining 128 with h | h
    · rw [Nat.mod_eq_of_lt h] at hpayload
      rw [spell_of_lt h] at hwidth ⊢
      rw [List.length_singleton] at hwidth ⊢
      refine ⟨remaining / 128, ?_⟩
      rw [Loop.counted, encodeStep]
      simp only [hpayload, hset, if_neg (by omega : ¬done.length + 1 < width), Loop.counted,
        Option.bind_eq_bind, Option.bind_some, Option.pure_def, Nat.mod_eq_of_lt h]
      rw [List.append_assoc, List.drop_succ_cons, List.drop_zero, List.singleton_append]
    · rw [spell_of_le h] at hwidth htail ⊢
      rw [List.length_cons] at hwidth htail ⊢
      have hpos := List.length_pos_iff.mpr (spell_ne_nil (remaining / 128))
      obtain ⟨final, hfinal⟩ := @ih (remaining / 128) (by omega)
        (done ++ [UInt8.ofNat (remaining % 128 + 128)]) rest
        (by rw [List.length_append, List.length_singleton]; omega)
        (by rw [List.length_cons] at htail; omega)
      refine ⟨final, ?_⟩
      rw [List.length_append, List.length_singleton, List.append_assoc, List.singleton_append,
        List.append_assoc, List.append_assoc, List.singleton_append] at hfinal
      rw [Loop.counted, encodeStep]
      simp only [hpayload, hset, if_pos (by omega : done.length + 1 < width),
        checkedAdd_of_le (by omega : remaining % 128 + 128 ≤ 255), Option.bind_eq_bind,
        Option.bind_some, Option.pure_def]
      rw [hfinal, List.drop_succ_cons, List.append_assoc, List.cons_append]

theorem encodeUleb128_eq (output : List UInt8) (value : ℕ) : encodeUleb128 output value =
    some (if (spell value).length ≤ output.length then
      (spell value ++ output.drop (spell value).length, some (spell value).length)
    else (output, none)) := by
  rw [encodeUleb128, uleb128Width_eq]
  rcases Nat.lt_or_ge output.length (spell value).length with h | h
  · rw [if_pos h, if_neg (Nat.not_le.mpr h)]
  · obtain ⟨final, hfinal⟩ := @counted_encodeStep (spell value).length value [] output
      (by rw [List.length_nil, Nat.zero_add]) h
    rw [List.length_nil, List.nil_append, List.nil_append] at hfinal
    rw [if_neg (Nat.not_lt.mpr h), if_pos h, hfinal]
    rfl

end Encoding

section ZigZag

open TwosComplement

/-- The integers in the order 0, -1, 1, -2, … -/
def zigzag (value : ℤ) : ℕ := if 0 ≤ value then 2 * value.toNat else 2 * (-(value + 1)).toNat + 1

def unzigzag (n : ℕ) : ℤ := if n % 2 = 0 then (n / 2 : ℕ) else -(n / 2 : ℕ) - 1

theorem inRange_iff {value : ℤ} : InRange 64 true value ↔ -2 ^ 63 ≤ value ∧ value < 2 ^ 63 := by
  simp only [InRange, minimum, maximum, if_true]
  omega

theorem zigzag_unzigzag (n : ℕ) : zigzag (unzigzag n) = n := by
  unfold zigzag unzigzag
  split <;> split <;> omega

theorem unzigzag_zigzag (value : ℤ) : unzigzag (zigzag value) = value := by
  unfold zigzag unzigzag
  split <;> split <;> omega

theorem zigzag_le {value : ℤ} (h : InRange 64 true value) : zigzag value ≤ u64Max := by
  have hrange := inRange_iff.mp h
  unfold zigzag u64Max
  split <;> omega

theorem inRange_unzigzag {n : ℕ} (h : n ≤ u64Max) : InRange 64 true (unzigzag n) := by
  rw [inRange_iff]
  unfold u64Max at h
  unfold unzigzag
  split <;> omega

theorem toBits_eq {value : ℤ} (hnonneg : 0 ≤ value) (hlt : value < 2 ^ 63) :
    toBits value = value.toNat := by
  rw [toBits, BitVec.toNat_ofInt, Int.emod_eq_of_lt hnonneg (by omega)]

theorem fromBits_eq {n : ℕ} (h : n < 2 ^ 63) : fromBits n = n := by
  have hmod : (BitVec.ofNat 64 n).toNat = n := by
    rw [BitVec.toNat_ofNat]
    exact Nat.mod_eq_of_lt (by omega)
  rw [fromBits, BitVec.toInt_eq_toNat_of_lt (by omega), hmod]

theorem zigzagEncode_eq {value : ℤ} (h : InRange 64 true value) :
    zigzagEncode value = some (zigzag value) := by
  have hrange := inRange_iff.mp h
  have hle := zigzag_le h
  unfold zigzagEncode
  unfold zigzag at hle ⊢
  split
  · next hnonneg =>
    rw [if_pos hnonneg] at hle
    rw [toBits_eq hnonneg hrange.2, checkedMul_of_le (by omega), Nat.mul_comm]
  · next hneg =>
    rw [if_neg hneg] at hle
    have hnext : checked 64 true (value + 1) = some (value + 1) :=
      checked_of_inRange (inRange_iff.mpr (by omega))
    have hmagnitude : checked 64 true (-(value + 1)) = some (-(value + 1)) :=
      checked_of_inRange (inRange_iff.mpr (by omega))
    have hdouble : checkedMul u64Max (toBits (-(value + 1))) 2 = some (2 * (-(value + 1)).toNat) := by
      rw [toBits_eq (by omega) (by omega), checkedMul_of_le (by omega), Nat.mul_comm]
    simp only [hnext, hmagnitude, hdouble, Option.bind_eq_bind, Option.bind_some,
      checkedAdd_of_le hle]

theorem zigzagDecode_eq {n : ℕ} (h : n ≤ u64Max) : zigzagDecode n = some (unzigzag n) := by
  have hhalf : n / 2 < 2 ^ 63 := by
    unfold u64Max at h
    omega
  unfold zigzagDecode unzigzag
  rw [fromBits_eq hhalf]
  split
  · rfl
  · have hnegated : checked 64 true (-((n / 2 : ℕ) : ℤ)) = some (-((n / 2 : ℕ) : ℤ)) :=
      checked_of_inRange (inRange_iff.mpr (by omega))
    have hminus : checked 64 true (-((n / 2 : ℕ) : ℤ) - 1) = some (-((n / 2 : ℕ) : ℤ) - 1) :=
      checked_of_inRange (inRange_iff.mpr (by omega))
    simp only [hnegated, hminus, Option.bind_eq_bind, Option.bind_some]

end ZigZag

section Codec

open Leb128

variable {α : Type*}

/-- What a codec of canonical spellings does for every value and every byte string. -/
structure PrefixCodec (Valid : α → Prop) (spelling : α → List UInt8) (width : α → Option ℕ)
    (encode : List UInt8 → α → Option (List UInt8 × Option ℕ))
    (decode : List UInt8 → Option (PrefixDecode α)) : Prop where
  width_eq : ∀ value, Valid value → width value = some (spelling value).length
  /-- The spelling is written in front of what it does not reach, or nothing is. -/
  encode_eq : ∀ output value, Valid value → encode output value =
    some (if (spelling value).length ≤ output.length then
      (spelling value ++ output.drop (spelling value).length, some (spelling value).length)
    else (output, none))
  decode_spelling : ∀ value rest, Valid value →
    decode (spelling value ++ rest) = some (.decoded value (spelling value).length)
  /-- Only canonical spellings are accepted. -/
  decoded_iff : ∀ input value consumed, decode input = some (.decoded value consumed) ↔
    Valid value ∧ consumed = (spelling value).length ∧ spelling value <+: input
  incomplete_iff : ∀ input, decode input = some .incomplete ↔ Unfinished input
  nonCanonical_iff : ∀ input, decode input = some .nonCanonical ↔ Padded input
  overflow_iff : ∀ input, decode input = some .overflow ↔ Excessive input
  /-- Neither the arithmetic nor an index traps. -/
  total : ∀ input, (decode input).isSome

/-- The answers on the four shapes of byte strings decide the codec. -/
theorem PrefixCodec.of_shapes {Valid : α → Prop} {spelling : α → List UInt8} {width : α → Option ℕ}
    {encode : List UInt8 → α → Option (List UInt8 × Option ℕ)}
    {decode : List UInt8 → Option (PrefixDecode α)}
    (hwidth : ∀ value, Valid value → width value = some (spelling value).length)
    (hencode : ∀ output value, Valid value → encode output value =
      some (if (spelling value).length ≤ output.length then
        (spelling value ++ output.drop (spelling value).length, some (spelling value).length)
      else (output, none)))
    (hdecode : ∀ value rest, Valid value →
      decode (spelling value ++ rest) = some (.decoded value (spelling value).length))
    (hincomplete : ∀ input, Unfinished input → decode input = some .incomplete)
    (hpadded : ∀ input, Padded input → decode input = some .nonCanonical)
    (hexcess : ∀ input, Excessive input → decode input = some .overflow)
    (hshape : ∀ input, (∃ value, Valid value ∧ spelling value <+: input) ∨ Unfinished input ∨
      Padded input ∨ Excessive input) :
    PrefixCodec Valid spelling width encode decode where
  width_eq := hwidth
  encode_eq := hencode
  decode_spelling := hdecode
  decoded_iff := by
    intro input value consumed
    constructor
    · intro h
      rcases hshape input with ⟨found, hvalid, rest, rfl⟩ | hshape | hshape | hshape
      · rw [hdecode found rest hvalid] at h
        obtain ⟨rfl, rfl⟩ := PrefixDecode.decoded.inj (Option.some.inj h)
        exact ⟨hvalid, rfl, List.prefix_append _ _⟩
      · rw [hincomplete input hshape] at h
        cases h
      · rw [hpadded input hshape] at h
        cases h
      · rw [hexcess input hshape] at h
        cases h
    · rintro ⟨hvalid, rfl, rest, rfl⟩
      exact hdecode value rest hvalid
  incomplete_iff := by
    refine fun input => ⟨fun h => ?_, hincomplete input⟩
    rcases hshape input with ⟨found, hvalid, rest, rfl⟩ | hshape | hshape | hshape
    · rw [hdecode found rest hvalid] at h
      cases h
    · exact hshape
    · rw [hpadded input hshape] at h
      cases h
    · rw [hexcess input hshape] at h
      cases h
  nonCanonical_iff := by
    refine fun input => ⟨fun h => ?_, hpadded input⟩
    rcases hshape input with ⟨found, hvalid, rest, rfl⟩ | hshape | hshape | hshape
    · rw [hdecode found rest hvalid] at h
      cases h
    · rw [hincomplete input hshape] at h
      cases h
    · exact hshape
    · rw [hexcess input hshape] at h
      cases h
  overflow_iff := by
    refine fun input => ⟨fun h => ?_, hexcess input⟩
    rcases hshape input with ⟨found, hvalid, rest, rfl⟩ | hshape | hshape | hshape
    · rw [hdecode found rest hvalid] at h
      cases h
    · rw [hincomplete input hshape] at h
      cases h
    · rw [hpadded input hshape] at h
      cases h
    · exact hshape
  total := by
    intro input
    rcases hshape input with ⟨found, hvalid, rest, rfl⟩ | hshape | hshape | hshape
    · rw [hdecode found rest hvalid, Option.isSome_some]
    · rw [hincomplete input hshape, Option.isSome_some]
    · rw [hpadded input hshape, Option.isSome_some]
    · rw [hexcess input hshape, Option.isSome_some]

theorem uleb128_prefixCodec : PrefixCodec (· ≤ u64Max) spell (fun value => some (uleb128Width value))
    encodeUleb128 decodeUleb128 := by
  refine PrefixCodec.of_shapes ?_ ?_ ?_ (fun _ => decodeUleb128_unfinished)
    (fun _ => decodeUleb128_padded) (fun _ => decodeUleb128_excessive) exists_shape
  · exact fun value _ => congrArg some (uleb128Width_eq value)
  · exact fun output value _ => encodeUleb128_eq output value
  · exact fun value rest hvalid => decodeUleb128_spell hvalid

theorem decodeZigzagUleb128_of_decoded {input : List UInt8} {value : ℤ} {consumed : ℕ}
    (hvalue : TwosComplement.InRange 64 true value)
    (h : decodeUleb128 input = some (.decoded (zigzag value) consumed)) :
    decodeZigzagUleb128 input = some (.decoded value consumed) := by
  rw [decodeZigzagUleb128, h, Option.bind_eq_bind, Option.bind_some]
  simp only [zigzagDecode_eq (zigzag_le hvalue), unzigzag_zigzag, Option.bind_eq_bind,
    Option.bind_some]
  rfl

theorem zigzag_prefixCodec : PrefixCodec (TwosComplement.InRange 64 true)
    (fun value => spell (zigzag value)) zigzagUleb128Width encodeZigzagUleb128
    decodeZigzagUleb128 := by
  refine PrefixCodec.of_shapes ?_ ?_ ?_ ?_ ?_ ?_ ?_
  · intro value hvalid
    rw [zigzagUleb128Width, zigzagEncode_eq hvalid, Option.map_some, uleb128Width_eq]
  · intro output value hvalid
    rw [encodeZigzagUleb128, zigzagEncode_eq hvalid]
    exact encodeUleb128_eq output (zigzag value)
  · exact fun value rest hvalid =>
      decodeZigzagUleb128_of_decoded hvalid (decodeUleb128_spell (zigzag_le hvalid))
  · intro input h
    rw [decodeZigzagUleb128, decodeUleb128_unfinished h]
    rfl
  · intro input h
    rw [decodeZigzagUleb128, decodeUleb128_padded h]
    rfl
  · intro input h
    rw [decodeZigzagUleb128, decodeUleb128_excessive h]
    rfl
  · intro input
    rcases exists_shape input with ⟨n, hn, hfront⟩ | hshape
    · refine Or.inl ⟨unzigzag n, inRange_unzigzag hn, ?_⟩
      rwa [zigzag_unzigzag]
    · exact Or.inr hshape

/-- Unsigned and zigzag-signed values have canonical codecs. -/
theorem variable_width_codecs :
    PrefixCodec (· ≤ u64Max) spell (fun value => some (uleb128Width value)) encodeUleb128
        decodeUleb128 ∧
      PrefixCodec (TwosComplement.InRange 64 true) (fun value => spell (zigzag value))
        zigzagUleb128Width encodeZigzagUleb128 decodeZigzagUleb128 :=
  ⟨uleb128_prefixCodec, zigzag_prefixCodec⟩

example : decodeUleb128 [128, 1, 7] = some (.decoded 128 2) := by decide

end Codec

end Nocter.Variable
