import Mathlib.Data.List.Basic
import Mathlib.Tactic.Ring

/-!
# Little-endian base-128 numerals

A number is spelled in groups of seven bits, the lowest first; every byte but the last has its
high bit set. The spelling is canonical when its last group is not a needless zero. Each number
has one canonical spelling, no spelling is a prefix of another one, and what a byte string
without an end can still become is a longer spelling.
-/

namespace Nocter.Leb128

/-- The canonical spelling of a number. -/
def spell (n : ℕ) : List UInt8 :=
  if n < 128 then [UInt8.ofNat n] else UInt8.ofNat (n % 128 + 128) :: spell (n / 128)
termination_by n
decreasing_by omega

/-- The number that the groups of a byte string denote. -/
def denote : List UInt8 → ℕ
  | [] => 0
  | byte :: rest => byte.toNat % 128 + 128 * denote rest

/-- Every byte announces another one. -/
def Continuing (bytes : List UInt8) : Prop := ∀ byte ∈ bytes, 128 ≤ byte.toNat

theorem spell_of_lt {n : ℕ} (h : n < 128) : spell n = [UInt8.ofNat n] := by
  rw [spell, if_pos h]

theorem spell_of_le {n : ℕ} (h : 128 ≤ n) :
    spell n = UInt8.ofNat (n % 128 + 128) :: spell (n / 128) := by
  rw [spell, if_neg (Nat.not_lt.mpr h)]

theorem toNat_ofNat_lt {n : ℕ} (h : n < 256) : (UInt8.ofNat n).toNat = n := by
  rw [UInt8.toNat_ofNat']
  exact Nat.mod_eq_of_lt h

theorem denote_append (bytes more : List UInt8) :
    denote (bytes ++ more) = denote bytes + 128 ^ bytes.length * denote more := by
  induction bytes with
  | nil => rw [List.nil_append, denote, List.length_nil, pow_zero, Nat.one_mul, Nat.zero_add]
  | cons byte bytes ih =>
    rw [List.cons_append, denote, denote, ih, List.length_cons, pow_succ]
    ring

theorem denote_lt (bytes : List UInt8) : denote bytes < 128 ^ bytes.length := by
  induction bytes with
  | nil => exact Nat.one_pos
  | cons byte bytes ih =>
    rw [denote, List.length_cons, pow_succ]
    have hgroup := Nat.mod_lt byte.toNat (by omega : 0 < 128)
    omega

theorem denote_spell (n : ℕ) : denote (spell n) = n := by
  induction n using Nat.strongRecOn with
  | ind n ih =>
    rcases Nat.lt_or_ge n 128 with h | h
    · rw [spell_of_lt h, denote, denote, toNat_ofNat_lt (by omega)]
      omega
    · rw [spell_of_le h, denote, ih (n / 128) (by omega), toNat_ofNat_lt (by omega)]
      omega

theorem spell_ne_nil (n : ℕ) : spell n ≠ [] := by
  rw [spell]
  split <;> exact List.cons_ne_nil _ _

/-- A canonical spelling ends at its only byte without the high bit, which is zero in the
spelling of zero alone. -/
theorem exists_spell_eq (n : ℕ) : ∃ continuing last, spell n = continuing ++ [last] ∧
    Continuing continuing ∧ last.toNat < 128 ∧ (continuing ≠ [] → last ≠ 0) := by
  induction n using Nat.strongRecOn with
  | ind n ih =>
    rcases Nat.lt_or_ge n 128 with h | h
    · refine ⟨[], UInt8.ofNat n, spell_of_lt h, fun byte hbyte => (by cases hbyte), ?_,
        fun hne => absurd rfl hne⟩
      rwa [toNat_ofNat_lt (by omega)]
    · obtain ⟨continuing, last, hspell, hcontinuing, hlast, hzero⟩ := ih (n / 128) (by omega)
      refine ⟨UInt8.ofNat (n % 128 + 128) :: continuing, last, ?_, ?_, hlast, ?_⟩
      · rw [spell_of_le h, hspell, List.cons_append]
      · intro byte hbyte
        rcases List.mem_cons.mp hbyte with rfl | hbyte
        · rw [toNat_ofNat_lt (by omega)]
          omega
        · exact hcontinuing byte hbyte
      · rintro - rfl
        cases continuing with
        | nil =>
          -- The quotient would be zero.
          have hquotient := denote_spell (n / 128)
          rw [hspell, List.nil_append, denote, denote] at hquotient
          have : (0 : UInt8).toNat = 0 := rfl
          omega
        | cons byte continuing => exact hzero (List.cons_ne_nil _ _) rfl

/-- Groups that end without a needless zero are the canonical spelling of their number. -/
theorem eq_spell {continuing : List UInt8} {last : UInt8} (hcontinuing : Continuing continuing)
    (hlast : last.toNat < 128) (hzero : continuing ≠ [] → last ≠ 0) :
    continuing ++ [last] = spell (denote (continuing ++ [last])) := by
  induction continuing with
  | nil =>
    have hdenote : denote ([] ++ [last]) = last.toNat := by
      rw [List.nil_append, denote, denote]
      omega
    rw [hdenote, spell_of_lt hlast, UInt8.ofNat_toNat, List.nil_append]
  | cons byte continuing ih =>
    have hbyte := hcontinuing byte List.mem_cons_self
    have hlt := byte.toNat_lt
    have hne : last ≠ 0 := hzero (List.cons_ne_nil _ _)
    have hrest := ih (fun byte hmem => hcontinuing byte (List.mem_cons_of_mem _ hmem))
      (fun _ => hne)
    have hpos : 0 < denote (continuing ++ [last]) := by
      rw [denote_append, denote, denote]
      have hlastPos : 0 < last.toNat :=
        Nat.pos_of_ne_zero fun h => hne (UInt8.toNat_inj.mp h)
      have hpow : 0 < 128 ^ continuing.length := Nat.pow_pos (by omega)
      have := Nat.mul_pos hpow (by omega : 0 < last.toNat % 128 + 128 * 0)
      omega
    rw [List.cons_append, denote, spell_of_le (by omega)]
    have hlow : (byte.toNat % 128 + 128 * denote (continuing ++ [last])) % 128 + 128 = byte.toNat := by
      omega
    have hhigh : (byte.toNat % 128 + 128 * denote (continuing ++ [last])) / 128 =
        denote (continuing ++ [last]) := by
      omega
    rw [hlow, hhigh, UInt8.ofNat_toNat, ← hrest]

theorem length_spell_le {n width : ℕ} (hwidth : 0 < width) (h : n < 128 ^ width) :
    (spell n).length ≤ width := by
  induction width generalizing n with
  | zero => exact absurd hwidth (Nat.lt_irrefl 0)
  | succ width ih =>
    rcases Nat.lt_or_ge n 128 with hn | hn
    · rw [spell_of_lt hn, List.length_singleton]
      exact Nat.succ_le_succ (Nat.zero_le _)
    · rw [spell_of_le hn, List.length_cons]
      have hquotient : n / 128 < 128 ^ width := by
        rw [pow_succ] at h
        exact Nat.div_lt_of_lt_mul (by rwa [Nat.mul_comm])
      have hpos : 0 < width := by
        rcases Nat.eq_zero_or_pos width with rfl | hpos
        · rw [pow_zero] at hquotient
          omega
        · exact hpos
      exact Nat.succ_le_succ (ih hpos hquotient)

/-- What precedes the end of a canonical spelling announces another byte. -/
theorem continuing_of_isPrefix {n : ℕ} {bytes : List UInt8} (h : bytes <+: spell n)
    (hne : bytes ≠ spell n) : Continuing bytes ∧ bytes.length < (spell n).length := by
  have hlength : bytes.length < (spell n).length :=
    lt_of_le_of_ne h.length_le fun heq => hne (h.eq_of_length heq)
  obtain ⟨continuing, last, hspell, hcontinuing, -, -⟩ := exists_spell_eq n
  rw [hspell] at h hlength
  rw [List.length_append, List.length_singleton] at hlength
  have hfront : bytes <+: continuing :=
    List.prefix_of_prefix_length_le h (List.prefix_append _ _) (by omega)
  refine ⟨fun byte hbyte => hcontinuing byte (hfront.subset hbyte), ?_⟩
  rw [hspell, List.length_append, List.length_singleton]
  exact hlength

/-- Every byte string splits behind the bytes that announce another one. -/
theorem exists_split (bytes : List UInt8) : ∃ continuing rest, bytes = continuing ++ rest ∧
    Continuing continuing ∧ (rest = [] ∨ ∃ byte more, rest = byte :: more ∧ byte.toNat < 128) := by
  induction bytes with
  | nil => exact ⟨[], [], rfl, fun byte hbyte => (by cases hbyte), Or.inl rfl⟩
  | cons byte bytes ih =>
    rcases Nat.lt_or_ge byte.toNat 128 with h | h
    · exact ⟨[], byte :: bytes, rfl, fun byte hbyte => (by cases hbyte),
        Or.inr ⟨byte, bytes, rfl, h⟩⟩
    · obtain ⟨continuing, rest, rfl, hcontinuing, hrest⟩ := ih
      exact ⟨byte :: continuing, rest, rfl, List.forall_mem_cons.mpr ⟨h, hcontinuing⟩, hrest⟩

end Nocter.Leb128
