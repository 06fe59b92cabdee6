import Nocter.Base64.Encoding

/-!
# Checking and reading texts

The checks pass exactly on canonical texts, and the loop writes the bytes of a checked text in
front of the output storage.
-/

namespace Nocter.Base64

/-- The check returns, and with a value exactly where it accepts it. -/
def Decides {α : Type} (check : Option (Except Base64Error α)) (accepts : α → Prop) : Prop :=
  ∃ result, check = some result ∧ ∀ a, result = .ok a ↔ accepts a

namespace Decides

variable {α : Type} {accepts accepts' : α → Prop}

theorem ok (a : α) : Decides (some (.ok a)) fun b => b = a :=
  ⟨_, rfl, fun b => ⟨fun h => by cases h; rfl, fun h => by rw [h]⟩⟩

theorem error (e : Base64Error) : Decides (some (.error e)) fun _ : α => False :=
  ⟨_, rfl, fun _ => ⟨(by rintro ⟨⟩), False.elim⟩⟩

theorem congr {check : Option (Except Base64Error α)} (h : Decides check accepts)
    (hsame : ∀ a, accepts a ↔ accepts' a) : Decides check accepts' := by
  obtain ⟨result, hcheck, hresult⟩ := h
  exact ⟨result, hcheck, fun a => (hresult a).trans (hsame a)⟩

/-- The check behind another one. -/
theorem andThen {check : Option (Except Base64Error Unit)} {passed : Prop}
    {next : Option (Except Base64Error α)} (h : Decides check fun _ => passed)
    (hnext : passed → Decides next accepts) :
    Decides (andThen check next) fun a => passed ∧ accepts a := by
  obtain ⟨result, rfl, hresult⟩ := h
  cases result with
  | error e =>
    have hfailed : ¬ passed := fun hpassed => by cases (hresult ()).mpr hpassed
    exact (error e).congr fun a => iff_of_false id fun haccepts => hfailed haccepts.1
  | ok =>
    have hpassed : passed := (hresult ()).mp rfl
    exact (hnext hpassed).congr fun a => (and_iff_right hpassed).symm

end Decides

/-- The digit is there and the bits below the modulus are zero. -/
def BitsZero (value : Option ℕ) (modulus : ℕ) : Prop := ∃ v, value = some v ∧ v % modulus = 0

section Checks

variable {text : Bytes} {url : Bool}

theorem load_eq_some {index : ℕ} (h : index < text.length) : ∃ byte : UInt8,
    text[index]? = some byte ∧ load text index = some byte.toNat :=
  ⟨text[index], List.getElem?_eq_getElem h, by rw [load, List.getElem?_eq_getElem h]; rfl⟩

theorem validateDigits_decides {stop : ℕ} (hstop : stop ≤ text.length) {passes index : ℕ}
    (hpasses : stop - index < passes) : Decides (validateDigits text url stop passes index)
      fun _ => ∀ i, index ≤ i → i < stop → (loadDigit text url i).isSome := by
  induction passes generalizing index with
  | zero => omega
  | succ passes ih =>
    rw [validateDigits]
    by_cases hindex : index < stop
    · obtain ⟨byte, -, hload⟩ := load_eq_some (hindex.trans_le hstop)
      have hdigit : loadDigit text url index = digitValue byte.toNat url := by
        rw [loadDigit, hload]
        rfl
      rw [if_pos hindex, hload]
      simp only [Option.bind_eq_bind, Option.bind_some]
      cases hvalue : digitValue byte.toNat url with
      | none =>
        refine (Decides.error invalidDigit).congr fun _ => iff_of_false id fun h => ?_
        have hsome := h index le_rfl hindex
        rw [hdigit, hvalue] at hsome
        cases hsome
      | some value =>
        refine (ih (by omega)).congr fun _ => ⟨fun h i hle hlt => ?_, fun h i hle => h i (by omega)⟩
        rcases hle.eq_or_lt with rfl | hless
        · rw [hdigit, hvalue]
          rfl
        · exact h i hless hlt
    · rw [if_neg hindex]
      exact (Decides.ok ()).congr fun _ => iff_of_true rfl fun i hle hlt => absurd hlt (by omega)

theorem validatePadding_decides {passes index : ℕ} (hpasses : text.length - index < passes) :
    Decides (validatePadding text passes index)
      fun _ => ∀ i, index ≤ i → i < text.length → load text i = some 61 := by
  induction passes generalizing index with
  | zero => omega
  | succ passes ih =>
    rw [validatePadding]
    by_cases hindex : index < text.length
    · obtain ⟨byte, -, hload⟩ := load_eq_some hindex
      rw [if_pos hindex, hload]
      simp only [Option.bind_eq_bind, Option.bind_some]
      by_cases hpad : byte.toNat = 61
      · rw [if_neg (not_not.mpr hpad)]
        refine (ih (by omega)).congr fun _ => ⟨fun h i hle hlt => ?_, fun h i hle => h i (by omega)⟩
        rcases hle.eq_or_lt with rfl | hless
        · rw [hload, hpad]
        · exact h i hless hlt
      · rw [if_pos hpad]
        refine (Decides.error invalidPadding).congr fun _ => iff_of_false id fun h => hpad ?_
        have hpadded := h index le_rfl hindex
        rw [hload] at hpadded
        exact Option.some.inj hpadded
    · rw [if_neg hindex]
      exact (Decides.ok ()).congr fun _ => iff_of_true rfl fun i hle hlt => absurd hlt (by omega)

theorem validateFinal_decides {contentLen modulus : ℕ} (hpos : 0 < contentLen)
    (hle : contentLen ≤ text.length) : Decides (validateFinal text url contentLen modulus)
      fun _ => BitsZero (loadDigit text url (contentLen - 1)) modulus := by
  obtain ⟨byte, -, hload⟩ := load_eq_some (show contentLen - 1 < text.length by omega)
  have hdigit : loadDigit text url (contentLen - 1) = digitValue byte.toNat url := by
    rw [loadDigit, hload]
    rfl
  rw [validateFinal, checkedSub_of_le hpos]
  simp only [Option.bind_eq_bind, Option.bind_some, hload, hdigit]
  cases digitValue byte.toNat url with
  | none => exact (Decides.error invalidDigit).congr fun _ => iff_of_false id (by rintro ⟨_, ⟨⟩, _⟩)
  | some value =>
    dsimp only
    by_cases hzero : value % modulus = 0
    · rw [if_neg (not_not.mpr hzero)]
      exact (Decides.ok ()).congr fun _ => iff_of_true rfl ⟨value, rfl, hzero⟩
    · rw [if_pos hzero]
      refine (Decides.error invalidPadding).congr fun _ => iff_of_false id ?_
      rintro ⟨_, ⟨⟩, h⟩
      exact hzero h

/-- A check that is made in one case only. -/
theorem Decides.ite {check : Option (Except Base64Error Unit)} {condition passed : Prop}
    [Decidable condition] (h : condition → Decides check fun _ => passed) :
    Decides (if condition then check else some (.ok ())) fun _ => condition → passed := by
  by_cases hcondition : condition
  · rw [if_pos hcondition]
    exact (h hcondition).congr fun _ => ⟨fun hpassed _ => hpassed, fun hall => hall hcondition⟩
  · rw [if_neg hcondition]
    exact (Decides.ok ()).congr fun _ => iff_of_true rfl fun h => absurd h hcondition

end Checks

section Canonical

variable {text : Bytes} {url : Bool} {digits : List ℕ}

/-- Digits of whole bytes by their range, their number and the last one of them. -/
theorem wholeBytes_iff : WholeBytes digits ↔ (∀ d ∈ digits, d < 64) ∧ digits.length % 4 ≠ 1 ∧
    (digits.length % 4 = 2 → BitsZero digits[digits.length - 1]? 16) ∧
    (digits.length % 4 = 3 → BitsZero digits[digits.length - 1]? 4) := by
  induction digits using octets.induct with
  | case1 first second third fourth rest ih =>
    have hmod : (first :: second :: third :: fourth :: rest).length % 4 = rest.length % 4 := by
      simp only [List.length_cons]
      omega
    have hlast : 0 < rest.length → (first :: second :: third :: fourth :: rest)[
        (first :: second :: third :: fourth :: rest).length - 1]? = rest[rest.length - 1]? := by
      intro hpos
      obtain ⟨n, hn⟩ := Nat.exists_eq_succ_of_ne_zero hpos.ne'
      simp only [List.length_cons, hn, Nat.succ_eq_add_one, Nat.add_sub_cancel,
        List.getElem?_cons_succ]
    rw [WholeBytes, ih, hmod]
    simp only [List.mem_cons, forall_eq_or_imp]
    constructor
    · rintro ⟨h₁, h₂, h₃, h₄, hall, hone, htwo, hthree⟩
      exact ⟨⟨h₁, h₂, h₃, h₄, hall⟩, hone, fun h => by rw [hlast (by omega)]; exact htwo h,
        fun h => by rw [hlast (by omega)]; exact hthree h⟩
    · rintro ⟨⟨h₁, h₂, h₃, h₄, hall⟩, hone, htwo, hthree⟩
      exact ⟨h₁, h₂, h₃, h₄, hall, hone, fun h => by rw [← hlast (by omega)]; exact htwo h,
        fun h => by rw [← hlast (by omega)]; exact hthree h⟩
  | case2 first second third =>
    simp [WholeBytes, BitsZero, and_assoc]
  | case3 first second =>
    simp [WholeBytes, BitsZero, and_assoc]
  | case4 digits hfour hthree htwo =>
    rcases digits with _ | ⟨first, _ | ⟨second, _ | ⟨third, _ | ⟨fourth, rest⟩⟩⟩⟩
    · simp [WholeBytes]
    · simp [WholeBytes]
    · exact absurd rfl (htwo first second)
    · exact absurd rfl (hthree first second third)
    · exact absurd rfl (hfour first second third fourth rest)

/-- A range of digits of a text. -/
theorem exists_digits {count : ℕ} (hcount : count ≤ text.length)
    (h : ∀ i < count, (loadDigit text url i).isSome) : ∃ digits : List ℕ,
      digits.length = count ∧ (∀ d ∈ digits, d < 64) ∧
        text.take count = digits.map (digitByte url) := by
  induction count with
  | zero => exact ⟨[], rfl, by simp, by simp⟩
  | succ count ih =>
    obtain ⟨digits, hlength, hall, htake⟩ := ih (by omega) fun i hi => h i (by omega)
    obtain ⟨byte, hbyte, hload⟩ := load_eq_some hcount
    have hsome := h count (Nat.lt_succ_self count)
    rw [loadDigit, hload] at hsome
    obtain ⟨value, hvalue⟩ := Option.isSome_iff_exists.mp hsome
    obtain ⟨hlt, hdigit⟩ := digit_of_digitValue hvalue
    have hspelled : digitByte url value = byte := ofNat_eq byte hdigit
    refine ⟨digits ++ [value], by simp [hlength], ?_, ?_⟩
    · simp only [List.mem_append, List.mem_singleton]
      rintro d (hd | rfl)
      · exact hall d hd
      · exact hlt
    · rw [List.take_add_one, htake, hbyte, List.map_append, List.map_singleton, hspelled]
      rfl

/-- The digits at the front of a text. -/
theorem loadDigit_eq {rest : Bytes} (hall : ∀ d ∈ digits, d < 64) {i : ℕ} (hi : i < digits.length) :
    loadDigit (digits.map (digitByte url) ++ rest) url i = digits[i]? := by
  have hmem := hall digits[i] (List.getElem_mem hi)
  rw [loadDigit, load, List.getElem?_append_left (by simpa using hi), List.getElem?_map,
    List.getElem?_eq_getElem hi]
  simp only [Option.map_some, Option.bind_eq_bind, Option.bind_some]
  rw [toNat_digitByte hmem, digitValue_digit hmem]

theorem digitByte_ne_padding {value : ℕ} (h : value < 64) : (digitByte url value).toNat ≠ 61 := by
  rw [toNat_digitByte h]
  unfold digit urlDigit standardDigit
  split_ifs <;> omega

theorem spell_true (digits : List ℕ) : spell true digits = digits.map (digitByte true) := by
  rw [spell, paddingLength, if_pos rfl, List.replicate_zero, List.append_nil]

/-- The texts that the URL-safe profile accepts. -/
theorem validateUrl_decides (text : Bytes) : Decides (validateUrl text)
    fun n => ∃ digits, Canonical true text digits ∧ n = (octets digits).length := by
  rw [validateUrl]
  by_cases hone : text.length % 4 = 1
  · rw [if_pos hone]
    refine (Decides.error invalidLength).congr fun n => iff_of_false id ?_
    rintro ⟨digits, ⟨hwhole, rfl⟩, -⟩
    rw [spell_true, List.length_map] at hone
    exact (wholeBytes_iff.mp hwhole).2.1 hone
  · rw [if_neg hone]
    have hdigits := @validateDigits_decides text true _ le_rfl _ 0 (Nat.lt_succ_self text.length)
    have hfinal := fun modulus (hpos : 0 < text.length) =>
      @validateFinal_decides text true _ modulus hpos le_rfl
    refine (hdigits.andThen fun _ => ((Decides.ite fun htwo => hfinal 16 (by omega)).andThen fun _ =>
      (Decides.ite fun hthree => hfinal 4 (by omega)).andThen fun _ => Decides.ok _)).congr fun n => ?_
    constructor
    · rintro ⟨hall, htwo, hthree, rfl⟩
      obtain ⟨digits, hlength, hlt, htake⟩ := exists_digits le_rfl fun i => hall i (Nat.zero_le i)
      rw [List.take_length] at htake
      have htext : text = spell true digits := by rw [spell_true, ← htake]
      have hload : ∀ i < digits.length, loadDigit text true i = digits[i]? := by
        intro i hi
        have heq := @loadDigit_eq true digits [] hlt i hi
        rwa [List.append_nil, ← htake] at heq
      have hwhole : WholeBytes digits := by
        refine wholeBytes_iff.mpr ⟨hlt, hlength ▸ hone, fun h => ?_, fun h => ?_⟩
        · rw [← hload _ (by omega), hlength]
          exact htwo (hlength ▸ h)
        · rw [← hload _ (by omega), hlength]
          exact hthree (hlength ▸ h)
      have hoctets := length_octets hwhole
      exact ⟨digits, ⟨hwhole, htext⟩, by split_ifs <;> omega⟩
    · rintro ⟨digits, ⟨hwhole, htext⟩, rfl⟩
      rw [spell_true] at htext
      obtain ⟨hlt, -, htwo, hthree⟩ := wholeBytes_iff.mp hwhole
      have hlength : text.length = digits.length := by rw [htext, List.length_map]
      have hload : ∀ i < digits.length, loadDigit text true i = digits[i]? := by
        intro i hi
        have heq := @loadDigit_eq true digits [] hlt i hi
        rwa [List.append_nil, ← htext] at heq
      have hoctets := length_octets hwhole
      refine ⟨fun i _ hi => ?_, fun h => ?_, fun h => ?_, by split_ifs <;> omega⟩
      · rw [hload i (by omega), List.getElem?_eq_getElem (by omega)]
        rfl
      · rw [hlength, hload _ (by omega)]
        exact htwo (by omega)
      · rw [hlength, hload _ (by omega)]
        exact hthree (by omega)

/-- The padding that the last two bytes of a text show. -/
def shownPadding (last before : ℕ) : ℕ := if before = 61 then 2 else if last = 61 then 1 else 0

theorem shownPadding_le (last before : ℕ) : shownPadding last before ≤ 2 := by
  unfold shownPadding
  split_ifs <;> omega

theorem load_digit_ne {rest : Bytes} {i byte : ℕ} (hlt : ∀ d ∈ digits, d < 64) (hi : i < digits.length)
    (h : load (digits.map (digitByte url) ++ rest) i = some byte) : byte ≠ 61 := by
  rw [load, List.getElem?_append_left (by simpa using hi), List.getElem?_map,
    List.getElem?_eq_getElem hi] at h
  obtain rfl := Option.some.inj h
  exact digitByte_ne_padding (hlt digits[i] (List.getElem_mem hi))

theorem load_padding {count i : ℕ} (hi : digits.length ≤ i) (hlt : i < digits.length + count) :
    load (digits.map (digitByte url) ++ List.replicate count 61) i = some 61 := by
  rw [load, List.getElem?_append_right (by simpa using hi), List.length_map,
    List.getElem?_replicate, if_pos (by omega)]
  rfl

/-- Behind canonical digits the text shows its padding. -/
theorem shownPadding_eq {last before : ℕ} (hlt : ∀ d ∈ digits, d < 64)
    (hone : digits.length % 4 ≠ 1) (hpos : 0 < digits.length)
    (hlast : load (spell false digits) ((spell false digits).length - 1) = some last)
    (hbefore : load (spell false digits) ((spell false digits).length - 2) = some before) :
    shownPadding last before = paddingLength false digits.length := by
  have hlength : (spell false digits).length = digits.length + paddingLength false digits.length := by
    rw [spell, List.length_append, List.length_map, List.length_replicate]
  have hpadding : paddingLength false digits.length = (4 - digits.length % 4) % 4 := rfl
  rw [hlength, spell] at hlast hbefore
  have hcases : digits.length % 4 = 0 ∨ digits.length % 4 = 2 ∨ digits.length % 4 = 3 := by omega
  rcases hcases with hzero | htwo | hthree
  · have hnone := load_digit_ne hlt (by omega) hlast
    have hnone' := load_digit_ne hlt (by omega) hbefore
    rw [shownPadding, if_neg hnone', if_neg hnone, hpadding, hzero]
  · rw [load_padding (by omega) (by omega)] at hbefore
    rw [shownPadding, if_pos (Option.some.inj hbefore).symm, hpadding, htwo]
  · rw [load_padding (by omega) (by omega)] at hlast
    have hnone' := load_digit_ne hlt (by omega) hbefore
    rw [shownPadding, if_neg hnone', if_pos (Option.some.inj hlast).symm, hpadding, hthree]

/-- The texts that the standard profile accepts. -/
theorem validateStandard_decides (text : Bytes) : Decides (validateStandard text)
    fun n => ∃ digits, Canonical false text digits ∧ n = (octets digits).length := by
  rw [validateStandard]
  have hpadded : ∀ digits : List ℕ, (spell false digits).length =
      digits.length + (4 - digits.length % 4) % 4 := by
    intro digits
    rw [spell, List.length_append, List.length_map, List.length_replicate]
    rfl
  by_cases hfour : text.length % 4 ≠ 0
  · rw [if_pos hfour]
    refine (Decides.error invalidLength).congr fun n => iff_of_false id ?_
    rintro ⟨digits, ⟨hwhole, rfl⟩, -⟩
    rw [hpadded] at hfour
    omega
  rw [if_neg hfour]
  by_cases hempty : text.length = 0
  · rw [if_pos hempty]
    obtain rfl := List.eq_nil_of_length_eq_zero hempty
    refine (Decides.ok 0).congr fun n => ⟨?_, ?_⟩
    · rintro rfl
      exact ⟨[], ⟨trivial, rfl⟩, rfl⟩
    · rintro ⟨digits, ⟨hwhole, htext⟩, rfl⟩
      have hlength := congrArg List.length htext
      rw [hpadded, List.length_nil] at hlength
      obtain rfl := List.eq_nil_of_length_eq_zero (show digits.length = 0 by omega)
      rfl
  rw [if_neg hempty]
  obtain ⟨lastByte, -, hlast⟩ := load_eq_some (show text.length - 1 < text.length by omega)
  obtain ⟨beforeByte, -, hbefore⟩ := load_eq_some (show text.length - 2 < text.length by omega)
  rw [hlast, hbefore]
  simp only [Option.bind_eq_bind, Option.bind_some]
  have hdefined : (if beforeByte.toNat = 61 then 2 else if lastByte.toNat = 61 then 1 else 0) =
      shownPadding lastByte.toNat beforeByte.toNat := rfl
  rw [hdefined]
  have hpadding := shownPadding_le lastByte.toNat beforeByte.toNat
  generalize hshown : shownPadding lastByte.toNat beforeByte.toNat = padding at hpadding ⊢
  have hdigits := @validateDigits_decides text false (text.length - padding) (Nat.sub_le _ _) _ 0
    (Nat.lt_succ_self (text.length - padding))
  have hpads := @validatePadding_decides text (padding + 1) (text.length - padding) (by omega)
  have hfinal := fun modulus =>
    @validateFinal_decides text false (text.length - padding) modulus (by omega) (Nat.sub_le _ _)
  have hdecoded : checkedSub (text.length / 4 * 3) padding =
      some (text.length / 4 * 3 - padding) := checkedSub_of_le (by omega)
  rw [hdecoded]
  refine (hdigits.andThen fun _ => hpads.andThen fun _ => (Decides.ite fun _ => hfinal 4).andThen
    fun _ => (Decides.ite fun _ => hfinal 16).andThen fun _ => Decides.ok _).congr fun n => ?_
  constructor
  · rintro ⟨hall, hpadded', hone, htwo, rfl⟩
    obtain ⟨digits, hlength, hlt, htake⟩ :=
      exists_digits (Nat.sub_le _ _) fun i => hall i (Nat.zero_le i)
    have hdrop : text.drop (text.length - padding) = List.replicate padding 61 := by
      refine List.eq_replicate_iff.mpr ⟨by rw [List.length_drop]; omega, fun byte hbyte => ?_⟩
      obtain ⟨i, hi, rfl⟩ := List.getElem_of_mem hbyte
      rw [List.length_drop] at hi
      have hload := hpadded' (text.length - padding + i) (Nat.le_add_right _ _) (by omega)
      rw [load, List.getElem?_eq_getElem (by omega)] at hload
      rw [List.getElem_drop]
      exact UInt8.toNat_inj.mp (Option.some.inj hload)
    have hcount : paddingLength false digits.length = padding := by
      have hdefinition : paddingLength false digits.length = (4 - digits.length % 4) % 4 := rfl
      omega
    have htext : text = spell false digits := by
      rw [spell, ← htake, hcount, ← hdrop, List.take_append_drop]
    have hload : ∀ i < digits.length, loadDigit text false i = digits[i]? := by
      intro i hi
      rw [htext]
      exact loadDigit_eq hlt hi
    have hwhole : WholeBytes digits := by
      refine wholeBytes_iff.mpr ⟨hlt, by omega, fun h => ?_, fun h => ?_⟩
      · rw [← hload _ (by omega), hlength]
        exact htwo (by omega)
      · rw [← hload _ (by omega), hlength]
        exact hone (by omega)
    have hoctets := length_octets hwhole
    exact ⟨digits, ⟨hwhole, htext⟩, by omega⟩
  · rintro ⟨digits, ⟨hwhole, htext⟩, rfl⟩
    obtain ⟨hlt, hone, htwo, hthree⟩ := wholeBytes_iff.mp hwhole
    have hlength := hpadded digits
    have hoctets := length_octets hwhole
    rw [htext] at hlast hbefore
    have hcount := shownPadding_eq hlt hone (by rw [← htext] at hlength; omega) hlast hbefore
    rw [hshown] at hcount
    have hdefinition : paddingLength false digits.length = (4 - digits.length % 4) % 4 := rfl
    rw [← htext] at hlength
    have hload : ∀ i < digits.length, loadDigit text false i = digits[i]? := by
      intro i hi
      rw [htext]
      exact loadDigit_eq hlt hi
    have hcontent : text.length - padding = digits.length := by omega
    rw [hcontent]
    refine ⟨fun i _ hi => ?_, fun i hle hi => ?_, fun h => ?_, fun h => ?_, by omega⟩
    · rw [hload i hi, List.getElem?_eq_getElem hi]
      rfl
    · rw [htext]
      exact load_padding hle (by omega)
    · rw [hload _ (by omega)]
      exact hthree (by omega)
    · rw [hload _ (by omega)]
      exact htwo (by omega)

end Canonical

end Nocter.Base64
