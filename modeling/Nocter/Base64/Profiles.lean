import Nocter.Base64.Decoding

/-!
# The profiles

Decoding undoes encoding, and accepts exactly the texts that encoding gives. Writing into
storage fails exactly where the storage is too short, and then leaves it as it is.
-/

namespace Nocter.Base64

section Decoding

variable {text : Bytes} {url : Bool}

theorem octets_nil : octets [] = [] := rfl

/-- The loop writes the bytes of the digits that are left. -/
theorem writeGroupsDecoded_eq {rest : List ℕ} {done tail : Bytes}
    {passes inputOffset outputOffset outputLen : ℕ} (hwhole : WholeBytes rest)
    (hload : ∀ i < rest.length, loadDigit text url (inputOffset + i) = rest[i]?)
    (hoffset : outputOffset = done.length) (hlen : outputLen = outputOffset + (octets rest).length)
    (htail : (octets rest).length ≤ tail.length) (hpasses : (octets rest).length < passes) :
    writeGroupsDecoded text outputLen url passes inputOffset outputOffset (done ++ tail) =
      some (done ++ octets rest ++ tail.drop (octets rest).length) := by
  induction rest using octets.induct generalizing done tail passes inputOffset outputOffset with
  | case1 first second third fourth rest ih =>
    obtain ⟨passes, rfl⟩ := Nat.exists_eq_succ_of_ne_zero (Nat.ne_zero_of_lt hpasses)
    obtain ⟨h₁, h₂, h₃, h₄, hrest⟩ := hwhole
    rw [octets] at hlen htail hpasses
    simp only [List.length_cons] at hlen htail hpasses
    have hfirst := hload 0 (by simp)
    have hsecond := hload 1 (by simp)
    have hthird := hload 2 (by simp)
    have hfourth := hload 3 (by simp)
    rw [Nat.add_zero] at hfirst
    rw [writeGroupsDecoded, if_pos (by omega), hfirst, hsecond, hthird, hfourth]
    simp only [List.getElem?_cons_zero, List.getElem?_cons_succ, Option.bind_eq_bind,
      Option.bind_some]
    rw [store_tail (by omega) hoffset (by omega)]
    simp only [Option.bind_some]
    rw [if_pos (by omega), store_tail (by omega) (by simp [hoffset]) (by rw [List.length_drop]; omega)]
    simp only [Option.bind_some]
    rw [if_pos (by omega),
      store_tail (by omega) (by simp [hoffset]) (by simp only [List.length_drop]; omega)]
    simp only [Option.bind_some]
    rw [ih hrest (fun i hi => ?_) (by simp [hoffset]) (by omega)
      (by simp only [List.length_drop]; omega) (by omega), octets]
    · simp [List.drop_drop, Nat.add_comm]
      omega
    · have hmore := hload (i + 4) (by simpa using hi)
      rw [Nat.add_comm i 4, ← Nat.add_assoc] at hmore
      rw [hmore, Nat.add_comm 4 i]
      rfl
  | case2 first second third =>
    obtain ⟨passes, rfl⟩ := Nat.exists_eq_succ_of_ne_zero (Nat.ne_zero_of_lt hpasses)
    obtain ⟨h₁, h₂, h₃, -⟩ := hwhole
    rw [octets] at hlen htail hpasses
    simp only [List.length_cons, List.length_nil] at hlen htail hpasses
    obtain ⟨passes, rfl⟩ := Nat.exists_eq_succ_of_ne_zero (show passes ≠ 0 by omega)
    have hfirst := hload 0 (by simp)
    have hsecond := hload 1 (by simp)
    have hthird := hload 2 (by simp)
    rw [Nat.add_zero] at hfirst
    rw [writeGroupsDecoded, if_pos (by omega), hfirst, hsecond, hthird]
    simp only [List.getElem?_cons_zero, List.getElem?_cons_succ, Option.bind_eq_bind,
      Option.bind_some]
    rw [store_tail (by omega) hoffset (by omega)]
    simp only [Option.bind_some]
    rw [if_pos (by omega), store_tail (by omega) (by simp [hoffset]) (by rw [List.length_drop]; omega)]
    simp only [Option.bind_some]
    rw [if_neg (by omega), writeGroupsDecoded, if_neg (by omega), octets]
    simp
  | case3 first second =>
    obtain ⟨passes, rfl⟩ := Nat.exists_eq_succ_of_ne_zero (Nat.ne_zero_of_lt hpasses)
    obtain ⟨h₁, h₂, -⟩ := hwhole
    rw [octets] at hlen htail hpasses
    simp only [List.length_cons, List.length_nil] at hlen htail hpasses
    obtain ⟨passes, rfl⟩ := Nat.exists_eq_succ_of_ne_zero (show passes ≠ 0 by omega)
    have hfirst := hload 0 (by simp)
    have hsecond := hload 1 (by simp)
    rw [Nat.add_zero] at hfirst
    rw [writeGroupsDecoded, if_pos (by omega), hfirst, hsecond]
    simp only [List.getElem?_cons_zero, List.getElem?_cons_succ, Option.bind_eq_bind,
      Option.bind_some]
    rw [store_tail (by omega) hoffset (by omega)]
    simp only [Option.bind_some]
    rw [if_neg (by omega), writeGroupsDecoded, if_neg (by omega), octets]
    simp
  | case4 digits hfour hthree htwo =>
    obtain ⟨passes, rfl⟩ := Nat.exists_eq_succ_of_ne_zero (Nat.ne_zero_of_lt hpasses)
    rcases digits with _ | ⟨first, _ | ⟨second, _ | ⟨third, _ | ⟨fourth, rest⟩⟩⟩⟩
    · rw [octets_nil] at hlen ⊢
      rw [writeGroupsDecoded, if_neg (by simp [hlen])]
      simp
    · exact hwhole.elim
    · exact absurd rfl (htwo first second)
    · exact absurd rfl (hthree first second third)
    · exact absurd rfl (hfour first second third fourth rest)

/-- The bytes of a checked text are written in front of the storage. -/
theorem writeDecoded_eq {digits : List ℕ} {output : Bytes} (h : Canonical url text digits)
    (hroom : (octets digits).length ≤ output.length) :
    writeDecoded text output (octets digits).length url =
      some (octets digits ++ output.drop (octets digits).length) := by
  obtain ⟨hwhole, rfl⟩ := h
  refine @writeGroupsDecoded_eq _ url digits [] output _ 0 0 _ hwhole (fun i hi => ?_) rfl
    (Nat.zero_add _).symm hroom (Nat.lt_succ_self _)
  rw [Nat.zero_add]
  exact loadDigit_eq (wholeBytes_iff.mp hwhole).1 hi

theorem validatedDecodedLen_decides (text : Bytes) (url : Bool) :
    Decides (validatedDecodedLen text url)
      fun n => ∃ digits, Canonical url text digits ∧ n = (octets digits).length := by
  cases url with
  | true => exact validateUrl_decides text
  | false => exact validateStandard_decides text

end Decoding

section Encoding

variable {url : Bool}

theorem otherwiseOverflow_eq {bound : ℕ} {condition : Prop} [Decidable condition] :
    otherwiseOverflow (if condition then some bound else none) =
      if condition then .ok bound else .error lengthOverflow := by
  split_ifs <;> rfl

/-- The length is computed where it is representable. -/
theorem encodedLen_eq (inputLen : ℕ) : encodedLen inputLen url =
    if encodedLength url inputLen ≤ u64Max then .ok (encodedLength url inputLen)
    else .error lengthOverflow := by
  cases url with
  | true =>
    have hlength : encodedLength true inputLen = (inputLen * 4 + 2) / 3 := rfl
    have hsuffix : inputLen / 3 * 4 +
        (if inputLen % 3 = 0 then 0 else if inputLen % 3 = 1 then 2 else 3) =
          encodedLength true inputLen := by
      rw [hlength]
      split_ifs <;> omega
    rw [encodedLen, if_pos rfl, urlEncodedLen, checkedMul, otherwiseOverflow_eq]
    by_cases hsize : inputLen / 3 * 4 ≤ u64Max
    · rw [if_pos hsize]
      change otherwiseOverflow (checkedAdd u64Max (inputLen / 3 * 4) _) = _
      rw [checkedAdd, otherwiseOverflow_eq, hsuffix]
    · rw [if_neg hsize, if_neg (by omega)]
      rfl
  | false =>
    have hlength : encodedLength false inputLen = (inputLen + 2) / 3 * 4 := rfl
    rw [encodedLen, if_neg Bool.false_ne_true, standardEncodedLen, checkedAdd, otherwiseOverflow_eq]
    by_cases hsize : inputLen + 2 ≤ u64Max
    · rw [if_pos hsize]
      change otherwiseOverflow (checkedMul u64Max ((inputLen + 2) / 3) 4) = _
      rw [checkedMul, otherwiseOverflow_eq, hlength]
    · have hlarge : u64Max < (inputLen + 2) / 3 * 4 := by
        rw [u64Max] at hsize ⊢
        omega
      rw [if_neg hsize, if_neg (by omega)]
      rfl

/-- The text is ASCII. -/
theorem isValidUtf8_spell {digits : List ℕ} (h : WholeBytes digits) :
    Text.isValidUtf8 (spell url digits) = true := by
  have hascii : ∀ byte ∈ spell url digits, byte < 128 := by
    intro byte hbyte
    rw [spell, List.mem_append] at hbyte
    rcases hbyte with hdigit | hpadding
    · obtain ⟨value, hvalue, rfl⟩ := List.mem_map.mp hdigit
      have hlt := (wholeBytes_iff.mp h).1 value hvalue
      rw [UInt8.lt_iff_toNat_lt, toNat_digitByte hlt]
      change digit value url < 128
      unfold digit urlDigit standardDigit
      split_ifs <;> omega
    · rw [(List.mem_replicate.mp hpadding).2]
      decide
  rw [Text.isValidUtf8_iff]
  generalize spell url digits = text at hascii
  induction text with
  | nil => exact .nil
  | cons byte rest ih =>
    have hrest := ih fun other hother => hascii other (List.mem_cons_of_mem _ hother)
    exact .cons (.one (hascii byte List.mem_cons_self)) hrest

theorem encodeProfile_eq (input : Bytes) : encodeProfile input url =
    if encodedLength url input.length ≤ u64Max then some (spell url (sextets input)) else none := by
  rw [encodeProfile, encodedLen_eq]
  split_ifs with hlength
  · have hwrite := @writeEncoded_eq url input (List.replicate (encodedLength url input.length) 0) (by
      rw [length_spell, List.length_replicate])
    rw [length_spell, List.drop_replicate, Nat.sub_self, List.replicate_zero, List.append_nil] at hwrite
    dsimp only
    rw [hwrite]
    exact if_pos (isValidUtf8_spell (wholeBytes_sextets input))
  · rfl

end Encoding

section Profiles

variable {url : Bool}

/-- A text spells the digits of one sequence of bytes. -/
theorem Canonical.unique {text : Bytes} {digits digits' : List ℕ} (h : Canonical url text digits)
    (h' : Canonical url text digits') : digits = digits' := by
  obtain ⟨result, -, hresult⟩ := validatedDecodedLen_decides text url
  have hoctets := (hresult _).mpr ⟨digits, h, rfl⟩
  have hoctets' := (hresult _).mpr ⟨digits', h', rfl⟩
  have hsame : (octets digits).length = (octets digits').length :=
    Except.ok.inj (hoctets.symm.trans hoctets')
  have hcount := length_octets h.1
  have hcount' := length_octets h'.1
  refine List.ext_getElem? fun i => ?_
  by_cases hi : i < digits.length
  · have hload := @loadDigit_eq url digits
      (List.replicate (paddingLength url digits.length) 61) (wholeBytes_iff.mp h.1).1 i hi
    have hload' := @loadDigit_eq url digits'
      (List.replicate (paddingLength url digits'.length) 61) (wholeBytes_iff.mp h'.1).1 i (by omega)
    have htext : spell url digits = spell url digits' := h.2.symm.trans h'.2
    rw [spell, spell] at htext
    rw [← hload, htext, hload']
  · rw [List.getElem?_eq_none (by omega), List.getElem?_eq_none (by omega)]

theorem decodeProfile_decides (text : Bytes) : Decides (decodeProfile text url)
    fun bytes => ∃ digits, Canonical url text digits ∧ bytes = octets digits := by
  obtain ⟨result, hcheck, hresult⟩ := validatedDecodedLen_decides text url
  rw [decodeProfile, hcheck]
  simp only [Option.bind_eq_bind, Option.bind_some]
  cases result with
  | error e =>
    refine (Decides.error e).congr fun bytes => iff_of_false id ?_
    rintro ⟨digits, hcanonical, -⟩
    cases (hresult _).mpr ⟨digits, hcanonical, rfl⟩
  | ok required =>
    obtain ⟨digits, hcanonical, rfl⟩ := (hresult required).mp rfl
    have hwrite := @writeDecoded_eq text url digits (List.replicate (octets digits).length 0)
      hcanonical List.length_replicate.ge
    rw [List.drop_replicate, Nat.sub_self, List.replicate_zero, List.append_nil] at hwrite
    dsimp only
    rw [hwrite]
    refine (Decides.ok (octets digits)).congr fun bytes => ⟨?_, ?_⟩
    · rintro rfl
      exact ⟨digits, hcanonical, rfl⟩
    · rintro ⟨digits', hcanonical', rfl⟩
      rw [hcanonical.unique hcanonical']

theorem canonical_sextets (input : Bytes) : Canonical url (spell url (sextets input)) (sextets input) :=
  ⟨wholeBytes_sextets input, rfl⟩

theorem decodeProfile_spell (input : Bytes) :
    decodeProfile (spell url (sextets input)) url = some (.ok input) := by
  obtain ⟨result, hdecode, hresult⟩ := @decodeProfile_decides url (spell url (sextets input))
  rw [hdecode, (hresult input).mpr ⟨_, canonical_sextets input, (octets_sextets input).symm⟩]

/-- Storage is written where it is long enough, and is left as it is otherwise. -/
theorem encodeProfileInto_eq {input output : Bytes} (houtput : output.length ≤ u64Max) :
    (output.length < encodedLength url input.length ∧
        ∃ error, encodeProfileInto input output url = some (.error error, output)) ∨
      (encodedLength url input.length ≤ output.length ∧
        encodeProfileInto input output url = some (.ok (encodedLength url input.length),
          spell url (sextets input) ++ output.drop (encodedLength url input.length))) := by
  rw [encodeProfileInto, encodedLen_eq]
  by_cases hlength : encodedLength url input.length ≤ u64Max
  · rw [if_pos hlength]
    dsimp only
    by_cases hshort : output.length < encodedLength url input.length
    · rw [if_pos hshort]
      exact Or.inl ⟨hshort, outputTooSmall, rfl⟩
    · have hwrite := @writeEncoded_eq url input output (by rw [length_spell]; omega)
      rw [length_spell] at hwrite
      rw [if_neg hshort, hwrite]
      exact Or.inr ⟨not_lt.mp hshort, rfl⟩
  · rw [if_neg hlength]
    exact Or.inl ⟨by omega, lengthOverflow, rfl⟩

theorem decodeProfileInto_eq (text output : Bytes) :
    (∃ error, decodeProfileInto text output url = some (.error error, output) ∧
        ∀ bytes, decodeProfile text url = some (.ok bytes) → output.length < bytes.length) ∨
      ∃ bytes, decodeProfile text url = some (.ok bytes) ∧ bytes.length ≤ output.length ∧
        decodeProfileInto text output url =
          some (.ok bytes.length, bytes ++ output.drop bytes.length) := by
  obtain ⟨result, hcheck, hresult⟩ := validatedDecodedLen_decides text url
  obtain ⟨decoded, hdecode, hdecoded⟩ := @decodeProfile_decides url text
  rw [decodeProfileInto, hcheck]
  simp only [Option.bind_eq_bind, Option.bind_some]
  cases result with
  | error e =>
    refine Or.inl ⟨e, rfl, fun bytes hbytes => ?_⟩
    rw [hdecode] at hbytes
    obtain ⟨digits, hcanonical, -⟩ := (hdecoded bytes).mp (Option.some.inj hbytes)
    cases (hresult _).mpr ⟨digits, hcanonical, rfl⟩
  | ok required =>
    obtain ⟨digits, hcanonical, rfl⟩ := (hresult required).mp rfl
    have hbytes : decodeProfile text url = some (.ok (octets digits)) := by
      rw [hdecode, (hdecoded _).mpr ⟨digits, hcanonical, rfl⟩]
    dsimp only
    by_cases hshort : output.length < (octets digits).length
    · rw [if_pos hshort]
      refine Or.inl ⟨outputTooSmall, rfl, fun bytes hother => ?_⟩
      rw [hbytes] at hother
      cases hother
      exact hshort
    · rw [if_neg hshort, writeDecoded_eq hcanonical (not_lt.mp hshort)]
      exact Or.inr ⟨octets digits, hbytes, not_lt.mp hshort, rfl⟩

/-- In both profiles decoding undoes encoding and accepts exactly the canonical texts, and
writing into storage fails exactly where it is too short and leaves it as it is. -/
theorem profiles_round_trip (url : Bool) :
    (∀ input, encodeProfile input url ≠ none ↔ encodedLength url input.length ≤ u64Max) ∧
    (∀ input text, encodeProfile input url = some text →
      text.length = encodedLength url input.length ∧ decodeProfile text url = some (.ok input)) ∧
    (∀ input output : Bytes, output.length ≤ u64Max → ∃ result after,
      encodeProfileInto input output url = some (result, after) ∧
        ((∃ error, result = .error error) ↔ output.length < encodedLength url input.length) ∧
        (∀ error, result = .error error → after = output) ∧
        ∀ written, result = .ok written → ∃ text, encodeProfile input url = some text ∧
          written = text.length ∧ after = text ++ output.drop written) ∧
    (∀ text, ∃ result, decodeProfile text url = some result ∧ ∀ bytes, result = .ok bytes ↔
      ∃ digits, Canonical url text digits ∧ bytes = octets digits) ∧
    (∀ text bytes, text.length ≤ u64Max → decodeProfile text url = some (.ok bytes) →
      encodeProfile bytes url = some text) ∧
    ∀ text output, (∃ error, decodeProfileInto text output url = some (.error error, output) ∧
        ∀ bytes, decodeProfile text url = some (.ok bytes) → output.length < bytes.length) ∨
      ∃ bytes, decodeProfile text url = some (.ok bytes) ∧ bytes.length ≤ output.length ∧
        decodeProfileInto text output url =
          some (.ok bytes.length, bytes ++ output.drop bytes.length) := by
  refine ⟨fun input => ?_, fun input text h => ?_, fun input output houtput => ?_,
    decodeProfile_decides, fun text bytes htext h => ?_, decodeProfileInto_eq⟩
  · rw [encodeProfile_eq]
    split_ifs with hlength
    · exact iff_of_true (Option.some_ne_none _) hlength
    · exact iff_of_false (fun h => h rfl) hlength
  · rw [encodeProfile_eq] at h
    split_ifs at h
    obtain rfl := Option.some.inj h
    exact ⟨length_spell url input, decodeProfile_spell input⟩
  · rcases @encodeProfileInto_eq url input output houtput with ⟨hshort, error, heq⟩ | ⟨hroom, heq⟩
    · exact ⟨_, _, heq, iff_of_true ⟨error, rfl⟩ hshort, fun _ _ => rfl, (by rintro _ ⟨⟩)⟩
    · refine ⟨_, _, heq, iff_of_false (by rintro ⟨_, ⟨⟩⟩) (not_lt.mpr hroom), (by rintro _ ⟨⟩), ?_⟩
      rintro _ ⟨⟩
      refine ⟨spell url (sextets input), ?_, (length_spell url input).symm, rfl⟩
      rw [encodeProfile_eq, if_pos (hroom.trans houtput)]
  · obtain ⟨result, hdecode, hresult⟩ := @decodeProfile_decides url text
    rw [hdecode] at h
    obtain ⟨digits, ⟨hwhole, rfl⟩, rfl⟩ := (hresult bytes).mp (Option.some.inj h)
    have hlength := length_spell url (octets digits)
    rw [sextets_octets hwhole] at hlength
    rw [encodeProfile_eq, sextets_octets hwhole, if_pos (hlength ▸ htext)]

end Profiles

end Nocter.Base64
