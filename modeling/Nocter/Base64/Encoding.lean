import Nocter.Base64.Codec

/-!
# Writing the text of bytes

The loop writes the text of whole groups in front of the output storage and leaves the storage
behind the text as it is.
-/

namespace Nocter.Base64

variable {url : Bool} {done tail : Bytes}

theorem store_append {value : ℕ} (hvalue : value < 256) (old : UInt8) :
    store (done ++ old :: tail) done.length value = some (done ++ UInt8.ofNat value :: tail) := by
  have hlt : done.length < (done ++ old :: tail).length := by
    rw [List.length_append, List.length_cons]
    omega
  rw [store, if_pos hvalue, checkedSet, if_pos hlt, List.set_append_right _ _ le_rfl,
    Nat.sub_self, List.set_cons_zero]

/-- A store into the storage behind what is written. -/
theorem store_tail {value offset : ℕ} (hvalue : value < 256) (hoffset : offset = done.length)
    (htail : 0 < tail.length) : store (done ++ tail) offset value =
      some ((done ++ [UInt8.ofNat value]) ++ tail.drop 1) := by
  obtain ⟨old, rest, rfl⟩ := List.exists_cons_of_length_pos htail
  rw [hoffset, store_append hvalue, List.drop_succ_cons, List.drop_zero, List.append_assoc]
  rfl

theorem load_append (before : Bytes) (first : UInt8) (rest : Bytes) :
    load (before ++ first :: rest) before.length = some first.toNat := by
  rw [load, List.getElem?_append_right le_rfl, Nat.sub_self]
  rfl

theorem load_append_add {before rest : Bytes} {offset index : ℕ} (hoffset : offset = before.length + index)
    {byte : UInt8} (hbyte : rest[index]? = some byte) :
    load (before ++ rest) offset = some byte.toNat := by
  rw [load, hoffset, List.getElem?_append_right (Nat.le_add_right _ _), Nat.add_sub_cancel_left,
    hbyte, Option.map_some]

theorem store_digit {value offset : ℕ} (hvalue : value < 64) (hoffset : offset = done.length)
    (htail : 0 < tail.length) : store (done ++ tail) offset (digit value url) =
      some ((done ++ [digitByte url value]) ++ tail.drop 1) :=
  store_tail (digit_lt hvalue url) hoffset htail

/-- The padding is written behind the digits of the standard profile. -/
theorem writePadding_eq {count offset : ℕ} (hoffset : offset = done.length)
    (htail : (if url then 0 else count) ≤ tail.length) :
    writePadding url count offset (done ++ tail) =
      some (offset + (if url then 0 else count),
        (done ++ List.replicate (if url then 0 else count) 61) ++
          tail.drop (if url then 0 else count)) := by
  cases url with
  | true =>
    cases count with
    | zero => rw [writePadding]; simp
    | succ count => rw [writePadding]; simp
  | false =>
    simp only [Bool.false_eq_true, if_false] at htail ⊢
    induction count generalizing offset done tail with
    | zero => rw [writePadding]; simp
    | succ count ih =>
      have hpad := @store_tail done tail 61 offset (by decide) hoffset (by omega)
      rw [writePadding, if_neg Bool.false_ne_true, hpad]
      simp only [Option.bind_eq_bind, Option.bind_some]
      rw [ih (by simp [hoffset]) (by rw [List.length_drop]; omega)]
      simp only [List.drop_drop, List.append_assoc, List.singleton_append, List.replicate_succ,
        Nat.add_comm 1 count, Nat.add_assoc]
      rfl

theorem spell_group {first second third fourth : ℕ} {digits : List ℕ} :
    spell url (first :: second :: third :: fourth :: digits) =
      digitByte url first :: digitByte url second :: digitByte url third :: digitByte url fourth ::
        spell url digits := by
  have hpadding : paddingLength url (digits.length + 1 + 1 + 1 + 1) =
      paddingLength url digits.length := by
    rw [paddingLength, paddingLength, show digits.length + 1 + 1 + 1 + 1 = digits.length + 4 from rfl,
      Nat.add_mod_right]
  rw [spell, spell]
  simp only [List.length_cons, hpadding, List.map_cons, List.cons_append]

/-- What is behind the loop writes the text of fewer than three bytes. -/
theorem writeTail_eq {before rest : Bytes} (hrest : rest.length < 3) {inputOffset outputOffset : ℕ}
    (hinput : inputOffset = before.length) (houtput : outputOffset = done.length)
    (htail : (spell url (sextets rest)).length ≤ tail.length) :
    writeTail (before ++ rest) url inputOffset outputOffset (done ++ tail) =
      some (outputOffset + (spell url (sextets rest)).length,
        (done ++ spell url (sextets rest)) ++ tail.drop (spell url (sextets rest)).length) := by
  have hremaining : checkedSub (before ++ rest).length inputOffset = some rest.length := by
    rw [hinput, List.length_append, checkedSub_of_le (Nat.le_add_right _ _),
      Nat.add_sub_cancel_left]
  rw [writeTail, hremaining]
  simp only [Option.bind_eq_bind, Option.bind_some]
  match rest, hrest with
  | [], _ =>
    have hnone : spell url (sextets []) = [] := by
      cases url <;> rfl
    rw [hnone, if_neg (by decide), if_neg (by decide), List.append_nil]
    rfl
  | [first], _ =>
    have hlt := first.toNat_lt
    have htext : spell url (sextets [first]) = [digitByte url (first.toNat / 4),
        digitByte url (first.toNat % 4 * 16)] ++ List.replicate (if url then 0 else 2) 61 := by
      cases url <;> rfl
    have hload : load (before ++ [first]) inputOffset = some first.toNat := by
      rw [hinput, load_append]
    rw [htext, List.length_append, List.length_replicate] at htail
    simp only [List.length_cons, List.length_nil] at htail
    rw [if_pos List.length_singleton, hload]
    simp only [Option.bind_some]
    rw [store_digit (by omega) houtput (by omega)]
    simp only [Option.bind_some]
    rw [store_digit (by omega) (by simp [houtput]) (by rw [List.length_drop]; omega)]
    simp only [Option.bind_some]
    rw [writePadding_eq (by simp [houtput]) (by simp only [List.length_drop]; omega), htext]
    simp [List.drop_drop, Nat.add_assoc]
    omega
  | [first, second], _ =>
    have hlt := first.toNat_lt
    have hlt' := second.toNat_lt
    have htext : spell url (sextets [first, second]) = [digitByte url (first.toNat / 4),
        digitByte url (first.toNat % 4 * 16 + second.toNat / 16),
        digitByte url (second.toNat % 16 * 4)] ++ List.replicate (if url then 0 else 1) 61 := by
      cases url <;> rfl
    have hload : load (before ++ [first, second]) inputOffset = some first.toNat := by
      rw [hinput, load_append]
    have hload' : load (before ++ [first, second]) (inputOffset + 1) = some second.toNat :=
      load_append_add (by rw [hinput]) rfl
    rw [htext, List.length_append, List.length_replicate] at htail
    simp only [List.length_cons, List.length_nil] at htail
    have htwo : [first, second].length = 2 := rfl
    rw [if_neg (by omega), if_pos htwo, hload, hload']
    simp only [Option.bind_some]
    rw [store_digit (by omega) houtput (by omega)]
    simp only [Option.bind_some]
    rw [store_digit (by omega) (by simp [houtput]) (by rw [List.length_drop]; omega)]
    simp only [Option.bind_some]
    rw [store_digit (by omega) (by simp [houtput]) (by simp only [List.length_drop]; omega)]
    simp only [Option.bind_some]
    rw [writePadding_eq (by simp [houtput]) (by simp only [List.length_drop]; omega), htext]
    simp [List.drop_drop, Nat.add_assoc]
    omega

theorem writeGroups_short {before rest : Bytes} (hrest : rest.length < 3) {passes inputOffset : ℕ}
    (hpasses : 0 < passes) (hinput : inputOffset = before.length) (outputOffset : ℕ)
    (output : Bytes) : writeGroups (before ++ rest) url passes inputOffset outputOffset output =
      some (inputOffset, outputOffset, output) := by
  obtain ⟨passes, rfl⟩ := Nat.exists_eq_succ_of_ne_zero hpasses.ne'
  rw [writeGroups, if_neg]
  rw [hinput, List.length_append]
  omega

/-- The loop and what is behind it write the text of the bytes that are left. -/
theorem writeGroups_eq {before rest : Bytes} {passes inputOffset outputOffset : ℕ}
    (hpasses : rest.length < passes)
    (hinput : inputOffset = before.length) (houtput : outputOffset = done.length)
    (htail : (spell url (sextets rest)).length ≤ tail.length) :
    (writeGroups (before ++ rest) url passes inputOffset outputOffset (done ++ tail)).bind
        (fun after => writeTail (before ++ rest) url after.1 after.2.1 after.2.2) =
      some (outputOffset + (spell url (sextets rest)).length,
        (done ++ spell url (sextets rest)) ++ tail.drop (spell url (sextets rest)).length) := by
  induction rest using sextets.induct generalizing before done tail passes inputOffset outputOffset with
  | case1 first second third rest ih =>
    obtain ⟨passes, rfl⟩ := Nat.exists_eq_succ_of_ne_zero (Nat.ne_zero_of_lt hpasses)
    have hlt := first.toNat_lt
    have hlt' := second.toNat_lt
    have hlt'' := third.toNat_lt
    have hmore : inputOffset + 3 ≤ (before ++ first :: second :: third :: rest).length := by
      rw [hinput, List.length_append]
      simp only [List.length_cons]
      omega
    have hload : load (before ++ first :: second :: third :: rest) inputOffset =
        some first.toNat := by
      rw [hinput, load_append]
    have hload' : load (before ++ first :: second :: third :: rest) (inputOffset + 1) =
        some second.toNat := load_append_add (by rw [hinput]) rfl
    have hload'' : load (before ++ first :: second :: third :: rest) (inputOffset + 2) =
        some third.toNat := load_append_add (by rw [hinput]) rfl
    rw [sextets, spell_group] at htail
    simp only [List.length_cons] at htail hpasses
    rw [writeGroups, if_pos hmore, hload, hload', hload'']
    simp only [Option.bind_eq_bind, Option.bind_some]
    rw [store_digit (by omega) houtput (by omega)]
    simp only [Option.bind_some]
    rw [store_digit (by omega) (by simp [houtput]) (by rw [List.length_drop]; omega)]
    simp only [Option.bind_some]
    rw [store_digit (by omega) (by simp [houtput]) (by simp only [List.length_drop]; omega)]
    simp only [Option.bind_some]
    rw [store_digit (by omega) (by simp [houtput]) (by simp only [List.length_drop]; omega)]
    simp only [Option.bind_some]
    have hsplit : before ++ first :: second :: third :: rest =
        (before ++ [first, second, third]) ++ rest := by
      rw [List.append_assoc]
      rfl
    rw [hsplit, ih (by omega) (by simp [hinput]) (by simp [houtput])
      (by simp only [List.length_drop]; omega), sextets, spell_group]
    simp [List.drop_drop, Nat.add_assoc, Nat.add_comm]
    omega
  | case2 first second =>
    have hshort : [first, second].length < 3 := Nat.lt_succ_self 2
    rw [writeGroups_short hshort (by omega) hinput]
    exact writeTail_eq hshort hinput houtput htail
  | case3 first =>
    have hshort : [first].length < 3 := Nat.lt_of_succ_lt (Nat.lt_succ_self 2)
    rw [writeGroups_short hshort (by omega) hinput]
    exact writeTail_eq hshort hinput houtput htail
  | case4 =>
    rw [writeGroups_short (by decide) (by omega) hinput]
    exact writeTail_eq (by decide) hinput houtput htail

/-- The text is written in front of storage that is long enough. -/
theorem writeEncoded_eq {input output : Bytes}
    (h : (spell url (sextets input)).length ≤ output.length) :
    writeEncoded input output url = some ((spell url (sextets input)).length,
      spell url (sextets input) ++ output.drop (spell url (sextets input)).length) := by
  have hrun := @writeGroups_eq url [] output [] input (input.length + 1) 0 0 (Nat.lt_succ_self _)
    rfl rfl h
  rw [Nat.zero_add] at hrun
  exact hrun

end Nocter.Base64
