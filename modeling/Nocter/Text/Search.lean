import Mathlib.Algebra.Order.Group.Nat
import Mathlib.Data.List.Basic

/-!
# Search in borrowed text

A range of a text needs character boundaries at both of its ends. The search for a byte finds
its first occurrence behind the start.
-/

namespace Nocter.Text

def isCharBoundary (text : List UInt8) (index : ℕ) : Bool :=
  if text.length < index then false
  else if index = 0 ∨ index = text.length then true
  else (text[index]?).any fun byte => byte < 128 || 192 ≤ byte

/-- `get_range` of a text. -/
def charRange (text : List UInt8) (start stop : ℕ) : Option (List UInt8) :=
  if stop < start then none
  else if !isCharBoundary text start || !isCharBoundary text stop then none
  else some ((text.take stop).drop start)

/-- `find_from_bytes`. -/
def findFrom (text needle : List UInt8) (start : ℕ) : Option ℕ :=
  if text.length < start then none
  else if needle = [] then some start
  else if text.length - start < needle.length then none
  else (List.range' start (text.length - needle.length + 1 - start)).find? fun candidate =>
    (text.drop candidate).take needle.length = needle

section Separators

variable {separator : UInt8}

theorem takeWhile_separator {before : List UInt8} (after : List UInt8) (h : separator ∉ before) :
    (before ++ separator :: after).takeWhile (· ≠ separator) = before := by
  rw [List.takeWhile_append_of_pos, List.takeWhile_cons_of_neg (by simp), List.append_nil]
  intro byte hbyte
  rw [decide_eq_true_iff]
  rintro rfl
  exact h hbyte

/-- The first separator is in one place. -/
theorem separator_unique {before before' after after' : List UInt8}
    (h : before ++ separator :: after = before' ++ separator :: after') (hbefore : separator ∉ before)
    (hbefore' : separator ∉ before') : before = before' ∧ after = after' := by
  have hequal := congrArg (List.takeWhile (· ≠ separator)) h
  rw [takeWhile_separator _ hbefore, takeWhile_separator _ hbefore'] at hequal
  subst hequal
  exact ⟨rfl, (List.cons.inj (List.append_cancel_left h)).2⟩

/-- A text has no separator, or a first one. -/
theorem separator_cases (separator : UInt8) (text : List UInt8) :
    separator ∉ text ∨ ∃ before after, text = before ++ separator :: after ∧ separator ∉ before := by
  by_cases h : separator ∈ text
  · exact Or.inr (List.eq_append_cons_of_mem h)
  · exact Or.inl h

end Separators

section Windows

variable {before window after : List UInt8}

theorem isCharBoundary_ascii {text : List UInt8} (hascii : ∀ byte ∈ text, byte < 128) {index : ℕ}
    (hindex : index ≤ text.length) : isCharBoundary text index = true := by
  unfold isCharBoundary
  rw [if_neg (by omega)]
  split
  · rfl
  next hinner =>
    have hlt : index < text.length := by omega
    have hbyte := hascii _ (List.getElem_mem hlt)
    rw [List.getElem?_eq_getElem hlt, Option.any_some, decide_eq_true hbyte, Bool.true_or]

theorem charRange_window {text : List UInt8} (hascii : ∀ byte ∈ text, byte < 128)
    (htext : text = before ++ window ++ after) {stop : ℕ}
    (hstop : stop = before.length + window.length) :
    charRange text before.length stop = some window := by
  have hlength := congrArg List.length htext
  rw [List.length_append, List.length_append] at hlength
  rw [charRange, if_neg (by omega), isCharBoundary_ascii hascii (by omega),
    isCharBoundary_ascii hascii (by omega), Bool.not_true, Bool.or_false,
    if_neg Bool.false_ne_true, htext, List.append_assoc, hstop, List.take_length_add_append,
    List.take_left' rfl, List.drop_left' rfl]

/-- The search for a separator stops at the first one. -/
theorem findFrom_window {text query : List UInt8} {separator : UInt8} (htext : text = before ++ query) :
    findFrom text [separator] before.length = if separator ∈ query
      then some (before.length + (query.takeWhile (· ≠ separator)).length) else none := by
  have hlength : text.length = before.length + query.length := by rw [htext, List.length_append]
  have hat : ∀ index, decide ((text.drop (before.length + index)).take 1 = [separator]) =
      decide (query[index]? = some separator) := by
    intro index
    rw [htext, ← List.drop_drop, List.drop_left' rfl, decide_eq_decide]
    cases hdrop : query.drop index with
    | nil =>
      rw [List.getElem?_eq_none (List.drop_eq_nil_iff.mp hdrop)]
      simp
    | cons byte rest =>
      have hbyte : query[index]? = some byte := by
        rw [← Nat.add_zero index, ← List.getElem?_drop, hdrop]
        rfl
      rw [hbyte]
      simp
  rw [findFrom, if_neg (by omega), if_neg (List.cons_ne_nil _ _), List.length_singleton]
  split
  · next hshort =>
    have hempty : query = [] := List.length_eq_zero_iff.mp (by omega)
    rw [hempty, if_neg List.not_mem_nil]
  · split
    next hmem =>
      obtain ⟨item, rest, rfl, hitem⟩ := List.eq_append_cons_of_mem hmem
      rw [List.length_append, List.length_cons] at hlength
      rw [takeWhile_separator rest hitem, List.find?_range'_eq_some, List.mem_range'_1, hat]
      refine ⟨?_, by omega, fun index hfirst hbefore => ?_⟩
      · rw [List.getElem?_append_right le_rfl, Nat.sub_self]
        exact decide_eq_true rfl
      · obtain ⟨offset, rfl⟩ := Nat.exists_eq_add_of_le hfirst
        rw [hat, Bool.not_eq_true', decide_eq_false_iff_not, List.getElem?_append_left (by omega)]
        exact fun h => hitem (List.mem_of_getElem? h)
    next hmem =>
      rw [List.find?_range'_eq_none]
      intro index hfirst _
      obtain ⟨offset, rfl⟩ := Nat.exists_eq_add_of_le hfirst
      rw [hat, Bool.not_eq_true', decide_eq_false_iff_not]
      exact fun h => hmem (List.mem_of_getElem? h)

end Windows

end Nocter.Text
