import Mathlib.Data.Nat.Find
import Nocter.Library.Outcome
import Nocter.Text.Search
import Nocter.Text.Utf8Scalars

/-!
# Splitting and replacing in text

Parts, lines and replaced texts are found by a search over bytes and taken as unchecked views. A
separator that is a text itself occurs only between whole scalar values, so every view starts and
ends on a boundary, and the scan for the capacity of a replaced text selects the occurrences that
the copy selects.
-/

namespace Nocter.Text

open Outcome Utf8

structure SearchError where
  code : String
  message : String
deriving DecidableEq

def emptySeparatorError : SearchError :=
  ⟨"std.str.empty_separator", "string separator must not be empty"⟩

def emptyPatternError : SearchError :=
  ⟨"std.str.empty_pattern", "replacement pattern must not be empty"⟩

/-! ## Search -/

/-- The comparison of a candidate, which reads every byte of the needle. -/
def compareFrom (text needle : List UInt8) (candidate : ℕ) : ℕ → ℕ → Bool → Outcome Bool
  | 0, _, equal => value equal
  | count + 1, matched, equal => do
    let actual ← read text (candidate + matched)
    let expected ← read needle matched
    compareFrom text needle candidate count (matched + 1) (if actual ≠ expected then false else equal)

def findCandidate (text needle : List UInt8) : ℕ → ℕ → Outcome (Option ℕ)
  | 0, _ => value none
  | count + 1, candidate => do
    let equal ← compareFrom text needle candidate needle.length 0 true
    if equal then value (some candidate) else findCandidate text needle count (candidate + 1)

/-- `find_from_bytes` with its reads. -/
def findFromBytes (text needle : List UInt8) (start : ℕ) : Outcome (Option ℕ) :=
  if text.length < start then value none
  else if needle.length = 0 then value (some start)
  else if text.length - start < needle.length then value none
  else do
    let lastCandidate ← minus text.length needle.length
    findCandidate text needle (lastCandidate + 1 - start) start

def findByteFrom (text : List UInt8) (needle : UInt8) : ℕ → ℕ → Outcome (Option ℕ)
  | 0, _ => value none
  | count + 1, index => do
    let byte ← read text index
    if byte = needle then value (some index) else findByteFrom text needle count (index + 1)

def findByte (text : List UInt8) (needle : UInt8) (start : ℕ) : Outcome (Option ℕ) :=
  findByteFrom text needle (text.length - start) start

/-- `str_subview_unchecked`, whose caller has to give a range of whole scalar values. -/
def subview (text : List UInt8) (start len : ℕ) : Outcome (List UInt8) :=
  if isCharBoundary text start ∧ isCharBoundary text (start + len) then value ((text.drop start).take len)
  else trapped

/-- The comparison of an affix, which ends at the first difference. -/
def sameFrom (text affix : List UInt8) (start : ℕ) : ℕ → ℕ → Outcome Bool
  | 0, _ => value true
  | count + 1, index => do
    let actual ← read text (start + index)
    let expected ← read affix index
    if actual ≠ expected then value false else sameFrom text affix start count (index + 1)

def stripPrefix (text affix : List UInt8) : Outcome (Option (List UInt8)) :=
  if text.length < affix.length then value none
  else do
    let same ← sameFrom text affix 0 affix.length 0
    if same then
      let rest ← subview text affix.length (text.length - affix.length)
      value (some rest)
    else value none

def stripSuffix (text affix : List UInt8) : Outcome (Option (List UInt8)) :=
  if text.length < affix.length then value none
  else do
    let start := text.length - affix.length
    let same ← sameFrom text affix start affix.length 0
    if same then
      let rest ← subview text 0 start
      value (some rest)
    else value none

/-! ## Iterators -/

structure SplitIter where
  text : List UInt8
  separator : List UInt8
  nextStart : ℕ
  finished : Bool
deriving DecidableEq

structure LinesIter where
  text : List UInt8
  nextStart : ℕ
  finished : Bool
deriving DecidableEq

def SplitIter.new (text separator : List UInt8) : Except SearchError SplitIter :=
  if separator.length = 0 then .error emptySeparatorError else .ok ⟨text, separator, 0, false⟩

def SplitIter.next (iter : SplitIter) : Outcome (Option (List UInt8) × SplitIter) :=
  if iter.finished then value (none, iter)
  else do
    match ← findFromBytes iter.text iter.separator iter.nextStart with
    | none =>
      let len ← minus iter.text.length iter.nextStart
      let part ← subview iter.text iter.nextStart len
      value (some part, { iter with finished := true })
    | some separatorStart =>
      let len ← minus separatorStart iter.nextStart
      let part ← subview iter.text iter.nextStart len
      value (some part, { iter with nextStart := separatorStart + iter.separator.length })

def LinesIter.new (text : List UInt8) : LinesIter := ⟨text, 0, text.length = 0⟩

/-- The end of a line in front of its line feed. -/
def lineEnd (text : List UInt8) (lineStart newline : ℕ) : Outcome ℕ :=
  if lineStart < newline then do
    let byte ← read text (newline - 1)
    value (if byte = 13 then newline - 1 else newline)
  else value newline

def LinesIter.next (iter : LinesIter) : Outcome (Option (List UInt8) × LinesIter) :=
  if iter.finished then value (none, iter)
  else do
    match ← findByte iter.text 10 iter.nextStart with
    | none =>
      let len ← minus iter.text.length iter.nextStart
      let line ← subview iter.text iter.nextStart len
      value (some line, { iter with finished := true })
    | some newline =>
      let stop ← lineEnd iter.text iter.nextStart newline
      let len ← minus stop iter.nextStart
      let line ← subview iter.text iter.nextStart len
      let finished := if newline + 1 = iter.text.length then true else iter.finished
      value (some line, { iter with nextStart := newline + 1, finished })

/-- The items of an iterator that is asked until it has none. -/
def collect {ι : Type} (next : ι → Outcome (Option (List UInt8) × ι)) : ℕ → ι → Outcome (List (List UInt8))
  | 0, _ => trapped
  | fuel + 1, iter => do
    match ← next iter with
    | (none, _) => value []
    | (some item, iter) =>
      let items ← collect next fuel iter
      value (item :: items)

/-! ## Replacement -/

/-- The capacity with one more occurrence replaced. -/
def adjustedCapacity (usizeMax : ℕ) (pattern replacement : List UInt8) (capacity : ℕ) : Outcome ℕ :=
  if pattern.length ≤ replacement.length then do
    let growth ← minus replacement.length pattern.length
    bounded usizeMax (capacity + growth)
  else do
    let shrinkage ← minus pattern.length replacement.length
    minus capacity shrinkage

def capacityLoop (usizeMax : ℕ) (text pattern replacement : List UInt8) : ℕ → ℕ → ℕ → Outcome ℕ
  | 0, _, _ => trapped
  | fuel + 1, capacity, searchStart =>
    if text.length < searchStart then value capacity
    else do
      match ← findFromBytes text pattern searchStart with
      | none => value capacity
      | some matchStart =>
        let capacity ← adjustedCapacity usizeMax pattern replacement capacity
        capacityLoop usizeMax text pattern replacement fuel capacity (matchStart + pattern.length)

def replacementCapacity (usizeMax : ℕ) (text pattern replacement : List UInt8) : Outcome ℕ :=
  capacityLoop usizeMax text pattern replacement (text.length + 2) text.length 0

def copyLoop (text pattern replacement : List UInt8) : ℕ → List UInt8 → ℕ → Outcome (List UInt8)
  | 0, _, _ => trapped
  | fuel + 1, result, copiedUntil =>
    if text.length < copiedUntil then value result
    else do
      match ← findFromBytes text pattern copiedUntil with
      | none =>
        let len ← minus text.length copiedUntil
        let copied ← subview text copiedUntil len
        value (result ++ copied)
      | some matchStart =>
        let len ← minus matchStart copiedUntil
        let copied ← subview text copiedUntil len
        copyLoop text pattern replacement fuel (result ++ copied ++ replacement)
          (matchStart + pattern.length)

def replaceAll (usizeMax : ℕ) (text pattern replacement : List UInt8) :
    Outcome (Except SearchError (List UInt8)) :=
  if pattern.length = 0 then value (.error emptyPatternError)
  else do
    let _capacity ← replacementCapacity usizeMax text pattern replacement
    let result ← copyLoop text pattern replacement (text.length + 2) [] 0
    value (.ok result)

/-! ## Parts and lines -/

/-- No window of the separator starts in front of this end. -/
def ClearBefore (separator text : List UInt8) (stop : ℕ) : Prop :=
  ∀ index < stop, ¬separator <+: text.drop index

/-- A text and its parts between the leftmost occurrences of a separator. -/
inductive Splits (separator : List UInt8) : List UInt8 → List (List UInt8) → Prop
  | last {text : List UInt8} (hnone : ¬separator <:+: text) : Splits separator text [text]
  | cons {part rest : List UInt8} {parts : List (List UInt8)}
      (hfirst : ClearBefore separator (part ++ (separator ++ rest)) part.length)
      (hrest : Splits separator rest parts) :
      Splits separator (part ++ (separator ++ rest)) (part :: parts)

/-- A line without the carriage return at its end. -/
def withoutReturn (line : List UInt8) : List UInt8 :=
  if line.getLast? = some 13 then line.dropLast else line

/-- A text and its lines. -/
inductive Lines : List UInt8 → List (List UInt8) → Prop
  | nil : Lines [] []
  | last {text : List UInt8} (hne : text ≠ []) (hnone : 10 ∉ text) : Lines text [text]
  | cons {line rest : List UInt8} {lines : List (List UInt8)} (hline : 10 ∉ line)
      (hrest : Lines rest lines) : Lines (line ++ 10 :: rest) (withoutReturn line :: lines)

section Search

variable {text needle before rest : List UInt8}

/-- Two bytes differ, or the comparison goes on behind them. -/
theorem take_cons_eq_iff {actual expected : UInt8} {actuals expecteds : List UInt8} {count : ℕ} :
    (actual :: actuals).take (count + 1) = expected :: expecteds ↔
      actual = expected ∧ actuals.take count = expecteds := by
  rw [List.take_succ_cons, List.cons.injEq]

theorem compareFrom_eq {candidate count matched : ℕ} (equal : Bool) (hcount : matched + count = needle.length)
    (hroom : candidate + needle.length ≤ text.length) :
    compareFrom text needle candidate count matched equal =
      value (equal && decide ((text.drop (candidate + matched)).take count = needle.drop matched)) := by
  induction count generalizing matched equal with
  | zero =>
    rw [compareFrom, List.take_zero, List.drop_eq_nil_of_le (by omega), decide_eq_true rfl, Bool.and_true]
  | succ count ih =>
    have htext : candidate + matched < text.length := by omega
    have hneedle : matched < needle.length := by omega
    rw [compareFrom, read_eq_value (List.getElem?_eq_getElem htext),
      read_eq_value (List.getElem?_eq_getElem hneedle), value_bind, value_bind, ih _ (by omega),
      List.drop_eq_getElem_cons htext, List.drop_eq_getElem_cons hneedle, ← Nat.add_assoc]
    congr 1
    split
    next hdiffer =>
      rw [decide_eq_false fun h => hdiffer (take_cons_eq_iff.mp h).1]
      simp
    next hsame =>
      congr 1
      rw [decide_eq_decide, take_cons_eq_iff]
      exact ⟨fun h => ⟨not_not.mp hsame, h⟩, And.right⟩

theorem findCandidate_eq {count candidate : ℕ} (hroom : candidate + count + needle.length ≤ text.length + 1) :
    findCandidate text needle count candidate =
      value ((List.range' candidate count).find? fun candidate =>
        (text.drop candidate).take needle.length = needle) := by
  induction count generalizing candidate with
  | zero => rfl
  | succ count ih =>
    rw [findCandidate, compareFrom_eq _ (Nat.zero_add _) (by omega), value_bind, ih (by omega),
      List.range'_succ, List.find?_cons, Bool.true_and, Nat.add_zero, List.drop_zero]
    cases decide ((text.drop candidate).take needle.length = needle) <;> rfl

theorem findFromBytes_eq (text needle : List UInt8) (start : ℕ) :
    findFromBytes text needle start = value (findFrom text needle start) := by
  unfold findFromBytes findFrom
  split
  · rfl
  · cases needle with
    | nil => rfl
    | cons byte needle =>
      rw [if_neg (show (byte :: needle).length ≠ 0 from Nat.succ_ne_zero _), if_neg (List.cons_ne_nil _ _)]
      split
      · rfl
      next hroom =>
        have hle : (byte :: needle).length ≤ text.length := by omega
        rw [minus_eq_value hle, value_bind, findCandidate_eq (by omega)]

/-- The search finds the first window behind its start. -/
theorem findFromBytes_some {part after : List UInt8} (hne : needle ≠ [])
    (hrest : rest = part ++ (needle ++ after)) (hfirst : ClearBefore needle rest part.length) :
    findFromBytes (before ++ rest) needle before.length = value (some (before.length + part.length)) := by
  have hlength : rest.length = part.length + (needle.length + after.length) := by
    rw [hrest, List.length_append, List.length_append]
  rw [findFromBytes_eq, findFrom, List.length_append, if_neg (by omega), if_neg hne, if_neg (by omega)]
  congr 1
  rw [List.find?_range'_eq_some, decide_eq_true_iff, List.mem_range'_1]
  refine ⟨?_, by omega, ?_⟩
  · rw [List.drop_length_add_append, hrest, List.drop_left' rfl, List.take_left' rfl]
  · intro index hstart hstop
    obtain ⟨offset, rfl⟩ := Nat.exists_eq_add_of_le hstart
    rw [Bool.not_eq_true', decide_eq_false_iff_not, List.drop_length_add_append]
    exact fun h => hfirst offset (by omega) (List.prefix_iff_eq_take.mpr h.symm)

theorem findFromBytes_none (hne : needle ≠ []) (hnone : ¬needle <:+: rest) :
    findFromBytes (before ++ rest) needle before.length = value none := by
  rw [findFromBytes_eq, findFrom, List.length_append, if_neg (by omega), if_neg hne]
  split
  · rfl
  · congr 1
    rw [List.find?_range'_eq_none]
    intro index hstart _
    obtain ⟨offset, rfl⟩ := Nat.exists_eq_add_of_le hstart
    rw [Bool.not_eq_true', decide_eq_false_iff_not, List.drop_length_add_append]
    exact fun h => hnone ((List.prefix_iff_eq_take.mpr h.symm).isInfix.trans (List.drop_suffix _ _).isInfix)

theorem findByteFrom_some {needle : UInt8} {line after : List UInt8} (hline : needle ∉ line) (more : ℕ) :
    findByteFrom (before ++ (line ++ needle :: after)) needle (line.length + (more + 1)) before.length =
      value (some (before.length + line.length)) := by
  induction line generalizing before with
  | nil =>
    have hbyte : (before ++ ([] ++ needle :: after))[before.length]? = some needle := by simp
    rw [List.length_nil, Nat.zero_add, findByteFrom, read_eq_value hbyte, value_bind, if_pos rfl]
    rfl
  | cons byte line ih =>
    obtain ⟨hne, hline⟩ := not_or.mp (mt List.mem_cons.mpr hline)
    have hbyte : (before ++ (byte :: line ++ needle :: after))[before.length]? = some byte := by simp
    have hnext := @ih (before ++ [byte]) hline
    rw [List.append_assoc, List.length_append, List.length_singleton] at hnext
    rw [List.length_cons, Nat.add_right_comm, findByteFrom, read_eq_value hbyte, value_bind,
      if_neg fun h => hne h.symm]
    refine hnext.trans ?_
    rw [Nat.add_assoc, Nat.add_comm 1]

theorem findByte_some {needle : UInt8} {line after : List UInt8} (hline : needle ∉ line) :
    findByte (before ++ (line ++ needle :: after)) needle before.length =
      value (some (before.length + line.length)) := by
  have hlength : (before ++ (line ++ needle :: after)).length - before.length =
      line.length + (after.length + 1) := by
    rw [List.length_append, Nat.add_sub_cancel_left, List.length_append, List.length_cons]
  rw [findByte, hlength]
  exact findByteFrom_some hline _

theorem findByte_none {needle : UInt8} (hnone : needle ∉ rest) :
    findByte (before ++ rest) needle before.length = value none := by
  rw [findByte, List.length_append, Nat.add_sub_cancel_left]
  induction rest generalizing before with
  | nil => rfl
  | cons byte rest ih =>
    obtain ⟨hne, hrest⟩ := not_or.mp (mt List.mem_cons.mpr hnone)
    have hbyte : (before ++ byte :: rest)[before.length]? = some byte := by simp
    have hnext := @ih (before ++ [byte]) hrest
    rw [List.append_assoc, List.length_append, List.length_singleton] at hnext
    rw [List.length_cons, findByteFrom, read_eq_value hbyte, value_bind, if_neg fun h => hne h.symm]
    exact hnext

end Search

section Boundaries

variable {before window after : List UInt8}

/-- A text starts on a boundary behind any bytes. -/
theorem isCharBoundary_of_valid (hafter : Valid after) :
    isCharBoundary (before ++ after) before.length = true := by
  unfold isCharBoundary
  rw [if_neg (by rw [List.length_append]; omega)]
  split
  · rfl
  next hinner =>
    cases after with
    | nil => exact absurd (Or.inr (by rw [List.append_nil])) hinner
    | cons byte after =>
      have hhead := hafter.head
      rw [List.getElem?_append_right (Nat.le_refl _), Nat.sub_self, List.getElem?_cons_zero, Option.any_some,
        Bool.or_eq_true, decide_eq_true_iff, decide_eq_true_iff]
      by_cases hlow : byte < 128
      · exact Or.inl hlow
      · refine Or.inr (UInt8.le_iff_toNat_le.mpr ?_)
        have hhigh : ¬byte ≤ 191 := fun h => hhead ⟨UInt8.not_lt.mp hlow, h⟩
        rw [UInt8.le_iff_toNat_le] at hhigh
        simp only [UInt8.reduceToNat] at hhigh ⊢
        omega

theorem subview_window (hwindow : Valid (window ++ after)) (hafter : Valid after) :
    subview (before ++ (window ++ after)) before.length window.length = value window := by
  have hstop := @isCharBoundary_of_valid (before ++ window) after hafter
  rw [List.append_assoc, List.length_append] at hstop
  rw [subview, if_pos ⟨isCharBoundary_of_valid hwindow, hstop⟩, List.drop_left' rfl, List.take_left' rfl]

/-- The view of everything behind a place. -/
theorem subview_rest (hwindow : Valid window) :
    subview (before ++ window) before.length window.length = value window := by
  have hview := @subview_window before window []
  rw [List.append_nil] at hview
  exact hview hwindow .nil

theorem sameFrom_eq {text affix : List UInt8} {start count index : ℕ} (hcount : index + count = affix.length)
    (hroom : start + affix.length ≤ text.length) : sameFrom text affix start count index =
      value (decide ((text.drop (start + index)).take count = affix.drop index)) := by
  induction count generalizing index with
  | zero => rw [sameFrom, List.take_zero, List.drop_eq_nil_of_le (by omega), decide_eq_true rfl]
  | succ count ih =>
    have htext : start + index < text.length := by omega
    have haffix : index < affix.length := by omega
    rw [sameFrom, read_eq_value (List.getElem?_eq_getElem htext),
      read_eq_value (List.getElem?_eq_getElem haffix), value_bind, value_bind, ih (by omega),
      List.drop_eq_getElem_cons htext, List.drop_eq_getElem_cons haffix, ← Nat.add_assoc]
    split
    next hdiffer => rw [decide_eq_false fun h => hdiffer (take_cons_eq_iff.mp h).1]
    next hsame =>
      congr 1
      rw [decide_eq_decide, take_cons_eq_iff]
      exact ⟨fun h => ⟨not_not.mp hsame, h⟩, And.right⟩

/-- A stripped prefix leaves the text behind it. -/
theorem stripPrefix_eq {text affix : List UInt8} (htext : Valid text) (haffix : Valid affix) :
    stripPrefix text affix = value (if affix <+: text then some (text.drop affix.length) else none) := by
  rw [stripPrefix]
  split
  next hshort => rw [if_neg fun h => absurd h.length_le (Nat.not_le.mpr hshort)]
  next hroom =>
    rw [sameFrom_eq (Nat.zero_add _) (by omega), value_bind, Nat.add_zero, List.drop_zero, List.drop_zero]
    by_cases hprefix : affix <+: text
    · rw [if_pos hprefix, decide_eq_true (List.prefix_iff_eq_take.mp hprefix).symm, if_pos rfl]
      obtain ⟨rest, rfl⟩ := hprefix
      rw [List.length_append, Nat.add_sub_cancel_left, subview_rest (haffix.rest htext), value_bind,
        List.drop_left' rfl]
    · rw [if_neg hprefix, decide_eq_false fun h => hprefix (List.prefix_iff_eq_take.mpr h.symm),
        if_neg Bool.false_ne_true]

theorem stripSuffix_eq {text affix : List UInt8} (htext : Valid text) (haffix : Valid affix) :
    stripSuffix text affix =
      value (if affix <:+ text then some (text.take (text.length - affix.length)) else none) := by
  rw [stripSuffix]
  split
  next hshort => rw [if_neg fun h => absurd h.length_le (Nat.not_le.mpr hshort)]
  next hroom =>
    simp only
    rw [sameFrom_eq (Nat.zero_add _) (by omega), value_bind, Nat.add_zero, List.drop_zero,
      List.take_of_length_le (by rw [List.length_drop]; omega)]
    by_cases hsuffix : affix <:+ text
    · rw [if_pos hsuffix, decide_eq_true (List.suffix_iff_eq_drop.mp hsuffix).symm, if_pos rfl]
      obtain ⟨rest, rfl⟩ := hsuffix
      have hview := @subview_window [] rest affix htext haffix
      rw [List.nil_append, List.length_nil] at hview
      rw [List.length_append, Nat.add_sub_cancel, hview, value_bind, List.take_left' rfl]
    · rw [if_neg hsuffix, decide_eq_false fun h => hsuffix (List.suffix_iff_eq_drop.mpr h.symm),
        if_neg Bool.false_ne_true]

end Boundaries

section Parts

variable {separator text : List UInt8} {parts : List (List UInt8)}

theorem Splits.ne_nil (h : Splits separator text parts) : parts ≠ [] := by
  cases h <;> exact List.cons_ne_nil _ _

/-- A text has no window of the separator, or a first one. -/
theorem window_cases (separator text : List UInt8) : ¬separator <:+: text ∨
    ∃ part rest, text = part ++ (separator ++ rest) ∧ ClearBefore separator text part.length := by
  by_cases hnone : separator <:+: text
  · right
    have hstart : ∃ index, index ≤ text.length ∧ separator <+: text.drop index := by
      obtain ⟨part, rest, rfl⟩ := hnone
      refine ⟨part.length, ?_, ?_⟩
      · rw [List.append_assoc, List.length_append]
        omega
      · rw [List.append_assoc, List.drop_left' rfl]
        exact List.prefix_append _ _
    classical
    obtain ⟨hle, rest, hrest⟩ := Nat.find_spec hstart
    have hlength : (text.take (Nat.find hstart)).length = Nat.find hstart := List.length_take_of_le hle
    refine ⟨text.take (Nat.find hstart), rest, ?_, ?_⟩
    · rw [hrest, List.take_append_drop]
    · rw [hlength]
      intro index hindex hprefix
      exact Nat.find_min hstart hindex ⟨by omega, hprefix⟩
  · exact Or.inl hnone

/-- Every text has its parts. -/
theorem exists_splits (hne : separator ≠ []) (text : List UInt8) : ∃ parts, Splits separator text parts := by
  have hlength := List.length_pos_iff.mpr hne
  induction hsize : text.length using Nat.strong_induction_on generalizing text with
  | _ size ih =>
    obtain hnone | ⟨part, rest, rfl, hfirst⟩ := window_cases separator text
    · exact ⟨_, .last hnone⟩
    · rw [List.length_append, List.length_append] at hsize
      obtain ⟨parts, hparts⟩ := ih rest.length (by omega) rest rfl
      exact ⟨_, .cons hfirst hparts⟩

theorem Splits.intercalate_eq (h : Splits separator text parts) : separator.intercalate parts = text := by
  induction h with
  | last hnone => rw [List.intercalate_singleton]
  | cons hfirst hrest ih => rw [List.intercalate_cons_of_ne_nil hrest.ne_nil, ih, List.append_assoc]

theorem Splits.not_infix (h : Splits separator text parts) (hne : separator ≠ []) :
    ∀ part ∈ parts, ¬separator <:+: part := by
  induction h with
  | last hnone => simpa using hnone
  | @cons part rest parts hfirst hrest ih =>
    rw [List.forall_mem_cons]
    refine ⟨?_, ih⟩
    rintro ⟨before, after, rfl⟩
    have hlength := List.length_pos_iff.mpr hne
    apply hfirst before.length
    · simp only [List.length_append]
      omega
    · rw [List.append_assoc, List.append_assoc, List.drop_left' rfl]
      exact List.prefix_append _ _

/-- The parts of a text are texts. -/
theorem Splits.valid (h : Splits separator text parts) (hseparator : Valid separator) (hne : separator ≠ [])
    (htext : Valid text) : ∀ part ∈ parts, Valid part := by
  induction h with
  | last hnone => simpa using htext
  | cons hfirst hrest ih =>
    obtain ⟨hpart, hrest⟩ := htext.cut_around hseparator hne
    exact List.forall_mem_cons.mpr ⟨hpart, ih hrest⟩

theorem Splits.length_le (h : Splits separator text parts) (hne : separator ≠ []) :
    parts.length ≤ text.length + 1 := by
  have hlength := List.length_pos_iff.mpr hne
  induction h with
  | last hnone => simp
  | cons hfirst hrest ih =>
    simp only [List.length_append, List.length_cons]
    omega

end Parts

section SplitRuns

variable {separator before part rest : List UInt8} {parts : List (List UInt8)}

theorem next_lastPart (hne : separator ≠ []) (hrest : Valid rest) (hnone : ¬separator <:+: rest) :
    SplitIter.next ⟨before ++ rest, separator, before.length, false⟩ =
      value (some rest, ⟨before ++ rest, separator, before.length, true⟩) := by
  have hlength : before.length ≤ (before ++ rest).length := by simp
  rw [SplitIter.next, if_neg Bool.false_ne_true]
  simp only [findFromBytes_none hne hnone, value_bind, minus_eq_value hlength]
  rw [List.length_append, Nat.add_sub_cancel_left, subview_rest hrest, value_bind]

theorem next_part (hseparator : Valid separator) (hne : separator ≠ [])
    (htext : Valid (part ++ (separator ++ rest)))
    (hfirst : ClearBefore separator (part ++ (separator ++ rest)) part.length) :
    SplitIter.next ⟨before ++ (part ++ (separator ++ rest)), separator, before.length, false⟩ =
      value (some part, ⟨before ++ part ++ separator ++ rest, separator,
        (before ++ part ++ separator).length, false⟩) := by
  have hrest := (htext.cut_around hseparator hne).2
  rw [SplitIter.next, if_neg Bool.false_ne_true]
  simp only [findFromBytes_some hne rfl hfirst, value_bind, minus_eq_value (Nat.le_add_right _ _)]
  rw [Nat.add_sub_cancel_left, subview_window htext (hseparator.append hrest), value_bind]
  simp only [List.append_assoc, List.length_append, Nat.add_assoc]

theorem collect_split (hparts : Splits separator rest parts) (hseparator : Valid separator)
    (hne : separator ≠ []) (hrest : Valid rest) (before : List UInt8) {fuel : ℕ} (hfuel : parts.length < fuel) :
    collect SplitIter.next fuel ⟨before ++ rest, separator, before.length, false⟩ = value parts := by
  obtain ⟨fuel, rfl⟩ := Nat.exists_eq_succ_of_ne_zero (Nat.ne_of_gt (Nat.zero_lt_of_lt hfuel))
  induction hparts generalizing before fuel with
  | last hnone =>
    cases fuel with
    | zero => exact absurd hfuel (Nat.lt_irrefl _)
    | succ fuel =>
      rw [collect, next_lastPart hne hrest hnone, value_bind]
      rfl
  | @cons part rest parts hfirst _ ih =>
    cases fuel with
    | zero => exact absurd (Nat.lt_of_succ_lt_succ hfuel) (Nat.not_lt_zero _)
    | succ fuel =>
      rw [collect, next_part hseparator hne hrest hfirst, value_bind]
      simp only
      rw [ih (hrest.cut_around hseparator hne).2 (before ++ part ++ separator) fuel
        (Nat.lt_of_succ_lt_succ hfuel)]
      rfl

end SplitRuns

section Replacing

variable {usizeMax : ℕ} {pattern replacement before rest : List UInt8} {parts : List (List UInt8)}

/-- A replacement that is not shorter does not shorten a text. -/
theorem Splits.le_replaced (h : Splits pattern rest parts) (hlonger : pattern.length ≤ replacement.length) :
    rest.length ≤ (replacement.intercalate parts).length := by
  induction h with
  | last hnone => rw [List.intercalate_singleton]
  | cons hfirst hrest ih =>
    rw [List.intercalate_cons_of_ne_nil hrest.ne_nil]
    simp only [List.length_append]
    omega

/-- The capacity grows or shrinks by the difference of a replacement and its pattern. -/
theorem adjustedCapacity_eq (usizeMax other : ℕ) (pattern replacement : List UInt8)
    (hcapacity : pattern.length + other ≤ usizeMax) :
    adjustedCapacity usizeMax pattern replacement (pattern.length + other) =
      if replacement.length + other ≤ usizeMax then value (replacement.length + other) else trapped := by
  unfold adjustedCapacity
  split
  next hlonger =>
    rw [minus_eq_value hlonger, value_bind, bounded,
      show pattern.length + other + (replacement.length - pattern.length) = replacement.length + other by omega]
  next hshorter =>
    rw [minus_eq_value (by omega), value_bind, minus_eq_value (by omega), if_pos (by omega)]
    congr 1
    omega

/-- The capacity of what is seen and of the whole rest. -/
theorem capacityLoop_eq (hparts : Splits pattern rest parts) (hne : pattern ≠ []) (before : List UInt8)
    {seen fuel : ℕ} (hcapacity : seen + rest.length ≤ usizeMax) (hfuel : parts.length ≤ fuel) :
    capacityLoop usizeMax (before ++ rest) pattern replacement fuel (seen + rest.length) before.length =
      if seen + (replacement.intercalate parts).length ≤ usizeMax
      then value (seen + (replacement.intercalate parts).length) else trapped := by
  induction hparts generalizing before seen fuel with
  | @last rest hnone =>
    cases fuel with
    | zero => exact absurd hfuel (Nat.not_succ_le_zero _)
    | succ fuel =>
      rw [capacityLoop, if_neg (by simp), findFromBytes_none hne hnone, value_bind,
        List.intercalate_singleton, if_pos hcapacity]
  | @cons part rest parts hfirst hrest ih =>
    cases fuel with
    | zero => exact absurd hfuel (Nat.not_succ_le_zero _)
    | succ fuel =>
      have hwhole : seen + (part ++ (pattern ++ rest)).length =
          pattern.length + (seen + part.length + rest.length) := by
        simp only [List.length_append]
        omega
      have hseen : replacement.length + (seen + part.length + rest.length) =
          seen + part.length + replacement.length + rest.length := by omega
      have hjoined : seen + (replacement.intercalate (part :: parts)).length =
          seen + part.length + replacement.length + (replacement.intercalate parts).length := by
        rw [List.intercalate_cons_of_ne_nil hrest.ne_nil]
        simp only [List.length_append]
        omega
      have hmove : before ++ (part ++ (pattern ++ rest)) = (before ++ part ++ pattern) ++ rest := by
        simp only [List.append_assoc]
      have hstart : before.length + part.length + pattern.length = (before ++ part ++ pattern).length := by
        simp only [List.length_append]
      rw [capacityLoop, if_neg (by simp), findFromBytes_some hne rfl hfirst, value_bind, hwhole, hjoined]
      simp only
      rw [adjustedCapacity_eq _ _ _ _ (by rw [← hwhole]; exact hcapacity), hseen]
      by_cases hfits : seen + part.length + replacement.length + rest.length ≤ usizeMax
      · rw [if_pos hfits, value_bind, hstart, hmove]
        exact ih _ hfits (Nat.le_of_succ_le_succ hfuel)
      · -- a replacement that does not fit is longer than its pattern
        have hlonger : pattern.length ≤ replacement.length := by omega
        have hreplaced := hrest.le_replaced hlonger
        rw [if_neg hfits, trapped_bind, if_neg (by omega)]

theorem copyLoop_eq (hparts : Splits pattern rest parts) (hpattern : Valid pattern) (hne : pattern ≠ [])
    (hrest : Valid rest) (before result : List UInt8) {fuel : ℕ} (hfuel : parts.length ≤ fuel) :
    copyLoop (before ++ rest) pattern replacement fuel result before.length =
      value (result ++ replacement.intercalate parts) := by
  induction hparts generalizing before result fuel with
  | @last rest hnone =>
    cases fuel with
    | zero => exact absurd hfuel (Nat.not_succ_le_zero _)
    | succ fuel =>
      have hlength : before.length ≤ (before ++ rest).length := by simp
      rw [copyLoop, if_neg (by simp), findFromBytes_none hne hnone, value_bind]
      simp only [minus_eq_value hlength, value_bind]
      rw [List.length_append, Nat.add_sub_cancel_left, subview_rest hrest, value_bind,
        List.intercalate_singleton]
  | @cons part rest parts hfirst hparts ih =>
    cases fuel with
    | zero => exact absurd hfuel (Nat.not_succ_le_zero _)
    | succ fuel =>
      have hafter := (hrest.cut_around hpattern hne).2
      have hmove : before ++ (part ++ (pattern ++ rest)) = (before ++ part ++ pattern) ++ rest := by
        simp only [List.append_assoc]
      have hstart : before.length + part.length + pattern.length = (before ++ part ++ pattern).length := by
        simp only [List.length_append]
      rw [copyLoop, if_neg (by simp), findFromBytes_some hne rfl hfirst, value_bind]
      simp only [minus_eq_value (Nat.le_add_right _ _), value_bind]
      rw [Nat.add_sub_cancel_left, subview_window hrest (hpattern.append hafter), value_bind, hmove, hstart,
        ih hafter _ _ (Nat.le_of_succ_le_succ hfuel), List.intercalate_cons_of_ne_nil hparts.ne_nil]
      simp only [List.append_assoc]

theorem replacementCapacity_eq {text : List UInt8} (hparts : Splits pattern text parts) (hne : pattern ≠ [])
    (htext : text.length ≤ usizeMax) : replacementCapacity usizeMax text pattern replacement =
      if (replacement.intercalate parts).length ≤ usizeMax
      then value (replacement.intercalate parts).length else trapped := by
  have hcapacity := @capacityLoop_eq usizeMax pattern replacement text parts hparts hne [] 0 (text.length + 2)
  rw [Nat.zero_add, Nat.zero_add] at hcapacity
  exact hcapacity htext (Nat.le_succ_of_le (hparts.length_le hne))

theorem replaceAll_eq {text : List UInt8} (hparts : Splits pattern text parts) (hpattern : Valid pattern)
    (hne : pattern ≠ []) (hvalid : Valid text) (htext : text.length ≤ usizeMax) :
    replaceAll usizeMax text pattern replacement = if (replacement.intercalate parts).length ≤ usizeMax
      then value (.ok (replacement.intercalate parts)) else trapped := by
  rw [replaceAll, if_neg (mt List.length_eq_zero_iff.mp hne), replacementCapacity_eq hparts hne htext]
  split
  · have hcopy := @copyLoop_eq pattern replacement text parts hparts hpattern hne hvalid [] [] (text.length + 2)
      (Nat.le_succ_of_le (hparts.length_le hne))
    rw [value_bind]
    rw [List.nil_append, List.length_nil] at hcopy
    rw [hcopy, value_bind, List.nil_append]
  · rfl

/-- A text with its parts replaced is a text. -/
theorem valid_intercalate {separator : List UInt8} (hseparator : Valid separator) {parts : List (List UInt8)}
    (hparts : ∀ part ∈ parts, Valid part) : Valid (separator.intercalate parts) := by
  induction parts with
  | nil => exact .nil
  | cons part parts ih =>
    obtain ⟨hpart, hrest⟩ := List.forall_mem_cons.mp hparts
    cases parts with
    | nil => rwa [List.intercalate_singleton]
    | cons next parts =>
      rw [List.intercalate_cons_cons, List.append_assoc]
      exact hpart.append (hseparator.append (ih hrest))

end Replacing

section LineRuns

variable {text before line rest : List UInt8} {lines : List (List UInt8)}

theorem withoutReturn_append (line : List UInt8) (byte : UInt8) :
    withoutReturn (line ++ [byte]) = if byte = 13 then line else line ++ [byte] := by
  rw [withoutReturn, List.getLast?_concat, List.dropLast_concat]
  by_cases hreturn : byte = 13
  · rw [if_pos (congrArg some hreturn), if_pos hreturn]
  · rw [if_neg fun h => hreturn (Option.some.inj h), if_neg hreturn]

/-- Only a carriage return is taken off. -/
theorem withoutReturn_cases (line : List UInt8) :
    withoutReturn line = line ∨ line = withoutReturn line ++ [13] := by
  rcases List.eq_nil_or_concat line with rfl | ⟨line, byte, rfl⟩
  · exact Or.inl rfl
  · rw [List.concat_eq_append, withoutReturn_append]
    split
    next hreturn => exact Or.inr (by rw [hreturn])
    next hother => exact Or.inl rfl

theorem lineEnd_eq : lineEnd (before ++ (line ++ 10 :: rest)) before.length (before.length + line.length) =
    value (before.length + (withoutReturn line).length) := by
  rcases List.eq_nil_or_concat line with rfl | ⟨line, byte, rfl⟩
  · rw [lineEnd, if_neg (by simp)]
    rfl
  · rw [List.concat_eq_append]
    have hlast : before.length + (line ++ [byte]).length - 1 = before.length + line.length := by
      rw [List.length_append, List.length_singleton]
      omega
    have hbyte : (before ++ (line ++ [byte] ++ 10 :: rest))[before.length + line.length]? = some byte := by
      simp
    rw [lineEnd, if_pos (by simp), hlast, read_eq_value hbyte, value_bind, withoutReturn_append]
    split
    · rfl
    · rw [List.length_append]

/-- The views of a line: what is kept of it, and what is not. -/
theorem subview_line (htext : Valid (line ++ 10 :: rest)) :
    subview (before ++ (line ++ 10 :: rest)) before.length (withoutReturn line).length =
      value (withoutReturn line) := by
  obtain ⟨hline, hrest⟩ := htext.split (by decide)
  have hfeed : Valid (10 :: rest) := Valid.append (.single (by decide)) hrest
  obtain hkept | hreturn := withoutReturn_cases line
  · rw [hkept]
    exact subview_window htext hfeed
  · generalize withoutReturn line = kept at hreturn
    subst hreturn
    have hafter : Valid ([13] ++ 10 :: rest) := Valid.append (.single (by decide)) hfeed
    rw [List.append_assoc] at htext ⊢
    exact subview_window htext hafter

theorem next_lastLine (hrest : Valid rest) (hnone : 10 ∉ rest) :
    LinesIter.next ⟨before ++ rest, before.length, false⟩ =
      value (some rest, ⟨before ++ rest, before.length, true⟩) := by
  have hlength : before.length ≤ (before ++ rest).length := by simp
  rw [LinesIter.next, if_neg Bool.false_ne_true]
  simp only [findByte_none hnone, value_bind, minus_eq_value hlength]
  rw [List.length_append, Nat.add_sub_cancel_left, subview_rest hrest, value_bind]

theorem next_line (htext : Valid (line ++ 10 :: rest)) (hline : 10 ∉ line) :
    LinesIter.next ⟨before ++ (line ++ 10 :: rest), before.length, false⟩ =
      value (some (withoutReturn line),
        ⟨before ++ line ++ [10] ++ rest, (before ++ line ++ [10]).length, decide (rest.length = 0)⟩) := by
  have hmove : before ++ (line ++ 10 :: rest) = before ++ line ++ [10] ++ rest := by simp
  have hstart : before.length + line.length + 1 = (before ++ line ++ [10]).length := by
    rw [List.length_append, List.length_append, List.length_singleton]
  have hend : (before ++ line ++ [10]).length = (before ++ line ++ [10] ++ rest).length ↔ rest.length = 0 := by
    simp only [List.length_append]
    omega
  rw [LinesIter.next, if_neg Bool.false_ne_true]
  simp only [findByte_some hline, lineEnd_eq, value_bind, minus_eq_value (Nat.le_add_right _ _)]
  rw [Nat.add_sub_cancel_left, subview_line htext, value_bind, hmove, hstart]
  by_cases hrest : rest.length = 0
  · rw [if_pos (hend.mpr hrest), decide_eq_true hrest]
  · rw [if_neg (mt hend.mp hrest), decide_eq_false hrest]

theorem collect_lines (hlines : Lines rest lines) (hrest : Valid rest) (before : List UInt8) {fuel : ℕ}
    (hfuel : lines.length < fuel) :
    collect LinesIter.next fuel ⟨before ++ rest, before.length, decide (rest.length = 0)⟩ = value lines := by
  induction hlines generalizing before fuel with
  | nil =>
    cases fuel with
    | zero => exact absurd hfuel (Nat.not_lt_zero _)
    | succ fuel => rfl
  | @last rest hne hnone =>
    rw [decide_eq_false (mt List.length_eq_zero_iff.mp hne)]
    cases fuel with
    | zero => exact absurd hfuel (Nat.not_lt_zero _)
    | succ fuel =>
      cases fuel with
      | zero => exact absurd hfuel (Nat.lt_irrefl _)
      | succ fuel =>
        rw [collect, next_lastLine hrest hnone, value_bind]
        rfl
  | @cons line rest lines hline _ ih =>
    cases fuel with
    | zero => exact absurd hfuel (Nat.not_lt_zero _)
    | succ fuel =>
      rw [decide_eq_false (by simp), collect, next_line hrest hline, value_bind]
      simp only
      rw [ih (hrest.split (by decide)).2 (before ++ line ++ [10]) (Nat.lt_of_succ_lt_succ hfuel)]
      rfl

/-- Every text has its lines. -/
theorem exists_lines (text : List UInt8) : ∃ lines, Lines text lines := by
  induction hsize : text.length using Nat.strong_induction_on generalizing text with
  | _ size ih =>
    obtain hnone | ⟨line, rest, rfl, hline⟩ := separator_cases 10 text
    · by_cases hempty : text = []
      · rw [hempty]
        exact ⟨_, .nil⟩
      · exact ⟨_, .last hempty hnone⟩
    · rw [List.length_append, List.length_cons] at hsize
      obtain ⟨lines, hlines⟩ := ih rest.length (by omega) rest rfl
      exact ⟨_, .cons hline hlines⟩

theorem Lines.length_le (h : Lines text lines) : lines.length ≤ text.length := by
  induction h with
  | nil => exact Nat.le_refl _
  | last hne hnone => exact List.length_pos_iff.mpr hne
  | cons hline hrest ih =>
    simp only [List.length_append, List.length_cons]
    omega

theorem Lines.valid (h : Lines text lines) (htext : Valid text) : ∀ line ∈ lines, Valid line := by
  induction h with
  | nil => simp
  | last hne hnone => simpa using htext
  | @cons line rest lines hline _ ih =>
    obtain ⟨hvalid, hrest⟩ := htext.split (by decide)
    rw [List.forall_mem_cons]
    refine ⟨?_, ih hrest⟩
    obtain hkept | hreturn := withoutReturn_cases line
    · rwa [hkept]
    · rw [hreturn] at hvalid
      exact (Valid.split (by decide) hvalid).1

end LineRuns

/-- Splitting, replacing, reading lines and stripping affixes: every view is on whole scalar values,
for a view that is not traps. -/
theorem text_views {usizeMax : ℕ} {text separator : List UInt8} (htext : Valid text)
    (hlength : text.length ≤ usizeMax) (hseparator : Valid separator) (hne : separator ≠ []) :
    (∃ parts, Splits separator text parts ∧ separator.intercalate parts = text ∧
      (∀ part ∈ parts, Valid part ∧ ¬separator <:+: part) ∧
      (∃ iter, SplitIter.new text separator = .ok iter ∧
        ∀ fuel, text.length + 2 ≤ fuel → collect SplitIter.next fuel iter = value parts) ∧
      ∀ replacement, Valid replacement →
        Valid (replacement.intercalate parts) ∧
        replacementCapacity usizeMax text separator replacement =
          (if (replacement.intercalate parts).length ≤ usizeMax
            then value (replacement.intercalate parts).length else trapped) ∧
        replaceAll usizeMax text separator replacement =
          if (replacement.intercalate parts).length ≤ usizeMax
            then value (.ok (replacement.intercalate parts)) else trapped) ∧
    (∃ lines, Lines text lines ∧ (∀ line ∈ lines, Valid line) ∧
      ∀ fuel, text.length + 2 ≤ fuel → collect LinesIter.next fuel (LinesIter.new text) = value lines) ∧
    stripPrefix text separator =
      value (if separator <+: text then some (text.drop separator.length) else none) ∧
    stripSuffix text separator =
      value (if separator <:+ text then some (text.take (text.length - separator.length)) else none) := by
  obtain ⟨parts, hparts⟩ := exists_splits hne text
  obtain ⟨lines, hlines⟩ := exists_lines text
  have hvalid := hparts.valid hseparator hne htext
  refine ⟨⟨parts, hparts, hparts.intercalate_eq, ?_, ?_, ?_⟩, ⟨lines, hlines, hlines.valid htext, ?_⟩,
    stripPrefix_eq htext hseparator, stripSuffix_eq htext hseparator⟩
  · exact fun part hpart => ⟨hvalid part hpart, hparts.not_infix hne part hpart⟩
  · refine ⟨⟨text, separator, 0, false⟩, if_neg (mt List.length_eq_zero_iff.mp hne), ?_⟩
    intro fuel hfuel
    exact collect_split hparts hseparator hne htext [] (Nat.lt_of_lt_of_le
      (Nat.lt_succ_of_le (hparts.length_le hne)) hfuel)
  · intro replacement hreplacement
    exact ⟨valid_intercalate hreplacement hvalid, replacementCapacity_eq hparts hne hlength,
      replaceAll_eq hparts hseparator hne htext hlength⟩
  · intro fuel hfuel
    exact collect_lines hlines htext [] (Nat.lt_of_lt_of_le
      (Nat.lt_succ_of_le (Nat.le_succ_of_le hlines.length_le)) hfuel)

/-- `"a,b"` at its comma. -/
theorem comma_text_views : ∃ parts, Splits [44] [97, 44, 98] parts ∧
    [44].intercalate parts = ([97, 44, 98] : List UInt8) ∧
    ∀ fuel, 5 ≤ fuel → collect SplitIter.next fuel ⟨[97, 44, 98], [44], 0, false⟩ = value parts := by
  have htext : Valid [97, 44, 98] := Valid.ascii (by simp)
  have hcomma : Valid [44] := Valid.ascii (by simp)
  obtain ⟨⟨parts, hparts, hjoin, -, ⟨iter, hiter, hcollect⟩, -⟩, -⟩ :=
    @text_views 18446744073709551615 _ _ htext (by decide) hcomma (by decide)
  cases hiter
  exact ⟨parts, hparts, hjoin, hcollect⟩

end Nocter.Text
