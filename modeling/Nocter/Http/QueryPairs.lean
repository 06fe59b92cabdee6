import Nocter.Http.Target
import Nocter.Text.Search

/-!
# Decoded query pairs

The parser of a target walks over the query by offsets and checks every component; the iterator
walks over it again, with a cursor of its own, and decodes. It aborts where the parser would have
refused. Both split the query into the same items and the items at the same separators.
-/

namespace Nocter.Http

open Text

section Cursor

structure TextCursor where
  input : Bytes
  nextOffset : ℕ
deriving DecidableEq

structure TextWindow where
  start : ℕ
  stop : ℕ

def emptySeparator : HttpError :=
  ⟨"std.scan.empty_separator", "text cursor separator must not be empty"⟩

namespace TextCursor

def new (input : Bytes) : TextCursor := ⟨input, 0⟩

def byteAt (cursor : TextCursor) (index : ℕ) : Option UInt8 := cursor.input[index]?

def takeUntil (cursor : TextCursor) (separator : Bytes) :
    Except HttpError (TextWindow × TextCursor) :=
  if separator = [] then .error emptySeparator
  else
    match findFrom cursor.input separator cursor.nextOffset with
    | none =>
      .ok (⟨cursor.nextOffset, cursor.input.length⟩, ⟨cursor.input, cursor.input.length⟩)
    | some separatorStart =>
      .ok (⟨cursor.nextOffset, separatorStart⟩, ⟨cursor.input, separatorStart + separator.length⟩)

end TextCursor

end Cursor

section Components

/-- `decoded_text_byte`: a byte and the offset behind it. -/
def decodedTextByteAt (cursor : TextCursor) (offset stop : ℕ) : Option (UInt8 × ℕ) :=
  if stop ≤ offset then none
  else do
    let source ← cursor.byteAt offset
    if source ≠ 37 then return (source, offset + 1)
    if stop - offset < 3 then none
    else do
      let high ← cursor.byteAt (offset + 1)
      let low ← cursor.byteAt (offset + 2)
      return (← decodedValue high low, offset + 3)

/-- A loop over so many bytes from an offset on for the first of a kind. -/
def scanFrom {ρ : Type} (cursor : TextCursor) (wanted : UInt8) (found : ℕ → ρ) (missing : ρ) :
    ℕ → ℕ → Except HttpError ρ
  | 0, _ => .ok missing
  | count + 1, offset =>
    match cursor.byteAt offset with
    | none => .error invalidTarget
    | some byte =>
      if byte = wanted then .ok (found offset)
      else scanFrom cursor wanted found missing count (offset + 1)

def queryItemSeparator (cursor : TextCursor) (start stop : ℕ) : Except HttpError ℕ :=
  scanFrom cursor 61 (fun offset => offset - start) (stop - start) (stop - start) start

def queryComponentIsEncoded (cursor : TextCursor) (start stop : ℕ) : Except HttpError Bool :=
  scanFrom cursor 37 (fun _ => true) false (stop - start) start

theorem decodedTextByteAt_increases {cursor : TextCursor} {offset stop next : ℕ} {byte : UInt8}
    (h : decodedTextByteAt cursor offset stop = some (byte, next)) :
    offset < stop ∧ offset < next := by
  unfold decodedTextByteAt at h
  split at h
  · cases h
  next hoffset =>
    refine ⟨Nat.not_le.mp hoffset, ?_⟩
    obtain ⟨source, -, h⟩ := Option.bind_eq_some_iff.mp h
    split at h
    · cases h
      exact Nat.lt_succ_self _
    split at h
    · cases h
    · obtain ⟨high, -, h⟩ := Option.bind_eq_some_iff.mp h
      obtain ⟨low, -, h⟩ := Option.bind_eq_some_iff.mp h
      obtain ⟨value, -, h⟩ := Option.bind_eq_some_iff.mp h
      cases h
      omega

/-- The second loop of `validate_decoded_query_component`. -/
def validateBytesAt (cursor : TextCursor) (stop : ℕ) (validator : StreamingValidator) (offset : ℕ) :
    Except HttpError Unit :=
  if offset < stop then
    match _h : decodedTextByteAt cursor offset stop with
    | none => .error invalidTarget
    | some (byte, next) =>
      let (pushed, validator) := validator.push byte
      if pushed = false then .error invalidTargetEncoding
      else validateBytesAt cursor stop validator next
  else if validator.isComplete then .ok () else .error invalidTargetEncoding
termination_by stop - offset
decreasing_by
  have := decodedTextByteAt_increases _h
  omega

def validateComponentAt (cursor : TextCursor) (start stop : ℕ) : Except HttpError Unit :=
  match queryComponentIsEncoded cursor start stop with
  | .error error => .error error
  | .ok encoded =>
    if encoded = false then .ok ()
    else validateBytesAt cursor stop StreamingValidator.new start

end Components

section Items

/-- The inner loop of `validate_decoded_query`. -/
def queryItemEnd (cursor : TextCursor) (itemStart : ℕ) : Except HttpError ℕ :=
  scanFrom cursor 38 id cursor.input.length (cursor.input.length - itemStart) itemStart

/-- One pass of the outer loop of `validate_decoded_query`: where the next item starts. -/
def validateItem (cursor : TextCursor) (itemStart : ℕ) : Except HttpError (Option ℕ) := do
  let itemEnd ← queryItemEnd cursor itemStart
  let separator ← queryItemSeparator cursor itemStart itemEnd
  let nameEnd := itemStart + separator
  let valueStart := if nameEnd < itemEnd then nameEnd + 1 else nameEnd
  validateComponentAt cursor itemStart nameEnd
  validateComponentAt cursor valueStart itemEnd
  return if itemEnd = cursor.input.length then none else some (itemEnd + 1)

def validateItemStep (cursor : TextCursor) (itemStart : ℕ) : ℕ ⊕ Except HttpError Unit :=
  match validateItem cursor itemStart with
  | .error error => .inr (.error error)
  | .ok none => .inr (.ok ())
  | .ok (some next) => .inl next

/-- The query has at most one item more than it has bytes; without a result the loop goes on. -/
def validateItemsAt (cursor : TextCursor) (itemStart : ℕ) : Option (Except HttpError Unit) :=
  Loop.within (validateItemStep cursor) (cursor.input.length + 1 - itemStart) itemStart

def validateQueryAt (text : Bytes) : Option (Except HttpError Unit) :=
  let queryStart := requestTargetQueryStart text
  if queryStart ≥ text.length then some (.ok ())
  else validateItemsAt (.new text) queryStart

/-- `RequestTarget.parse` with the traversal of the query by offsets. -/
def RequestTarget.parseText (text : Bytes) : Option (Except HttpError RequestTarget) :=
  if validRequestTarget text = false then some (.error invalidTarget)
  else (validateQueryAt text).map fun checked => checked.map fun _ => requestTargetFromValidated text

end Items

section Iterator

structure QueryParameter where
  name : Bytes
  value : Bytes
deriving DecidableEq

structure QueryIter where
  cursor : TextCursor
  nameScratch : Bytes
  valueScratch : Bytes
  finished : Bool
deriving DecidableEq

def RequestTarget.query (target : RequestTarget) : Option Bytes :=
  if target.queryStart > target.text.length then none
  else charRange target.text target.queryStart target.text.length

def RequestTarget.queryPairs (target : RequestTarget) : QueryIter :=
  match target.query with
  | none => ⟨.new [], [], [], true⟩
  | some query => ⟨.new query, [], [], query.length = 0⟩

/-- A loop of `QueryIter.next` that decodes a component behind what the scratch holds. -/
def decodeAt (cursor : TextCursor) (stop : ℕ) (scratch : Bytes) (offset : ℕ) : Option Bytes :=
  if offset < stop then
    match _h : decodedTextByteAt cursor offset stop with
    | none => none
    | some (byte, next) => decodeAt cursor stop (scratch ++ [byte]) next
  else some scratch
termination_by stop - offset
decreasing_by
  have := decodedTextByteAt_increases _h
  omega

def fromUtf8 (bytes : Bytes) : Option Bytes := if isValidUtf8 bytes then some bytes else none

/-- The scratch of a component behind the part of `next` that fills it. -/
def scratchComponent (encoded : Bool) (cursor : TextCursor) (start stop : ℕ) (scratch : Bytes) :
    Option Bytes :=
  if encoded then decodeAt cursor stop [] start else some scratch

/-- A component as `next` hands it out. -/
def decodedComponent (encoded : Bool) (cursor : TextCursor) (start stop : ℕ) (scratch : Bytes) :
    Option Bytes :=
  if encoded then fromUtf8 scratch else charRange cursor.input start stop

/-- The answer and the iterator behind it; `none` stands for the abort of a broken invariant. -/
def QueryIter.next (iter : QueryIter) : Option (Option QueryParameter × QueryIter) :=
  if iter.finished then some (none, iter)
  else do
    let itemStart := iter.cursor.nextOffset
    let (window, cursor) ← (iter.cursor.takeUntil [38]).toOption
    let itemEnd := itemStart + (window.stop - window.start)
    let separator ← (queryItemSeparator cursor itemStart itemEnd).toOption
    let nameEnd := itemStart + separator
    let valueStart := if nameEnd < itemEnd then nameEnd + 1 else nameEnd
    let nameEncoded ← (queryComponentIsEncoded cursor itemStart nameEnd).toOption
    let valueEncoded ← (queryComponentIsEncoded cursor valueStart itemEnd).toOption
    let nameScratch ← scratchComponent nameEncoded cursor itemStart nameEnd iter.nameScratch
    let valueScratch ← scratchComponent valueEncoded cursor valueStart itemEnd iter.valueScratch
    let name ← decodedComponent nameEncoded cursor itemStart nameEnd nameScratch
    let value ← decodedComponent valueEncoded cursor valueStart itemEnd valueScratch
    return (some ⟨name, value⟩, ⟨cursor, nameScratch, valueScratch, cursor.nextOffset = itemEnd⟩)

/-- The iterator answers with these parameters and then with none. -/
inductive QueryIter.Yields : QueryIter → List QueryParameter → Prop
  | finished {iter last : QueryIter} (hnext : iter.next = some (none, last)) : Yields iter []
  | pair {iter rest : QueryIter} {parameter : QueryParameter} {parameters : List QueryParameter}
      (hnext : iter.next = some (some parameter, rest)) (hrest : Yields rest parameters) :
      Yields iter (parameter :: parameters)

end Iterator

/-! ### Windows of a text -/

section Windows

variable {cursor : TextCursor} {before window after : Bytes}

theorem byteAt_window {byte : UInt8} {rest : Bytes} {index : ℕ}
    (hinput : cursor.input = before ++ byte :: rest) (hindex : index = before.length) :
    cursor.byteAt index = some byte := by
  rw [TextCursor.byteAt, hinput, hindex, List.getElem?_append_right le_rfl, Nat.sub_self]
  rfl

theorem scanFrom_window {ρ : Type} {wanted : UInt8} {found : ℕ → ρ} {missing : ρ}
    (hinput : cursor.input = before ++ window ++ after) :
    scanFrom cursor wanted found missing window.length before.length =
      .ok (if wanted ∈ window then found (before.length + (window.takeWhile (· ≠ wanted)).length)
        else missing) := by
  induction window generalizing before with
  | nil => rfl
  | cons byte window ih =>
    have hbyte : cursor.byteAt before.length = some byte :=
      byteAt_window (hinput.trans (List.append_assoc _ _ _)) rfl
    rw [List.length_cons, scanFrom, hbyte]
    dsimp only
    by_cases hwanted : byte = wanted
    · rw [if_pos hwanted, if_pos (by rw [hwanted]; exact List.mem_cons_self),
        List.takeWhile_cons_of_neg (by simpa using hwanted)]
      rfl
    · have hrest := @ih (before ++ [byte]) (by rw [hinput, List.append_assoc, List.append_assoc,
        List.append_assoc, List.cons_append, List.singleton_append])
      rw [List.length_append, List.length_singleton] at hrest
      have hmem : wanted ∈ byte :: window ↔ wanted ∈ window := by
        rw [List.mem_cons]
        exact or_iff_right (Ne.symm hwanted)
      rw [if_neg hwanted, hrest, List.takeWhile_cons_of_pos (by simpa using hwanted),
        List.length_cons, Nat.add_assoc, Nat.add_comm 1]
      simp only [hmem]

theorem takeWhile_eq_self {wanted : UInt8} (h : wanted ∉ window) :
    window.takeWhile (· ≠ wanted) = window := by
  refine List.takeWhile_eq_self_iff.mpr fun byte hbyte => ?_
  rw [decide_eq_true_iff]
  rintro rfl
  exact h hbyte

theorem queryItemSeparator_window (hinput : cursor.input = before ++ window ++ after) {stop : ℕ}
    (hstop : stop = before.length + window.length) :
    queryItemSeparator cursor before.length stop = .ok (window.takeWhile (· ≠ 61)).length := by
  rw [queryItemSeparator, hstop, Nat.add_sub_cancel_left, scanFrom_window hinput]
  split
  · rw [Nat.add_sub_cancel_left]
  · next h => rw [takeWhile_eq_self h]

theorem queryComponentIsEncoded_window (hinput : cursor.input = before ++ window ++ after)
    {stop : ℕ} (hstop : stop = before.length + window.length) :
    queryComponentIsEncoded cursor before.length stop = .ok (decide (37 ∈ window)) := by
  rw [queryComponentIsEncoded, hstop, Nat.add_sub_cancel_left, scanFrom_window hinput]
  split
  · next h => rw [decide_eq_true h]
  · next h => rw [decide_eq_false h]

theorem queryItemEnd_window (hinput : cursor.input = before ++ window) :
    queryItemEnd cursor before.length =
      .ok (before.length + (window.takeWhile (· ≠ 38)).length) := by
  have hinput' : cursor.input = before ++ window ++ [] := by rw [hinput, List.append_nil]
  have hlength : cursor.input.length = before.length + window.length := by
    rw [hinput, List.length_append]
  rw [queryItemEnd, hlength, Nat.add_sub_cancel_left, scanFrom_window hinput']
  split
  · rfl
  · next h => rw [takeWhile_eq_self h]

/-- Decoding at an offset is decoding at the front of the rest of the window. -/
theorem decodedTextByteAt_window (hinput : cursor.input = before ++ window ++ after) {stop : ℕ}
    (hstop : stop = before.length + window.length) :
    decodedTextByteAt cursor before.length stop = (decodedTextByte window).map fun decoded =>
      (decoded.1, before.length + (window.length - decoded.2.length)) := by
  subst hstop
  cases window with
  | nil =>
    exact if_pos (Nat.le_refl _)
  | cons source rest =>
    have hsource : cursor.byteAt before.length = some source :=
      byteAt_window (hinput.trans (List.append_assoc _ _ _)) rfl
    rw [decodedTextByteAt, if_neg (by rw [List.length_cons]; omega), hsource,
      Option.bind_eq_bind, Option.bind_some, Nat.add_sub_cancel_left]
    by_cases hpercent : source = 37
    · subst hpercent
      rw [if_neg (fun h => h rfl)]
      match rest with
      | [] => rfl
      | [high] => rfl
      | high :: low :: rest =>
        have hhigh : cursor.byteAt (before.length + 1) = some high := by
          refine @byteAt_window cursor (before ++ [37]) high (low :: rest ++ after) _ ?_ ?_
          · rw [hinput, List.append_assoc, List.append_assoc]
            rfl
          · rw [List.length_append, List.length_singleton]
        have hlow : cursor.byteAt (before.length + 2) = some low := by
          refine @byteAt_window cursor (before ++ [37, high]) low (rest ++ after) _ ?_ ?_
          · rw [hinput, List.append_assoc, List.append_assoc]
            rfl
          · rw [List.length_append]
            rfl
        have hthree : (37 :: high :: low :: rest).length - rest.length = 3 := by
          simp only [List.length_cons]
          omega
        have htriplet : decodedTextByte (37 :: high :: low :: rest) =
            (decodedValue high low).map fun value => (value, rest) := rfl
        rw [if_neg (by simp only [List.length_cons]; omega), hhigh, hlow, htriplet,
          Option.bind_some, Option.bind_some]
        cases decodedValue high low with
        | none => rfl
        | some value =>
          rw [Option.map_some, Option.map_some, hthree]
          rfl
    · have hcopied : decodedTextByte (source :: rest) = some (source, rest) := if_pos hpercent
      have hone : (source :: rest).length - rest.length = 1 := by
        rw [List.length_cons]
        omega
      rw [if_pos hpercent, hcopied, Option.map_some, hone]
      rfl

/-- What is left of a window behind a decoded byte. -/
theorem exists_consumed {byte : UInt8} {rest : Bytes}
    (h : decodedTextByte window = some (byte, rest)) : ∃ consumed, window = consumed ++ rest := by
  cases window with
  | nil => cases h
  | cons source tail =>
    by_cases hpercent : source = 37
    · subst hpercent
      match tail with
      | [] => cases h
      | [high] => cases h
      | high :: low :: tail =>
        obtain ⟨value, -, hvalue⟩ := Option.map_eq_some_iff.mp h
        cases hvalue
        exact ⟨[37, high, low], rfl⟩
    · have hcopied : decodedTextByte (source :: tail) = some (source, tail) := if_pos hpercent
      cases hcopied.symm.trans h
      exact ⟨[_], rfl⟩

theorem validateBytesAt_window (hinput : cursor.input = before ++ window ++ after) {stop : ℕ}
    (hstop : stop = before.length + window.length) (validator : StreamingValidator) :
    validateBytesAt cursor stop validator before.length = validateDecodedBytes validator window := by
  induction hn : window.length using Nat.strongRecOn generalizing before window validator with
  | ind n ih =>
    rw [validateBytesAt, validateDecodedBytes]
    by_cases hempty : window = []
    · rw [if_pos hempty, if_neg (by rw [hstop, hempty, List.length_nil]; omega)]
    · have hpos := List.length_pos_iff.mpr hempty
      rw [if_neg hempty, if_pos (by omega)]
      have hdecoded := decodedTextByteAt_window hinput hstop
      cases hbyte : decodedTextByte window with
      | none =>
        rw [hbyte, Option.map_none] at hdecoded
        split
        · rfl
        · next h => cases hdecoded.symm.trans h
      | some decoded =>
        obtain ⟨byte, rest⟩ := decoded
        rw [hbyte, Option.map_some] at hdecoded
        obtain ⟨consumed, rfl⟩ := exists_consumed hbyte
        have hless := decodedTextByte_decreases hbyte
        rw [List.length_append] at hless hdecoded hstop
        rw [Nat.add_sub_cancel] at hdecoded
        split
        · next h => cases hdecoded.symm.trans h
        next _ _ h =>
          cases hdecoded.symm.trans h
          dsimp only
          split
          · rfl
          · have hrest := @ih rest.length (by rw [← hn, List.length_append]; omega)
              (before ++ consumed) rest
              (by rw [hinput]; simp only [List.append_assoc])
              (by rw [List.length_append]; omega) (validator.push byte).2 rfl
            rw [List.length_append] at hrest
            exact hrest

theorem validateComponentAt_window (hinput : cursor.input = before ++ window ++ after) {stop : ℕ}
    (hstop : stop = before.length + window.length) :
    validateComponentAt cursor before.length stop = validateDecodedQueryComponent window := by
  rw [validateComponentAt, queryComponentIsEncoded_window hinput hstop,
    validateDecodedQueryComponent, validateBytesAt_window hinput hstop]
  have hcontains : window.contains 37 = decide (37 ∈ window) := List.contains_eq_mem 37 window
  rw [hcontains]

end Windows

/-! ### Items of a query -/

section QueryItems

/-- The name of an item: what stands in front of its first separator. -/
def nameText (item : Bytes) : Bytes := item.takeWhile (· ≠ 61)

/-- The value of an item: what stands behind its first separator, or nothing. -/
def valueText (item : Bytes) : Bytes := (item.dropWhile (· ≠ 61)).drop 1

/-- The offsets of an item's components are those of its name and of its value. -/
theorem item_windows {before item after : Bytes} {nameEnd valueStart stop : ℕ}
    (hstop : stop = before.length + item.length)
    (hname : nameEnd = before.length + (nameText item).length)
    (hvalue : valueStart = if nameEnd < stop then nameEnd + 1 else nameEnd) :
    (∃ rest, before ++ item ++ after = before ++ nameText item ++ rest) ∧
      ∃ front, before ++ item ++ after = front ++ valueText item ++ after ∧
        front.length = valueStart ∧ stop = front.length + (valueText item).length := by
  have hsplit : item = nameText item ++ item.dropWhile (· ≠ 61) :=
    (List.takeWhile_append_dropWhile ..).symm
  have hlength := congrArg List.length hsplit
  rw [List.length_append] at hlength
  refine ⟨⟨item.dropWhile (· ≠ 61) ++ after, ?_⟩, ?_⟩
  · rw [List.append_assoc, List.append_assoc, ← List.append_assoc (nameText item), ← hsplit]
  · unfold valueText
    cases hrest : item.dropWhile (· ≠ 61) with
    | nil =>
      rw [hrest, List.length_nil] at hlength
      refine ⟨before ++ item, by rw [List.drop_nil, List.append_nil], ?_, ?_⟩
      · rw [List.length_append, hvalue, if_neg (by omega)]
        omega
      · rw [List.length_append, List.drop_nil, List.length_nil, Nat.add_zero, hstop]
    | cons separator value =>
      rw [hrest, List.length_cons] at hlength
      refine ⟨before ++ nameText item ++ [separator], ?_, ?_, ?_⟩
      · calc before ++ item ++ after
            = before ++ (nameText item ++ separator :: value) ++ after := by rw [← hrest, ← hsplit]
          _ = before ++ nameText item ++ [separator] ++ value ++ after := by
            simp only [List.append_assoc, List.cons_append, List.nil_append]
      · rw [List.length_append, List.length_append, List.length_singleton, hvalue,
          if_pos (by omega), hname]
      · rw [List.length_append, List.length_append, List.length_singleton, List.drop_succ_cons,
          List.drop_zero]
        omega

/-- The first item of a query, and what follows its separator. -/
theorem exists_first_item (query : Bytes) :
    (38 ∉ query ∧ query.splitOn 38 = [query] ∧ query.takeWhile (· ≠ 38) = query) ∨
    ∃ item rest, query = item ++ 38 :: rest ∧ 38 ∉ item ∧
      query.splitOn 38 = item :: rest.splitOn 38 ∧ query.takeWhile (· ≠ 38) = item := by
  by_cases hmem : 38 ∈ query
  · obtain ⟨item, rest, rfl, hitem⟩ := List.eq_append_cons_of_mem hmem
    refine Or.inr ⟨item, rest, rfl, hitem,
      List.splitOn_append_cons_self_of_not_mem hitem rest, ?_⟩
    rw [List.takeWhile_append_of_pos, List.takeWhile_cons_of_neg (by simp), List.append_nil]
    intro byte hbyte
    rw [decide_eq_true_iff]
    rintro rfl
    exact hitem hbyte
  · exact Or.inl ⟨hmem, List.splitOn_eq_singleton hmem, takeWhile_eq_self hmem⟩

/-- What the validation asks of an item. -/
def validateItemTexts (item : Bytes) : Except HttpError Unit := do
  validateDecodedQueryComponent (nameText item)
  validateDecodedQueryComponent (valueText item)

theorem validateItem_window {cursor : TextCursor} {before item after : Bytes}
    (hinput : cursor.input = before ++ item ++ after)
    (hend : queryItemEnd cursor before.length = .ok (before.length + item.length)) :
    validateItem cursor before.length = (validateItemTexts item).map fun _ =>
      if before.length + item.length = cursor.input.length then none
      else some (before.length + item.length + 1) := by
  have hseparator : queryItemSeparator cursor before.length (before.length + item.length) =
      .ok (nameText item).length := queryItemSeparator_window hinput rfl
  obtain ⟨⟨rest, hname⟩, front, hvalue, hfront, hstop⟩ := @item_windows before item after
    (before.length + (nameText item).length) _ _ rfl rfl rfl
  have hnameAt := validateComponentAt_window (hinput.trans hname) rfl
  have hvalueAt := validateComponentAt_window (hinput.trans hvalue) hstop
  rw [hfront] at hvalueAt
  have hitem : validateItem cursor before.length = do
      validateDecodedQueryComponent (nameText item)
      validateDecodedQueryComponent (valueText item)
      return if before.length + item.length = cursor.input.length then none
        else some (before.length + item.length + 1) := by
    rw [← hnameAt, ← hvalueAt, validateItem, hend]
    change (queryItemSeparator cursor before.length (before.length + item.length)).bind _ = _
    rw [hseparator]
    rfl
  rw [hitem, validateItemTexts]
  cases validateDecodedQueryComponent (nameText item) with
  | error error => rfl
  | ok _ => cases validateDecodedQueryComponent (valueText item) <;> rfl

theorem validateDecodedItems_cons (item : Bytes) (items : List Bytes) :
    validateDecodedItems (item :: items) =
      (validateItemTexts item).bind fun _ => validateDecodedItems items := by
  rw [validateDecodedItems, validateItemTexts]
  change _ = Except.bind (Except.bind (validateDecodedQueryComponent (nameText item)) fun _ =>
    validateDecodedQueryComponent (valueText item)) _
  unfold nameText valueText
  cases validateDecodedQueryComponent (item.takeWhile (· ≠ 61)) with
  | error error => rfl
  | ok _ => cases validateDecodedQueryComponent ((item.dropWhile (· ≠ 61)).drop 1) <;> rfl

/-- The traversal by offsets validates the items that splitting the query gives. -/
theorem within_validateItemStep {cursor : TextCursor} {before query : Bytes} {passes : ℕ}
    (hinput : cursor.input = before ++ query) (hpasses : query.length < passes) :
    Loop.within (validateItemStep cursor) passes before.length =
      some (validateDecodedItems (query.splitOn 38)) := by
  induction passes generalizing before query with
  | zero => exact absurd hpasses (Nat.not_lt_zero _)
  | succ passes ih =>
    have hend := queryItemEnd_window hinput
    have hlength := congrArg List.length hinput
    rw [List.length_append] at hlength
    rw [Loop.within, validateItemStep]
    rcases exists_first_item query with ⟨-, hsplit, htake⟩ | ⟨item, rest, rfl, -, hsplit, htake⟩
    · rw [htake] at hend
      rw [validateItem_window (by rw [hinput, List.append_nil]) hend, if_pos hlength.symm, hsplit,
        validateDecodedItems_cons]
      cases validateItemTexts query <;> rfl
    · rw [htake] at hend
      rw [List.length_append, List.length_cons] at hpasses hlength
      have hrest := @ih (before ++ item ++ [38]) rest (by rw [hinput]; simp) (by omega)
      rw [List.length_append, List.length_append, List.length_singleton] at hrest
      rw [validateItem_window (by rw [hinput, List.append_assoc]) hend, if_neg (by omega), hsplit,
        validateDecodedItems_cons]
      cases validateItemTexts item with
      | error error => rfl
      | ok _ => exact hrest

theorem validateQueryAt_eq (text : Bytes) : validateQueryAt text = some (validateDecodedQuery text) := by
  rw [validateQueryAt, validateDecodedQuery]
  by_cases hstart : requestTargetQueryStart text ≥ text.length
  · rw [if_pos hstart, if_pos hstart]
  · rw [if_neg hstart, if_neg hstart, validateItemsAt]
    have hlength : (text.take (requestTargetQueryStart text)).length = requestTargetQueryStart text :=
      List.length_take_of_le (Nat.le_of_not_le hstart)
    have h := @within_validateItemStep (.new text) (text.take (requestTargetQueryStart text))
      (text.drop (requestTargetQueryStart text)) (text.length + 1 - requestTargetQueryStart text)
      (List.take_append_drop _ _).symm (by rw [List.length_drop]; omega)
    rwa [hlength] at h

/-- Both traversals of the query accept the same targets. -/
theorem parseText_eq (text : Bytes) :
    RequestTarget.parseText text = some (RequestTarget.parse text) := by
  rw [RequestTarget.parseText, RequestTarget.parse, validateQueryAt_eq]
  split
  · rfl
  · cases validateDecodedQuery text <;> rfl

end QueryItems

/-! ### What validation guarantees -/

section Decoding

/-- Percent-decoding: a triplet stands for its byte and every other byte for itself. -/
inductive Decodes : Bytes → Bytes → Prop
  | nil : Decodes [] []
  | plain {byte : UInt8} {rest decoded : Bytes} (hbyte : byte ≠ 37) (hrest : Decodes rest decoded) :
      Decodes (byte :: rest) (byte :: decoded)
  | triplet {high low : UInt8} {highValue lowValue : ℕ} {rest decoded : Bytes}
      (hhigh : hexDigit high = some highValue) (hlow : hexDigit low = some lowValue)
      (hrest : Decodes rest decoded) :
      Decodes (37 :: high :: low :: rest) (UInt8.ofNat (highValue * 16 + lowValue) :: decoded)

theorem decodedValue_eq_some {high low value : UInt8} (h : decodedValue high low = some value) :
    ∃ highValue lowValue, hexDigit high = some highValue ∧ hexDigit low = some lowValue ∧
      value = UInt8.ofNat (highValue * 16 + lowValue) := by
  unfold decodedValue at h
  split at h
  · cases h
  next highValue hhigh =>
    split at h
    · cases h
    next lowValue hlow => exact ⟨highValue, lowValue, hhigh, hlow, (Option.some.inj h).symm⟩

/-- A decoded byte goes in front of what the rest decodes to. -/
theorem Decodes.cons {encoded rest decoded : Bytes} {byte : UInt8}
    (h : decodedTextByte encoded = some (byte, rest)) (hrest : Decodes rest decoded) :
    Decodes encoded (byte :: decoded) := by
  cases encoded with
  | nil => cases h
  | cons source tail =>
    by_cases hpercent : source = 37
    · subst hpercent
      match tail with
      | [] => cases h
      | [high] => cases h
      | high :: low :: tail =>
        obtain ⟨value, hvalue, heq⟩ := Option.map_eq_some_iff.mp h
        cases heq
        obtain ⟨highValue, lowValue, hhigh, hlow, rfl⟩ := decodedValue_eq_some hvalue
        exact .triplet hhigh hlow hrest
    · have hcopied : decodedTextByte (source :: tail) = some (source, tail) := if_pos hpercent
      cases hcopied.symm.trans h
      exact .plain hpercent hrest

theorem Decodes.self {encoded : Bytes} (h : 37 ∉ encoded) : Decodes encoded encoded := by
  induction encoded with
  | nil => exact .nil
  | cons byte rest ih =>
    obtain ⟨hbyte, hrest⟩ := not_or.mp (mt List.mem_cons.mpr h)
    exact .plain (Ne.symm hbyte) (ih hrest)

/-- What is validated decodes, and the validator completes on it. -/
theorem exists_decodes {validator : StreamingValidator} {encoded : Bytes}
    (h : validateDecodedBytes validator encoded = .ok ()) :
    ∃ decoded, Decodes encoded decoded ∧ validator.completes decoded = true := by
  induction hn : encoded.length using Nat.strongRecOn generalizing encoded validator with
  | ind n ih =>
    rw [validateDecodedBytes] at h
    by_cases hempty : encoded = []
    · rw [if_pos hempty] at h
      refine ⟨[], hempty ▸ .nil, ?_⟩
      split at h
      · assumption
      · cases h
    · rw [if_neg hempty] at h
      split at h
      · cases h
      next byte rest hbyte =>
        dsimp only at h
        split at h
        · cases h
        next hpushed =>
          have hless := decodedTextByte_decreases hbyte
          obtain ⟨decoded, hdecoded, hcompletes⟩ := ih rest.length (by omega) h rfl
          refine ⟨byte :: decoded, .cons hbyte hdecoded, ?_⟩
          rw [StreamingValidator.completes]
          dsimp only
          rw [if_pos (by simpa using hpushed)]
          exact hcompletes

/-- A component that the iterator can decode. -/
def Decodable (component : Bytes) : Prop :=
  37 ∈ component → ∃ decoded, Decodes component decoded ∧ isValidUtf8 decoded = true

theorem decodable_of_validated {component : Bytes}
    (h : validateDecodedQueryComponent component = .ok ()) : Decodable component := by
  intro hpercent
  have hcontains : component.contains 37 = true := by
    rw [List.contains_eq_mem]
    exact decide_eq_true hpercent
  rw [validateDecodedQueryComponent, hcontains, if_neg (by simp)] at h
  exact exists_decodes h

theorem decodable_of_mem {items : List Bytes} (h : validateDecodedItems items = .ok ())
    {item : Bytes} (hmem : item ∈ items) :
    Decodable (nameText item) ∧ Decodable (valueText item) := by
  induction items with
  | nil => cases hmem
  | cons first items ih =>
    rw [validateDecodedItems_cons, validateItemTexts] at h
    cases hname : validateDecodedQueryComponent (nameText first) with
    | error error =>
      rw [hname] at h
      cases h
    | ok _ =>
      cases hvalue : validateDecodedQueryComponent (valueText first) with
      | error error =>
        rw [hname, hvalue] at h
        cases h
      | ok _ =>
        rw [hname, hvalue] at h
        rcases List.mem_cons.mp hmem with rfl | hmem
        · exact ⟨decodable_of_validated hname, decodable_of_validated hvalue⟩
        · exact ih h hmem

theorem lt_of_validTargetByte {value : UInt8} (h : validTargetByte value = true) : value < 128 := by
  simp only [validTargetByte, Bool.or_eq_true, Bool.and_eq_true, decide_eq_true_iff,
    UInt8.le_iff_toNat_le, ← UInt8.toNat_inj, UInt8.reduceToNat] at h
  rw [UInt8.lt_iff_toNat_lt]
  simp only [UInt8.reduceToNat]
  omega

theorem lt_of_hexDigit {byte : UInt8} (h : (hexDigit byte).isSome) : byte < 128 := by
  by_contra hlarge
  rw [UInt8.not_lt, UInt8.le_iff_toNat_le] at hlarge
  simp only [UInt8.reduceToNat] at hlarge
  have hnone : hexDigit byte = none := by
    unfold hexDigit
    simp only [UInt8.le_iff_toNat_le, UInt8.reduceToNat]
    rw [if_neg (by omega), if_neg (by omega), if_neg (by omega)]
  rw [hnone] at h
  cases h

/-- The bytes of a target are ASCII. -/
theorem lt_of_validTargetBytes {bytes : Bytes} (h : validTargetBytes bytes = true) :
    ∀ byte ∈ bytes, byte < 128 := by
  induction bytes using validTargetBytes.induct with
  | case1 => exact fun byte hbyte => absurd hbyte List.not_mem_nil
  | case2 high low rest ih =>
    rw [validTargetBytes, Bool.and_eq_true, Bool.and_eq_true] at h
    intro byte hbyte
    simp only [List.mem_cons] at hbyte
    rcases hbyte with rfl | rfl | rfl | hbyte
    · decide
    · exact lt_of_hexDigit h.1.1
    · exact lt_of_hexDigit h.1.2
    · exact ih h.2 byte hbyte
  | case3 rest hrest =>
    rw [validTargetBytes] at h
    · cases h
    · exact hrest
  | case4 value rest htriplet hpercent ih =>
    rw [validTargetBytes_cons hpercent, Bool.and_eq_true] at h
    exact List.forall_mem_cons.mpr ⟨lt_of_validTargetByte h.1, ih h.2⟩

end Decoding

/-! ### The run of the iterator -/

section Iteration

variable {cursor : TextCursor} {before window after : Bytes}

/-- The loop of the iterator decodes a window behind what the scratch holds. -/
theorem decodeAt_window {decoded : Bytes} (h : Decodes window decoded)
    (hinput : cursor.input = before ++ window ++ after) {stop : ℕ}
    (hstop : stop = before.length + window.length) (scratch : Bytes) :
    decodeAt cursor stop scratch before.length = some (scratch ++ decoded) := by
  induction h generalizing before scratch with
  | nil =>
    rw [decodeAt, if_neg (by rw [hstop, List.length_nil]; omega), List.append_nil]
  | @plain byte rest decoded hbyte _ ih =>
    have hdecoded := decodedTextByteAt_window hinput hstop
    have hcopied : decodedTextByte (byte :: rest) = some (byte, rest) := if_pos hbyte
    have hrest := @ih (before ++ [byte]) (by rw [hinput]; simp) (by rw [hstop]; simp; omega)
      (scratch ++ [byte])
    rw [hcopied, Option.map_some, List.length_cons, Nat.add_sub_cancel_left] at hdecoded
    rw [List.length_append, List.length_singleton, List.append_assoc, List.singleton_append] at hrest
    rw [decodeAt, if_pos (by rw [hstop, List.length_cons]; omega)]
    split
    · next heq => cases hdecoded.symm.trans heq
    next heq =>
      cases hdecoded.symm.trans heq
      exact hrest
  | @triplet high low highValue lowValue rest decoded hhigh hlow _ ih =>
    have hdecoded := decodedTextByteAt_window hinput hstop
    have htriplet : decodedTextByte (37 :: high :: low :: rest) =
        some (UInt8.ofNat (highValue * 16 + lowValue), rest) := by
      rw [decodedTextByte, if_neg (fun h => h rfl), decodedValue, hhigh, hlow]
      rfl
    have hrest := @ih (before ++ [37, high, low]) (by rw [hinput]; simp)
      (by rw [hstop]; simp; omega) (scratch ++ [UInt8.ofNat (highValue * 16 + lowValue)])
    have hthree : (37 :: high :: low :: rest).length - rest.length = 3 := by
      simp only [List.length_cons]
      omega
    rw [htriplet, Option.map_some, hthree] at hdecoded
    rw [List.length_append, List.append_assoc, List.singleton_append] at hrest
    rw [decodeAt, if_pos (by rw [hstop, List.length_cons]; omega)]
    split
    · next heq => cases hdecoded.symm.trans heq
    next heq =>
      cases hdecoded.symm.trans heq
      exact hrest

/-- The pair of an item. -/
def Denotes (item : Bytes) (parameter : QueryParameter) : Prop :=
  Decodes (nameText item) parameter.name ∧ Decodes (valueText item) parameter.value ∧
    Utf8.Valid parameter.name ∧ Utf8.Valid parameter.value

/-- A component that decodes is read, into the scratch or straight off the text. -/
theorem exists_component (hascii : ∀ byte ∈ cursor.input, byte < 128)
    (hinput : cursor.input = before ++ window ++ after) {stop : ℕ}
    (hstop : stop = before.length + window.length) (hdecodable : Decodable window) (scratch : Bytes) :
    ∃ decoded scratch', Decodes window decoded ∧ Utf8.Valid decoded ∧
      scratchComponent (decide (37 ∈ window)) cursor before.length stop scratch = some scratch' ∧
      decodedComponent (decide (37 ∈ window)) cursor before.length stop scratch' =
        some decoded := by
  by_cases hpercent : 37 ∈ window
  · obtain ⟨decoded, hdecodes, hutf8⟩ := hdecodable hpercent
    refine ⟨decoded, decoded, hdecodes, isValidUtf8_iff.mp hutf8, ?_, ?_⟩
    · rw [scratchComponent, decide_eq_true hpercent, if_pos rfl, decodeAt_window hdecodes hinput hstop,
        List.nil_append]
    · rw [decodedComponent, decide_eq_true hpercent, if_pos rfl, fromUtf8, if_pos hutf8]
  · refine ⟨window, scratch, .self hpercent, Utf8.Valid.ascii fun byte hbyte => hascii byte ?_, ?_, ?_⟩
    · rw [hinput]
      exact List.mem_append_left _ (List.mem_append_right _ hbyte)
    · rw [scratchComponent, decide_eq_false hpercent, if_neg Bool.false_ne_true]
    · rw [decodedComponent, decide_eq_false hpercent, if_neg Bool.false_ne_true,
        charRange_window hascii hinput hstop]

/-- A call answers with the pair of the item in front of the cursor. -/
theorem next_item {iter : QueryIter} {item : Bytes} {stop : ℕ}
    (hfinished : iter.finished = false) (hoffset : iter.cursor.nextOffset = before.length)
    (hstop : stop = before.length + item.length)
    (htake : iter.cursor.takeUntil [38] = .ok (⟨before.length, stop⟩, cursor))
    (hascii : ∀ byte ∈ cursor.input, byte < 128) (hinput : cursor.input = before ++ item ++ after)
    (hname : Decodable (nameText item)) (hvalue : Decodable (valueText item)) :
    ∃ parameter rest, iter.next = some (some parameter, rest) ∧ Denotes item parameter ∧
      rest.cursor = cursor ∧ rest.finished = decide (cursor.nextOffset = stop) := by
  obtain ⟨⟨behind, hnameInput⟩, front, hvalueInput, hfront, hvalueStop⟩ := @item_windows before item
    after (before.length + (nameText item).length) _ stop hstop rfl rfl
  have hseparator : queryItemSeparator cursor before.length stop = .ok (nameText item).length :=
    queryItemSeparator_window hinput hstop
  have hnameEncoded := queryComponentIsEncoded_window (hinput.trans hnameInput) rfl
  have hvalueEncoded := queryComponentIsEncoded_window (hinput.trans hvalueInput) hvalueStop
  obtain ⟨name, nameScratch, hnameDecodes, hnameValid, hnameScratch, hnameRead⟩ :=
    exists_component hascii (hinput.trans hnameInput) rfl hname iter.nameScratch
  obtain ⟨value, valueScratch, hvalueDecodes, hvalueValid, hvalueScratch, hvalueRead⟩ :=
    exists_component hascii (hinput.trans hvalueInput) hvalueStop hvalue iter.valueScratch
  have hend : before.length + (stop - before.length) = stop := by omega
  rw [hfront] at hvalueEncoded hvalueScratch hvalueRead
  refine ⟨⟨name, value⟩, ⟨cursor, nameScratch, valueScratch, decide (cursor.nextOffset = stop)⟩, ?_,
    ⟨hnameDecodes, hvalueDecodes, hnameValid, hvalueValid⟩, rfl, rfl⟩
  rw [QueryIter.next, hfinished, if_neg Bool.false_ne_true]
  simp only [htake, hoffset, hend, hseparator, hnameEncoded, hvalueEncoded, Except.toOption,
    Option.bind_eq_bind, Option.bind_some, hnameScratch, hvalueScratch, hnameRead, hvalueRead,
    Option.pure_def]

theorem next_finished {iter : QueryIter} (h : iter.finished = true) :
    iter.next = some (none, iter) := by
  rw [QueryIter.next, if_pos h]

/-- From the start of an item on, the iterator yields the pairs of the items that are left. -/
theorem yields_items {iter : QueryIter} {query : Bytes} (hfinished : iter.finished = false)
    (hoffset : iter.cursor.nextOffset = before.length)
    (hinput : iter.cursor.input = before ++ query) (hascii : ∀ byte ∈ iter.cursor.input, byte < 128)
    (hitems : ∀ item ∈ query.splitOn 38, Decodable (nameText item) ∧ Decodable (valueText item)) :
    ∃ parameters, iter.Yields parameters ∧ List.Forall₂ Denotes (query.splitOn 38) parameters := by
  induction hn : query.length using Nat.strongRecOn generalizing before iter query with
  | ind n ih =>
    have hfind := @findFrom_window before iter.cursor.input query 38 hinput
    rw [← hoffset] at hfind
    rcases exists_first_item query with ⟨hmem, hsplit, -⟩ | ⟨item, rest, rfl, hitem, hsplit, htake⟩
    · rw [if_neg hmem] at hfind
      rw [hsplit] at hitems ⊢
      obtain ⟨hname, hvalue⟩ := hitems query List.mem_cons_self
      have hlength : iter.cursor.input.length = before.length + query.length := by
        rw [hinput, List.length_append]
      have htaken : iter.cursor.takeUntil [38] = .ok (⟨before.length, iter.cursor.input.length⟩,
          ⟨iter.cursor.input, iter.cursor.input.length⟩) := by
        rw [TextCursor.takeUntil, if_neg (List.cons_ne_nil _ _), hfind, hoffset]
      obtain ⟨parameter, last, hnext, hdenotes, -, hlast⟩ := @next_item _ before [] iter query _
        hfinished hoffset hlength htaken hascii (by rw [hinput, List.append_nil]) hname hvalue
      exact ⟨[parameter], .pair hnext (.finished (next_finished (hlast.trans (decide_eq_true rfl)))),
        .cons hdenotes .nil⟩
    · rw [if_pos (by simp), htake, hoffset] at hfind
      rw [hsplit] at hitems ⊢
      obtain ⟨⟨hname, hvalue⟩, hrest⟩ := List.forall_mem_cons.mp hitems
      have htaken : iter.cursor.takeUntil [38] =
          .ok (⟨before.length, before.length + item.length⟩,
            ⟨iter.cursor.input, before.length + item.length + 1⟩) := by
        rw [TextCursor.takeUntil, if_neg (List.cons_ne_nil _ _), hoffset, hfind]
        rfl
      obtain ⟨parameter, next, hnext, hdenotes, hcursor, hunfinished⟩ := @next_item _ before _ iter
        item _ hfinished hoffset rfl htaken hascii (by rw [hinput, ← List.append_assoc]) hname hvalue
      obtain ⟨parameters, hyields, hforall⟩ := @ih rest.length
        (by rw [← hn, List.length_append, List.length_cons]; omega) (before ++ item ++ [38]) next rest
        (hunfinished.trans (decide_eq_false (Nat.succ_ne_self _)))
        (by rw [hcursor, List.length_append, List.length_append, List.length_singleton])
        (by rw [hcursor, hinput]; simp) (by rw [hcursor]; exact hascii) hrest rfl
      exact ⟨parameter :: parameters, .pair hnext hyields, .cons hdenotes hforall⟩

/-- The items of a target's query; an absent or empty query has none. -/
def RequestTarget.queryItems (target : RequestTarget) : List Bytes :=
  match target.query with
  | none => []
  | some query => if query = [] then [] else query.splitOn 38

theorem query_eq {text : Bytes} (hascii : ∀ byte ∈ text, byte < 128) :
    (requestTargetFromValidated text).query =
      if requestTargetQueryStart text > text.length then none
      else some (text.drop (requestTargetQueryStart text)) := by
  rw [RequestTarget.query]
  change (if requestTargetQueryStart text > text.length then none
    else charRange text (requestTargetQueryStart text) text.length) = _
  split
  · rfl
  next hstart =>
    have hlength : (text.take (requestTargetQueryStart text)).length = requestTargetQueryStart text :=
      List.length_take_of_le (Nat.not_lt.mp hstart)
    have hrange := @charRange_window (text.take (requestTargetQueryStart text))
      (text.drop (requestTargetQueryStart text)) [] text hascii
      (by rw [List.append_nil, List.take_append_drop]) text.length
      (by rw [hlength, List.length_drop]; omega)
    rwa [hlength] at hrange

/-- The iterator over the query of a parsed target yields the pairs of its items. -/
theorem queryPairs_yields {text : Bytes} {target : RequestTarget}
    (h : RequestTarget.parseText text = some (.ok target)) :
    ∃ parameters, target.queryPairs.Yields parameters ∧
      List.Forall₂ Denotes target.queryItems parameters := by
  rw [parseText_eq, RequestTarget.parse] at h
  split at h
  · cases h
  next hvalid =>
    have hbytes : validTargetBytes text = true := by
      rw [Bool.not_eq_false, validRequestTarget, Bool.and_eq_true] at hvalid
      exact hvalid.2
    have hascii := lt_of_validTargetBytes hbytes
    split at h
    · cases h
    next hquery =>
      obtain rfl : requestTargetFromValidated text = target := by
        cases h
        rfl
      have hfinished : ∀ iter : QueryIter, iter.finished = true →
          ∃ parameters, iter.Yields parameters ∧ List.Forall₂ Denotes [] parameters :=
        fun iter hiter => ⟨[], .finished (next_finished hiter), .nil⟩
      rw [RequestTarget.queryPairs, RequestTarget.queryItems, query_eq hascii]
      by_cases habsent : requestTargetQueryStart text > text.length
      · rw [if_pos habsent]
        exact hfinished _ rfl
      rw [if_neg habsent]
      dsimp only
      by_cases hempty : text.drop (requestTargetQueryStart text) = []
      · rw [if_pos hempty, hempty]
        exact hfinished _ rfl
      · rw [if_neg hempty]
        have hstart : ¬requestTargetQueryStart text ≥ text.length := fun hge =>
          hempty (List.drop_eq_nil_iff.mpr hge)
        rw [validateDecodedQuery, if_neg hstart] at hquery
        refine @yields_items [] _ _ ?_ rfl rfl ?_ fun item hmem => decodable_of_mem hquery hmem
        · exact decide_eq_false fun hlength => hempty (List.length_eq_zero_iff.mp hlength)
        · exact fun byte hbyte => hascii byte (List.mem_of_mem_drop hbyte)

/-- The target `/?a=b&` has a pair and an empty item behind it. -/
theorem queryPairs_yields_trailing_separator : ∃ parameters,
    (requestTargetFromValidated [47, 63, 97, 61, 98, 38]).queryPairs.Yields parameters ∧
      List.Forall₂ Denotes (requestTargetFromValidated [47, 63, 97, 61, 98, 38]).queryItems parameters :=
  @queryPairs_yields [47, 63, 97, 61, 98, 38] _ rfl

/-- The empty query of `/?` yields no pair, although splitting it gives one empty item. -/
theorem queryPairs_empty_query : ¬ ∀ text target,
    RequestTarget.parseText text = some (.ok target) → ∃ parameters,
      target.queryPairs.Yields parameters ∧
        List.Forall₂ Denotes (target.query.elim [] fun query => query.splitOn 38) parameters := by
  intro h
  obtain ⟨parameters, hyields, hforall⟩ := h [47, 63] (requestTargetFromValidated [47, 63]) rfl
  have hitems : ((requestTargetFromValidated [47, 63]).query.elim [] fun query => query.splitOn 38) =
      [[]] := rfl
  have hnone : (requestTargetFromValidated [47, 63]).queryPairs.next =
      some (none, (requestTargetFromValidated [47, 63]).queryPairs) := rfl
  rw [hitems] at hforall
  cases hyields with
  | finished _ => cases hforall
  | pair hnext _ => cases hnone.symm.trans hnext

end Iteration

end Nocter.Http
