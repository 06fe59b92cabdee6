import Mathlib.Data.List.DropRight
import Nocter.Text.Digits
import Nocter.Text.Search
import Nocter.Text.Utf8

/-!
# Frames of the language server protocol

A frame is a block of header lines with CRLF endings, an empty line and a body of the length
that the block announces. The reader sees the bytes through a buffer of its own sizes: each call
for input makes some bytes available or fails.
-/

namespace Nocter.Lsp

open Text

abbrev Bytes := List UInt8

def maxHeaderBytes : ℕ := 8 * 1024

def maxMessageBytes : ℕ := 16 * 1024 * 1024

inductive FrameError where
  | io
  | truncatedHeader
  | headerTooLarge
  | invalidHeaderLineEnding
  | nonAsciiHeader
  | malformedHeader
  | missingContentLength
  | duplicateContentLength
  | invalidContentLength
  | messageTooLarge (bytes limit : ℕ)
  | truncatedBody
  | invalidUtf8
deriving DecidableEq

section Input

/-- What a call on the input does: it makes at least one byte available, or fails after a read of
so many bytes. -/
inductive Fetch where
  | available (more : ℕ)
  | fails (read : ℕ)

/-- The bytes that are not consumed, and what the calls to come do. -/
structure Input where
  unread : Bytes
  fetches : ℕ → Fetch

def Input.called (input : Input) : Input := { input with fetches := fun call => input.fetches (call + 1) }

def Input.consume (input : Input) (count : ℕ) : Input := { input with unread := input.unread.drop count }

/-- `fill_buf`. -/
def Input.fillBuf (input : Input) : Except FrameError Bytes × Input :=
  match input.fetches 0 with
  | .fails _ => (.error .io, input.called)
  | .available more => (.ok (input.unread.take (more + 1)), input.called)

/-- `read_exact`: a failing call may have read a part. -/
def Input.readExact (input : Input) (length : ℕ) : Except FrameError Bytes × Input :=
  match input.fetches 0 with
  | .fails read => (.error .io, input.called.consume (min read length))
  | .available _ =>
    if input.unread.length < length then (.error .truncatedBody, input.called.consume length)
    else (.ok (input.unread.take length), input.called.consume length)

@[simp] theorem Input.called_unread (input : Input) : input.called.unread = input.unread := rfl

@[simp] theorem Input.consume_unread (input : Input) (count : ℕ) :
    (input.consume count).unread = input.unread.drop count := rfl

end Input

section Lines

/-- How many of the available bytes belong to the line. -/
def lineBytes (available : Bytes) : ℕ := (available.findIdx? (· = 10)).elim available.length (· + 1)

theorem lineBytes_pos {available : Bytes} (h : available ≠ []) : 0 < lineBytes available := by
  unfold lineBytes
  cases available.findIdx? (· = 10) with
  | none => exact List.length_pos_iff.mpr h
  | some index => exact Nat.succ_pos index

theorem fillBuf_ok {input next : Input} {available : Bytes}
    (h : input.fillBuf = (.ok available, next)) :
    ∃ more, available = input.unread.take (more + 1) ∧ next = input.called := by
  unfold Input.fillBuf at h
  split at h
  · cases h
  · next more _ =>
    cases h
    exact ⟨more, rfl, rfl⟩

/-- The loop of `read_header_line` behind the bytes that are consumed of the header and the ones
that the line has. -/
def readLineFrom (consumed : ℕ) (line : Bytes) (input : Input) :
    Except FrameError (Option Bytes) × Input :=
  match _h : input.fillBuf with
  | (.error error, next) => (.error error, next)
  | (.ok available, next) =>
    if _hempty : available = [] then
      (if line = [] then .ok none else .error .truncatedHeader, next)
    else
      let taken := lineBytes available
      if maxHeaderBytes < consumed + line.length + taken then (.error .headerTooLarge, next)
      else
        let line := line ++ available.take taken
        if line.getLast? = some 10 then (.ok (some line), next.consume taken)
        else readLineFrom consumed line (next.consume taken)
termination_by input.unread.length
decreasing_by
  obtain ⟨more, rfl, rfl⟩ := fillBuf_ok _h
  have hpos := lineBytes_pos _hempty
  have hunread : input.unread ≠ [] := fun hnil => _hempty (by rw [hnil, List.take_nil])
  have := List.length_pos_iff.mpr hunread
  rw [Input.consume_unread, Input.called_unread, List.length_drop]
  omega

def readHeaderLine (consumed : ℕ) (input : Input) : Except FrameError (Option Bytes) × Input :=
  readLineFrom consumed [] input

/-- The schedule of a later input is a later part of the schedule. -/
def Later (input final : Input) : Prop :=
  ∃ calls, ∀ call, final.fetches call = input.fetches (call + calls)

theorem Later.trans {first second third : Input} (h : Later first second) (h' : Later second third) :
    Later first third := by
  obtain ⟨calls, hcalls⟩ := h
  obtain ⟨calls', hcalls'⟩ := h'
  refine ⟨calls' + calls, fun call => ?_⟩
  rw [hcalls', hcalls, Nat.add_assoc]

theorem later_called (input : Input) : Later input input.called := ⟨1, fun _ => rfl⟩

theorem later_consume (input : Input) (count : ℕ) : Later input (input.consume count) :=
  ⟨0, fun _ => rfl⟩

/-- No call fails. -/
def Faultless (input : Input) : Prop := ∀ call, ∃ more, input.fetches call = .available more

theorem Faultless.later {input final : Input} (h : Faultless input) (hlater : Later input final) :
    Faultless final := by
  obtain ⟨calls, hcalls⟩ := hlater
  intro call
  rw [hcalls]
  exact h _

/-- What reading a line does: it hands out the bytes up to the first newline, finds the end of the
input, or fails behind a part of the line. -/
inductive LineOutcome (consumed : ℕ) (line : Bytes) (input : Input) :
    Except FrameError (Option Bytes) × Input → Prop
  | line {text rest : Bytes} {final : Input} (hunread : input.unread = text ++ 10 :: rest)
      (htext : 10 ∉ text) (hfinal : final.unread = rest)
      (hlimit : consumed + line.length + text.length + 1 ≤ maxHeaderBytes)
      (hlater : Later input final) :
      LineOutcome consumed line input (.ok (some (line ++ text ++ [10])), final)
  | finished {final : Input} (hline : line = []) (hunread : input.unread = [])
      (hfinal : final.unread = []) (hlater : Later input final) :
      LineOutcome consumed line input (.ok none, final)
  | failed {text : Bytes} {error : FrameError} {final : Input}
      (hunread : input.unread = text ++ final.unread) (htext : 10 ∉ text)
      (hlimit : text ≠ [] → consumed + line.length + text.length ≤ maxHeaderBytes)
      (hreason : Faultless input → ∀ text rest, input.unread = text ++ 10 :: rest → 10 ∉ text →
        maxHeaderBytes < consumed + line.length + text.length + 1)
      (hlate : Faultless input → line = [] → input.unread ≠ []) :
      LineOutcome consumed line input (.error error, final)

theorem lineBytes_cases (available : Bytes) :
    (10 ∉ available ∧ lineBytes available = available.length) ∨
    ∃ before after, available = before ++ 10 :: after ∧ 10 ∉ before ∧
      lineBytes available = before.length + 1 := by
  by_cases hmem : 10 ∈ available
  · obtain ⟨before, after, rfl, hbefore⟩ := List.eq_append_cons_of_mem hmem
    refine Or.inr ⟨before, after, rfl, hbefore, ?_⟩
    have hfind : (before ++ 10 :: after).findIdx? (· = 10) = some before.length := by
      rw [List.findIdx?_append]
      have hnone : before.findIdx? (· = 10) = none := by
        rw [List.findIdx?_eq_none_iff]
        intro byte hbyte
        rw [decide_eq_false_iff_not]
        rintro rfl
        exact hbefore hbyte
      rw [hnone, List.findIdx?_cons, if_pos (decide_eq_true rfl)]
      simp
    rw [lineBytes, hfind]
    rfl
  · refine Or.inl ⟨hmem, ?_⟩
    have hfind : available.findIdx? (· = 10) = none := by
      rw [List.findIdx?_eq_none_iff]
      intro byte hbyte
      rw [decide_eq_false_iff_not]
      rintro rfl
      exact hmem hbyte
    rw [lineBytes, hfind]
    rfl

/-- A prefix of the input reaches at most to the first newline. -/
theorem lineBytes_take_le (text rest : Bytes) (more : ℕ) :
    lineBytes ((text ++ 10 :: rest).take (more + 1)) ≤ text.length + 1 := by
  rcases lineBytes_cases ((text ++ 10 :: rest).take (more + 1)) with
    ⟨hmem, hbytes⟩ | ⟨before, after, hsplit, hbefore, hbytes⟩
  · rw [hbytes]
    by_contra hlong
    rw [List.length_take] at hlong
    refine hmem (List.mem_take_iff_getElem.mpr ⟨text.length, by omega, ?_⟩)
    rw [List.getElem_append_right le_rfl]
    simp
  · rw [hbytes]
    have hfront : before ++ 10 :: after <+: text ++ 10 :: rest := hsplit ▸ List.take_prefix _ _
    have hle : before.length ≤ text.length := by
      by_contra hlong
      have hinside : text ++ [10] <+: before := by
        refine List.prefix_of_prefix_length_le ?_ ((List.prefix_append _ _).trans hfront) ?_
        · exact ⟨rest, by rw [List.append_assoc, List.singleton_append]⟩
        · rw [List.length_append, List.length_singleton]
          omega
      exact hbefore (hinside.subset (List.mem_append_right _ (List.mem_singleton.mpr rfl)))
    omega

theorem take_append_drop_length (bytes : Bytes) (count : ℕ) :
    bytes.take count ++ bytes.drop (bytes.take count).length = bytes := by
  rw [List.length_take]
  rcases Nat.le_total count bytes.length with h | h
  · rw [Nat.min_eq_left h, List.take_append_drop]
  · rw [Nat.min_eq_right h, List.drop_length, List.append_nil, List.take_of_length_le h]

theorem getLast?_append_newline (line text : Bytes) : (line ++ (text ++ [10])).getLast? = some 10 := by
  rw [← List.append_assoc, List.getLast?_concat]

/-- The outcome behind a chunk without a newline is one in front of it. -/
theorem LineOutcome.extend {consumed : ℕ} {line chunk : Bytes} {input next : Input}
    {result : Except FrameError (Option Bytes) × Input}
    (h : LineOutcome consumed (line ++ chunk) next result) (hchunk : 10 ∉ chunk) (hne : chunk ≠ [])
    (hunread : input.unread = chunk ++ next.unread) (hnext : Later input next)
    (hlimit : consumed + line.length + chunk.length ≤ maxHeaderBytes) :
    LineOutcome consumed line input result := by
  cases h with
  | @line text rest final hrest htext hfinal hlimit' hlater =>
    rw [List.length_append] at hlimit'
    rw [List.append_assoc line]
    refine .line (by rw [hunread, hrest, List.append_assoc]) ?_ hfinal ?_ (hnext.trans hlater)
    · rw [List.mem_append]
      exact not_or.mpr ⟨hchunk, htext⟩
    · rw [List.length_append]
      omega
  | finished hline _ _ _ => exact absurd (List.append_eq_nil_iff.mp hline).2 hne
  | @failed text error final hrest htext hlimit' hreason hlate =>
    rw [List.length_append] at hlimit' hreason
    refine @LineOutcome.failed consumed line input (chunk ++ text) _ _ (by rw [hunread, hrest, List.append_assoc]) ?_ ?_ ?_ ?_
    · rw [List.mem_append]
      exact not_or.mpr ⟨hchunk, htext⟩
    · intro _
      rw [List.length_append]
      by_cases hempty : text = []
      · rw [hempty, List.length_nil]
        omega
      · have := hlimit' hempty
        omega
    · intro hfaultless whole rest hwhole hnewline
      rw [hunread] at hwhole
      rcases List.append_eq_append_iff.mp hwhole with ⟨tail, rfl, htail⟩ | ⟨tail, rfl, htail⟩
      · have := hreason (hfaultless.later hnext) tail rest htail
          fun h => hnewline (List.mem_append_right _ h)
        rw [List.length_append]
        omega
      · cases tail with
        | nil =>
          have := hreason (hfaultless.later hnext) [] rest htail.symm List.not_mem_nil
          rw [List.length_nil, List.append_nil] at *
          omega
        | cons byte tail =>
          obtain ⟨rfl, -⟩ := List.cons.inj htail
          exact absurd (List.mem_append_right _ List.mem_cons_self) hchunk
    · intro _ _ hnil
      rw [hunread] at hnil
      exact hne (List.append_eq_nil_iff.mp hnil).1

theorem readLineFrom_outcome (consumed : ℕ) (line : Bytes) (input : Input) :
    LineOutcome consumed line input (readLineFrom consumed line input) := by
  induction hn : input.unread.length using Nat.strongRecOn generalizing line input with
  | ind n ih =>
    rw [readLineFrom]
    split
    · next error next hfill =>
      have hfails : Faultless input → False := by
        intro hfaultless
        obtain ⟨more, hmore⟩ := hfaultless 0
        rw [Input.fillBuf, hmore] at hfill
        cases hfill
      have hnext : next.unread = input.unread := by
        unfold Input.fillBuf at hfill
        split at hfill <;> cases hfill
        rfl
      exact @LineOutcome.failed consumed line input [] _ _ (by rw [hnext, List.nil_append]) List.not_mem_nil
        (fun hne => absurd rfl hne) (fun h => (hfails h).elim) (fun h => (hfails h).elim)
    next available next hfill =>
      obtain ⟨more, rfl, rfl⟩ := fillBuf_ok hfill
      by_cases hempty : input.unread.take (more + 1) = []
      · have hunread : input.unread = [] := by
          rcases List.take_eq_nil_iff.mp hempty with h | h
          · exact absurd h (Nat.succ_ne_zero more)
          · exact h
        rw [dif_pos hempty]
        by_cases hline : line = []
        · rw [if_pos hline]
          exact .finished hline hunread hunread (later_called input)
        · rw [if_neg hline]
          refine @LineOutcome.failed consumed line input [] _ _ (List.nil_append _).symm List.not_mem_nil
            (fun hne => absurd rfl hne) (fun _ text rest hsplit => ?_) (fun _ h => absurd h hline)
          rw [hunread] at hsplit
          exact absurd hsplit.symm (List.append_ne_nil_of_right_ne_nil _ (List.cons_ne_nil _ _))
      have hunread : input.unread ≠ [] := fun hnil => hempty (by rw [hnil, List.take_nil])
      rw [dif_neg hempty]
      dsimp only
      by_cases hlarge : maxHeaderBytes < consumed + line.length +
          lineBytes (input.unread.take (more + 1))
      · rw [if_pos hlarge]
        refine @LineOutcome.failed consumed line input [] _ _ (List.nil_append _).symm List.not_mem_nil
          (fun hne => absurd rfl hne) (fun _ text rest hsplit _ => ?_) (fun _ _ => hunread)
        rw [hsplit] at hlarge
        have := lineBytes_take_le text rest more
        omega
      rw [if_neg hlarge]
      rcases lineBytes_cases (input.unread.take (more + 1)) with
        ⟨hnewline, hbytes⟩ | ⟨before, after, hsplit, hbefore, hbytes⟩
      · -- The whole chunk belongs to the line.
        have hlast : (line ++ input.unread.take (more + 1)).getLast? ≠ some 10 := by
          rw [List.getLast?_append_of_ne_nil _ hempty]
          exact fun h => hnewline (List.mem_of_getLast? h)
        have hpos := List.length_pos_iff.mpr hempty
        have hpos' := List.length_pos_iff.mpr hunread
        rw [hbytes, List.take_length, if_neg hlast]
        have hrest := ih (input.called.consume (input.unread.take (more + 1)).length).unread.length
          (by rw [Input.consume_unread, Input.called_unread, List.length_drop]; omega)
          (line ++ input.unread.take (more + 1))
          (input.called.consume (input.unread.take (more + 1)).length) rfl
        refine hrest.extend hnewline hempty ?_ ((later_called input).trans (later_consume _ _)) ?_
        · exact (take_append_drop_length input.unread (more + 1)).symm
        · rw [hbytes] at hlarge
          omega
      · -- The chunk holds the end of the line.
        have hchunk : (input.unread.take (more + 1)).take (before.length + 1) = before ++ [10] := by
          rw [hsplit, List.take_length_add_append]
          rfl
        have hunread' : input.unread = before ++ 10 :: (after ++ input.unread.drop (more + 1)) := by
          conv_lhs => rw [← List.take_append_drop (more + 1) input.unread, hsplit]
          rw [List.append_assoc, List.cons_append]
        rw [hbytes, hchunk, if_pos (getLast?_append_newline line before), ← List.append_assoc]
        refine .line hunread' hbefore ?_ ?_ ((later_called input).trans (later_consume _ _))
        · rw [Input.consume_unread, Input.called_unread]
          conv_lhs => rw [hunread']
          rw [List.drop_length_add_append, List.drop_succ_cons, List.drop_zero]
        · rw [hbytes] at hlarge
          omega

/-- A line within the limit is read. -/
theorem readHeaderLine_of_line (consumed : ℕ) {input : Input} {text rest : Bytes}
    (hfaultless : Faultless input) (hunread : input.unread = text ++ 10 :: rest) (htext : 10 ∉ text)
    (hlimit : consumed + text.length + 1 ≤ maxHeaderBytes) :
    ∃ final, readHeaderLine consumed input = (.ok (some (text ++ [10])), final) ∧
      final.unread = rest ∧ Later input final := by
  have houtcome := readLineFrom_outcome consumed [] input
  rw [readHeaderLine]
  generalize readLineFrom consumed [] input = result at houtcome
  cases houtcome with
  | @line text' rest' final hunread' htext' hfinal _ hlater =>
    obtain ⟨rfl, rfl⟩ := separator_unique (hunread'.symm.trans hunread) htext' htext
    exact ⟨final, rfl, hfinal, hlater⟩
  | finished _ hempty _ _ =>
    rw [hunread] at hempty
    exact absurd hempty (List.append_ne_nil_of_right_ne_nil _ (List.cons_ne_nil _ _))
  | failed _ _ _ hreason _ =>
    have := hreason hfaultless text rest hunread htext
    rw [List.length_nil] at this
    omega

theorem readHeaderLine_of_end (consumed : ℕ) {input : Input} (hfaultless : Faultless input)
    (hunread : input.unread = []) :
    ∃ final, readHeaderLine consumed input = (.ok none, final) ∧ final.unread = [] ∧
      Later input final := by
  have houtcome := readLineFrom_outcome consumed [] input
  rw [readHeaderLine]
  generalize readLineFrom consumed [] input = result at houtcome
  cases houtcome with
  | line hunread' _ _ _ _ =>
    rw [hunread] at hunread'
    exact absurd hunread'.symm (List.append_ne_nil_of_right_ne_nil _ (List.cons_ne_nil _ _))
  | @finished final _ _ hfinal hlater => exact ⟨final, rfl, hfinal, hlater⟩
  | failed _ _ _ _ hlate => exact absurd hunread (hlate hfaultless rfl)

end Lines

section Headers

/-- The bytes that `char::is_whitespace` holds of, among the ASCII ones. -/
def isAsciiWhitespace (byte : UInt8) : Bool := (9 ≤ byte && byte ≤ 13) || byte = 32

def trim (value : Bytes) : Bytes := (value.dropWhile isAsciiWhitespace).rdropWhile isAsciiWhitespace

def isNameByte (byte : UInt8) : Bool :=
  (65 ≤ byte && byte ≤ 90) || (97 ≤ byte && byte ≤ 122) || isAsciiDigit byte || byte = 45

def toAsciiLowercase (byte : UInt8) : UInt8 := if 65 ≤ byte ∧ byte ≤ 90 then byte + 32 else byte

def eqIgnoreAsciiCase (left right : Bytes) : Bool :=
  left.map toAsciiLowercase = right.map toAsciiLowercase

/-- `Content-Length`. -/
def contentLengthName : Bytes := [67, 111, 110, 116, 101, 110, 116, 45, 76, 101, 110, 103, 116, 104]

/-- `split_once` at the first colon. -/
def splitOnce (line : Bytes) : Option (Bytes × Bytes) :=
  if 58 ∈ line then some (line.takeWhile (· ≠ 58), (line.dropWhile (· ≠ 58)).drop 1) else none

def parseContentLength (value : Bytes) : Except FrameError ℕ :=
  let value := trim value
  if value = [] ∨ value.all isAsciiDigit = false then .error .invalidContentLength
  else if u64Max < decimal value then .error .invalidContentLength
  else if maxMessageBytes < decimal value then
    .error (.messageTooLarge (decimal value) maxMessageBytes)
  else .ok (decimal value)

/-- What the loop of `read` makes of a line that is not empty. -/
def headerLine (contentLength : Option ℕ) (line : Bytes) : Except FrameError (Option ℕ) :=
  if isValidUtf8 line = false then .error .nonAsciiHeader
  else if line.all (· < 128) = false then .error .nonAsciiHeader
  else
    match splitOnce line with
    | none => .error .malformedHeader
    | some (name, value) =>
      if name = [] ∨ name.all isNameByte = false then .error .malformedHeader
      else if eqIgnoreAsciiCase name contentLengthName then
        if contentLength.isSome then .error .duplicateContentLength
        else (parseContentLength value).map some
      else .ok contentLength

theorem readHeaderLine_shorter {consumed : ℕ} {input next : Input} {line : Bytes}
    (h : readHeaderLine consumed input = (.ok (some line), next)) :
    next.unread.length < input.unread.length := by
  have houtcome := readLineFrom_outcome consumed [] input
  rw [readHeaderLine] at h
  rw [h] at houtcome
  cases houtcome with
  | line hunread _ hfinal _ _ =>
    rw [hunread, hfinal, List.length_append, List.length_cons]
    omega

/-- The loop of `read` over the header lines; `none` is a clean end of the input. -/
def readHeadersFrom (contentLength : Option ℕ) (headerBytes : ℕ) (input : Input) :
    Except FrameError (Option (Option ℕ)) × Input :=
  match _h : readHeaderLine headerBytes input with
  | (.error error, next) => (.error error, next)
  | (.ok none, next) => (if headerBytes = 0 then .ok none else .error .truncatedHeader, next)
  | (.ok (some line), next) =>
    if ¬[13, 10] <:+ line then (.error .invalidHeaderLineEnding, next)
    else
      let text := line.take (line.length - 2)
      if text = [] then (.ok (some contentLength), next)
      else
        match headerLine contentLength text with
        | .error error => (.error error, next)
        | .ok contentLength => readHeadersFrom contentLength (headerBytes + line.length) next
termination_by input.unread.length
decreasing_by exact readHeaderLine_shorter _h

/-- One call of `FrameReader::read`. -/
def read (input : Input) : Except FrameError (Option Bytes) × Input :=
  match readHeadersFrom none 0 input with
  | (.error error, next) => (.error error, next)
  | (.ok none, next) => (.ok none, next)
  | (.ok (some none), next) => (.error .missingContentLength, next)
  | (.ok (some (some length)), next) =>
    match next.readExact length with
    | (.error error, final) => (.error error, final)
    | (.ok body, final) =>
      (if isValidUtf8 body then .ok (some body) else .error .invalidUtf8, final)

/-- The bytes that `write_frame` writes. -/
def writeFrame (body : Bytes) : Bytes :=
  contentLengthName ++ [58, 32] ++ decimalText body.length ++ [13, 10, 13, 10] ++ body

end Headers

/-! ### Header blocks -/

section Blocks

/-- A header line: a name and a value around a colon. -/
structure FieldLine (line name value : Bytes) : Prop where
  split : line = name ++ 58 :: value
  name_ne : name ≠ []
  name_bytes : ∀ byte ∈ name, isNameByte byte = true
  value_bytes : ∀ byte ∈ value, byte < 128 ∧ byte ≠ 10

/-- The name is `Content-Length` up to the case of its letters. -/
def IsContentLength (name : Bytes) : Prop := eqIgnoreAsciiCase name contentLengthName = true

/-- The value is a decimal number, with blanks around it at most. -/
def Announces (value : Bytes) (length : ℕ) : Prop :=
  trim value ≠ [] ∧ (∀ byte ∈ trim value, isAsciiDigit byte = true) ∧ decimal (trim value) = length

/-- A header block with exactly one length. -/
structure HeaderBlock (lines : List Bytes) (length : ℕ) : Prop where
  fields : ∀ line ∈ lines, ∃ name value, FieldLine line name value
  single : ∃ before line after name value, lines = before ++ line :: after ∧
    FieldLine line name value ∧ IsContentLength name ∧ Announces value length ∧
    ∀ other ∈ before ++ after, ∀ name value, FieldLine other name value → ¬IsContentLength name

/-- The bytes of a block: the lines with their endings and an empty line. -/
def wire (lines : List Bytes) : Bytes := lines.flatMap (· ++ [13, 10]) ++ [13, 10]

theorem lt_of_isNameByte {byte : UInt8} (h : isNameByte byte = true) :
    byte < 128 ∧ byte ≠ 58 ∧ byte ≠ 10 := by
  simp only [isNameByte, isAsciiDigit, Bool.or_eq_true, Bool.and_eq_true, decide_eq_true_iff,
    UInt8.le_iff_toNat_le, ← UInt8.toNat_inj, UInt8.reduceToNat] at h
  simp only [UInt8.lt_iff_toNat_lt, ne_eq, ← UInt8.toNat_inj, UInt8.reduceToNat]
  omega

theorem FieldLine.colon_notMem {line name value : Bytes} (h : FieldLine line name value) :
    58 ∉ name := fun hmem => (lt_of_isNameByte (h.name_bytes _ hmem)).2.1 rfl

theorem FieldLine.ne_nil {line name value : Bytes} (h : FieldLine line name value) : line ≠ [] := by
  rw [h.split]
  exact List.append_ne_nil_of_right_ne_nil _ (List.cons_ne_nil _ _)

theorem FieldLine.bytes {line name value : Bytes} (h : FieldLine line name value) :
    ∀ byte ∈ line, byte < 128 ∧ byte ≠ 10 := by
  intro byte hbyte
  rw [h.split, List.mem_append, List.mem_cons] at hbyte
  rcases hbyte with hname | rfl | hvalue
  · have := lt_of_isNameByte (h.name_bytes byte hname)
    exact ⟨this.1, this.2.2⟩
  · decide
  · exact h.value_bytes byte hvalue

theorem splitOnce_append {name value : Bytes} (h : 58 ∉ name) :
    splitOnce (name ++ 58 :: value) = some (name, value) := by
  have hne : ∀ byte ∈ name, decide (byte ≠ 58) = true := by
    intro byte hbyte
    rw [decide_eq_true_iff]
    rintro rfl
    exact h hbyte
  rw [splitOnce, if_pos (by simp), List.takeWhile_append_of_pos hne, List.dropWhile_append_of_pos hne,
    List.takeWhile_cons_of_neg (by simp), List.dropWhile_cons_of_neg (by simp), List.append_nil,
    List.drop_succ_cons, List.drop_zero]

theorem splitOnce_eq_some {line name value : Bytes} (h : splitOnce line = some (name, value)) :
    line = name ++ 58 :: value ∧ 58 ∉ name := by
  unfold splitOnce at h
  split at h
  · next hmem =>
    obtain ⟨before, after, rfl, hbefore⟩ := List.eq_append_cons_of_mem hmem
    have hsplit := @splitOnce_append before after hbefore
    rw [splitOnce, if_pos hmem] at hsplit
    cases h.symm.trans hsplit
    exact ⟨rfl, hbefore⟩
  · cases h

theorem FieldLine.unique {line name value name' value' : Bytes} (h : FieldLine line name value)
    (h' : FieldLine line name' value') : name = name' ∧ value = value' := by
  have hsplit := @splitOnce_append name value h.colon_notMem
  have hsplit' := @splitOnce_append name' value' h'.colon_notMem
  rw [← h.split] at hsplit
  rw [← h'.split] at hsplit'
  cases hsplit.symm.trans hsplit'
  exact ⟨rfl, rfl⟩

theorem parseContentLength_ok {value : Bytes} {length : ℕ} :
    parseContentLength value = .ok length ↔ Announces value length ∧ length ≤ maxMessageBytes := by
  have hmax : maxMessageBytes ≤ u64Max := by decide
  unfold parseContentLength Announces
  dsimp only
  constructor
  · intro h
    split at h
    · cases h
    next hshape =>
      rw [not_or, Bool.not_eq_false, List.all_eq_true] at hshape
      split at h
      · cases h
      split at h
      · cases h
      next hlimit =>
        cases h
        exact ⟨⟨hshape.1, hshape.2, rfl⟩, Nat.not_lt.mp hlimit⟩
  · rintro ⟨⟨hne, hdigits, rfl⟩, hlimit⟩
    rw [if_neg, if_neg (by omega), if_neg (by omega)]
    rw [not_or, Bool.not_eq_false, List.all_eq_true]
    exact ⟨hne, hdigits⟩

/-- The next length that a header line leaves. -/
theorem headerLine_ok {contentLength contentLength' : Option ℕ} {line : Bytes} (hline : 10 ∉ line) :
    headerLine contentLength line = .ok contentLength' ↔ ∃ name value, FieldLine line name value ∧
      ((¬IsContentLength name ∧ contentLength' = contentLength) ∨
        (IsContentLength name ∧ contentLength = none ∧ ∃ length ≤ maxMessageBytes,
          Announces value length ∧ contentLength' = some length)) := by
  constructor
  · intro h
    unfold headerLine at h
    split at h
    · cases h
    split at h
    · cases h
    next hascii =>
      rw [Bool.not_eq_false, List.all_eq_true] at hascii
      split at h
      · cases h
      next name value hsplit =>
        obtain ⟨rfl, hcolon⟩ := splitOnce_eq_some hsplit
        split at h
        · cases h
        next hname =>
          rw [not_or, Bool.not_eq_false, List.all_eq_true] at hname
          have hfield : FieldLine (name ++ 58 :: value) name value := by
            refine ⟨rfl, hname.1, hname.2, fun byte hbyte => ⟨?_, ?_⟩⟩
            · exact of_decide_eq_true (hascii byte (by simp [hbyte]))
            · rintro rfl
              exact hline (by simp [hbyte])
          refine ⟨name, value, hfield, ?_⟩
          split at h
          · next hlength =>
            split at h
            · cases h
            next hnone =>
              rw [Option.not_isSome_iff_eq_none] at hnone
              cases hvalue : parseContentLength value with
              | error error =>
                rw [hvalue] at h
                cases h
              | ok length =>
                rw [hvalue] at h
                cases h
                obtain ⟨hannounces, hlimit⟩ := parseContentLength_ok.mp hvalue
                exact Or.inr ⟨hlength, hnone, length, hlimit, hannounces, rfl⟩
          · next hlength =>
            cases h
            exact Or.inl ⟨hlength, rfl⟩
  · rintro ⟨name, value, hfield, hcase⟩
    have hascii : ∀ byte ∈ line, byte < 128 := fun byte hbyte => (hfield.bytes byte hbyte).1
    have hutf8 : isValidUtf8 line = true := isValidUtf8_iff.mpr (.ascii hascii)
    have hall : line.all (· < 128) = true :=
      List.all_eq_true.mpr fun byte hbyte => decide_eq_true (hascii byte hbyte)
    have hsplit : splitOnce line = some (name, value) := by
      rw [hfield.split]
      exact splitOnce_append hfield.colon_notMem
    have hname : ¬(name = [] ∨ name.all isNameByte = false) := by
      rw [not_or, Bool.not_eq_false, List.all_eq_true]
      exact ⟨hfield.name_ne, hfield.name_bytes⟩
    rw [headerLine, hutf8, if_neg (by simp), hall, if_neg (by simp), hsplit]
    dsimp only
    rw [if_neg hname]
    unfold IsContentLength at hcase
    rcases hcase with ⟨hother, rfl⟩ | ⟨hlength, rfl, length, hlimit, hannounces, rfl⟩
    · rw [if_neg hother]
    · rw [if_pos hlength, parseContentLength_ok.mpr ⟨hannounces, hlimit⟩]
      rfl

/-- The line is a field other than the length. -/
def OtherField (line : Bytes) : Prop :=
  ∃ name value, FieldLine line name value ∧ ¬IsContentLength name

theorem headerBlock_cons {line : Bytes} {lines : List Bytes} {length : ℕ} :
    HeaderBlock (line :: lines) length ↔ (OtherField line ∧ HeaderBlock lines length) ∨
      (∃ name value, FieldLine line name value ∧ IsContentLength name ∧ Announces value length ∧
        ∀ other ∈ lines, OtherField other) := by
  constructor
  · rintro ⟨hfields, before, middle, after, name, value, hsplit, hfield, hlength, hannounces, hothers⟩
    cases before with
    | nil =>
      obtain ⟨rfl, rfl⟩ := List.cons.inj hsplit
      refine Or.inr ⟨name, value, hfield, hlength, hannounces, fun other hother => ?_⟩
      obtain ⟨name', value', hfield'⟩ := hfields other (List.mem_cons_of_mem _ hother)
      exact ⟨name', value', hfield', hothers other hother name' value' hfield'⟩
    | cons first before =>
      obtain ⟨rfl, rfl⟩ := List.cons.inj hsplit
      obtain ⟨name', value', hfield'⟩ := hfields line List.mem_cons_self
      refine Or.inl ⟨⟨name', value', hfield', hothers line List.mem_cons_self name' value' hfield'⟩,
        fun other hother => hfields other (List.mem_cons_of_mem _ hother), ?_⟩
      exact ⟨before, middle, after, name, value, rfl, hfield, hlength, hannounces,
        fun other hother => hothers other (List.mem_cons_of_mem _ hother)⟩
  · rintro (⟨⟨name', value', hfield', hother'⟩, hfields, before, middle, after, name, value, rfl, hfield,
      hlength, hannounces, hothers⟩ | ⟨name, value, hfield, hlength, hannounces, hothers⟩)
    · refine ⟨List.forall_mem_cons.mpr ⟨⟨name', value', hfield'⟩, hfields⟩, line :: before, middle,
        after, name, value, rfl, hfield, hlength, hannounces, ?_⟩
      refine List.forall_mem_cons.mpr ⟨fun name'' value'' hfield'' => ?_, hothers⟩
      rw [← (hfield'.unique hfield'').1]
      exact hother'
    · refine ⟨List.forall_mem_cons.mpr ⟨⟨name, value, hfield⟩, fun other hother => ?_⟩, [], line, lines,
        name, value, rfl, hfield, hlength, hannounces, fun other hother name' value' hfield' => ?_⟩
      · obtain ⟨name', value', hfield', -⟩ := hothers other hother
        exact ⟨name', value', hfield'⟩
      · obtain ⟨name'', value'', hfield'', hother''⟩ := hothers other hother
        rw [hfield'.unique hfield'' |>.1]
        exact hother''

theorem headerLine_some {length : ℕ} {contentLength : Option ℕ} {line : Bytes} (hline : 10 ∉ line) :
    headerLine (some length) line = .ok contentLength ↔
      OtherField line ∧ contentLength = some length := by
  rw [headerLine_ok hline]
  constructor
  · rintro ⟨name, value, hfield, ⟨hother, rfl⟩ | ⟨-, hnone, -⟩⟩
    · exact ⟨⟨name, value, hfield, hother⟩, rfl⟩
    · cases hnone
  · rintro ⟨⟨name, value, hfield, hother⟩, rfl⟩
    exact ⟨name, value, hfield, Or.inl ⟨hother, rfl⟩⟩

theorem foldlM_headerLine_some {length : ℕ} {contentLength : Option ℕ} {lines : List Bytes}
    (hlines : ∀ line ∈ lines, 10 ∉ line) :
    lines.foldlM headerLine (some length) = .ok contentLength ↔
      (∀ line ∈ lines, OtherField line) ∧ contentLength = some length := by
  induction lines with
  | nil =>
    rw [List.foldlM_nil]
    exact ⟨fun h => by cases h; exact ⟨fun _ h => absurd h List.not_mem_nil, rfl⟩, fun h => by rw [h.2]; rfl⟩
  | cons line lines ih =>
    rw [List.foldlM_cons, List.forall_mem_cons, and_assoc,
      ← ih fun line hline => hlines line (List.mem_cons_of_mem _ hline)]
    have hhead := fun contentLength =>
      @headerLine_some length contentLength line (hlines line List.mem_cons_self)
    cases hresult : headerLine (some length) line with
    | error error =>
      constructor
      · intro h
        cases h
      · rintro ⟨hother, -⟩
        cases hresult.symm.trans ((hhead (some length)).mpr ⟨hother, rfl⟩)
    | ok next =>
      obtain ⟨hother, rfl⟩ := (hhead next).mp hresult
      exact ⟨fun h => ⟨hother, h⟩, fun h => h.2⟩

/-- The lines leave a length exactly when they are a block that announces it. -/
theorem foldlM_headerLine_none {length : ℕ} {lines : List Bytes} (hlines : ∀ line ∈ lines, 10 ∉ line) :
    lines.foldlM headerLine none = .ok (some length) ↔
      HeaderBlock lines length ∧ length ≤ maxMessageBytes := by
  induction lines with
  | nil =>
    rw [List.foldlM_nil]
    constructor
    · intro h
      cases h
    · rintro ⟨⟨-, before, line, after, name, value, hsplit, -⟩, -⟩
      exact absurd hsplit.symm (List.append_ne_nil_of_right_ne_nil _ (List.cons_ne_nil _ _))
  | cons line lines ih =>
    have hrest : ∀ line ∈ lines, 10 ∉ line := fun line hline => hlines line (List.mem_cons_of_mem _ hline)
    have hhead := fun contentLength =>
      @headerLine_ok none contentLength line (hlines line List.mem_cons_self)
    rw [List.foldlM_cons, headerBlock_cons]
    constructor
    · intro h
      cases hresult : headerLine none line with
      | error error =>
        rw [hresult] at h
        cases h
      | ok next =>
        rw [hresult] at h
        change lines.foldlM headerLine next = _ at h
        obtain ⟨name, value, hfield, ⟨hother, rfl⟩ | ⟨hlength, -, length', hlimit, hannounces, rfl⟩⟩ :=
          (hhead next).mp hresult
        · obtain ⟨hblock, hlimit⟩ := (ih hrest).mp h
          exact ⟨Or.inl ⟨⟨name, value, hfield, hother⟩, hblock⟩, hlimit⟩
        · obtain ⟨hothers, hequal⟩ := (foldlM_headerLine_some hrest).mp h
          cases hequal
          exact ⟨Or.inr ⟨name, value, hfield, hlength, hannounces, hothers⟩, hlimit⟩
    · rintro ⟨⟨⟨name, value, hfield, hother⟩, hblock⟩ | ⟨name, value, hfield, hlength, hannounces, hothers⟩,
        hlimit⟩
      · rw [(hhead none).mpr ⟨name, value, hfield, Or.inl ⟨hother, rfl⟩⟩]
        exact (ih hrest).mpr ⟨hblock, hlimit⟩
      · rw [(hhead (some length)).mpr ⟨name, value, hfield, Or.inr ⟨hlength, rfl, length, hlimit, hannounces, rfl⟩⟩]
        exact (foldlM_headerLine_some hrest).mpr ⟨hothers, rfl⟩

end Blocks

/-! ### Reading the header -/

section Reading

/-- What a block is made of: lines that are not empty and have no newline. -/
def TextLine (line : Bytes) : Prop := line ≠ [] ∧ 10 ∉ line

theorem HeaderBlock.textLine {lines : List Bytes} {length : ℕ} (h : HeaderBlock lines length) :
    ∀ line ∈ lines, TextLine line := by
  intro line hline
  obtain ⟨name, value, hfield⟩ := h.fields line hline
  exact ⟨hfield.ne_nil, fun hmem => (hfield.bytes _ hmem).2 rfl⟩

theorem wire_nil_append (rest : Bytes) : wire [] ++ rest = [13] ++ 10 :: rest := rfl

theorem wire_cons_append (line : Bytes) (lines : List Bytes) (rest : Bytes) :
    wire (line :: lines) ++ rest = (line ++ [13]) ++ 10 :: (wire lines ++ rest) := by
  simp [wire]

theorem length_wire_cons (line : Bytes) (lines : List Bytes) :
    (wire (line :: lines)).length = line.length + 2 + (wire lines).length := by
  simp [wire]
  omega

theorem newline_notMem_concat {line : Bytes} (h : 10 ∉ line) : (10 : UInt8) ∉ line ++ [13] := by
  rw [List.mem_append, List.mem_singleton]
  exact not_or.mpr ⟨h, by decide⟩

/-- Every block holds the first line and its newline. -/
theorem first_line_le_wire {lines : List Bytes} {text rest tail : Bytes}
    (hlines : ∀ line ∈ lines, TextLine line) (htext : 10 ∉ text)
    (h : wire lines ++ tail = text ++ 10 :: rest) : text.length + 1 ≤ (wire lines).length := by
  cases lines with
  | nil =>
    rw [wire_nil_append] at h
    obtain ⟨rfl, -⟩ := separator_unique h (by decide) htext
    exact le_rfl
  | cons line lines =>
    rw [wire_cons_append] at h
    obtain ⟨rfl, -⟩ := separator_unique h (newline_notMem_concat (hlines line List.mem_cons_self).2) htext
    rw [length_wire_cons, List.length_append, List.length_singleton]
    omega

/-- A block behind a line of its own starts with that line. -/
theorem wire_of_line {lines : List Bytes} {line rest tail : Bytes} (hlines : ∀ line ∈ lines, TextLine line)
    (hline : TextLine line) (h : wire lines ++ tail = (line ++ [13]) ++ 10 :: rest) :
    ∃ lines', lines = line :: lines' ∧ wire lines' ++ tail = rest := by
  have hnewline := newline_notMem_concat hline.2
  cases lines with
  | nil =>
    rw [wire_nil_append] at h
    obtain ⟨hequal, -⟩ := separator_unique h (by decide) hnewline
    exact absurd (List.append_cancel_right hequal).symm hline.1
  | cons first lines =>
    rw [wire_cons_append] at h
    obtain ⟨hequal, htail⟩ := separator_unique h (newline_notMem_concat (hlines first List.mem_cons_self).2) hnewline
    obtain rfl := List.append_cancel_right hequal
    exact ⟨lines, rfl, htail⟩

/-- What the loop over the header lines does: it reads a block, finds the end of the input, or
fails inside the first block. -/
inductive HeadersOutcome (contentLength : Option ℕ) (headerBytes : ℕ) (input : Input) :
    Except FrameError (Option (Option ℕ)) × Input → Prop
  | block {lines : List Bytes} {contentLength' : Option ℕ} {final : Input}
      (hunread : input.unread = wire lines ++ final.unread) (hlines : ∀ line ∈ lines, TextLine line)
      (hfields : lines.foldlM headerLine contentLength = .ok contentLength')
      (hlimit : headerBytes + (wire lines).length ≤ maxHeaderBytes) :
      HeadersOutcome contentLength headerBytes input (.ok (some contentLength'), final)
  | finished {final : Input} (hunread : input.unread = []) (hfinal : final.unread = [])
      (hbytes : headerBytes = 0) : HeadersOutcome contentLength headerBytes input (.ok none, final)
  | failed {header : Bytes} {error : FrameError} {final : Input}
      (hunread : input.unread = header ++ final.unread)
      (hlimit : header ≠ [] → headerBytes + header.length ≤ maxHeaderBytes)
      (hblock : ∀ lines tail, (∀ line ∈ lines, TextLine line) → wire lines ++ tail = input.unread →
        header.length ≤ (wire lines).length) :
      HeadersOutcome contentLength headerBytes input (.error error, final)

theorem HeadersOutcome.behind {contentLength contentLength' : Option ℕ} {headerBytes : ℕ} {line : Bytes}
    {input next : Input} {result : Except FrameError (Option (Option ℕ)) × Input}
    (h : HeadersOutcome contentLength' (headerBytes + (line.length + 2)) next result)
    (hunread : input.unread = (line ++ [13]) ++ 10 :: next.unread) (hline : TextLine line)
    (hfield : headerLine contentLength line = .ok contentLength')
    (hlimit : headerBytes + (line.length + 2) ≤ maxHeaderBytes) :
    HeadersOutcome contentLength headerBytes input result := by
  cases h with
  | @block lines contentLength'' final hnext hlines hfields hlimit' =>
    refine @HeadersOutcome.block contentLength headerBytes input (line :: lines) _ _ ?_ (List.forall_mem_cons.mpr ⟨hline, hlines⟩) ?_ ?_
    · rw [hunread, hnext, wire_cons_append]
    · rw [List.foldlM_cons, hfield]
      exact hfields
    · rw [length_wire_cons]
      omega
  | finished _ _ hbytes => omega
  | @failed header error final hnext hlimit' hblock =>
    refine @HeadersOutcome.failed contentLength headerBytes input (line ++ [13, 10] ++ header) _ _ ?_ ?_ ?_
    · rw [hunread, hnext]
      simp
    · intro _
      rw [List.length_append, List.length_append]
      by_cases hempty : header = []
      · rw [hempty]
        exact hlimit
      · have := hlimit' hempty
        simp only [List.length_cons, List.length_nil]
        omega
    · intro lines tail hlines hwire
      rw [hunread] at hwire
      obtain ⟨lines, rfl, hrest⟩ := wire_of_line hlines hline hwire
      have := hblock lines tail (fun line h => hlines line (List.mem_cons_of_mem _ h)) hrest
      rw [length_wire_cons]
      simp only [List.length_append, List.length_cons, List.length_nil]
      omega

theorem crlf_suffix (line : Bytes) : [13, 10] <:+ (line ++ [13]) ++ [10] :=
  ⟨line, by rw [List.append_assoc]; rfl⟩

theorem take_crlf (line : Bytes) :
    ((line ++ [13]) ++ [10]).take (((line ++ [13]) ++ [10]).length - 2) = line := by
  rw [List.append_assoc, List.length_append]
  exact List.take_left

theorem length_crlf (line : Bytes) : ((line ++ [13]) ++ [10]).length = line.length + 2 := by simp

/-- Bytes without a newline are inside the first block. -/
theorem length_le_wire {lines : List Bytes} {text rest tail : Bytes} (htext : 10 ∉ text)
    (h : wire lines ++ tail = text ++ rest) : text.length ≤ (wire lines).length := by
  by_contra hlong
  have hfront : wire lines <+: text :=
    List.prefix_of_prefix_length_le ⟨tail, h⟩ (List.prefix_append _ _) (by omega)
  refine htext (hfront.subset ?_)
  rw [wire, List.mem_append]
  exact Or.inr (by simp)

theorem readHeadersFrom_outcome (contentLength : Option ℕ) (headerBytes : ℕ) (input : Input) :
    HeadersOutcome contentLength headerBytes input (readHeadersFrom contentLength headerBytes input) := by
  induction hn : input.unread.length using Nat.strongRecOn generalizing contentLength headerBytes input with
  | ind n ih =>
    have houtcome := readLineFrom_outcome headerBytes [] input
    rw [readHeadersFrom]
    split
    · next error next hread =>
      rw [readHeaderLine] at hread
      rw [hread] at houtcome
      cases houtcome with
      | @failed text _ _ hunread htext hlimit _ _ =>
        refine .failed hunread (fun hne => hlimit hne) fun lines tail _ hwire => ?_
        exact length_le_wire htext (hwire.trans hunread)
    · next next hread =>
      rw [readHeaderLine] at hread
      rw [hread] at houtcome
      cases houtcome with
      | finished _ hunread hfinal _ =>
        by_cases hbytes : headerBytes = 0
        · rw [if_pos hbytes]
          exact .finished hunread hfinal hbytes
        · rw [if_neg hbytes]
          exact @HeadersOutcome.failed contentLength headerBytes input [] _ _ (by rw [hunread, hfinal]; rfl) (fun hne => absurd rfl hne)
            (fun _ _ _ _ => Nat.zero_le _)
    next line next hread =>
    have hshorter := readHeaderLine_shorter hread
    rw [readHeaderLine] at hread
    rw [hread] at houtcome
    cases houtcome with
    | @line text rest _ hunread htext hfinal hlimit _ =>
      rw [List.nil_append]
      rw [List.length_nil, Nat.add_zero] at hlimit
      subst hfinal
      -- A failure at this line consumes the line, which every block holds.
      have hfailed : ∀ error, HeadersOutcome contentLength headerBytes input (.error error, next) := by
        intro error
        refine @HeadersOutcome.failed contentLength headerBytes input (text ++ [10]) _ _ (by rw [hunread]; simp) ?_ ?_
        · intro _
          rw [List.length_append, List.length_singleton]
          omega
        · intro lines tail hlines hwire
          rw [List.length_append, List.length_singleton]
          exact first_line_le_wire hlines htext (hwire.trans hunread)
      by_cases hending : [13, 10] <:+ text ++ [10]
      swap
      · rw [if_pos hending]
        exact hfailed _
      obtain ⟨line, hline⟩ := hending
      obtain rfl : line ++ [13] = text := by
        refine @List.append_cancel_right _ _ [10] _ ?_
        rw [List.append_assoc]
        exact hline
      rw [if_neg (not_not.mpr (crlf_suffix line)), take_crlf]
      dsimp only
      rw [List.length_append, List.length_singleton] at hlimit
      by_cases hempty : line = []
      · subst hempty
        rw [if_pos rfl]
        exact @HeadersOutcome.block contentLength headerBytes input [] _ _ hunread (fun _ h => absurd h List.not_mem_nil) rfl hlimit
      rw [if_neg hempty]
      cases hfield : headerLine contentLength line with
      | error error => exact hfailed error
      | ok contentLength' =>
        have htextLine : TextLine line := ⟨hempty, fun h => htext (List.mem_append_left _ h)⟩
        dsimp only
        rw [length_crlf]
        refine HeadersOutcome.behind (ih _ (hn ▸ hshorter) contentLength' _ next rfl) hunread htextLine
          hfield ?_
        omega

theorem readHeadersFrom_end {contentLength : Option ℕ} {headerBytes : ℕ} {input next : Input}
    (hread : readHeaderLine headerBytes input = (.ok (some (([] ++ [13]) ++ [10])), next)) :
    readHeadersFrom contentLength headerBytes input = (.ok (some contentLength), next) := by
  rw [readHeadersFrom]
  split
  · next hread' => cases hread.symm.trans hread'
  · next hread' => cases hread.symm.trans hread'
  next hread' =>
  cases hread.symm.trans hread'
  rw [if_neg (not_not.mpr (crlf_suffix []))]
  exact if_pos rfl

theorem readHeadersFrom_field {contentLength contentLength' : Option ℕ} {headerBytes : ℕ} {line : Bytes}
    {input next : Input}
    (hread : readHeaderLine headerBytes input = (.ok (some ((line ++ [13]) ++ [10])), next))
    (hline : line ≠ []) (hfield : headerLine contentLength line = .ok contentLength') :
    readHeadersFrom contentLength headerBytes input =
      readHeadersFrom contentLength' (headerBytes + (line.length + 2)) next := by
  rw [readHeadersFrom]
  split
  · next hread' => cases hread.symm.trans hread'
  · next hread' => cases hread.symm.trans hread'
  next hread' =>
  cases hread.symm.trans hread'
  rw [if_neg (not_not.mpr (crlf_suffix line)), take_crlf]
  dsimp only
  rw [if_neg hline, hfield, length_crlf]

/-- A block within the limit is read when no call fails. -/
theorem readHeadersFrom_block {contentLength contentLength' : Option ℕ} {headerBytes : ℕ}
    {lines : List Bytes} {input : Input} {rest : Bytes} (hfaultless : Faultless input)
    (hunread : input.unread = wire lines ++ rest) (hlines : ∀ line ∈ lines, TextLine line)
    (hfields : lines.foldlM headerLine contentLength = .ok contentLength')
    (hlimit : headerBytes + (wire lines).length ≤ maxHeaderBytes) :
    ∃ final, readHeadersFrom contentLength headerBytes input = (.ok (some contentLength'), final) ∧
      final.unread = rest ∧ Later input final := by
  induction lines generalizing contentLength headerBytes input with
  | nil =>
    rw [wire_nil_append] at hunread
    obtain ⟨final, hread, hrest, hlater⟩ := readHeaderLine_of_line headerBytes hfaultless hunread (by decide) hlimit
    cases hfields
    exact ⟨final, readHeadersFrom_end hread, hrest, hlater⟩
  | cons line lines ih =>
    obtain ⟨hline, hlines⟩ := List.forall_mem_cons.mp hlines
    rw [wire_cons_append] at hunread
    rw [length_wire_cons] at hlimit
    obtain ⟨next, hread, hrest, hlater⟩ := readHeaderLine_of_line headerBytes hfaultless
      hunread (newline_notMem_concat hline.2) (by rw [List.length_append, List.length_singleton]; omega)
    rw [List.foldlM_cons] at hfields
    cases hfield : headerLine contentLength line with
    | error error =>
      rw [hfield] at hfields
      cases hfields
    | ok contentLength'' =>
      rw [hfield] at hfields
      obtain ⟨final, hread', hrest', hlater'⟩ := @ih contentLength'' (headerBytes + (line.length + 2)) next
        (hfaultless.later hlater) hrest hlines hfields (by omega)
      refine ⟨final, ?_, hrest', hlater.trans hlater'⟩
      rw [readHeadersFrom_field hread hline.1 hfield, hread']

/-- What one call does with any input. -/
inductive ReadOutcome (input : Input) : Except FrameError (Option Bytes) × Input → Prop
  | frame {lines : List Bytes} {body : Bytes} {final : Input}
      (hunread : input.unread = wire lines ++ body ++ final.unread)
      (hblock : HeaderBlock lines body.length) (hbody : Utf8.Valid body)
      (hheader : (wire lines).length ≤ maxHeaderBytes) (hlength : body.length ≤ maxMessageBytes) :
      ReadOutcome input (.ok (some body), final)
  | closed {final : Input} (hunread : input.unread = []) (hfinal : final.unread = []) :
      ReadOutcome input (.ok none, final)
  | header {header : Bytes} {error : FrameError} {final : Input}
      (hunread : input.unread = header ++ final.unread) (hheader : header.length ≤ maxHeaderBytes)
      (hinside : ∀ lines tail, (∀ line ∈ lines, TextLine line) → wire lines ++ tail = input.unread →
        header.length ≤ (wire lines).length) : ReadOutcome input (.error error, final)
  | body {lines : List Bytes} {length : ℕ} {part : Bytes} {error : FrameError} {final : Input}
      (hunread : input.unread = wire lines ++ part ++ final.unread) (hblock : HeaderBlock lines length)
      (hheader : (wire lines).length ≤ maxHeaderBytes) (hlength : length ≤ maxMessageBytes)
      (hpart : part.length ≤ length) : ReadOutcome input (.error error, final)

/-- A block in front of the input is the block that every reading of the input has. -/
theorem wire_unique {lines lines' : List Bytes} {tail tail' : Bytes} (hlines : ∀ line ∈ lines, TextLine line)
    (hlines' : ∀ line ∈ lines', TextLine line) (h : wire lines ++ tail = wire lines' ++ tail') :
    lines = lines' ∧ tail = tail' := by
  induction lines' generalizing lines with
  | nil =>
    cases lines with
    | nil => exact ⟨rfl, List.append_cancel_left h⟩
    | cons line lines =>
      rw [wire_cons_append, wire_nil_append] at h
      obtain ⟨hline, -⟩ := separator_unique h
        (newline_notMem_concat (hlines line List.mem_cons_self).2) (by decide)
      exact absurd (@List.append_cancel_right _ [] _ _ hline.symm).symm (hlines line List.mem_cons_self).1
  | cons line' lines' ih =>
    rw [wire_cons_append line'] at h
    obtain ⟨rest, rfl, htail⟩ := wire_of_line hlines (hlines' line' List.mem_cons_self) h
    obtain ⟨rfl, rfl⟩ := ih (fun line hline => hlines line (List.mem_cons_of_mem _ hline))
      (fun line hline => hlines' line (List.mem_cons_of_mem _ hline)) htail
    exact ⟨rfl, rfl⟩

theorem readExact_outcome (input : Input) (length : ℕ) :
    ∃ part, input.unread = part ++ (input.readExact length).2.unread ∧ part.length ≤ length ∧
      ∀ body, (input.readExact length).1 = .ok body → body = part ∧ part.length = length := by
  unfold Input.readExact
  split
  · next count hfetch =>
    refine ⟨input.unread.take (min count length), (List.take_append_drop _ _).symm, ?_, fun body h => ?_⟩
    · rw [List.length_take]
      omega
    · cases h
  split
  · refine ⟨input.unread.take length, (List.take_append_drop _ _).symm, List.length_take_le _ _,
      fun body h => ?_⟩
    cases h
  · next hlong =>
    refine ⟨input.unread.take length, (List.take_append_drop _ _).symm, List.length_take_le _ _,
      fun body h => ?_⟩
    cases h
    exact ⟨rfl, List.length_take_of_le (Nat.not_lt.mp hlong)⟩

theorem read_outcome (input : Input) : ReadOutcome input (read input) := by
  have houtcome := readHeadersFrom_outcome none 0 input
  unfold read
  split
  · next error next hread =>
    rw [hread] at houtcome
    cases houtcome with
    | @failed header _ _ hunread hlimit hblock =>
      refine .header hunread ?_ hblock
      by_cases hempty : header = []
      · rw [hempty]
        exact Nat.zero_le _
      · rw [← Nat.zero_add header.length]
        exact hlimit hempty
  · next next hread =>
    rw [hread] at houtcome
    cases houtcome with
    | finished hunread hfinal _ => exact .closed hunread hfinal
  · next next hread =>
    rw [hread] at houtcome
    cases houtcome with
    | @block lines _ _ hunread hlines hfields hlimit =>
      rw [Nat.zero_add] at hlimit
      refine .header hunread hlimit fun lines' tail hlines' hwire => ?_
      rw [(wire_unique hlines' hlines (hwire.trans hunread)).1]
  next length next hread =>
  rw [hread] at houtcome
  cases houtcome with
  | @block lines _ _ hunread hlines hfields hlimit =>
    rw [Nat.zero_add] at hlimit
    obtain ⟨hblock, hmax⟩ := (foldlM_headerLine_none fun line hline => (hlines line hline).2).mp hfields
    obtain ⟨part, hnext, hpart, hok⟩ := readExact_outcome next length
    rw [hnext, ← List.append_assoc] at hunread
    split
    · next error final hexact =>
      rw [hexact] at hunread
      exact .body hunread hblock hlimit hmax hpart
    next body final hexact =>
    rw [hexact] at hunread hok
    obtain ⟨rfl, rfl⟩ := hok body rfl
    by_cases hvalid : isValidUtf8 body = true
    · rw [if_pos hvalid]
      exact .frame hunread hblock (isValidUtf8_iff.mp hvalid) hlimit hmax
    · rw [if_neg hvalid]
      exact .body hunread hblock hlimit hmax le_rfl

/-- A frame within the limits is accepted when no call fails, and the next call starts behind it. -/
theorem read_frame {lines : List Bytes} {body rest : Bytes} {input : Input} (hfaultless : Faultless input)
    (hunread : input.unread = wire lines ++ (body ++ rest)) (hblock : HeaderBlock lines body.length)
    (hbody : Utf8.Valid body) (hheader : (wire lines).length ≤ maxHeaderBytes)
    (hlength : body.length ≤ maxMessageBytes) :
    ∃ final, read input = (.ok (some body), final) ∧ final.unread = rest ∧ Faultless final := by
  have hlines := hblock.textLine
  obtain ⟨next, hread, hnext, hlater⟩ := @readHeadersFrom_block none _ 0 lines input _ hfaultless hunread
    hlines ((foldlM_headerLine_none fun line hline => (hlines line hline).2).mpr ⟨hblock, hlength⟩)
    (by rw [Nat.zero_add]; exact hheader)
  obtain ⟨more, hmore⟩ := hfaultless.later hlater 0
  refine ⟨next.called.consume body.length, ?_, ?_, ?_⟩
  · unfold read
    rw [hread]
    dsimp only
    have hexact : next.readExact body.length = (.ok body, next.called.consume body.length) := by
      rw [Input.readExact, hmore, hnext]
      dsimp only
      rw [if_neg (by rw [List.length_append]; omega), List.take_left]
    rw [hexact]
    dsimp only
    rw [if_pos (isValidUtf8_iff.mpr hbody)]
  · rw [Input.consume_unread, Input.called_unread, hnext, List.drop_left]
  · exact (hfaultless.later hlater).later ((later_called next).trans (later_consume _ _))

end Reading

/-! ### A run over written frames -/

section Runs

theorem not_isAsciiWhitespace {byte : UInt8} (h : isAsciiDigit byte = true) :
    ¬isAsciiWhitespace byte = true := by
  simp only [isAsciiDigit, isAsciiWhitespace, Bool.or_eq_true, Bool.and_eq_true, decide_eq_true_iff,
    UInt8.le_iff_toNat_le, ← UInt8.toNat_inj, UInt8.reduceToNat] at h ⊢
  omega

theorem trim_blank_decimalText (n : ℕ) : trim (32 :: decimalText n) = decimalText n := by
  have hdigits := isAsciiDigit_decimalText n
  unfold trim
  have hfront : (32 :: decimalText n).dropWhile isAsciiWhitespace = decimalText n := by
    rw [List.dropWhile_cons_of_pos (by decide), List.dropWhile_eq_self_iff]
    exact fun hpos => not_isAsciiWhitespace (hdigits _ (List.getElem_mem hpos))
  rw [hfront, List.rdropWhile_eq_self_iff]
  exact fun hne => not_isAsciiWhitespace (hdigits _ (List.getLast_mem hne))

/-- The line that `write_frame` writes. -/
def lengthLine (length : ℕ) : Bytes := contentLengthName ++ 58 :: 32 :: decimalText length

theorem headerBlock_lengthLine (length : ℕ) : HeaderBlock [lengthLine length] length := by
  have hfield : FieldLine (lengthLine length) contentLengthName (32 :: decimalText length) := by
    have hbytes : ∀ byte ∈ contentLengthName, isNameByte byte = true := by
      simp [contentLengthName, isNameByte, isAsciiDigit]
    refine ⟨rfl, by decide, hbytes, List.forall_mem_cons.mpr ⟨by decide, fun byte hbyte => ?_⟩⟩
    have hname := @lt_of_isNameByte byte (by
      rw [isNameByte, isAsciiDigit_decimalText length byte hbyte, Bool.or_true, Bool.true_or])
    exact ⟨hname.1, hname.2.2⟩
  have hannounces : Announces (32 :: decimalText length) length := by
    rw [Announces, trim_blank_decimalText]
    refine ⟨fun hnil => ?_, isAsciiDigit_decimalText length, decimal_decimalText length⟩
    exact numeral_ne_nil 10 length (List.map_eq_nil_iff.mp hnil)
  rw [headerBlock_cons]
  exact Or.inr ⟨contentLengthName, _, hfield, rfl, hannounces, fun other h => absurd h List.not_mem_nil⟩

theorem writeFrame_eq (body : Bytes) : writeFrame body = wire [lengthLine body.length] ++ body := by
  simp [writeFrame, wire, lengthLine]

theorem length_wire_lengthLine {length : ℕ} (h : length ≤ maxMessageBytes) :
    (wire [lengthLine length]).length ≤ maxHeaderBytes := by
  have hdigits : (numeral 10 length).length ≤ 8 :=
    numeral_length_le (by decide) (by decide) (h.trans_lt (by decide))
  have hwire : (wire [lengthLine length]).length = 20 + (numeral 10 length).length := by
    simp [wire, lengthLine, contentLengthName, decimalText]
    omega
  have hmax : 28 ≤ maxHeaderBytes := by decide
  omega

/-- Repeated calls hand out the bodies in order and then the end of the input. -/
inductive Delivers : Input → List Bytes → Prop
  | closed {input final : Input} (hread : read input = (.ok none, final)) : Delivers input []
  | frame {input next : Input} {body : Bytes} {bodies : List Bytes}
      (hread : read input = (.ok (some body), next)) (hrest : Delivers next bodies) :
      Delivers input (body :: bodies)

theorem read_end {input : Input} (hfaultless : Faultless input) (hunread : input.unread = []) :
    ∃ final, read input = (.ok none, final) := by
  obtain ⟨final, hread, -, -⟩ := readHeaderLine_of_end 0 hfaultless hunread
  have hheaders : readHeadersFrom none 0 input = (.ok none, final) := by
    rw [readHeadersFrom]
    split
    · next hread' => cases hread.symm.trans hread'
    · next hread' =>
      cases hread.symm.trans hread'
      rw [if_pos rfl]
    · next hread' => cases hread.symm.trans hread'
  refine ⟨final, ?_⟩
  unfold read
  rw [hheaders]

theorem delivers_written {bodies : List Bytes} {input : Input}
    (hbodies : ∀ body ∈ bodies, Utf8.Valid body ∧ body.length ≤ maxMessageBytes)
    (hfaultless : Faultless input) (hunread : input.unread = (bodies.map writeFrame).flatten) :
    Delivers input bodies := by
  induction bodies generalizing input with
  | nil =>
    obtain ⟨final, hread⟩ := read_end hfaultless hunread
    exact .closed hread
  | cons body bodies ih =>
    obtain ⟨⟨hvalid, hlength⟩, hbodies⟩ := List.forall_mem_cons.mp hbodies
    rw [List.map_cons, List.flatten_cons, writeFrame_eq, List.append_assoc] at hunread
    obtain ⟨next, hread, hnext, hfaultless⟩ := read_frame hfaultless hunread
      (headerBlock_lengthLine body.length) hvalid (length_wire_lengthLine hlength) hlength
    exact .frame hread (ih hbodies hfaultless hnext)

/-- The bytes that one call consumes. -/
structure Consumed (input : Input) (consumed : Bytes) : Prop where
  /-- No byte of the frame behind the first one. -/
  inside_frame : ∀ lines body rest, input.unread = wire lines ++ body ++ rest →
    HeaderBlock lines body.length → consumed.length ≤ (wire lines ++ body).length
  /-- A header part within the limit that stays in the first block, and behind a block with a
  length at most that length. -/
  header_limit : ∃ header part, consumed = header ++ part ∧ header.length ≤ maxHeaderBytes ∧
    (∀ lines tail, (∀ line ∈ lines, TextLine line) → input.unread = wire lines ++ tail →
      header.length ≤ (wire lines).length) ∧
    (part ≠ [] → ∃ lines length, header = wire lines ∧ HeaderBlock lines length ∧
      part.length ≤ length ∧ length ≤ maxMessageBytes)

theorem HeaderBlock.length_unique {lines : List Bytes} {length length' : ℕ} (h : HeaderBlock lines length)
    (h' : HeaderBlock lines length') : length = length' := by
  induction lines with
  | nil =>
    obtain ⟨-, before, line, after, name, value, hsplit, -⟩ := h
    exact absurd hsplit.symm (List.append_ne_nil_of_right_ne_nil _ (List.cons_ne_nil _ _))
  | cons line lines ih =>
    rw [headerBlock_cons] at h h'
    rcases h with ⟨⟨name, value, hfield, hother⟩, hblock⟩ | ⟨name, value, hfield, hlength, hannounces, -⟩ <;>
      rcases h' with ⟨⟨name', value', hfield', hother'⟩, hblock'⟩ |
        ⟨name', value', hfield', hlength', hannounces', -⟩ <;>
      obtain ⟨rfl, rfl⟩ := hfield.unique hfield'
    · exact ih hblock hblock'
    · exact absurd hlength' hother
    · exact absurd hlength hother'
    · exact hannounces.2.2.symm.trans hannounces'.2.2

/-- What is behind a block stays in the frame as long as it is within the announced length. -/
theorem consumed_of_block {input : Input} {lines : List Bytes} {length : ℕ} {part rest : Bytes}
    (hunread : input.unread = wire lines ++ part ++ rest) (hblock : HeaderBlock lines length)
    (hheader : (wire lines).length ≤ maxHeaderBytes) (hlength : length ≤ maxMessageBytes)
    (hpart : part.length ≤ length) : Consumed input (wire lines ++ part) := by
  rw [List.append_assoc] at hunread
  refine ⟨fun lines' body tail hframe hblock' => ?_, wire lines, part, rfl, hheader,
    fun lines' tail hlines' hwire => ?_, fun _ => ⟨lines, length, rfl, hblock, hpart, hlength⟩⟩
  · rw [List.append_assoc] at hframe
    obtain ⟨rfl, -⟩ := wire_unique hblock.textLine hblock'.textLine (hunread.symm.trans hframe)
    rw [List.length_append, List.length_append, ← hblock.length_unique hblock']
    omega
  · rw [(wire_unique hblock.textLine hlines' (hunread.symm.trans hwire)).1]

theorem consumed_of_header {input : Input} {header : Bytes} (hheader : header.length ≤ maxHeaderBytes)
    (hinside : ∀ lines tail, (∀ line ∈ lines, TextLine line) → wire lines ++ tail = input.unread →
      header.length ≤ (wire lines).length) : Consumed input header := by
  refine ⟨fun lines body rest hframe hblock => ?_, header, [], (List.append_nil _).symm, hheader,
    fun lines tail hlines hwire => hinside lines tail hlines hwire.symm, fun hne => absurd rfl hne⟩
  rw [List.append_assoc] at hframe
  rw [List.length_append]
  exact Nat.le_add_right_of_le (hinside lines _ hblock.textLine hframe.symm)

theorem ReadOutcome.consumed {input : Input} {result : Except FrameError (Option Bytes) × Input}
    (h : ReadOutcome input result) :
    ∃ consumed, input.unread = consumed ++ result.2.unread ∧ Consumed input consumed := by
  cases h with
  | frame hunread hblock hbody hheader hlength =>
    exact ⟨_, hunread, consumed_of_block hunread hblock hheader hlength le_rfl⟩
  | closed hunread hfinal =>
    exact ⟨[], by rw [hunread, hfinal]; rfl, consumed_of_header (Nat.zero_le _) fun _ _ _ _ => Nat.zero_le _⟩
  | header hunread hheader hinside => exact ⟨_, hunread, consumed_of_header hheader hinside⟩
  | body hunread hblock hheader hlength hpart =>
    exact ⟨_, hunread, consumed_of_block hunread hblock hheader hlength hpart⟩

/-- The bytes of written frames come back as their bodies, whatever the reader buffers; and on
any input a call consumes bytes of one frame only and accepts only a complete frame. -/
theorem frames_synchronised (input : Input) :
    (∀ bodies, (∀ body ∈ bodies, Utf8.Valid body ∧ body.length ≤ maxMessageBytes) → Faultless input →
      input.unread = (bodies.map writeFrame).flatten → Delivers input bodies) ∧
    (∃ consumed, input.unread = consumed ++ (read input).2.unread ∧ Consumed input consumed) ∧
    (∀ body, (read input).1 = .ok (some body) → ∃ lines,
      input.unread = wire lines ++ body ++ (read input).2.unread ∧ HeaderBlock lines body.length ∧
      Utf8.Valid body ∧ (wire lines).length ≤ maxHeaderBytes ∧ body.length ≤ maxMessageBytes) := by
  refine ⟨fun bodies hbodies hfaultless hunread => delivers_written hbodies hfaultless hunread,
    (read_outcome input).consumed, fun body hok => ?_⟩
  have houtcome := read_outcome input
  generalize read input = result at houtcome hok
  cases houtcome with
  | @frame lines body' _ hunread hblock hbody hheader hlength =>
    cases hok
    exact ⟨lines, hunread, hblock, hbody, hheader, hlength⟩
  | closed _ _ => cases hok
  | header _ _ _ => cases hok
  | body _ _ _ _ _ => cases hok

/-- Two bodies through a buffer of one byte. -/
theorem frames_synchronised_two : Delivers
    { unread := ([[123, 125], [110, 117, 108, 108]].map writeFrame).flatten,
      fetches := fun _ => .available 0 } [[123, 125], [110, 117, 108, 108]] := by
  refine (frames_synchronised _).1 _ ?_ (fun _ => ⟨0, rfl⟩) rfl
  have hascii : ∀ body ∈ [[123, 125], [110, 117, 108, (108 : UInt8)]], ∀ byte ∈ body, byte < 128 := by
    simp
  have hshort : ∀ body ∈ [[123, 125], [110, 117, 108, (108 : UInt8)]], body.length ≤ 4 := by decide
  have hmax : 4 ≤ maxMessageBytes := by decide
  exact fun body hbody => ⟨.ascii (hascii body hbody), (hshort body hbody).trans hmax⟩

end Runs

end Nocter.Lsp
