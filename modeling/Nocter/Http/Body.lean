import Mathlib.Data.List.Basic
import Mathlib.Data.List.DropRight
import Nocter.Library.Loop

/-!
# Wire syntax

Bytes, failures and limits of HTTP/1.1 messages, and the scanner of lines that
end in CR LF. A loop of the source over `input[offset]` is a recursion on the
bytes of the input from `offset` on.
-/

namespace Nocter.Http

abbrev Bytes := List UInt8

structure HttpError where
  code : String
  message : String
  deriving DecidableEq

def bodyCursorFailed : HttpError :=
  ⟨"std.http.body_failed", "HTTP body input has already failed"⟩

def invalidSyntax : HttpError :=
  ⟨"std.http.invalid_syntax", "HTTP/1.1 message syntax is invalid"⟩

def syntaxLimit : HttpError :=
  ⟨"std.http.syntax_limit", "HTTP syntax exceeds the configured limit"⟩

def bodyLimit : HttpError :=
  ⟨"std.http.body_limit", "HTTP body exceeds the configured limit"⟩

def ambiguousFraming : HttpError :=
  ⟨"std.http.ambiguous_framing", "HTTP message has ambiguous body framing"⟩

def prematureEof : HttpError :=
  ⟨"std.http.premature_eof", "HTTP message ended before its framing completed"⟩

structure Limits where
  startLineBytes : ℕ
  headerBytes : ℕ
  headerCount : ℕ
  informationalResponses : ℕ
  fieldBytes : ℕ
  chunkLineBytes : ℕ
  bodyBytes : ℕ
  deriving DecidableEq

def Limits.standard : Limits where
  startLineBytes := 8192
  headerBytes := 65536
  headerCount := 128
  informationalResponses := 16
  fieldBytes := 8192
  chunkLineBytes := 1024
  bodyBytes := 67108864

def isTokenByte (value : UInt8) : Bool :=
  if 48 ≤ value ∧ value ≤ 57 then true
  else if 65 ≤ value ∧ value ≤ 90 then true
  else if 97 ≤ value ∧ value ≤ 122 then true
  else
    value = 33 || value = 35 || value = 36 || value = 37 || value = 38 || value = 39 ||
    value = 42 || value = 43 || value = 45 || value = 46 || value = 94 || value = 95 ||
    value = 96 || value = 124 || value = 126

def asciiLower (value : UInt8) : UInt8 :=
  if 65 ≤ value ∧ value ≤ 90 then value + 32 else value

def validHeaderValueByte (value : UInt8) : Bool :=
  if value = 9 then true else if 32 ≤ value ∧ value ≠ 127 then true else false

/-- `bytes[start..end]`. -/
def slice (input : Bytes) (start stop : ℕ) : Bytes := (input.drop start).take (stop - start)

/-- `range_ascii_equal` and `ascii_case_equal` on the bytes that they compare. -/
def asciiEqual (bytes expected : Bytes) : Bool :=
  bytes.map asciiLower = expected.map asciiLower

/-- The bytes of an ASCII literal. -/
def text (literal : String) : Bytes := literal.toList.map fun c => UInt8.ofNat c.toNat

/-- The bytes 32 and 9. -/
def isBlank (value : UInt8) : Bool := value = 32 || value = 9

inductive LineScan where
  | incomplete
  | ready (stop : ℕ)
  | malformed
  | tooLong
  deriving DecidableEq

inductive LineAdvance where
  | incomplete (next : ℕ)
  | ready (stop : ℕ)
  | malformed
  | tooLong
  deriving DecidableEq

/-- The decision of `advance_line` at a CR, on the bytes behind it. -/
def afterCarriageReturn (offset : ℕ) : Bytes → LineAdvance
  | [] => .incomplete offset
  | following :: _ => if following ≠ 10 then .malformed else .ready offset

/-- The loop of `advance_line`, with the bytes of the input from `offset` on. -/
def advanceLineLoop (start limit : ℕ) : ℕ → Bytes → LineAdvance
  | offset, [] => if offset - start > limit then .tooLong else .incomplete offset
  | offset, value :: rest =>
    if offset - start > limit then .tooLong
    else if value = 10 then .malformed
    else if value = 13 then afterCarriageReturn offset rest
    else advanceLineLoop start limit (offset + 1) rest

def advanceLine (input : Bytes) (start next limit : ℕ) : LineAdvance :=
  if start > input.length ∨ next < start ∨ next > input.length then .malformed
  else advanceLineLoop start limit next (input.drop next)

def scanLine (input : Bytes) (start limit : ℕ) : LineScan :=
  match advanceLine input start start limit with
  | .incomplete _ => .incomplete
  | .ready stop => .ready stop
  | .malformed => .malformed
  | .tooLong => .tooLong

/-- The same outcome for a line that starts at another offset. -/
def LineAdvance.shift (by_ : ℕ) : LineAdvance → LineAdvance
  | .incomplete next => .incomplete (by_ + next)
  | .ready stop => .ready (by_ + stop)
  | .malformed => .malformed
  | .tooLong => .tooLong

theorem advanceLineLoop_shift (start limit : ℕ) (rest : Bytes) (offset : ℕ) :
    advanceLineLoop start limit (start + offset) rest =
      (advanceLineLoop 0 limit offset rest).shift start := by
  induction rest generalizing offset with
  | nil =>
    rw [advanceLineLoop, advanceLineLoop, Nat.add_sub_cancel_left, Nat.sub_zero]
    split <;> rfl
  | cons value rest ih =>
    rw [advanceLineLoop, advanceLineLoop, Nat.add_sub_cancel_left, Nat.sub_zero]
    split
    · rfl
    · split
      · rfl
      · split
        · cases rest with
          | nil => rfl
          | cons following rest =>
            rw [afterCarriageReturn, afterCarriageReturn]
            split <;> rfl
        · rw [Nat.add_assoc]
          exact ih (offset + 1)

/-- A line is decided by the first CR or LF in it. More input changes no decision. -/
theorem advanceLineLoop_append {start limit offset : ℕ} {rest : Bytes} (more : Bytes)
    (h : ∀ next, advanceLineLoop start limit offset rest ≠ .incomplete next) :
    advanceLineLoop start limit offset (rest ++ more) =
      advanceLineLoop start limit offset rest := by
  induction rest generalizing offset with
  | nil =>
    rw [advanceLineLoop] at h ⊢
    split at h
    · next hlimit =>
      rw [List.nil_append, if_pos hlimit]
      cases more with
      | nil => rw [advanceLineLoop, if_pos hlimit]
      | cons value more => rw [advanceLineLoop, if_pos hlimit]
    · exact absurd rfl (h offset)
  | cons value rest ih =>
    rw [List.cons_append, advanceLineLoop, advanceLineLoop]
    rw [advanceLineLoop] at h
    by_cases hlimit : offset - start > limit
    · rw [if_pos hlimit, if_pos hlimit]
    rw [if_neg hlimit] at h ⊢
    rw [if_neg hlimit]
    by_cases hlf : value = 10
    · rw [if_pos hlf, if_pos hlf]
    rw [if_neg hlf] at h ⊢
    rw [if_neg hlf]
    by_cases hcr : value = 13
    · rw [if_pos hcr] at h ⊢
      rw [if_pos hcr]
      cases rest with
      | nil => exact absurd rfl (h offset)
      | cons following rest => rfl
    · rw [if_neg hcr] at h ⊢
      rw [if_neg hcr]
      exact ih h

/-- Scanning goes on where it stopped. -/
theorem advanceLineLoop_resume {start limit offset next : ℕ} {rest : Bytes} (more : Bytes)
    (h : advanceLineLoop start limit offset rest = .incomplete next) :
    offset ≤ next ∧ next ≤ offset + rest.length ∧
      advanceLineLoop start limit next ((rest ++ more).drop (next - offset)) =
        advanceLineLoop start limit offset (rest ++ more) := by
  induction rest generalizing offset with
  | nil =>
    rw [advanceLineLoop] at h
    split at h
    · cases h
    · cases h
      rw [Nat.sub_self, List.drop_zero]
      exact ⟨Nat.le_refl _, Nat.le_refl _, rfl⟩
  | cons value rest ih =>
    rw [advanceLineLoop] at h
    by_cases hlimit : offset - start > limit
    · rw [if_pos hlimit] at h
      cases h
    rw [if_neg hlimit] at h
    by_cases hlf : value = 10
    · rw [if_pos hlf] at h
      cases h
    rw [if_neg hlf] at h
    by_cases hcr : value = 13
    · rw [if_pos hcr] at h
      cases rest with
      | nil =>
        cases h
        rw [Nat.sub_self, List.drop_zero]
        exact ⟨Nat.le_refl _, Nat.le_add_right _ _, rfl⟩
      | cons following rest =>
        rw [afterCarriageReturn] at h
        split at h <;> cases h
    · rw [if_neg hcr] at h
      obtain ⟨hle, hbound, heq⟩ := ih h
      refine ⟨by omega, by rw [List.length_cons]; omega, ?_⟩
      have hdrop : next - offset = (next - (offset + 1)) + 1 := by omega
      rw [hdrop, List.cons_append, List.drop_succ_cons, heq]
      rw [advanceLineLoop, if_neg hlimit, if_neg hlf, if_neg hcr]

/-- A complete line fits its limit and is followed by CR LF. -/
theorem advanceLineLoop_ready {start limit offset stop : ℕ} {rest : Bytes}
    (h : advanceLineLoop start limit offset rest = .ready stop) :
    ∃ line tail, rest = line ++ 13 :: 10 :: tail ∧ stop = offset + line.length ∧
      stop - start ≤ limit ∧ 10 ∉ line ∧ 13 ∉ line := by
  induction rest generalizing offset with
  | nil =>
    rw [advanceLineLoop] at h
    split at h <;> cases h
  | cons value rest ih =>
    rw [advanceLineLoop] at h
    by_cases hlimit : offset - start > limit
    · rw [if_pos hlimit] at h
      cases h
    rw [if_neg hlimit] at h
    by_cases hlf : value = 10
    · rw [if_pos hlf] at h
      cases h
    rw [if_neg hlf] at h
    by_cases hcr : value = 13
    · rw [if_pos hcr] at h
      cases rest with
      | nil => cases h
      | cons following tail =>
        rw [afterCarriageReturn] at h
        split at h
        · cases h
        · next hfollowing =>
          cases h
          rw [not_not] at hfollowing
          exact ⟨[], tail, by rw [hcr, hfollowing]; rfl, rfl, by omega, by simp, by simp⟩
    · rw [if_neg hcr] at h
      obtain ⟨line, tail, hrest, hstop, hle, hline⟩ := ih h
      refine ⟨value :: line, tail, by rw [hrest]; rfl, ?_, hle, ?_, ?_⟩
      · rw [hstop, List.length_cons]
        omega
      · rw [List.mem_cons, not_or]
        exact ⟨Ne.symm hlf, hline.1⟩
      · rw [List.mem_cons, not_or]
        exact ⟨Ne.symm hcr, hline.2⟩

/-- A line within its limit is found. -/
theorem advanceLineLoop_of_line {start limit offset : ℕ} {line : Bytes} (tail : Bytes)
    (hstart : start ≤ offset) (hle : offset + line.length - start ≤ limit)
    (hlf : 10 ∉ line) (hcr : 13 ∉ line) :
    advanceLineLoop start limit offset (line ++ 13 :: 10 :: tail) =
      .ready (offset + line.length) := by
  induction line generalizing offset with
  | nil =>
    rw [List.length_nil, Nat.add_zero] at hle ⊢
    rw [List.nil_append, advanceLineLoop, if_neg (Nat.not_lt.mpr hle), if_neg (by decide),
      if_pos rfl]
    rfl
  | cons value line ih =>
    rw [List.mem_cons, not_or] at hlf hcr
    rw [List.length_cons] at hle ⊢
    rw [List.cons_append, advanceLineLoop, if_neg (by omega), if_neg (Ne.symm hlf.1),
      if_neg (Ne.symm hcr.1), ih (by omega) (by omega) hlf.2 hcr.2]
    congr 1
    omega

/-- The same outcome for a line that starts at another offset. -/
def LineScan.shift (by_ : ℕ) : LineScan → LineScan
  | .incomplete => .incomplete
  | .ready stop => .ready (by_ + stop)
  | .malformed => .malformed
  | .tooLong => .tooLong

/-- A scan reads only the bytes from its start on. -/
theorem scanLine_drop {input : Bytes} {start : ℕ} (limit : ℕ) (h : start ≤ input.length) :
    scanLine input start limit = (scanLine (input.drop start) 0 limit).shift start := by
  have hloop := advanceLineLoop_shift start limit (input.drop start) 0
  rw [Nat.add_zero] at hloop
  unfold scanLine advanceLine
  rw [if_neg (by omega), if_neg (by omega), hloop, List.drop_zero]
  cases advanceLineLoop 0 limit 0 (input.drop start) <;> rfl

theorem scanLine_zero (rest : Bytes) (limit : ℕ) : scanLine rest 0 limit =
      match advanceLineLoop 0 limit 0 rest with
      | .incomplete _ => .incomplete
      | .ready stop => .ready stop
      | .malformed => .malformed
      | .tooLong => .tooLong := by
  unfold scanLine advanceLine
  rw [if_neg (by omega), List.drop_zero]

theorem scanLine_append {rest : Bytes} {limit : ℕ} (more : Bytes)
    (h : scanLine rest 0 limit ≠ .incomplete) :
    scanLine (rest ++ more) 0 limit = scanLine rest 0 limit := by
  rw [scanLine_zero] at h
  rw [scanLine_zero, scanLine_zero, advanceLineLoop_append more]
  intro next hnext
  rw [hnext] at h
  exact h rfl

theorem scanLine_ready {rest : Bytes} {limit stop : ℕ} (h : scanLine rest 0 limit = .ready stop) :
    ∃ line tail, rest = line ++ 13 :: 10 :: tail ∧ stop = line.length ∧
      line.length ≤ limit ∧ 10 ∉ line ∧ 13 ∉ line := by
  rw [scanLine_zero] at h
  split at h
  · cases h
  · next stop' hloop =>
    cases h
    obtain ⟨line, tail, hrest, hstop, hle, hclean⟩ := advanceLineLoop_ready hloop
    rw [Nat.zero_add] at hstop
    exact ⟨line, tail, hrest, hstop, by omega, hclean⟩
  · cases h
  · cases h

theorem scanLine_of_line {limit : ℕ} {line : Bytes} (tail : Bytes) (hle : line.length ≤ limit)
    (hlf : 10 ∉ line) (hcr : 13 ∉ line) :
    scanLine (line ++ 13 :: 10 :: tail) 0 limit = .ready line.length := by
  rw [scanLine_zero, advanceLineLoop_of_line tail (Nat.zero_le _) (by omega) hlf hcr, Nat.zero_add]

end Nocter.Http

/-!
# Body decoding

The decoder keeps its state between calls. One call runs until it is complete,
fails, or can do nothing more with the bytes and the output space that it has.
-/

namespace Nocter.Http

inductive BodyFraming where
  | bodyless
  | fixed (length : ℕ)
  | chunked
  | closeDelimited
  deriving DecidableEq

inductive BodyState where
  | bodyless
  | fixed (remaining : ℕ)
  | closeDelimited
  | chunkSize
  | chunkData (remaining : ℕ)
  | chunkDataEnd
  | trailers (bytes count : ℕ)
  | complete
  | failed
  deriving DecidableEq

structure BodyDecoder where
  state : BodyState
  decodedBytes : ℕ
  limits : Limits
  deriving DecidableEq

structure BodyProgress where
  consumed : ℕ
  written : ℕ
  complete : Bool
  deriving DecidableEq

/-- A returned error, or the trap of an index outside its bytes. -/
inductive Failure where
  | error (error : HttpError)
  | trap
  deriving DecidableEq

def bodyDecoder (framing : BodyFraming) (limits : Limits) : BodyDecoder where
  state := match framing with
    | .bodyless => .bodyless
    | .fixed length => .fixed length
    | .chunked => .chunkSize
    | .closeDelimited => .closeDelimited
  decodedBytes := 0
  limits := limits

/-- The loop of `copy_body_bytes` with `count` bytes left to copy. -/
def copyBodyBytesLoop (input : Bytes) : ℕ → ℕ → ℕ → Bytes → Option Bytes
  | 0, _, _, output => some output
  | count + 1, inputOffset, outputOffset, output =>
    match input[inputOffset]? with
    | none => none
    | some value =>
      if outputOffset < output.length then
        copyBodyBytesLoop input count (inputOffset + 1) (outputOffset + 1)
          (output.set outputOffset value)
      else none

/-- The number of bytes copied and the output with them, or none where an index traps. -/
def copyBodyBytes (input : Bytes) (inputStart available : ℕ) (output : Bytes)
    (outputStart : ℕ) : Option (ℕ × Bytes) :=
  let count :=
    if available > output.length - outputStart then output.length - outputStart else available
  (copyBodyBytesLoop input count inputStart outputStart output).map fun output => (count, output)

def validQuotedPairByte (value : UInt8) : Bool :=
  value = 9 || (32 ≤ value && value ≠ 127)

def validQuotedTextByte (value : UInt8) : Bool :=
  validQuotedPairByte value && value ≠ 34 && value ≠ 92

/-- What follows a quoted string whose opening quote has been read. -/
def quotedRest : Bytes → Option Bytes
  | [] => none
  | 34 :: rest => some rest
  | 92 :: [] => none
  | 92 :: escaped :: rest => if validQuotedPairByte escaped then quotedRest rest else none
  | value :: rest => if validQuotedTextByte value then quotedRest rest else none

/-- The value of an extension behind its equals sign. -/
def extensionValue (bytes : Bytes) : Bytes ⊕ Bool :=
  match bytes.dropWhile isBlank with
  | [] => .inr false
  | first :: rest =>
    if first = 34 then
      match quotedRest rest with
      | none => .inr false
      | some rest => .inl (rest.dropWhile isBlank)
    else if (first :: rest).takeWhile isTokenByte = [] then .inr false
    else .inl (((first :: rest).dropWhile isTokenByte).dropWhile isBlank)

/-- One pass of the outer loop of `valid_chunk_extensions`. -/
def extensionStep (bytes : Bytes) : Bytes ⊕ Bool :=
  if bytes = [] then .inr true
  else
    match bytes.dropWhile isBlank with
    | [] => .inr false
    | separator :: rest =>
      if separator ≠ 59 then .inr false
      else
        let rest := rest.dropWhile isBlank
        if rest.takeWhile isTokenByte = [] then .inr false
        else
          match (rest.dropWhile isTokenByte).dropWhile isBlank with
          | 61 :: value => extensionValue value
          | rest => .inl rest

theorem length_dropWhile_le {α : Type} (p : α → Bool) (l : List α) :
    (l.dropWhile p).length ≤ l.length := (List.dropWhile_sublist p).length_le

theorem quotedRest_length_le {bytes rest : Bytes} (h : quotedRest bytes = some rest) :
    rest.length ≤ bytes.length := by
  fun_induction quotedRest bytes with
  | case1 => cases h
  | case2 tail =>
    cases h
    exact Nat.le_succ _
  | case3 => cases h
  | case4 escaped tail _ ih =>
    have hle := ih h
    rw [List.length_cons, List.length_cons]
    omega
  | case5 => cases h
  | case6 value tail _ _ _ _ ih =>
    have hle := ih h
    rw [List.length_cons]
    omega
  | case7 => cases h

theorem extensionValue_length_le {bytes rest : Bytes} (h : extensionValue bytes = .inl rest) :
    rest.length ≤ bytes.length := by
  have hle := length_dropWhile_le isBlank bytes
  unfold extensionValue at h
  split at h
  · cases h
  · next first tail hfirst =>
    rw [hfirst, List.length_cons] at hle
    split at h
    · split at h
      · cases h
      · next quoted hquoted =>
        cases h
        have hquote := quotedRest_length_le hquoted
        have hblank := length_dropWhile_le isBlank quoted
        omega
    · split at h
      · cases h
      · cases h
        have htoken := length_dropWhile_le isTokenByte (first :: tail)
        have hblank := length_dropWhile_le isBlank ((first :: tail).dropWhile isTokenByte)
        rw [List.length_cons] at htoken
        omega

theorem extensionStep_decreases : Loop.Decreases extensionStep List.length := by
  intro bytes rest h
  have hle := length_dropWhile_le isBlank bytes
  unfold extensionStep at h
  split at h
  · cases h
  · split at h
    · cases h
    · next separator tail hseparator =>
      rw [hseparator, List.length_cons] at hle
      have hblank := length_dropWhile_le isBlank tail
      have htoken := length_dropWhile_le isTokenByte (tail.dropWhile isBlank)
      have hlast := length_dropWhile_le isBlank ((tail.dropWhile isBlank).dropWhile isTokenByte)
      split at h
      · cases h
      · dsimp only at h
        split at h
        · cases h
        · split at h
          · next value hvalue =>
            have hext := extensionValue_length_le h
            rw [hvalue, List.length_cons] at hlast
            omega
          · cases h
            omega

def validChunkExtensions (bytes : Bytes) : Bool :=
  Loop.iterate extensionStep List.length extensionStep_decreases bytes

def hexDigit (byte : UInt8) : Option ℕ :=
  if 48 ≤ byte ∧ byte ≤ 57 then some (byte - 48).toNat
  else if 65 ≤ byte ∧ byte ≤ 70 then some (byte - 65 + 10).toNat
  else if 97 ≤ byte ∧ byte ≤ 102 then some (byte - 97 + 10).toNat
  else none

/-- The digit loop of `parse_hex_size`. -/
def hexValue : ℕ → Bytes → Option ℕ
  | value, [] => some value
  | value, byte :: rest =>
    match hexDigit byte with
    | none => none
    | some digit =>
      if value > (18446744073709551615 - digit) / 16 then none
      else hexValue (value * 16 + digit) rest

/-- `parse_hex_size` on the bytes of a line. -/
def parseHexSize (line : Bytes) : Option ℕ :=
  let significant := line.takeWhile (· ≠ 59)
  let extensions := line.dropWhile (· ≠ 59)
  let trimmed := significant.rdropWhile isBlank
  if trimmed = [] then none
  else
    match hexValue 0 trimmed with
    | none => none
    | some value =>
      if extensions = [] ∧ trimmed ≠ significant then none
      else if extensions ≠ [] ∧ validChunkExtensions extensions = false then none
      else some value

/-- The trailer arm of `decode_body` on one line: the next counts, or none at the empty line. -/
def trailerLine (limits : Limits) (bytes count : ℕ) (line : Bytes) :
    Except HttpError (Option (ℕ × ℕ)) :=
  let lineBytes := line.length + 2
  if lineBytes > limits.headerBytes ∨ bytes > limits.headerBytes - lineBytes then
    .error syntaxLimit
  else if line = [] then .ok none
  else if count = limits.headerCount then .error syntaxLimit
  else
    let name := line.takeWhile (· ≠ 58)
    if name = line ∨ name = [] then .error invalidSyntax
    else if name.all isTokenByte = false then .error invalidSyntax
    else if asciiEqual name (text "content-length") || asciiEqual name (text "transfer-encoding") then
      .error ambiguousFraming
    else if (line.drop (name.length + 1)).all validHeaderValueByte = false then
      .error invalidSyntax
    else .ok (some (bytes + lineBytes, count + 1))

/-- The decoder, the output and the local variables of `decode_body`. -/
structure DecodeLoop where
  decoder : BodyDecoder
  consumed : ℕ
  written : ℕ
  output : Bytes
  deriving DecidableEq

/-- What a call leaves: its result, the decoder and the output. -/
structure BodyCall where
  result : Except Failure BodyProgress
  decoder : BodyDecoder
  output : Bytes

namespace DecodeLoop

/-- `decoder.state = move next`. -/
def next (loop : DecodeLoop) (state : BodyState) : DecodeLoop ⊕ BodyCall :=
  .inl { loop with decoder := { loop.decoder with state := state } }

def stop (loop : DecodeLoop) (complete : Bool) : DecodeLoop ⊕ BodyCall :=
  .inr ⟨.ok ⟨loop.consumed, loop.written, complete⟩, loop.decoder, loop.output⟩

def fail (loop : DecodeLoop) (error : HttpError) : DecodeLoop ⊕ BodyCall :=
  .inr ⟨.error (.error error), loop.decoder, loop.output⟩

def trap (loop : DecodeLoop) : DecodeLoop ⊕ BodyCall :=
  .inr ⟨.error .trap, loop.decoder, loop.output⟩

/-- `if eof { return premature_eof() }` and the return of partial progress behind it. -/
def needInput (loop : DecodeLoop) (eof : Bool) : DecodeLoop ⊕ BodyCall :=
  if eof then loop.fail prematureEof else loop.stop false

def copy (loop : DecodeLoop) (input : Bytes) (inputStart available : ℕ) :
    Option (ℕ × DecodeLoop) :=
  (copyBodyBytes input (inputStart + loop.consumed) available loop.output loop.written).map
    fun (copied, output) => (copied, {
      decoder := { loop.decoder with decodedBytes := loop.decoder.decodedBytes + copied }
      consumed := loop.consumed + copied
      written := loop.written + copied
      output := output })

/-- The arms `fixed` and `chunk_data` behind the test of an empty fixed body. -/
def payload (loop : DecodeLoop) (input : Bytes) (inputStart : ℕ) (eof : Bool) (remaining : ℕ)
    (finished : BodyState) (retained : ℕ → BodyState) : DecodeLoop ⊕ BodyCall :=
  let available := input.length - inputStart - loop.consumed
  match loop.copy input inputStart (if available > remaining then remaining else available) with
  | none => loop.trap
  | some (copied, loop) =>
    if remaining - copied = 0 then loop.next finished
    else if copied = 0 then loop.needInput eof
    else loop.next (retained (remaining - copied))

/-- The arms that read a line. -/
def line (loop : DecodeLoop) (input : Bytes) (inputStart : ℕ) (eof : Bool) (limit : ℕ)
    (ready : ℕ → DecodeLoop ⊕ BodyCall) : DecodeLoop ⊕ BodyCall :=
  match scanLine input (inputStart + loop.consumed) limit with
  | .incomplete => loop.needInput eof
  | .ready stop => ready stop
  | .malformed => loop.fail invalidSyntax
  | .tooLong => loop.fail syntaxLimit

end DecodeLoop

/-- One pass of the loop of `decode_body`. -/
def decodeBodyStep (input : Bytes) (inputStart : ℕ) (eof : Bool) (loop : DecodeLoop) :
    DecodeLoop ⊕ BodyCall :=
  let limits := loop.decoder.limits
  match loop.decoder.state with
  | .bodyless => loop.next .complete
  | .complete => loop.stop true
  | .failed => loop.fail bodyCursorFailed
  | .fixed remaining =>
    if remaining = 0 then loop.next .complete
    else loop.payload input inputStart eof remaining .complete .fixed
  | .closeDelimited =>
    let available := input.length - inputStart - loop.consumed
    let remainingLimit := limits.bodyBytes - loop.decoder.decodedBytes
    if available > remainingLimit then loop.fail bodyLimit
    else
      match loop.copy input inputStart available with
      | none => loop.trap
      | some (_, loop) =>
        if eof = true ∧ loop.consumed = input.length - inputStart then loop.next .complete
        else loop.stop false
  | .chunkSize =>
    loop.line input inputStart eof limits.chunkLineBytes fun stop =>
      match parseHexSize (slice input (inputStart + loop.consumed) stop) with
      | none => loop.fail invalidSyntax
      | some size =>
        let loop := { loop with consumed := stop + 2 - inputStart }
        if size = 0 then loop.next (.trailers 0 0)
        else if size > limits.bodyBytes - loop.decoder.decodedBytes then loop.fail bodyLimit
        else loop.next (.chunkData size)
  | .chunkData remaining => loop.payload input inputStart eof remaining .chunkDataEnd .chunkData
  | .chunkDataEnd =>
    let delimiterStart := inputStart + loop.consumed
    if input.length - delimiterStart < 2 then loop.needInput eof
    else
      match input[delimiterStart]?, input[delimiterStart + 1]? with
      | some first, some second =>
        if first ≠ 13 ∨ second ≠ 10 then loop.fail invalidSyntax
        else { loop with consumed := loop.consumed + 2 }.next .chunkSize
      | _, _ => loop.trap
  | .trailers bytes count =>
    loop.line input inputStart eof limits.fieldBytes fun stop =>
      match trailerLine limits bytes count (slice input (inputStart + loop.consumed) stop) with
      | .error error => loop.fail error
      | .ok none => { loop with consumed := loop.consumed + 2 }.next .complete
      | .ok (some (bytes, count)) =>
        { loop with consumed := stop + 2 - inputStart }.next (.trailers bytes count)

end Nocter.Http
