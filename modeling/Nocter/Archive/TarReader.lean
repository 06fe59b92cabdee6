import Nocter.Archive.Path
import Nocter.Library.Loop
import Nocter.Library.StreamDecoder
import Nocter.Library.Word

/-!
# Headers

A header block holds octal numbers, the two fields of the path and a checksum. A
loop of the source over a field is a recursion on the bytes of the field.
-/

namespace Nocter.Archive

open Text

structure TarEntry where
  normalizedPath : ByteBuffer 256
  bodySize : ℕ
  typeFlag : UInt8
  deriving DecidableEq

inductive OctalResult where
  | value (value : ℕ)
  | invalid
  deriving DecidableEq

def headerIsZero (header : Bytes) : Bool := header.all (· = 0)

/-- The sum over the bytes from `index` on; the checksum itself counts as blanks. -/
def checksumFrom : ℕ → Bytes → ℕ
  | _, [] => 0
  | index, byte :: rest =>
    (if 148 ≤ index ∧ index < 156 then 32 else byte.toNat) + checksumFrom (index + 1) rest

def headerChecksum (header : Bytes) : ℕ := checksumFrom 0 header

/-- The bytes of a field. -/
def field (header : Bytes) (start stop : ℕ) : Bytes := (header.drop start).take (stop - start)

def isFiller (byte : UInt8) : Bool := byte = 0 || byte = 32

/-- The digits at the front: their value, their number and the bytes behind them. -/
def octalDigits (value digits : ℕ) : Bytes → Option (ℕ × ℕ × Bytes)
  | [] => some (value, digits, [])
  | byte :: rest =>
    if 48 ≤ byte ∧ byte ≤ 55 then
      let digit := (byte - 48).toNat
      if value > (u64Max - digit) / 8 then none
      else octalDigits (value * 8 + digit) (digits + 1) rest
    else some (value, digits, byte :: rest)

def parseOctal (header : Bytes) (start stop : ℕ) : OctalResult :=
  match octalDigits 0 0 ((field header start stop).dropWhile isFiller) with
  | none => .invalid
  | some (value, digits, rest) =>
    if rest.all isFiller = false then .invalid
    else if digits = 0 then .invalid
    else .value value

def fieldLen (header : Bytes) (start width : ℕ) : ℕ :=
  ((field header start (start + width)).takeWhile (· ≠ 0)).length

/-- Nothing if a byte does not fit. -/
def pushAll (output : ByteBuffer 256) : Bytes → Option (ByteBuffer 256)
  | [] => some output
  | byte :: rest =>
    let (pushed, output) := output.tryPush byte
    if pushed then pushAll output rest else none

def appendHeaderField (output : ByteBuffer 256) (header : Bytes) (start length : ℕ) :
    Option (ByteBuffer 256) := pushAll output (field header start (start + length))

/-- The prefix with a separator, unless there is none. -/
def prefixPath (header : Bytes) : Option (ByteBuffer 256) :=
  let prefixLen := fieldLen header 345 155
  if prefixLen ≠ 0 then do
    let rawPath ← appendHeaderField .empty header 345 prefixLen
    pushAll rawPath [47]
  else some .empty

def rawPath (header : Bytes) : Option (ByteBuffer 256) := do
  let rawPath ← prefixPath header
  appendHeaderField rawPath header 0 (fieldLen header 0 100)

/-- `ustar` with its version. -/
def magic : Bytes := [117, 115, 116, 97, 114, 0, 48, 48]

/-- The part of `parse_entry` that leaves the reader alone: the body size and the raw path. -/
def checkHeader (header : Bytes) : Except TarFailure (ℕ × ByteBuffer 256) :=
  if field header 257 265 ≠ magic then .error .unsupportedHeader
  else
    match parseOctal header 148 156 with
    | .invalid => .error .invalidChecksum
    | .value expectedChecksum =>
      if expectedChecksum ≠ headerChecksum header then .error .invalidChecksum
      else
        match parseOctal header 124 136 with
        | .invalid => .error .invalidSize
        | .value bodySize =>
          match rawPath header with
          | none => .error .invalidPath
          | some rawPath =>
            if isValidUtf8 rawPath.bytes = false then .error .invalidUtf8
            else .ok (bodySize, rawPath)

theorem checkHeader_utf8 {header : Bytes} {bodySize : ℕ} {rawPath : ByteBuffer 256}
    (h : checkHeader header = .ok (bodySize, rawPath)) : Utf8.Valid rawPath.bytes := by
  unfold checkHeader at h
  split at h
  · cases h
  · split at h
    · cases h
    · split at h
      · cases h
      · split at h
        · cases h
        · split at h
          · cases h
          · split at h
            · cases h
            · next hutf8 =>
              cases h
              exact isValidUtf8_iff.mp (by simpa using hutf8)

end Nocter.Archive

/-!
# The reader of archives

The reader goes through the bytes of an archive in any pieces. A header, the rest
of a body and the rest of its padding are continued by the next call.
-/

namespace Nocter.Archive

inductive TarPhase where
  | header
  | body
  | padding
  | finished
  | invalid
  deriving DecidableEq

structure TarReader where
  phase : TarPhase
  header : Bytes
  headerIndex : ℕ
  zeroBlocks : ℕ
  current : TarEntry
  hasEntry : Bool
  bodyRemaining : ℕ
  paddingRemaining : ℕ
  inputComplete : Bool
  failure : TarFailure
  deriving DecidableEq

inductive TarStep where
  | needsInput (inputConsumed : ℕ)
  | entry (inputConsumed : ℕ)
  | body (inputConsumed bodyStart bodyLen : ℕ)
  | finished (inputConsumed : ℕ)
  | invalid (inputConsumed : ℕ) (failure : TarFailure)
  deriving DecidableEq

def TarStep.inputConsumed : TarStep → ℕ
  | .needsInput inputConsumed | .entry inputConsumed | .body inputConsumed _ _
  | .finished inputConsumed | .invalid inputConsumed _ => inputConsumed

/-- `TAR_BLOCK_SIZE`. -/
def tarBlockSize : ℕ := 512

namespace TarReader

def new : TarReader where
  phase := .header
  header := List.replicate 512 0
  headerIndex := 0
  zeroBlocks := 0
  current := ⟨.empty, 0, 0⟩
  hasEntry := false
  bodyRemaining := 0
  paddingRemaining := 0
  inputComplete := false
  failure := .unsupportedHeader

def tarFail (reader : TarReader) (inputConsumed : ℕ) (failure : TarFailure) :
    TarStep × TarReader :=
  (.invalid inputConsumed failure, { reader with phase := .invalid, failure })

def paddingFor (bodySize : ℕ) : ℕ :=
  if bodySize % tarBlockSize = 0 then 0 else tarBlockSize - bodySize % tarBlockSize

def parseEntry (reader : TarReader) : TarValidation × TarReader :=
  match checkHeader reader.header with
  | .error failure => (.invalid failure, reader)
  | .ok (bodySize, rawPath) =>
    match normalizePath rawPath.bytes with
    | (.invalid failure, path) =>
      (.invalid failure, { reader with current := { reader.current with normalizedPath := path } })
    | (.ready, path) =>
      (.ready, { reader with
        current := ⟨path, bodySize, reader.header.getD 156 0⟩
        bodyRemaining := bodySize
        paddingRemaining := paddingFor bodySize
        hasEntry := true })

def eofFailure (phase : TarPhase) (headerIndex : ℕ) : TarFailure :=
  match phase with
  | .header => if headerIndex = 0 then .missingEndMarker else .truncatedHeader
  | .body => .truncatedBody
  | .padding => .truncatedPadding
  | .finished | .invalid => .truncatedHeader

def tarInputExhausted (reader : TarReader) (consumed : ℕ) : TarStep × TarReader :=
  if reader.inputComplete = false then (.needsInput consumed, reader)
  else reader.tarFail consumed (eofFailure reader.phase reader.headerIndex)

/-- Where a call stands: the reader, the number of bytes it took and the bytes behind them. -/
structure Cursor where
  reader : TarReader
  inputIndex : ℕ
  rest : Bytes

def storeHeaderByte (reader : TarReader) (byte : UInt8) : TarReader :=
  { reader with
    header := reader.header.set reader.headerIndex byte
    headerIndex := reader.headerIndex + 1 }

/-- The loop that fills the header, as far as the input goes. -/
def fillHeader (reader : TarReader) (inputIndex : ℕ) : Bytes → Cursor
  | [] => ⟨reader, inputIndex, []⟩
  | byte :: rest =>
    if reader.headerIndex < 512 then fillHeader (reader.storeHeaderByte byte) (inputIndex + 1) rest
    else ⟨reader, inputIndex, byte :: rest⟩

/-- A full header: the reader goes on or the call returns. -/
def endHeader (reader : TarReader) (inputIndex : ℕ) : TarReader ⊕ (TarStep × TarReader) :=
  if headerIsZero reader.header then
    let reader := { reader with zeroBlocks := reader.zeroBlocks + 1, headerIndex := 0 }
    if reader.zeroBlocks = 2 then .inr (.finished inputIndex, { reader with phase := .finished })
    else .inl reader
  else if reader.zeroBlocks ≠ 0 then .inr (reader.tarFail inputIndex .missingEndMarker)
  else
    match reader.parseEntry with
    | (.invalid failure, reader) => .inr (reader.tarFail inputIndex failure)
    | (.ready, reader) => .inr (.entry inputIndex, { reader with headerIndex := 0, phase := .body })

/-- The loop that skips the padding, as far as the input goes. -/
def skipPadding (reader : TarReader) (inputIndex : ℕ) : Bytes → Cursor
  | [] => ⟨reader, inputIndex, []⟩
  | byte :: rest =>
    if reader.paddingRemaining ≠ 0 then
      skipPadding { reader with paddingRemaining := reader.paddingRemaining - 1 } (inputIndex + 1)
        rest
    else ⟨reader, inputIndex, byte :: rest⟩

/-- One pass of the loop of `advance_tar`. -/
def tarPass (cursor : Cursor) : Cursor ⊕ (TarStep × TarReader) :=
  let { reader, inputIndex, rest } := cursor
  match reader.phase with
  | .finished => .inr (.finished inputIndex, reader)
  | .invalid => .inr (.invalid inputIndex reader.failure, reader)
  | .header =>
    let { reader, inputIndex, rest } := reader.fillHeader inputIndex rest
    if reader.headerIndex < 512 then .inr (reader.tarInputExhausted inputIndex)
    else
      match reader.endHeader inputIndex with
      | .inl reader => .inl ⟨reader, inputIndex, rest⟩
      | .inr result => .inr result
  | .body =>
    if reader.bodyRemaining = 0 then
      .inl ⟨{ reader with phase := .padding }, inputIndex, rest⟩
    else if rest = [] then .inr (reader.tarInputExhausted inputIndex)
    else
      let count := if reader.bodyRemaining < rest.length then reader.bodyRemaining else rest.length
      .inr (.body (inputIndex + count) inputIndex count,
        { reader with bodyRemaining := reader.bodyRemaining - count })
  | .padding =>
    let { reader, inputIndex, rest } := reader.skipPadding inputIndex rest
    if reader.paddingRemaining ≠ 0 then .inr (reader.tarInputExhausted inputIndex)
    else .inl ⟨{ reader with phase := .header }, inputIndex, rest⟩

/-- A call makes at most four passes: the end of a body, the end of its padding and two headers. -/
def advanceTar (reader : TarReader) (input : Bytes) : Option (TarStep × TarReader) :=
  Loop.within tarPass 4 ⟨reader, 0, input⟩

def advance (reader : TarReader) (input : Bytes) : Option (TarStep × TarReader) :=
  if reader.inputComplete then reader.advanceTar [] else reader.advanceTar input

def finish (reader : TarReader) : Option (TarStep × TarReader) :=
  { reader with inputComplete := true }.advanceTar []

def entry (reader : TarReader) : Option TarEntry :=
  if reader.hasEntry = false then none else some reader.current

/-- The bytes of a block go behind those that the header already has. -/
theorem fillHeader_append (reader : TarReader) (inputIndex : ℕ) (block rest : Bytes)
    (hlength : reader.header.length = 512) (hfits : reader.headerIndex + block.length ≤ 512) :
    reader.fillHeader inputIndex (block ++ rest) =
      { reader with
        header := reader.header.take reader.headerIndex ++ block ++
          reader.header.drop (reader.headerIndex + block.length)
        headerIndex := reader.headerIndex + block.length }.fillHeader
          (inputIndex + block.length) rest := by
  induction block generalizing reader inputIndex with
  | nil =>
    rw [List.nil_append, List.append_nil, List.length_nil, Nat.add_zero, Nat.add_zero,
      List.take_append_drop]
  | cons byte block ih =>
    rw [List.length_cons] at hfits ⊢
    have hset : reader.headerIndex < reader.header.length := by omega
    have hstored := ih (reader.storeHeaderByte byte) (inputIndex + 1)
      ((List.length_set ..).trans hlength) (by rw [storeHeaderByte]; dsimp only; omega)
    have htake : (reader.header.set reader.headerIndex byte).take (reader.headerIndex + 1) =
        reader.header.take reader.headerIndex ++ [byte] := by
      rw [List.take_add_one, List.take_set_of_le (Nat.le_refl _), List.getElem?_set_self hset]
      rfl
    have hindex : reader.headerIndex + 1 + block.length = reader.headerIndex + (block.length + 1) := by
      omega
    rw [List.cons_append, fillHeader, if_pos (by omega), hstored]
    simp only [storeHeaderByte, htake, hindex, List.drop_set_of_lt (show reader.headerIndex <
      reader.headerIndex + (block.length + 1) by omega), List.append_assoc, List.singleton_append,
      Nat.add_right_comm inputIndex 1, Nat.add_assoc inputIndex]

/-- A full block and what its header makes of the call. -/
theorem tarPass_block (reader : TarReader) {block : Bytes} (hphase : reader.phase = .header)
    (hindex : reader.headerIndex = 0) (hlength : reader.header.length = 512)
    (hblock : block.length = 512) {result : TarStep × TarReader}
    (hend : { reader with header := block, headerIndex := 512 }.endHeader 512 = .inr result)
    (rest : Bytes) : tarPass ⟨reader, 0, block ++ rest⟩ = .inr result := by
  have hfill : reader.fillHeader 0 (block ++ rest) =
      ⟨{ reader with header := block, headerIndex := 512 }, 512, rest⟩ := by
    rw [fillHeader_append reader 0 block rest hlength (by omega), hindex, hblock, List.take_zero,
      List.drop_of_length_le (by omega), List.append_nil]
    cases rest with
    | nil => rfl
    | cons byte rest => exact if_neg (Nat.lt_irrefl 512)
  unfold tarPass
  dsimp only
  rw [hphase]
  dsimp only
  rw [hfill]
  dsimp only
  rw [if_neg (by decide), hend]

theorem advance_block {reader : TarReader} {block : Bytes} (hphase : reader.phase = .header)
    (hopen : reader.inputComplete = false) (hindex : reader.headerIndex = 0)
    (hlength : reader.header.length = 512) (hblock : block.length = 512)
    {result : TarStep × TarReader}
    (hend : { reader with header := block, headerIndex := 512 }.endHeader 512 = .inr result)
    (rest : Bytes) : reader.advance (block ++ rest) = some result := by
  rw [advance, if_neg (by rw [hopen]; decide), advanceTar]
  exact Loop.within_of_done (tarPass_block reader hphase hindex hlength hblock hend rest) 3

/-- A block behind an entry without a body. -/
theorem advance_next_block {reader : TarReader} {block : Bytes} (hphase : reader.phase = .body)
    (hopen : reader.inputComplete = false) (hbody : reader.bodyRemaining = 0)
    (hpadding : reader.paddingRemaining = 0) (hindex : reader.headerIndex = 0)
    (hlength : reader.header.length = 512) (hblock : block.length = 512)
    {result : TarStep × TarReader}
    (hend : { reader with phase := .header, header := block, headerIndex := 512 }.endHeader 512 =
      .inr result) (rest : Bytes) : reader.advance (block ++ rest) = some result := by
  have hended : tarPass ⟨reader, 0, block ++ rest⟩ =
      .inl ⟨{ reader with phase := .padding }, 0, block ++ rest⟩ := by
    simp only [tarPass, hphase, hbody, if_true]
  have hskip : ({ reader with phase := .padding } : TarReader).skipPadding 0 (block ++ rest) =
      ⟨{ reader with phase := .padding }, 0, block ++ rest⟩ := by
    cases block ++ rest with
    | nil => rfl
    | cons byte behind => exact if_neg (not_not.mpr hpadding)
  have hskipped : tarPass ⟨{ reader with phase := .padding }, 0, block ++ rest⟩ =
      .inl ⟨{ reader with phase := .header }, 0, block ++ rest⟩ := by
    unfold tarPass
    dsimp only
    rw [hskip]
    exact if_neg (not_not.mpr hpadding)
  rw [advance, if_neg (by rw [hopen]; decide), advanceTar, Loop.within_of_again hended,
    Loop.within_of_again hskipped]
  exact Loop.within_of_done (tarPass_block { reader with phase := .header } rfl hindex hlength hblock hend rest) 1

end TarReader

end Nocter.Archive
