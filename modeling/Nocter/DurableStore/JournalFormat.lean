import Mathlib.Data.Nat.Bitwise
import Nocter.DurableStore.State

/-!
# Journal framing and recovery

A journal is a sequence of framed records, each with a header, a body and the
CRC-32 of both. Recovery reads complete records until the input ends or its
tail is too short for the record it starts.
-/

namespace Nocter.DurableStore

def crc32Initial : ℕ := 0xFFFFFFFF

def crc32XorOut : ℕ := 0xFFFFFFFF

def crc32Table : List ℕ :=
  [0x00000000, 0x1DB71064, 0x3B6E20C8, 0x26D930AC, 0x76DC4190, 0x6B6B51F4, 0x4DB26158, 0x5005713C,
    0xEDB88320, 0xF00F9344, 0xD6D6A3E8, 0xCB61B38C, 0x9B64C2B0, 0x86D3D2D4, 0xA00AE278, 0xBDBDF21C]

def advanceNibble (state : ℕ) : ℕ :=
  (state / 16) ^^^ crc32Table.get ⟨state % 16, Nat.mod_lt state (by decide)⟩

def updateByte (state : ℕ) (value : UInt8) : ℕ :=
  advanceNibble (advanceNibble (state ^^^ value.toNat))

/-- `value` of the checksum state after `update` over the input. -/
def crc32 (input : Bytes) : Outcome ℕ :=
  let value := input.foldl updateByte crc32Initial ^^^ crc32XorOut
  if value < 2 ^ 32 then .ok value else invariantAbort

theorem advanceNibble_lt {state : ℕ} (h : state < 2 ^ 32) : advanceNibble state < 2 ^ 32 := by
  have hentry : ∀ index : Fin crc32Table.length, crc32Table.get index < 2 ^ 32 := by decide
  exact Nat.xor_lt_two_pow (by omega) (hentry _)

theorem updateByte_lt {state : ℕ} (h : state < 2 ^ 32) (value : UInt8) :
    updateByte state value < 2 ^ 32 := by
  have hvalue : value.toNat < 2 ^ 32 := by
    have := value.toNat_lt
    omega
  exact advanceNibble_lt (advanceNibble_lt (Nat.xor_lt_two_pow h hvalue))

/-- The checksum state stays a 32-bit value, so reading it never aborts. -/
theorem crc32_eq (input : Bytes) : ∃ checksum < 2 ^ 32, crc32 input = .ok checksum := by
  have hstate : ∀ (input : Bytes) (state : ℕ), state < 2 ^ 32 →
      input.foldl updateByte state < 2 ^ 32 := by
    intro input
    induction input with
    | nil => exact fun _ h => h
    | cons byte input ih => exact fun state h => ih _ (updateByte_lt h byte)
  have hvalue := Nat.xor_lt_two_pow (hstate input crc32Initial (by decide))
    (by decide : crc32XorOut < 2 ^ 32)
  exact ⟨_, hvalue, if_pos hvalue⟩

def legacyJournalVersion : ℕ := 1

def currentJournalVersion : ℕ := 2

def journalCheckpointFlags : ℕ := 1

def journalMutationsFlags : ℕ := 2

def maximumSequence : ℕ := 18446744073709551615

inductive JournalRecordKind where
  | legacySnapshot
  | checkpoint
  | mutations
  deriving DecidableEq

inductive JournalFormat where
  | empty
  | legacy
  | current
  deriving DecidableEq

def invalidLimits : StoreError :=
  ⟨"std.store.invalid_limits", "journal limits are internally inconsistent"⟩

def recordTooLarge : StoreError :=
  ⟨"std.store.record_too_large", "journal record exceeds its configured limit"⟩

def journalTooLarge : StoreError :=
  ⟨"std.store.journal_too_large", "journal exceeds its configured byte limit"⟩

def tooManyRecords : StoreError :=
  ⟨"std.store.too_many_records", "journal exceeds its configured record limit"⟩

def corruptJournal : StoreError :=
  ⟨"std.store.corrupt_journal", "journal contains an invalid complete record"⟩

def sequenceExhausted : StoreError :=
  ⟨"std.store.sequence_exhausted", "journal commit sequence is exhausted"⟩

structure JournalLimits where
  maximumRecordBytes : ℕ
  maximumJournalBytes : ℕ
  maximumRecords : ℕ
  overhead_le : journalRecordOverhead ≤ maximumJournalBytes
  record_le : maximumRecordBytes ≤ maximumJournalBytes - journalRecordOverhead
  records_pos : 0 < maximumRecords

def JournalLimits.new (maximumRecordBytes maximumJournalBytes maximumRecords : ℕ) :
    Outcome JournalLimits :=
  if h : maximumJournalBytes < journalRecordOverhead ∨
      maximumRecordBytes > maximumJournalBytes - journalRecordOverhead ∨ maximumRecords = 0 then
    .error (.error invalidLimits)
  else
    .ok {
      maximumRecordBytes
      maximumJournalBytes
      maximumRecords
      overhead_le := by omega
      record_le := by omega
      records_pos := by omega }

structure JournalRecord where
  kind : JournalRecordKind
  sequence : ℕ
  body : Bytes
  deriving DecidableEq

structure JournalRecovery where
  records : List JournalRecord
  format : JournalFormat
  recordCount : ℕ
  completeLen : ℕ
  nextSequence : ℕ
  sequenceExhausted : Bool
  deriving DecidableEq

/-- The bytes of `NCTJ`. -/
def journalMagic : Bytes := [78, 67, 84, 74]

def journalHeader (version flags sequence bodyLen : ℕ) : Bytes :=
  journalMagic ++ (encodeLe 2 version ++ (encodeLe 2 flags ++
    (encodeLe 8 sequence ++ encodeLe 8 bodyLen)))

def encodeFramedJournalRecord (limits : JournalLimits) (version flags sequence : ℕ)
    (body : Bytes) : Outcome Bytes := do
  reject (sequence = 0) corruptJournal
  reject (body.length > limits.maximumRecordBytes) recordTooLarge
  reject (body.length > limits.maximumJournalBytes - journalRecordOverhead) journalTooLarge
  let header := journalHeader version flags sequence body.length
  let checksum ← crc32 (header ++ body)
  .ok (header ++ body ++ encodeLe 4 checksum)

def encodeLegacyJournalRecord (limits : JournalLimits) (sequence : ℕ) (body : Bytes) :
    Outcome Bytes :=
  encodeFramedJournalRecord limits legacyJournalVersion 0 sequence body

def encodeCurrentJournalRecord (limits : JournalLimits) (kind : JournalRecordKind) (sequence : ℕ)
    (body : Bytes) : Outcome Bytes := do
  let flags ← match kind with
    | .checkpoint => .ok journalCheckpointFlags
    | .mutations => .ok journalMutationsFlags
    | .legacySnapshot => invariantAbort
  encodeFramedJournalRecord limits currentJournalVersion flags sequence body

def headerMagicIsValid (header : Bytes) : Bool :=
  header.length == journalHeaderBytes && header.take 4 == journalMagic

def classifyJournalRecord (version flags : ℕ) : Outcome JournalRecordKind :=
  if version = legacyJournalVersion then
    if flags ≠ 0 then .error (.error corruptJournal)
    else .ok .legacySnapshot
  else if version ≠ currentJournalVersion then .error (.error corruptJournal)
  else if flags = journalCheckpointFlags then .ok .checkpoint
  else if flags = journalMutationsFlags then .ok .mutations
  else .error (.error corruptJournal)

def recordKindIsLegacy : JournalRecordKind → Bool
  | .legacySnapshot => true
  | _ => false

def validateCompleteRecord (header remaining : Bytes) (bodyLen : ℕ) : Outcome Unit := do
  let body := remaining.take bodyLen
  let trailer := (remaining.drop bodyLen).take journalTrailerBytes
  let checksum ← crc32 (header ++ body)
  reject (decodeLe trailer ≠ checksum) corruptJournal

/-- The fields of a record header that recovery uses. -/
structure JournalHeader where
  kind : JournalRecordKind
  sequence : ℕ
  bodyLen : ℕ

def decodeJournalHeader (header : Bytes) : Outcome JournalHeader := do
  reject (¬headerMagicIsValid header) corruptJournal
  let (_, fields) ← otherwise ((ByteCursor.new header).take 4) .abort
  let (version, fields) ← otherwise fields.takeU16Le .abort
  let (flags, fields) ← otherwise fields.takeU16Le .abort
  let (sequence, fields) ← otherwise fields.takeU64Le .abort
  let (bodyLen, _) ← otherwise fields.takeU64Le .abort
  let kind ← classifyJournalRecord version flags
  .ok ⟨kind, sequence, bodyLen⟩

/-- The variables of the recovery loop; an option pairs each `has_` flag with
its value. -/
structure RecoveryProgress where
  records : List JournalRecord
  recordCount : ℕ
  previousSequence : Option ℕ
  legacyFormat : Option Bool
  completeLen : ℕ

namespace RecoveryProgress

def start : RecoveryProgress := ⟨[], 0, none, none, 0⟩

/-- The checks of a header against the journal read so far. -/
def admitHeader (progress : RecoveryProgress) (limits : JournalLimits) (header : JournalHeader) :
    Outcome Unit := do
  reject (progress.legacyFormat.any (recordKindIsLegacy header.kind != ·)) corruptJournal
  reject (header.sequence = 0) corruptJournal
  reject (header.bodyLen > limits.maximumRecordBytes) recordTooLarge
  reject (header.bodyLen > limits.maximumJournalBytes - journalRecordOverhead) journalTooLarge
  reject (progress.previousSequence.any fun previous =>
    previous == maximumSequence || header.sequence != previous + 1) corruptJournal

/-- Record the format of a header. -/
def noteFormat (progress : RecoveryProgress) (header : JournalHeader) : RecoveryProgress :=
  { progress with
    legacyFormat := some (progress.legacyFormat.getD (recordKindIsLegacy header.kind)) }

/-- Keep a complete record; a legacy record replaces the earlier ones. -/
def acceptRecord (progress : RecoveryProgress) (header : JournalHeader) (body : Bytes)
    (completeLen : ℕ) : RecoveryProgress where
  records := (if recordKindIsLegacy header.kind then [] else progress.records) ++
    [⟨header.kind, header.sequence, body⟩]
  recordCount := progress.recordCount + 1
  previousSequence := some header.sequence
  legacyFormat := some (progress.legacyFormat.getD (recordKindIsLegacy header.kind))
  completeLen

def finish (progress : RecoveryProgress) : JournalRecovery where
  records := progress.records
  format :=
    if progress.recordCount = 0 then .empty
    else if progress.legacyFormat = some true then .legacy
    else .current
  recordCount := progress.recordCount
  completeLen := progress.completeLen
  nextSequence :=
    match progress.previousSequence with
    | none => 1
    | some previous => if previous = maximumSequence then 1 else previous + 1
  sequenceExhausted := progress.previousSequence == some maximumSequence

end RecoveryProgress

/-- One iteration of the recovery loop: a `break` or another round. -/
inductive RecoveryIteration where
  | stop (progress : RecoveryProgress)
  | next (progress : RecoveryProgress) (cursor : ByteCursor)

def recoverRecord (limits : JournalLimits) (progress : RecoveryProgress) (cursor : ByteCursor) :
    Outcome RecoveryIteration :=
  if cursor.remainingLen < journalHeaderBytes then .ok (.stop progress)
  else do
    let (headerBytes, cursor) ← otherwise (cursor.take journalHeaderBytes) .abort
    let header ← decodeJournalHeader headerBytes
    progress.admitHeader limits header
    if cursor.remainingLen < header.bodyLen + journalTrailerBytes then
      .ok (.stop (progress.noteFormat header))
    else do
      reject (progress.recordCount = limits.maximumRecords) tooManyRecords
      validateCompleteRecord headerBytes cursor.remaining header.bodyLen
      let body := cursor.remaining.take header.bodyLen
      let (_, cursor) ← otherwise (cursor.take (header.bodyLen + journalTrailerBytes)) .abort
      .ok (.next (progress.acceptRecord header body cursor.offset) cursor)

end Nocter.DurableStore
