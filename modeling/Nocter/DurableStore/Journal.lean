import Nocter.DurableStore.JournalScan

/-!
# Records the journal writes

An encoded record is read back with its kind, sequence and body behind every
journal it continues.
-/

namespace Nocter.DurableStore

variable {limits : JournalLimits}

@[simp] theorem journalHeader_length (version flags sequence bodyLen : ℕ) :
    (journalHeader version flags sequence bodyLen).length = journalHeaderBytes := by
  simp [journalHeader, journalMagic, journalHeaderBytes]

theorem decodeJournalHeader_encoded {version flags sequence bodyLen : ℕ} {kind : JournalRecordKind}
    (hversion : version < 256 ^ 2) (hflags : flags < 256 ^ 2) (hsequence : sequence < 256 ^ 8)
    (hbodyLen : bodyLen < 256 ^ 8) (hkind : classifyJournalRecord version flags = .ok kind) :
    decodeJournalHeader (journalHeader version flags sequence bodyLen) =
      .ok ⟨kind, sequence, bodyLen⟩ := by
  have hmagic : ¬¬headerMagicIsValid (journalHeader version flags sequence bodyLen) := by
    rw [headerMagicIsValid, journalHeader_length, journalHeader, not_not]
    rfl
  have hfields : (ByteCursor.new (journalHeader version flags sequence bodyLen)).take 4 =
      some (journalMagic, ⟨encodeLe 2 version ++ (encodeLe 2 flags ++
        (encodeLe 8 sequence ++ encodeLe 8 bodyLen)), 0 + 4⟩) :=
    ByteCursor.take_append_of_length rfl _ _
  have hlast : ∀ offset, ByteCursor.takeLe ⟨encodeLe 8 bodyLen, offset⟩ 8 =
      some (bodyLen, ⟨[], offset + 8⟩) := by
    intro offset
    rw [← List.append_nil (encodeLe 8 bodyLen)]
    exact ByteCursor.takeLe_append hbodyLen [] offset
  rw [decodeJournalHeader, reject_of_not hmagic, ok_bind, hfields, otherwise_some, ok_bind]
  simp only [ByteCursor.takeU16Le, ByteCursor.takeU64Le, ByteCursor.takeLe_append hversion,
    ByteCursor.takeLe_append hflags, ByteCursor.takeLe_append hsequence, hlast, otherwise_some,
    ok_bind, hkind]

/-- The record continues the journal read so far. -/
structure RecoveryProgress.Continues (progress : RecoveryProgress) (sequence : ℕ) : Prop where
  current : progress.legacyFormat ≠ some true
  next : ∀ previous, progress.previousSequence = some previous →
    previous ≠ maximumSequence ∧ sequence = previous + 1

/-- The progress after a current record of this kind, sequence and body. -/
def RecoveryProgress.extend (progress : RecoveryProgress) (kind : JournalRecordKind) (sequence : ℕ)
    (body : Bytes) : RecoveryProgress where
  records := progress.records ++ [⟨kind, sequence, body⟩]
  recordCount := progress.recordCount + 1
  previousSequence := some sequence
  legacyFormat := some false
  completeLen := progress.completeLen + (journalRecordOverhead + body.length)

theorem admitHeader_continues {progress : RecoveryProgress} {kind : JournalRecordKind}
    {sequence bodyLen : ℕ} (hkind : recordKindIsLegacy kind = false)
    (hcontinues : progress.Continues sequence) (hpositive : sequence ≠ 0)
    (hrecord : bodyLen ≤ limits.maximumRecordBytes) :
    progress.admitHeader limits ⟨kind, sequence, bodyLen⟩ = .ok () := by
  have hformat : ¬progress.legacyFormat.any (recordKindIsLegacy kind != ·) := by
    have hcurrent := hcontinues.current
    rw [hkind]
    cases hlegacy : progress.legacyFormat with
    | none => simp
    | some legacy =>
      cases legacy with
      | false => simp
      | true => exact absurd hlegacy hcurrent
  have hjournal : ¬bodyLen > limits.maximumJournalBytes - journalRecordOverhead := by
    have := limits.record_le
    omega
  have hsequence : ¬progress.previousSequence.any fun previous =>
      previous == maximumSequence || sequence != previous + 1 := by
    cases hprevious : progress.previousSequence with
    | none => simp
    | some previous =>
      obtain ⟨hlimit, hnext⟩ := hcontinues.next previous hprevious
      simp [hlimit, hnext]
  rw [RecoveryProgress.admitHeader, reject_of_not hformat, ok_bind, reject_of_not hpositive, ok_bind,
    reject_of_not (show ¬bodyLen > limits.maximumRecordBytes by omega), ok_bind,
    reject_of_not hjournal, ok_bind, reject_of_not hsequence]

/-- The flags of a current record. -/
def journalFlags : JournalRecordKind → ℕ
  | .checkpoint => journalCheckpointFlags
  | _ => journalMutationsFlags

theorem encodeCurrentJournalRecord_eq (limits : JournalLimits) {kind : JournalRecordKind} {sequence : ℕ} {body : Bytes}
    (hkind : recordKindIsLegacy kind = false) (hpositive : sequence ≠ 0)
    (hrecord : body.length ≤ limits.maximumRecordBytes) :
    ∃ checksum < 256 ^ 4, crc32 (journalHeader currentJournalVersion (journalFlags kind) sequence
        body.length ++ body) = .ok checksum ∧ encodeCurrentJournalRecord limits kind sequence body =
        .ok (journalHeader currentJournalVersion (journalFlags kind) sequence body.length ++
          (body ++ encodeLe 4 checksum)) := by
  obtain ⟨checksum, hbound, hchecksum⟩ := crc32_eq
    (journalHeader currentJournalVersion (journalFlags kind) sequence body.length ++ body)
  have hjournal : ¬body.length > limits.maximumJournalBytes - journalRecordOverhead := by
    have := limits.record_le
    omega
  refine ⟨checksum, by omega, hchecksum, ?_⟩
  have hframed : encodeFramedJournalRecord limits currentJournalVersion (journalFlags kind) sequence
      body = .ok (journalHeader currentJournalVersion (journalFlags kind) sequence body.length ++
        (body ++ encodeLe 4 checksum)) := by
    rw [encodeFramedJournalRecord, reject_of_not hpositive, ok_bind,
      reject_of_not (show ¬body.length > limits.maximumRecordBytes by omega), ok_bind,
      reject_of_not hjournal, ok_bind]
    simp only [hchecksum, ok_bind, List.append_assoc]
  cases kind with
  | legacySnapshot => cases hkind
  | checkpoint => exact hframed
  | mutations => exact hframed

theorem encodeCurrentJournalRecord_succeeds (limits : JournalLimits) {kind : JournalRecordKind}
    {sequence : ℕ} {body : Bytes} (hkind : recordKindIsLegacy kind = false)
    (hpositive : sequence ≠ 0) (hrecord : body.length ≤ limits.maximumRecordBytes) :
    ∃ encoded, encodeCurrentJournalRecord limits kind sequence body = .ok encoded := by
  obtain ⟨checksum, _, _, hencoded⟩ := encodeCurrentJournalRecord_eq limits hkind hpositive hrecord
  exact ⟨_, hencoded⟩

/-- Recovery reads an encoded record back behind every journal it continues. -/
theorem recordRead_of_encode {progress : RecoveryProgress} {kind : JournalRecordKind} {sequence : ℕ}
    {body encoded : Bytes} (hkind : recordKindIsLegacy kind = false) (hpositive : sequence ≠ 0)
    (hrecord : body.length ≤ limits.maximumRecordBytes)
    (hencoded : encodeCurrentJournalRecord limits kind sequence body = .ok encoded)
    (hsequence : sequence < 256 ^ 8) (hlength : body.length < 256 ^ 8)
    (hcontinues : progress.Continues sequence)
    (hroom : progress.recordCount ≠ limits.maximumRecords) :
    RecordRead limits progress encoded (progress.extend kind sequence body) := by
  obtain ⟨checksum, hbound, hchecksum, hequal⟩ := encodeCurrentJournalRecord_eq limits hkind
    hpositive hrecord
  rw [hequal, Except.ok.injEq] at hencoded
  subst hencoded
  have hclass : classifyJournalRecord currentJournalVersion (journalFlags kind) = .ok kind := by
    cases kind with
    | legacySnapshot => cases hkind
    | checkpoint => rfl
    | mutations => rfl
  have hflags : journalFlags kind < 256 ^ 2 := by cases kind <;> decide
  have hheader := decodeJournalHeader_encoded (by decide) hflags hsequence hlength hclass
  have hread : RecordRead limits progress _ _ := .intro (journalHeader_length _ _ _ _) hheader
    (admitHeader_continues hkind hcontinues hpositive hrecord) rfl (encodeLe_length 4 checksum) hroom
    (by rw [hchecksum, decodeLe_encodeLe hbound])
  have hextend : progress.acceptRecord ⟨kind, sequence, body.length⟩ body (progress.completeLen +
      journalHeaderBytes + (body.length + journalTrailerBytes)) = progress.extend kind sequence body := by
    have hlegacy : progress.legacyFormat.getD false = false := by
      have hcurrent := hcontinues.current
      cases hformat : progress.legacyFormat with
      | none => rfl
      | some legacy =>
        cases legacy with
        | false => rfl
        | true => exact absurd hformat hcurrent
    simp only [RecoveryProgress.acceptRecord, RecoveryProgress.extend, hkind, hlegacy,
      Bool.false_eq_true, if_false, RecoveryProgress.mk.injEq, true_and, journalRecordOverhead]
    omega
  rw [← hextend]
  exact hread

/-- What the progress of an accepted journal always satisfies. -/
structure RecoveryProgress.Invariant (progress : RecoveryProgress) : Prop where
  sequence_last : progress.previousSequence = progress.records.getLast?.map JournalRecord.sequence
  count_zero : progress.recordCount = 0 ↔ progress.records = []
  format_none : progress.legacyFormat = none ↔ progress.records = []
  sequence_pos : ∀ previous, progress.previousSequence = some previous →
    0 < previous ∧ previous ≤ maximumSequence
  kinds : ∀ record ∈ progress.records,
    progress.legacyFormat = some (recordKindIsLegacy record.kind)

theorem RecoveryProgress.start_invariant : RecoveryProgress.start.Invariant where
  sequence_last := rfl
  count_zero := by simp [start]
  format_none := by simp [start]
  sequence_pos previous h := by cases h
  kinds record h := by simp [start] at h

theorem decodeJournalHeader_sequence {headerBytes : Bytes} {header : JournalHeader}
    (h : decodeJournalHeader headerBytes = .ok header) : header.sequence ≤ maximumSequence := by
  rw [decodeJournalHeader] at h
  simp only [bind_eq_ok, Prod.exists, otherwise_eq_ok] at h
  obtain ⟨_, _, _, _, _, _, _, _, _, _, _, sequence, _, hsequence, _, _, _, kind, _, heq⟩ := h
  cases heq
  have hbound := ByteCursor.takeLe_lt hsequence
  exact Nat.le_sub_one_of_lt hbound

/-- An accepted record has a positive sequence and the format of the journal. -/
theorem admitHeader_eq_ok {progress : RecoveryProgress} {header : JournalHeader}
    (h : progress.admitHeader limits header = .ok ()) : header.sequence ≠ 0 ∧
      progress.legacyFormat.getD (recordKindIsLegacy header.kind) =
        recordKindIsLegacy header.kind := by
  rw [RecoveryProgress.admitHeader] at h
  simp only [bind_eq_ok] at h
  obtain ⟨_, hformat, _, hsequence, _⟩ := h
  have hsame := reject_eq_ok.mp hformat
  refine ⟨reject_eq_ok.mp hsequence, ?_⟩
  cases hlegacy : progress.legacyFormat with
  | none => rfl
  | some legacy =>
    rw [hlegacy] at hsame
    simpa using Eq.symm (by simpa using hsame)

theorem RecordRead.invariant {progress progress' : RecoveryProgress} {record : Bytes}
    (hrecord : RecordRead limits progress record progress') (hinv : progress.Invariant) :
    progress'.Invariant := by
  cases hrecord with
  | @intro headerBytes body trailer header hheader hdecode haccepts hbody htrailer hroom hchecksum =>
    obtain ⟨hpositive, hformat⟩ := admitHeader_eq_ok haccepts
    have hbound := decodeJournalHeader_sequence hdecode
    refine ⟨?_, ?_, ?_, ?_, ?_⟩
    · simp [RecoveryProgress.acceptRecord]
    · simp [RecoveryProgress.acceptRecord]
    · simp [RecoveryProgress.acceptRecord]
    · intro previous hprevious
      cases hprevious
      omega
    · intro other hother
      rw [RecoveryProgress.acceptRecord] at hother ⊢
      simp only [hformat]
      rw [List.mem_append, List.mem_singleton] at hother
      obtain hother | rfl := hother
      · split at hother
        · cases hother
        · have hknown := hinv.kinds other hother
          rw [hknown, Option.getD_some] at hformat
          rw [hformat]
      · rfl

theorem CompleteRun.invariant {progress final : RecoveryProgress} {bytes : Bytes}
    (hrun : CompleteRun limits progress bytes final) (hinv : progress.Invariant) :
    final.Invariant := by
  induction hrun with
  | nil => exact hinv
  | cons hrecord _ ih => exact ih (hrecord.invariant hinv)

theorem Scanned.invariant {input : Bytes} {progress : RecoveryProgress}
    (hscan : Scanned limits input progress) : progress.Invariant := by
  obtain ⟨_, _, _, _, hrun, _⟩ := hscan
  exact hrun.invariant RecoveryProgress.start_invariant

end Nocter.DurableStore

/-!
# Journal ownership and record publication

An append or a durable replacement either completes or is interrupted. An
interrupted append leaves a prefix of its bytes, an interrupted replacement the
old or the new file; both leave the journal unusable.
-/

namespace Nocter.DurableStore

/-- How far the platform carries one file operation, counted in bytes. -/
inductive Fate where
  | completed
  | interrupted (kept : ℕ)
  deriving DecidableEq

namespace Fate

/-- Append bytes to a file and synchronize it. -/
def append : Fate → Bytes → Bytes → Bytes
  | completed, disk, bytes => disk ++ bytes
  | interrupted kept, disk, bytes => disk ++ bytes.take kept

/-- `fs.write_durable`, which renames a synchronized temporary file. -/
def writeDurable : Fate → Bytes → Bytes → Bytes
  | completed, _, bytes => bytes
  | interrupted kept, disk, bytes => if kept = 0 then disk else bytes

/-- Truncate a file to a length; an interruption may leave any longer part. -/
def truncate : Fate → Bytes → ℕ → Bytes
  | completed, disk, length => disk.take length
  | interrupted kept, disk, length => disk.take (max kept length)

def answer : Fate → Outcome Unit
  | completed => .ok ()
  | interrupted _ => .error .platform

end Fate

inductive JournalCommitPlan where
  | committed (sequence : ℕ)
  | checkpointRequired (sequence : ℕ)

/-- The open append handle and the path are left out: they name the one file of
the journal. -/
structure Journal where
  limits : JournalLimits
  format : JournalFormat
  nextSequence : ℕ
  byteLen : ℕ
  recordCount : ℕ
  usable : Bool

/-- A journal and the bytes of its file. -/
structure JournalFile where
  journal : Journal
  disk : Bytes

def journalUnusable : StoreError :=
  ⟨"std.store.journal_unusable", "journal must be reopened after a failed commit"⟩

def recoverJournalFile (disk : Bytes) (limits : JournalLimits) : Outcome (JournalRecovery × ℕ) := do
  let observedLen := disk.length
  reject (observedLen > limits.maximumJournalBytes) journalTooLarge
  let recovery ← recoverJournalBytes disk limits
  .ok (recovery, observedLen)

def openJournal (fate : Fate) (disk : Bytes) (limits : JournalLimits) :
    Outcome (Journal × JournalRecovery) × Bytes :=
  match recoverJournalFile disk limits with
  | .error failure => (.error failure, disk)
  | .ok (recovery, observedLen) =>
    if recovery.sequenceExhausted then (.error (.error sequenceExhausted), disk)
    else
      let journal : Journal :=
        { limits
          format := recovery.format
          nextSequence := recovery.nextSequence
          byteLen := recovery.completeLen
          recordCount := recovery.recordCount
          usable := true }
      if recovery.completeLen ≠ observedLen then
        (fate.answer.map fun _ => (journal, recovery), fate.truncate disk recovery.completeLen)
      else (.ok (journal, recovery), disk)

def journalIsCurrent (journal : Journal) : Bool :=
  match journal.format with
  | .empty => true
  | .current => true
  | .legacy => false

def advanceJournalSequence (journal : Journal) (committed : ℕ) : Journal :=
  if committed = maximumSequence then { journal with usable := false }
  else { journal with nextSequence := committed + 1, usable := true }

def replaceJournalRecord (fate : Fate) (file : JournalFile) (encoded : Bytes) (sequence : ℕ) :
    Outcome Unit × JournalFile :=
  let journal := { file.journal with usable := false }
  match fate.answer with
  | .error failure => (.error failure, ⟨journal, fate.writeDurable file.disk encoded⟩)
  | .ok () =>
    (.ok (), ⟨advanceJournalSequence
      { journal with format := .current, byteLen := encoded.length, recordCount := 1 } sequence,
      fate.writeDurable file.disk encoded⟩)

def commitJournalMutations (fate : Fate) (file : JournalFile) (body : Bytes) :
    Outcome JournalCommitPlan × JournalFile :=
  let journal := file.journal
  if !journal.usable || !journalIsCurrent journal then (.error (.error journalUnusable), file)
  else
    let sequence := journal.nextSequence
    if body.length > journal.limits.maximumRecordBytes then
      (.ok (.checkpointRequired sequence), file)
    else
      match encodeCurrentJournalRecord journal.limits .mutations sequence body with
      | .error failure => (.error failure, file)
      | .ok encoded =>
        if journal.recordCount = journal.limits.maximumRecords ∨
            encoded.length > journal.limits.maximumJournalBytes - journal.byteLen then
          (.ok (.checkpointRequired sequence), file)
        else
          let journal := { journal with usable := false }
          match fate.answer with
          | .error failure => (.error failure, ⟨journal, fate.append file.disk encoded⟩)
          | .ok () =>
            (.ok (.committed sequence), ⟨advanceJournalSequence
              { journal with
                format := .current
                byteLen := journal.byteLen + encoded.length
                recordCount := journal.recordCount + 1 } sequence,
              fate.append file.disk encoded⟩)

/-- Replace the journal by one checkpoint: the common body of
`normalize_legacy_journal`, `compact_journal` and `commit_journal_checkpoint`. -/
def writeCheckpoint (fate : Fate) (file : JournalFile) (sequence : ℕ) (body : Bytes) :
    Outcome Unit × JournalFile :=
  match encodeCurrentJournalRecord file.journal.limits .checkpoint sequence body with
  | .error failure => (.error failure, file)
  | .ok encoded => replaceJournalRecord fate file encoded sequence

def commitJournalCheckpoint (fate : Fate) (file : JournalFile) (body : Bytes) :
    Outcome ℕ × JournalFile :=
  if !file.journal.usable || !journalIsCurrent file.journal then
    (.error (.error journalUnusable), file)
  else
    let sequence := file.journal.nextSequence
    let (result, file) := writeCheckpoint fate file sequence body
    (result.map fun _ => sequence, file)

def normalizeLegacyJournal (fate : Fate) (file : JournalFile) (snapshot : Bytes)
    (committedSequence : ℕ) : Outcome Unit × JournalFile :=
  if !file.journal.usable then (.error (.error journalUnusable), file)
  else writeCheckpoint fate file committedSequence snapshot

def compactJournal (fate : Fate) (file : JournalFile) (body : Bytes) (committedSequence : ℕ) :
    Outcome Unit × JournalFile :=
  if !file.journal.usable || !journalIsCurrent file.journal then
    (.error (.error journalUnusable), file)
  else writeCheckpoint fate file committedSequence body

def closeJournal (fate : Fate) (journal : Journal) : Outcome Unit × Journal :=
  (fate.answer, { journal with usable := false })

end Nocter.DurableStore
