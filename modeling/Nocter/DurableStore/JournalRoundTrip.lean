import Mathlib.Data.List.Chain
import Nocter.DurableStore.Journal

/-!
# Recovery inverts writing

A journal is a run of encoded records and what is left of one more. Recovery accepts
exactly these byte strings. Of current records it keeps all, of legacy snapshots the last.
-/

namespace Nocter.DurableStore

def recordVersion : JournalRecordKind → ℕ
  | .legacySnapshot => legacyJournalVersion
  | _ => currentJournalVersion

def recordFlags : JournalRecordKind → ℕ
  | .legacySnapshot => 0
  | kind => journalFlags kind

/-- A record in the encoding of its kind. -/
def encodeJournalRecord (limits : JournalLimits) (record : JournalRecord) : Outcome Bytes :=
  match record.kind with
  | .legacySnapshot => encodeLegacyJournalRecord limits record.sequence record.body
  | kind => encodeCurrentJournalRecord limits kind record.sequence record.body

/-- The second record continues a journal whose last record is the first. -/
structure Follows (last next : JournalRecord) : Prop where
  sequence : next.sequence = last.sequence + 1
  format : recordKindIsLegacy next.kind = recordKindIsLegacy last.kind

def Consecutive (records : List JournalRecord) : Prop := records.IsChain Follows

/-- The encodings of the records, one behind the other. -/
inductive Written (limits : JournalLimits) : List JournalRecord → Bytes → Prop
  | nil : Written limits [] []
  | cons {record : JournalRecord} {records : List JournalRecord} {encoded bytes : Bytes}
      (hencoded : encodeJournalRecord limits record = .ok encoded)
      (hsequence : record.sequence ≤ maximumSequence) (hrest : Written limits records bytes) :
      Written limits (record :: records) (encoded ++ bytes)

/-- What recovery keeps of the records: all, or the last legacy snapshot. -/
def retained (records : List JournalRecord) : List JournalRecord :=
  if records.getLast?.any fun last => recordKindIsLegacy last.kind then records.getLast?.toList
  else records

def recovered (records : List JournalRecord) (completeLen : ℕ) : JournalRecovery where
  records := retained records
  format :=
    match records.getLast? with
    | none => .empty
    | some last => if recordKindIsLegacy last.kind then .legacy else .current
  recordCount := records.length
  completeLen := completeLen
  nextSequence :=
    match records.getLast? with
    | none => 1
    | some last => if last.sequence = maximumSequence then 1 else last.sequence + 1
  sequenceExhausted := records.getLast?.any fun last => last.sequence = maximumSequence

/-- Too short for a header, or a header that continues the records with less behind it than
it announces. -/
inductive Incomplete (limits : JournalLimits) (records : List JournalRecord) : Bytes → Prop
  | header {tail : Bytes} (hshort : tail.length < journalHeaderBytes) :
      Incomplete limits records tail
  | body {kind : JournalRecordKind} {sequence bodyLen : ℕ} {rest : Bytes} (hpositive : sequence ≠ 0)
      (hsequence : sequence ≤ maximumSequence) (hrecord : bodyLen ≤ limits.maximumRecordBytes)
      (hfollows : ∀ last ∈ records.getLast?, Follows last ⟨kind, sequence, []⟩)
      (hshort : rest.length < bodyLen + journalTrailerBytes) :
      Incomplete limits records
        (journalHeader (recordVersion kind) (recordFlags kind) sequence bodyLen ++ rest)

/-- The variables of the recovery loop behind the records. -/
def progressOf (records : List JournalRecord) (completeLen : ℕ) : RecoveryProgress where
  records := retained records
  recordCount := records.length
  previousSequence := records.getLast?.map JournalRecord.sequence
  legacyFormat := records.getLast?.map fun last => recordKindIsLegacy last.kind
  completeLen := completeLen

variable {limits : JournalLimits}

section Headers

theorem classifyJournalRecord_eq_ok {version flags : ℕ} {kind : JournalRecordKind} :
    classifyJournalRecord version flags = .ok kind ↔
      version = recordVersion kind ∧ flags = recordFlags kind := by
  constructor
  · intro h
    unfold classifyJournalRecord at h
    split_ifs at h with hlegacy hflags hcurrent hcheckpoint hmutations
    · cases h
      exact ⟨hlegacy, not_not.mp hflags⟩
    · cases h
      exact ⟨not_not.mp hcurrent, hcheckpoint⟩
    · cases h
      exact ⟨not_not.mp hcurrent, hmutations⟩
  · rintro ⟨rfl, rfl⟩
    cases kind <;> rfl

/-- What is taken is the encoding of its value. -/
theorem takeLe_eq_some {cursor cursor' : ByteCursor} {width value : ℕ}
    (h : cursor.takeLe width = some (value, cursor')) :
    cursor.remaining = encodeLe width value ++ cursor'.remaining ∧ value < 256 ^ width := by
  refine ⟨?_, ByteCursor.takeLe_lt h⟩
  rw [ByteCursor.takeLe, Option.map_eq_some_iff] at h
  obtain ⟨taken, htake, heq⟩ := h
  cases heq
  rw [ByteCursor.take] at htake
  split at htake
  case isTrue => cases htake
  case isFalse hle =>
    cases htake
    have hlength : (cursor.remaining.take width).length = width :=
      List.length_take_of_le (Nat.le_of_not_lt hle)
    have hencoded := encodeLe_decodeLe (cursor.remaining.take width)
    rw [hlength] at hencoded
    rw [hencoded, List.take_append_drop]

/-- A header that is decoded is the encoded one. -/
theorem decodeJournalHeader_eq_ok {headerBytes : Bytes} {header : JournalHeader}
    (hlength : headerBytes.length = journalHeaderBytes)
    (h : decodeJournalHeader headerBytes = .ok header) :
    headerBytes = journalHeader (recordVersion header.kind) (recordFlags header.kind)
      header.sequence header.bodyLen ∧ header.sequence ≤ maximumSequence := by
  have hsequence := decodeJournalHeader_sequence h
  rw [decodeJournalHeader] at h
  simp only [bind_eq_ok, Prod.exists, otherwise_eq_ok] at h
  obtain ⟨_, hmagic, magic, fields, htake, version, fields', hversion, flags, fields'', hflags,
    sequence, fields''', hsequence', bodyLen, last, hbodyLen, kind, hkind, heq⟩ := h
  cases heq
  obtain ⟨rfl, rfl⟩ := classifyJournalRecord_eq_ok.mp hkind
  refine ⟨?_, hsequence⟩
  have hvalid := not_not.mp (reject_eq_ok.mp hmagic)
  simp only [headerMagicIsValid, Bool.and_eq_true, beq_iff_eq] at hvalid
  have hfields : fields.remaining = headerBytes.drop 4 := by
    have hle : ¬4 > (ByteCursor.new headerBytes).remainingLen := by
      have hbytes : (ByteCursor.new headerBytes).remainingLen = 24 := hlength
      omega
    rw [ByteCursor.take, if_neg hle] at htake
    cases htake
    rfl
  have hlast : last.remaining = [] := by
    have htotal := ByteCursor.takeLe_length hbodyLen
    have htotal' := ByteCursor.takeLe_length hsequence'
    have htotal'' := ByteCursor.takeLe_length hflags
    have htotal''' := ByteCursor.takeLe_length hversion
    rw [hfields, List.length_drop, hlength, journalHeaderBytes] at htotal'''
    exact List.length_eq_zero_iff.mp (by omega)
  calc headerBytes = headerBytes.take 4 ++ headerBytes.drop 4 :=
        (List.take_append_drop 4 headerBytes).symm
    _ = journalMagic ++ fields.remaining := by rw [hvalid.2, hfields]
    _ = _ := by
      rw [(takeLe_eq_some hversion).1, (takeLe_eq_some hflags).1, (takeLe_eq_some hsequence').1,
        (takeLe_eq_some hbodyLen).1, hlast, List.append_nil]
      rfl

theorem decodeJournalHeader_journalHeader {kind : JournalRecordKind} {sequence bodyLen : ℕ}
    (hsequence : sequence ≤ maximumSequence) (hbodyLen : bodyLen < 2 ^ 64) :
    decodeJournalHeader (journalHeader (recordVersion kind) (recordFlags kind) sequence bodyLen) =
      .ok ⟨kind, sequence, bodyLen⟩ := by
  refine decodeJournalHeader_encoded ?_ ?_ ?_ hbodyLen (classifyJournalRecord_eq_ok.mpr ⟨rfl, rfl⟩)
  · cases kind <;> decide
  · cases kind <;> decide
  · unfold maximumSequence at hsequence
    omega

end Headers

section Encoding

/-- The encoding of a record: its header, its body and the checksum of both. -/
theorem encodeJournalRecord_eq_ok {record : JournalRecord} {encoded : Bytes} :
    encodeJournalRecord limits record = .ok encoded ↔
      record.sequence ≠ 0 ∧ record.body.length ≤ limits.maximumRecordBytes ∧
      ∃ checksum, crc32 (journalHeader (recordVersion record.kind) (recordFlags record.kind)
          record.sequence record.body.length ++ record.body) = .ok checksum ∧
        encoded = journalHeader (recordVersion record.kind) (recordFlags record.kind)
          record.sequence record.body.length ++ (record.body ++ encodeLe 4 checksum) := by
  have hframed : encodeJournalRecord limits record = encodeFramedJournalRecord limits
      (recordVersion record.kind) (recordFlags record.kind) record.sequence record.body := by
    obtain ⟨kind, sequence, body⟩ := record
    cases kind <;> rfl
  have hjournal := limits.record_le
  rw [hframed, encodeFramedJournalRecord]
  simp only [bind_eq_ok]
  constructor
  · rintro ⟨_, hpositive, _, hrecord, _, _, checksum, hchecksum, hencoded⟩
    refine ⟨reject_eq_ok.mp hpositive, Nat.le_of_not_lt (reject_eq_ok.mp hrecord), checksum,
      hchecksum, ?_⟩
    rw [← List.append_assoc]
    exact (Except.ok.inj hencoded).symm
  · rintro ⟨hpositive, hrecord, checksum, hchecksum, rfl⟩
    refine ⟨(), reject_of_not hpositive, (), reject_of_not (Nat.not_lt.mpr hrecord), (),
      reject_of_not (Nat.not_lt.mpr (hrecord.trans hjournal)), checksum, hchecksum, ?_⟩
    rw [← List.append_assoc]

theorem encodeJournalRecord_length {record : JournalRecord} {encoded : Bytes}
    (h : encodeJournalRecord limits record = .ok encoded) :
    encoded.length = journalHeaderBytes + (record.body.length + journalTrailerBytes) := by
  obtain ⟨_, _, checksum, _, rfl⟩ := encodeJournalRecord_eq_ok.mp h
  simp only [List.length_append, journalHeader_length, encodeLe_length, journalTrailerBytes]

/-- Every record within the limits can be written. -/
theorem encodeJournalRecord_succeeds (limits : JournalLimits) (record : JournalRecord)
    (hpositive : record.sequence ≠ 0) (hrecord : record.body.length ≤ limits.maximumRecordBytes) :
    ∃ encoded, encodeJournalRecord limits record = .ok encoded := by
  obtain ⟨checksum, _, hchecksum⟩ := crc32_eq (journalHeader (recordVersion record.kind)
    (recordFlags record.kind) record.sequence record.body.length ++ record.body)
  exact ⟨_, encodeJournalRecord_eq_ok.mpr ⟨hpositive, hrecord, checksum, hchecksum, rfl⟩⟩

end Encoding

section Progress

variable {records : List JournalRecord} {completeLen : ℕ}

/-- A header is admitted behind the records it continues. -/
theorem admitHeader_progressOf {header : JournalHeader} (hbound : header.sequence ≤ maximumSequence) :
    (progressOf records completeLen).admitHeader limits header = .ok () ↔
      header.sequence ≠ 0 ∧ header.bodyLen ≤ limits.maximumRecordBytes ∧
        ∀ last ∈ records.getLast?, Follows last ⟨header.kind, header.sequence, []⟩ := by
  have hjournal := limits.record_le
  rw [RecoveryProgress.admitHeader]
  simp only [bind_eq_ok, progressOf]
  constructor
  · rintro ⟨_, hformat, _, hpositive, _, hrecord, _, _, hsequence⟩
    refine ⟨reject_eq_ok.mp hpositive, Nat.le_of_not_lt (reject_eq_ok.mp hrecord),
      fun last hlast => ?_⟩
    have hsame := reject_eq_ok.mp hformat
    have hnext := reject_eq_ok.mp hsequence
    rw [Option.mem_def.mp hlast] at hsame hnext
    simp only [Option.map_some, Option.any_some, bne_iff_ne, ne_eq, not_not, Bool.or_eq_true,
      beq_iff_eq, not_or] at hsame hnext
    exact ⟨hnext.2, hsame⟩
  · rintro ⟨hpositive, hrecord, hfollows⟩
    refine ⟨(), reject_of_not ?_, (), reject_of_not hpositive, (),
      reject_of_not (Nat.not_lt.mpr hrecord), (),
      reject_of_not (Nat.not_lt.mpr (hrecord.trans hjournal)), reject_of_not ?_⟩
    · cases hlast : records.getLast? with
      | none => simp
      | some last => simp [(hfollows last hlast).format]
    · cases hlast : records.getLast? with
      | none => simp
      | some last =>
        have hnext := (hfollows last hlast).sequence
        dsimp only at hnext
        have hne : last.sequence ≠ maximumSequence := by omega
        simp [hnext, hne]

theorem consecutive_append {record : JournalRecord} : Consecutive (records ++ [record]) ↔
      Consecutive records ∧ ∀ last ∈ records.getLast?, Follows last record := by
  rw [Consecutive, List.isChain_append]
  constructor
  · exact fun h => ⟨h.1, fun last hlast => h.2.2 last hlast record rfl⟩
  · rintro ⟨hbefore, hfollows⟩
    refine ⟨hbefore, List.isChain_singleton _, fun last hlast next hnext => ?_⟩
    cases hnext
    exact hfollows last hlast

/-- The body of a record does not matter to what it continues. -/
theorem Follows.withBody {last : JournalRecord} {kind : JournalRecordKind} {sequence : ℕ}
    {body : Bytes} (h : Follows last ⟨kind, sequence, body⟩) (body' : Bytes) :
    Follows last ⟨kind, sequence, body'⟩ := ⟨h.sequence, h.format⟩

theorem retained_append {record : JournalRecord}
    (h : ∀ last ∈ records.getLast?, Follows last record) : retained (records ++ [record]) =
      (if recordKindIsLegacy record.kind then [] else retained records) ++ [record] := by
  rw [retained, List.getLast?_concat, Option.any_some, Option.toList_some]
  split_ifs with hlegacy
  · rfl
  · rw [retained, if_neg]
    cases hlast : records.getLast? with
    | none => simp
    | some last =>
      have hformat := (h last hlast).format
      rw [Option.any_some, ← hformat]
      exact hlegacy

theorem acceptRecord_progressOf {kind : JournalRecordKind} {sequence bodyLen : ℕ} {body : Bytes}
    {nextLen : ℕ} (h : ∀ last ∈ records.getLast?, Follows last ⟨kind, sequence, body⟩) :
    (progressOf records completeLen).acceptRecord ⟨kind, sequence, bodyLen⟩ body nextLen =
      progressOf (records ++ [⟨kind, sequence, body⟩]) nextLen := by
  have hformat : ((records.getLast?.map fun last => recordKindIsLegacy last.kind).getD
      (recordKindIsLegacy kind)) = recordKindIsLegacy kind := by
    cases hlast : records.getLast? with
    | none => rfl
    | some last => exact (h last hlast).format.symm
  simp only [RecoveryProgress.acceptRecord, progressOf, retained_append h, List.getLast?_concat,
    Option.map_some, List.length_append, List.length_singleton, hformat]

/-- A record is read exactly when it is the encoding of a record that continues the others. -/
theorem recordRead_progressOf (hlimits : limits.maximumJournalBytes < 2 ^ 64)
    (hcount : records.length ≤ limits.maximumRecords) {bytes : Bytes} {next : RecoveryProgress} :
    RecordRead limits (progressOf records completeLen) bytes next ↔
      ∃ record, encodeJournalRecord limits record = .ok bytes ∧ record.sequence ≤ maximumSequence ∧
        (∀ last ∈ records.getLast?, Follows last record) ∧ records.length < limits.maximumRecords ∧
        next = progressOf (records ++ [record]) (completeLen + bytes.length) := by
  constructor
  · rintro ⟨hheader, hdecode, haccepts, hbody, htrailer, hroom, hchecksum⟩
    rename_i headerBytes body trailer header
    obtain ⟨rfl, hsequence⟩ := decodeJournalHeader_eq_ok hheader hdecode
    obtain ⟨hpositive, hrecord, hfollows⟩ := (admitHeader_progressOf hsequence).mp haccepts
    obtain ⟨kind, sequence, bodyLen⟩ := header
    dsimp only at *
    subst hbody
    have hfollows' : ∀ last ∈ records.getLast?, Follows last ⟨kind, sequence, body⟩ :=
      fun last hlast => (hfollows last hlast).withBody body
    refine ⟨⟨kind, sequence, body⟩, ?_, hsequence, hfollows', Nat.lt_of_le_of_ne hcount hroom, ?_⟩
    · refine encodeJournalRecord_eq_ok.mpr ⟨hpositive, hrecord, _, hchecksum, ?_⟩
      have hencoded := encodeLe_decodeLe trailer
      rw [htrailer, journalTrailerBytes] at hencoded
      rw [hencoded]
    · rw [acceptRecord_progressOf hfollows']
      simp only [progressOf, List.length_append, journalHeader_length, htrailer]
      rw [Nat.add_assoc]
  · rintro ⟨⟨kind, sequence, body⟩, hencoded, hsequence, hfollows, hlt, rfl⟩
    have hlength := encodeJournalRecord_length hencoded
    obtain ⟨hpositive, hrecord, checksum, hchecksum, rfl⟩ := encodeJournalRecord_eq_ok.mp hencoded
    dsimp only at *
    have hbodyLen : body.length < 2 ^ 64 := by
      have hjournal := limits.record_le
      omega
    have hbound : checksum < 256 ^ 4 := by
      obtain ⟨checksum', hlt', heq⟩ := crc32_eq (journalHeader (recordVersion kind)
        (recordFlags kind) sequence body.length ++ body)
      cases hchecksum.symm.trans heq
      omega
    have hread : RecordRead limits (progressOf records completeLen) _ _ :=
      .intro (journalHeader_length _ _ _ _) (decodeJournalHeader_journalHeader hsequence hbodyLen)
        ((admitHeader_progressOf hsequence).mpr ⟨hpositive, hrecord,
          fun last hlast => (hfollows last hlast).withBody []⟩) rfl (encodeLe_length 4 checksum)
        (Nat.ne_of_lt hlt) (by rw [decodeLe_encodeLe hbound]; exact hchecksum)
    rw [acceptRecord_progressOf hfollows] at hread
    rw [hlength, ← Nat.add_assoc completeLen]
    exact hread

theorem tornTail_progressOf (hlimits : limits.maximumJournalBytes < 2 ^ 64) {tail : Bytes} :
    TornTail limits (progressOf records completeLen) tail ↔ Incomplete limits records tail := by
  constructor
  · rintro (hshort | ⟨hheader, hdecode, haccepts, hshort⟩)
    · exact .header hshort
    · obtain ⟨rfl, hsequence⟩ := decodeJournalHeader_eq_ok hheader hdecode
      obtain ⟨hpositive, hrecord, hfollows⟩ := (admitHeader_progressOf hsequence).mp haccepts
      exact .body hpositive hsequence hrecord hfollows hshort
  · rintro (hshort | ⟨hpositive, hsequence, hrecord, hfollows, hshort⟩)
    · exact .header hshort
    · have hjournal := limits.record_le
      exact .body (journalHeader_length _ _ _ _)
        (decodeJournalHeader_journalHeader hsequence (by omega))
        ((admitHeader_progressOf hsequence).mpr ⟨hpositive, hrecord, hfollows⟩) hshort

theorem finish_progressOf : (progressOf records completeLen).finish = recovered records completeLen := by
  cases hlast : records.getLast? with
  | none =>
    obtain rfl := List.getLast?_eq_none_iff.mp hlast
    rfl
  | some last =>
    have hne : records ≠ [] := by
      rintro rfl
      cases hlast
    have hlength : records.length ≠ 0 := fun hzero => hne (List.length_eq_zero_iff.mp hzero)
    simp only [RecoveryProgress.finish, recovered, progressOf, hlast, Option.map_some, hlength,
      if_false, Option.some.injEq, Option.any_some, JournalRecovery.mk.injEq, true_and]
    exact rfl

end Progress

section Runs

/-- A run of complete records behind others. -/
theorem completeRun_progressOf (hlimits : limits.maximumJournalBytes < 2 ^ 64) {bytes : Bytes}
    {before : List JournalRecord} {completeLen : ℕ} {final : RecoveryProgress}
    (hbefore : Consecutive before) (hcount : before.length ≤ limits.maximumRecords) :
    CompleteRun limits (progressOf before completeLen) bytes final ↔
      ∃ records, Written limits records bytes ∧ Consecutive (before ++ records) ∧
        (before ++ records).length ≤ limits.maximumRecords ∧
        final = progressOf (before ++ records) (completeLen + bytes.length) := by
  constructor
  · intro h
    generalize hstart : progressOf before completeLen = start at h
    induction h generalizing before completeLen with
    | nil =>
      subst hstart
      refine ⟨[], .nil, ?_, ?_, ?_⟩
      · rwa [List.append_nil]
      · rwa [List.append_nil]
      · rw [List.append_nil]
        rfl
    | cons hrecord _ ih =>
      subst hstart
      obtain ⟨record, hencoded, hsequence, hfollows, hlt, rfl⟩ :=
        (recordRead_progressOf hlimits hcount).mp hrecord
      obtain ⟨records, hwritten, hchain, hlength, rfl⟩ :=
        ih (consecutive_append.mpr ⟨hbefore, hfollows⟩) (by rw [List.length_append]; exact hlt) rfl
      rw [List.append_assoc] at hchain hlength
      refine ⟨record :: records, .cons hencoded hsequence hwritten, hchain, hlength, ?_⟩
      rw [List.append_assoc, List.length_append, Nat.add_assoc]
      rfl
  · rintro ⟨records, hwritten, hchain, hlength, rfl⟩
    induction hwritten generalizing before completeLen with
    | nil =>
      rw [List.append_nil]
      exact .nil _
    | @cons record records encoded bytes hencoded hsequence hrest ih =>
      rw [List.append_cons] at hchain hlength ⊢
      have hfront : Consecutive (before ++ [record]) := by
        rw [Consecutive, List.isChain_append] at hchain
        exact hchain.1
      have hfollows := (consecutive_append.mp hfront).2
      simp only [List.length_append, List.length_singleton] at hlength
      have hread : RecordRead limits (progressOf before completeLen) encoded
          (progressOf (before ++ [record]) (completeLen + encoded.length)) :=
        (recordRead_progressOf hlimits hcount).mpr
          ⟨record, hencoded, hsequence, hfollows, by omega, rfl⟩
      rw [List.length_append, ← Nat.add_assoc]
      refine .cons hread (ih hfront ?_ hchain ?_)
      · rw [List.length_append, List.length_singleton]
        omega
      · simp only [List.length_append, List.length_singleton]
        omega

/-- A strict prefix of an encoded record that continues the others. -/
theorem Incomplete.ofCut {records : List JournalRecord} {next : JournalRecord} {encoded : Bytes}
    (hencoded : encodeJournalRecord limits next = .ok encoded)
    (hsequence : next.sequence ≤ maximumSequence)
    (hfollows : ∀ last ∈ records.getLast?, Follows last next) {count : ℕ}
    (hcount : count < encoded.length) : Incomplete limits records (encoded.take count) := by
  obtain ⟨kind, sequence, body⟩ := next
  have hlength := encodeJournalRecord_length hencoded
  obtain ⟨hpositive, hrecord, checksum, _, rfl⟩ := encodeJournalRecord_eq_ok.mp hencoded
  by_cases hshort : count < journalHeaderBytes
  · refine .header ?_
    rw [List.length_take]
    omega
  · rw [List.take_append, List.take_of_length_le (by rw [journalHeader_length]; omega)]
    refine .body hpositive hsequence hrecord (fun last hlast => (hfollows last hlast).withBody []) ?_
    rw [List.length_take, journalHeader_length]
    dsimp only at *
    omega

/-- Recovery accepts exactly the runs of encoded records with an incomplete one behind them. -/
theorem recoverJournalBytes_written (hlimits : limits.maximumJournalBytes < 2 ^ 64) {input : Bytes}
    {recovery : JournalRecovery} : recoverJournalBytes input limits = .ok recovery ↔
      input.length ≤ limits.maximumJournalBytes ∧ ∃ records complete tail,
        input = complete ++ tail ∧ Written limits records complete ∧ Consecutive records ∧
        records.length ≤ limits.maximumRecords ∧ Incomplete limits records tail ∧
        recovery = recovered records complete.length := by
  have hruns : ∀ {bytes : Bytes} {final : RecoveryProgress},
      CompleteRun limits .start bytes final ↔ ∃ records, Written limits records bytes ∧
        Consecutive records ∧ records.length ≤ limits.maximumRecords ∧
        final = progressOf records bytes.length := by
    intro bytes final
    have hstart : RecoveryProgress.start = progressOf [] 0 := rfl
    rw [hstart, completeRun_progressOf hlimits List.isChain_nil (Nat.zero_le _)]
    simp only [List.nil_append, Nat.zero_add]
  rw [recoverJournalBytes_eq_ok]
  constructor
  · rintro ⟨progress, ⟨hlength, complete, tail, hsplit, hrun, htorn⟩, rfl⟩
    obtain ⟨records, hwritten, hchain, hcount, rfl⟩ := hruns.mp hrun
    exact ⟨hlength, records, complete, tail, hsplit, hwritten, hchain, hcount,
      (tornTail_progressOf hlimits).mp htorn, finish_progressOf⟩
  · rintro ⟨hlength, records, complete, tail, hsplit, hwritten, hchain, hcount, htail, rfl⟩
    exact ⟨progressOf records complete.length, ⟨hlength, complete, tail, hsplit,
      hruns.mpr ⟨records, hwritten, hchain, hcount, rfl⟩, (tornTail_progressOf hlimits).mpr htail⟩,
      finish_progressOf.symm⟩

end Runs

section Inversion

/-- What was written is recovered at every cut inside one further record, and nothing else
is accepted. -/
theorem recovery_inverts_writing (limits : JournalLimits)
    (hlimits : limits.maximumJournalBytes < 2 ^ 64) :
    (∀ records complete next encoded count, Written limits records complete →
      Consecutive (records ++ [next]) → encodeJournalRecord limits next = .ok encoded →
      next.sequence ≤ maximumSequence → count < encoded.length →
      records.length ≤ limits.maximumRecords →
      (complete ++ encoded.take count).length ≤ limits.maximumJournalBytes →
      recoverJournalBytes (complete ++ encoded.take count) limits =
        .ok (recovered records complete.length)) ∧
    ∀ input recovery, recoverJournalBytes input limits = .ok recovery →
      ∃ records complete tail, input = complete ++ tail ∧ Written limits records complete ∧
        Consecutive records ∧ Incomplete limits records tail ∧
        recovery = recovered records complete.length := by
  constructor
  · intro records complete next encoded count hwritten hchain hencoded hsequence hcount hrecords
      hlength
    obtain ⟨hbefore, hfollows⟩ := consecutive_append.mp hchain
    exact (recoverJournalBytes_written hlimits).mpr ⟨hlength, records, complete, _, rfl, hwritten,
      hbefore, hrecords, .ofCut hencoded hsequence hfollows hcount, rfl⟩
  · intro input recovery h
    obtain ⟨_, records, complete, tail, hsplit, hwritten, hchain, _, htail, hrecovery⟩ :=
      (recoverJournalBytes_written hlimits).mp h
    exact ⟨records, complete, tail, hsplit, hwritten, hchain, htail, hrecovery⟩

theorem eight_records_pos : 0 < 8 := by decide

def smallLimits : JournalLimits where
  maximumRecordBytes := 128
  maximumJournalBytes := 1024
  maximumRecords := 8
  overhead_le := by decide
  record_le := by decide
  records_pos := eight_records_pos

def legacyRecord (sequence : ℕ) : JournalRecord := ⟨.legacySnapshot, sequence, []⟩

theorem recovery_inverts_writing_small : ∃ first second,
    encodeJournalRecord smallLimits (legacyRecord 1) = .ok first ∧
      encodeJournalRecord smallLimits (legacyRecord 2) = .ok second ∧
      recoverJournalBytes (first ++ second.take 25) smallLimits =
        .ok (recovered [legacyRecord 1] first.length) := by
  obtain ⟨first, hfirst⟩ := encodeJournalRecord_succeeds smallLimits
    (legacyRecord 1) (by decide) (by decide)
  obtain ⟨second, hsecond⟩ := encodeJournalRecord_succeeds smallLimits
    (legacyRecord 2) (by decide) (by decide)
  have hfirstLength : first.length = 28 := encodeJournalRecord_length hfirst
  have hsecondLength : second.length = 28 := encodeJournalRecord_length hsecond
  refine ⟨first, second, hfirst, hsecond, ?_⟩
  have hwritten : Written smallLimits [legacyRecord 1] (first ++ []) :=
    .cons hfirst (by decide) .nil
  rw [List.append_nil] at hwritten
  refine (recovery_inverts_writing smallLimits (by decide)).1 _ _ (legacyRecord 2) second 25 hwritten
    (List.isChain_pair.mpr ⟨rfl, rfl⟩) hsecond (by decide) (by omega) (by decide) ?_
  rw [List.length_append, List.length_take, hfirstLength, hsecondLength]
  decide

/-- Two legacy snapshots are a journal of which recovery keeps only the second. -/
theorem legacy_snapshot_dropped : ¬∀ limits records complete,
    limits.maximumJournalBytes < 2 ^ 64 → Written limits records complete → Consecutive records →
    records.length ≤ limits.maximumRecords → complete.length ≤ limits.maximumJournalBytes →
    ∃ recovery, recoverJournalBytes complete limits = .ok recovery ∧ recovery.records = records := by
  intro hall
  obtain ⟨first, hfirst⟩ := encodeJournalRecord_succeeds smallLimits
    (legacyRecord 1) (by decide) (by decide)
  obtain ⟨second, hsecond⟩ := encodeJournalRecord_succeeds smallLimits
    (legacyRecord 2) (by decide) (by decide)
  have hwritten : Written smallLimits [legacyRecord 1, legacyRecord 2] (first ++ (second ++ [])) :=
    .cons hfirst (by decide) (.cons hsecond (by decide) .nil)
  have hchain : Consecutive [legacyRecord 1, legacyRecord 2] :=
    List.isChain_pair.mpr ⟨rfl, rfl⟩
  have hlength : (first ++ (second ++ [])).length ≤ smallLimits.maximumJournalBytes := by
    rw [List.append_nil, List.length_append, encodeJournalRecord_length hfirst,
      encodeJournalRecord_length hsecond]
    decide
  obtain ⟨recovery, hrecovery, hrecords⟩ :=
    hall smallLimits _ _ (by decide) hwritten hchain (by decide) hlength
  have hkept := (recoverJournalBytes_written (by decide)).mpr ⟨hlength, _, _, [],
    (List.append_nil _).symm, hwritten, hchain, (by decide), .header (by decide), rfl⟩
  cases hrecovery.symm.trans hkept
  cases hrecords

end Inversion

end Nocter.DurableStore
