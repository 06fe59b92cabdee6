import Nocter.DurableStore.JournalFormat

/-!
# What recovery reads

An accepted journal is a run of complete records followed by a torn tail.
Appending a record extends the run, appending a strict prefix of one only makes
another torn tail, and cutting inside the tail changes nothing.
-/

namespace Nocter.DurableStore

variable {limits : JournalLimits}

/-- A complete record and the progress after it. -/
inductive RecordRead (limits : JournalLimits) (progress : RecoveryProgress) :
    Bytes → RecoveryProgress → Prop where
  | intro {headerBytes body trailer : Bytes} {header : JournalHeader}
      (hheader : headerBytes.length = journalHeaderBytes)
      (hdecode : decodeJournalHeader headerBytes = .ok header)
      (haccepts : progress.admitHeader limits header = .ok ())
      (hbody : body.length = header.bodyLen)
      (htrailer : trailer.length = journalTrailerBytes)
      (hroom : progress.recordCount ≠ limits.maximumRecords)
      (hchecksum : crc32 (headerBytes ++ body) = .ok (decodeLe trailer)) :
      RecordRead limits progress (headerBytes ++ (body ++ trailer))
        (progress.acceptRecord header body
          (progress.completeLen + journalHeaderBytes + (header.bodyLen + journalTrailerBytes)))

/-- A tail too short for the record it starts. -/
inductive TornTail (limits : JournalLimits) (progress : RecoveryProgress) : Bytes → Prop where
  | header {tail : Bytes} (hshort : tail.length < journalHeaderBytes) :
      TornTail limits progress tail
  | body {headerBytes rest : Bytes} {header : JournalHeader}
      (hheader : headerBytes.length = journalHeaderBytes)
      (hdecode : decodeJournalHeader headerBytes = .ok header)
      (haccepts : progress.admitHeader limits header = .ok ())
      (hshort : rest.length < header.bodyLen + journalTrailerBytes) :
      TornTail limits progress (headerBytes ++ rest)

theorem TornTail.nil (progress : RecoveryProgress) : TornTail limits progress [] :=
  .header (by decide)

theorem take_append_split {remaining : Bytes} {count : ℕ} (h : ¬remaining.length < count) :
    ∃ front rest, remaining = front ++ rest ∧ front.length = count :=
  ⟨remaining.take count, remaining.drop count, (List.take_append_drop count remaining).symm,
    List.length_take_of_le (by omega)⟩

theorem validateCompleteRecord_eq_ok {headerBytes body trailer : Bytes} {bodyLen : ℕ} (rest : Bytes)
    (hbody : body.length = bodyLen) (htrailer : trailer.length = journalTrailerBytes) :
    validateCompleteRecord headerBytes (body ++ (trailer ++ rest)) bodyLen = .ok () ↔
      crc32 (headerBytes ++ body) = .ok (decodeLe trailer) := by
  rw [validateCompleteRecord, ← hbody, List.take_left, List.drop_left, ← htrailer, List.take_left,
    bind_eq_ok]
  constructor
  · rintro ⟨checksum, hchecksum, hequal⟩
    rw [hchecksum, not_not.mp (reject_eq_ok.mp hequal)]
  · intro hchecksum
    exact ⟨_, hchecksum, reject_of_not (not_not_intro rfl)⟩

/-- Another round of the loop reads exactly one complete record. -/
theorem recoverRecord_eq_next {progress progress' : RecoveryProgress} {remaining : Bytes}
    {cursor : ByteCursor} :
    recoverRecord limits progress ⟨remaining, progress.completeLen⟩ = .ok (.next progress' cursor) ↔
      ∃ record, RecordRead limits progress record progress' ∧
        remaining = record ++ cursor.remaining ∧ cursor.offset = progress'.completeLen := by
  constructor
  · intro h
    rw [recoverRecord] at h
    split at h
    case isTrue => cases h
    case isFalse hlong =>
      obtain ⟨headerBytes, afterHeader, rfl, hheader⟩ := take_append_split hlong
      simp only [ByteCursor.take_append_of_length hheader, otherwise_some, ok_bind, bind_eq_ok] at h
      obtain ⟨header, hdecode, _, haccepts, h⟩ := h
      split at h
      case isTrue => cases h
      case isFalse hcomplete =>
        obtain ⟨bodyTrailer, rest, rfl, hlength⟩ := take_append_split hcomplete
        obtain ⟨body, trailer, rfl, hbody⟩ := take_append_split
          (show ¬bodyTrailer.length < header.bodyLen by omega)
        have htrailer : trailer.length = journalTrailerBytes := by
          rw [List.length_append] at hlength
          omega
        simp only [bind_eq_ok, ByteCursor.take_append_of_length hlength, otherwise_some,
          Except.ok.injEq] at h
        obtain ⟨_, hroom, _, hvalid, taken, rfl, h⟩ := h
        cases h
        rw [List.append_assoc, validateCompleteRecord_eq_ok rest hbody htrailer] at hvalid
        have hread : RecordRead limits progress _ _ := .intro hheader hdecode haccepts hbody htrailer
          (reject_eq_ok.mp hroom) hvalid
        have htake : (body ++ trailer ++ rest).take header.bodyLen = body := by
          rw [List.append_assoc, ← hbody, List.take_left]
        refine ⟨headerBytes ++ (body ++ trailer), ?_, ?_, rfl⟩
        · rw [htake]
          exact hread
        · simp only [List.append_assoc]
  · rintro ⟨record, hread, rfl, hoffset⟩
    cases hread with
    | @intro headerBytes body trailer header hheader hdecode haccepts hbody htrailer hroom hchecksum =>
      obtain ⟨rest, offset⟩ := cursor
      simp only [RecoveryProgress.acceptRecord] at hoffset
      subst hoffset
      have hlength : (body ++ trailer).length = header.bodyLen + journalTrailerBytes := by
        rw [List.length_append, hbody, htrailer]
      have hlong : ¬(headerBytes ++ (body ++ trailer) ++ rest).length < journalHeaderBytes := by
        rw [List.append_assoc, List.length_append, hheader]
        omega
      have hcomplete : ¬(body ++ trailer ++ rest).length < header.bodyLen + journalTrailerBytes := by
        rw [List.length_append, hlength]
        omega
      have hvalid := (validateCompleteRecord_eq_ok rest hbody htrailer).mpr hchecksum
      have htake : (body ++ (trailer ++ rest)).take header.bodyLen = body := by
        rw [← hbody, List.take_left]
      rw [recoverRecord, ByteCursor.remainingLen, if_neg hlong, List.append_assoc,
        ByteCursor.take_append_of_length hheader, otherwise_some, ok_bind]
      simp only [hdecode, haccepts, ByteCursor.remainingLen, if_neg hcomplete, reject_of_not hroom,
        ok_bind, ByteCursor.take_append_of_length hlength, otherwise_some]
      simp only [List.append_assoc, hvalid, ok_bind, htake]

/-- A cursor one record further is shorter. -/
theorem RecordRead.length_pos {progress progress' : RecoveryProgress} {record : Bytes}
    (h : RecordRead limits progress record progress') : 0 < record.length := by
  cases h with
  | intro hheader _ _ _ _ _ _ =>
    rw [List.length_append, hheader, journalHeaderBytes]
    omega

theorem RecordRead.completeLen {progress progress' : RecoveryProgress} {record : Bytes}
    (h : RecordRead limits progress record progress') :
    progress'.completeLen = progress.completeLen + record.length := by
  cases h with
  | intro hheader _ _ hbody htrailer _ _ =>
    rw [List.length_append, List.length_append, hheader, hbody, htrailer]
    exact Nat.add_assoc _ _ _

/-- The loop stops exactly at a torn tail. -/
theorem recoverRecord_eq_stop {progress : RecoveryProgress} {tail : Bytes} {offset : ℕ} :
    (∃ progress', recoverRecord limits progress ⟨tail, offset⟩ = .ok (.stop progress')) ↔
      TornTail limits progress tail := by
  constructor
  · rintro ⟨progress', h⟩
    rw [recoverRecord] at h
    split at h
    case isTrue hshort => exact .header hshort
    case isFalse hlong =>
      obtain ⟨headerBytes, rest, rfl, hheader⟩ := take_append_split hlong
      simp only [ByteCursor.take_append_of_length hheader, otherwise_some, ok_bind, bind_eq_ok] at h
      obtain ⟨header, hdecode, _, haccepts, h⟩ := h
      split at h
      case isTrue hshort => exact .body hheader hdecode haccepts hshort
      case isFalse =>
        simp only [bind_eq_ok] at h
        obtain ⟨_, _, _, _, _, _, h⟩ := h
        cases h
  · intro htorn
    cases htorn with
    | header hshort => exact ⟨progress, if_pos hshort⟩
    | @body headerBytes rest header hheader hdecode haccepts hshort =>
      have hlong : ¬(headerBytes ++ rest).length < journalHeaderBytes := by
        rw [List.length_append, hheader]
        omega
      refine ⟨progress.noteFormat header, ?_⟩
      rw [recoverRecord, ByteCursor.remainingLen, if_neg hlong,
        ByteCursor.take_append_of_length hheader, otherwise_some, ok_bind]
      simp only [hdecode, haccepts, ok_bind]
      exact if_pos hshort

/-- Stopping changes at most the noted format. -/
theorem recoverRecord_stop_progress {progress progress' : RecoveryProgress} {cursor : ByteCursor}
    (h : recoverRecord limits progress cursor = .ok (.stop progress')) :
    progress' = progress ∨ ∃ header, progress' = progress.noteFormat header := by
  rw [recoverRecord] at h
  split at h
  case isTrue =>
    cases h
    exact .inl rfl
  case isFalse =>
    simp only [bind_eq_ok] at h
    obtain ⟨taken, _, header, _, _, _, h⟩ := h
    split at h
    · cases h
      exact .inr ⟨header, rfl⟩
    · simp only [bind_eq_ok] at h
      obtain ⟨_, _, _, _, _, _, h⟩ := h
      cases h

theorem recoverRecord_decreasing {progress progress' : RecoveryProgress} {cursor cursor' : ByteCursor}
    (h : recoverRecord limits progress cursor = .ok (.next progress' cursor')) :
    cursor'.remaining.length < cursor.remaining.length := by
  rw [recoverRecord] at h
  split at h
  case isTrue => cases h
  case isFalse =>
    simp only [bind_eq_ok, otherwise_eq_ok, Prod.exists] at h
    obtain ⟨_, afterHeader, hheader, header, _, _, _, h⟩ := h
    split at h
    · cases h
    · simp only [bind_eq_ok, otherwise_eq_ok, Prod.exists] at h
      obtain ⟨_, _, _, _, _, rest, htake, h⟩ := h
      cases h
      have := ByteCursor.take_length hheader
      have := ByteCursor.take_length htake
      have : 0 < journalHeaderBytes := by decide
      omega

/-- The loop of `recover_journal_bytes`. -/
def recoverLoop (limits : JournalLimits) (progress : RecoveryProgress) (cursor : ByteCursor) :
    Outcome RecoveryProgress :=
  if cursor.isFinished then .ok progress
  else
    match _h : recoverRecord limits progress cursor with
    | .error failure => .error failure
    | .ok (.stop progress') => .ok progress'
    | .ok (.next progress' cursor') => recoverLoop limits progress' cursor'
termination_by cursor.remaining.length
decreasing_by exact recoverRecord_decreasing _h

def recoverJournalBytes (input : Bytes) (limits : JournalLimits) : Outcome JournalRecovery := do
  reject (input.length > limits.maximumJournalBytes) journalTooLarge
  let progress ← recoverLoop limits .start (.new input)
  .ok progress.finish

/-- A run of complete records. -/
inductive CompleteRun (limits : JournalLimits) : RecoveryProgress → Bytes → RecoveryProgress → Prop where
  | nil (progress : RecoveryProgress) : CompleteRun limits progress [] progress
  | cons {progress middle final : RecoveryProgress} {record rest : Bytes}
      (hrecord : RecordRead limits progress record middle) (hrest : CompleteRun limits middle rest final) :
      CompleteRun limits progress (record ++ rest) final

namespace CompleteRun

theorem snoc {progress middle final : RecoveryProgress} {bytes record : Bytes}
    (hrun : CompleteRun limits progress bytes middle) (hrecord : RecordRead limits middle record final) :
    CompleteRun limits progress (bytes ++ record) final := by
  induction hrun with
  | nil progress =>
    rw [List.nil_append, ← List.append_nil record]
    exact .cons hrecord (.nil final)
  | cons hfirst _ ih =>
    rw [List.append_assoc]
    exact .cons hfirst (ih hrecord)

theorem completeLen {progress final : RecoveryProgress} {bytes : Bytes}
    (hrun : CompleteRun limits progress bytes final) :
    final.completeLen = progress.completeLen + bytes.length := by
  induction hrun with
  | nil => rfl
  | cons hrecord _ ih =>
    rw [ih, hrecord.completeLen, List.length_append, Nat.add_assoc]

/-- The loop runs through complete records and continues behind them. -/
theorem recoverLoop {progress final : RecoveryProgress} {bytes : Bytes}
    (hrun : CompleteRun limits progress bytes final) (tail : Bytes) :
    recoverLoop limits progress ⟨bytes ++ tail, progress.completeLen⟩ =
      DurableStore.recoverLoop limits final ⟨tail, final.completeLen⟩ := by
  induction hrun with
  | nil => rfl
  | @cons progress middle final record rest hrecord _ ih =>
    have hnext : recoverRecord limits progress ⟨record ++ (rest ++ tail), progress.completeLen⟩ =
        .ok (.next middle ⟨rest ++ tail, middle.completeLen⟩) :=
      recoverRecord_eq_next.mpr ⟨record, hrecord, rfl, rfl⟩
    have hmore : ¬(ByteCursor.mk (record ++ (rest ++ tail)) progress.completeLen).isFinished := by
      have := hrecord.length_pos
      rw [ByteCursor.isFinished, List.isEmpty_iff_length_eq_zero, List.length_append]
      omega
    rw [List.append_assoc, DurableStore.recoverLoop, if_neg hmore]
    split
    case h_1 failure h => rw [hnext] at h; cases h
    case h_2 stopped h => rw [hnext] at h; cases h
    case h_3 next cursor h =>
      rw [hnext] at h
      cases h
      exact ih

end CompleteRun

/-- Progress that differs only by a format noted at a torn header. -/
def SameUpToFormat (final progress : RecoveryProgress) : Prop :=
  final = progress ∨ ∃ header, final = progress.noteFormat header

theorem recoverLoop_torn {progress : RecoveryProgress} {tail : Bytes}
    (htorn : TornTail limits progress tail) (offset : ℕ) :
    ∃ final, recoverLoop limits progress ⟨tail, offset⟩ = .ok final ∧
      SameUpToFormat final progress := by
  rw [recoverLoop]
  split
  · exact ⟨progress, rfl, .inl rfl⟩
  · obtain ⟨final, hstop⟩ := recoverRecord_eq_stop.mpr htorn
    refine ⟨final, ?_, recoverRecord_stop_progress hstop⟩
    split
    case h_1 failure h => rw [hstop] at h; cases h
    case h_2 stopped h =>
      rw [hstop] at h
      cases h
      rfl
    case h_3 next cursor h => rw [hstop] at h; cases h

/-- Whatever the loop accepts is a complete run with a torn tail. -/
theorem recoverLoop_split {progress final : RecoveryProgress} {bytes : Bytes}
    (h : recoverLoop limits progress ⟨bytes, progress.completeLen⟩ = .ok final) :
    ∃ complete tail middle, bytes = complete ++ tail ∧
      CompleteRun limits progress complete middle ∧ TornTail limits middle tail ∧
        SameUpToFormat final middle := by
  induction hlength : bytes.length using Nat.strong_induction_on generalizing progress bytes with
  | _ length ih =>
    rw [recoverLoop] at h
    split at h
    case isTrue hfinished =>
      cases h
      have hempty : bytes = [] := List.isEmpty_iff.mp hfinished
      subst hempty
      exact ⟨[], [], final, rfl, .nil final, .nil final, .inl rfl⟩
    case isFalse =>
      split at h
      case h_1 => cases h
      case h_2 stopped hstop =>
        cases h
        exact ⟨[], bytes, progress, rfl, .nil progress, recoverRecord_eq_stop.mp ⟨final, hstop⟩,
          recoverRecord_stop_progress hstop⟩
      case h_3 next cursor hnext =>
        obtain ⟨record, hrecord, hbytes, hoffset⟩ := recoverRecord_eq_next.mp hnext
        obtain ⟨rest, offset⟩ := cursor
        simp only at hbytes hoffset
        subst hbytes hoffset
        have hpos := hrecord.length_pos
        rw [List.length_append] at hlength
        obtain ⟨complete, tail, middle, rfl, hrun, htorn, hsame⟩ := ih rest.length (by omega) h rfl
        exact ⟨record ++ complete, tail, middle, (List.append_assoc _ _ _).symm, .cons hrecord hrun,
          htorn, hsame⟩

/-- A format is known as soon as one record is complete. -/
theorem CompleteRun.format_known {progress final : RecoveryProgress} {bytes : Bytes}
    (hrun : CompleteRun limits progress bytes final)
    (h : progress.recordCount = 0 ∨ progress.legacyFormat.isSome) :
    final.recordCount = 0 ∨ final.legacyFormat.isSome := by
  induction hrun with
  | nil => exact h
  | cons hrecord _ ih =>
    cases hrecord
    exact ih (.inr rfl)

theorem finish_sameUpToFormat {final progress : RecoveryProgress}
    (hknown : progress.recordCount = 0 ∨ progress.legacyFormat.isSome)
    (h : SameUpToFormat final progress) : final.finish = progress.finish := by
  obtain rfl | ⟨header, rfl⟩ := h
  · rfl
  · obtain hzero | hsome := hknown
    · simp [RecoveryProgress.finish, RecoveryProgress.noteFormat, hzero]
    · obtain ⟨format, hformat⟩ := Option.isSome_iff_exists.mp hsome
      simp [RecoveryProgress.finish, RecoveryProgress.noteFormat, hformat]

/-- A journal as recovery reads it. -/
structure Scanned (limits : JournalLimits) (input : Bytes) (progress : RecoveryProgress) : Prop where
  length_le : input.length ≤ limits.maximumJournalBytes
  split : ∃ complete tail, input = complete ++ tail ∧
    CompleteRun limits .start complete progress ∧ TornTail limits progress tail

/-- Recovery accepts exactly the scanned journals. -/
theorem recoverJournalBytes_eq_ok {input : Bytes} {recovery : JournalRecovery} :
    recoverJournalBytes input limits = .ok recovery ↔
      ∃ progress, Scanned limits input progress ∧ recovery = progress.finish := by
  rw [recoverJournalBytes, bind_eq_ok]
  simp only [bind_eq_ok]
  constructor
  · rintro ⟨_, hsize, final, hloop, heq⟩
    cases heq
    obtain ⟨complete, tail, progress, hsplit, hrun, htorn, hsame⟩ := recoverLoop_split hloop
    have hlength := reject_eq_ok.mp hsize
    exact ⟨progress, ⟨by omega, complete, tail, hsplit, hrun, htorn⟩,
      finish_sameUpToFormat (hrun.format_known (.inl rfl)) hsame⟩
  · rintro ⟨progress, ⟨hlength, complete, tail, rfl, hrun, htorn⟩, rfl⟩
    obtain ⟨final, hloop, hsame⟩ := recoverLoop_torn htorn progress.completeLen
    refine ⟨(), reject_of_not (by omega), final, ?_, ?_⟩
    · exact (hrun.recoverLoop tail).trans hloop
    · rw [finish_sameUpToFormat (hrun.format_known (.inl rfl)) hsame]

theorem CompleteRun.scanned {complete : Bytes} {progress : RecoveryProgress}
    (hrun : CompleteRun limits .start complete progress)
    (hlength : complete.length ≤ limits.maximumJournalBytes) : Scanned limits complete progress :=
  ⟨hlength, complete, [], (List.append_nil complete).symm, hrun, .nil progress⟩

/-- Cutting a torn tail leaves a torn tail. -/
theorem TornTail.take {progress : RecoveryProgress} {tail : Bytes}
    (htorn : TornTail limits progress tail) (count : ℕ) :
    TornTail limits progress (tail.take count) := by
  cases htorn with
  | header hshort =>
    exact .header (Nat.lt_of_le_of_lt (List.length_take_le' count tail) hshort)
  | @body headerBytes rest header hheader hdecode haccepts hshort =>
    by_cases hcount : count < journalHeaderBytes
    · refine .header ?_
      rw [List.length_take]
      omega
    · rw [List.take_append, List.take_of_length_le (by omega)]
      exact .body hheader hdecode haccepts (Nat.lt_of_le_of_lt (List.length_take_le' _ rest) hshort)

/-- A strict prefix of a record is a torn tail. -/
theorem RecordRead.torn {progress progress' : RecoveryProgress} {record : Bytes}
    (hrecord : RecordRead limits progress record progress') {count : ℕ} (hcount : count < record.length) :
    TornTail limits progress (record.take count) := by
  cases hrecord with
  | @intro headerBytes body trailer header hheader hdecode haccepts hbody htrailer _ _ =>
    by_cases hshort : count < journalHeaderBytes
    · refine .header ?_
      rw [List.length_take]
      omega
    · rw [List.length_append, List.length_append] at hcount
      rw [List.take_append, List.take_of_length_le (by omega)]
      refine .body hheader hdecode haccepts ?_
      rw [List.length_take]
      omega

/-- Truncating a journal no shorter than its complete part keeps what it holds. -/
theorem Scanned.take {input : Bytes} {progress : RecoveryProgress}
    (hscan : Scanned limits input progress) {count : ℕ} (hcount : progress.completeLen ≤ count) :
    Scanned limits (input.take count) progress := by
  obtain ⟨hlength, complete, tail, rfl, hrun, htorn⟩ := hscan
  have hcomplete : progress.completeLen = 0 + complete.length := hrun.completeLen
  refine ⟨(List.length_take_le' _ _).trans hlength, complete, tail.take (count - complete.length),
    ?_, hrun, htorn.take _⟩
  rw [List.take_append, List.take_of_length_le (by omega)]

theorem Scanned.take_completeLen {input : Bytes} {progress : RecoveryProgress}
    (hscan : Scanned limits input progress) :
    CompleteRun limits .start (input.take progress.completeLen) progress ∧
      (input.take progress.completeLen).length = progress.completeLen := by
  obtain ⟨_, complete, tail, rfl, hrun, _⟩ := hscan
  have hcomplete : progress.completeLen = 0 + complete.length := hrun.completeLen
  rw [hcomplete, Nat.zero_add, List.take_left]
  exact ⟨hrun, rfl⟩

end Nocter.DurableStore
