import Nocter.DurableStore.StoreInvariant

/-!
# Commit, compaction and opening

Each publication either succeeds, and then the file holds the published
version, or fails, and then it holds the old or the published one.
-/

namespace Nocter.DurableStore

variable {limits : StoreLimits}

theorem advance_owned {disk : Bytes} {journal : Journal} {progress : RecoveryProgress}
    {version : Version} (hlimits : journal.limits = limits.journal)
    (hformat : journal.format = .current) (hbytes : journal.byteLen = disk.length)
    (hdisk : disk.length ≤ limits.maximumJournalBytes)
    (hrun : CompleteRun limits.journal .start disk progress)
    (hreplays : Replays limits progress version) (hcurrent : progress.legacyFormat ≠ some true)
    (hcount : progress.recordCount = journal.recordCount) :
    JournalOwned limits disk (advanceJournalSequence journal version.sequence) version := by
  rw [advanceJournalSequence]
  by_cases hlimit : version.sequence = maximumSequence
  · rw [if_pos hlimit]
    refine ⟨hlimits, hbytes, hdisk, ?_, ?_, (fun h => by cases h), progress, hrun, hreplays, hcurrent, hcount⟩
    · simp [journalIsCurrent, hformat]
    · simp [hlimit]
  · rw [if_neg hlimit]
    refine ⟨hlimits, hbytes, hdisk, ?_, ?_, (fun _ => rfl), progress, hrun, hreplays, hcurrent, hcount⟩
    · simp [journalIsCurrent, hformat]
    · simp [hlimit]

/-- A checkpoint file that is written completely, or not at all. -/
theorem writeCheckpoint_written (fate : Fate) (journal : Journal) (disk : Bytes) (version : Version)
    {snapshot : Bytes} (hlimits : journal.limits = limits.journal) (hwithin : version.state.Within limits)
    (hpositive : version.sequence ≠ 0) (hsequence : version.sequence ≤ maximumSequence)
    (hsnapshot : encodeSnapshot version.state version.state.snapshotBytes = .ok snapshot) :
    match writeCheckpoint fate ⟨journal, disk⟩ version.sequence snapshot with
    | (.ok (), file) => JournalOwned limits file.disk file.journal version
    | (.error _, file) =>
      fate ≠ .completed ∧ (file.disk = disk ∨ Holds limits file.disk version) := by
  have hlength : snapshot.length ≤ limits.journal.maximumRecordBytes := by
    rw [encodeSnapshot_eq, Except.ok.injEq] at hsnapshot
    rw [← hsnapshot, encodedSnapshot_length]
    exact hwithin.snapshot_le
  obtain ⟨encoded, hencoded⟩ := encodeCurrentJournalRecord_succeeds limits.journal
    (show recordKindIsLegacy .checkpoint = false from rfl) hpositive hlength
  obtain ⟨hrun, hdisk, hreplays⟩ := checkpoint_run hwithin hpositive hsequence hsnapshot hencoded
  have hcurrent : (RecoveryProgress.start.extend .checkpoint version.sequence snapshot).legacyFormat ≠
      some true := by simp [RecoveryProgress.extend]
  rw [writeCheckpoint]
  simp only [hlimits, hencoded, replaceJournalRecord]
  cases fate with
  | completed =>
    exact advance_owned rfl rfl rfl hdisk hrun hreplays hcurrent rfl
  | interrupted kept =>
    simp only [Fate.answer, Fate.writeDurable]
    refine ⟨(fun h => by cases h), ?_⟩
    split
    · exact .inl rfl
    · exact .inr ⟨_, hrun.scanned hdisk, hreplays⟩

/-- What a commit leaves behind: the published version under a writable owner,
or a file that holds the old or the attempted version. -/
inductive Published (limits : StoreLimits) (fate : Fate) (base : Version) (store : Store) :
    Outcome ℕ × Store × Bytes → Prop where
  | done {sequence : ℕ} {store' : Store} {disk' : Bytes}
      (hsequence : sequence = if store.dirty then base.sequence + 1 else base.sequence)
      (howned : Owned limits disk' store' ⟨store.state, sequence⟩ []) :
      Published limits fate base store (.ok sequence, store', disk')
  | failed {failure : Failure} {store' : Store} {disk' : Bytes}
      (hcause : fate ≠ .completed ∨ base.sequence = maximumSequence) (hclosed : store'.writable = false)
      (hholds : Holds limits disk' base ∨ Holds limits disk' (World.attempt store)) :
      Published limits fate base store (.error failure, store', disk')

theorem Owned.publish {disk disk' : Bytes} {store : Store} {base : Version}
    {accepted : List StoreMutation} {journal : Journal} {sequence : ℕ}
    (h : Owned limits disk store base accepted)
    (hjournal : JournalOwned limits disk' journal ⟨store.state, sequence⟩) :
    Owned limits disk' (store.publish journal sequence) ⟨store.state, sequence⟩ [] :=
  ⟨hjournal, Staged.initial h.staged.state h.staged.sameLimits rfl h.staged.bytes rfl rfl, rfl, rfl⟩

theorem Owned.base_sequence_le {disk : Bytes} {store : Store} {base : Version}
    {accepted : List StoreMutation} (h : Owned limits disk store base accepted) :
    base.sequence ≤ maximumSequence := by
  obtain ⟨progress, hrun, hreplays, _⟩ := h.journal.run
  exact hreplays.sequence_le (hrun.invariant RecoveryProgress.start_invariant)

theorem commitCheckpoint_published {disk : Bytes} {store : Store} {base : Version}
    {accepted : List StoreMutation} (fate : Fate) (expected : Option ℕ)
    (h : Owned limits disk store base accepted) (hdirty : store.dirty = true)
    (hexpected : ∀ sequence ∈ expected, sequence = store.journal.nextSequence) :
    Published limits fate base store (store.commitCheckpoint fate ⟨store.journal, disk⟩ expected) := by
  have hsnapshot := encodeSnapshot_eq store.state
  rw [Store.commitCheckpoint, h.staged.bytes, hsnapshot]
  simp only [commitJournalCheckpoint, h.journal.current, Bool.not_true, Bool.or_false]
  cases husable : store.journal.usable with
  | false => exact .failed (.inr (h.journal.exhausted husable)) rfl (.inl h.journal.holds)
  | true =>
    have hnext := h.journal.next husable
    have hlimit := h.journal.usable.mp husable
    have hbound := h.base_sequence_le
    have hwritten := writeCheckpoint_written fate store.journal disk ⟨store.state, base.sequence + 1⟩
      h.journal.sameLimits h.staged.state (Nat.succ_ne_zero _) (by simp only; omega) hsnapshot
    simp only [Bool.not_true, Bool.false_eq_true, if_false, hnext]
    cases hresult : writeCheckpoint fate ⟨store.journal, disk⟩ (base.sequence + 1) _ with
    | mk result file =>
      rw [hresult] at hwritten
      cases result with
      | error failure =>
        obtain ⟨hfate, hwritten⟩ := hwritten
        refine .failed (.inl hfate) rfl ?_
        obtain hsame | hholds := hwritten
        · exact .inl (hsame ▸ h.journal.holds)
        · refine .inr ?_
          rw [World.attempt, h.sequence]
          exact hholds
      | ok =>
        have hplan : expected.any (base.sequence + 1 != ·) = false := by
          cases expected with
          | none => rfl
          | some sequence =>
            rw [hexpected sequence rfl, hnext]
            simp
        simp only [Except.map, hplan, Bool.false_eq_true, if_false]
        exact .done (by rw [hdirty]; rfl) (h.publish hwritten)

/-- A batch appended to an owned file, completely or in part. -/
theorem append_written {disk body encoded : Bytes} {store : Store} {base : Version}
    {accepted : List StoreMutation} (h : Owned limits disk store base accepted)
    (husable : store.journal.usable = true)
    (hfits : mutationBatchBytes accepted ≤ limits.maximumSnapshotBytes)
    (hbody : body = mutationBatchHeader accepted.length ++ accepted.flatMap encodeMutation)
    (hencoded : encodeCurrentJournalRecord limits.journal .mutations (base.sequence + 1) body =
      .ok encoded) (hrecords : store.journal.recordCount ≠ limits.maximumJournalRecords)
    (hroom : encoded.length ≤ limits.maximumJournalBytes - disk.length) :
    (∀ journal : Journal, journal.limits = limits.journal → journal.format = .current →
        journal.byteLen = store.journal.byteLen + encoded.length →
        journal.recordCount = store.journal.recordCount + 1 →
        JournalOwned limits (disk ++ encoded) (advanceJournalSequence journal (base.sequence + 1))
          ⟨store.state, base.sequence + 1⟩) ∧
      ∀ kept, Holds limits (disk ++ encoded.take kept) base ∨
        Holds limits (disk ++ encoded.take kept) (World.attempt store) := by
  obtain ⟨progress, hrun, hreplays, hcurrent, hcount⟩ := h.journal.run
  have hinv := hrun.invariant RecoveryProgress.start_invariant
  have hlimit := h.journal.usable.mp husable
  obtain ⟨hread, hafter⟩ := batch_read hreplays hinv hcurrent hlimit (hcount ▸ hrecords)
    h.staged.within hfits hbody h.staged.replay hencoded
  have hlength : (disk ++ encoded).length ≤ limits.maximumJournalBytes := by
    have := h.journal.disk_le
    rw [List.length_append]
    omega
  have hlonger := hrun.snoc hread
  constructor
  · intro journal hlimits hformat hbytes hrecorded
    refine advance_owned hlimits hformat ?_ hlength hlonger hafter ?_ ?_
    · rw [hbytes, h.journal.byteLen, List.length_append]
    · simp [RecoveryProgress.extend]
    · rw [hrecorded, RecoveryProgress.extend, hcount]
  · intro kept
    by_cases hkept : kept < encoded.length
    · refine .inl ⟨progress, ⟨?_, disk, encoded.take kept, rfl, hrun, hread.torn hkept⟩, hreplays⟩
      have hshorter : (disk ++ encoded.take kept).length ≤ limits.maximumJournalBytes := by
        rw [List.length_append, List.length_take]
        rw [List.length_append] at hlength
        omega
      exact hshorter
    · refine .inr ?_
      rw [List.take_of_length_le (by omega), World.attempt, h.sequence]
      exact ⟨_, hlonger.scanned hlength, hafter⟩

/-- Every commit by a writable owner publishes its version or fails cleanly. -/
theorem commit_published {disk : Bytes} {store : Store} {base : Version}
    {accepted : List StoreMutation} (fate : Fate) (h : Owned limits disk store base accepted) :
    Published limits fate base store (store.commit fate disk) := by
  rw [Store.commit, h.writable]
  simp only [Bool.not_true, Bool.false_eq_true, if_false]
  cases hdirty : store.dirty with
  | false =>
    have haccepted := h.staged.clean.mp hdirty
    have hreplay := h.staged.replay
    rw [haccepted] at hreplay
    have hstate : base.state = store.state := congrArg Prod.fst (Except.ok.inj hreplay)
    have hbase : base = ⟨store.state, store.committedSequenceValue⟩ := by
      rw [h.sequence, ← hstate]
    refine .done (by rw [hdirty, h.sequence]; rfl) ?_
    rw [haccepted, hbase] at h
    exact h
  | true =>
    simp only [Bool.not_true, Bool.false_eq_true, if_false]
    cases hopen : store.pending.checkpointRequired with
    | true => exact commitCheckpoint_published fate none h hdirty (by simp)
    | false =>
      obtain ⟨hmutations, hbytes⟩ := h.staged.pending hopen
      have hfits : mutationBatchBytes accepted ≤ limits.maximumSnapshotBytes := by
        have hnot := mt h.staged.checkpoint.mpr (by rw [hopen]; simp)
        omega
      have hencode : encodeStoreMutations store.pending =
          .ok (mutationBatchHeader accepted.length ++ accepted.flatMap encodeMutation) := by
        rw [← hmutations] at hbytes ⊢
        exact encodeStoreMutations_eq hbytes hopen
      have hlength := encodedBatch_length accepted
      simp only [Bool.false_eq_true, if_false, hencode, commitJournalMutations, h.journal.current,
        Bool.not_true, Bool.or_false, h.journal.sameLimits]
      cases husable : store.journal.usable with
      | false => exact .failed (.inr (h.journal.exhausted husable)) rfl (.inl h.journal.holds)
      | true =>
        have hnext := h.journal.next husable
        have hrecord : (mutationBatchHeader accepted.length ++
            accepted.flatMap encodeMutation).length ≤ limits.journal.maximumRecordBytes :=
          hlength ▸ hfits
        obtain ⟨encoded, hencoded⟩ := encodeCurrentJournalRecord_succeeds limits.journal
          (show recordKindIsLegacy .mutations = false from rfl)
          (show base.sequence + 1 ≠ 0 from Nat.succ_ne_zero _) hrecord
        simp only [Bool.not_true, Bool.false_eq_true, if_false, hnext, if_neg (Nat.not_lt.mpr hrecord),
          hencoded, gt_iff_lt]
        by_cases hplan : store.journal.recordCount = limits.journal.maximumRecords ∨
            limits.journal.maximumJournalBytes - store.journal.byteLen < encoded.length
        · rw [if_pos hplan]
          exact commitCheckpoint_published fate _ h hdirty (by simp [hnext])
        · rw [if_neg hplan]
          rw [not_or, not_lt, h.journal.byteLen] at hplan
          obtain ⟨howned, hinterrupted⟩ := append_written h husable hfits rfl hencoded hplan.1 hplan.2
          cases fate with
          | completed =>
            exact .done (by rw [hdirty]; rfl) (h.publish (howned _ rfl rfl rfl rfl))
          | interrupted kept => exact .failed (.inl (fun h => by cases h)) rfl (hinterrupted kept)

/-- What a compaction leaves behind. -/
inductive Compacted (limits : StoreLimits) (base : Version) (store : Store)
    (accepted : List StoreMutation) : Outcome Unit × Store × Bytes → Prop where
  | kept {result : Outcome Unit} {store' : Store} {disk' : Bytes}
      (howned : Owned limits disk' store' base accepted) :
      Compacted limits base store accepted (result, store', disk')
  | failed {failure : Failure} {store' : Store} {disk' : Bytes} (hclosed : store'.writable = false)
      (hholds : Holds limits disk' base) :
      Compacted limits base store accepted (.error failure, store', disk')

theorem compact_compacted {disk : Bytes} {store : Store} {base : Version}
    {accepted : List StoreMutation} (fate : Fate) (h : Owned limits disk store base accepted) :
    Compacted limits base store accepted (store.compact fate disk) := by
  rw [Store.compact, h.writable]
  simp only [Bool.not_true, Bool.false_eq_true, if_false]
  cases hdirty : store.dirty with
  | true => exact .kept h
  | false =>
    simp only [Bool.false_eq_true, if_false]
    by_cases hzero : store.committedSequenceValue = 0
    · rw [if_pos hzero]
      exact .kept h
    · rw [if_neg hzero]
      have hreplay := h.staged.replay
      rw [h.staged.clean.mp hdirty] at hreplay
      have hstate : base.state = store.state := congrArg Prod.fst (Except.ok.inj hreplay)
      have hsnapshot := encodeSnapshot_eq store.state
      have hencode := hsnapshot
      rw [← h.staged.bytes] at hencode
      have hbase : base = ⟨store.state, store.committedSequenceValue⟩ := by
        rw [h.sequence, ← hstate]
      have hwritten := writeCheckpoint_written fate store.journal disk
        ⟨store.state, store.committedSequenceValue⟩ h.journal.sameLimits h.staged.state hzero
        (by simpa [h.sequence] using h.base_sequence_le) hsnapshot
      simp only [hencode, compactJournal, h.journal.current, Bool.not_true, Bool.or_false]
      cases husable : store.journal.usable with
      | false => exact .failed rfl h.journal.holds
      | true =>
        simp only [Bool.not_true, Bool.false_eq_true, if_false]
        cases hresult : writeCheckpoint fate ⟨store.journal, disk⟩ store.committedSequenceValue _ with
        | mk result file =>
          rw [hresult] at hwritten
          cases result with
          | error failure =>
            refine .failed rfl ?_
            obtain ⟨_, hsame | hholds⟩ := hwritten
            · exact hsame ▸ h.journal.holds
            · exact hbase ▸ hholds
          | ok =>
            refine .kept ⟨hbase ▸ hwritten, ?_, h.sequence, rfl⟩
            exact { h.staged with clean := by simpa [hdirty] using h.staged.clean }

end Nocter.DurableStore

/-!
# Opening a file

Opening truncates a torn tail, replaces a legacy journal by a checkpoint and
hands out an owner of the version the file holds, unless the sequence of that
version is the last one.
-/

namespace Nocter.DurableStore

variable {limits : StoreLimits}

/-- What opening a file that holds a version leaves behind. -/
inductive Opened (limits : StoreLimits) (fate : OpenFate) (version : Version) :
    Outcome Store × Bytes → Prop where
  | done {store : Store} {disk' : Bytes} (hlimit : version.sequence ≠ maximumSequence)
      (howned : Owned limits disk' store version []) :
      Opened limits fate version (.ok store, disk')
  | exhausted {disk' : Bytes} (hlimit : version.sequence = maximumSequence)
      (hholds : Holds limits disk' version) :
      Opened limits fate version (.error (.error sequenceExhausted), disk')
  | failed {failure : Failure} {disk' : Bytes} (hfate : fate ≠ .completed)
      (hlimit : version.sequence ≠ maximumSequence) (hholds : Holds limits disk' version) :
      Opened limits fate version (.error failure, disk')

theorem recoverJournalFile_eq {limits : JournalLimits} {disk : Bytes} {progress : RecoveryProgress}
    (h : Scanned limits disk progress) :
    recoverJournalFile disk limits = .ok (progress.finish, disk.length) := by
  have hlength := h.length_le
  rw [recoverJournalFile, reject_of_not (by omega), ok_bind,
    recoverJournalBytes_eq_ok.mpr ⟨progress, h, rfl⟩, ok_bind]

/-- The journal handed out for recovered progress. -/
def recoveredJournal (limits : StoreLimits) (progress : RecoveryProgress) : Journal where
  limits := limits.journal
  format := progress.finish.format
  nextSequence := progress.finish.nextSequence
  byteLen := progress.finish.completeLen
  recordCount := progress.finish.recordCount
  usable := true

/-- Opening the journal keeps its complete part and what it holds. -/
theorem openJournal_opened {disk : Bytes} {progress : RecoveryProgress} (fate : Fate)
    (h : Scanned limits.journal disk progress) (hlimit : progress.finish.sequenceExhausted = false) :
    (∃ failure disk', openJournal fate disk limits.journal = (.error failure, disk') ∧
        fate ≠ .completed ∧ Scanned limits.journal disk' progress) ∨
      ∃ disk', openJournal fate disk limits.journal =
          (.ok (recoveredJournal limits progress, progress.finish), disk') ∧
        CompleteRun limits.journal .start disk' progress ∧ disk'.length = progress.completeLen ∧
          disk'.length ≤ limits.maximumJournalBytes := by
  obtain ⟨hrun, hlength⟩ := h.take_completeLen
  have hle := h.length_le
  have hshort : (disk.take progress.completeLen).length ≤ limits.maximumJournalBytes :=
    (List.length_take_le' _ _).trans hle
  rw [openJournal, recoverJournalFile_eq h]
  simp only [hlimit, Bool.false_eq_true, if_false]
  have hcomplete : progress.finish.completeLen = progress.completeLen := rfl
  by_cases htorn : progress.completeLen = disk.length
  · refine .inr ⟨disk, ?_, ?_⟩
    · rw [hcomplete, if_neg (not_not_intro htorn)]
      rfl
    · rw [htorn, List.take_length] at hrun hshort
      exact ⟨hrun, htorn.symm, hshort⟩
  · rw [hcomplete, if_pos htorn]
    cases fate with
    | completed => exact .inr ⟨disk.take progress.completeLen, rfl, hrun, hlength, hshort⟩
    | interrupted kept =>
      exact .inl ⟨_, _, rfl, fun h => (by cases h), h.take (Nat.le_max_right kept progress.completeLen)⟩

theorem recovered_owned {disk : Bytes} {progress : RecoveryProgress} {version : Version}
    (hrun : CompleteRun limits.journal .start disk progress) (hreplays : Replays limits progress version)
    (hlength : disk.length = progress.completeLen) (hdisk : disk.length ≤ limits.maximumJournalBytes)
    (hcurrent : progress.legacyFormat ≠ some true) (hlimit : version.sequence ≠ maximumSequence) :
    JournalOwned limits disk (recoveredJournal limits progress) version where
  sameLimits := rfl
  byteLen := hlength.symm
  disk_le := hdisk
  current := by
    have hinv := hrun.invariant RecoveryProgress.start_invariant
    have hformat := (format_current_iff hinv).mpr hcurrent
    rw [journalIsCurrent, recoveredJournal]
    cases hcase : progress.finish.format with
    | empty => rfl
    | current => rfl
    | legacy => exact absurd hcase hformat
  usable := by simp [recoveredJournal, hlimit]
  next _ := nextSequence_eq hreplays (hrun.invariant RecoveryProgress.start_invariant) hlimit
  run := ⟨progress, hrun, hreplays, hcurrent, rfl⟩

theorem opened_owned {disk : Bytes} {journal : Journal} {version : Version} {legacy : Bool}
    (h : JournalOwned limits disk journal version) (hwithin : version.state.Within limits) :
    Owned limits disk (.opened journal limits
      ⟨version.state, version.state.snapshotBytes, version.sequence, legacy⟩) version [] :=
  ⟨h, Staged.initial hwithin rfl rfl rfl rfl rfl, rfl, rfl⟩

/-- A legacy journal has at least one record, so its sequence is positive. -/
theorem legacy_sequence_pos {progress : RecoveryProgress} {version : Version}
    (hreplays : Replays limits progress version) (hinv : progress.Invariant)
    (hlegacy : progress.legacyFormat = some true) : version.sequence ≠ 0 := by
  have hrecords : progress.records ≠ [] := by
    intro hnil
    rw [hinv.format_none.mpr hnil] at hlegacy
    cases hlegacy
  have hsequence := hreplays.sequence hinv
  cases hprevious : progress.previousSequence with
  | none =>
    rw [hinv.sequence_last, Option.map_eq_none_iff, List.getLast?_eq_none_iff] at hprevious
    exact absurd hprevious hrecords
  | some previous =>
    have hpos := (hinv.sequence_pos previous hprevious).1
    rw [hprevious, Option.getD_some] at hsequence
    omega

/-- Opening a file hands out an owner of the version it holds, or fails and
leaves a file that still holds it. -/
theorem openPrepared_opened {disk : Bytes} {version : Version} (fate : OpenFate)
    (h : Holds limits disk version) : Opened limits fate version (openPrepared fate limits disk) := by
  obtain ⟨progress, hscan, hreplays⟩ := h
  have hinv := hscan.invariant
  rw [openPrepared, journalLimits_eq]
  simp only
  cases hexhausted : progress.finish.sequenceExhausted with
  | true =>
    rw [openJournal, recoverJournalFile_eq hscan]
    simp only [hexhausted, if_true]
    exact .exhausted ((exhausted_iff hreplays hinv).mp hexhausted) ⟨progress, hscan, hreplays⟩
  | false =>
    have hlimit : version.sequence ≠ maximumSequence := by
      rw [ne_eq, ← exhausted_iff hreplays hinv, hexhausted]
      simp
    obtain ⟨failure, disk', hopen, hfate, hscan'⟩ | ⟨disk', hopen, hrun, hlength, hdisk⟩ :=
      openJournal_opened fate.truncate hscan hexhausted
    · rw [hopen]
      exact .failed (fun h => hfate (by rw [h]; rfl)) hlimit ⟨progress, hscan', hreplays⟩
    · rw [hopen]
      simp only [recoverStoreState_eq hreplays]
      by_cases hformat : progress.finish.format = .legacy
      · have hlegacy : progress.legacyFormat = some true := by
          by_contra hcurrent
          exact (format_current_iff hinv).mpr hcurrent hformat
        have hwritten := writeCheckpoint_written fate.normalize (recoveredJournal limits progress) disk'
          version rfl hreplays.within (legacy_sequence_pos hreplays hinv hlegacy)
          (hreplays.sequence_le hinv) (encodeSnapshot_eq version.state)
        have husable : (recoveredJournal limits progress).usable = true := rfl
        simp only [hformat, beq_self_eq_true, if_true, encodeSnapshot_eq, normalizeLegacyJournal, husable,
          Bool.not_true, Bool.false_eq_true, if_false]
        cases hresult : writeCheckpoint fate.normalize ⟨recoveredJournal limits progress, disk'⟩
          version.sequence _ with
        | mk result file =>
          rw [hresult] at hwritten
          cases result with
          | error failure =>
            obtain ⟨hfate, hwritten⟩ := hwritten
            refine .failed (fun h => hfate (by rw [h]; rfl)) hlimit ?_
            obtain hsame | hholds := hwritten
            · exact ⟨progress, hsame ▸ hrun.scanned hdisk, hreplays⟩
            · exact hholds
          | ok => exact .done hlimit (opened_owned hwritten hreplays.within)
      · have hcurrent := (format_current_iff hinv).mp hformat
        have hfalse : (progress.finish.format == JournalFormat.legacy) = false := by simpa using hformat
        simp only [hfalse, Bool.false_eq_true, if_false]
        exact .done hlimit (opened_owned (recovered_owned hrun hreplays hlength hdisk hcurrent hlimit)
          hreplays.within)

end Nocter.DurableStore
