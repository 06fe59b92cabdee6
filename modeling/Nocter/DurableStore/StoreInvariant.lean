import Nocter.DurableStore.Store

/-!
# The version a journal file holds

Opening a file finds the version its complete records replay to. A checkpoint
file holds the state of its snapshot, an appended batch moves the version on,
and a torn append leaves it alone.
-/

namespace Nocter.DurableStore

variable {limits : StoreLimits}

/-- The records read so far replay to this version. -/
def Replays (limits : StoreLimits) (progress : RecoveryProgress) (version : Version) : Prop :=
  ∃ replay, replayRecords limits progress.records.length 0 progress.records .start = .ok replay ∧
    version = ⟨replay.state, replay.committedSequence⟩

/-- Recovery finds this version in the file. -/
def Holds (limits : StoreLimits) (disk : Bytes) (version : Version) : Prop :=
  ∃ progress, Scanned limits.journal disk progress ∧ Replays limits progress version

theorem Replays.sequence {progress : RecoveryProgress} {version : Version}
    (h : Replays limits progress version) (hinv : progress.Invariant) :
    version.sequence = progress.previousSequence.getD 0 := by
  obtain ⟨replay, hreplay, rfl⟩ := h
  rw [hinv.sequence_last]
  exact (replayRecords_within (Replay.start_within limits) hreplay).2

theorem Replays.within {progress : RecoveryProgress} {version : Version}
    (h : Replays limits progress version) : version.state.Within limits := by
  obtain ⟨replay, hreplay, rfl⟩ := h
  exact (replayRecords_within (Replay.start_within limits) hreplay).1.state

theorem Replays.sequence_le {progress : RecoveryProgress} {version : Version}
    (h : Replays limits progress version) (hinv : progress.Invariant) :
    version.sequence ≤ maximumSequence := by
  rw [h.sequence hinv]
  cases hprevious : progress.previousSequence with
  | none => exact Nat.zero_le _
  | some previous => exact (hinv.sequence_pos previous hprevious).2

/-- The recovery of a file, in terms of the version it holds. -/
theorem recoverStoreState_eq {progress : RecoveryProgress} {version : Version}
    (h : Replays limits progress version) :
    recoverStoreState progress.finish limits = .ok ⟨version.state, version.state.snapshotBytes,
      version.sequence, progress.finish.format == .legacy⟩ := by
  obtain ⟨replay, hreplay, rfl⟩ := h
  have hbytes := (replayRecords_within (Replay.start_within limits) hreplay).1.bytes
  rw [recoverStoreState]
  simp only [RecoveryProgress.finish, hreplay, ok_bind, hbytes]

theorem exhausted_iff {progress : RecoveryProgress} {version : Version}
    (h : Replays limits progress version) (hinv : progress.Invariant) :
    progress.finish.sequenceExhausted = true ↔ version.sequence = maximumSequence := by
  rw [h.sequence hinv, RecoveryProgress.finish]
  cases progress.previousSequence with
  | none => simp [maximumSequence]
  | some previous => simp

theorem nextSequence_eq {progress : RecoveryProgress} {version : Version}
    (h : Replays limits progress version) (hinv : progress.Invariant)
    (hlimit : version.sequence ≠ maximumSequence) :
    progress.finish.nextSequence = version.sequence + 1 := by
  have hsequence := h.sequence hinv
  rw [RecoveryProgress.finish]
  cases hprevious : progress.previousSequence with
  | none => rw [hsequence, hprevious]; rfl
  | some previous =>
    rw [hprevious, Option.getD_some] at hsequence
    rw [hsequence] at hlimit ⊢
    exact if_neg hlimit

/-- A journal that is not in the legacy format. -/
theorem format_current_iff {progress : RecoveryProgress} (hinv : progress.Invariant) :
    progress.finish.format ≠ .legacy ↔ progress.legacyFormat ≠ some true := by
  rw [RecoveryProgress.finish]
  simp only
  split
  case isTrue hzero =>
    have hnone := hinv.format_none.mpr (hinv.count_zero.mp hzero)
    simp [hnone]
  case isFalse => split <;> simp_all

theorem continues_of_replays {progress : RecoveryProgress} {version : Version}
    (h : Replays limits progress version) (hinv : progress.Invariant)
    (hcurrent : progress.legacyFormat ≠ some true) (hlimit : version.sequence ≠ maximumSequence) :
    progress.Continues (version.sequence + 1) where
  current := hcurrent
  next previous hprevious := by
    have hsequence := h.sequence hinv
    rw [hprevious, Option.getD_some] at hsequence
    rw [hsequence] at hlimit ⊢
    exact ⟨hlimit, rfl⟩

theorem start_continues (sequence : ℕ) : RecoveryProgress.start.Continues sequence where
  current := by simp [RecoveryProgress.start]
  next previous h := by cases h

/-- The journal written by a checkpoint. -/
theorem checkpoint_run {state : StoreState} {sequence : ℕ} {snapshot encoded : Bytes}
    (hwithin : state.Within limits) (hpositive : sequence ≠ 0) (hsequence : sequence ≤ maximumSequence)
    (hsnapshot : encodeSnapshot state state.snapshotBytes = .ok snapshot)
    (hencoded : encodeCurrentJournalRecord limits.journal .checkpoint sequence snapshot = .ok encoded) :
    CompleteRun limits.journal .start encoded (RecoveryProgress.start.extend .checkpoint sequence snapshot) ∧
      encoded.length ≤ limits.maximumJournalBytes ∧
      Replays limits (RecoveryProgress.start.extend .checkpoint sequence snapshot) ⟨state, sequence⟩ := by
  have hlength : snapshot.length = state.snapshotBytes := by
    rw [encodeSnapshot_eq, Except.ok.injEq] at hsnapshot
    rw [← hsnapshot, encodedSnapshot_length]
  have hrecord : snapshot.length ≤ limits.journal.maximumRecordBytes :=
    hlength ▸ hwithin.snapshot_le
  have hbound : snapshot.length < 256 ^ 8 := by
    have := limits.snapshot_le
    have := limits.journal_lt
    have := hwithin.snapshot_le
    omega
  have hread := recordRead_of_encode rfl hpositive hrecord hencoded (by rw [maximumSequence] at hsequence; omega)
    hbound (start_continues sequence) limits.records_pos.ne
  refine ⟨CompleteRun.snoc (.nil _) hread, ?_, ?_⟩
  · have hcomplete : 0 + (journalRecordOverhead + snapshot.length) = 0 + encoded.length :=
      hread.completeLen
    have := limits.snapshot_le
    have := limits.overhead_le
    have := hwithin.snapshot_le
    omega
  · have hdecode := decodeSnapshot_encodeSnapshot hwithin hsnapshot
    refine ⟨⟨state, state.snapshotBytes, sequence, true⟩, ?_, rfl⟩
    rw [RecoveryProgress.extend, RecoveryProgress.start]
    simp only [List.nil_append, replayRecords, Replay.applyRecord, Replay.adopt, hdecode, ok_bind]

theorem replayRecords_hasBase {total index : ℕ} {records : List JournalRecord} {replay replay' : Replay}
    (h : replayRecords limits total index records replay = .ok replay') (hrecords : records ≠ []) :
    replay'.hasBase = true := by
  have hone : ∀ {index record replay replay'}, Replay.applyRecord replay limits total index record =
      .ok replay' → replay'.hasBase = true := by
    intro index record replay replay' happly
    rw [Replay.applyRecord] at happly
    cases hkind : record.kind <;> rw [hkind] at happly <;>
      simp only [Replay.adopt, bind_eq_ok, Prod.exists] at happly
    case legacySnapshot =>
      obtain ⟨_, _, _, _, _, heq⟩ := happly
      cases heq
      rfl
    case checkpoint =>
      obtain ⟨_, _, _, heq⟩ := happly
      cases heq
      rfl
    case mutations =>
      obtain ⟨_, _, _, _, _, heq⟩ := happly
      cases heq
      rfl
  induction records generalizing index replay with
  | nil => exact absurd rfl hrecords
  | cons record records ih =>
    rw [replayRecords, bind_eq_ok] at h
    obtain ⟨next, hnext, hrest⟩ := h
    cases records with
    | nil =>
      cases hrest
      exact hone hnext
    | cons other records => exact ih hrest (List.cons_ne_nil other records)

/-- A batch appended to a journal moves its version on. -/
theorem batch_read {progress : RecoveryProgress} {base : Version} {mutations : List StoreMutation}
    {applied : StoreState × ℕ} {body encoded : Bytes}
    (hreplays : Replays limits progress base) (hinv : progress.Invariant)
    (hcurrent : progress.legacyFormat ≠ some true) (hlimit : base.sequence ≠ maximumSequence)
    (hroom : progress.recordCount ≠ limits.maximumJournalRecords)
    (hwithin : ∀ mutation ∈ mutations, mutation.Within limits)
    (hfits : mutationBatchBytes mutations ≤ limits.maximumSnapshotBytes)
    (hbody : body = mutationBatchHeader mutations.length ++ mutations.flatMap encodeMutation)
    (happlied : replayMutations limits (base.state, base.state.snapshotBytes) mutations = .ok applied)
    (hencoded : encodeCurrentJournalRecord limits.journal .mutations (base.sequence + 1) body =
      .ok encoded) :
    RecordRead limits.journal progress encoded (progress.extend .mutations (base.sequence + 1) body) ∧
      Replays limits (progress.extend .mutations (base.sequence + 1) body)
        ⟨applied.1, base.sequence + 1⟩ := by
  have hlength : body.length = mutationBatchBytes mutations := by rw [hbody, encodedBatch_length]
  have hrecord : body.length ≤ limits.journal.maximumRecordBytes := hlength ▸ hfits
  have hbound : body.length < 256 ^ 8 := by
    have := limits.snapshot_le
    have := limits.journal_lt
    omega
  have hsequence : base.sequence + 1 < 256 ^ 8 := by
    have := hreplays.sequence_le hinv
    rw [maximumSequence] at this hlimit
    omega
  refine ⟨recordRead_of_encode rfl (Nat.succ_ne_zero _) hrecord hencoded hsequence hbound
    (continues_of_replays hreplays hinv hcurrent hlimit) hroom, ?_⟩
  have hzero := hreplays.sequence hinv
  obtain ⟨replay, hreplay, rfl⟩ := hreplays
  have hbytes := (replayRecords_within (Replay.start_within limits) hreplay).1.bytes
  have happly : applyStoreMutations replay.state replay.snapshotBytes body limits = .ok applied := by
    rw [hbody, hbytes]
    exact (applyStoreMutations_encoded mutations (replay.state, replay.state.snapshotBytes) hwithin
      hfits).trans happlied
  have hbase : ¬(¬replay.hasBase ∧ replay.committedSequence + 1 ≠ 1) := by
    rintro ⟨hnone, hfirst⟩
    by_cases hrecords : progress.records = []
    · rw [hinv.sequence_last, hrecords] at hzero
      simp only [List.getLast?_nil, Option.map_none, Option.getD_none] at hzero
      omega
    · exact hnone (replayRecords_hasBase hreplay hrecords)
  have hkinds : ∀ record ∈ progress.records ++
      [⟨.mutations, replay.committedSequence + 1, body⟩], record.kind ≠ .legacySnapshot := by
    intro record hmem hkind
    rw [List.mem_append, List.mem_singleton] at hmem
    obtain hmem | rfl := hmem
    · have hformat := hinv.kinds record hmem
      rw [hkind] at hformat
      exact hcurrent hformat
    · cases hkind
  refine ⟨⟨applied.1, applied.2, replay.committedSequence + 1, true⟩, ?_, rfl⟩
  rw [RecoveryProgress.extend]
  simp only
  rw [replayRecords_snoc hkinds progress.records.length, hreplay, ok_bind, Replay.applyRecord]
  simp only [reject_of_not hbase, ok_bind, happly]

end Nocter.DurableStore

/-!
# What holds of every store and its file

A writable owner has staged exactly the accepted mutations over the version its
file holds. Every operation keeps this or leaves an owner that cannot write,
over a file that holds the old version or the attempted one.
-/

namespace Nocter.DurableStore

variable {limits : StoreLimits}

/-- The journal describes a file of complete records that holds this version. -/
structure JournalOwned (limits : StoreLimits) (disk : Bytes) (journal : Journal) (base : Version) :
    Prop where
  sameLimits : journal.limits = limits.journal
  byteLen : journal.byteLen = disk.length
  disk_le : disk.length ≤ limits.maximumJournalBytes
  current : journalIsCurrent journal = true
  usable : journal.usable = true ↔ base.sequence ≠ maximumSequence
  next : journal.usable = true → journal.nextSequence = base.sequence + 1
  run : ∃ progress, CompleteRun limits.journal .start disk progress ∧ Replays limits progress base ∧
    progress.legacyFormat ≠ some true ∧ progress.recordCount = journal.recordCount

/-- The store staged exactly the accepted mutations over the base state. -/
structure Staged (limits : StoreLimits) (base : StoreState) (accepted : List StoreMutation)
    (store : Store) : Prop where
  sameLimits : store.limits = limits
  state : store.state.Within limits
  bytes : store.snapshotBytes = store.state.snapshotBytes
  within : ∀ mutation ∈ accepted, mutation.Within limits
  replay : replayMutations limits (base, base.snapshotBytes) accepted =
    .ok (store.state, store.snapshotBytes)
  clean : store.dirty = false ↔ accepted = []
  checkpoint : store.pending.checkpointRequired = true ↔
    limits.maximumSnapshotBytes < mutationBatchBytes accepted
  pending : store.pending.checkpointRequired = false →
    store.pending.mutations = accepted ∧ store.pending.encodedBytes = mutationBatchBytes accepted

/-- A writable owner of a file. -/
structure Owned (limits : StoreLimits) (disk : Bytes) (store : Store) (base : Version)
    (accepted : List StoreMutation) : Prop where
  journal : JournalOwned limits disk store.journal base
  staged : Staged limits base.state accepted store
  sequence : store.committedSequenceValue = base.sequence
  writable : store.writable = true

theorem JournalOwned.holds {disk : Bytes} {journal : Journal} {base : Version}
    (h : JournalOwned limits disk journal base) : Holds limits disk base := by
  obtain ⟨progress, hrun, hreplays, _⟩ := h.run
  exact ⟨progress, hrun.scanned h.disk_le, hreplays⟩

theorem JournalOwned.exhausted {disk : Bytes} {journal : Journal} {base : Version}
    (h : JournalOwned limits disk journal base) (hunusable : journal.usable = false) :
    base.sequence = maximumSequence := by
  by_contra hlimit
  rw [h.usable.mpr hlimit] at hunusable
  cases hunusable

theorem Staged.initial {state : StoreState} {store : Store} (hwithin : state.Within limits)
    (hlimits : store.limits = limits) (hstate : store.state = state)
    (hbytes : store.snapshotBytes = state.snapshotBytes) (hclean : store.dirty = false)
    (hpending : store.pending = newStoreMutationBatch) : Staged limits state [] store where
  sameLimits := hlimits
  state := hstate ▸ hwithin
  bytes := hbytes.trans (by rw [hstate])
  within mutation h := by cases h
  replay := by
    rw [hstate, hbytes]
    rfl
  clean := by simp [hclean]
  checkpoint := by
    have := limits.header_le
    rw [hpending, mutationBatchBytes_nil, snapshotHeaderBytes] at *
    simp only [newStoreMutationBatch, Bool.false_eq_true, mutationBatchHeaderBytes, false_iff]
    omega
  pending _ := by
    rw [hpending]
    exact ⟨rfl, rfl⟩

/-- One more recorded mutation. -/
structure Recorded (maximum : ℕ) (batch : StoreMutationBatch) (mutation : StoreMutation)
    (batch' : StoreMutationBatch) : Prop where
  checkpoint : batch'.checkpointRequired = true ↔ batch.checkpointRequired = true ∨
    maximum < batch.encodedBytes + mutation.encodedBytes
  pending : batch'.checkpointRequired = false →
    batch'.mutations = batch.mutations ++ [mutation] ∧
      batch'.encodedBytes = batch.encodedBytes + mutation.encodedBytes

theorem recordMutation_recorded (batch : StoreMutationBatch) (mutation : StoreMutation)
    (keyLen valueLen maximum : ℕ)
    (hbytes : mutation.encodedBytes = mutationEntryHeaderBytes + keyLen + valueLen) :
    Recorded maximum batch mutation (recordMutation batch mutation keyLen valueLen maximum) := by
  have hfits := mutationFits_iff batch keyLen valueLen maximum
  rw [← hbytes] at hfits
  rw [recordMutation, ← hbytes]
  by_cases h : mutationFits batch keyLen valueLen maximum = true
  · obtain ⟨hopen, hroom⟩ := hfits.mp h
    simp only [h, Bool.not_true, Bool.false_eq_true, if_false]
    refine ⟨?_, fun _ => ⟨rfl, rfl⟩⟩
    simp only [hopen, Bool.false_eq_true, false_or, false_iff]
    omega
  · have hclosed := fun hopen => fun hroom => h (hfits.mpr ⟨hopen, hroom⟩)
    rw [Bool.not_eq_true] at h
    simp only [h, Bool.not_false, if_true, requireStoreCheckpoint]
    refine ⟨?_, fun hfalse => by cases hfalse⟩
    simp only [true_iff]
    cases hopen : batch.checkpointRequired with
    | true => exact .inl rfl
    | false => exact .inr (Nat.lt_of_not_le (hclosed hopen))

/-- Accepting one mutation extends what is staged. -/
theorem Staged.accept {base : StoreState} {accepted : List StoreMutation} {store store' : Store}
    {mutation : StoreMutation} (h : Staged limits base accepted store)
    (hmutation : mutation.Within limits)
    (happly : mutation.apply limits (store.state, store.snapshotBytes) =
      .ok (store'.state, store'.snapshotBytes))
    (hwithin : store'.state.Within limits)
    (hbytes : store'.snapshotBytes = store'.state.snapshotBytes) (hlimits : store'.limits = limits)
    (hdirty : store'.dirty = true)
    (hrecorded : Recorded limits.maximumSnapshotBytes store.pending mutation store'.pending) :
    Staged limits base (accepted ++ [mutation]) store' where
  sameLimits := hlimits
  state := hwithin
  bytes := hbytes
  within other hother := by
    rw [List.mem_append, List.mem_singleton] at hother
    obtain hother | rfl := hother
    · exact h.within other hother
    · exact hmutation
  replay := by
    have hreplay := h.replay
    rw [replayMutations] at hreplay
    rw [replayMutations, List.foldlM_append, hreplay, ok_bind, List.foldlM_cons, happly, ok_bind]
    rfl
  clean := by simp [hdirty]
  checkpoint := by
    rw [hrecorded.checkpoint, mutationBatchBytes_append, h.checkpoint]
    cases hopen : store.pending.checkpointRequired with
    | true =>
      have := h.checkpoint.mp hopen
      omega
    | false =>
      have := (h.pending hopen).2
      have : ¬limits.maximumSnapshotBytes < mutationBatchBytes accepted := by
        rw [← h.checkpoint, hopen]
        simp
      omega
  pending hopen' := by
    obtain ⟨hmutations, hencoded⟩ := hrecorded.pending hopen'
    have hopen : store.pending.checkpointRequired = false := by
      by_contra hclosed
      rw [Bool.not_eq_false] at hclosed
      rw [hrecorded.checkpoint.mpr (.inl hclosed)] at hopen'
      cases hopen'
    obtain ⟨hpending, hbytesBefore⟩ := h.pending hopen
    exact ⟨by rw [hmutations, hpending], by rw [hencoded, hbytesBefore, mutationBatchBytes_append]⟩

theorem Store.set_eq_ok {store store' : Store} {key value : Bytes} :
    store.set key value = .ok store' ↔ store.writable = true ∧
      (StoreEntry.mk key value).Within store.limits ∧
      ∃ state next, EntryWritten store.limits store.state store.snapshotBytes key value state next ∧
        store' = { store with
          state
          snapshotBytes := next
          pending := recordStoreSet store.pending key value store.limits.maximumSnapshotBytes
          dirty := true } := by
  rw [Store.set]
  simp only [bind_eq_ok, Prod.exists, StoreEntry.Within]
  constructor
  · rintro ⟨_, hwritable, _, hkey, _, hvalue, state, next, hwrite, heq⟩
    cases heq
    exact ⟨by simpa using reject_eq_ok.mp hwritable, ⟨by simpa using reject_eq_ok.mp hkey,
      by simpa using reject_eq_ok.mp hvalue⟩, state, next, writeEntry_eq_ok.mp hwrite, rfl⟩
  · rintro ⟨hwritable, ⟨hkey, hvalue⟩, state, next, hwritten, rfl⟩
    exact ⟨(), reject_of_not (by simpa using hwritable), (), reject_of_not (by omega), (),
      reject_of_not (by omega), state, next, writeEntry_eq_ok.mpr hwritten, rfl⟩

theorem Owned.version_eq {disk : Bytes} {store : Store} {base : Version}
    (h : Owned limits disk store base []) : store.version = base := by
  have hstate : base.state = store.state := congrArg Prod.fst (Except.ok.inj h.staged.replay)
  rw [Store.version, h.sequence, ← hstate]

theorem Owned.set {disk : Bytes} {store store' : Store} {base : Version}
    {accepted : List StoreMutation} {key value : Bytes} (h : Owned limits disk store base accepted)
    (hset : store.set key value = .ok store') :
    Owned limits disk store' base (accepted ++ [.set key value]) := by
  obtain ⟨_, hentry, state, next, hwritten, rfl⟩ := Store.set_eq_ok.mp hset
  rw [h.staged.sameLimits] at hentry hwritten
  have hstate : state.Within limits ∧ next = state.snapshotBytes := by
    rw [h.staged.bytes] at hwritten
    exact hwritten.within h.staged.state hentry
  refine ⟨h.journal, ?_, h.sequence, h.writable⟩
  refine h.staged.accept hentry ?_ hstate.1 hstate.2 h.staged.sameLimits rfl ?_
  · exact writeEntry_eq_ok.mpr hwritten
  · rw [h.staged.sameLimits]
    exact recordMutation_recorded store.pending (.set key value) _ _ _ rfl

theorem Owned.remove {disk : Bytes} {store store' : Store} {base : Version} {removed : Bool}
    {accepted : List StoreMutation} {key : Bytes} (h : Owned limits disk store base accepted)
    (hremove : store.remove key = .ok (removed, store')) :
    Owned limits disk store' base (if removed then accepted ++ [.remove key] else accepted) := by
  rw [Store.remove, bind_eq_ok] at hremove
  obtain ⟨_, _, hremove⟩ := hremove
  cases hentry : store.state.remove key with
  | none =>
    rw [hentry] at hremove
    cases hremove
    exact h
  | some found =>
    obtain ⟨entry, state⟩ := found
    rw [hentry] at hremove
    cases hremove
    obtain rfl : entry.key = key := StoreState.remove_key hentry
    obtain ⟨hstate, hbytes⟩ := remove_within hentry h.staged.state
    have hsize : store.snapshotBytes -
        (snapshotEntryHeaderBytes + entry.key.length + entry.value.length) = state.snapshotBytes := by
      rw [h.staged.bytes, ← hbytes]
      omega
    have hkey : entry.key.length ≤ limits.maximumKeyBytes :=
      (h.staged.state.entry entry (StoreState.remove_eq hentry).1).1
    refine ⟨h.journal, ?_, h.sequence, h.writable⟩
    have hmutation : (StoreMutation.remove entry.key).Within limits := hkey
    refine h.staged.accept hmutation ?_ hstate hsize h.staged.sameLimits rfl ?_
    · refine applyStoreRemove_eq_ok.mpr ⟨entry.value, hentry, ?_⟩
      simp only
      omega
    · simp only [h.staged.sameLimits]
      exact recordMutation_recorded store.pending (.remove entry.key) _ 0 _ rfl

end Nocter.DurableStore
