import Nocter.DurableStore.JournalScan
import Nocter.DurableStore.Mutations

/-!
# The state a journal holds

Recovered records are replayed in order. A checkpoint replaces the state, a
batch of mutations extends it, and a record appended to a journal adds exactly
its own effect.
-/

namespace Nocter.DurableStore

structure StoreRecovery where
  state : StoreState
  snapshotBytes : ℕ
  committedSequence : ℕ
  legacy : Bool

/-- The variables of the loop of `recover_store_state`. -/
structure Replay where
  state : StoreState
  snapshotBytes : ℕ
  committedSequence : ℕ
  hasBase : Bool

namespace Replay

def start : Replay := ⟨.new, snapshotHeaderBytes, 0, false⟩

/-- Take the state of a complete snapshot. -/
def adopt (replay : Replay) (limits : StoreLimits) (record : JournalRecord) : Outcome Replay := do
  let (state, snapshotBytes) ← decodeSnapshot record.body limits
  .ok { replay with state, snapshotBytes, committedSequence := record.sequence, hasBase := true }

def applyRecord (replay : Replay) (limits : StoreLimits) (total index : ℕ)
    (record : JournalRecord) : Outcome Replay :=
  match record.kind with
  | .legacySnapshot => do
    reject (index ≠ 0 ∨ total ≠ 1) corruptJournal
    replay.adopt limits record
  | .checkpoint => replay.adopt limits record
  | .mutations => do
    reject (¬replay.hasBase ∧ record.sequence ≠ 1) corruptJournal
    let (state, snapshotBytes) ← applyStoreMutations replay.state replay.snapshotBytes record.body limits
    .ok ⟨state, snapshotBytes, record.sequence, true⟩

end Replay

def replayRecords (limits : StoreLimits) (total : ℕ) :
    ℕ → List JournalRecord → Replay → Outcome Replay
  | _, [], replay => .ok replay
  | index, record :: records, replay => do
    let replay ← replay.applyRecord limits total index record
    replayRecords limits total (index + 1) records replay

def recoverStoreState (recovery : JournalRecovery) (limits : StoreLimits) :
    Outcome StoreRecovery := do
  let legacy := recovery.format == .legacy
  let replay ← replayRecords limits recovery.records.length 0 recovery.records .start
  .ok ⟨replay.state, replay.snapshotBytes, replay.committedSequence, legacy⟩

def journalLimits (limits : StoreLimits) : Outcome JournalLimits :=
  JournalLimits.new limits.maximumSnapshotBytes limits.maximumJournalBytes
    limits.maximumJournalRecords

/-- The journal limits of a store. -/
def StoreLimits.journal (limits : StoreLimits) : JournalLimits where
  maximumRecordBytes := limits.maximumSnapshotBytes
  maximumJournalBytes := limits.maximumJournalBytes
  maximumRecords := limits.maximumJournalRecords
  overhead_le := limits.overhead_le
  record_le := limits.snapshot_le
  records_pos := limits.records_pos

/-- Checked store limits are always consistent journal limits. -/
theorem journalLimits_eq (limits : StoreLimits) : journalLimits limits = .ok limits.journal := by
  have := limits.overhead_le
  have := limits.snapshot_le
  have := limits.records_pos
  rw [journalLimits, JournalLimits.new, dif_neg (by omega)]
  rfl

variable {limits : StoreLimits}

/-- The replayed state respects the limits and its size is exact. -/
structure Replay.Within (limits : StoreLimits) (replay : Replay) : Prop where
  state : replay.state.Within limits
  bytes : replay.snapshotBytes = replay.state.snapshotBytes

theorem Replay.start_within (limits : StoreLimits) : Replay.start.Within limits :=
  ⟨StoreState.new_within limits, rfl⟩

theorem Replay.adopt_within {replay replay' : Replay} {record : JournalRecord}
    (h : replay.adopt limits record = .ok replay') :
    replay'.Within limits ∧ replay'.committedSequence = record.sequence := by
  rw [Replay.adopt] at h
  simp only [bind_eq_ok, Prod.exists] at h
  obtain ⟨state, snapshotBytes, hdecode, heq⟩ := h
  cases heq
  obtain ⟨hwithin, hbytes⟩ := decodeSnapshot_within hdecode
  exact ⟨⟨hwithin, hbytes⟩, rfl⟩

theorem Replay.applyRecord_within {replay replay' : Replay} {total index : ℕ} {record : JournalRecord}
    (hwithin : replay.Within limits) (h : replay.applyRecord limits total index record = .ok replay') :
    replay'.Within limits ∧ replay'.committedSequence = record.sequence := by
  rw [Replay.applyRecord] at h
  cases hkind : record.kind with
  | legacySnapshot =>
    rw [hkind] at h
    simp only [bind_eq_ok] at h
    obtain ⟨_, _, hadopt⟩ := h
    exact adopt_within hadopt
  | checkpoint =>
    rw [hkind] at h
    exact adopt_within h
  | mutations =>
    rw [hkind] at h
    simp only [bind_eq_ok, Prod.exists] at h
    obtain ⟨_, _, state, snapshotBytes, happly, heq⟩ := h
    cases heq
    rw [hwithin.bytes] at happly
    obtain ⟨hstate, hbytes⟩ := applyStoreMutations_within hwithin.state happly
    exact ⟨⟨hstate, hbytes⟩, rfl⟩

/-- Replaying keeps the limits and ends at the sequence of the last record. -/
theorem replayRecords_within {total index : ℕ} {records : List JournalRecord} {replay replay' : Replay}
    (hwithin : replay.Within limits) (h : replayRecords limits total index records replay = .ok replay') :
    replay'.Within limits ∧ replay'.committedSequence =
      (records.getLast?.map JournalRecord.sequence).getD replay.committedSequence := by
  induction records generalizing index replay with
  | nil =>
    cases h
    exact ⟨hwithin, rfl⟩
  | cons record records ih =>
    rw [replayRecords, bind_eq_ok] at h
    obtain ⟨next, hnext, hrest⟩ := h
    obtain ⟨hkept, hsequence⟩ := Replay.applyRecord_within hwithin hnext
    obtain ⟨hfinal, hlast⟩ := ih hkept hrest
    refine ⟨hfinal, hlast.trans ?_⟩
    rw [hsequence]
    cases records with
    | nil => rfl
    | cons other records => simp [List.getLast?_cons]

/-- Only a legacy record looks at its position. -/
theorem Replay.applyRecord_position {replay : Replay} {record : JournalRecord}
    (hkind : record.kind ≠ .legacySnapshot) (total index total' index' : ℕ) :
    replay.applyRecord limits total index record = replay.applyRecord limits total' index' record := by
  rw [Replay.applyRecord, Replay.applyRecord]
  cases h : record.kind with
  | legacySnapshot => exact absurd h hkind
  | checkpoint => rfl
  | mutations => rfl

/-- A record after current records adds its own effect. -/
theorem replayRecords_snoc {records : List JournalRecord} {record : JournalRecord}
    (hkinds : ∀ other ∈ records ++ [record], other.kind ≠ .legacySnapshot)
    (total total' index : ℕ) (replay : Replay) :
    replayRecords limits total' index (records ++ [record]) replay =
      replayRecords limits total index records replay >>= fun replay =>
        replay.applyRecord limits 0 0 record := by
  induction records generalizing index replay with
  | nil =>
    have hkind := hkinds record List.mem_cons_self
    rw [List.nil_append, replayRecords, replayRecords, ok_bind,
      Replay.applyRecord_position hkind total' index 0 0]
    cases replay.applyRecord limits 0 0 record <;> rfl
  | cons other records ih =>
    have hkind := hkinds other List.mem_cons_self
    rw [List.cons_append, replayRecords, replayRecords,
      Replay.applyRecord_position hkind total' index total index]
    cases replay.applyRecord limits total index other with
    | error failure => rfl
    | ok next => exact ih (fun record' h => hkinds record' (List.mem_cons_of_mem other h)) (index + 1) next

end Nocter.DurableStore
