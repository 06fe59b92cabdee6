import Nocter.DurableStore.Opening

/-!
# Runs of the store

Over every run of openings, changes, commits, compactions, closings and
crashes, the file holds the version of the last reported commit or of the one
in flight, and what a writable owner staged replays to its in-memory state.
-/

namespace Nocter.DurableStore

open TransitionSystem

namespace World

variable {limits : StoreLimits}

/-- The bytes of the file; an absent file counts as empty. -/
def file (world : World) : Bytes := world.disk.getD []

structure Valid (limits : StoreLimits) (world : World) : Prop where
  holds : ∃ version, Holds limits world.file version ∧
    (version = world.reported ∨ world.inFlight = some version)
  owned : ∀ store, world.owner = some store → store.writable = true →
    Owned limits world.file store world.reported world.accepted ∧ world.inFlight = none

theorem Initial.valid {world : World} (h : Initial limits world) : world.Valid limits := by
  obtain ⟨howner, _, _, recovery, recovered, hjournal, hrecovered, hreported⟩ := h
  rw [recoverJournalFile] at hjournal
  simp only [bind_eq_ok] at hjournal
  obtain ⟨_, _, found, hfound, heq⟩ := hjournal
  cases heq
  obtain ⟨progress, hscan, rfl⟩ := recoverJournalBytes_eq_ok.mp hfound
  rw [recoverStoreState, bind_eq_ok] at hrecovered
  obtain ⟨replay, hreplay, heq⟩ := hrecovered
  cases heq
  refine ⟨⟨world.reported, ⟨progress, hscan, replay, hreplay, hreported⟩, .inl rfl⟩, ?_⟩
  intro store hstore
  rw [howner] at hstore
  cases hstore

/-- Without an owner that can write, only the file matters. -/
theorem Valid.disowned {world : World}
    (hholds : ∃ version, Holds limits world.file version ∧
      (version = world.reported ∨ world.inFlight = some version))
    (howner : ∀ store, world.owner = some store → store.writable = false) : world.Valid limits where
  holds := hholds
  owned store hstore hwritable := by
    rw [howner store hstore] at hwritable
    cases hwritable

theorem Valid.of_owned {disk : Bytes} {store : Store} {version : Version}
    {accepted : List StoreMutation} (h : Owned limits disk store version accepted) :
    (World.mk (some disk) (some store) version none accepted).Valid limits where
  holds := ⟨version, h.journal.holds, .inl rfl⟩
  owned other hother _ := by
    cases hother
    exact ⟨h, rfl⟩

theorem Valid.reopen {world : World} (h : world.Valid limits) (fate : OpenFate)
    (howner : world.owner = none) : (world.reopen limits fate).Valid limits := by
  obtain ⟨version, hholds, hversion⟩ := h.holds
  have hnone : ∀ {disk : Option Bytes}, disk.getD [] = world.file →
      ({ world with disk } : World).Valid limits := by
    intro disk hdisk
    refine .disowned ⟨version, ?_, hversion⟩ fun store hstore => ?_
    · rw [file, hdisk]
      exact hholds
    · rw [show world.owner = some store from hstore] at howner
      cases howner
  rw [World.reopen, openStore]
  cases fate.prepare with
  | interrupted kept =>
    simp only
    refine hnone ?_
    split <;> rfl
  | completed =>
    simp only
    cases fate.observe with
    | interrupted _ => exact hnone rfl
    | completed =>
      have hopened := openPrepared_opened fate hholds
      rw [file] at hopened
      simp only [Prod.map]
      cases hresult : openPrepared fate limits (world.disk.getD []) with
      | mk result disk =>
        rw [hresult] at hopened
        have hlost : Holds limits disk version → ({ world with disk := some disk } : World).Valid limits :=
          fun hdisk => .disowned ⟨version, hdisk, hversion⟩ fun store hstore => by
            rw [show world.owner = some store from hstore] at howner
            cases howner
        cases hopened with
        | done _ howned =>
          have hvalid := Valid.of_owned howned
          rw [← howned.version_eq] at hvalid
          exact hvalid
        | exhausted _ hdisk => exact hlost hdisk
        | failed _ _ hdisk => exact hlost hdisk

theorem Valid.set {world : World} {store : Store} (h : world.Valid limits)
    (howner : world.owner = some store) (key value : Bytes) :
    (world.set key value store).Valid limits := by
  rw [World.set]
  cases hset : store.set key value with
  | error failure => exact h
  | ok store' =>
    obtain ⟨hwritable, _⟩ := Store.set_eq_ok.mp hset
    obtain ⟨howned, hnone⟩ := h.owned store howner hwritable
    refine ⟨h.holds, fun other hother _ => ?_⟩
    cases hother
    exact ⟨howned.set hset, hnone⟩

theorem Valid.remove {world : World} {store : Store} (h : world.Valid limits)
    (howner : world.owner = some store) (key : Bytes) : (world.remove key store).Valid limits := by
  rw [World.remove]
  cases hremove : store.remove key with
  | error failure => exact h
  | ok removed =>
    obtain ⟨removed, store'⟩ := removed
    have hwritable : store.writable = true := by
      rw [Store.remove, bind_eq_ok] at hremove
      obtain ⟨_, hwritable, _⟩ := hremove
      simpa using reject_eq_ok.mp hwritable
    obtain ⟨howned, hnone⟩ := h.owned store howner hwritable
    have hafter := howned.remove hremove
    cases removed with
    | false =>
      refine ⟨h.holds, fun other hother _ => ?_⟩
      cases hother
      exact ⟨hafter, hnone⟩
    | true =>
      refine ⟨h.holds, fun other hother _ => ?_⟩
      cases hother
      exact ⟨hafter, hnone⟩

theorem Valid.commit {world : World} {store : Store} (h : world.Valid limits)
    (howner : world.owner = some store) (fate : Fate) : (world.commit fate store).Valid limits := by
  rw [World.commit]
  cases hwritable : store.writable with
  | false =>
    rw [Store.commit, hwritable]
    refine .disowned h.holds fun other hother => ?_
    cases hother
    exact hwritable
  | true =>
    obtain ⟨howned, hnone⟩ := h.owned store howner hwritable
    have hpublished := commit_published fate howned
    rw [file] at hpublished
    cases hresult : store.commit fate (world.disk.getD []) with
    | mk result after =>
      rw [hresult] at hpublished
      cases hpublished with
      | done _ hafter => exact .of_owned hafter
      | failed _ hclosed hholds =>
        refine .disowned ?_ fun other hother => ?_
        · obtain hbase | hattempt := hholds
          · exact ⟨_, hbase, .inl rfl⟩
          · exact ⟨_, hattempt, .inr rfl⟩
        · cases hother
          exact hclosed

theorem Valid.compact {world : World} {store : Store} (h : world.Valid limits)
    (howner : world.owner = some store) (fate : Fate) : (world.compact fate store).Valid limits := by
  rw [World.compact]
  cases hwritable : store.writable with
  | false =>
    rw [Store.compact, hwritable]
    refine .disowned h.holds fun other hother => ?_
    cases hother
    exact hwritable
  | true =>
    obtain ⟨howned, hnone⟩ := h.owned store howner hwritable
    have hcompacted := compact_compacted fate howned
    rw [file] at hcompacted
    cases hresult : store.compact fate (world.disk.getD []) with
    | mk result after =>
      rw [hresult] at hcompacted
      cases hcompacted with
      | kept hafter =>
        have hvalid := Valid.of_owned hafter
        rw [← hnone] at hvalid
        exact hvalid
      | failed hclosed hholds =>
        refine .disowned ⟨_, hholds, .inl rfl⟩ fun other hother => ?_
        cases hother
        exact hclosed

theorem Valid.close {world : World} (h : world.Valid limits) (store : Store) (fate : Fate) :
    (world.close fate store).Valid limits := by
  rw [World.close]
  cases fate with
  | completed => exact .disowned h.holds fun other hother => by cases hother
  | interrupted kept =>
    refine .disowned h.holds fun other hother => ?_
    cases hother
    rfl

/-- One event keeps the invariant. -/
theorem Valid.step {world : World} (h : world.Valid limits) (event : Event) :
    (world.step limits event).Valid limits := by
  cases howner : world.owner with
  | none =>
    cases event with
    | reopen fate =>
      rw [World.step, howner]
      exact h.reopen fate howner
    | crash => exact .disowned h.holds fun other hother => by cases hother
    | set | remove | commit | compact | close =>
      rw [World.step, howner]
      exact h
  | some store =>
    cases event with
    | reopen fate =>
      rw [World.step, howner]
      exact h
    | crash => exact .disowned h.holds fun other hother => by cases hother
    | set key value =>
      rw [World.step, howner]
      exact h.set howner key value
    | remove key =>
      rw [World.step, howner]
      exact h.remove howner key
    | commit fate =>
      rw [World.step, howner]
      exact h.commit howner fate
    | compact fate =>
      rw [World.step, howner]
      exact h.compact howner fate
    | close fate =>
      rw [World.step, howner]
      exact h.close store fate

theorem valid_of_reachable {world : World} (h : (runs limits).Reachable world) :
    world.Valid limits := by
  refine h.invariant (P := Valid limits) (fun _ (hinitial : Initial limits _) => hinitial.valid) ?_
  rintro before _ hbefore ⟨event, rfl⟩
  exact hbefore.step event

/-- Opening the file of a version succeeds with this version unless its sequence
is the last one. -/
theorem openStore_completed {disk : Option Bytes} {version : Version}
    (h : Holds limits (disk.getD []) version) :
    (version.sequence ≠ maximumSequence → ∃ store disk',
        openStore .completed limits disk = (.ok store, some disk') ∧
          Owned limits disk' store version []) ∧
      (version.sequence = maximumSequence →
        (openStore .completed limits disk).1 = .error (.error sequenceExhausted)) := by
  have hopened := openPrepared_opened .completed h
  have hopen : openStore .completed limits disk =
      (openPrepared .completed limits (disk.getD [])).map id some := rfl
  rw [hopen]
  cases hresult : openPrepared .completed limits (disk.getD []) with
  | mk result after =>
    rw [hresult] at hopened
    cases hopened with
    | done hnot howned =>
      exact ⟨fun _ => ⟨_, _, rfl, howned⟩, fun hlimit => absurd hlimit hnot⟩
    | exhausted hlimit _ => exact ⟨fun hnot => absurd hlimit hnot, fun _ => rfl⟩
    | failed hfate _ _ => exact absurd rfl hfate

end World

end Nocter.DurableStore

/-!
# What the store guarantees

Reopening after any crash finds the last reported version or the one in flight,
and the staged batch replays to the in-memory state whenever it is not
superseded by a checkpoint.
-/

namespace Nocter.DurableStore

open TransitionSystem

namespace World

variable {limits : StoreLimits}

/-- No file yet. -/
def absent : World := ⟨none, none, ⟨.new, 0⟩, none, []⟩

theorem recoverJournalFile_nil (limits : StoreLimits) :
    recoverJournalFile [] limits.journal = .ok (RecoveryProgress.start.finish, 0) :=
  recoverJournalFile_eq ⟨Nat.zero_le _, [], [], rfl, .nil _, .nil _⟩

theorem absent_initial (limits : StoreLimits) : absent.Initial limits :=
  ⟨rfl, rfl, rfl, _, _, recoverJournalFile_nil limits, rfl, rfl⟩

theorem absent_reachable (limits : StoreLimits) (events : List Event) :
    (runs limits).Reachable (events.foldl (step limits) absent) := by
  suffices h : ∀ world, (runs limits).Reachable world →
      (runs limits).Reachable (events.foldl (step limits) world) from
    h absent (.of_initial (absent_initial limits))
  induction events with
  | nil => exact fun _ h => h
  | cons event events ih => exact fun world h => ih _ (h.next ⟨event, rfl⟩)

/-- Wherever a run is cut off, reopening with the same limits finds the version
of the last commit that reported success (or the one the last opening found) or
of the one commit in flight, unless its sequence is the last one. -/
theorem crash_consistent {world : World} (h : (runs limits).Reachable world) :
    ∃ version, (version = world.reported ∨ world.inFlight = some version) ∧
      (version.sequence ≠ maximumSequence → ∃ store disk',
        openStore .completed limits world.disk = (.ok store, disk') ∧
          ⟨store.state, store.committedSequenceValue⟩ = version) ∧
      (version.sequence = maximumSequence →
        (openStore .completed limits world.disk).1 = .error (.error sequenceExhausted)) := by
  obtain ⟨version, hholds, hversion⟩ := (valid_of_reachable h).holds
  obtain ⟨hopen, hexhausted⟩ := openStore_completed hholds
  refine ⟨version, hversion, fun hlimit => ?_, hexhausted⟩
  obtain ⟨store, disk', hopened, howned⟩ := hopen hlimit
  exact ⟨store, some disk', hopened, howned.version_eq⟩

/-- A commit cut off after five bytes of its record. -/
def interruptedCommit : World :=
  [.reopen .completed, .set [1] [2], .commit (.interrupted 5), .crash].foldl (step .standard) absent

theorem interruptedCommit_consistent :
    ∃ version, (version = interruptedCommit.reported ∨ interruptedCommit.inFlight = some version) ∧
      (version.sequence ≠ maximumSequence → ∃ store disk',
        openStore .completed .standard interruptedCommit.disk = (.ok store, disk') ∧
          ⟨store.state, store.committedSequenceValue⟩ = version) ∧
      (version.sequence = maximumSequence →
        (openStore .completed .standard interruptedCommit.disk).1 =
          .error (.error sequenceExhausted)) :=
  crash_consistent (absent_reachable .standard _)

/-- A reachable world with an owner that can write. -/
structure Ready (limits : StoreLimits) (world : World) (store : Store) : Prop where
  reachable : (runs limits).Reachable world
  owner : world.owner = some store
  writable : store.writable = true

theorem Ready.owned {world : World} {store : Store} (h : Ready limits world store) :
    Owned limits world.file store world.reported world.accepted :=
  ((valid_of_reachable h.reachable).owned store h.owner h.writable).1

/-- Opening an absent file succeeds with the empty version. -/
theorem ready_absent (limits : StoreLimits) :
    ∃ world store, Ready limits world store ∧ world.reported = ⟨.new, 0⟩ ∧ world.accepted = [] := by
  have hholds : Holds limits (absent.disk.getD []) ⟨.new, 0⟩ :=
    ⟨.start, ⟨Nat.zero_le _, [], [], rfl, .nil _, .nil _⟩, .start, rfl, rfl⟩
  obtain ⟨store, disk, hopen, howned⟩ := (openStore_completed hholds).1 (by decide)
  have hreach : (runs limits).Reachable (absent.step limits (.reopen .completed)) :=
    Reachable.next (.of_initial (absent_initial limits)) ⟨_, rfl⟩
  have hworld : absent.step limits (.reopen .completed) =
      ⟨some disk, some store, store.version, none, []⟩ := by
    change absent.reopen limits .completed = _
    rw [World.reopen, hopen]
  rw [hworld] at hreach
  exact ⟨_, store, ⟨hreach, rfl, howned.writable⟩, howned.version_eq, rfl⟩

theorem Ready.absent_state {world : World} {store : Store} (h : Ready limits world store)
    (hreported : world.reported = ⟨.new, 0⟩) (haccepted : world.accepted = []) :
    store.state = .new := by
  have howned := h.owned
  rw [haccepted] at howned
  exact (congrArg Version.state (howned.version_eq.trans hreported) :)

/-- A write that fits is accepted. -/
theorem Ready.set {world : World} {store : Store} (h : Ready limits world store) {key value : Bytes}
    {state : StoreState} {next : ℕ} (hentry : (StoreEntry.mk key value).Within limits)
    (hwritten : EntryWritten limits store.state store.snapshotBytes key value state next) :
    ∃ world' store', Ready limits world' store' ∧ store'.state = state ∧ store'.dirty = true ∧
      world'.reported = world.reported ∧ world'.accepted = world.accepted ++ [.set key value] := by
  have hset := Store.set_eq_ok.mpr ⟨h.writable, h.owned.staged.sameLimits ▸ hentry, state, next,
    h.owned.staged.sameLimits ▸ hwritten, rfl⟩
  have hreach := h.reachable.next ⟨.set key value, rfl⟩
  rw [World.step, h.owner, Option.elim_some, World.set, hset] at hreach
  exact ⟨_, _, ⟨hreach, rfl, h.writable⟩, rfl, rfl, rfl, rfl⟩

/-- A commit whose file operations complete publishes the next version. -/
theorem Ready.commit {world : World} {store : Store} (h : Ready limits world store)
    (hdirty : store.dirty = true) (hlimit : world.reported.sequence ≠ maximumSequence) :
    ∃ world' store', Ready limits world' store' ∧
      world'.reported = ⟨store.state, world.reported.sequence + 1⟩ ∧ world'.accepted = [] := by
  have hpublished := commit_published .completed h.owned
  have hreach := h.reachable.next ⟨.commit .completed, rfl⟩
  rw [World.step, h.owner, Option.elim_some, World.commit] at hreach
  rw [file] at hpublished
  cases hresult : store.commit .completed (world.disk.getD []) with
  | mk result after =>
    rw [hresult] at hpublished hreach
    cases hpublished with
    | done hsequence hafter =>
      rw [hdirty, if_pos rfl] at hsequence
      exact ⟨_, _, ⟨hreach, rfl, hafter.writable⟩, by rw [hsequence], rfl⟩
    | failed hcause _ _ =>
      obtain hfate | hexhausted := hcause
      · exact absurd rfl hfate
      · exact absurd hexhausted hlimit

/-- The state with the empty value under the empty key. -/
def emptyEntry : StoreState := ⟨[⟨[], []⟩], by simp⟩

/-- Writing the empty value under the empty key fits wherever its result does. -/
theorem emptyEntry_written {state : StoreState} (hstate : state = .new ∨ state = emptyEntry)
    (hbytes : emptyEntry.snapshotBytes ≤ limits.maximumSnapshotBytes) :
    EntryWritten limits state state.snapshotBytes [] [] emptyEntry emptyEntry.snapshotBytes := by
  obtain rfl | rfl := hstate
  · exact .inserted rfl limits.entries_pos.ne hbytes rfl
  · have hvalue : emptyEntry.value [] = some [] := rfl
    exact .replaced hvalue hbytes rfl

/-- The batch of a writable owner is superseded by a checkpoint exactly when the
accepted mutations no longer fit the snapshot limit; until then encoding and
applying it to the last committed state gives the in-memory state, and from then
on the snapshot does. -/
theorem staged_batch_replays {world : World} {store : Store} (h : (runs limits).Reachable world)
    (howner : world.owner = some store) (hwritable : store.writable = true) :
    (store.pending.checkpointRequired = true ↔
        limits.maximumSnapshotBytes < mutationBatchBytes world.accepted) ∧
      (store.pending.checkpointRequired = false →
        ∃ encoded, encodeStoreMutations store.pending = .ok encoded ∧
          applyStoreMutations world.reported.state world.reported.state.snapshotBytes encoded limits =
            .ok (store.state, store.snapshotBytes)) ∧
      (store.pending.checkpointRequired = true →
        encodeStoreMutations store.pending = .error .abort ∧
          ∃ snapshot, encodeSnapshot store.state store.snapshotBytes = .ok snapshot ∧
            decodeSnapshot snapshot limits = .ok (store.state, store.snapshotBytes)) := by
  have howned := (Ready.mk h howner hwritable).owned
  refine ⟨howned.staged.checkpoint, fun hopen => ?_, fun hclosed => ?_⟩
  · obtain ⟨hmutations, hbytes⟩ := howned.staged.pending hopen
    have hfits : mutationBatchBytes world.accepted ≤ limits.maximumSnapshotBytes := by
      have hnot := mt howned.staged.checkpoint.mpr (by rw [hopen]; simp)
      omega
    refine ⟨_, encodeStoreMutations_eq (by rw [hbytes, hmutations]) hopen, ?_⟩
    rw [hmutations]
    exact (applyStoreMutations_encoded world.accepted
      (world.reported.state, world.reported.state.snapshotBytes) howned.staged.within hfits).trans
        howned.staged.replay
  · have hsnapshot := encodeSnapshot_eq store.state
    rw [howned.staged.bytes]
    exact ⟨encodeStoreMutations_abort hclosed, _, hsnapshot,
      decodeSnapshot_encodeSnapshot howned.staged.state hsnapshot⟩

theorem single_set_replays : ∃ world store, (runs .standard).Reachable world ∧
    world.owner = some store ∧ world.accepted = [.set [] []] ∧
      ∃ encoded, encodeStoreMutations store.pending = .ok encoded ∧
        applyStoreMutations world.reported.state world.reported.state.snapshotBytes encoded .standard =
          .ok (store.state, store.snapshotBytes) := by
  obtain ⟨world, store, hready, hreported, haccepted⟩ := ready_absent .standard
  have hempty : (StoreEntry.mk [] []).Within .standard := ⟨Nat.zero_le _, Nat.zero_le _⟩
  have hwritten := emptyEntry_written (.inl (hready.absent_state hreported haccepted))
    (show emptyEntry.snapshotBytes ≤ StoreLimits.standard.maximumSnapshotBytes by decide)
  rw [← hready.owned.staged.bytes] at hwritten
  obtain ⟨world₁, store₁, hready₁, _, _, _, haccepted₁⟩ := hready.set hempty hwritten
  rw [haccepted] at haccepted₁
  obtain ⟨hclosed, hopen, _⟩ := staged_batch_replays hready₁.reachable hready₁.owner hready₁.writable
  have hfits : store₁.pending.checkpointRequired = false := by
    rw [← Bool.not_eq_true, hclosed, haccepted₁]
    decide
  exact ⟨world₁, store₁, hready₁.reachable, hready₁.owner, haccepted₁, hopen hfits⟩

/-- Limits with room for one empty entry and a batch of one mutation. -/
def tightLimits : StoreLimits where
  maximumKeyBytes := 0
  maximumValueBytes := 0
  maximumEntries := 1
  maximumSnapshotBytes := 40
  maximumJournalBytes := 68
  maximumJournalRecords := 1
  header_le := by decide
  key_le := by decide
  value_le := by decide
  entries_pos := by decide
  records_pos := by decide
  overhead_le := by decide
  snapshot_le := by decide
  entries_lt := by decide
  journal_lt := by decide
  records_lt := by decide

/-- Two accepted sets of the same key overflow the batch although the state
stays small. -/
theorem staged_batch_overflows : ¬ ∀ (limits : StoreLimits) (world : World) (store : Store),
    (runs limits).Reachable world → world.owner = some store → store.writable = true →
      ∃ encoded, encodeStoreMutations store.pending = .ok encoded ∧
        applyStoreMutations world.reported.state world.reported.state.snapshotBytes encoded limits =
          .ok (store.state, store.snapshotBytes) := by
  intro hall
  obtain ⟨world, store, hready, hreported, haccepted⟩ := ready_absent tightLimits
  have hempty : (StoreEntry.mk [] []).Within tightLimits := ⟨Nat.zero_le _, Nat.zero_le _⟩
  have hbytes : emptyEntry.snapshotBytes ≤ tightLimits.maximumSnapshotBytes := by decide
  have hfirst := emptyEntry_written (.inl (hready.absent_state hreported haccepted)) hbytes
  rw [← hready.owned.staged.bytes] at hfirst
  obtain ⟨world₁, store₁, hready₁, hstate₁, _, _, haccepted₁⟩ := hready.set hempty hfirst
  have hsecond := emptyEntry_written (.inr hstate₁) hbytes
  rw [← hready₁.owned.staged.bytes] at hsecond
  obtain ⟨world₂, store₂, hready₂, _, _, _, haccepted₂⟩ := hready₁.set hempty hsecond
  obtain ⟨encoded, hencode, _⟩ := hall tightLimits world₂ store₂ hready₂.reachable hready₂.owner
    hready₂.writable
  have hclosed : store₂.pending.checkpointRequired = true := by
    rw [hready₂.owned.staged.checkpoint, haccepted₂, haccepted₁, haccepted]
    decide
  rw [encodeStoreMutations_abort hclosed] at hencode
  cases hencode

/-- Every sequence number is reached by committing one empty entry again and again. -/
theorem ready_sequence (sequence : ℕ) (h : sequence ≤ maximumSequence) :
    ∃ world store, Ready .standard world store ∧ world.reported.sequence = sequence ∧
      world.accepted = [] ∧ (store.state = .new ∨ store.state = emptyEntry) := by
  induction sequence with
  | zero =>
    obtain ⟨world, store, hready, hreported, haccepted⟩ := ready_absent .standard
    exact ⟨world, store, hready, by rw [hreported], haccepted,
      .inl (hready.absent_state hreported haccepted)⟩
  | succ sequence ih =>
    obtain ⟨world, store, hready, hsequence, haccepted, hstate⟩ := ih (by omega)
    have hempty : (StoreEntry.mk [] []).Within .standard := ⟨Nat.zero_le _, Nat.zero_le _⟩
    have hwritten := emptyEntry_written hstate
      (show emptyEntry.snapshotBytes ≤ StoreLimits.standard.maximumSnapshotBytes by decide)
    rw [← hready.owned.staged.bytes] at hwritten
    obtain ⟨world₁, store₁, hready₁, hstate₁, hdirty, hreported, _⟩ := hready.set hempty hwritten
    obtain ⟨world₂, store₂, hready₂, hreported₂, haccepted₂⟩ := hready₁.commit hdirty
      (by rw [hreported, hsequence]; omega)
    have howned := hready₂.owned
    rw [haccepted₂] at howned
    refine ⟨world₂, store₂, hready₂, ?_, haccepted₂, .inr ?_⟩
    · rw [hreported₂, hreported, hsequence]
    · have hversion := howned.version_eq
      rw [hreported₂, hstate₁] at hversion
      exact (congrArg Version.state hversion :)

/-- After the last sequence number is committed, the store cannot be reopened. -/
theorem exhausted_not_reopened : ¬ ∀ (limits : StoreLimits) (world : World),
    (runs limits).Reachable world →
      ∃ version, (version = world.reported ∨ world.inFlight = some version) ∧
        ∃ store disk', openStore .completed limits world.disk = (.ok store, disk') ∧
          ⟨store.state, store.committedSequenceValue⟩ = version := by
  intro hall
  obtain ⟨world, store, hready, hsequence, _, _⟩ := ready_sequence maximumSequence le_rfl
  obtain ⟨version, _, reopened, disk, hopen, _⟩ := hall .standard world hready.reachable
  have hexhausted := (openStore_completed hready.owned.journal.holds).2 hsequence
  have hresult := congrArg Prod.fst hopen
  rw [hexhausted] at hresult
  cases hresult

end World

end Nocter.DurableStore
