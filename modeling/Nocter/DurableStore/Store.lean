import Nocter.DurableStore.Journal
import Nocter.DurableStore.Recovery
import Nocter.Library.TransitionSystem

/-!
# The store and its environment

A world is the journal file, the store that owns it if one is open, and what
the callers of `commit` know: the version of the last commit that reported
success and the version of the commit that was in flight when its owner failed.
-/

namespace Nocter.DurableStore

structure Store where
  journal : Journal
  state : StoreState
  pending : StoreMutationBatch
  limits : StoreLimits
  snapshotBytes : ℕ
  committedSequenceValue : ℕ
  dirty : Bool
  writable : Bool

/-- The platform's part in opening a store: preparing the file, reading it,
truncating its tail and replacing a legacy journal. -/
structure OpenFate where
  prepare : Fate
  observe : Fate
  truncate : Fate
  normalize : Fate

def OpenFate.completed : OpenFate := ⟨.completed, .completed, .completed, .completed⟩

namespace Store

def opened (journal : Journal) (limits : StoreLimits) (recovered : StoreRecovery) : Store where
  journal
  state := recovered.state
  pending := newStoreMutationBatch
  limits
  snapshotBytes := recovered.snapshotBytes
  committedSequenceValue := recovered.committedSequence
  dirty := false
  writable := true

def set (store : Store) (key value : Bytes) : Outcome Store := do
  reject (!store.writable) storeUnusable
  reject (key.length > store.limits.maximumKeyBytes) keyTooLarge
  reject (value.length > store.limits.maximumValueBytes) valueTooLarge
  let (state, next) ← writeEntry tooManyEntries .abort store.state store.snapshotBytes key value
    store.limits
  .ok { store with
    state
    snapshotBytes := next
    pending := recordStoreSet store.pending key value store.limits.maximumSnapshotBytes
    dirty := true }

def remove (store : Store) (key : Bytes) : Outcome (Bool × Store) := do
  reject (!store.writable) storeUnusable
  match store.state.remove key with
  | none => .ok (false, store)
  | some (removed, state) =>
    .ok (true, { store with
      state
      snapshotBytes := store.snapshotBytes -
        (snapshotEntryHeaderBytes + removed.key.length + removed.value.length)
      pending := recordStoreRemove store.pending removed.key store.limits.maximumSnapshotBytes
      dirty := true })

/-- The owner after a publication that did not succeed. -/
def fail (store : Store) (journal : Journal) : Store := { store with journal, writable := false }

/-- The owner after a publication that succeeded. -/
def publish (store : Store) (journal : Journal) (sequence : ℕ) : Store :=
  { store with
    journal
    writable := true
    committedSequenceValue := sequence
    dirty := false
    pending := resetStoreMutationBatch store.pending }

/-- Commit the complete state; a plan names the sequence it expects. -/
def commitCheckpoint (fate : Fate) (store : Store) (file : JournalFile) (expected : Option ℕ) :
    Outcome ℕ × Store × Bytes :=
  match encodeSnapshot store.state store.snapshotBytes with
  | .error failure => (.error failure, store.fail file.journal, file.disk)
  | .ok snapshot =>
    match commitJournalCheckpoint fate file snapshot with
    | (.error failure, file) => (.error failure, store.fail file.journal, file.disk)
    | (.ok committed, file) =>
      if expected.any (committed != ·) then (invariantAbort, store.fail file.journal, file.disk)
      else (.ok committed, store.publish file.journal committed, file.disk)

def commit (fate : Fate) (store : Store) (disk : Bytes) : Outcome ℕ × Store × Bytes :=
  if !store.writable then (.error (.error storeUnusable), store, disk)
  else if !store.dirty then (.ok store.committedSequenceValue, store, disk)
  else if store.pending.checkpointRequired then
    store.commitCheckpoint fate ⟨store.journal, disk⟩ none
  else
    match encodeStoreMutations store.pending with
    | .error failure => (.error failure, store.fail store.journal, disk)
    | .ok mutations =>
      match commitJournalMutations fate ⟨store.journal, disk⟩ mutations with
      | (.error failure, file) => (.error failure, store.fail file.journal, file.disk)
      | (.ok (.committed committed), file) =>
        (.ok committed, store.publish file.journal committed, file.disk)
      | (.ok (.checkpointRequired expected), file) =>
        store.commitCheckpoint fate file (some expected)

def compact (fate : Fate) (store : Store) (disk : Bytes) : Outcome Unit × Store × Bytes :=
  if !store.writable then (.error (.error storeUnusable), store, disk)
  else if store.dirty then (.error (.error uncommittedChanges), store, disk)
  else if store.committedSequenceValue = 0 then (.ok (), store, disk)
  else
    match encodeSnapshot store.state store.snapshotBytes with
    | .error failure => (.error failure, store.fail store.journal, disk)
    | .ok snapshot =>
      match compactJournal fate ⟨store.journal, disk⟩ snapshot store.committedSequenceValue with
      | (.error failure, file) => (.error failure, store.fail file.journal, file.disk)
      | (.ok (), file) => (.ok (), { store with journal := file.journal, writable := true }, file.disk)

/-- A failed close leaves an owner that can do nothing. -/
def close (fate : Fate) (store : Store) : Outcome Unit × Store :=
  let (result, journal) := closeJournal fate store.journal
  (result, store.fail journal)

end Store

/-- `open_store` behind the lock, on the prepared file. -/
def openPrepared (fate : OpenFate) (limits : StoreLimits) (disk : Bytes) : Outcome Store × Bytes :=
  match journalLimits limits with
  | .error failure => (.error failure, disk)
  | .ok limitsOfJournal =>
    match openJournal fate.truncate disk limitsOfJournal with
    | (.error failure, disk) => (.error failure, disk)
    | (.ok (journal, recovery), disk) =>
      match recoverStoreState recovery limits with
      | .error failure => (.error failure, disk)
      | .ok recovered =>
        if recovered.legacy then
          match encodeSnapshot recovered.state recovered.snapshotBytes with
          | .error failure => (.error failure, disk)
          | .ok checkpoint =>
            match normalizeLegacyJournal fate.normalize ⟨journal, disk⟩ checkpoint
              recovered.committedSequence with
            | (.error failure, file) => (.error failure, file.disk)
            | (.ok (), file) => (.ok (.opened file.journal limits recovered), file.disk)
        else (.ok (.opened journal limits recovered), disk)

/-- Open a path whose file may be absent: it is created empty first. -/
def openStore (fate : OpenFate) (limits : StoreLimits) (disk : Option Bytes) :
    Outcome Store × Option Bytes :=
  match fate.prepare with
  | .interrupted kept => (.error .platform, if kept = 0 then disk else some (disk.getD []))
  | .completed =>
    match fate.observe with
    | .interrupted _ => (.error .platform, some (disk.getD []))
    | .completed => (openPrepared fate limits (disk.getD [])).map id some

/-- A committed state and its sequence number. -/
structure Version where
  state : StoreState
  sequence : ℕ

def Store.version (store : Store) : Version := ⟨store.state, store.committedSequenceValue⟩

structure World where
  disk : Option Bytes
  owner : Option Store
  /-- The version of the last commit that reported success, or what the last
  successful opening found. -/
  reported : Version
  /-- The version of the commit that failed or was cut off under its owner. -/
  inFlight : Option Version
  /-- The mutations accepted since the last successful commit or opening. -/
  accepted : List StoreMutation

/-- An interruption of a running operation is its fate followed by `crash`. -/
inductive Event where
  | reopen (fate : OpenFate)
  | set (key value : Bytes)
  | remove (key : Bytes)
  | commit (fate : Fate)
  | compact (fate : Fate)
  | close (fate : Fate)
  | crash

namespace World

/-- The version a commit by this owner would publish. -/
def attempt (store : Store) : Version := ⟨store.state, store.committedSequenceValue + 1⟩

def reopen (limits : StoreLimits) (fate : OpenFate) (world : World) : World :=
  match openStore fate limits world.disk with
  | (.error _, disk) => { world with disk }
  | (.ok store, disk) =>
    { disk, owner := some store, reported := store.version, inFlight := none, accepted := [] }

def set (key value : Bytes) (store : Store) (world : World) : World :=
  match store.set key value with
  | .error _ => world
  | .ok store =>
    { world with owner := some store, accepted := world.accepted ++ [.set key value] }

def remove (key : Bytes) (store : Store) (world : World) : World :=
  match store.remove key with
  | .error _ => world
  | .ok (false, store) => { world with owner := some store }
  | .ok (true, store) =>
    { world with owner := some store, accepted := world.accepted ++ [.remove key] }

def commit (fate : Fate) (store : Store) (world : World) : World :=
  match store.commit fate (world.disk.getD []) with
  | (.ok sequence, store', disk) =>
    { disk := some disk
      owner := some store'
      reported := ⟨store.state, sequence⟩
      inFlight := none
      accepted := [] }
  | (.error _, store', disk) =>
    { world with
      disk := some disk
      owner := some store'
      inFlight := if store.writable then some (attempt store) else world.inFlight }

def compact (fate : Fate) (store : Store) (world : World) : World :=
  match store.compact fate (world.disk.getD []) with
  | (_, store, disk) => { world with disk := some disk, owner := some store }

def close (fate : Fate) (store : Store) (world : World) : World :=
  match store.close fate with
  | (.ok (), _) => { world with owner := none }
  | (.error _, store) => { world with owner := some store }

def step (limits : StoreLimits) (world : World) : Event → World
  | .reopen fate => if world.owner.isSome then world else world.reopen limits fate
  | .set key value => world.owner.elim world fun store => world.set key value store
  | .remove key => world.owner.elim world fun store => world.remove key store
  | .commit fate => world.owner.elim world fun store => world.commit fate store
  | .compact fate => world.owner.elim world fun store => world.compact fate store
  | .close fate => world.owner.elim world fun store => world.close fate store
  | .crash => { world with owner := none }

/-- A file that does not exist or that recovery accepts, with the version it holds. -/
def Initial (limits : StoreLimits) (world : World) : Prop :=
  world.owner = none ∧ world.inFlight = none ∧ world.accepted = [] ∧
    ∃ recovery recovered, recoverJournalFile (world.disk.getD []) limits.journal = .ok recovery ∧
      recoverStoreState recovery.1 limits = .ok recovered ∧
      world.reported = ⟨recovered.state, recovered.committedSequence⟩

def runs (limits : StoreLimits) : TransitionSystem World where
  initial := Initial limits
  next world world' := ∃ event, world.step limits event = world'

end World

end Nocter.DurableStore
