import Mathlib.Algebra.BigOperators.Group.List.Basic
import Mathlib.Data.List.Nodup
import Nocter.Library.Word

/-!
# Byte cursors and failures of the store

An operation of the store either returns, fails with one of the module's errors
or aborts. A cursor is what remains of its input together with the offset of
that remainder.
-/

namespace Nocter.DurableStore

abbrev Bytes := List UInt8

structure StoreError where
  code : String
  message : String
  deriving DecidableEq

/-- A failure of the platform carries no error of this module. -/
inductive Failure where
  | error (error : StoreError)
  | platform
  | abort
  deriving DecidableEq

abbrev Outcome (α : Type) := Except Failure α

/-- `value otherwise { return failure }`. -/
def otherwise {α : Type} (value : Option α) (failure : Failure) : Outcome α :=
  match value with
  | some value => .ok value
  | none => .error failure

@[simp] theorem otherwise_some {α : Type} (value : α) (failure : Failure) :
    otherwise (some value) failure = .ok value := rfl

theorem otherwise_eq_ok {α : Type} {value : Option α} {failure : Failure} {result : α} :
    otherwise value failure = .ok result ↔ value = some result := by
  cases value <;> simp [otherwise]

/-- `safety.invariant_abort()`. -/
def invariantAbort {α : Type} : Outcome α := .error .abort

theorem bind_eq_ok {α β : Type} {x : Outcome α} {f : α → Outcome β} {b : β} :
    (x >>= f) = .ok b ↔ ∃ a, x = .ok a ∧ f a = .ok b := by
  cases x with
  | error failure => simp [bind, Except.bind]
  | ok a => simp [bind, Except.bind]

@[simp] theorem ok_bind {α β : Type} (a : α) (f : α → Outcome β) :
    ((Except.ok a : Outcome α) >>= f) = f a := rfl

/-- Fail unless the condition of an `if … { return failure }` is false. -/
def reject (condition : Prop) [Decidable condition] (failure : StoreError) : Outcome Unit :=
  if condition then .error (.error failure) else .ok ()

theorem reject_eq_ok {condition : Prop} [Decidable condition] {failure : StoreError} :
    reject condition failure = .ok () ↔ ¬condition := by
  rw [reject]
  split <;> simp_all

theorem reject_of_not {condition : Prop} [Decidable condition] {failure : StoreError}
    (h : ¬condition) : reject condition failure = .ok () := reject_eq_ok.mpr h

/-- Stop with an abort when the condition holds. -/
def abortIf (condition : Prop) [Decidable condition] : Outcome Unit :=
  if condition then invariantAbort else .ok ()

theorem abortIf_of_not {condition : Prop} [Decidable condition] (h : ¬condition) :
    abortIf condition = .ok () := if_neg h

structure ByteCursor where
  remaining : Bytes
  offset : ℕ

namespace ByteCursor

def new (input : Bytes) : ByteCursor := ⟨input, 0⟩

def isFinished (cursor : ByteCursor) : Bool := cursor.remaining.isEmpty

def remainingLen (cursor : ByteCursor) : ℕ := cursor.remaining.length

def take (cursor : ByteCursor) (count : ℕ) : Option (Bytes × ByteCursor) :=
  if count > cursor.remainingLen then none
  else some (cursor.remaining.take count, ⟨cursor.remaining.drop count, cursor.offset + count⟩)

def takeLe (cursor : ByteCursor) (width : ℕ) : Option (ℕ × ByteCursor) :=
  (cursor.take width).map fun taken => (decodeLe taken.1, taken.2)

def takeU16Le (cursor : ByteCursor) : Option (ℕ × ByteCursor) := cursor.takeLe 2

def takeU64Le (cursor : ByteCursor) : Option (ℕ × ByteCursor) := cursor.takeLe 8

theorem take_append (bytes rest : Bytes) (offset : ℕ) :
    (⟨bytes ++ rest, offset⟩ : ByteCursor).take bytes.length =
      some (bytes, ⟨rest, offset + bytes.length⟩) := by
  simp [take, remainingLen]

theorem take_append_of_length {bytes : Bytes} {count : ℕ} (h : bytes.length = count) (rest : Bytes)
    (offset : ℕ) : (⟨bytes ++ rest, offset⟩ : ByteCursor).take count =
      some (bytes, ⟨rest, offset + count⟩) := by
  rw [← h, take_append]

theorem takeLe_append {width value : ℕ} (h : value < 256 ^ width) (rest : Bytes) (offset : ℕ) :
    (⟨encodeLe width value ++ rest, offset⟩ : ByteCursor).takeLe width =
      some (value, ⟨rest, offset + width⟩) := by
  rw [takeLe, take_append_of_length (encodeLe_length width value), Option.map_some,
    decodeLe_encodeLe h]

/-- Taking consumes exactly the bytes it takes. -/
theorem take_length {cursor cursor' : ByteCursor} {count : ℕ} {taken : Bytes}
    (h : cursor.take count = some (taken, cursor')) :
    cursor'.remaining.length + count = cursor.remaining.length := by
  rw [take] at h
  split at h
  case isTrue => cases h
  case isFalse hle =>
    cases h
    rw [remainingLen] at hle
    rw [List.length_drop]
    omega

theorem takeLe_length {cursor cursor' : ByteCursor} {width value : ℕ}
    (h : cursor.takeLe width = some (value, cursor')) :
    cursor'.remaining.length + width = cursor.remaining.length := by
  rw [takeLe, Option.map_eq_some_iff] at h
  obtain ⟨taken, htake, heq⟩ := h
  cases heq
  exact take_length htake

theorem takeLe_lt {cursor cursor' : ByteCursor} {width value : ℕ}
    (h : cursor.takeLe width = some (value, cursor')) : value < 256 ^ width := by
  rw [takeLe, Option.map_eq_some_iff] at h
  obtain ⟨taken, htake, heq⟩ := h
  cases heq
  rw [take] at htake
  split at htake
  case isTrue => cases htake
  case isFalse hle =>
    cases htake
    have hlength : (cursor.remaining.take width).length = width := by
      rw [remainingLen] at hle
      rw [List.length_take]
      omega
    have hbound := decodeLe_lt (cursor.remaining.take width)
    rw [hlength] at hbound
    exact hbound

end ByteCursor

end Nocter.DurableStore

/-!
# Limits and in-memory state of the store

The state is the sequence of retained entries in insertion order, with every
key once. The slot vector, the links and the hash index of the source implement
this sequence.
-/

namespace Nocter.DurableStore

def snapshotHeaderBytes : ℕ := 16

def snapshotEntryHeaderBytes : ℕ := 16

def journalHeaderBytes : ℕ := 24

def journalTrailerBytes : ℕ := 4

def journalRecordOverhead : ℕ := journalHeaderBytes + journalTrailerBytes

def invalidStoreLimits : StoreError :=
  ⟨"std.store.invalid_limits", "store limits are internally inconsistent"⟩

def keyTooLarge : StoreError :=
  ⟨"std.store.key_too_large", "key exceeds the configured byte limit"⟩

def valueTooLarge : StoreError :=
  ⟨"std.store.value_too_large", "value exceeds the configured byte limit"⟩

def tooManyEntries : StoreError :=
  ⟨"std.store.too_many_entries", "store exceeds the configured entry limit"⟩

def snapshotTooLarge : StoreError :=
  ⟨"std.store.snapshot_too_large", "state exceeds the configured snapshot limit"⟩

def corruptSnapshot : StoreError :=
  ⟨"std.store.corrupt_snapshot", "journal contains an invalid store snapshot"⟩

def storeUnusable : StoreError :=
  ⟨"std.store.unusable", "store must be reopened after a failed commit"⟩

def uncommittedChanges : StoreError :=
  ⟨"std.store.uncommitted_changes",
    "commit or discard current changes before compacting the store"⟩

/-- The fields are `usize` values that pass the check of `StoreLimits.bounded`. -/
structure StoreLimits where
  maximumKeyBytes : ℕ
  maximumValueBytes : ℕ
  maximumEntries : ℕ
  maximumSnapshotBytes : ℕ
  maximumJournalBytes : ℕ
  maximumJournalRecords : ℕ
  header_le : snapshotHeaderBytes ≤ maximumSnapshotBytes
  key_le : maximumKeyBytes ≤ maximumSnapshotBytes - snapshotHeaderBytes
  value_le : maximumValueBytes ≤ maximumSnapshotBytes - snapshotHeaderBytes
  entries_pos : 0 < maximumEntries
  records_pos : 0 < maximumJournalRecords
  overhead_le : journalRecordOverhead ≤ maximumJournalBytes
  snapshot_le : maximumSnapshotBytes ≤ maximumJournalBytes - journalRecordOverhead
  entries_lt : maximumEntries < 2 ^ 64
  journal_lt : maximumJournalBytes < 2 ^ 64
  records_lt : maximumJournalRecords < 2 ^ 64

namespace StoreLimits

def standard : StoreLimits where
  maximumKeyBytes := 65536
  maximumValueBytes := 1048576
  maximumEntries := 65536
  maximumSnapshotBytes := 16777216
  maximumJournalBytes := 268435456
  maximumJournalRecords := 4096
  header_le := by decide
  key_le := by decide
  value_le := by decide
  entries_pos := by decide
  records_pos := by decide
  overhead_le := by decide
  snapshot_le := by decide
  entries_lt := by decide
  journal_lt := by decide
  records_lt := by decide

def bounded (maximumKeyBytes maximumValueBytes maximumEntries maximumSnapshotBytes
    maximumJournalBytes maximumJournalRecords : UInt64) : Outcome StoreLimits :=
  if h : maximumSnapshotBytes.toNat < snapshotHeaderBytes ∨
      maximumKeyBytes.toNat > maximumSnapshotBytes.toNat - snapshotHeaderBytes ∨
      maximumValueBytes.toNat > maximumSnapshotBytes.toNat - snapshotHeaderBytes ∨
      maximumEntries.toNat = 0 ∨ maximumJournalRecords.toNat = 0 ∨
      maximumJournalBytes.toNat < journalRecordOverhead ∨
      maximumSnapshotBytes.toNat > maximumJournalBytes.toNat - journalRecordOverhead then
    .error (.error invalidStoreLimits)
  else
    .ok {
      maximumKeyBytes := maximumKeyBytes.toNat
      maximumValueBytes := maximumValueBytes.toNat
      maximumEntries := maximumEntries.toNat
      maximumSnapshotBytes := maximumSnapshotBytes.toNat
      maximumJournalBytes := maximumJournalBytes.toNat
      maximumJournalRecords := maximumJournalRecords.toNat
      header_le := by omega
      key_le := by omega
      value_le := by omega
      entries_pos := by omega
      records_pos := by omega
      overhead_le := by omega
      snapshot_le := by omega
      entries_lt := maximumEntries.toNat_lt
      journal_lt := maximumJournalBytes.toNat_lt
      records_lt := maximumJournalRecords.toNat_lt }

end StoreLimits

structure StoreEntry where
  key : Bytes
  value : Bytes
  deriving DecidableEq

@[ext] structure StoreState where
  entries : List StoreEntry
  distinct : (entries.map StoreEntry.key).Nodup

namespace StoreState

def new : StoreState := ⟨[], List.nodup_nil⟩

def len (state : StoreState) : ℕ := state.entries.length

def contains (state : StoreState) (key : Bytes) : Bool :=
  decide (key ∈ state.entries.map StoreEntry.key)

def value (state : StoreState) (key : Bytes) : Option Bytes :=
  (state.entries.find? fun entry => entry.key == key).map StoreEntry.value

/-- `insert_store_entry`; `none` is its `false`. -/
def insert (state : StoreState) (entry : StoreEntry) : Option StoreState :=
  if h : entry.key ∈ state.entries.map StoreEntry.key then none
  else some ⟨state.entries ++ [entry], by
    rw [List.map_append, List.nodup_append]
    exact ⟨state.distinct, List.nodup_singleton _,
      fun a ha b hb hab => h (List.mem_singleton.mp hb ▸ hab ▸ ha)⟩⟩

/-- The entry with `value` in place of its value where the key is `key`. -/
def replaceIn (key value : Bytes) (entry : StoreEntry) : StoreEntry :=
  if entry.key = key then { entry with value } else entry

@[simp] theorem replaceIn_key (key value : Bytes) (entry : StoreEntry) :
    (replaceIn key value entry).key = entry.key := by
  rw [replaceIn]
  split <;> rfl

/-- `replace_store_value`, with the value it replaced. -/
def replace (state : StoreState) (key value : Bytes) : Option (Bytes × StoreState) :=
  (state.value key).map fun previous =>
    (previous, ⟨state.entries.map (replaceIn key value), by
      rw [List.map_map, show StoreEntry.key ∘ replaceIn key value = StoreEntry.key from
        funext (replaceIn_key key value)]
      exact state.distinct⟩)

/-- `remove_store_entry`. -/
def remove (state : StoreState) (key : Bytes) : Option (StoreEntry × StoreState) :=
  (state.entries.find? fun entry => entry.key == key).map fun removed =>
    (removed, ⟨state.entries.erase removed,
      state.distinct.sublist (List.erase_sublist.map StoreEntry.key)⟩)

end StoreState

/-- Bytes one entry takes in a snapshot. -/
def StoreEntry.snapshotBytes (entry : StoreEntry) : ℕ :=
  snapshotEntryHeaderBytes + entry.key.length + entry.value.length

/-- Bytes of the snapshot of a state. -/
def StoreState.snapshotBytes (state : StoreState) : ℕ :=
  snapshotHeaderBytes + (state.entries.map StoreEntry.snapshotBytes).sum

/-- The entry respects the per-entry limits. -/
def StoreEntry.Within (limits : StoreLimits) (entry : StoreEntry) : Prop :=
  entry.key.length ≤ limits.maximumKeyBytes ∧ entry.value.length ≤ limits.maximumValueBytes

/-- The state respects every limit. -/
structure StoreState.Within (limits : StoreLimits) (state : StoreState) : Prop where
  entry : ∀ entry ∈ state.entries, entry.Within limits
  len_le : state.len ≤ limits.maximumEntries
  snapshot_le : state.snapshotBytes ≤ limits.maximumSnapshotBytes

namespace StoreState

variable {limits : StoreLimits} {state : StoreState} {key value : Bytes}

theorem new_within (limits : StoreLimits) : StoreState.new.Within limits where
  entry entry hentry := by simp [new] at hentry
  len_le := Nat.zero_le _
  snapshot_le := by simpa [StoreState.snapshotBytes, new] using limits.header_le

theorem value_eq_some_iff : state.value key = some value ↔ ⟨key, value⟩ ∈ state.entries := by
  rw [StoreState.value, Option.map_eq_some_iff]
  constructor
  · rintro ⟨entry, hfind, rfl⟩
    have hkey : entry.key = key := by simpa using List.find?_some hfind
    have hmem := List.mem_of_find?_eq_some hfind
    rw [← hkey]
    exact hmem
  · intro hmem
    cases hfind : state.entries.find? fun entry => entry.key == key with
    | none =>
      have := List.find?_eq_none.mp hfind _ hmem
      simp at this
    | some entry =>
      have hkey : entry.key = key := by simpa using List.find?_some hfind
      have heq := List.inj_on_of_nodup_map state.distinct (List.mem_of_find?_eq_some hfind) hmem hkey
      exact ⟨entry, rfl, by rw [heq]⟩

theorem value_eq_none_iff : state.value key = none ↔ key ∉ state.entries.map StoreEntry.key := by
  rw [StoreState.value, Option.map_eq_none_iff, List.find?_eq_none]
  simp only [beq_iff_eq, List.mem_map, not_exists, not_and]

theorem insert_eq {entry : StoreEntry} {state' : StoreState}
    (h : state.insert entry = some state') :
    entry.key ∉ state.entries.map StoreEntry.key ∧ state'.entries = state.entries ++ [entry] := by
  rw [insert] at h
  split at h
  case isTrue => cases h
  case isFalse hnew =>
    cases h
    exact ⟨hnew, rfl⟩

theorem insert_of_value_none (value' : Bytes) (h : state.value key = none) :
    ∃ state', state.insert ⟨key, value'⟩ = some state' ∧
      state'.entries = state.entries ++ [⟨key, value'⟩] := by
  have hnew := value_eq_none_iff.mp h
  rw [insert, dif_neg hnew]
  exact ⟨_, rfl, rfl⟩

theorem replace_of_value_some (value' : Bytes) (h : state.value key = some value) :
    ∃ state', state.replace key value' = some (value, state') ∧
      state'.entries = state.entries.map (replaceIn key value') := by
  rw [replace, h]
  exact ⟨_, rfl, rfl⟩

theorem snapshotBytes_insert {state' : StoreState} {entry : StoreEntry}
    (h : state'.entries = state.entries ++ [entry]) :
    state'.snapshotBytes = state.snapshotBytes + entry.snapshotBytes := by
  simp [StoreState.snapshotBytes, h, Nat.add_assoc]

/-- Replacing one value changes the snapshot by the difference of lengths. -/
theorem snapshotBytes_replace {state' : StoreState} {value' : Bytes}
    (hvalue : state.value key = some value)
    (h : state'.entries = state.entries.map (replaceIn key value')) :
    state'.snapshotBytes + value.length = state.snapshotBytes + value'.length := by
  obtain ⟨before, after, hsplit⟩ := List.append_of_mem (value_eq_some_iff.mp hvalue)
  have hdistinct := state.distinct
  rw [hsplit, List.map_append, List.map_cons, List.nodup_append, List.nodup_cons] at hdistinct
  have hother : ∀ entries : List StoreEntry, key ∉ entries.map StoreEntry.key →
      entries.map (replaceIn key value') = entries := by
    intro entries hnot
    refine (List.map_congr_left fun entry hentry => ?_).trans (List.map_id entries)
    have hkey : entry.key ≠ key := by
      rintro rfl
      exact hnot (List.mem_map_of_mem hentry)
    rw [replaceIn, if_neg hkey]
    rfl
  have hbefore := hother before fun hmem =>
    hdistinct.2.2 key hmem key List.mem_cons_self rfl
  have hafter := hother after hdistinct.2.1.1
  rw [StoreState.snapshotBytes, StoreState.snapshotBytes, h, hsplit, List.map_append, hbefore,
    List.map_cons, hafter]
  simp only [replaceIn, if_true, List.map_append, List.map_cons, List.sum_append, List.sum_cons,
    StoreEntry.snapshotBytes]
  omega

theorem remove_of_value_some (h : state.value key = some value) :
    ∃ state', state.remove key = some (⟨key, value⟩, state') ∧
      state'.entries = state.entries.erase ⟨key, value⟩ := by
  rw [StoreState.value, Option.map_eq_some_iff] at h
  obtain ⟨entry, hfind, rfl⟩ := h
  have hkey : entry.key = key := by simpa using List.find?_some hfind
  rw [remove, hfind, ← hkey]
  exact ⟨_, rfl, rfl⟩

theorem remove_eq {entry : StoreEntry} {state' : StoreState}
    (h : state.remove key = some (entry, state')) :
    entry ∈ state.entries ∧ state'.entries = state.entries.erase entry := by
  rw [remove, Option.map_eq_some_iff] at h
  obtain ⟨removed, hfind, heq⟩ := h
  cases heq
  exact ⟨List.mem_of_find?_eq_some hfind, rfl⟩

theorem remove_key {removed : StoreEntry × StoreState} (h : state.remove key = some removed) :
    removed.1.key = key := by
  rw [remove, Option.map_eq_some_iff] at h
  obtain ⟨entry, hfind, rfl⟩ := h
  simpa using List.find?_some hfind

theorem remove_eq_none_iff : state.remove key = none ↔ state.value key = none := by
  rw [remove, StoreState.value, Option.map_eq_none_iff, Option.map_eq_none_iff]

theorem snapshotBytes_remove {state' : StoreState} {entry : StoreEntry}
    (hmem : entry ∈ state.entries) (h : state'.entries = state.entries.erase entry) :
    state'.snapshotBytes + entry.snapshotBytes = state.snapshotBytes := by
  have hperm := (List.perm_cons_erase hmem).map StoreEntry.snapshotBytes
  rw [StoreState.snapshotBytes, StoreState.snapshotBytes, h, hperm.sum_eq, List.map_cons,
    List.sum_cons]
  omega

end StoreState

def checkedSnapshotGrowth (current additional maximum : ℕ) : Outcome ℕ := do
  reject (current > maximum ∨ additional > maximum - current) snapshotTooLarge
  .ok (current + additional)

/-- The common body of `Store.set` and `apply_store_set`: insert a new key at
the end or replace the value in place. They differ in the failure of a full
store and of a state that contradicts its own lookup. -/
def writeEntry (full : StoreError) (contradiction : Failure) (state : StoreState)
    (snapshotBytes : ℕ) (key value : Bytes) (limits : StoreLimits) : Outcome (StoreState × ℕ) :=
  match state.value key with
  | none => do
    reject (state.len = limits.maximumEntries) full
    let next ← checkedSnapshotGrowth snapshotBytes snapshotEntryHeaderBytes
      limits.maximumSnapshotBytes
    let next ← checkedSnapshotGrowth next key.length limits.maximumSnapshotBytes
    let next ← checkedSnapshotGrowth next value.length limits.maximumSnapshotBytes
    let state ← otherwise (state.insert ⟨key, value⟩) contradiction
    .ok (state, next)
  | some existing => do
    let retained := snapshotBytes - existing.length
    let next ← checkedSnapshotGrowth retained value.length limits.maximumSnapshotBytes
    let (_, state) ← otherwise (state.replace key value) contradiction
    .ok (state, next)

/-- What a successful write does to the state and its snapshot size. -/
inductive EntryWritten (limits : StoreLimits) (state : StoreState) (snapshotBytes : ℕ)
    (key value : Bytes) : StoreState → ℕ → Prop where
  | inserted {state' : StoreState} (hnew : state.value key = none)
      (hroom : state.len ≠ limits.maximumEntries)
      (hfits : snapshotBytes + (StoreEntry.mk key value).snapshotBytes ≤
        limits.maximumSnapshotBytes)
      (hentries : state'.entries = state.entries ++ [⟨key, value⟩]) :
      EntryWritten limits state snapshotBytes key value state'
        (snapshotBytes + (StoreEntry.mk key value).snapshotBytes)
  | replaced {state' : StoreState} {existing : Bytes} (hvalue : state.value key = some existing)
      (hfits : snapshotBytes - existing.length + value.length ≤ limits.maximumSnapshotBytes)
      (hentries : state'.entries = state.entries.map (StoreState.replaceIn key value)) :
      EntryWritten limits state snapshotBytes key value state'
        (snapshotBytes - existing.length + value.length)

theorem checkedSnapshotGrowth_eq_ok {current additional maximum next : ℕ} :
    checkedSnapshotGrowth current additional maximum = .ok next ↔
      current + additional ≤ maximum ∧ next = current + additional := by
  rw [checkedSnapshotGrowth, bind_eq_ok]
  constructor
  · rintro ⟨_, hfits, heq⟩
    have := reject_eq_ok.mp hfits
    cases heq
    omega
  · rintro ⟨hfits, rfl⟩
    exact ⟨(), reject_of_not (by omega), rfl⟩

theorem writeEntry_eq_ok {full : StoreError} {contradiction : Failure} {state state' : StoreState}
    {snapshotBytes next : ℕ} {key value : Bytes} {limits : StoreLimits} :
    writeEntry full contradiction state snapshotBytes key value limits = .ok (state', next) ↔
      EntryWritten limits state snapshotBytes key value state' next := by
  rw [writeEntry]
  cases hvalue : state.value key with
  | none =>
    obtain ⟨inserted, hinsert, hentries⟩ := StoreState.insert_of_value_none value hvalue
    simp only [bind_eq_ok, checkedSnapshotGrowth_eq_ok, hinsert, otherwise_some]
    constructor
    · rintro ⟨_, hroom, _, ⟨_, rfl⟩, _, ⟨_, rfl⟩, _, ⟨hfits, rfl⟩, _, hinserted, heq⟩
      cases hinserted
      cases heq
      have hnext : snapshotBytes + snapshotEntryHeaderBytes + key.length + value.length =
          snapshotBytes + (StoreEntry.mk key value).snapshotBytes := by
        simp only [StoreEntry.snapshotBytes, Nat.add_assoc]
      rw [hnext] at hfits ⊢
      exact .inserted hvalue (reject_eq_ok.mp hroom) hfits hentries
    · intro hwritten
      cases hwritten with
      | inserted _ hroom hfits hentries' =>
        have hsame : state' = inserted := StoreState.ext (hentries'.trans hentries.symm)
        simp only [StoreEntry.snapshotBytes] at hfits
        refine ⟨(), reject_of_not hroom, _, ⟨?_, rfl⟩, _, ⟨?_, rfl⟩, _, ⟨?_, rfl⟩, _, rfl, ?_⟩
        · omega
        · omega
        · omega
        · rw [hsame, StoreEntry.snapshotBytes]
          simp only [Nat.add_assoc]
      | replaced hsome _ _ => rw [hvalue] at hsome; cases hsome
  | some existing =>
    obtain ⟨replacement, hreplace, hentries⟩ := StoreState.replace_of_value_some value hvalue
    simp only [bind_eq_ok, checkedSnapshotGrowth_eq_ok, hreplace, otherwise_some]
    constructor
    · rintro ⟨_, ⟨hfits, rfl⟩, _, hreplaced, heq⟩
      cases hreplaced
      cases heq
      exact .replaced hvalue hfits hentries
    · intro hwritten
      cases hwritten with
      | inserted hnone _ _ _ => rw [hvalue] at hnone; cases hnone
      | replaced hsome hfits hentries' =>
        rw [hvalue] at hsome
        cases hsome
        have hsame : state' = replacement := StoreState.ext (hentries'.trans hentries.symm)
        exact ⟨_, ⟨hfits, rfl⟩, _, rfl, by rw [hsame]⟩

/-- A write within the per-entry limits keeps the limits and the size exact. -/
theorem EntryWritten.within {limits : StoreLimits} {state state' : StoreState} {next : ℕ}
    {key value : Bytes} (hwritten : EntryWritten limits state state.snapshotBytes key value state' next)
    (hwithin : state.Within limits) (hentry : (StoreEntry.mk key value).Within limits) :
    state'.Within limits ∧ next = state'.snapshotBytes := by
  cases hwritten with
  | inserted hnew hroom hfits hentries =>
    have hbytes := StoreState.snapshotBytes_insert hentries
    refine ⟨⟨fun entry hmem => ?_, ?_, by rw [hbytes]; exact hfits⟩, hbytes.symm⟩
    · rw [hentries, List.mem_append, List.mem_singleton] at hmem
      obtain hmem | rfl := hmem
      · exact hwithin.entry entry hmem
      · exact hentry
    · have := hwithin.len_le
      rw [StoreState.len] at *
      rw [hentries, List.length_append, List.length_singleton]
      omega
  | @replaced existing hvalue hfits hentries =>
    have hbytes := StoreState.snapshotBytes_replace hvalue hentries
    have hle : existing.length ≤ state.snapshotBytes := by
      obtain ⟨before, after, hsplit⟩ := List.append_of_mem (StoreState.value_eq_some_iff.mp hvalue)
      simp only [StoreState.snapshotBytes, hsplit, List.map_append, List.map_cons, List.sum_append,
        List.sum_cons, StoreEntry.snapshotBytes]
      omega
    refine ⟨⟨fun entry hmem => ?_, ?_, by omega⟩, by omega⟩
    · rw [hentries, List.mem_map] at hmem
      obtain ⟨previous, hprevious, rfl⟩ := hmem
      have hkept := hwithin.entry previous hprevious
      rw [StoreState.replaceIn]
      split
      · exact ⟨hkept.1, hentry.2⟩
      · exact hkept
    · have := hwithin.len_le
      rw [StoreState.len] at *
      rw [hentries, List.length_map]
      exact this

/-- Removing an entry keeps the limits. -/
theorem StoreState.Within.erase {limits : StoreLimits} {state state' : StoreState}
    {entry : StoreEntry} (hwithin : state.Within limits) (hmem : entry ∈ state.entries)
    (hentries : state'.entries = state.entries.erase entry) : state'.Within limits where
  entry other hother := hwithin.entry other (List.mem_of_mem_erase (hentries ▸ hother))
  len_le := by
    have := hwithin.len_le
    rw [StoreState.len] at *
    rw [hentries]
    exact List.length_erase_le.trans this
  snapshot_le := by
    have := hwithin.snapshot_le
    have := StoreState.snapshotBytes_remove hmem hentries
    omega

end Nocter.DurableStore
