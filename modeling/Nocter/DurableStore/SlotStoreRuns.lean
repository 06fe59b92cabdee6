import Nocter.DurableStore.Mutations
import Nocter.DurableStore.SlotsRuns

/-!
# The store over its slots

The store counts the bytes of its snapshot with every change. Encoding walks the linked slots
and compares its length with the count, and decoding inserts the entries into new slots. A trap
or an abort on the way is an abort of the operation.
-/

namespace Nocter.DurableStore

/-- The part of the `Store` of the source that `set` and `remove` use. -/
structure SlotStore where
  state : SlotState
  pending : StoreMutationBatch
  limits : StoreLimits
  snapshotBytes : ℕ
  dirty : Bool
  writable : Bool

/-- A header is pushed into a buffer of its size and has to fill it. -/
def filledHeader (header : Bytes) : Outcome Bytes := do
  abortIf (header.length ≠ snapshotHeaderBytes)
  .ok header

def entryHeader (keyLen valueLen : ℕ) : Bytes := encodeLe 8 keyLen ++ encodeLe 8 valueLen

/-- The loop of `encode_snapshot`, with a pass for every entry that remains. -/
def encodeSlotEntries (state : SlotState) : ℕ → StoreEntries → Bytes → Outcome Bytes
  | 0, _, _ => invariantAbort
  | passes + 1, entries, encoded =>
    if entries.remaining = 0 then .ok encoded
    else do
      let (entry, entries) ← otherwise (entries.next state) .abort
      let entry ← otherwise entry .abort
      let header ← filledHeader (entryHeader entry.key.length entry.value.length)
      encodeSlotEntries state passes entries (encoded ++ header ++ entry.key ++ entry.value)

/-- `encode_snapshot`. -/
def encodeSlots (state : SlotState) (snapshotBytes : ℕ) : Outcome Bytes := do
  let header ← filledHeader (snapshotHeader state.len)
  let entries := StoreEntries.new state
  let encoded ← encodeSlotEntries state (entries.remaining + 1) entries header
  abortIf (encoded.length ≠ snapshotBytes)
  .ok encoded

/-- The loop of `decode_snapshot`; every pass inserts one entry. -/
def decodeSlotEntries (hasher : Bytes → ℕ) (limits : StoreLimits) :
    ℕ → SlotState → ByteCursor → Outcome (SlotState × ByteCursor)
  | 0, state, cursor => .ok (state, cursor)
  | count + 1, state, cursor => do
    let (keyLen, cursor) ← otherwise cursor.takeU64Le (.error corruptSnapshot)
    let (valueLen, cursor) ← otherwise cursor.takeU64Le (.error corruptSnapshot)
    reject (keyLen > limits.maximumKeyBytes ∨ valueLen > limits.maximumValueBytes) corruptSnapshot
    let entry ← decodeSnapshotEntry cursor.remaining keyLen valueLen
    let (inserted, state) ← otherwise (state.insert hasher entry) .abort
    reject (¬inserted) corruptSnapshot
    let (_, cursor) ← otherwise (cursor.take (keyLen + valueLen)) .abort
    decodeSlotEntries hasher limits count state cursor

/-- `decode_snapshot`. -/
def decodeSlots (hasher : Bytes → ℕ) (input : Bytes) (limits : StoreLimits) :
    Outcome (SlotState × ℕ) := do
  reject (input.length < snapshotHeaderBytes ∨ input.length > limits.maximumSnapshotBytes)
    corruptSnapshot
  let (magic, cursor) ← otherwise ((ByteCursor.new input).take 4) .abort
  reject (magic ≠ snapshotMagic) corruptSnapshot
  let (version, cursor) ← otherwise cursor.takeU16Le .abort
  let (flags, cursor) ← otherwise cursor.takeU16Le .abort
  let (entryCount, cursor) ← otherwise cursor.takeU64Le .abort
  reject (version ≠ snapshotVersion ∨ flags ≠ 0 ∨ entryCount > limits.maximumEntries)
    corruptSnapshot
  reject (entryCount > (input.length - snapshotHeaderBytes) / snapshotEntryHeaderBytes)
    corruptSnapshot
  let state ← otherwise (newSlotState entryCount) .abort
  let (state, cursor) ← decodeSlotEntries hasher limits entryCount state cursor
  reject (¬cursor.isFinished) corruptSnapshot
  .ok (state, input.length)

namespace SlotStore

variable (hasher : Bytes → ℕ)

def set (store : SlotStore) (key value : Bytes) : Outcome SlotStore := do
  reject (!store.writable) storeUnusable
  reject (key.length > store.limits.maximumKeyBytes) keyTooLarge
  reject (value.length > store.limits.maximumValueBytes) valueTooLarge
  let pending := recordStoreSet store.pending key value store.limits.maximumSnapshotBytes
  match ← otherwise (store.state.value hasher key) .abort with
  | none => do
    reject (store.state.len = store.limits.maximumEntries) tooManyEntries
    let next ← checkedSnapshotGrowth store.snapshotBytes snapshotEntryHeaderBytes
      store.limits.maximumSnapshotBytes
    let next ← checkedSnapshotGrowth next key.length store.limits.maximumSnapshotBytes
    let next ← checkedSnapshotGrowth next value.length store.limits.maximumSnapshotBytes
    let (inserted, state) ← otherwise (store.state.insert hasher ⟨key, value⟩) .abort
    abortIf (¬inserted)
    .ok { store with state, snapshotBytes := next, pending, dirty := true }
  | some current => do
    let retained ← otherwise (checkedSub store.snapshotBytes current.length) .abort
    let next ← checkedSnapshotGrowth retained value.length store.limits.maximumSnapshotBytes
    let (previous, state) ← otherwise (store.state.replace hasher key value) .abort
    abortIf (previous = none)
    .ok { store with state, snapshotBytes := next, pending, dirty := true }

def remove (store : SlotStore) (key : Bytes) : Outcome (Bool × SlotStore) := do
  reject (!store.writable) storeUnusable
  match ← otherwise (store.state.remove hasher key) .abort with
  | (none, _) => .ok (false, store)
  | (some removed, state) => do
    let next ← otherwise (checkedSub store.snapshotBytes
      (snapshotEntryHeaderBytes + removed.key.length + removed.value.length)) .abort
    .ok (true, { store with
      state
      snapshotBytes := next
      pending := recordStoreRemove store.pending removed.key store.limits.maximumSnapshotBytes
      dirty := true })

end SlotStore

end Nocter.DurableStore

/-!
# The snapshot of the store over its slots

After every operation the count is the length of the snapshot, and decoding the snapshot gives
slots with the same entries in the same order. No operation aborts.
-/

namespace Nocter.DurableStore

open SlotState

/-- The outcome over slots is the one over the sequence of entries. -/
def Agrees {β : Type} (hasher : Bytes → ℕ) :
    Outcome (SlotState × β) → Outcome (StoreState × β) → Prop
  | .ok (state, rest), .ok (model, rest') =>
    rest = rest' ∧ ∃ order free, Represents hasher state order free model
  | .error failure, .error failure' => failure = failure'
  | _, _ => False

namespace Agrees

variable {α β : Type} {hasher : Bytes → ℕ}

theorem bind_same {x : Outcome α} {f : α → Outcome (SlotState × β)}
    {g : α → Outcome (StoreState × β)} (h : ∀ a, x = .ok a → Agrees hasher (f a) (g a)) :
    Agrees hasher (x >>= f) (x >>= g) := by
  cases x with
  | error failure => exact rfl
  | ok a => exact h a rfl

theorem bind {γ : Type} {x : Outcome (SlotState × β)} {y : Outcome (StoreState × β)}
    {f : SlotState × β → Outcome (SlotState × γ)} {g : StoreState × β → Outcome (StoreState × γ)}
    (h : Agrees hasher x y)
    (hrest : ∀ state model order free rest, Represents hasher state order free model →
      Agrees hasher (f (state, rest)) (g (model, rest))) : Agrees hasher (x >>= f) (y >>= g) := by
  cases x with
  | error failure =>
    cases y with
    | error failure' => exact h
    | ok result => exact h.elim
  | ok result =>
    cases y with
    | error failure' => exact h.elim
    | ok result' =>
      obtain ⟨state, rest⟩ := result
      obtain ⟨model, rest'⟩ := result'
      obtain ⟨rfl, order, free, hrepresents⟩ := h
      exact hrest state model order free rest hrepresents

end Agrees

theorem decodeSlotEntries_agrees {hasher : Bytes → ℕ} (limits : StoreLimits) (count : ℕ)
    {state : SlotState} {order free : List ℕ} {model : StoreState} (cursor : ByteCursor)
    (h : Represents hasher state order free model) :
    Agrees hasher (decodeSlotEntries hasher limits count state cursor)
      (decodeEntries limits count model cursor) := by
  induction count generalizing state order free model cursor with
  | zero => exact ⟨rfl, order, free, h⟩
  | succ count ih =>
    rw [decodeSlotEntries, decodeEntries]
    refine Agrees.bind_same fun keyLen _ => Agrees.bind_same fun valueLen _ =>
      Agrees.bind_same fun _ _ => Agrees.bind_same fun entry _ => ?_
    obtain ⟨state', order', free', hinsert, hrepresents⟩ := h.insert entry
    cases hmodel : model.insert entry with
    | none =>
      rw [hmodel] at hinsert
      rw [hinsert]
      exact rfl
    | some model' =>
      rw [hmodel] at hinsert hrepresents
      rw [hinsert]
      have hinserted : reject (¬(some model').isSome = true) corruptSnapshot = .ok () :=
        reject_of_not (not_not_intro rfl)
      simp only [otherwise_some, ok_bind, hinserted]
      refine Agrees.bind_same fun taken _ => ?_
      exact ih taken.2 hrepresents

theorem decodeSlots_agrees (hasher : Bytes → ℕ) (input : Bytes) (limits : StoreLimits) :
    Agrees hasher (decodeSlots hasher input limits) (decodeSnapshot input limits) := by
  rw [decodeSlots, decodeSnapshot]
  refine Agrees.bind_same fun _ _ => Agrees.bind_same fun magic _ => Agrees.bind_same fun _ _ =>
    Agrees.bind_same fun version _ => Agrees.bind_same fun flags _ =>
      Agrees.bind_same fun entryCount _ => Agrees.bind_same fun _ _ =>
        Agrees.bind_same fun _ _ => ?_
  obtain ⟨index, hindex, hholds⟩ := newStoreIndex_holds entryCount.1
  have hstart := newSlotState_represents hasher index hholds.valid fun hash slot => by
    rw [hholds.live]
    exact Finset.notMem_empty _
  have hnew : newSlotState entryCount.1 = some ⟨[], index, none, none, none, 0⟩ := by
    simp only [newSlotState, hindex, Option.bind_eq_bind, Option.bind_some]
  rw [hnew]
  refine Agrees.bind (decodeSlotEntries_agrees limits entryCount.1 entryCount.2 hstart) ?_
  intro state model order free cursor hrepresents
  exact Agrees.bind_same fun _ _ => ⟨rfl, order, free, hrepresents⟩

section Encode

variable {hasher : Bytes → ℕ} {state : SlotState} {order free : List ℕ} {model : StoreState}

theorem filledHeader_of_length {header : Bytes} (h : header.length = snapshotHeaderBytes) :
    filledHeader header = .ok header := by
  rw [filledHeader, abortIf_of_not (not_not_intro h)]
  rfl

theorem encodeSlotEntries_suffix (h : Represents hasher state order free model)
    {before after : List ℕ} (hsplit : order = before ++ after) {passes : ℕ}
    (hpasses : after.length < passes) (encoded : Bytes) :
    ∃ values : List StoreEntry, encodeSlotEntries state passes ⟨after.head?, after.length⟩ encoded =
        .ok (encoded ++ values.flatMap encodeEntry) ∧
      values.map some = after.map (entryOf state.slots) := by
  induction passes generalizing before after encoded with
  | zero => exact absurd hpasses (Nat.not_lt_zero _)
  | succ passes ih =>
    cases after with
    | nil =>
      refine ⟨[], ?_, rfl⟩
      rw [encodeSlotEntries, List.flatMap_nil, List.append_nil]
      exact if_pos rfl
    | cons slotIndex after =>
      have hmem : slotIndex ∈ order := by
        rw [hsplit]
        exact List.mem_append_right _ List.mem_cons_self
      obtain ⟨slot, hslot, hoccupied⟩ := h.slot_of_mem hmem
      have hlinked := h.toLinked
      rw [hsplit] at hlinked
      obtain ⟨-, hnext⟩ := hlinked.neighbours hslot
      rw [List.length_cons] at hpasses
      have hremaining : checkedSub (after.length + 1) 1 = some after.length :=
        checkedSub_of_le (Nat.le_add_left 1 after.length)
      have hheader : filledHeader (entryHeader slot.entry.key.length slot.entry.value.length) =
          .ok (entryHeader slot.entry.key.length slot.entry.value.length) := by
        refine filledHeader_of_length ?_
        rw [entryHeader, List.length_append, encodeLe_length, encodeLe_length]
        rfl
      have hbytes : encoded ++ entryHeader slot.entry.key.length slot.entry.value.length ++
          slot.entry.key ++ slot.entry.value = encoded ++ encodeEntry slot.entry := by
        rw [entryHeader, encodeEntry]
        simp only [List.append_assoc]
      obtain ⟨values, hencode, hvalues⟩ := @ih (before ++ [slotIndex]) after
        (by rw [hsplit, List.append_assoc]; rfl) (Nat.lt_of_succ_lt_succ hpasses)
        (encoded ++ encodeEntry slot.entry)
      refine ⟨slot.entry :: values, ?_, ?_⟩
      · rw [encodeSlotEntries, List.length_cons, if_neg (Nat.succ_ne_zero _)]
        simp only [StoreEntries.next, List.head?_cons, hremaining, entryAt, SlotState.nextSlot,
          hslot, hoccupied, if_true, hnext, Option.bind_eq_bind, Option.bind_some, otherwise_some,
          ok_bind, hheader, hbytes, hencode]
        rw [List.flatMap_cons, ← List.append_assoc]
      · rw [List.map_cons, List.map_cons, hvalues, entryOf, fieldOf, hslot, Option.bind_some]

/-- Walking the slots gives the snapshot of the entries. -/
theorem encodeSlots_eq (h : Represents hasher state order free model) :
    encodeSlots state model.snapshotBytes = encodeSnapshot model model.snapshotBytes := by
  obtain ⟨values, hencode, hvalues⟩ := encodeSlotEntries_suffix h
    (List.nil_append order).symm (Nat.lt_succ_self order.length) (snapshotHeader model.len)
  rw [h.entries_eq] at hvalues
  obtain rfl := List.map_injective_iff.mpr (Option.some_injective _) hvalues
  have hheader := filledHeader_of_length (snapshotHeader_length model.len)
  rw [← h.len_eq, h.model_len] at hencode
  rw [encodeSlots, encodeSnapshot, StoreEntries.new, h.first_eq, h.model_len, hheader, ok_bind]
  dsimp only
  rw [hencode, ok_bind]

end Encode

namespace SlotStore

variable {hasher : Bytes → ℕ}

/-- The store holds the entries within its limits and counts their snapshot. -/
structure Accounts (hasher : Bytes → ℕ) (store : SlotStore) (order free : List ℕ)
    (model : StoreState) : Prop where
  represents : Represents hasher store.state order free model
  within : model.Within store.limits
  snapshot_eq : store.snapshotBytes = model.snapshotBytes

variable {store : SlotStore} {order free : List ℕ} {model : StoreState}

theorem reject_cases (condition : Prop) [Decidable condition] (failure : StoreError) :
    condition ∧ reject condition failure = .error (.error failure) ∨
      ¬condition ∧ reject condition failure = .ok () := by
  rw [reject]
  split_ifs with h
  · exact Or.inl ⟨h, rfl⟩
  · exact Or.inr ⟨h, rfl⟩

theorem checkedSnapshotGrowth_cases (current additional maximum : ℕ) :
    checkedSnapshotGrowth current additional maximum = .error (.error snapshotTooLarge) ∨
      current + additional ≤ maximum ∧
        checkedSnapshotGrowth current additional maximum = .ok (current + additional) := by
  rw [checkedSnapshotGrowth]
  rcases reject_cases (current > maximum ∨ additional > maximum - current) snapshotTooLarge with
    ⟨-, hreject⟩ | ⟨hfits, hreject⟩
  · rw [hreject]
    exact Or.inl rfl
  · rw [hreject]
    exact Or.inr ⟨by omega, rfl⟩

/-- A write succeeds and keeps the count, or it fails with an error of the store. -/
theorem Accounts.set (h : Accounts hasher store order free model) (key value : Bytes) :
    (∃ error, store.set hasher key value = .error (.error error)) ∨
      ∃ store' order' free' model', store.set hasher key value = .ok store' ∧
        store'.limits = store.limits ∧ Accounts hasher store' order' free' model' := by
  rw [SlotStore.set]
  rcases reject_cases (!store.writable) storeUnusable with ⟨-, hreject⟩ | ⟨-, hreject⟩
  · exact Or.inl ⟨_, by rw [hreject]; rfl⟩
  rw [hreject, ok_bind]
  rcases reject_cases (key.length > store.limits.maximumKeyBytes) keyTooLarge with
    ⟨-, hreject⟩ | ⟨hkey, hreject⟩
  · exact Or.inl ⟨_, by rw [hreject]; rfl⟩
  rw [hreject, ok_bind]
  rcases reject_cases (value.length > store.limits.maximumValueBytes) valueTooLarge with
    ⟨-, hreject⟩ | ⟨hvalue, hreject⟩
  · exact Or.inl ⟨_, by rw [hreject]; rfl⟩
  rw [hreject, ok_bind]
  have hentry : (StoreEntry.mk key value).Within store.limits :=
    ⟨Nat.le_of_not_lt hkey, Nat.le_of_not_lt hvalue⟩
  rw [h.represents.value, otherwise_some, ok_bind]
  cases hheld : model.value key with
  | none =>
    dsimp only
    rcases reject_cases (store.state.len = store.limits.maximumEntries) tooManyEntries with
      ⟨-, hreject⟩ | ⟨hroom, hreject⟩
    · exact Or.inl ⟨_, by rw [hreject]; rfl⟩
    rw [hreject, ok_bind]
    rcases checkedSnapshotGrowth_cases store.snapshotBytes snapshotEntryHeaderBytes
      store.limits.maximumSnapshotBytes with hgrowth | ⟨-, hgrowth⟩
    · exact Or.inl ⟨_, by rw [hgrowth]; rfl⟩
    rw [hgrowth, ok_bind]
    rcases checkedSnapshotGrowth_cases (store.snapshotBytes + snapshotEntryHeaderBytes) key.length
      store.limits.maximumSnapshotBytes with hgrowth | ⟨-, hgrowth⟩
    · exact Or.inl ⟨_, by rw [hgrowth]; rfl⟩
    rw [hgrowth, ok_bind]
    rcases checkedSnapshotGrowth_cases (store.snapshotBytes + snapshotEntryHeaderBytes + key.length)
      value.length store.limits.maximumSnapshotBytes with hgrowth | ⟨hfits, hgrowth⟩
    · exact Or.inl ⟨_, by rw [hgrowth]; rfl⟩
    rw [hgrowth, ok_bind]
    obtain ⟨model', hmodel, hentries⟩ := StoreState.insert_of_value_none value hheld
    obtain ⟨state, order', free', hinsert, hrepresents⟩ := h.represents.insert ⟨key, value⟩
    rw [hmodel] at hinsert hrepresents
    have hwritten : EntryWritten store.limits model model.snapshotBytes key value model'
        (model.snapshotBytes + (StoreEntry.mk key value).snapshotBytes) := by
      refine .inserted hheld ?_ ?_ hentries
      · rwa [← h.represents.model_len]
      · rw [StoreEntry.snapshotBytes, ← h.snapshot_eq]
        dsimp only
        omega
    obtain ⟨hwithin, hbytes⟩ := hwritten.within h.within hentry
    right
    refine ⟨{ store with
        state
        snapshotBytes := store.snapshotBytes + snapshotEntryHeaderBytes + key.length + value.length
        pending := recordStoreSet store.pending key value store.limits.maximumSnapshotBytes
        dirty := true }, order', free', model', ?_, rfl, hrepresents, hwithin, ?_⟩
    · rw [hinsert]
      rfl
    · dsimp only
      rw [← hbytes, h.snapshot_eq, StoreEntry.snapshotBytes]
      dsimp only
      omega
  | some current =>
    dsimp only
    have hle : current.length ≤ store.snapshotBytes := by
      obtain ⟨model', -, hentries⟩ := StoreState.remove_of_value_some hheld
      have hremoved := StoreState.snapshotBytes_remove
        (StoreState.value_eq_some_iff.mp hheld) hentries
      rw [StoreEntry.snapshotBytes] at hremoved
      dsimp only at hremoved
      rw [h.snapshot_eq]
      omega
    rw [checkedSub_of_le hle, otherwise_some, ok_bind]
    rcases checkedSnapshotGrowth_cases (store.snapshotBytes - current.length) value.length
      store.limits.maximumSnapshotBytes with hgrowth | ⟨hfits, hgrowth⟩
    · exact Or.inl ⟨_, by rw [hgrowth]; rfl⟩
    rw [hgrowth, ok_bind]
    obtain ⟨model', hmodel, hentries⟩ := StoreState.replace_of_value_some value hheld
    obtain ⟨state, hreplace, hrepresents⟩ := h.represents.replace key value
    rw [hmodel] at hreplace hrepresents
    have hwritten : EntryWritten store.limits model model.snapshotBytes key value model'
        (model.snapshotBytes - current.length + value.length) := by
      refine .replaced hheld ?_ hentries
      rwa [← h.snapshot_eq]
    obtain ⟨hwithin, hbytes⟩ := hwritten.within h.within hentry
    right
    refine ⟨{ store with
        state
        snapshotBytes := store.snapshotBytes - current.length + value.length
        pending := recordStoreSet store.pending key value store.limits.maximumSnapshotBytes
        dirty := true }, order, free, model', ?_, rfl, hrepresents, hwithin, ?_⟩
    · rw [hreplace]
      rfl
    · dsimp only
      rw [← hbytes, h.snapshot_eq]

theorem Accounts.remove (h : Accounts hasher store order free model) (key : Bytes) :
    (∃ error, store.remove hasher key = .error (.error error)) ∨
      ∃ removed store' order' free' model', store.remove hasher key = .ok (removed, store') ∧
        store'.limits = store.limits ∧ Accounts hasher store' order' free' model' := by
  rw [SlotStore.remove]
  rcases reject_cases (!store.writable) storeUnusable with ⟨-, hreject⟩ | ⟨-, hreject⟩
  · exact Or.inl ⟨_, by rw [hreject]; rfl⟩
  rw [hreject, ok_bind]
  right
  obtain ⟨state, order', free', hremove, hrepresents⟩ := h.represents.remove key
  rw [hremove, otherwise_some, ok_bind]
  cases hmodel : model.remove key with
  | none => exact ⟨false, store, order, free, model, rfl, rfl, h⟩
  | some result =>
    obtain ⟨entry, model'⟩ := result
    rw [hmodel] at hrepresents
    obtain ⟨hmem, hentries⟩ := StoreState.remove_eq hmodel
    have hbytes := StoreState.snapshotBytes_remove hmem hentries
    rw [StoreEntry.snapshotBytes] at hbytes
    have hle : snapshotEntryHeaderBytes + entry.key.length + entry.value.length ≤
        store.snapshotBytes := by
      rw [h.snapshot_eq]
      omega
    simp only [Option.map_some, checkedSub_of_le hle, otherwise_some, ok_bind]
    refine ⟨true, _, order', free', model', rfl, rfl, hrepresents, h.within.erase hmem hentries, ?_⟩
    dsimp only
    rw [h.snapshot_eq]
    omega

/-- A new store, or one that is decoded from a snapshot. -/
inductive Start where
  | empty
  | snapshot (input : Bytes)

def opened (hasher : Bytes → ℕ) (limits : StoreLimits) : Start → Outcome SlotStore
  | .empty => do
    let state ← otherwise (newSlotState 0) .abort
    .ok ⟨state, newStoreMutationBatch, limits, snapshotHeaderBytes, false, true⟩
  | .snapshot input => do
    let (state, snapshotBytes) ← decodeSlots hasher input limits
    .ok ⟨state, newStoreMutationBatch, limits, snapshotBytes, false, true⟩

/-- A commit that fails leaves a store that refuses every change. -/
inductive Operation where
  | set (key value : Bytes)
  | remove (key : Bytes)
  | failCommit

/-- An error leaves the store as it is; there is no result after an abort. -/
def perform (hasher : Bytes → ℕ) (store : SlotStore) : Operation → Option SlotStore
  | .set key value =>
    match store.set hasher key value with
    | .ok store => some store
    | .error (.error _) => some store
    | .error _ => none
  | .remove key =>
    match store.remove hasher key with
    | .ok (_, store) => some store
    | .error (.error _) => some store
    | .error _ => none
  | .failCommit => some { store with writable := false }

def run (hasher : Bytes → ℕ) (store : SlotStore) : List Operation → Option SlotStore
  | [] => some store
  | operation :: operations => do
    let store ← store.perform hasher operation
    store.run hasher operations

theorem Accounts.perform (h : Accounts hasher store order free model) (operation : Operation) :
    ∃ store' order' free' model', store.perform hasher operation = some store' ∧
      store'.limits = store.limits ∧ Accounts hasher store' order' free' model' := by
  cases operation with
  | set key value =>
    rcases h.set key value with ⟨error, herror⟩ | ⟨store', order', free', model', hset, hlimits, haccounts⟩
    · exact ⟨store, order, free, model, by rw [SlotStore.perform, herror], rfl, h⟩
    · exact ⟨store', order', free', model', by rw [SlotStore.perform, hset], hlimits, haccounts⟩
  | remove key =>
    rcases h.remove key with
      ⟨error, herror⟩ | ⟨removed, store', order', free', model', hremove, hlimits, haccounts⟩
    · exact ⟨store, order, free, model, by rw [SlotStore.perform, herror], rfl, h⟩
    · exact ⟨store', order', free', model', by rw [SlotStore.perform, hremove], hlimits, haccounts⟩
  | failCommit =>
    exact ⟨_, order, free, model, rfl, rfl, h.represents, h.within, h.snapshot_eq⟩

theorem Accounts.run (h : Accounts hasher store order free model) (operations : List Operation) :
    ∃ store' order' free' model', store.run hasher operations = some store' ∧
      store'.limits = store.limits ∧ Accounts hasher store' order' free' model' := by
  induction operations generalizing store order free model with
  | nil => exact ⟨store, order, free, model, rfl, rfl, h⟩
  | cons operation operations ih =>
    obtain ⟨next, order', free', model', hnext, hlimits, haccounts⟩ := h.perform operation
    obtain ⟨last, order'', free'', model'', hlast, hlimits', haccounts'⟩ := ih haccounts
    refine ⟨last, order'', free'', model'', ?_, hlimits'.trans hlimits, haccounts'⟩
    simp only [SlotStore.run, hnext, Option.bind_eq_bind, Option.bind_some, hlast]

/-- Opening a store fails only for a snapshot that is not well formed. -/
theorem opened_accounts (hasher : Bytes → ℕ) (limits : StoreLimits) (start : Start) :
    (∃ input error, start = .snapshot input ∧
        opened hasher limits start = .error (.error error)) ∨
      ∃ store order free model, opened hasher limits start = .ok store ∧ store.limits = limits ∧
        Accounts hasher store order free model := by
  cases start with
  | empty =>
    obtain ⟨index, hindex, hholds⟩ := newStoreIndex_holds 0
    have hstart := newSlotState_represents hasher index hholds.valid fun hash slot => by
      rw [hholds.live]
      exact Finset.notMem_empty _
    have hnew : newSlotState 0 = some ⟨[], index, none, none, none, 0⟩ := by
      simp only [newSlotState, hindex, Option.bind_eq_bind, Option.bind_some]
    exact Or.inr ⟨_, [], [], StoreState.new, by rw [opened, hnew]; rfl, rfl, hstart,
      StoreState.new_within limits, rfl⟩
  | snapshot input =>
    have hagrees := decodeSlots_agrees hasher input limits
    rw [opened]
    cases hmodel : decodeSnapshot input limits with
    | error failure =>
      obtain ⟨error, rfl⟩ := decodeSnapshot_reports input failure hmodel
      rw [hmodel] at hagrees
      cases hdecode : decodeSlots hasher input limits with
      | error failure =>
        rw [hdecode] at hagrees
        obtain rfl : failure = .error error := hagrees
        exact Or.inl ⟨input, error, rfl, rfl⟩
      | ok result =>
        rw [hdecode] at hagrees
        exact hagrees.elim
    | ok result =>
      obtain ⟨model, snapshotBytes⟩ := result
      obtain ⟨hwithin, hbytes⟩ := decodeSnapshot_within hmodel
      rw [hmodel] at hagrees
      cases hdecode : decodeSlots hasher input limits with
      | error failure =>
        rw [hdecode] at hagrees
        exact hagrees.elim
      | ok result' =>
        obtain ⟨state, snapshotBytes'⟩ := result'
        rw [hdecode] at hagrees
        obtain ⟨rfl, order, free, hrepresents⟩ := hagrees
        exact Or.inr ⟨_, order, free, model, rfl, rfl, hrepresents, hwithin, hbytes⟩

/-- After any operations on an opened store, failed ones among them, the count is the length of the
encoded snapshot, 16 bytes and for every entry 16 and the lengths of its key and value, and
decoding the snapshot gives slots with the same entries in the same order. Nothing aborts. -/
theorem snapshots_account_for_entries (hasher hasher' : Bytes → ℕ) (limits : StoreLimits)
    (start : Start) (operations : List Operation) :
    (∃ input error, start = .snapshot input ∧
        opened hasher limits start = .error (.error error)) ∨
      ∃ first store entries encoded decoded, opened hasher limits start = .ok first ∧
        first.run hasher operations = some store ∧
        StoreEntries.collect store.state (store.state.len + 1) (.new store.state) = some entries ∧
        store.snapshotBytes =
          16 + (entries.map fun entry => 16 + entry.key.length + entry.value.length).sum ∧
        encodeSlots store.state store.snapshotBytes = .ok encoded ∧
        encoded.length = store.snapshotBytes ∧
        decodeSlots hasher' encoded limits = .ok (decoded, store.snapshotBytes) ∧
        StoreEntries.collect decoded (decoded.len + 1) (.new decoded) = some entries := by
  refine (opened_accounts hasher limits start).imp_right ?_
  rintro ⟨first, order, free, model, hopened, hlimits, haccounts⟩
  obtain ⟨store, order', free', model', hrun, hlimits', haccounts'⟩ := haccounts.run operations
  have hwithin := haccounts'.within
  rw [hlimits', hlimits] at hwithin
  have hencode := encodeSlots_eq haccounts'.represents
  have hdecode := decodeSnapshot_encodeSnapshot hwithin (encodeSnapshot_eq model')
  rw [encodeSnapshot_eq] at hencode
  have hagrees := decodeSlots_agrees hasher'
    (snapshotHeader model'.len ++ model'.entries.flatMap encodeEntry) limits
  rw [hdecode] at hagrees
  cases hslots : decodeSlots hasher'
      (snapshotHeader model'.len ++ model'.entries.flatMap encodeEntry) limits with
  | error failure =>
    rw [hslots] at hagrees
    exact hagrees.elim
  | ok result =>
    obtain ⟨decoded, snapshotBytes⟩ := result
    rw [hslots] at hagrees
    obtain ⟨rfl, order'', free'', hrepresents⟩ := hagrees
    rw [← haccounts'.snapshot_eq] at hencode hslots
    refine ⟨first, store, model'.entries, _, decoded, hopened, hrun, haccounts'.represents.collect,
      ?_, hencode, ?_, hslots, hrepresents.collect⟩
    · rw [haccounts'.snapshot_eq]
      rfl
    · rw [encodedSnapshot_length, haccounts'.snapshot_eq]

end SlotStore

end Nocter.DurableStore
