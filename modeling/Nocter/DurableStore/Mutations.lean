import Nocter.DurableStore.Snapshot

/-!
# Staged mutations and their replay

A batch records the accepted sets and removes in order until its encoding would
exceed the snapshot limit; from then on the commit needs a checkpoint. Applying
an encoded batch replays its mutations one by one.
-/

namespace Nocter.DurableStore

def mutationBatchHeaderBytes : ℕ := 16

def mutationEntryHeaderBytes : ℕ := 24

def mutationBatchVersion : ℕ := 1

def mutationSetKind : UInt8 := 1

def mutationRemoveKind : UInt8 := 2

/-- The bytes of `NCTM`. -/
def mutationMagic : Bytes := [78, 67, 84, 77]

inductive StoreMutation where
  | set (key value : Bytes)
  | remove (key : Bytes)
  deriving DecidableEq

structure StoreMutationBatch where
  mutations : List StoreMutation
  encodedBytes : ℕ
  checkpointRequired : Bool

def newStoreMutationBatch : StoreMutationBatch := ⟨[], mutationBatchHeaderBytes, false⟩

def resetStoreMutationBatch (batch : StoreMutationBatch) : StoreMutationBatch :=
  { batch with
    mutations := []
    encodedBytes := mutationBatchHeaderBytes
    checkpointRequired := false }

def requireStoreCheckpoint (batch : StoreMutationBatch) : StoreMutationBatch :=
  { batch with
    mutations := []
    encodedBytes := mutationBatchHeaderBytes
    checkpointRequired := true }

def mutationFits (batch : StoreMutationBatch) (keyLen valueLen maximum : ℕ) : Bool :=
  if batch.checkpointRequired ∨ batch.encodedBytes > maximum then false
  else if mutationEntryHeaderBytes > maximum - batch.encodedBytes then false
  else
    let afterHeader := batch.encodedBytes + mutationEntryHeaderBytes
    if keyLen > maximum - afterHeader then false
    else
      let afterKey := afterHeader + keyLen
      decide (valueLen ≤ maximum - afterKey)

/-- The common body of `record_store_set` and `record_store_remove`. -/
def recordMutation (batch : StoreMutationBatch) (mutation : StoreMutation)
    (keyLen valueLen maximum : ℕ) : StoreMutationBatch :=
  if !mutationFits batch keyLen valueLen maximum then requireStoreCheckpoint batch
  else
    { batch with
      encodedBytes := batch.encodedBytes + (mutationEntryHeaderBytes + keyLen + valueLen)
      mutations := batch.mutations ++ [mutation] }

def recordStoreSet (batch : StoreMutationBatch) (key value : Bytes) (maximum : ℕ) :
    StoreMutationBatch :=
  recordMutation batch (.set key value) key.length value.length maximum

def recordStoreRemove (batch : StoreMutationBatch) (key : Bytes) (maximum : ℕ) :
    StoreMutationBatch :=
  recordMutation batch (.remove key) key.length 0 maximum

def mutationBatchHeader (count : ℕ) : Bytes :=
  mutationMagic ++ (encodeLe 2 mutationBatchVersion ++ (encodeLe 2 0 ++ encodeLe 8 count))

def mutationEntryHeader (kind : UInt8) (keyLen valueLen : ℕ) : Bytes :=
  [kind] ++ (List.replicate 7 0 ++ (encodeLe 8 keyLen ++ encodeLe 8 valueLen))

def encodeMutation : StoreMutation → Bytes
  | .set key value =>
    mutationEntryHeader mutationSetKind key.length value.length ++ (key ++ value)
  | .remove key => mutationEntryHeader mutationRemoveKind key.length 0 ++ key

def encodeStoreMutations (batch : StoreMutationBatch) : Outcome Bytes := do
  abortIf batch.checkpointRequired
  let encoded := mutationBatchHeader batch.mutations.length ++
    batch.mutations.flatMap encodeMutation
  abortIf (encoded.length ≠ batch.encodedBytes)
  .ok encoded

def applyStoreSet (state : StoreState) (snapshotBytes : ℕ) (key value : Bytes)
    (limits : StoreLimits) : Outcome (StoreState × ℕ) :=
  writeEntry corruptSnapshot (.error corruptSnapshot) state snapshotBytes key value limits

def applyStoreRemove (state : StoreState) (snapshotBytes : ℕ) (key : Bytes) :
    Outcome (StoreState × ℕ) := do
  let (removed, state) ← otherwise (state.remove key) (.error corruptSnapshot)
  .ok (state, snapshotBytes - snapshotEntryHeaderBytes - removed.key.length - removed.value.length)

/-- The branch on the kind of a decoded entry. -/
def applyDecoded (limits : StoreLimits) (state : StoreState) (snapshotBytes : ℕ) (kind : UInt8)
    (key value : Bytes) : Outcome (StoreState × ℕ) :=
  if kind = mutationSetKind then applyStoreSet state snapshotBytes key value limits
  else if kind = mutationRemoveKind ∧ value.length = 0 then applyStoreRemove state snapshotBytes key
  else .error (.error corruptSnapshot)

def applyEntries (limits : StoreLimits) :
    ℕ → StoreState → ℕ → ByteCursor → Outcome (StoreState × ℕ × ByteCursor)
  | 0, state, snapshotBytes, cursor => .ok (state, snapshotBytes, cursor)
  | count + 1, state, snapshotBytes, cursor => do
    let (kindBytes, cursor) ← otherwise (cursor.take 1) (.error corruptSnapshot)
    let (reserved, cursor) ← otherwise (cursor.take 7) (.error corruptSnapshot)
    reject (¬reserved.all (· == 0)) corruptSnapshot
    let (keyLen, cursor) ← otherwise cursor.takeU64Le (.error corruptSnapshot)
    let (valueLen, cursor) ← otherwise cursor.takeU64Le (.error corruptSnapshot)
    reject (keyLen > limits.maximumKeyBytes ∨ valueLen > limits.maximumValueBytes) corruptSnapshot
    reject (keyLen > cursor.remainingLen ∨ valueLen > cursor.remainingLen - keyLen) corruptSnapshot
    let (state, snapshotBytes) ← applyDecoded limits state snapshotBytes (kindBytes.headD 0)
      (cursor.remaining.take keyLen) ((cursor.remaining.drop keyLen).take valueLen)
    let (_, cursor) ← otherwise (cursor.take (keyLen + valueLen)) .abort
    applyEntries limits count state snapshotBytes cursor

def applyStoreMutations (state : StoreState) (snapshotBytes : ℕ) (input : Bytes)
    (limits : StoreLimits) : Outcome (StoreState × ℕ) := do
  reject (input.length < mutationBatchHeaderBytes ∨ input.length > limits.maximumSnapshotBytes)
    corruptSnapshot
  let (magic, cursor) ← otherwise ((ByteCursor.new input).take 4) .abort
  reject (magic ≠ mutationMagic) corruptSnapshot
  let (version, cursor) ← otherwise cursor.takeU16Le .abort
  let (flags, cursor) ← otherwise cursor.takeU16Le .abort
  let (count, cursor) ← otherwise cursor.takeU64Le .abort
  reject (version ≠ mutationBatchVersion ∨ flags ≠ 0) corruptSnapshot
  reject (count > (input.length - mutationBatchHeaderBytes) / mutationEntryHeaderBytes)
    corruptSnapshot
  let (state, snapshotBytes, cursor) ← applyEntries limits count state snapshotBytes cursor
  reject (¬cursor.isFinished) corruptSnapshot
  .ok (state, snapshotBytes)

namespace StoreMutation

/-- Bytes one mutation takes in a batch. -/
def encodedBytes : StoreMutation → ℕ
  | set key value => mutationEntryHeaderBytes + key.length + value.length
  | remove key => mutationEntryHeaderBytes + key.length

/-- The mutation respects the per-entry limits. -/
def Within (limits : StoreLimits) : StoreMutation → Prop
  | set key value => (StoreEntry.mk key value).Within limits
  | remove key => key.length ≤ limits.maximumKeyBytes

def apply (limits : StoreLimits) (current : StoreState × ℕ) :
    StoreMutation → Outcome (StoreState × ℕ)
  | set key value => applyStoreSet current.1 current.2 key value limits
  | remove key => applyStoreRemove current.1 current.2 key

end StoreMutation

/-- Bytes of a batch of mutations. -/
def mutationBatchBytes (mutations : List StoreMutation) : ℕ :=
  mutationBatchHeaderBytes + (mutations.map StoreMutation.encodedBytes).sum

/-- Replay the mutations one after another. -/
def replayMutations (limits : StoreLimits) (current : StoreState × ℕ)
    (mutations : List StoreMutation) : Outcome (StoreState × ℕ) :=
  mutations.foldlM (StoreMutation.apply limits) current

@[simp] theorem mutationBatchHeader_length (count : ℕ) :
    (mutationBatchHeader count).length = mutationBatchHeaderBytes := by
  simp [mutationBatchHeader, mutationMagic, mutationBatchHeaderBytes]

@[simp] theorem mutationEntryHeader_length (kind : UInt8) (keyLen valueLen : ℕ) :
    (mutationEntryHeader kind keyLen valueLen).length = mutationEntryHeaderBytes := by
  simp [mutationEntryHeader, mutationEntryHeaderBytes]

@[simp] theorem encodeMutation_length (mutation : StoreMutation) :
    (encodeMutation mutation).length = mutation.encodedBytes := by
  cases mutation <;> simp [encodeMutation, StoreMutation.encodedBytes, Nat.add_assoc]

theorem encodedBatch_length (mutations : List StoreMutation) :
    (mutationBatchHeader mutations.length ++ mutations.flatMap encodeMutation).length =
      mutationBatchBytes mutations := by
  rw [List.length_append, mutationBatchHeader_length, mutationBatchBytes, List.length_flatMap]
  simp

@[simp] theorem mutationBatchBytes_nil : mutationBatchBytes [] = mutationBatchHeaderBytes := rfl

theorem mutationBatchBytes_append (mutations : List StoreMutation) (mutation : StoreMutation) :
    mutationBatchBytes (mutations ++ [mutation]) =
      mutationBatchBytes mutations + mutation.encodedBytes := by
  simp [mutationBatchBytes, Nat.add_assoc]

theorem mutations_bytes_le (mutations : List StoreMutation) :
    mutations.length * mutationEntryHeaderBytes ≤
      (mutations.map StoreMutation.encodedBytes).sum := by
  induction mutations with
  | nil => simp
  | cons mutation mutations ih =>
    have hentry : mutationEntryHeaderBytes ≤ mutation.encodedBytes := by
      cases mutation <;> simp only [StoreMutation.encodedBytes] <;> omega
    rw [List.length_cons, Nat.add_one_mul, List.map_cons, List.sum_cons]
    omega

theorem mutationFits_iff (batch : StoreMutationBatch) (keyLen valueLen maximum : ℕ) :
    mutationFits batch keyLen valueLen maximum = true ↔ batch.checkpointRequired = false ∧
      batch.encodedBytes + (mutationEntryHeaderBytes + keyLen + valueLen) ≤ maximum := by
  rw [mutationFits]
  cases batch.checkpointRequired with
  | true => simp
  | false =>
    simp only [Bool.false_eq_true, false_or, true_and]
    split
    · simp only [Bool.false_eq_true, false_iff]
      omega
    · split
      · simp only [Bool.false_eq_true, false_iff]
        omega
      · split
        · simp only [Bool.false_eq_true, false_iff]
          omega
        · rw [decide_eq_true_iff]
          omega

theorem encodeStoreMutations_eq {batch : StoreMutationBatch}
    (hbytes : batch.encodedBytes = mutationBatchBytes batch.mutations)
    (h : batch.checkpointRequired = false) : encodeStoreMutations batch =
      .ok (mutationBatchHeader batch.mutations.length ++
        batch.mutations.flatMap encodeMutation) := by
  have hlength := encodedBatch_length batch.mutations
  rw [← hbytes] at hlength
  rw [encodeStoreMutations, abortIf_of_not (by simp [h]), ok_bind]
  simp only [abortIf_of_not (not_not_intro hlength), ok_bind]

theorem encodeStoreMutations_abort {batch : StoreMutationBatch}
    (h : batch.checkpointRequired = true) : encodeStoreMutations batch = .error .abort := by
  rw [encodeStoreMutations, abortIf, if_pos h]
  rfl

variable {limits : StoreLimits}

variable {limits : StoreLimits}

/-- The common layout of an encoded mutation. -/
theorem applyEntries_encoded (kind : UInt8) (key value rest : Bytes) (count : ℕ)
    (state : StoreState) (snapshotBytes offset : ℕ) (hentry : (StoreEntry.mk key value).Within limits) :
    applyEntries limits (count + 1) state snapshotBytes
      ⟨mutationEntryHeader kind key.length value.length ++ (key ++ value) ++ rest, offset⟩ =
        applyDecoded limits state snapshotBytes kind key value >>= fun applied =>
          applyEntries limits count applied.1 applied.2
            ⟨rest, offset + 1 + 7 + 8 + 8 + (key.length + value.length)⟩ := by
  obtain ⟨hkey, hvalue⟩ := hentry.lengths_lt
  have hlimits : ¬(key.length > limits.maximumKeyBytes ∨
      value.length > limits.maximumValueBytes) := by
    have := hentry.1
    have := hentry.2
    simp only at *
    omega
  have hbytes : mutationEntryHeader kind key.length value.length ++ (key ++ value) ++ rest =
      [kind] ++ (List.replicate 7 0 ++ (encodeLe 8 key.length ++ (encodeLe 8 value.length ++
        (key ++ value ++ rest)))) := by
    rw [mutationEntryHeader]
    simp only [List.append_assoc]
  have hphysical : ∀ offset, ¬(key.length > (ByteCursor.mk (key ++ value ++ rest) offset).remainingLen ∨
      value.length > (ByteCursor.mk (key ++ value ++ rest) offset).remainingLen - key.length) := by
    intro offset
    simp only [ByteCursor.remainingLen, List.length_append]
    omega
  have hkind : ([kind] : Bytes).length = 1 := rfl
  have hreserved : (List.replicate 7 (0 : UInt8)).length = 7 := rfl
  have hzero : ¬¬(List.replicate 7 (0 : UInt8)).all (· == 0) := by decide
  rw [applyEntries, hbytes, ByteCursor.take_append_of_length hkind, otherwise_some, ok_bind]
  simp only [ByteCursor.take_append_of_length hreserved, otherwise_some, ok_bind,
    reject_of_not hzero, ByteCursor.takeU64Le, ByteCursor.takeLe_append hkey,
    ByteCursor.takeLe_append hvalue, reject_of_not hlimits, reject_of_not (hphysical _),
    ByteCursor.take_append_of_length List.length_append, List.headD_cons]
  simp

theorem applyEntries_mutation (mutation : StoreMutation) (rest : Bytes) (count : ℕ)
    (state : StoreState) (snapshotBytes offset : ℕ) (hwithin : mutation.Within limits) :
    ∃ offset', applyEntries limits (count + 1) state snapshotBytes
      ⟨encodeMutation mutation ++ rest, offset⟩ =
        mutation.apply limits (state, snapshotBytes) >>= fun applied =>
          applyEntries limits count applied.1 applied.2 ⟨rest, offset'⟩ := by
  cases mutation with
  | set key value =>
    have hencoded := applyEntries_encoded mutationSetKind key value rest count state snapshotBytes
      offset hwithin
    rw [applyDecoded, if_pos rfl] at hencoded
    exact ⟨_, hencoded⟩
  | remove key =>
    have hentry : (StoreEntry.mk key []).Within limits := ⟨hwithin, Nat.zero_le _⟩
    have hencoded := applyEntries_encoded mutationRemoveKind key [] rest count state snapshotBytes
      offset hentry
    rw [List.append_nil, List.length_nil, applyDecoded, if_neg (by decide), if_pos ⟨rfl, rfl⟩]
      at hencoded
    exact ⟨_, hencoded⟩

/-- Applying the encodings of mutations replays them. -/
theorem applyEntries_append (mutations : List StoreMutation) (rest : Bytes) (current : StoreState × ℕ)
    (offset : ℕ) (hwithin : ∀ mutation ∈ mutations, mutation.Within limits) :
    ∃ offset', applyEntries limits mutations.length current.1 current.2
      ⟨mutations.flatMap encodeMutation ++ rest, offset⟩ =
        replayMutations limits current mutations >>= fun applied =>
          .ok (applied.1, applied.2, ⟨rest, offset'⟩) := by
  induction mutations generalizing current offset with
  | nil => exact ⟨offset, rfl⟩
  | cons mutation mutations ih =>
    obtain ⟨offset₁, hfirst⟩ := applyEntries_mutation mutation
      (mutations.flatMap encodeMutation ++ rest) mutations.length current.1 current.2 offset
      (hwithin mutation List.mem_cons_self)
    rw [List.flatMap_cons, List.append_assoc, List.length_cons, hfirst, replayMutations,
      List.foldlM_cons]
    cases happlied : mutation.apply limits current with
    | error failure => exact ⟨0, rfl⟩
    | ok applied =>
      obtain ⟨offset₂, hrest⟩ := ih applied offset₁ fun other hother =>
        hwithin other (List.mem_cons_of_mem mutation hother)
      refine ⟨offset₂, ?_⟩
      rw [ok_bind]
      exact hrest

/-- Applying an encoded batch that fits the snapshot limit replays its mutations. -/
theorem applyStoreMutations_encoded (mutations : List StoreMutation) (current : StoreState × ℕ)
    (hwithin : ∀ mutation ∈ mutations, mutation.Within limits)
    (hfits : mutationBatchBytes mutations ≤ limits.maximumSnapshotBytes) :
    applyStoreMutations current.1 current.2
      (mutationBatchHeader mutations.length ++ mutations.flatMap encodeMutation) limits =
        replayMutations limits current mutations := by
  have hlength := encodedBatch_length mutations
  have hentries := mutations_bytes_le mutations
  have hbounds : ¬((mutationBatchHeader mutations.length ++
      mutations.flatMap encodeMutation).length < mutationBatchHeaderBytes ∨
        (mutationBatchHeader mutations.length ++ mutations.flatMap encodeMutation).length >
          limits.maximumSnapshotBytes) := by
    rw [hlength, mutationBatchBytes] at *
    omega
  have hphysical : ¬(mutations.length > ((mutationBatchHeader mutations.length ++
      mutations.flatMap encodeMutation).length - mutationBatchHeaderBytes) /
        mutationEntryHeaderBytes) := by
    rw [hlength, mutationBatchBytes, Nat.add_sub_cancel_left, gt_iff_lt, not_lt,
      Nat.le_div_iff_mul_le (by decide)]
    exact hentries
  have hcount : mutations.length < 256 ^ 8 := by
    have := limits.snapshot_le
    have := limits.journal_lt
    rw [mutationBatchBytes] at hfits
    rw [mutationEntryHeaderBytes] at hentries
    omega
  have hfields : ¬(mutationBatchVersion ≠ mutationBatchVersion ∨ 0 ≠ 0) := by simp
  obtain ⟨offset, happly⟩ := applyEntries_append mutations [] current (0 + 4 + 2 + 2 + 8) hwithin
  rw [List.append_nil] at happly
  have hbytes : mutationBatchHeader mutations.length ++ mutations.flatMap encodeMutation =
      mutationMagic ++ (encodeLe 2 mutationBatchVersion ++ (encodeLe 2 0 ++
        (encodeLe 8 mutations.length ++ mutations.flatMap encodeMutation))) := by
    rw [mutationBatchHeader]
    simp only [List.append_assoc]
  have hmagic : (ByteCursor.new (mutationBatchHeader mutations.length ++
      mutations.flatMap encodeMutation)).take 4 = some (mutationMagic,
        ⟨encodeLe 2 mutationBatchVersion ++ (encodeLe 2 0 ++ (encodeLe 8 mutations.length ++
          mutations.flatMap encodeMutation)), 0 + 4⟩) := by
    rw [ByteCursor.new, hbytes]
    exact ByteCursor.take_append_of_length rfl _ _
  rw [applyStoreMutations, reject_of_not hbounds, ok_bind, hmagic, otherwise_some, ok_bind]
  simp only [reject_of_not (not_not_intro rfl : ¬mutationMagic ≠ mutationMagic), ok_bind,
    ByteCursor.takeU16Le, ByteCursor.takeU64Le,
    ByteCursor.takeLe_append (by decide : mutationBatchVersion < 256 ^ 2),
    ByteCursor.takeLe_append (by decide : 0 < 256 ^ 2), ByteCursor.takeLe_append hcount,
    otherwise_some, reject_of_not hfields, reject_of_not hphysical, happly]
  cases replayMutations limits current mutations with
  | error failure => rfl
  | ok applied => simp [ByteCursor.isFinished, reject]

theorem applyStoreRemove_eq_ok {state state' : StoreState} {snapshotBytes next : ℕ} {key : Bytes} :
    applyStoreRemove state snapshotBytes key = .ok (state', next) ↔
      ∃ value, state.remove key = some (⟨key, value⟩, state') ∧
        next = snapshotBytes - snapshotEntryHeaderBytes - key.length - value.length := by
  rw [applyStoreRemove, bind_eq_ok]
  constructor
  · rintro ⟨⟨⟨removedKey, value⟩, rest⟩, hremoved, heq⟩
    cases heq
    rw [otherwise_eq_ok] at hremoved
    obtain rfl : removedKey = key := StoreState.remove_key hremoved
    exact ⟨value, hremoved, rfl⟩
  · rintro ⟨value, hremoved, rfl⟩
    exact ⟨_, otherwise_eq_ok.mpr hremoved, rfl⟩

/-- A removal keeps the limits and the size exact. -/
theorem remove_within {state state' : StoreState} {entry : StoreEntry} {key : Bytes}
    (hremoved : state.remove key = some (entry, state')) (hwithin : state.Within limits) :
    state'.Within limits ∧
      state.snapshotBytes - snapshotEntryHeaderBytes - entry.key.length - entry.value.length =
        state'.snapshotBytes := by
  obtain ⟨hmem, hentries⟩ := StoreState.remove_eq hremoved
  have hbytes := StoreState.snapshotBytes_remove hmem hentries
  rw [StoreEntry.snapshotBytes] at hbytes
  exact ⟨hwithin.erase hmem hentries, by omega⟩

/-- Any decoded entry that applies keeps the limits and the size exact. -/
theorem applyDecoded_within {state : StoreState} {kind : UInt8} {key value : Bytes}
    {applied : StoreState × ℕ} (hwithin : state.Within limits)
    (hentry : (StoreEntry.mk key value).Within limits)
    (h : applyDecoded limits state state.snapshotBytes kind key value = .ok applied) :
    applied.1.Within limits ∧ applied.2 = applied.1.snapshotBytes := by
  rw [applyDecoded] at h
  split at h
  · exact (writeEntry_eq_ok.mp h).within hwithin hentry
  · split at h
    · obtain ⟨removedValue, hremoved, hnext⟩ := applyStoreRemove_eq_ok.mp h
      obtain ⟨hkept, hbytes⟩ := remove_within hremoved hwithin
      exact ⟨hkept, hnext.trans hbytes⟩
    · cases h

theorem applyEntries_within (count : ℕ) {state : StoreState} {cursor : ByteCursor}
    {applied : StoreState × ℕ × ByteCursor} (hwithin : state.Within limits)
    (h : applyEntries limits count state state.snapshotBytes cursor = .ok applied) :
    applied.1.Within limits ∧ applied.2.1 = applied.1.snapshotBytes := by
  induction count generalizing state cursor with
  | zero =>
    cases h
    exact ⟨hwithin, rfl⟩
  | succ count ih =>
    rw [applyEntries] at h
    simp only [bind_eq_ok, Prod.exists, otherwise_eq_ok] at h
    obtain ⟨_, _, _, _, _, _, _, _, keyLen, _, _, valueLen, afterValue, _, _, hlimits, _, hphysical,
      next, nextBytes, happlied, _, rest, _, hrest⟩ := h
    have hbounds := reject_eq_ok.mp hlimits
    have hentry : (StoreEntry.mk (afterValue.remaining.take keyLen)
        ((afterValue.remaining.drop keyLen).take valueLen)).Within limits := by
      simp only [StoreEntry.Within, List.length_take]
      omega
    obtain ⟨hnext, hbytes⟩ := applyDecoded_within hwithin hentry happlied
    simp only at hbytes
    rw [hbytes] at hrest
    exact ih hnext hrest

/-- Every accepted batch keeps the limits and the size exact. -/
theorem applyStoreMutations_within {state : StoreState} {input : Bytes} {applied : StoreState × ℕ}
    (hwithin : state.Within limits)
    (h : applyStoreMutations state state.snapshotBytes input limits = .ok applied) :
    applied.1.Within limits ∧ applied.2 = applied.1.snapshotBytes := by
  rw [applyStoreMutations] at h
  simp only [bind_eq_ok, Prod.exists, otherwise_eq_ok] at h
  obtain ⟨_, _, _, _, _, _, _, _, _, _, _, _, _, count, cursor, _, _, _, _, _, state', bytes', rest,
    hentries, _, _, heq⟩ := h
  cases heq
  exact applyEntries_within count hwithin hentries

end Nocter.DurableStore
