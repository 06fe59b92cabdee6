import Nocter.DurableStore.State

/-!
# Snapshots

A snapshot is a header with the entry count and then every entry in insertion
order with its lengths. Decoding the snapshot of a state within the limits
gives the state back.
-/

namespace Nocter.DurableStore

/-- The bytes of `NCTS`. -/
def snapshotMagic : Bytes := [78, 67, 84, 83]

def snapshotVersion : ℕ := 1

def snapshotHeader (entryCount : ℕ) : Bytes :=
  snapshotMagic ++ (encodeLe 2 snapshotVersion ++ (encodeLe 2 0 ++ encodeLe 8 entryCount))

def encodeEntry (entry : StoreEntry) : Bytes :=
  encodeLe 8 entry.key.length ++ (encodeLe 8 entry.value.length ++ (entry.key ++ entry.value))

def encodeSnapshot (state : StoreState) (snapshotBytes : ℕ) : Outcome Bytes := do
  let encoded := snapshotHeader state.len ++ state.entries.flatMap encodeEntry
  abortIf (encoded.length ≠ snapshotBytes)
  .ok encoded

def decodeSnapshotEntry (remaining : Bytes) (keyLen valueLen : ℕ) : Outcome StoreEntry := do
  reject (keyLen > remaining.length ∨ valueLen > remaining.length - keyLen) corruptSnapshot
  .ok ⟨remaining.take keyLen, (remaining.drop keyLen).take valueLen⟩

def decodeEntries (limits : StoreLimits) :
    ℕ → StoreState → ByteCursor → Outcome (StoreState × ByteCursor)
  | 0, state, cursor => .ok (state, cursor)
  | count + 1, state, cursor => do
    let (keyLen, cursor) ← otherwise cursor.takeU64Le (.error corruptSnapshot)
    let (valueLen, cursor) ← otherwise cursor.takeU64Le (.error corruptSnapshot)
    reject (keyLen > limits.maximumKeyBytes ∨ valueLen > limits.maximumValueBytes) corruptSnapshot
    let entry ← decodeSnapshotEntry cursor.remaining keyLen valueLen
    let state ← otherwise (state.insert entry) (.error corruptSnapshot)
    let (_, cursor) ← otherwise (cursor.take (keyLen + valueLen)) .abort
    decodeEntries limits count state cursor

def decodeSnapshot (input : Bytes) (limits : StoreLimits) : Outcome (StoreState × ℕ) := do
  reject (input.length < snapshotHeaderBytes ∨ input.length > limits.maximumSnapshotBytes)
    corruptSnapshot
  let (magic, cursor) ← otherwise ((ByteCursor.new input).take 4) .abort
  reject (magic ≠ snapshotMagic) corruptSnapshot
  let (version, cursor) ← otherwise cursor.takeU16Le .abort
  let (flags, cursor) ← otherwise cursor.takeU16Le .abort
  let (entryCount, cursor) ← otherwise cursor.takeU64Le .abort
  reject (version ≠ snapshotVersion ∨ flags ≠ 0 ∨ entryCount > limits.maximumEntries)
    corruptSnapshot
  reject (entryCount > (input.length - snapshotHeaderBytes) / snapshotEntryHeaderBytes)
    corruptSnapshot
  let (state, cursor) ← decodeEntries limits entryCount .new cursor
  reject (¬cursor.isFinished) corruptSnapshot
  .ok (state, input.length)

@[simp] theorem snapshotHeader_length (entryCount : ℕ) :
    (snapshotHeader entryCount).length = snapshotHeaderBytes := by
  simp [snapshotHeader, snapshotMagic, snapshotHeaderBytes]

@[simp] theorem encodeEntry_length (entry : StoreEntry) :
    (encodeEntry entry).length = entry.snapshotBytes := by
  simp [encodeEntry, StoreEntry.snapshotBytes, snapshotEntryHeaderBytes]
  omega

theorem encodedSnapshot_length (state : StoreState) :
    (snapshotHeader state.len ++ state.entries.flatMap encodeEntry).length =
      state.snapshotBytes := by
  rw [List.length_append, snapshotHeader_length, StoreState.snapshotBytes, List.length_flatMap]
  simp

theorem encodeSnapshot_eq (state : StoreState) : encodeSnapshot state state.snapshotBytes =
    .ok (snapshotHeader state.len ++ state.entries.flatMap encodeEntry) := by
  rw [encodeSnapshot, abortIf_of_not (not_not_intro (encodedSnapshot_length state))]
  rfl

variable {limits : StoreLimits}

/-- Lengths within the limits fit the 64-bit fields. -/
theorem StoreEntry.Within.lengths_lt {entry : StoreEntry} (h : entry.Within limits) :
    entry.key.length < 256 ^ 8 ∧ entry.value.length < 256 ^ 8 := by
  have := limits.key_le
  have := limits.value_le
  have := limits.snapshot_le
  have := limits.journal_lt
  have := h.1
  have := h.2
  omega

theorem decodeSnapshotEntry_append (entry : StoreEntry) (rest : Bytes) :
    decodeSnapshotEntry (entry.key ++ entry.value ++ rest) entry.key.length entry.value.length =
      .ok entry := by
  have hfits : ¬(entry.key.length > (entry.key ++ entry.value ++ rest).length ∨
      entry.value.length > (entry.key ++ entry.value ++ rest).length - entry.key.length) := by
    simp only [List.length_append]
    omega
  rw [decodeSnapshotEntry, reject_of_not hfits]
  simp

/-- Decoding the encodings of further distinct entries appends them. -/
theorem decodeEntries_append (entries : List StoreEntry) (rest : Bytes) (state final : StoreState)
    (offset : ℕ) (hwithin : ∀ entry ∈ entries, entry.Within limits)
    (hfinal : final.entries = state.entries ++ entries) :
    ∃ offset', decodeEntries limits entries.length state
      ⟨entries.flatMap encodeEntry ++ rest, offset⟩ = .ok (final, ⟨rest, offset'⟩) := by
  induction entries generalizing state offset with
  | nil =>
    have hsame : state = final := StoreState.ext (by rw [hfinal, List.append_nil])
    exact ⟨offset, by rw [hsame]; rfl⟩
  | cons entry entries ih =>
    have hentry := hwithin entry List.mem_cons_self
    obtain ⟨hkey, hvalue⟩ := hentry.lengths_lt
    have hnew : state.value entry.key = none := by
      rw [StoreState.value_eq_none_iff]
      have hdistinct := final.distinct
      rw [hfinal, List.map_append, List.map_cons, List.nodup_append] at hdistinct
      exact fun hmem => hdistinct.2.2 _ hmem _ List.mem_cons_self rfl
    obtain ⟨next, hinsert, hnext⟩ := StoreState.insert_of_value_none entry.value hnew
    have hlimits : ¬(entry.key.length > limits.maximumKeyBytes ∨
        entry.value.length > limits.maximumValueBytes) := by
      have := hentry.1
      have := hentry.2
      omega
    obtain ⟨offset', hrest⟩ := ih next (offset + 8 + 8 + (entry.key.length + entry.value.length))
      (fun other hother => hwithin other (List.mem_cons_of_mem entry hother))
      (by rw [hfinal, hnext, List.append_assoc, List.singleton_append])
    refine ⟨offset', ?_⟩
    have hbytes : (entry :: entries).flatMap encodeEntry ++ rest =
        encodeLe 8 entry.key.length ++ (encodeLe 8 entry.value.length ++
          (entry.key ++ entry.value ++ (entries.flatMap encodeEntry ++ rest))) := by
      rw [List.flatMap_cons, encodeEntry]
      simp only [List.append_assoc]
    rw [List.length_cons, decodeEntries, hbytes, ByteCursor.takeU64Le,
      ByteCursor.takeLe_append hkey, otherwise_some, ok_bind]
    simp only [ByteCursor.takeU64Le, ByteCursor.takeLe_append hvalue, otherwise_some, ok_bind,
      reject_of_not hlimits, decodeSnapshotEntry_append, hinsert]
    rw [ByteCursor.take_append_of_length (List.length_append), otherwise_some, ok_bind]
    exact hrest

/-- Every entry takes at least its header. -/
theorem entries_bytes_le (entries : List StoreEntry) :
    entries.length * snapshotEntryHeaderBytes ≤ (entries.map StoreEntry.snapshotBytes).sum := by
  induction entries with
  | nil => simp
  | cons entry entries ih =>
    rw [List.length_cons, Nat.add_one_mul, List.map_cons, List.sum_cons, StoreEntry.snapshotBytes]
    omega

/-- Decoding inverts encoding for every state within the limits. -/
theorem decodeSnapshot_encodeSnapshot {state : StoreState} {encoded : Bytes}
    (h : state.Within limits) (hencoded : encodeSnapshot state state.snapshotBytes = .ok encoded) :
    decodeSnapshot encoded limits = .ok (state, state.snapshotBytes) := by
  rw [encodeSnapshot_eq, Except.ok.injEq] at hencoded
  subst hencoded
  have hlength := encodedSnapshot_length state
  have hcount : state.len < 256 ^ 8 := by
    have := h.len_le
    have := limits.entries_lt
    omega
  have hbounds : ¬((snapshotHeader state.len ++ state.entries.flatMap encodeEntry).length <
      snapshotHeaderBytes ∨ (snapshotHeader state.len ++ state.entries.flatMap encodeEntry).length >
        limits.maximumSnapshotBytes) := by
    have := h.snapshot_le
    rw [hlength, StoreState.snapshotBytes]
    rw [StoreState.snapshotBytes] at this
    omega
  have hphysical : ¬(state.len > ((snapshotHeader state.len ++
      state.entries.flatMap encodeEntry).length - snapshotHeaderBytes) /
        snapshotEntryHeaderBytes) := by
    rw [hlength, StoreState.snapshotBytes, Nat.add_sub_cancel_left, gt_iff_lt, not_lt,
      Nat.le_div_iff_mul_le (by decide)]
    exact entries_bytes_le state.entries
  have hfields : ¬(snapshotVersion ≠ snapshotVersion ∨ 0 ≠ 0 ∨
      state.len > limits.maximumEntries) := by
    have := h.len_le
    simp only [ne_eq, not_true_eq_false, false_or, gt_iff_lt, not_lt]
    exact this
  obtain ⟨offset, hentries⟩ := decodeEntries_append state.entries [] .new state
    (0 + 4 + 2 + 2 + 8) h.entry rfl
  rw [List.append_nil] at hentries
  have hbytes : snapshotHeader state.len ++ state.entries.flatMap encodeEntry =
      snapshotMagic ++ (encodeLe 2 snapshotVersion ++ (encodeLe 2 0 ++ (encodeLe 8 state.len ++
        state.entries.flatMap encodeEntry))) := by
    rw [snapshotHeader]
    simp only [List.append_assoc]
  rw [decodeSnapshot, reject_of_not hbounds, ok_bind]
  have hmagic : (ByteCursor.new (snapshotHeader state.len ++
      state.entries.flatMap encodeEntry)).take 4 = some (snapshotMagic, ⟨encodeLe 2 snapshotVersion ++
        (encodeLe 2 0 ++ (encodeLe 8 state.len ++ state.entries.flatMap encodeEntry)), 0 + 4⟩) := by
    rw [ByteCursor.new, hbytes]
    exact ByteCursor.take_append_of_length rfl _ _
  rw [hmagic, otherwise_some, ok_bind]
  simp only [reject_of_not (not_not_intro rfl : ¬snapshotMagic ≠ snapshotMagic), ok_bind,
    ByteCursor.takeU16Le, ByteCursor.takeU64Le,
    ByteCursor.takeLe_append (by decide : snapshotVersion < 256 ^ 2),
    ByteCursor.takeLe_append (by decide : 0 < 256 ^ 2), ByteCursor.takeLe_append hcount,
    otherwise_some, reject_of_not hfields, reject_of_not hphysical]
  rw [← StoreState.len] at hentries
  rw [hentries, ok_bind]
  simp [ByteCursor.isFinished, reject, hlength]

theorem decodeSnapshotEntry_eq_ok {remaining : Bytes} {keyLen valueLen : ℕ} {entry : StoreEntry}
    (h : decodeSnapshotEntry remaining keyLen valueLen = .ok entry) :
    entry.key.length = keyLen ∧ entry.value.length = valueLen := by
  rw [decodeSnapshotEntry, bind_eq_ok] at h
  obtain ⟨_, hfits, heq⟩ := h
  have := reject_eq_ok.mp hfits
  cases heq
  simp only [List.length_take, List.length_drop]
  omega

/-- Decoded entries respect the limits and account for every byte consumed. -/
theorem decodeEntries_within (count : ℕ) {state state' : StoreState} {cursor cursor' : ByteCursor}
    (h : decodeEntries limits count state cursor = .ok (state', cursor'))
    (hwithin : ∀ entry ∈ state.entries, entry.Within limits) :
    (∀ entry ∈ state'.entries, entry.Within limits) ∧ state'.len = state.len + count ∧
      state'.snapshotBytes + cursor'.remaining.length =
        state.snapshotBytes + cursor.remaining.length := by
  induction count generalizing state cursor with
  | zero =>
    cases h
    exact ⟨hwithin, rfl, rfl⟩
  | succ count ih =>
    rw [decodeEntries] at h
    simp only [bind_eq_ok, Prod.exists, otherwise_eq_ok] at h
    obtain ⟨keyLen, afterKey, hkeyLen, valueLen, afterValue, hvalueLen, _, hlimits, entry, hentry,
      next, hinsert, _, rest, htake, hrest⟩ := h
    have hlengths := decodeSnapshotEntry_eq_ok hentry
    have hbounds := reject_eq_ok.mp hlimits
    obtain ⟨_, hentries⟩ := StoreState.insert_eq hinsert
    have hnext : ∀ other ∈ next.entries, other.Within limits := by
      intro other hother
      rw [hentries, List.mem_append, List.mem_singleton] at hother
      obtain hother | rfl := hother
      · exact hwithin other hother
      · rw [StoreEntry.Within]
        omega
    obtain ⟨hall, hlen, hbytes⟩ := ih hrest hnext
    have hlenNext : next.len = state.len + 1 := by
      rw [StoreState.len, hentries, List.length_append, List.length_singleton, StoreState.len]
    have hgrowth := StoreState.snapshotBytes_insert hentries
    rw [StoreEntry.snapshotBytes, snapshotEntryHeaderBytes] at hgrowth
    have := ByteCursor.takeLe_length hkeyLen
    have := ByteCursor.takeLe_length hvalueLen
    have := ByteCursor.take_length htake
    exact ⟨hall, by omega, by omega⟩

/-- Every accepted snapshot holds a state within the limits, of exactly its size. -/
theorem decodeSnapshot_within {input : Bytes} {state : StoreState} {snapshotBytes : ℕ}
    (h : decodeSnapshot input limits = .ok (state, snapshotBytes)) :
    state.Within limits ∧ snapshotBytes = state.snapshotBytes := by
  rw [decodeSnapshot] at h
  simp only [bind_eq_ok, Prod.exists, otherwise_eq_ok] at h
  obtain ⟨_, hsize, magic, afterMagic, hmagic, _, _, version, afterVersion, hversion, flags,
    afterFlags, hflags, entryCount, afterCount, hcount, _, hfields, _, _, decoded, rest, hentries,
    _, hfinished, heq⟩ := h
  have hbounds := reject_eq_ok.mp hsize
  have hlimit := reject_eq_ok.mp hfields
  have hempty : rest.remaining = [] := by
    simpa [ByteCursor.isFinished] using reject_eq_ok.mp hfinished
  cases heq
  obtain ⟨hall, hlen, hbytes⟩ := decodeEntries_within entryCount hentries
    (StoreState.new_within limits).entry
  have := ByteCursor.take_length hmagic
  have := ByteCursor.takeLe_length hversion
  have := ByteCursor.takeLe_length hflags
  have := ByteCursor.takeLe_length hcount
  have hnew : StoreState.new.snapshotBytes = 16 := rfl
  have hzero : StoreState.new.len = 0 := rfl
  rw [hempty, List.length_nil] at hbytes
  have hinput : (ByteCursor.new input).remaining.length = input.length := rfl
  exact ⟨⟨hall, by omega, by omega⟩, by omega⟩

section Failures

/-- The outcome is a result or an error of the store. -/
def Reports {α : Type} (outcome : Outcome α) : Prop :=
  ∀ failure, outcome = .error failure → ∃ error, failure = .error error

theorem Reports.ok {α : Type} (a : α) : Reports (.ok a) := by
  intro failure h
  cases h

theorem Reports.bind {α β : Type} {x : Outcome α} {f : α → Outcome β} (h : Reports x)
    (hrest : ∀ a, x = .ok a → Reports (f a)) : Reports (x >>= f) := by
  cases x with
  | error failure =>
    intro failure' heq
    obtain rfl : failure = failure' := Except.error.inj heq
    exact h failure rfl
  | ok a => exact hrest a rfl

theorem reject_reports (condition : Prop) [Decidable condition] (error : StoreError) :
    Reports (reject condition error) := by
  intro failure h
  rw [reject] at h
  split_ifs at h
  exact ⟨error, (Except.error.inj h).symm⟩

theorem otherwise_reports {α : Type} (value : Option α) (error : StoreError) :
    Reports (otherwise value (.error error)) := by
  intro failure h
  cases value with
  | none => exact ⟨error, (Except.error.inj h).symm⟩
  | some value => cases h

theorem ByteCursor.take_reports {cursor : ByteCursor} {count : ℕ}
    (h : count ≤ cursor.remaining.length) (failure : Failure) :
    Reports (otherwise (cursor.take count) failure) := by
  have hnot : ¬count > cursor.remainingLen := Nat.not_lt.mpr h
  rw [ByteCursor.take, if_neg hnot]
  exact Reports.ok _

theorem ByteCursor.takeLe_reports {cursor : ByteCursor} {width : ℕ}
    (h : width ≤ cursor.remaining.length) (failure : Failure) :
    Reports (otherwise (cursor.takeLe width) failure) := by
  have hnot : ¬width > cursor.remainingLen := Nat.not_lt.mpr h
  rw [ByteCursor.takeLe, ByteCursor.take, if_neg hnot]
  exact Reports.ok _

theorem decodeSnapshotEntry_reports (remaining : Bytes) (keyLen valueLen : ℕ) :
    Reports (decodeSnapshotEntry remaining keyLen valueLen) :=
  (reject_reports _ _).bind fun _ _ => Reports.ok _

theorem decodeEntries_reports (count : ℕ) (state : StoreState) (cursor : ByteCursor) :
    Reports (decodeEntries limits count state cursor) := by
  induction count generalizing state cursor with
  | zero => exact Reports.ok _
  | succ count ih =>
    refine (otherwise_reports _ _).bind fun keyLen _ => (otherwise_reports _ _).bind fun valueLen _ =>
      (reject_reports _ _).bind fun _ _ => (decodeSnapshotEntry_reports _ _ _).bind
        fun entry hentry => (otherwise_reports _ _).bind fun state' _ => ?_
    have hfits : keyLen.1 + valueLen.1 ≤ valueLen.2.remaining.length := by
      rw [decodeSnapshotEntry, bind_eq_ok] at hentry
      obtain ⟨_, hreject, -⟩ := hentry
      have hbounds := reject_eq_ok.mp hreject
      omega
    exact (ByteCursor.take_reports hfits _).bind fun taken _ => ih state' taken.2

/-- A snapshot that is not accepted is reported as an error. -/
theorem decodeSnapshot_reports (input : Bytes) : Reports (decodeSnapshot input limits) := by
  refine (reject_reports _ _).bind fun _ hsize => ?_
  have hbounds := reject_eq_ok.mp hsize
  rw [snapshotHeaderBytes] at hbounds
  have hinput : (ByteCursor.new input).remaining.length = input.length := rfl
  refine (ByteCursor.take_reports (by omega) _).bind fun magic hmagic => ?_
  have hmagicLength := ByteCursor.take_length (otherwise_eq_ok.mp hmagic)
  refine (reject_reports _ _).bind fun _ _ => ?_
  refine (ByteCursor.takeLe_reports (by omega) _).bind fun version hversion => ?_
  have hversionLength := ByteCursor.takeLe_length (otherwise_eq_ok.mp hversion)
  refine (ByteCursor.takeLe_reports (by omega) _).bind fun flags hflags => ?_
  have hflagsLength := ByteCursor.takeLe_length (otherwise_eq_ok.mp hflags)
  refine (ByteCursor.takeLe_reports (by omega) _).bind fun entryCount _ => ?_
  exact (reject_reports _ _).bind fun _ _ => (reject_reports _ _).bind fun _ _ =>
    (decodeEntries_reports _ _ _).bind fun _ _ => (reject_reports _ _).bind fun _ _ => Reports.ok _

end Failures

end Nocter.DurableStore
