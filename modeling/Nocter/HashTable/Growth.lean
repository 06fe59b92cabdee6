import Nocter.HashTable.Probing

/-!
# Growth

A new bucket table is built behind the old one in the same vector and then moved
to the front. Nothing changes before the one allocation that may fail.
-/

namespace Nocter.HashTable

open OpenAddressing

variable {K V : Type}

/-- One pass of the loop of `reserve_destination`. -/
def reserveBucket (buckets : List Bucket) (newStart newCount entryIndex destination : ℕ) :
    ℕ ⊕ Option (List Bucket) :=
  match buckets[newStart + destination]? with
  | none => .inr none
  | some .empty => .inr (some (buckets.set (newStart + destination) (.occupied entryIndex)))
  | some _ => .inl (nextIndex destination newCount)

/-- The loop ends at the first empty bucket; it has one after at most `newCount` passes. -/
def reserveDestination (buckets : List Bucket) (newStart newCount hash entryIndex : ℕ) :
    Option (List Bucket) :=
  if newCount = 0 then none
  else (Loop.within (reserveBucket buckets newStart newCount entryIndex) newCount
    (hash % newCount)).join

def placeEntry (hasher : KeyHash K) (keys : List K) (oldCount newCount entryIndex : ℕ)
    (buckets : List Bucket) : Option (List Bucket) := do
  let key ← keys[entryIndex]?
  reserveDestination buckets oldCount newCount (hasher.hash key) entryIndex

def moveBucket (oldCount destination : ℕ) (buckets : List Bucket) : Option (List Bucket) := do
  let moved ← buckets[oldCount + destination]?
  let buckets ← checkedSet buckets (oldCount + destination) .empty
  checkedSet buckets destination moved

namespace Table

variable (hasher : KeyHash K) (sizes : Sizes)

def tryRebuild (granted : Bool) (table : Table K V) (newCount : ℕ) : Result (Table K V) := do
  let oldCount := table.buckets.len
  let buckets ← table.buckets.tryReserve sizes.bucket granted newCount
  let buckets ← fillEmpty buckets newCount
  let placed ← orTrap (Loop.counted (placeEntry hasher table.keys.values oldCount newCount)
    table.keys.len 0 buckets.values)
  let moved ← orTrap (Loop.counted (moveBucket oldCount) newCount 0 placed)
  .ok { table with
    buckets := { buckets with values := moved }.truncate newCount
    usableBucketCapacity := usableCapacity newCount
    tombstones := 0 }

/-- A failure leaves the table as far as it was reserved. -/
def tryReserveTable (grants : Grants) (table : Table K V) (additional : ℕ) :
    Result Unit × Table K V :=
  match checkedAdd u64Max table.len additional with
  | none => (.error .error, table)
  | some required =>
    if required ≤ table.tableCapacity then (.ok (), table)
    else
      let rebuilt : Result (Table K V) :=
        if required > table.usableBucketCapacity then do
          let newCount ← bucketCountFor required true
          table.tryRebuild hasher sizes grants.buckets newCount
        else .ok table
      match rebuilt with
      | .error failure => (.error failure, table)
      | .ok table =>
        match table.keys.tryReserve sizes.key grants.keys additional with
        | .error failure => (.error failure, table)
        | .ok keys =>
          match table.values.tryReserve sizes.value grants.values additional with
          | .error failure => (.error failure, { table with keys })
          | .ok values => (.ok (), { table with keys, values })

/-- A failed temporary allocation does not turn an insertion into failure. -/
def cleanupSparse (grants : Grants) (table : Table K V) : Result (Table K V) :=
  if table.tombstones < 8 ∨ table.tombstones ≤ table.len then .ok table
  else match table.tryRebuild hasher sizes grants.cleanup table.buckets.len with
    | .error .error => .ok table
    | result => result

/-- The dense entries are parallel, each behind one bucket on the way of its hash, and the
counters are exact. -/
structure Valid (table : Table K V) : Prop where
  parallel : table.values.values.length = table.keys.values.length
  indexed : Indexed hasher table.buckets.values table.keys.values
  tombstones_eq : table.tombstones = table.buckets.values.count .deleted
  usable_eq : table.usableBucketCapacity = usableCapacity table.buckets.len
  occupied_le : table.len ≤ table.usableBucketCapacity
  buckets_size : table.buckets.len = 0 ∨ 8 ≤ table.buckets.len
  keys_capacity : table.keys.len ≤ table.keys.capacity
  values_capacity : table.values.len ≤ table.values.capacity
  buckets_capacity : table.buckets.len ≤ table.buckets.capacity

/-- Two tables with the same entries in the same order. -/
def SameEntries (table table' : Table K V) : Prop :=
  table'.keys.values = table.keys.values ∧ table'.values.values = table.values.values

end Table

/-- In a bucket table without deleted buckets and with a vacant one the loop ends at the first
empty bucket on the way of the hash. -/
theorem reserveDestination_spec (old : List Bucket) {region : List Bucket} {hashes : List ℕ}
    (h : Indexes region hashes) (hlt : hashes.length < region.length)
    (hdeleted : ∀ bucket : ℕ, region[bucket]? ≠ some .deleted) (hash entry : ℕ) :
    ∃ bucket, reserveDestination (old ++ region) old.length region.length hash entry =
        some (old ++ region.set bucket (.occupied entry)) ∧ bucket < region.length ∧
      (∀ other, region[bucket]? ≠ some (.occupied other)) ∧ OnPath region hash bucket := by
  have hpositive : 0 < region.length := by omega
  have hread : ∀ destination, (old ++ region)[old.length + destination]? = region[destination]? := by
    intro destination
    rw [List.getElem?_append_right (Nat.le_add_right _ _), Nat.add_sub_cancel_left]
  have hempty : ∃ i, i < region.length ∧ region[visit region.length hash i]? = some .empty := by
    obtain ⟨bucket, hbucket, hvacant⟩ := h.exists_vacant hlt
    obtain ⟨i, hi, rfl⟩ := exists_visit hash hbucket
    refine ⟨i, hi, ?_⟩
    cases hvalue : region[visit region.length hash i]? with
    | none => exact absurd (List.getElem?_eq_none_iff.mp hvalue) (by omega)
    | some value =>
      cases value with
      | empty => rfl
      | deleted => exact absurd hvalue (hdeleted _)
      | occupied other => exact absurd hvalue (hvacant other)
  classical
  obtain ⟨hi, hfound⟩ := Nat.find_spec hempty
  have hbefore : ∀ j < Nat.find hempty, region[visit region.length hash j]? ≠ some .empty := by
    intro j hj hsome
    exact Nat.find_min hempty hj ⟨by omega, hsome⟩
  generalize Nat.find hempty = i at hi hfound hbefore
  -- from bucket `j` on the way the loop goes on to bucket `i`
  have hloop : ∀ distance j passes, j + distance = i → distance < passes →
      Loop.within (reserveBucket (old ++ region) old.length region.length entry) passes
        (visit region.length hash j) =
      some (some (old ++ region.set (visit region.length hash i) (.occupied entry))) := by
    intro distance
    induction distance with
    | zero =>
      intro j passes hj hpasses
      obtain rfl : j = i := hj
      obtain ⟨passes, rfl⟩ : ∃ n, passes = n + 1 := ⟨passes - 1, by omega⟩
      refine Loop.within_of_done ?_ passes
      rw [reserveBucket, hread, hfound]
      dsimp only
      rw [List.set_append_right _ _ (Nat.le_add_right _ _), Nat.add_sub_cancel_left]
    | succ distance ih =>
      intro j passes hj hpasses
      obtain ⟨passes, rfl⟩ : ∃ n, passes = n + 1 := ⟨passes - 1, by omega⟩
      have hagain : reserveBucket (old ++ region) old.length region.length entry
          (visit region.length hash j) = .inl (visit region.length hash (j + 1)) := by
        rw [reserveBucket, hread]
        cases hvalue : region[visit region.length hash j]? with
        | none =>
          have hvisit := visit_lt hpositive hash j
          exact absurd (List.getElem?_eq_none_iff.mp hvalue) (by omega)
        | some value =>
          cases value with
          | empty => exact absurd hvalue (hbefore j (by omega))
          | deleted => exact absurd hvalue (hdeleted _)
          | occupied other =>
            dsimp only
            rw [nextIndex_visit hpositive]
      rw [Loop.within_of_again hagain]
      exact ih (j + 1) passes (by omega) (by omega)
  refine ⟨visit region.length hash i, ?_, visit_lt hpositive hash i, fun other hsome => ?_, i, hi,
    rfl, hbefore⟩
  · have hresult := hloop i 0 region.length (Nat.zero_add i) hi
    unfold reserveDestination
    rw [if_neg (by omega)]
    change Option.join (Loop.within _ _ (visit region.length hash 0)) = _
    rw [hresult]
    rfl
  · rw [hfound] at hsome
    cases hsome

/-- The entries are placed in the new bucket table one after the other. -/
theorem placeEntries (hasher : KeyHash K) (keys : List K) (old : List Bucket) {newCount : ℕ}
    (hcount : keys.length < newCount) :
    ∃ region, Loop.counted (placeEntry hasher keys old.length newCount) keys.length 0
        (old ++ List.replicate newCount .empty) = some (old ++ region) ∧ region.length = newCount ∧
      Indexes region (keys.map hasher.hash) ∧ ∀ bucket : ℕ, region[bucket]? ≠ some .deleted := by
  have hstart : ∃ region, old ++ List.replicate newCount Bucket.empty = old ++ region ∧
      region.length = newCount ∧ Indexes region ((keys.take 0).map hasher.hash) ∧
      ∀ bucket : ℕ, region[bucket]? ≠ some .deleted := by
    refine ⟨_, rfl, List.length_replicate, Indexes.empty newCount, fun bucket hsome => ?_⟩
    rw [List.getElem?_replicate] at hsome
    split at hsome <;> cases hsome
  have hbody : ∀ entry buckets, entry < keys.length →
      (∃ region, buckets = old ++ region ∧ region.length = newCount ∧
        Indexes region ((keys.take entry).map hasher.hash) ∧
        ∀ bucket : ℕ, region[bucket]? ≠ some .deleted) →
      ∃ next, placeEntry hasher keys old.length newCount entry buckets = some next ∧
        ∃ region, next = old ++ region ∧ region.length = newCount ∧
          Indexes region ((keys.take (entry + 1)).map hasher.hash) ∧
          ∀ bucket : ℕ, region[bucket]? ≠ some .deleted := by
    rintro entry buckets hentry ⟨region, rfl, rfl, hindexes, hdeleted⟩
    have hlength : ((keys.take entry).map hasher.hash).length = entry := by
      rw [List.length_map, List.length_take]
      omega
    obtain ⟨bucket, hplace, hbucket, hvacant, hpath⟩ := reserveDestination_spec old hindexes
      (by omega) hdeleted (hasher.hash keys[entry]) entry
    have happend := hindexes.append hbucket hvacant hpath
    rw [hlength] at happend
    refine ⟨_, ?_, region.set bucket (.occupied entry), rfl, by rw [List.length_set], ?_,
      fun other hsome => ?_⟩
    · simp only [placeEntry, Option.bind_eq_bind]
      rw [List.getElem?_eq_getElem hentry, Option.bind_some, hplace]
    · rw [List.take_succ_eq_append_getElem hentry, List.map_append, List.map_singleton]
      exact happend
    · rw [List.getElem?_set] at hsome
      split at hsome
      · cases hsome
      · exact hdeleted other hsome
  obtain ⟨placed, hloop, region, rfl, hlength, hindexes, hdeleted⟩ := Loop.counted_spec
    (P := fun entry buckets => ∃ region, buckets = old ++ region ∧ region.length = newCount ∧
      Indexes region ((keys.take entry).map hasher.hash) ∧
      ∀ bucket : ℕ, region[bucket]? ≠ some .deleted) hbody (Nat.zero_add keys.length) hstart
  rw [List.take_length] at hindexes
  exact ⟨region, hloop, hlength, hindexes, hdeleted⟩

/-- Moving to the front works also where the two bucket tables overlap. -/
theorem moveBuckets (old region : List Bucket) :
    ∃ moved, Loop.counted (moveBucket old.length) region.length 0 (old ++ region) = some moved ∧
      moved.length = old.length + region.length ∧ moved.take region.length = region := by
  have hstart : (old ++ region).length = old.length + region.length ∧
      (∀ i < 0, (old ++ region)[i]? = region[i]?) ∧
      ∀ i, 0 ≤ i → (old ++ region)[old.length + i]? = region[i]? := by
    refine ⟨List.length_append, fun i hi => absurd hi (Nat.not_lt_zero i), fun i _ => ?_⟩
    rw [List.getElem?_append_right (Nat.le_add_right _ _), Nat.add_sub_cancel_left]
  have hbody : ∀ destination (buckets : List Bucket), destination < region.length →
      (buckets.length = old.length + region.length ∧ (∀ i < destination, buckets[i]? = region[i]?) ∧
        ∀ i, destination ≤ i → buckets[old.length + i]? = region[i]?) →
      ∃ next, moveBucket old.length destination buckets = some next ∧
        next.length = old.length + region.length ∧
        (∀ i < destination + 1, next[i]? = region[i]?) ∧
        ∀ i, destination + 1 ≤ i → next[old.length + i]? = region[i]? := by
    rintro destination buckets hlt ⟨hlength, hfront, hback⟩
    have hsource := hback destination (Nat.le_refl _)
    rw [List.getElem?_eq_getElem hlt] at hsource
    refine ⟨(buckets.set (old.length + destination) .empty).set destination region[destination],
      ?_, by rw [List.length_set, List.length_set, hlength], fun i hi => ?_, fun i hi => ?_⟩
    · simp only [moveBucket, Option.bind_eq_bind]
      rw [hsource, Option.bind_some, checkedSet_of_lt (by omega), Option.bind_some,
        checkedSet_of_lt (by rw [List.length_set]; omega)]
    · by_cases hsame : i = destination
      · rw [hsame, List.getElem?_set_self (by rw [List.length_set]; omega),
          List.getElem?_eq_getElem hlt]
      · rw [List.getElem?_set_ne (Ne.symm hsame), List.getElem?_set_ne (by omega),
          hfront i (by omega)]
    · rw [List.getElem?_set_ne (by omega), List.getElem?_set_ne (by omega), hback i (by omega)]
  obtain ⟨moved, hloop, hlength, hfront, _⟩ := Loop.counted_spec
    (P := fun destination (buckets : List Bucket) =>
      buckets.length = old.length + region.length ∧ (∀ i < destination, buckets[i]? = region[i]?) ∧
        ∀ i, destination ≤ i → buckets[old.length + i]? = region[i]?)
    hbody (Nat.zero_add region.length) hstart
  refine ⟨moved, hloop, hlength, ?_⟩
  refine List.ext_getElem? fun i => ?_
  by_cases hi : i < region.length
  · rw [List.getElem?_take_of_lt hi, hfront i hi]
  · rw [List.getElem?_eq_none (by rw [List.length_take]; omega), List.getElem?_eq_none (by omega)]

namespace Table

variable {hasher : KeyHash K} {table table' : Table K V}

/-- A rebuilt table has the same entries in a bucket table without deleted buckets. -/
theorem Valid.tryRebuild (h : table.Valid hasher) (sizes : Sizes) (granted : Bool) {newCount : ℕ}
    (hcount : 8 ≤ newCount) (hroom : table.len ≤ usableCapacity newCount) :
    (∃ next, table.tryRebuild hasher sizes granted newCount = .ok next ∧ next.Valid hasher ∧
        table.SameEntries next ∧ next.usableBucketCapacity = usableCapacity newCount) ∨
      table.tryRebuild hasher sizes granted newCount = .error .error := by
  have hlt := usableCapacity_lt hcount
  unfold Table.tryRebuild
  dsimp only
  obtain ⟨capacity, hreserve, hcapacity⟩ | herror :=
    Vec.tryReserve_cases sizes.bucket granted h.buckets_capacity newCount
  · obtain ⟨region, hplaced, hlength, hindexes, hdeleted⟩ :=
      placeEntries hasher table.keys.values table.buckets.values
        (show table.keys.values.length < newCount from Nat.lt_of_le_of_lt hroom hlt)
    obtain ⟨moved, hmoved, hmovedLength, htake⟩ := moveBuckets table.buckets.values region
    rw [hlength] at hmoved htake
    have hfill : fillEmpty { table.buckets with capacity } newCount = .ok { table.buckets with
        values := table.buckets.values ++ List.replicate newCount .empty, capacity } :=
      fillWithin_eq _ { table.buckets with capacity } hcapacity
    have hplaced' : Loop.counted (placeEntry hasher table.keys.values table.buckets.len newCount)
        table.keys.len 0 (table.buckets.values ++ List.replicate newCount .empty) =
        some (table.buckets.values ++ region) := hplaced
    have hmoved' : Loop.counted (moveBucket table.buckets.len) newCount 0
        (table.buckets.values ++ region) = some moved := hmoved
    refine Or.inl ⟨{ table with
      buckets := ⟨region, capacity⟩
      usableBucketCapacity := usableCapacity newCount
      tombstones := 0 }, ?_, ?_, ⟨rfl, rfl⟩, rfl⟩
    · rw [hreserve]
      change (fillEmpty { table.buckets with capacity } newCount >>= _) = _
      rw [hfill]
      change (orTrap (Loop.counted _ _ 0 _) >>= _) = _
      dsimp only
      rw [hplaced', orTrap_some]
      change (orTrap (Loop.counted _ _ 0 _) >>= _) = _
      rw [hmoved', orTrap_some]
      change Except.ok _ = _
      rw [Vec.truncate]
      dsimp only
      rw [htake]
    · refine ⟨h.parallel, ⟨hindexes, h.indexed.distinct⟩, ?_, ?_, hroom, Or.inr ?_, h.keys_capacity,
        h.values_capacity, ?_⟩
      · rw [eq_comm, List.count_eq_zero]
        intro hmem
        obtain ⟨bucket, hbucket⟩ := List.mem_iff_getElem?.mp hmem
        exact hdeleted bucket hbucket
      · rw [Vec.len, hlength]
      · rw [Vec.len, hlength]
        exact hcount
      · rw [Vec.len, hlength]
        dsimp only
        omega
  · rw [herror]
    exact Or.inr rfl

theorem SameEntries.trans {table'' : Table K V} (h : table.SameEntries table')
    (h' : table'.SameEntries table'') : table.SameEntries table'' :=
  ⟨h'.1.trans h.1, h'.2.trans h.2⟩

theorem SameEntries.len_eq (h : table.SameEntries table') : table'.len = table.len := by
  rw [len, len, Vec.len, Vec.len, h.1]

/-- Reserving keeps the entries; if it succeeds, there is room for the additional ones. -/
theorem Valid.tryReserveTable (h : table.Valid hasher) (sizes : Sizes) (grants : Grants) (additional : ℕ) :
    ∃ result next, table.tryReserveTable hasher sizes grants additional = (result, next) ∧
      next.Valid hasher ∧ table.SameEntries next ∧
      (result = .ok () ∧ table.len + additional ≤ next.tableCapacity ∨ result = .error .error) := by
  unfold Table.tryReserveTable
  cases hrequired : checkedAdd u64Max table.len additional with
  | none => exact ⟨_, table, rfl, h, ⟨rfl, rfl⟩, Or.inr rfl⟩
  | some required =>
    obtain ⟨_, rfl⟩ := checkedAdd_eq_some.mp hrequired
    dsimp only
    by_cases henough : table.len + additional ≤ table.tableCapacity
    · rw [if_pos henough]
      exact ⟨_, table, rfl, h, ⟨rfl, rfl⟩, Or.inl ⟨rfl, henough⟩⟩
    · rw [if_neg henough]
      have hrebuilt : (∃ next, (if table.len + additional > table.usableBucketCapacity then (do
            let newCount ← bucketCountFor (table.len + additional) true
            table.tryRebuild hasher sizes grants.buckets newCount)
          else .ok table) = Except.ok next ∧ next.Valid hasher ∧ table.SameEntries next ∧
          table.len + additional ≤ next.usableBucketCapacity) ∨
          (if table.len + additional > table.usableBucketCapacity then (do
            let newCount ← bucketCountFor (table.len + additional) true
            table.tryRebuild hasher sizes grants.buckets newCount)
          else .ok table) = Except.error .error := by
        by_cases hmore : table.len + additional > table.usableBucketCapacity
        · rw [if_pos hmore]
          obtain ⟨newCount, hnewCount, hroom, hsize⟩ | herror :=
            bucketCountFor_cases (table.len + additional) true
          · rw [hnewCount]
            have hcount : 8 ≤ newCount := by
              obtain rfl | hcount := hsize
              · unfold usableCapacity at hroom
                omega
              · exact hcount
            obtain ⟨next, hnext, hvalid, hsame, husable⟩ | herror :=
              h.tryRebuild sizes grants.buckets hcount (by omega)
            · exact Or.inl ⟨next, hnext, hvalid, hsame, by omega⟩
            · exact Or.inr herror
          · rw [herror]
            exact Or.inr rfl
        · rw [if_neg hmore]
          exact Or.inl ⟨table, rfl, h, ⟨rfl, rfl⟩, by omega⟩
      obtain ⟨next, hnext, hvalid, hsame, husable⟩ | herror := hrebuilt
      · rw [hnext]
        dsimp only
        have hlen := hsame.len_eq
        obtain ⟨keysCapacity, hkeys, hkeysRoom⟩ | herror :=
          Vec.tryReserve_cases sizes.key grants.keys hvalid.keys_capacity additional
        · rw [hkeys]
          dsimp only
          have hkeysValid : { next with keys := { next.keys with capacity := keysCapacity } }.Valid hasher :=
            { hvalid with keys_capacity := show next.keys.len ≤ keysCapacity by omega }
          obtain ⟨valuesCapacity, hvalues, hvaluesRoom⟩ | herror :=
            Vec.tryReserve_cases sizes.value grants.values hvalid.values_capacity additional
          · rw [hvalues]
            refine ⟨_, _, rfl, ⟨hvalid.parallel, hvalid.indexed, hvalid.tombstones_eq,
              hvalid.usable_eq, hvalid.occupied_le, hvalid.buckets_size,
              show next.keys.len ≤ keysCapacity by omega,
              show next.values.len ≤ valuesCapacity by omega, hvalid.buckets_capacity⟩, hsame,
              Or.inl ⟨rfl, ?_⟩⟩
            have hparallel : next.values.len = next.keys.len := hvalid.parallel
            have hkeysLen : next.keys.len = table.len := hlen
            unfold tableCapacity
            dsimp only
            split <;> split <;> omega
          · rw [herror]
            exact ⟨_, _, rfl, hkeysValid, hsame, Or.inr rfl⟩
        · rw [herror]
          exact ⟨_, next, rfl, hvalid, hsame, Or.inr rfl⟩
      · rw [herror]
        exact ⟨_, table, rfl, h, ⟨rfl, rfl⟩, Or.inr rfl⟩

theorem Valid.cleanupSparse (h : table.Valid hasher) (sizes : Sizes) (grants : Grants) :
    ∃ next, table.cleanupSparse hasher sizes grants = .ok next ∧ next.Valid hasher ∧
      table.SameEntries next := by
  unfold Table.cleanupSparse
  by_cases hfew : table.tombstones < 8 ∨ table.tombstones ≤ table.len
  · rw [if_pos hfew]
    exact ⟨table, rfl, h, rfl, rfl⟩
  · rw [if_neg hfew]
    have hcount : 8 ≤ table.buckets.len := by
      have hle : table.buckets.values.count .deleted ≤ table.buckets.len := List.count_le_length
      have htombstones := h.tombstones_eq
      have hsize := h.buckets_size
      omega
    have hroom := h.occupied_le
    rw [h.usable_eq] at hroom
    obtain ⟨next, hnext, hvalid, hsame, _⟩ | herror :=
      h.tryRebuild sizes grants.cleanup hcount hroom
    · rw [hnext]
      exact ⟨next, rfl, hvalid, hsame⟩
    · rw [herror]
      exact ⟨table, rfl, h, rfl, rfl⟩

end Table

end Nocter.HashTable
