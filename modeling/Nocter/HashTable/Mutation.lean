import Nocter.HashTable.Growth

/-!
# Mutation

A new entry goes to the end of the dense vectors and into the bucket that its
hash finds. A removed entry is replaced by the last one, whose bucket is
redirected; its own bucket becomes deleted.
-/

namespace Nocter.HashTable

open OpenAddressing

variable {K V : Type}

namespace Table

variable (hasher : KeyHash K) (sizes : Sizes)

/-- A deleted bucket that is taken again counts no longer. -/
def tombstonesWithout (table : Table K V) (bucket : Bucket) : Result ℕ :=
  if bucket = .deleted then orTrap (checkedSub table.tombstones 1) else .ok table.tombstones

def placeNew (table : Table K V) (bucketIndex : ℕ) (key : K) (value : V) : Result (Table K V) := do
  let bucket ← orTrap table.buckets.values[bucketIndex]?
  let entryIndex := table.keys.len
  let keys ← table.keys.push key
  let values ← table.values.push value
  let buckets ← table.buckets.replaceAt bucketIndex (.occupied entryIndex)
  let tombstones ← table.tombstonesWithout bucket
  .ok { table with keys, values, buckets, tombstones }

/-- The value of the key before; a failure leaves the table as far as it was prepared. -/
def tryInsertValue (grants : Grants) (table : Table K V) (key : K) (value : V) :
    Result (Option V) × Table K V :=
  match table.probe hasher key with
  | none => (.error .trap, table)
  | some (.found _ entryIndex _) =>
    match table.values.values[entryIndex]?, table.values.replaceAt entryIndex value with
    | some old, .ok values => (.ok (some old), { table with values })
    | _, _ => (.error .trap, table)
  | some (.vacant _ hash) =>
    match table.cleanupSparse hasher sizes grants with
    | .error failure => (.error failure, table)
    | .ok table =>
      match table.tryReserveTable hasher sizes grants 1 with
      | (.error failure, table) => (.error failure, table)
      | (.ok (), table) =>
        match orTrap (vacantForHash table.buckets.values hash) >>=
            fun bucketIndex => table.placeNew bucketIndex key value with
        | .error failure => (.error failure, table)
        | .ok table => (.ok none, table)

def insert (grants : Grants) (table : Table K V) (key : K) (value : V) :
    Result (Option V) × Table K V :=
  let (result, table) := table.tryInsertValue hasher sizes grants key value
  (orAbort result, table)

def tryInsert (grants : Grants) (table : Table K V) (key : K) (value : V) :
    Result (Option V) × Table K V := table.tryInsertValue hasher sizes grants key value

def reserve (grants : Grants) (table : Table K V) (additional : ℕ) : Result Unit × Table K V :=
  let (result, table) := table.tryReserveTable hasher sizes grants additional
  (orAbort result, table)

def tryReserve (grants : Grants) (table : Table K V) (additional : ℕ) : Result Unit × Table K V :=
  table.tryReserveTable hasher sizes grants additional

/-- The bucket of the last entry, unless that entry is the removed one. -/
def movedBucket (table : Table K V) (entryIndex lastIndex : ℕ) : Result ℕ :=
  if entryIndex ≠ lastIndex then do
    let movedKey ← orTrap table.keys.values[lastIndex]?
    match ← orTrap (table.probe hasher movedKey) with
    | .found foundBucket _ _ => .ok foundBucket
    | .vacant _ _ => .ok table.buckets.len
  else .ok table.buckets.len

/-- The bucket of the removed entry is deleted and the bucket of the moved one redirected. -/
def redirect (buckets : Vec Bucket) (bucketIndex movedBucket entryIndex lastIndex : ℕ) :
    Result (Vec Bucket) := do
  let buckets ← buckets.replaceAt bucketIndex .deleted
  if entryIndex ≠ lastIndex then buckets.replaceAt movedBucket (.occupied entryIndex)
  else .ok buckets

def remove (table : Table K V) (key : K) : Result (Option V × Table K V) := do
  match ← orTrap (table.probe hasher key) with
  | .vacant _ _ => .ok (none, table)
  | .found bucketIndex entryIndex _ =>
    let lastIndex ← orTrap (checkedSub table.keys.len 1)
    let movedBucket ← table.movedBucket hasher entryIndex lastIndex
    match table.keys.swapRemove entryIndex with
    | none => .ok (none, table)
    | some (_, keys) =>
      match table.values.swapRemove entryIndex with
      | none => .ok (none, { table with keys })
      | some (removedValue, values) =>
        let buckets ← redirect table.buckets bucketIndex movedBucket entryIndex lastIndex
        .ok (some removedValue, { table with
          keys, values, buckets, tombstones := table.tombstones + 1 })

def clear (table : Table K V) : Result (Table K V) := do
  let buckets ← orTrap (Loop.counted (fun index buckets => checkedSet buckets index Bucket.empty)
    table.buckets.len 0 table.buckets.values)
  .ok { table with
    keys := table.keys.clear
    values := table.values.clear
    buckets := { table.buckets with values := buckets }
    tombstones := 0 }

end Table

/-- A map from keys to values; equal keys have the same value. -/
abbrev Mapping (K V : Type) := K → Option V

namespace Mapping

variable (hasher : KeyHash K)

def empty : Mapping K V := fun _ => none

def insert (mapping : Mapping K V) (key : K) (value : V) : Mapping K V := fun other =>
  if hasher.eq key other then some value else mapping other

def erase (mapping : Mapping K V) (key : K) : Mapping K V := fun other =>
  if hasher.eq key other then none else mapping other

end Mapping

namespace Table

/-- The entries of the table are the entries of the map. -/
structure Represents (hasher : KeyHash K) (table : Table K V) (mapping : Mapping K V) : Prop where
  present : ∀ {entry : ℕ} {key : K} {value : V}, table.keys.values[entry]? = some key →
    table.values.values[entry]? = some value →
    ∀ {other : K}, hasher.eq key other = true → mapping other = some value
  absent : ∀ {other : K}, (∀ {entry : ℕ} {key : K}, table.keys.values[entry]? = some key →
    hasher.eq key other = false) → mapping other = none

variable {hasher : KeyHash K} {table table' : Table K V} {mapping : Mapping K V}

theorem Represents.sameEntries (h : table.Represents hasher mapping)
    (hsame : table.SameEntries table') : table'.Represents hasher mapping := by
  constructor
  · intro entry key value hkey hvalue
    rw [hsame.1] at hkey
    rw [hsame.2] at hvalue
    exact h.present hkey hvalue
  · intro other hnone
    refine h.absent ?_
    intro entry key hkey
    have hkey' : table'.keys.values[entry]? = some key := by rw [hsame.1, hkey]
    exact hnone hkey'

theorem Valid.value_eq (h : table.Valid hasher) {entry : ℕ} {key : K}
    (hkey : table.keys.values[entry]? = some key) :
    ∃ value, table.values.values[entry]? = some value := by
  have hlt := (List.getElem?_eq_some_iff.mp hkey).1
  exact ⟨_, List.getElem?_eq_getElem (by rw [h.parallel]; exact hlt)⟩

/-- Looking a key up in the table looks it up in the map. -/
theorem Valid.get (h : table.Valid hasher) (hmap : table.Represents hasher mapping) (key : K) :
    table.get hasher key = some (mapping key) := by
  obtain ⟨probe, hprobe, hprobes⟩ := probeParts_probes h.indexed key
  simp only [Table.get, findEntryIndex, Table.probe, Option.bind_eq_bind]
  rw [hprobe, Option.bind_some]
  cases hprobes with
  | found hbucket hkey heq =>
    obtain ⟨value, hvalue⟩ := h.value_eq hkey
    dsimp only
    rw [Option.bind_some]
    dsimp only
    rw [hvalue, Option.bind_some, hmap.present hkey hvalue heq]
  | vacant hnone =>
    dsimp only
    rw [Option.bind_some, hmap.absent hnone]

/-- A stored value is replaced. -/
theorem Valid.replaceValue (h : table.Valid hasher) (hmap : table.Represents hasher mapping)
    {entry : ℕ} {key other : K} (hkey : table.keys.values[entry]? = some other)
    (heq : hasher.eq other key = true) (value : V) :
    ({ table with values := { table.values with values := table.values.values.set entry value } } :
      Table K V).Valid hasher ∧
    ({ table with values := { table.values with values := table.values.values.set entry value } } :
      Table K V).Represents hasher (mapping.insert hasher key value) := by
  have hlt : entry < table.values.values.length := by
    rw [h.parallel]
    exact (List.getElem?_eq_some_iff.mp hkey).1
  have hlength : (table.values.values.set entry value).length = table.values.values.length :=
    List.length_set
  constructor
  · refine ⟨hlength.trans h.parallel, h.indexed, h.tombstones_eq, h.usable_eq, h.occupied_le,
      h.buckets_size, h.keys_capacity, ?_, h.buckets_capacity⟩
    rw [Vec.len, hlength]
    exact h.values_capacity
  · refine ⟨fun {index k v} hk hv {goal} hgoal => ?_, fun {goal} hnone => ?_⟩
    · dsimp only at hk hv
      rw [Mapping.insert]
      by_cases hsame : entry = index
      · rw [← hsame, List.getElem?_set_self hlt] at hv
        rw [← hsame, hkey] at hk
        cases hv
        cases hk
        rw [if_pos (hasher.trans (hasher.symm heq) hgoal)]
      · rw [List.getElem?_set_ne hsame] at hv
        rw [if_neg, hmap.present hk hv hgoal]
        intro hequal
        exact hsame (h.indexed.distinct hkey hk
          (hasher.trans heq (hasher.trans hequal (hasher.symm hgoal))))
    · dsimp only at hnone
      rw [Mapping.insert, if_neg, hmap.absent hnone]
      intro hequal
      have hfalse := hnone hkey
      rw [hasher.trans heq hequal] at hfalse
      cases hfalse

/-- A new entry is placed where its hash finds it. -/
theorem Valid.placeNew (h : table.Valid hasher) (hmap : table.Represents hasher mapping) {key : K}
    (hroom : table.len + 1 ≤ table.tableCapacity)
    (hnew : ∀ {entry : ℕ} {other : K}, table.keys.values[entry]? = some other →
      hasher.eq other key = false) (value : V) {bucket : ℕ}
    (hbucket : bucket < table.buckets.values.length)
    (hvacant : ∀ entry, table.buckets.values[bucket]? ≠ some (.occupied entry))
    (hpath : OnPath table.buckets.values (hasher.hash key) bucket) :
    ∃ next, table.placeNew bucket key value = .ok next ∧ next.Valid hasher ∧
      next.Represents hasher (mapping.insert hasher key value) := by
  have hcapacity : table.len + 1 ≤ table.keys.capacity ∧ table.len + 1 ≤ table.values.capacity ∧
      table.len + 1 ≤ table.usableBucketCapacity := by
    unfold tableCapacity at hroom
    dsimp only at hroom
    split at hroom <;> split at hroom <;> omega
  have hparallel := h.parallel
  have hvaluesLen : table.values.len = table.len := hparallel
  have hkeysLen : table.keys.len = table.len := rfl
  have htombstones := h.tombstones_eq
  have hold : table.buckets.values[bucket]? = some table.buckets.values[bucket] :=
    List.getElem?_eq_getElem hbucket
  have hcount : (table.buckets.values.set bucket (.occupied table.len)).count .deleted =
      table.buckets.values.count .deleted -
        if table.buckets.values[bucket] = .deleted then 1 else 0 := by
    rw [List.count_set hbucket]
    simp
  have hpositive : table.buckets.values[bucket] = .deleted → 1 ≤ table.tombstones := by
    intro hdeleted
    rw [htombstones]
    exact List.count_pos_iff.mpr (hdeleted ▸ List.getElem_mem hbucket)
  have htombstonesNext : table.tombstonesWithout table.buckets.values[bucket] =
      .ok ((table.buckets.values.set bucket (.occupied table.len)).count .deleted) := by
    rw [hcount, tombstonesWithout]
    by_cases hdeleted : table.buckets.values[bucket] = .deleted
    · rw [if_pos hdeleted, checkedSub_of_le (hpositive hdeleted), orTrap_some, if_pos hdeleted,
        htombstones]
    · rw [if_neg hdeleted, if_neg hdeleted, Nat.sub_zero, htombstones]
  have hkeys : table.keys.push key =
      .ok { table.keys with values := table.keys.values ++ [key] } := by
    rw [Vec.push, Vec.pushWithin, if_pos (by omega)]
  have hvalues : table.values.push value =
      .ok { table.values with values := table.values.values ++ [value] } := by
    rw [Vec.push, Vec.pushWithin, if_pos (by omega)]
  have hbuckets : table.buckets.replaceAt bucket (.occupied table.keys.len) = .ok { table.buckets with
      values := table.buckets.values.set bucket (.occupied table.len) } := by
    rw [Vec.replaceAt, checkedSet_of_lt hbucket, orTrap_some]
    rfl
  refine ⟨⟨{ table.keys with values := table.keys.values ++ [key] },
    { table.values with values := table.values.values ++ [value] },
    { table.buckets with values := table.buckets.values.set bucket (.occupied table.len) },
    table.usableBucketCapacity,
    (table.buckets.values.set bucket (.occupied table.len)).count .deleted⟩, ?_, ?_, ?_⟩
  · unfold Table.placeNew
    rw [hold, orTrap_some]
    change (table.keys.push key >>= _) = _
    rw [hkeys]
    change (table.values.push value >>= _) = _
    rw [hvalues]
    change (table.buckets.replaceAt bucket _ >>= _) = _
    rw [hbuckets]
    change (table.tombstonesWithout table.buckets.values[bucket] >>= _) = _
    rw [htombstonesNext]
    rfl
  · have hindexes := h.indexed.indexes.append hbucket hvacant hpath
    rw [List.length_map] at hindexes
    have hlength : (table.buckets.values.set bucket (.occupied table.len)).length =
        table.buckets.values.length := List.length_set
    refine ⟨?_, ⟨?_, ?_⟩, rfl, ?_, ?_, ?_, ?_, ?_, ?_⟩
    · dsimp only
      rw [List.length_append, List.length_append, hparallel]
      rfl
    · dsimp only
      rw [List.map_append]
      exact hindexes
    · intro entry entry' k k' hk hk' hequal
      dsimp only at hk hk'
      have hcases : ∀ {e : ℕ} {x : K}, (table.keys.values ++ [key])[e]? = some x →
          table.keys.values[e]? = some x ∨ e = table.len ∧ x = key := by
        intro e x hx
        by_cases hlt : e < table.keys.values.length
        · rw [List.getElem?_append_left hlt] at hx
          exact Or.inl hx
        · have hle := (List.getElem?_eq_some_iff.mp hx).1
          rw [List.length_append, List.length_singleton] at hle
          obtain rfl : e = table.keys.values.length := by omega
          rw [List.getElem?_append_right (Nat.le_refl _), Nat.sub_self] at hx
          cases hx
          exact Or.inr ⟨rfl, rfl⟩
      obtain hold | ⟨hentry, hlast⟩ := hcases hk
      · obtain hold' | ⟨_, hlast'⟩ := hcases hk'
        · exact h.indexed.distinct hold hold' hequal
        · have hfalse := hnew hold
          rw [hlast'] at hequal
          rw [hequal] at hfalse
          cases hfalse
      · obtain hold' | ⟨hentry', _⟩ := hcases hk'
        · have hfalse := hnew hold'
          rw [hlast] at hequal
          rw [hasher.symm hequal] at hfalse
          cases hfalse
        · rw [hentry, hentry']
    · rw [Vec.len, hlength]
      exact h.usable_eq
    · rw [len, Vec.len, List.length_append]
      exact hcapacity.2.2
    · rw [Vec.len, hlength]
      exact h.buckets_size
    · rw [Vec.len, List.length_append]
      exact hcapacity.1
    · rw [Vec.len, List.length_append, hparallel]
      exact hcapacity.2.1
    · rw [Vec.len, hlength]
      exact h.buckets_capacity
  · refine ⟨fun {entry k v} hk hv {other} hequal => ?_, fun {other} hnone => ?_⟩
    · dsimp only at hk hv
      rw [Mapping.insert]
      by_cases hlt : entry < table.keys.values.length
      · rw [List.getElem?_append_left hlt] at hk
        rw [List.getElem?_append_left (by rw [hparallel]; exact hlt)] at hv
        rw [if_neg, hmap.present hk hv hequal]
        intro hother
        have hfalse := hnew hk
        rw [hasher.trans hequal (hasher.symm hother)] at hfalse
        cases hfalse
      · have hle := (List.getElem?_eq_some_iff.mp hk).1
        rw [List.length_append, List.length_singleton] at hle
        obtain rfl : entry = table.keys.values.length := by omega
        rw [List.getElem?_append_right (Nat.le_refl _), Nat.sub_self] at hk
        rw [List.getElem?_append_right (by rw [hparallel]), hparallel, Nat.sub_self] at hv
        cases hk
        cases hv
        rw [if_pos hequal]
    · dsimp only at hnone
      have hlast : (table.keys.values ++ [key])[table.keys.values.length]? = some key := by
        rw [List.getElem?_append_right (Nat.le_refl _), Nat.sub_self]
        rfl
      have hother := hnone hlast
      rw [Mapping.insert, if_neg (by rw [hother]; decide)]
      refine hmap.absent ?_
      intro entry k hk
      have hk' : (table.keys.values ++ [key])[entry]? = some k := by
        rw [List.getElem?_append_left (List.getElem?_eq_some_iff.mp hk).1, hk]
      exact hnone hk'

/-- An insertion returns the value before; a failed one changes no mapping. -/
theorem Valid.tryInsertValue (h : table.Valid hasher) (hmap : table.Represents hasher mapping)
    (sizes : Sizes) (grants : Grants) (key : K) (value : V) :
    ∃ result next, table.tryInsertValue hasher sizes grants key value = (result, next) ∧
      next.Valid hasher ∧
      (result = .ok (mapping key) ∧ next.Represents hasher (mapping.insert hasher key value) ∨
        result = .error .error ∧ next.Represents hasher mapping) := by
  obtain ⟨probe, hprobe, hprobes⟩ := probeParts_probes h.indexed key
  have hprobe' : table.probe hasher key = some probe := hprobe
  unfold Table.tryInsertValue
  rw [hprobe']
  cases hprobes with
  | found hbucket hkey heq =>
    obtain ⟨old, hold⟩ := h.value_eq hkey
    have hlt := (List.getElem?_eq_some_iff.mp hold).1
    obtain ⟨hvalid, hnext⟩ := h.replaceValue hmap hkey heq value
    dsimp only
    rw [hold, Vec.replaceAt, checkedSet_of_lt hlt, orTrap_some]
    refine ⟨_, _, rfl, hvalid, Or.inl ⟨?_, hnext⟩⟩
    rw [hmap.present hkey hold heq]
  | vacant hnone =>
    dsimp only
    obtain ⟨cleaned, hcleaned, hcleanedValid, hcleanedSame⟩ := h.cleanupSparse sizes grants
    rw [hcleaned]
    dsimp only
    obtain ⟨result, reserved, hreserved, hreservedValid, hreservedSame, hresult⟩ :=
      hcleanedValid.tryReserveTable sizes grants 1
    have hreservedMap := (hmap.sameEntries hcleanedSame).sameEntries hreservedSame
    rw [hreserved]
    obtain ⟨rfl, hroom⟩ | rfl := hresult
    · dsimp only
      rw [← hreservedSame.len_eq] at hroom
      have husable : reserved.len + 1 ≤ usableCapacity reserved.buckets.len := by
        rw [← hreservedValid.usable_eq]
        unfold tableCapacity at hroom
        dsimp only at hroom
        split at hroom <;> split at hroom <;> omega
      have hcount : 8 ≤ reserved.buckets.len := by
        obtain hzero | hcount := hreservedValid.buckets_size
        · rw [hzero] at husable
          unfold usableCapacity at husable
          omega
        · exact hcount
      have hspare := usableCapacity_lt hcount
      have hlt : (reserved.keys.values.map hasher.hash).length < reserved.buckets.values.length := by
        rw [List.length_map]
        exact Nat.lt_of_lt_of_le husable hspare.le
      obtain ⟨bucket, hvacant, hbucket, hfree, hpath⟩ :=
        vacantForHash_spec hreservedValid.indexed.indexes hlt (hasher.hash key)
      have hsame := hcleanedSame.trans hreservedSame
      have hnew : ∀ {entry : ℕ} {other : K}, reserved.keys.values[entry]? = some other →
          hasher.eq other key = false := by
        intro entry other hother
        rw [hsame.1] at hother
        exact hnone hother
      obtain ⟨next, hnext, hvalid, hrepresents⟩ :=
        hreservedValid.placeNew hreservedMap hroom hnew value hbucket hfree hpath
      rw [hvacant, orTrap_some]
      change ∃ result next', (match reserved.placeNew bucket key value with
        | .error failure => (Except.error failure, reserved)
        | .ok table => (Except.ok none, table)) = (result, next') ∧ _
      rw [hnext]
      refine ⟨_, _, rfl, hvalid, Or.inl ⟨?_, hrepresents⟩⟩
      rw [hmap.absent hnone]
    · exact ⟨_, _, rfl, hreservedValid, Or.inr ⟨rfl, hreservedMap⟩⟩

end Table

/-- The buckets after a removal. -/
def redirected (buckets : List Bucket) (bucket moved entry last : ℕ) : List Bucket :=
  if entry = last then buckets.set bucket .deleted
  else (buckets.set bucket .deleted).set moved (.occupied entry)

theorem length_redirected (buckets : List Bucket) (bucket moved entry last : ℕ) :
    (redirected buckets bucket moved entry last).length = buckets.length := by
  unfold redirected
  split
  · exact List.length_set
  · rw [List.length_set, List.length_set]

/-- A removal leaves one deleted bucket more. -/
theorem count_redirected {buckets : List Bucket} {bucket moved entry last : ℕ}
    (hbucket : buckets[bucket]? = some (.occupied entry))
    (hmoved : entry ≠ last → buckets[moved]? = some (.occupied last)) :
    (redirected buckets bucket moved entry last).count .deleted = buckets.count .deleted + 1 := by
  obtain ⟨hlt, hat⟩ := List.getElem?_eq_some_iff.mp hbucket
  have hdeleted : (buckets.set bucket .deleted).count .deleted = buckets.count .deleted + 1 := by
    rw [List.count_set hlt, hat]
    simp
  unfold redirected
  split
  · exact hdeleted
  · next hne =>
    obtain ⟨hmovedLt, hmovedAt⟩ := List.getElem?_eq_some_iff.mp (hmoved hne)
    have hother : bucket ≠ moved := by
      rintro rfl
      rw [hat] at hmovedAt
      exact hne (Bucket.occupied.inj hmovedAt)
    rw [List.count_set (by rw [List.length_set]; exact hmovedLt), List.getElem_set_ne hother,
      hmovedAt, hdeleted]
    simp

theorem Indexed.redirect {hasher : KeyHash K} {buckets : List Bucket} {keys : List K} {last : K}
    (h : Indexed hasher buckets (keys ++ [last])) {bucket moved entry : ℕ}
    (hentry : entry ≤ keys.length) (hbucket : buckets[bucket]? = some (.occupied entry))
    (hmoved : entry ≠ keys.length → buckets[moved]? = some (.occupied keys.length)) :
    Indexed hasher (redirected buckets bucket moved entry keys.length)
      (Vec.swapOut keys last entry) := by
  have hindexes := h.indexes
  rw [List.map_append, List.map_singleton] at hindexes
  have hlength : (keys.map hasher.hash).length = keys.length := List.length_map _
  constructor
  · unfold redirected Vec.swapOut
    by_cases hsame : entry = keys.length
    · rw [if_pos hsame, if_pos hsame]
      exact hindexes.removeLast (by rw [hlength, ← hsame, hbucket])
    · rw [if_neg hsame, if_neg hsame, List.map_set]
      exact hindexes.removeSwap (by omega) hbucket (by rw [hlength, hmoved hsame])
  · intro e e' k k' hk hk' hequal
    have hlt := (List.getElem?_eq_some_iff.mp hk).1
    have hlt' := (List.getElem?_eq_some_iff.mp hk').1
    rw [Vec.length_swapOut] at hlt hlt'
    rw [Vec.swapOut_getElem? keys last entry hlt] at hk
    rw [Vec.swapOut_getElem? keys last entry hlt'] at hk'
    exact Vec.swapSource_injective hlt hlt' (h.distinct hk hk' hequal)

namespace Table

variable {hasher : KeyHash K} {table table' : Table K V} {mapping : Mapping K V}

theorem redirect_eq {buckets : Vec Bucket} {bucket moved entry last : ℕ}
    (hbucket : buckets.values[bucket]? = some (.occupied entry))
    (hmoved : entry ≠ last → buckets.values[moved]? = some (.occupied last)) :
    redirect buckets bucket moved entry last =
      .ok { buckets with values := redirected buckets.values bucket moved entry last } := by
  have hlt := (List.getElem?_eq_some_iff.mp hbucket).1
  unfold redirect redirected
  rw [Vec.replaceAt, checkedSet_of_lt hlt, orTrap_some]
  by_cases hsame : entry = last
  · rw [if_pos hsame]
    simp [hsame, bind, Except.bind]
  · have hmovedLt := (List.getElem?_eq_some_iff.mp (hmoved hsame)).1
    have hset : checkedSet (buckets.values.set bucket Bucket.deleted) moved (.occupied entry) =
        some ((buckets.values.set bucket .deleted).set moved (.occupied entry)) :=
      checkedSet_of_lt (by rw [List.length_set]; exact hmovedLt) _
    rw [if_neg hsame]
    simp [hsame, bind, Except.bind, Vec.replaceAt, hset]

/-- The bucket of the last entry is found by its own key. -/
theorem Valid.movedBucket (h : table.Valid hasher) {keys : List K} {last : K}
    (hkeys : table.keys.values = keys ++ [last]) (entry : ℕ) :
    ∃ moved, table.movedBucket hasher entry keys.length = .ok moved ∧
      (entry ≠ keys.length → table.buckets.values[moved]? = some (.occupied keys.length)) := by
  have hlast : table.keys.values[keys.length]? = some last := by
    rw [hkeys, List.getElem?_append_right (Nat.le_refl _), Nat.sub_self]
    rfl
  unfold Table.movedBucket
  by_cases hsame : entry = keys.length
  · rw [if_neg (by simpa using hsame)]
    exact ⟨_, rfl, fun hne => absurd hsame hne⟩
  · rw [if_pos hsame, hlast, orTrap_some]
    obtain ⟨probe, hprobe, hprobes⟩ := probeParts_probes h.indexed last
    have hprobe' : table.probe hasher last = some probe := hprobe
    change ∃ moved, (orTrap (table.probe hasher last) >>= _) = _ ∧ _
    rw [hprobe', orTrap_some]
    cases hprobes with
    | found hbucket hkey heq =>
      refine ⟨_, rfl, fun _ => ?_⟩
      rw [hbucket, h.indexed.distinct hkey hlast heq]
    | vacant hnone =>
      have hfalse := hnone hlast
      rw [hasher.refl] at hfalse
      cases hfalse

/-- A removal returns the value before and forgets the key. -/
theorem Valid.remove (h : table.Valid hasher) (hmap : table.Represents hasher mapping) (key : K) :
    ∃ next, table.remove hasher key = .ok (mapping key, next) ∧ next.Valid hasher ∧
      next.Represents hasher (mapping.erase hasher key) := by
  obtain ⟨probe, hprobe, hprobes⟩ := probeParts_probes h.indexed key
  have hprobe' : table.probe hasher key = some probe := hprobe
  unfold Table.remove
  rw [hprobe', orTrap_some]
  cases hprobes with
  | vacant hnone =>
    refine ⟨table, ?_, h, ⟨?_, ?_⟩⟩
    · rw [hmap.absent hnone]
      rfl
    · intro entry k v hk hv other hequal
      rw [Mapping.erase, if_neg, hmap.present hk hv hequal]
      intro hother
      have hfalse := hnone hk
      rw [hasher.trans hequal (hasher.symm hother)] at hfalse
      cases hfalse
    · intro other hother
      rw [Mapping.erase, hmap.absent hother, ite_self]
  | @found bucket entry stored hbucket hkey heq =>
    have hentryLt := (List.getElem?_eq_some_iff.mp hkey).1
    obtain ⟨keys, last, hkeys⟩ : ∃ keys last, table.keys.values = keys ++ [last] :=
      ⟨_, _, (List.dropLast_append_getLast (List.ne_nil_of_length_pos (by omega))).symm⟩
    have hkeysLength : table.keys.values.length = keys.length + 1 := by
      rw [hkeys, List.length_append, List.length_singleton]
    obtain ⟨values, lastValue, hvalues⟩ : ∃ values lastValue,
        table.values.values = values ++ [lastValue] :=
      ⟨_, _, (List.dropLast_append_getLast (List.ne_nil_of_length_pos
        (by rw [h.parallel]; omega))).symm⟩
    have hlength : values.length = keys.length := by
      have hparallel := h.parallel
      rw [hvalues, List.length_append, List.length_singleton] at hparallel
      omega
    have hentry : entry ≤ keys.length := by omega
    obtain ⟨moved, hmovedBucket, hmoved⟩ := h.movedBucket hkeys entry
    obtain ⟨removedKey, _, hswapKeys⟩ := Vec.swapRemove_eq hkeys hentry
    obtain ⟨removedValue, hremoved, hswapValues⟩ :=
      Vec.swapRemove_eq hvalues (show entry ≤ values.length by omega)
    have hlast : checkedSub table.keys.len 1 = some keys.length := by
      rw [checkedSub_of_le (by rw [Vec.len]; omega), Vec.len, hkeysLength, Nat.add_sub_cancel]
    refine ⟨{ table with
      keys := { table.keys with values := Vec.swapOut keys last entry }
      values := { table.values with values := Vec.swapOut values lastValue entry }
      buckets := { table.buckets with
        values := redirected table.buckets.values bucket moved entry keys.length }
      tombstones := table.tombstones + 1 }, ?_, ?_, ?_⟩
    · change (orTrap (checkedSub table.keys.len 1) >>= _) = _
      rw [hlast, orTrap_some]
      change (table.movedBucket hasher entry keys.length >>= _) = _
      rw [hmovedBucket]
      dsimp only [bind, Except.bind]
      rw [hswapKeys, hswapValues]
      dsimp only
      rw [redirect_eq hbucket hmoved]
      rw [← hvalues] at hremoved
      rw [hmap.present hkey hremoved heq]
    · have hindexed := h.indexed
      rw [hkeys] at hindexed
      have hlen : table.len = keys.length + 1 := hkeysLength
      have hkeysCapacity := h.keys_capacity
      have hvaluesCapacity := h.values_capacity
      have hvaluesLen : table.values.len = keys.length + 1 := h.parallel.trans hkeysLength
      have hoccupied := h.occupied_le
      refine ⟨?_, hindexed.redirect hentry hbucket hmoved, ?_, ?_, ?_, ?_, ?_, ?_, ?_⟩
      · rw [Vec.length_swapOut, Vec.length_swapOut, hlength]
      · rw [count_redirected hbucket hmoved, h.tombstones_eq]
      · rw [Vec.len, length_redirected]
        exact h.usable_eq
      · rw [len, Vec.len, Vec.length_swapOut]
        dsimp only
        omega
      · rw [Vec.len, length_redirected]
        exact h.buckets_size
      · rw [Vec.len, Vec.length_swapOut]
        rw [Vec.len] at hkeysCapacity
        dsimp only
        omega
      · rw [Vec.len, Vec.length_swapOut]
        dsimp only
        omega
      · rw [Vec.len, length_redirected]
        exact h.buckets_capacity
    · constructor
      · intro e k v hk hv other hequal
        dsimp only at hk hv
        have hlt := (List.getElem?_eq_some_iff.mp hk).1
        rw [Vec.length_swapOut] at hlt
        rw [Vec.swapOut_getElem? keys last entry hlt, ← hkeys] at hk
        rw [Vec.swapOut_getElem? values lastValue entry (by rw [hlength]; exact hlt), ← hvalues,
          hlength] at hv
        rw [Mapping.erase, if_neg, hmap.present hk hv hequal]
        intro hother
        exact Vec.swapSource_ne hlt (h.indexed.distinct hk hkey
          (hasher.trans (hasher.trans hequal (hasher.symm hother)) (hasher.symm heq)))
      · intro other hnone
        dsimp only at hnone
        rw [Mapping.erase]
        split
        · rfl
        · next hother =>
          refine hmap.absent ?_
          intro e k hk
          have hlt := (List.getElem?_eq_some_iff.mp hk).1
          by_cases hsame : e = entry
          · rw [hsame, hkey] at hk
            cases hk
            rw [Bool.eq_false_iff]
            intro hequal
            exact hother (hasher.trans (hasher.symm heq) hequal)
          · obtain ⟨i, hi, hsource⟩ := Vec.exists_swapSource hentry (by omega) hsame
            have hi' : (Vec.swapOut keys last entry)[i]? = some k := by
              rw [Vec.swapOut_getElem? keys last entry hi, hsource, ← hkeys, hk]
            exact hnone hi'

/-- Every bucket is emptied. -/
theorem clearBuckets (buckets : List Bucket) :
    Loop.counted (fun index buckets => checkedSet buckets index Bucket.empty) buckets.length 0
      buckets = some (List.replicate buckets.length .empty) := by
  have hbody : ∀ i (cleared : List Bucket), i < buckets.length →
      (cleared.length = buckets.length ∧ ∀ j < i, cleared[j]? = some .empty) →
      ∃ next, checkedSet cleared i Bucket.empty = some next ∧ next.length = buckets.length ∧
        ∀ j < i + 1, next[j]? = some .empty := by
    rintro i cleared hi ⟨hlength, hbefore⟩
    refine ⟨_, checkedSet_of_lt (by omega) _, by rw [List.length_set, hlength], fun j hj => ?_⟩
    by_cases hsame : j = i
    · rw [hsame, List.getElem?_set_self (by omega)]
    · rw [List.getElem?_set_ne (Ne.symm hsame), hbefore j (by omega)]
  obtain ⟨cleared, hcleared, hlength, hempty⟩ := Loop.counted_spec
    (P := fun i (cleared : List Bucket) =>
      cleared.length = buckets.length ∧ ∀ j < i, cleared[j]? = some .empty)
    hbody (Nat.zero_add buckets.length) ⟨rfl, fun j hj => absurd hj (Nat.not_lt_zero j)⟩
  rw [hcleared]
  congr 1
  refine List.ext_getElem? fun j => ?_
  rw [List.getElem?_replicate]
  split
  · next hj => exact hempty j hj
  · exact List.getElem?_eq_none (by omega)

theorem Represents.none {keys : Vec K} {values : Vec V} {buckets : Vec Bucket} {usable : ℕ}
    (hkeys : keys.values = []) :
    (⟨keys, values, buckets, usable, 0⟩ : Table K V).Represents hasher .empty := by
  constructor
  · intro entry key value hkey
    dsimp only at hkey
    rw [hkeys] at hkey
    cases hkey
  · intro other _
    rfl

/-- A table without entries over empty buckets. -/
theorem Valid.vacant {keys : Vec K} {values : Vec V} {buckets : Vec Bucket} {count : ℕ}
    (hkeys : keys.values = []) (hvalues : values.values = [])
    (hbuckets : buckets.values = List.replicate count .empty) (hcount : count = 0 ∨ 8 ≤ count)
    (hcapacity : count ≤ buckets.capacity) :
    (⟨keys, values, buckets, usableCapacity count, 0⟩ : Table K V).Valid hasher := by
  have hlen : buckets.len = count := by
    rw [Vec.len, hbuckets, List.length_replicate]
  refine ⟨?_, ⟨?_, ?_⟩, ?_, ?_, ?_, ?_, ?_, ?_, ?_⟩
  · rw [hkeys, hvalues]
    rfl
  · rw [hkeys, hbuckets]
    exact Indexes.empty count
  · intro entry entry' key key' hkey
    rw [hkeys] at hkey
    cases hkey
  · rw [hbuckets, List.count_replicate]
    rfl
  · rw [hlen]
  · rw [len, Vec.len, hkeys]
    exact Nat.zero_le _
  · rw [hlen]
    exact hcount
  · rw [Vec.len, hkeys]
    exact Nat.zero_le _
  · rw [Vec.len, hvalues]
    exact Nat.zero_le _
  · rw [hlen]
    exact hcapacity

theorem Valid.clear (h : table.Valid hasher) :
    ∃ next, table.clear = .ok next ∧ next.Valid hasher ∧ next.Represents hasher .empty := by
  refine ⟨⟨table.keys.clear, table.values.clear,
    { table.buckets with values := List.replicate table.buckets.len .empty },
    table.usableBucketCapacity, 0⟩, ?_, ?_, Represents.none rfl⟩
  · unfold Table.clear
    rw [Vec.len, clearBuckets, orTrap_some]
    rfl
  · rw [h.usable_eq]
    exact Valid.vacant rfl rfl rfl h.buckets_size h.buckets_capacity

end Table

end Nocter.HashTable
