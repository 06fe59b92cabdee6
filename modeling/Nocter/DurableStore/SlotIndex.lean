import Mathlib.Data.List.Perm.Basic
import Nocter.HashTable.Probing

/-!
# The hash index of the store

The index maps a hash to the slots of the keys with that hash. All slots of one hash share one
bucket. A removed hash leaves a deleted bucket behind, which later insertions on the way take.
A result of `none` stands for a trap or an invariant abort.
-/

namespace Nocter.DurableStore

open OpenAddressing HashTable

inductive StoreIndexBucket where
  | empty
  | deleted
  | occupied (hash : ℕ) (slots : List ℕ)
  deriving DecidableEq

inductive StoreIndexProbe where
  | found (bucketIndex : ℕ)
  | vacant (bucketIndex : ℕ)

/-- The sizes of vectors are natural numbers: a vector whose length overflows does not fit into
memory. -/
structure StoreIndex where
  buckets : List StoreIndexBucket
  usableCapacity : ℕ
  hashes : ℕ
  tombstones : ℕ

def storeIndexUsableCapacity (bucketCount : ℕ) : ℕ := bucketCount - bucketCount / 4

/-- One pass of the loop of `store_index_bucket_count`. -/
def doubleStoreIndex (minimum bucketCount : ℕ) : ℕ ⊕ ℕ :=
  if storeIndexUsableCapacity bucketCount < minimum then .inl (bucketCount + bucketCount)
  else .inr bucketCount

def storeIndexBucketCount (minimum : ℕ) : Option ℕ :=
  if minimum = 0 then some 0 else Loop.within (doubleStoreIndex minimum) (minimum + 1) 8

def newStoreIndex (minimum : ℕ) : Option StoreIndex := do
  let bucketCount ← storeIndexBucketCount minimum
  some ⟨List.replicate bucketCount .empty,
    if bucketCount = 0 then 0 else storeIndexUsableCapacity bucketCount, 0, 0⟩

/-- `mem.growth_capacity`. -/
def growthCapacity (current required : ℕ) : ℕ :=
  if required ≤ current then current
  else if current + current < required then required
  else current + current

/-- `Vec.swap_remove` at an index of the vector. -/
def swapRemove (values : List ℕ) (index : ℕ) : List ℕ :=
  match values.getLast? with
  | none => values
  | some last => (values.set index last).dropLast

namespace StoreIndex

/-- One pass of the loop of `probe_store_index`. -/
def probeBucket (buckets : List StoreIndexBucket) (hash : ℕ) (_examined : ℕ) (loop : ProbeLoop) :
    Option (ProbeLoop ⊕ StoreIndexProbe) :=
  match buckets[loop.bucketIndex]? with
  | none => none
  | some .empty => some (.inr (.vacant (loop.free buckets.length)))
  | some .deleted => some (.inl ((loop.deleted buckets.length).next buckets.length))
  | some (.occupied storedHash _) =>
    if storedHash = hash then some (.inr (.found loop.bucketIndex))
    else some (.inl (loop.next buckets.length))

def probe (index : StoreIndex) (hash : ℕ) : Option StoreIndexProbe :=
  let bucketCount := index.buckets.length
  if bucketCount = 0 then some (.vacant 0)
  else do
    match ← Loop.countedUntil (probeBucket index.buckets hash) bucketCount 0
      ⟨hash % bucketCount, bucketCount⟩ with
    | .inr probe => some probe
    | .inl loop =>
      if loop.firstDeleted < bucketCount then some (.vacant loop.firstDeleted)
      else some (.vacant 0)

/-- The count of tombstones after one bucket is taken. -/
def tombstonesWithout (index : StoreIndex) (previous : StoreIndexBucket) : Option ℕ :=
  if previous = .deleted then checkedSub index.tombstones 1 else some index.tombstones

/-- `insert_store_index_bucket`. -/
def insertBucket (index : StoreIndex) (hash : ℕ) (slots : List ℕ) :
    Option (Bool × StoreIndex) := do
  match ← index.probe hash with
  | .found _ => some (false, index)
  | .vacant location => do
    let previous ← index.buckets[location]?
    let tombstones ← index.tombstonesWithout previous
    some (true, { index with
      buckets := index.buckets.set location (.occupied hash slots)
      hashes := index.hashes + 1
      tombstones })

/-- One pass of the loop of `rebuild_store_index`. -/
def moveBucket (index : StoreIndex) : StoreIndexBucket → Option StoreIndex
  | .occupied hash slots => do
    let (inserted, index) ← index.insertBucket hash slots
    if inserted then some index else none
  | _ => some index

/-- `rebuild_store_index`. The old buckets are popped from the end. -/
def rebuild (index : StoreIndex) (bucketCount : ℕ) : Option StoreIndex :=
  index.buckets.reverse.foldlM moveBucket
    ⟨List.replicate bucketCount .empty, storeIndexUsableCapacity bucketCount, 0, 0⟩

/-- `prepare_store_index_insert`. -/
def prepareInsert (index : StoreIndex) : Option StoreIndex :=
  if index.hashes + 1 > index.usableCapacity then
    index.rebuild (if index.buckets.length = 0 then 8
      else growthCapacity index.buckets.length (index.hashes + 1))
  else if index.tombstones > index.hashes ∧ index.tombstones > 8 then
    index.rebuild index.buckets.length
  else some index

def candidates (index : StoreIndex) (hash : ℕ) : Option (Option (List ℕ)) := do
  match ← index.probe hash with
  | .vacant _ => some none
  | .found bucketIndex =>
    match ← index.buckets[bucketIndex]? with
    | .occupied _ slots => some (some slots)
    | _ => some none

def add (index : StoreIndex) (hash slot : ℕ) : Option (Bool × StoreIndex) := do
  match ← index.probe hash with
  | .found bucketIndex =>
    match ← index.buckets[bucketIndex]? with
    | .occupied storedHash slots =>
      if slot ∈ slots then some (false, index)
      else some (true, { index with
        buckets := index.buckets.set bucketIndex (.occupied storedHash (slots ++ [slot])) })
    | _ => some (false, index)
  | .vacant _ => do
    let index ← index.prepareInsert
    index.insertBucket hash [slot]

def remove (index : StoreIndex) (hash slot : ℕ) : Option (Bool × StoreIndex) := do
  match ← index.probe hash with
  | .vacant _ => some (false, index)
  | .found bucketIndex =>
    match ← index.buckets[bucketIndex]? with
    | .occupied storedHash slots =>
      match slots.idxOf? slot with
      | none => some (false, index)
      | some candidate =>
        let slots := swapRemove slots candidate
        if slots.isEmpty then do
          let hashes ← checkedSub index.hashes 1
          some (true, { index with
            buckets := index.buckets.set bucketIndex .deleted
            hashes
            tombstones := index.tombstones + 1 })
        else some (true, { index with
          buckets := index.buckets.set bucketIndex (.occupied storedHash slots) })
    | _ => some (false, index)

end StoreIndex

/-- The bucket without its slots. -/
def StoreIndexBucket.shape : StoreIndexBucket → Bucket
  | .empty => .empty
  | .deleted => .deleted
  | .occupied hash _ => .occupied hash

def StoreIndexBucket.hash? : StoreIndexBucket → Option ℕ
  | .occupied hash _ => some hash
  | _ => none

/-- The hashes of the occupied buckets. -/
def storedHashes (buckets : List StoreIndexBucket) : List ℕ :=
  buckets.filterMap StoreIndexBucket.hash?

namespace StoreIndex

/-- Every hash has one bucket on its way, with its slots in it, and the counters are exact. -/
structure Valid (index : StoreIndex) : Prop where
  distinct : (storedHashes index.buckets).Nodup
  hashes_eq : index.hashes = (storedHashes index.buckets).length
  tombstones_eq : index.tombstones = index.buckets.count .deleted
  usable_eq : index.usableCapacity = storeIndexUsableCapacity index.buckets.length
  size : index.buckets.length = 0 ∨ 8 ≤ index.buckets.length
  path : ∀ {bucket hash : ℕ} {slots : List ℕ},
    index.buckets[bucket]? = some (.occupied hash slots) →
      OnPath (index.buckets.map StoreIndexBucket.shape) hash bucket
  slots : ∀ {hash : ℕ} {slots : List ℕ}, .occupied hash slots ∈ index.buckets →
    slots ≠ [] ∧ slots.Nodup

end StoreIndex

section Buckets

variable {buckets : List StoreIndexBucket}

theorem storedHashes_append (before after : List StoreIndexBucket) :
    storedHashes (before ++ after) = storedHashes before ++ storedHashes after :=
  List.filterMap_append

theorem storedHashes_cons (bucket : StoreIndexBucket) (after : List StoreIndexBucket) :
    storedHashes (bucket :: after) = bucket.hash?.toList ++ storedHashes after := by
  rw [storedHashes, List.filterMap_cons]
  cases bucket <;> rfl

theorem mem_storedHashes {hash : ℕ} :
    hash ∈ storedHashes buckets ↔ ∃ slots, .occupied hash slots ∈ buckets := by
  rw [storedHashes, List.mem_filterMap]
  constructor
  · rintro ⟨bucket, hmem, hhash⟩
    cases bucket with
    | empty => cases hhash
    | deleted => cases hhash
    | occupied stored slots =>
      obtain rfl := Option.some.inj hhash
      exact ⟨slots, hmem⟩
  · rintro ⟨slots, hmem⟩
    exact ⟨_, hmem, rfl⟩

/-- Every bucket is empty, deleted or occupied. -/
theorem length_buckets (buckets : List StoreIndexBucket) :
    (storedHashes buckets).length + buckets.count .deleted + buckets.count .empty =
      buckets.length := by
  induction buckets with
  | nil => rfl
  | cons bucket buckets ih =>
    rw [storedHashes_cons, List.length_append, List.count_cons, List.count_cons, List.length_cons]
    cases bucket <;> simp [StoreIndexBucket.hash?] <;> omega

end Buckets

/-- A value apart from those before and after it. -/
theorem split_at {α : Type} {values : List α} {value : α} {index : ℕ}
    (h : values[index]? = some value) :
    ∃ before after, values = before ++ value :: after ∧ before.length = index ∧
      ∀ other, values.set index other = before ++ other :: after := by
  obtain ⟨hlt, hget⟩ := List.getElem?_eq_some_iff.mp h
  refine ⟨values.take index, values.drop (index + 1), ?_, ?_, fun other => ?_⟩
  · rw [← hget, List.cons_getElem_drop_succ, List.take_append_drop]
  · rw [List.length_take, Nat.min_eq_left hlt.le]
  · rw [List.set_eq_take_append_cons_drop, if_pos hlt]

end Nocter.DurableStore
