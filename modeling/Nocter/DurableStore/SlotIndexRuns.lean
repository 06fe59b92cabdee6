import Mathlib.Data.Finset.Basic
import Nocter.DurableStore.SlotIndexFacts

/-!
# Runs of the hash index

Additions and removals are compared with a finite set of pairs of a hash and a slot.
-/

namespace Nocter.DurableStore

inductive StoreIndexOperation where
  | add (hash slot : ℕ)
  | remove (hash slot : ℕ)

namespace StoreIndex

def perform (index : StoreIndex) : StoreIndexOperation → Option (Bool × StoreIndex)
  | .add hash slot => index.add hash slot
  | .remove hash slot => index.remove hash slot

def run (index : StoreIndex) : List StoreIndexOperation → Option (List Bool × StoreIndex)
  | [] => some ([], index)
  | operation :: operations => do
    let (answer, index) ← index.perform operation
    let (answers, index) ← index.run operations
    some (answer :: answers, index)

/-- The pairs that were added and not removed since. -/
def performPairs (pairs : Finset (ℕ × ℕ)) : StoreIndexOperation → Bool × Finset (ℕ × ℕ)
  | .add hash slot => ((hash, slot) ∉ pairs, insert (hash, slot) pairs)
  | .remove hash slot => ((hash, slot) ∈ pairs, pairs.erase (hash, slot))

def runPairs (pairs : Finset (ℕ × ℕ)) : List StoreIndexOperation → List Bool × Finset (ℕ × ℕ)
  | [] => ([], pairs)
  | operation :: operations =>
    let (answer, pairs) := performPairs pairs operation
    let (answers, pairs) := runPairs pairs operations
    (answer :: answers, pairs)

/-- The index holds the pairs. -/
structure Holds (index : StoreIndex) (pairs : Finset (ℕ × ℕ)) : Prop where
  valid : index.Valid
  live : ∀ hash slot, index.Live hash slot ↔ (hash, slot) ∈ pairs

variable {index : StoreIndex} {pairs : Finset (ℕ × ℕ)}

theorem Holds.perform (h : index.Holds pairs) (operation : StoreIndexOperation) :
    ∃ index', index.perform operation = some ((performPairs pairs operation).1, index') ∧
      index'.Holds (performPairs pairs operation).2 := by
  cases operation with
  | add hash slot =>
    obtain ⟨added, index', hadd, hadded, hvalid, hlive⟩ := h.valid.add hash slot
    refine ⟨index', ?_, hvalid, fun other held => ?_⟩
    · rw [StoreIndex.perform, hadd, performPairs]
      rw [h.live] at hadded
      rw [Bool.eq_iff_iff.mpr (hadded.trans decide_eq_true_iff.symm)]
    · rw [hlive, h.live, performPairs, Finset.mem_insert, Prod.mk.injEq, or_comm]
  | remove hash slot =>
    obtain ⟨removed, index', hremove, hremoved, hvalid, hlive⟩ := h.valid.remove hash slot
    refine ⟨index', ?_, hvalid, fun other held => ?_⟩
    · rw [StoreIndex.perform, hremove, performPairs]
      rw [h.live] at hremoved
      rw [Bool.eq_iff_iff.mpr (hremoved.trans decide_eq_true_iff.symm)]
    · rw [hlive, h.live, performPairs, Finset.mem_erase, ne_eq, Prod.mk.injEq, and_comm]

theorem Holds.run (h : index.Holds pairs) (operations : List StoreIndexOperation) :
    ∃ index', index.run operations = some ((runPairs pairs operations).1, index') ∧
      index'.Holds (runPairs pairs operations).2 := by
  induction operations generalizing index pairs with
  | nil => exact ⟨index, rfl, h⟩
  | cons operation operations ih =>
    obtain ⟨next, hnext, hholds⟩ := h.perform operation
    obtain ⟨last, hlast, hholds'⟩ := ih hholds
    refine ⟨last, ?_, hholds'⟩
    simp only [StoreIndex.run, hnext, hlast, Option.bind_eq_bind, Option.bind_some, runPairs]

end StoreIndex

/-- Doubling ends when there is room for the minimum. -/
theorem doubleStoreIndex_within {minimum passes count : ℕ} (hcount : 8 ≤ count)
    (hpasses : minimum ≤ storeIndexUsableCapacity count + passes) :
    ∃ n, Loop.within (doubleStoreIndex minimum) (passes + 1) count = some n ∧ 8 ≤ n := by
  induction passes generalizing count with
  | zero =>
    refine ⟨count, Loop.within_of_done ?_ 0, hcount⟩
    rw [doubleStoreIndex, if_neg (by omega)]
  | succ passes ih =>
    by_cases hsmall : storeIndexUsableCapacity count < minimum
    · obtain ⟨n, hn, hlarge⟩ := ih (Nat.le_add_right_of_le hcount : 8 ≤ count + count) (by
        rw [storeIndexUsableCapacity] at hpasses ⊢
        omega)
      refine ⟨n, ?_, hlarge⟩
      rw [Loop.within_of_again, hn]
      rw [doubleStoreIndex, if_pos hsmall]
    · refine ⟨count, Loop.within_of_done ?_ (passes + 1), hcount⟩
      rw [doubleStoreIndex, if_neg hsmall]

theorem newStoreIndex_holds (minimum : ℕ) :
    ∃ index, newStoreIndex minimum = some index ∧ index.Holds ∅ := by
  obtain ⟨bucketCount, hcount, hsize⟩ : ∃ bucketCount,
      storeIndexBucketCount minimum = some bucketCount ∧ (bucketCount = 0 ∨ 8 ≤ bucketCount) := by
    by_cases hzero : minimum = 0
    · exact ⟨0, if_pos hzero, Or.inl rfl⟩
    · obtain ⟨n, hn, hlarge⟩ :=
        @doubleStoreIndex_within minimum minimum 8 (Nat.le_refl 8) (by omega)
      refine ⟨n, ?_, Or.inr hlarge⟩
      rw [storeIndexBucketCount, if_neg hzero, hn]
  obtain ⟨hvalid, hnone⟩ := StoreIndex.Valid.fresh hsize
    (if bucketCount = 0 then 0 else storeIndexUsableCapacity bucketCount) (by
      split_ifs with hzero
      · rw [hzero]
        rfl
      · rfl)
  refine ⟨_, ?_, hvalid, fun hash slot => ?_⟩
  · simp only [newStoreIndex, hcount, Option.bind_eq_bind, Option.bind_some]
  · refine iff_of_false (StoreIndex.not_live_of_absent ?_ slot) (Finset.notMem_empty _)
    dsimp only
    rw [hnone]
    exact List.not_mem_nil

namespace StoreIndex

/-- After any additions and removals the candidates of a hash are the slots added under it and
not removed, every probe ends, an insertion takes a bucket that is not occupied, a rebuilt
table holds the same slots, and the used buckets are no more than there are. -/
theorem runs_hold_pairs (minimum : ℕ) (operations : List StoreIndexOperation) :
    ∃ start index, newStoreIndex minimum = some start ∧
      start.run operations = some ((runPairs ∅ operations).1, index) ∧
      (∀ hash, (index.candidates hash = some none ∧
          ∀ slot, (hash, slot) ∉ (runPairs ∅ operations).2) ∨
        ∃ slots, index.candidates hash = some (some slots) ∧ slots ≠ [] ∧ slots.Nodup ∧
          ∀ slot, slot ∈ slots ↔ (hash, slot) ∈ (runPairs ∅ operations).2) ∧
      (∀ hash, ∃ probe, index.probe hash = some probe) ∧
      (∀ hash slot, hash ∉ storedHashes index.buckets →
        ∃ prepared index' location previous, index.prepareInsert = some prepared ∧
          prepared.insertBucket hash [slot] = some (true, index') ∧
          prepared.buckets[location]? = some previous ∧ previous.hash? = none ∧
          index'.buckets = prepared.buckets.set location (.occupied hash [slot])) ∧
      (∀ bucketCount, 8 ≤ bucketCount → index.hashes ≤ bucketCount →
        ∃ index', index.rebuild bucketCount = some index' ∧
          ∀ hash slots, .occupied hash slots ∈ index'.buckets ↔
            .occupied hash slots ∈ index.buckets) ∧
      index.hashes = (storedHashes index.buckets).length ∧
      index.tombstones = index.buckets.count .deleted ∧
      index.hashes + index.tombstones ≤ index.buckets.length := by
  obtain ⟨start, hstart, hholds⟩ := newStoreIndex_holds minimum
  obtain ⟨index, hrun, hvalid, hlive⟩ := hholds.run operations
  refine ⟨start, index, hstart, hrun, fun hash => ?_, fun hash => ?_, fun hash slot habsent => ?_,
    fun bucketCount hsize hroom => ?_, hvalid.hashes_eq, hvalid.tombstones_eq, ?_⟩
  · simp only [← hlive]
    exact hvalid.candidates hash
  · obtain ⟨probe, hprobe, -⟩ := hvalid.probe hash
    exact ⟨probe, hprobe⟩
  · obtain ⟨prepared, hprepare, hprepared, hsame, -, hroom⟩ := hvalid.prepareInsert
    have habsent' : hash ∉ storedHashes prepared.buckets := by
      intro hmem
      obtain ⟨slots, hslots⟩ := mem_storedHashes.mp hmem
      exact habsent (mem_storedHashes.mpr ⟨slots, (hsame hash slots).mp hslots⟩)
    obtain ⟨index', location, previous, hinsert, hprevious, hnone, hset, -⟩ :=
      hprepared.insertBucket habsent' (by rwa [← hprepared.hashes_eq]) (List.cons_ne_nil slot [])
        (List.nodup_singleton slot)
    exact ⟨prepared, index', location, previous, hprepare, hinsert, hprevious, hnone, hset⟩
  · obtain ⟨index', hrebuild, -, hsame, -, -⟩ := hvalid.rebuild hsize hroom
    exact ⟨index', hrebuild, hsame⟩
  · have hlength := length_buckets index.buckets
    rw [hvalid.hashes_eq, hvalid.tombstones_eq]
    omega

/-- Six hashes come and go and two others come: all eight buckets are used. -/
theorem used_buckets_fill_table :
    ¬∀ operations answers start index, newStoreIndex 0 = some start →
      start.run operations = some (answers, index) →
        index.hashes + index.tombstones < index.buckets.length := by
  intro h
  have hrun : ((newStoreIndex 0).bind fun start => start.run
      (((List.range 6).map fun hash => .add hash hash) ++
        ((List.range 6).map fun hash => .remove hash hash) ++ [.add 6 6, .add 7 7])).map
      (fun result => (result.2.hashes, result.2.tombstones, result.2.buckets.length)) =
        some (2, 6, 8) := by
    decide
  obtain ⟨⟨answers, index⟩, hresult, hcounts⟩ := Option.map_eq_some_iff.mp hrun
  obtain ⟨start, hstart, hrest⟩ := Option.bind_eq_some_iff.mp hresult
  have hless := h _ answers start index hstart hrest
  obtain ⟨hhashes, hcounts⟩ := Prod.mk.inj hcounts
  obtain ⟨htombstones, hlength⟩ := Prod.mk.inj hcounts
  dsimp only at hhashes htombstones hlength
  omega

end StoreIndex

end Nocter.DurableStore
