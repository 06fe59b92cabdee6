import Nocter.DurableStore.SlotIndex

/-!
# What the operations of the hash index keep

A probe finds the bucket of its hash or a bucket that an insertion may take. From this every
operation is described by the hashes and slots in the occupied buckets.
-/

namespace Nocter.DurableStore

open OpenAddressing HashTable

variable {buckets : List StoreIndexBucket} {index : StoreIndex} {hash : ℕ} {slots : List ℕ}

theorem shape_getElem? (bucket : ℕ) :
    (buckets.map StoreIndexBucket.shape)[bucket]? = buckets[bucket]?.map StoreIndexBucket.shape :=
  List.getElem?_map

theorem hash?_eq_none {bucket : StoreIndexBucket} :
    bucket.hash? = none ↔ ∀ entry, bucket.shape ≠ .occupied entry := by
  cases bucket <;> simp [StoreIndexBucket.shape, StoreIndexBucket.hash?]

namespace StoreIndex

/-- What a probe says about a hash. With a bucket to spare, the vacant one lies on the way of the
hash and is not occupied. -/
inductive Probes (index : StoreIndex) (hash : ℕ) : StoreIndexProbe → Prop
  | found {bucketIndex : ℕ} {slots : List ℕ}
      (hbucket : index.buckets[bucketIndex]? = some (.occupied hash slots)) :
      Probes index hash (.found bucketIndex)
  | vacant {bucketIndex : ℕ} (habsent : hash ∉ storedHashes index.buckets)
      (hroom : (storedHashes index.buckets).length < index.buckets.length →
        (∃ bucket, index.buckets[bucketIndex]? = some bucket ∧ bucket.hash? = none) ∧
          OnPath (index.buckets.map StoreIndexBucket.shape) hash bucketIndex) :
      Probes index hash (.vacant bucketIndex)

/-- The bucket of a stored hash lies on its way. -/
theorem Valid.exists_visit (h : index.Valid) (hstored : hash ∈ storedHashes index.buckets) :
    ∃ j < index.buckets.length, ∃ slots,
      index.buckets[visit index.buckets.length hash j]? = some (.occupied hash slots) ∧
      ∀ k < j, index.buckets[visit index.buckets.length hash k]? ≠ some .empty := by
  obtain ⟨slots, hmem⟩ := mem_storedHashes.mp hstored
  obtain ⟨bucket, hbucket⟩ := List.mem_iff_getElem?.mp hmem
  obtain ⟨j, hj, hvisit, hbefore⟩ := h.path hbucket
  rw [List.length_map] at hj hvisit
  refine ⟨j, hj, slots, by rw [hvisit, hbucket], fun k hk hempty => hbefore k hk ?_⟩
  rw [List.length_map, shape_getElem?, hempty]
  rfl

/-- A table without empty and deleted buckets is full of hashes. -/
theorem full_of_occupied
    (h : ∀ bucket < buckets.length, buckets[bucket]? ≠ some .empty ∧
      buckets[bucket]? ≠ some .deleted) :
    (storedHashes buckets).length = buckets.length := by
  have hlength := length_buckets buckets
  have hempty : buckets.count .empty = 0 := by
    rw [List.count_eq_zero]
    intro hmem
    obtain ⟨bucket, hbucket⟩ := List.mem_iff_getElem?.mp hmem
    exact (h bucket (List.getElem?_eq_some_iff.mp hbucket).1).1 hbucket
  have hdeleted : buckets.count .deleted = 0 := by
    rw [List.count_eq_zero]
    intro hmem
    obtain ⟨bucket, hbucket⟩ := List.mem_iff_getElem?.mp hmem
    exact (h bucket (List.getElem?_eq_some_iff.mp hbucket).1).2 hbucket
  omega

/-- The hash has not been met in the buckets visited so far. -/
def Unseen (buckets : List StoreIndexBucket) (hash i : ℕ) : Prop :=
  ∀ j < i, ∀ slots, buckets[visit buckets.length hash j]? ≠ some (.occupied hash slots)

theorem Unseen.next {i : ℕ} (h : Unseen buckets hash i)
    (hhere : ∀ slots, buckets[visit buckets.length hash i]? ≠ some (.occupied hash slots)) :
    Unseen buckets hash (i + 1) := by
  intro j hj slots
  obtain hlt | rfl := Nat.lt_succ_iff_lt_or_eq.mp hj
  · exact h j hlt slots
  · exact hhere slots

theorem probeBucket_probes (h : index.Valid) (i : ℕ) (loop : ProbeLoop)
    (hi : i < index.buckets.length)
    (hloop : Probed (index.buckets.map StoreIndexBucket.shape) hash i loop ∧
      Unseen index.buckets hash i) :
    (∃ later, probeBucket index.buckets hash i loop = some (.inl later) ∧
      Probed (index.buckets.map StoreIndexBucket.shape) hash (i + 1) later ∧
        Unseen index.buckets hash (i + 1)) ∨
    ∃ probe, probeBucket index.buckets hash i loop = some (.inr probe) ∧
      Probes index hash probe := by
  obtain ⟨hprobed, hunseen⟩ := hloop
  have hlength : (index.buckets.map StoreIndexBucket.shape).length = index.buckets.length :=
    List.length_map _
  have hat := hprobed.bucketIndex_eq
  rw [hlength] at hat
  have hlt : loop.bucketIndex < index.buckets.length := by
    rw [hat]
    exact visit_lt (by omega) _ _
  have hbucket : index.buckets[loop.bucketIndex]? = some index.buckets[loop.bucketIndex] :=
    List.getElem?_eq_getElem hlt
  have hshape := @shape_getElem? index.buckets loop.bucketIndex
  generalize index.buckets[loop.bucketIndex] = bucket at hbucket
  rw [hbucket, Option.map_some] at hshape
  rw [probeBucket, hbucket]
  rw [hat] at hbucket
  cases bucket with
  | empty =>
    right
    refine ⟨_, rfl, .vacant (fun hstored => ?_) fun _ => ?_⟩
    · obtain ⟨j, hj, slots, hfound, hbefore⟩ := h.exists_visit hstored
      rcases Nat.lt_trichotomy j i with hbelow | rfl | habove
      · exact hunseen j hbelow slots hfound
      · rw [hfound] at hbucket
        cases hbucket
      · exact hbefore i habove hbucket
    · obtain ⟨hfree, hvacant, hpath⟩ := hprobed.free (by rwa [hlength]) hshape
      rw [hlength] at hfree hvacant hpath
      refine ⟨⟨_, List.getElem?_eq_getElem hfree, hash?_eq_none.mpr fun entry hentry => ?_⟩, hpath⟩
      refine hvacant entry ?_
      rw [shape_getElem?, List.getElem?_eq_getElem hfree, Option.map_some, hentry]
  | deleted =>
    left
    have hnext := hprobed.nextDeleted hshape
    rw [hlength] at hnext
    refine ⟨_, rfl, hnext, hunseen.next fun slots hsome => ?_⟩
    rw [hsome] at hbucket
    cases hbucket
  | occupied storedHash slots =>
    by_cases hsame : storedHash = hash
    · subst hsame
      rw [← hat] at hbucket
      exact Or.inr ⟨_, if_pos rfl, .found hbucket⟩
    · left
      have hnext := hprobed.nextOccupied hshape
      rw [hlength] at hnext
      refine ⟨_, if_neg hsame, hnext, hunseen.next fun slots hsome => hsame ?_⟩
      rw [hsome] at hbucket
      exact ((StoreIndexBucket.occupied.inj (Option.some.inj hbucket)).1).symm

/-- Every probe ends. -/
theorem Valid.probe (h : index.Valid) (hash : ℕ) :
    ∃ probe, index.probe hash = some probe ∧ index.Probes hash probe := by
  rw [StoreIndex.probe]
  by_cases hzero : index.buckets.length = 0
  · rw [if_pos hzero]
    refine ⟨_, rfl, .vacant (fun hstored => ?_) fun hroom => absurd hroom (by omega)⟩
    obtain ⟨j, hj, -⟩ := h.exists_visit hstored
    omega
  rw [if_neg hzero]
  have hlength : (index.buckets.map StoreIndexBucket.shape).length = index.buckets.length :=
    List.length_map _
  have hstart := Probed.start (index.buckets.map StoreIndexBucket.shape) hash
  rw [hlength] at hstart
  obtain ⟨loop, hloop, hprobed, hunseen⟩ | ⟨probe, hloop, hprobe⟩ :=
    Loop.countedUntil_spec (Q := index.Probes hash) (probeBucket_probes h)
      (Nat.zero_add index.buckets.length)
      ⟨hstart, fun j hj => absurd hj (Nat.not_lt_zero j)⟩
  · have habsent : hash ∉ storedHashes index.buckets := by
      intro hstored
      obtain ⟨j, hj, slots, hfound, -⟩ := h.exists_visit hstored
      exact hunseen j hj slots hfound
    simp only [hloop, Option.bind_eq_bind, Option.bind_some]
    by_cases hfirst : loop.firstDeleted < index.buckets.length
    · rw [if_pos hfirst]
      refine ⟨_, rfl, .vacant habsent fun _ => ?_⟩
      obtain ⟨hdeleted, j, hj, hvisit⟩ := hprobed.deleted (by rwa [hlength])
      refine ⟨⟨_, List.getElem?_eq_getElem hfirst, hash?_eq_none.mpr fun entry hentry => ?_⟩,
        j, by rwa [hlength], hvisit, fun k hk => hprobed.nonempty k (by omega)⟩
      rw [shape_getElem?, List.getElem?_eq_getElem hfirst, Option.map_some, hentry] at hdeleted
      cases hdeleted
    · -- no bucket is empty or deleted
      rw [if_neg hfirst]
      refine ⟨_, rfl, .vacant habsent fun hroom => ?_⟩
      obtain ⟨-, hnotDeleted⟩ := hprobed.occupied (by rw [hlength]; omega)
      have hfull := @full_of_occupied index.buckets fun bucket hbucket => by
        obtain ⟨j, hj, hvisit⟩ := OpenAddressing.exists_visit hash hbucket
        have hempty := hprobed.nonempty j hj
        have hdeleted := hnotDeleted j hj
        rw [hlength, hvisit, shape_getElem?] at hempty hdeleted
        constructor
        · intro hsome
          rw [hsome] at hempty
          exact hempty rfl
        · intro hsome
          rw [hsome] at hdeleted
          exact hdeleted rfl
      omega
  · simp only [hloop, Option.bind_eq_bind, Option.bind_some]
    exact ⟨probe, rfl, hprobe⟩

/-- The occupied buckets hold the same hashes and slots, and this one besides. -/
def Gains (index index' : StoreIndex) (hash : ℕ) (slots : List ℕ) : Prop :=
  ∀ other held, .occupied other held ∈ index'.buckets ↔
    .occupied other held ∈ index.buckets ∨ other = hash ∧ held = slots

/-- Writing an occupied bucket leaves the ways to all buckets open. -/
theorem path_set {target bucket other newHash : ℕ} {newSlots : List ℕ}
    (h : OnPath (buckets.map StoreIndexBucket.shape) other bucket) :
    OnPath ((buckets.set target (.occupied newHash newSlots)).map StoreIndexBucket.shape) other
      bucket := by
  rw [List.map_set]
  exact h.set (by simp [StoreIndexBucket.shape])

/-- An insertion takes a bucket that is not occupied. -/
theorem Valid.insertBucket (h : index.Valid) (habsent : hash ∉ storedHashes index.buckets)
    (hroom : (storedHashes index.buckets).length < index.buckets.length) (hslots : slots ≠ [])
    (hnodup : slots.Nodup) :
    ∃ index' location previous, index.insertBucket hash slots = some (true, index') ∧
      index.buckets[location]? = some previous ∧ previous.hash? = none ∧
      index'.buckets = index.buckets.set location (.occupied hash slots) ∧
      index'.Valid ∧ Gains index index' hash slots ∧
      index'.buckets.length = index.buckets.length ∧ index'.hashes = index.hashes + 1 := by
  obtain ⟨probe, hprobe, hprobes⟩ := h.probe hash
  cases hprobes with
  | found hbucket =>
    exact absurd (mem_storedHashes.mpr ⟨_, List.mem_of_getElem? hbucket⟩) habsent
  | @vacant location _ hvacant =>
    obtain ⟨⟨previous, hprevious, hnone⟩, hpath⟩ := hvacant hroom
    obtain ⟨before, after, hsplit, hlocation, hset⟩ := split_at hprevious
    have htombstones := h.tombstones_eq
    rw [hsplit, List.count_append, List.count_cons] at htombstones
    have hstored : storedHashes index.buckets = storedHashes before ++ storedHashes after := by
      rw [hsplit, storedHashes_append, storedHashes_cons, hnone]
      rfl
    -- the counter of tombstones follows the bucket
    obtain ⟨tombstones, hcheck, hcount⟩ : ∃ tombstones,
        index.tombstonesWithout previous = some tombstones ∧
        tombstones = (before ++ .occupied hash slots :: after).count .deleted := by
      rw [StoreIndex.tombstonesWithout, List.count_append, List.count_cons_of_ne (by simp)]
      by_cases hdeleted : previous = .deleted
      · rw [hdeleted, if_pos (by rfl)] at htombstones
        rw [if_pos hdeleted, checkedSub_of_le (by omega)]
        exact ⟨_, rfl, by omega⟩
      · rw [if_neg hdeleted]
        refine ⟨_, rfl, ?_⟩
        rw [htombstones, if_neg (by simpa using hdeleted)]
        rfl
    refine ⟨{ index with
        buckets := index.buckets.set location (.occupied hash slots)
        hashes := index.hashes + 1
        tombstones }, location, previous, ?_, hprevious, hnone, rfl, ?_, ?_, List.length_set, rfl⟩
    · simp only [StoreIndex.insertBucket, hprobe, hprevious, hcheck, Option.bind_eq_bind,
        Option.bind_some]
    · have hperm : (storedHashes (before ++ .occupied hash slots :: after)).Perm
          (hash :: storedHashes index.buckets) := by
        rw [storedHashes_append, storedHashes_cons, hstored]
        exact List.perm_middle
      refine ⟨?_, ?_, ?_, ?_, ?_, @fun bucket other held hheld => ?_, @fun other held hheld => ?_⟩
      · dsimp only
        rw [hset, hperm.nodup_iff, List.nodup_cons]
        exact ⟨habsent, h.distinct⟩
      · dsimp only
        rw [hset, hperm.length_eq, List.length_cons, h.hashes_eq]
      · dsimp only
        rw [hset, hcount]
      · dsimp only
        rw [List.length_set]
        exact h.usable_eq
      · dsimp only
        rw [List.length_set]
        exact h.size
      · dsimp only at hheld ⊢
        have hlt := (List.getElem?_eq_some_iff.mp hprevious).1
        refine path_set ?_
        by_cases hsame : bucket = location
        · rw [hsame, List.getElem?_set_self hlt] at hheld
          obtain ⟨rfl, -⟩ := StoreIndexBucket.occupied.inj (Option.some.inj hheld)
          rw [hsame]
          exact hpath
        · rw [List.getElem?_set_ne (Ne.symm hsame)] at hheld
          exact h.path hheld
      · dsimp only at hheld
        rw [hset, List.mem_append, List.mem_cons] at hheld
        have hold : ∀ {bucket}, bucket ∈ before ∨ bucket ∈ after → bucket ∈ index.buckets := by
          intro bucket hbucket
          rw [hsplit, List.mem_append, List.mem_cons]
          exact hbucket.imp_right Or.inr
        rcases hheld with hheld | hheld | hheld
        · exact h.slots (hold (Or.inl hheld))
        · obtain ⟨-, rfl⟩ := StoreIndexBucket.occupied.inj hheld
          exact ⟨hslots, hnodup⟩
        · exact h.slots (hold (Or.inr hheld))
    · intro other held
      have hother : .occupied other held ≠ previous := by
        rintro rfl
        cases hnone
      dsimp only
      rw [hset, hsplit]
      simp only [List.mem_append, List.mem_cons, StoreIndexBucket.occupied.injEq]
      tauto

/-- Occupied buckets hold the same hashes and slots. -/
def Same (index index' : StoreIndex) : Prop :=
  ∀ other held, .occupied other held ∈ index'.buckets ↔ .occupied other held ∈ index.buckets

theorem Valid.fresh {bucketCount : ℕ} (hsize : bucketCount = 0 ∨ 8 ≤ bucketCount) (usable : ℕ)
    (husable : usable = storeIndexUsableCapacity bucketCount) :
    (⟨List.replicate bucketCount .empty, usable, 0, 0⟩ : StoreIndex).Valid ∧
      storedHashes (List.replicate bucketCount .empty) = [] := by
  have hstored : storedHashes (List.replicate bucketCount .empty) = [] := by
    rw [storedHashes, List.filterMap_eq_nil_iff]
    intro bucket hbucket
    rw [List.eq_of_mem_replicate hbucket]
    rfl
  have hnone : ∀ {hash : ℕ} {slots : List ℕ},
      .occupied hash slots ∉ List.replicate bucketCount StoreIndexBucket.empty :=
    fun hmem => by cases List.eq_of_mem_replicate hmem
  refine ⟨⟨?_, ?_, ?_, ?_, ?_, fun hbucket => ?_, fun hmem => absurd hmem hnone⟩, hstored⟩
  · dsimp only
    rw [hstored]
    exact List.nodup_nil
  · dsimp only
    rw [hstored]
    rfl
  · dsimp only
    rw [List.count_replicate]
    rfl
  · dsimp only
    rw [List.length_replicate]
    exact husable
  · dsimp only
    rw [List.length_replicate]
    exact hsize
  · exact absurd (List.mem_of_getElem? hbucket) hnone

/-- The buckets of the old table move one after the other. -/
theorem moveBuckets {start : StoreIndex} (h : start.Valid)
    (old : List StoreIndexBucket) (hdistinct : (storedHashes start.buckets ++ storedHashes old).Nodup)
    (hroom : (storedHashes start.buckets).length + (storedHashes old).length ≤
      start.buckets.length)
    (hslots : ∀ {hash : ℕ} {slots : List ℕ}, .occupied hash slots ∈ old → slots ≠ [] ∧ slots.Nodup) :
    ∃ index', old.foldlM moveBucket start = some index' ∧ index'.Valid ∧
      index'.buckets.length = start.buckets.length ∧
      index'.hashes = start.hashes + (storedHashes old).length ∧
      ∀ other held, .occupied other held ∈ index'.buckets ↔
        .occupied other held ∈ start.buckets ∨ .occupied other held ∈ old := by
  induction old generalizing start with
  | nil =>
    exact ⟨start, rfl, h, rfl, rfl, fun other held => by simp⟩
  | cons bucket old ih =>
    have hrest : ∀ {hash : ℕ} {slots : List ℕ}, .occupied hash slots ∈ old →
        slots ≠ [] ∧ slots.Nodup := fun hmem => hslots (List.mem_cons_of_mem _ hmem)
    rw [storedHashes_cons] at hdistinct hroom
    rw [List.foldlM_cons, storedHashes_cons]
    cases bucket with
    | empty =>
      obtain ⟨index', hfold, hvalid, hlength, hhashes, hsame⟩ := ih h hdistinct hroom hrest
      refine ⟨index', hfold, hvalid, hlength, hhashes, fun other held => ?_⟩
      rw [hsame, List.mem_cons]
      simp
    | deleted =>
      obtain ⟨index', hfold, hvalid, hlength, hhashes, hsame⟩ := ih h hdistinct hroom hrest
      refine ⟨index', hfold, hvalid, hlength, hhashes, fun other held => ?_⟩
      rw [hsame, List.mem_cons]
      simp
    | occupied hash slots =>
      rw [StoreIndexBucket.hash?, Option.toList_some, List.singleton_append] at hdistinct hroom ⊢
      rw [List.length_cons] at hroom ⊢
      obtain ⟨hne, hnodup⟩ := hslots List.mem_cons_self
      have habsent : hash ∉ storedHashes start.buckets := fun hmem =>
        (List.nodup_append.mp hdistinct).2.2 hash hmem hash List.mem_cons_self rfl
      obtain ⟨next, _, _, hinsert, -, -, -, hvalid, hgains, hlength, hhashes⟩ :=
        h.insertBucket habsent (by omega) hne hnodup
      have hcount : (storedHashes next.buckets).length = (storedHashes start.buckets).length + 1 := by
        rw [← hvalid.hashes_eq, hhashes, h.hashes_eq]
      have hdistinct' : (storedHashes next.buckets ++ storedHashes old).Nodup := by
        rw [List.nodup_append] at hdistinct ⊢
        obtain ⟨-, hold, hapart⟩ := hdistinct
        rw [List.nodup_cons] at hold
        refine ⟨hvalid.distinct, hold.2, fun a ha b hb hab => ?_⟩
        subst hab
        obtain ⟨held, hheld⟩ := mem_storedHashes.mp ha
        rcases (hgains a held).mp hheld with hheld | ⟨rfl, -⟩
        · exact hapart a (mem_storedHashes.mpr ⟨held, hheld⟩) a (List.mem_cons_of_mem _ hb) rfl
        · exact hold.1 hb
      obtain ⟨index', hfold, hvalid', hlength', hhashes', hsame⟩ :=
        ih hvalid hdistinct' (by omega) hrest
      refine ⟨index', ?_, hvalid', hlength'.trans hlength, by omega, fun other held => ?_⟩
      · rw [moveBucket, hinsert]
        exact hfold
      · rw [hsame, hgains, List.mem_cons, StoreIndexBucket.occupied.injEq]
        tauto

/-- A rebuilt table holds what the old one held. -/
theorem Valid.rebuild (h : index.Valid) {bucketCount : ℕ} (hsize : 8 ≤ bucketCount)
    (hroom : index.hashes ≤ bucketCount) :
    ∃ index', index.rebuild bucketCount = some index' ∧ index'.Valid ∧ Same index index' ∧
      index'.buckets.length = bucketCount ∧ index'.hashes = index.hashes := by
  obtain ⟨hfresh, hnone⟩ := Valid.fresh (Or.inr hsize) _ rfl
  have hperm : (storedHashes index.buckets.reverse).Perm (storedHashes index.buckets) :=
    (List.reverse_perm index.buckets).filterMap _
  have hroom' : (storedHashes (List.replicate bucketCount .empty)).length +
      (storedHashes index.buckets.reverse).length ≤
        (List.replicate bucketCount StoreIndexBucket.empty).length := by
    rw [hnone, hperm.length_eq, ← h.hashes_eq, List.length_replicate, List.length_nil, Nat.zero_add]
    exact hroom
  obtain ⟨index', hfold, hvalid, hlength, hhashes, hsame⟩ :=
    moveBuckets hfresh index.buckets.reverse
      (by rw [hnone, List.nil_append, hperm.nodup_iff]; exact h.distinct) hroom'
      fun hmem => h.slots (List.mem_reverse.mp hmem)
  refine ⟨index', hfold, hvalid, fun other held => ?_, ?_, ?_⟩
  · rw [hsame, List.mem_reverse]
    refine ⟨fun hheld => hheld.elim (fun hmem => ?_) id, Or.inr⟩
    cases List.eq_of_mem_replicate hmem
  · rw [hlength, List.length_replicate]
  · rw [hhashes, hperm.length_eq, ← h.hashes_eq]
    exact Nat.zero_add _

theorem le_growthCapacity (current required : ℕ) :
    required ≤ growthCapacity current required ∧ current ≤ growthCapacity current required := by
  rw [growthCapacity]
  split_ifs <;> omega

/-- Before an insertion the table has a bucket to spare. -/
theorem Valid.prepareInsert (h : index.Valid) :
    ∃ index', index.prepareInsert = some index' ∧ index'.Valid ∧ Same index index' ∧
      index'.hashes = index.hashes ∧ index'.hashes < index'.buckets.length := by
  have hlength := length_buckets index.buckets
  have hhashes := h.hashes_eq
  have husable := h.usable_eq
  have hsize := h.size
  rw [storeIndexUsableCapacity] at husable
  rw [StoreIndex.prepareInsert]
  by_cases hfull : index.hashes + 1 > index.usableCapacity
  · rw [if_pos hfull]
    have hgrowth := le_growthCapacity index.buckets.length (index.hashes + 1)
    generalize hcount : (if index.buckets.length = 0 then 8
      else growthCapacity index.buckets.length (index.hashes + 1)) = bucketCount
    have hlarge : 8 ≤ bucketCount ∧ index.hashes < bucketCount := by
      rw [← hcount]
      split_ifs <;> omega
    obtain ⟨index', hrebuild, hvalid, hsame, hcount', hhashes'⟩ :=
      h.rebuild hlarge.1 hlarge.2.le
    exact ⟨index', hrebuild, hvalid, hsame, hhashes', by omega⟩
  · rw [if_neg hfull]
    by_cases hclean : index.tombstones > index.hashes ∧ index.tombstones > 8
    · rw [if_pos hclean]
      obtain ⟨index', hrebuild, hvalid, hsame, hcount', hhashes'⟩ :=
        h.rebuild (show 8 ≤ index.buckets.length by omega) (by omega)
      exact ⟨index', hrebuild, hvalid, hsame, hhashes', by omega⟩
    · rw [if_neg hclean]
      exact ⟨index, rfl, h, fun _ _ => Iff.rfl, rfl, by omega⟩

/-- A stored hash is found with its slots. -/
theorem Valid.probe_stored (h : index.Valid) (hmem : .occupied hash slots ∈ index.buckets) :
    ∃ bucketIndex, index.probe hash = some (.found bucketIndex) ∧
      index.buckets[bucketIndex]? = some (.occupied hash slots) := by
  obtain ⟨probe, hprobe, hprobes⟩ := h.probe hash
  cases hprobes with
  | @found bucketIndex other hbucket =>
    refine ⟨bucketIndex, hprobe, ?_⟩
    obtain ⟨before, after, hsplit, -⟩ := split_at hbucket
    have hdistinct := h.distinct
    rw [hsplit, storedHashes_append, storedHashes_cons, StoreIndexBucket.hash?,
      Option.toList_some, List.singleton_append, List.nodup_append, List.nodup_cons] at hdistinct
    obtain ⟨-, ⟨hafter, -⟩, hbefore⟩ := hdistinct
    rw [hsplit, List.mem_append, List.mem_cons] at hmem
    rcases hmem with hmem | hmem | hmem
    · exact absurd rfl (hbefore hash (mem_storedHashes.mpr ⟨slots, hmem⟩) hash List.mem_cons_self)
    · rw [hbucket, hmem]
    · exact absurd (mem_storedHashes.mpr ⟨slots, hmem⟩) hafter
  | vacant habsent => exact absurd (mem_storedHashes.mpr ⟨slots, hmem⟩) habsent

theorem Valid.probe_absent (h : index.Valid) (habsent : hash ∉ storedHashes index.buckets) :
    ∃ bucketIndex, index.probe hash = some (.vacant bucketIndex) := by
  obtain ⟨probe, hprobe, hprobes⟩ := h.probe hash
  cases hprobes with
  | found hbucket => exact absurd (mem_storedHashes.mpr ⟨_, List.mem_of_getElem? hbucket⟩) habsent
  | vacant => exact ⟨_, hprobe⟩

/-- The slot was added under the hash and not removed. -/
def Live (index : StoreIndex) (hash slot : ℕ) : Prop :=
  ∃ slots, .occupied hash slots ∈ index.buckets ∧ slot ∈ slots

theorem Valid.slots_unique (h : index.Valid) {held : List ℕ}
    (hmem : .occupied hash slots ∈ index.buckets) (hmem' : .occupied hash held ∈ index.buckets) :
    held = slots := by
  obtain ⟨bucketIndex, hprobe, hbucket⟩ := h.probe_stored hmem
  obtain ⟨bucketIndex', hprobe', hbucket'⟩ := h.probe_stored hmem'
  rw [hprobe] at hprobe'
  obtain rfl := StoreIndexProbe.found.inj (Option.some.inj hprobe')
  rw [hbucket] at hbucket'
  exact (StoreIndexBucket.occupied.inj (Option.some.inj hbucket')).2.symm

theorem Valid.live_iff (h : index.Valid) (hmem : .occupied hash slots ∈ index.buckets) (slot : ℕ) :
    index.Live hash slot ↔ slot ∈ slots := by
  constructor
  · rintro ⟨held, hheld, hslot⟩
    rwa [← h.slots_unique hmem hheld]
  · exact fun hslot => ⟨slots, hmem, hslot⟩

theorem not_live_of_absent (habsent : hash ∉ storedHashes index.buckets) (slot : ℕ) :
    ¬index.Live hash slot :=
  fun ⟨slots, hmem, _⟩ => habsent (mem_storedHashes.mpr ⟨slots, hmem⟩)

theorem Same.live {index' : StoreIndex} (h : Same index index') (hash slot : ℕ) :
    index'.Live hash slot ↔ index.Live hash slot := by
  simp only [Live, h hash]

/-- The candidates are the live slots of the hash, each once. -/
theorem Valid.candidates (h : index.Valid) (hash : ℕ) :
    (index.candidates hash = some none ∧ ∀ slot, ¬index.Live hash slot) ∨
      ∃ slots, index.candidates hash = some (some slots) ∧ slots ≠ [] ∧ slots.Nodup ∧
        ∀ slot, slot ∈ slots ↔ index.Live hash slot := by
  by_cases hstored : hash ∈ storedHashes index.buckets
  · right
    obtain ⟨slots, hmem⟩ := mem_storedHashes.mp hstored
    obtain ⟨bucketIndex, hprobe, hbucket⟩ := h.probe_stored hmem
    obtain ⟨hne, hnodup⟩ := h.slots hmem
    refine ⟨slots, ?_, hne, hnodup, fun slot => (h.live_iff hmem slot).symm⟩
    simp only [StoreIndex.candidates, hprobe, hbucket, Option.bind_eq_bind, Option.bind_some]
  · left
    obtain ⟨bucketIndex, hprobe⟩ := h.probe_absent hstored
    refine ⟨?_, not_live_of_absent hstored⟩
    simp only [StoreIndex.candidates, hprobe, Option.bind_eq_bind, Option.bind_some]

/-- Other slots are written into the bucket of a hash. -/
theorem Valid.setSlots (h : index.Valid) {bucketIndex : ℕ}
    (hbucket : index.buckets[bucketIndex]? = some (.occupied hash slots)) {held : List ℕ}
    (hne : held ≠ []) (hnodup : held.Nodup) :
    ({ index with buckets := index.buckets.set bucketIndex (.occupied hash held) } :
      StoreIndex).Valid ∧
    ∀ other kept, .occupied other kept ∈ index.buckets.set bucketIndex (.occupied hash held) ↔
      other = hash ∧ kept = held ∨ other ≠ hash ∧ .occupied other kept ∈ index.buckets := by
  obtain ⟨before, after, hsplit, -, hset⟩ := split_at hbucket
  have hstored : storedHashes (index.buckets.set bucketIndex (.occupied hash held)) =
      storedHashes index.buckets := by
    rw [hset, hsplit, storedHashes_append, storedHashes_append, storedHashes_cons,
      storedHashes_cons]
    rfl
  have hmem : ∀ other kept,
      .occupied other kept ∈ index.buckets.set bucketIndex (.occupied hash held) ↔
      other = hash ∧ kept = held ∨ other ≠ hash ∧ .occupied other kept ∈ index.buckets := by
    intro other kept
    have hdistinct := h.distinct
    rw [hsplit, storedHashes_append, storedHashes_cons, StoreIndexBucket.hash?,
      Option.toList_some, List.singleton_append, List.nodup_append, List.nodup_cons] at hdistinct
    obtain ⟨-, ⟨hafter, -⟩, hbefore⟩ := hdistinct
    have hother : .occupied other kept ∈ before ∨ .occupied other kept ∈ after → other ≠ hash := by
      rintro hin rfl
      rcases hin with hin | hin
      · exact hbefore other (mem_storedHashes.mpr ⟨kept, hin⟩) other List.mem_cons_self rfl
      · exact hafter (mem_storedHashes.mpr ⟨kept, hin⟩)
    rw [hset, hsplit]
    simp only [List.mem_append, List.mem_cons, StoreIndexBucket.occupied.injEq]
    tauto
  refine ⟨⟨?_, ?_, ?_, ?_, ?_, @fun bucket other kept hkept => ?_, @fun other kept hkept => ?_⟩,
    hmem⟩
  · dsimp only
    rw [hstored]
    exact h.distinct
  · dsimp only
    rw [hstored]
    exact h.hashes_eq
  · dsimp only
    rw [h.tombstones_eq, hset, hsplit, List.count_append, List.count_append,
      List.count_cons_of_ne (by simp), List.count_cons_of_ne (by simp)]
  · dsimp only
    rw [List.length_set]
    exact h.usable_eq
  · dsimp only
    rw [List.length_set]
    exact h.size
  · dsimp only at hkept ⊢
    refine path_set ?_
    by_cases hsame : bucket = bucketIndex
    · have hlt := (List.getElem?_eq_some_iff.mp hbucket).1
      rw [hsame, List.getElem?_set_self hlt] at hkept
      obtain ⟨rfl, -⟩ := StoreIndexBucket.occupied.inj (Option.some.inj hkept)
      rw [hsame]
      exact h.path hbucket
    · rw [List.getElem?_set_ne (Ne.symm hsame)] at hkept
      exact h.path hkept
  · obtain ⟨-, rfl⟩ | ⟨-, hold⟩ := (hmem other kept).mp hkept
    · exact ⟨hne, hnodup⟩
    · exact h.slots hold

/-- The bucket of a hash is left deleted. -/
theorem Valid.vacate (h : index.Valid) {bucketIndex : ℕ}
    (hbucket : index.buckets[bucketIndex]? = some (.occupied hash slots)) : 1 ≤ index.hashes ∧
    (⟨index.buckets.set bucketIndex .deleted, index.usableCapacity, index.hashes - 1,
      index.tombstones + 1⟩ : StoreIndex).Valid ∧
    ∀ other kept, .occupied other kept ∈ index.buckets.set bucketIndex .deleted ↔
      other ≠ hash ∧ .occupied other kept ∈ index.buckets := by
  obtain ⟨before, after, hsplit, -, hset⟩ := split_at hbucket
  have hdistinct := h.distinct
  have hperm : (storedHashes index.buckets).Perm
      (hash :: storedHashes (index.buckets.set bucketIndex .deleted)) := by
    rw [hset, hsplit, storedHashes_append, storedHashes_append, storedHashes_cons,
      storedHashes_cons]
    exact List.perm_middle
  rw [hperm.nodup_iff, List.nodup_cons] at hdistinct
  have hcount : index.hashes =
      (storedHashes (index.buckets.set bucketIndex .deleted)).length + 1 := by
    rw [h.hashes_eq, hperm.length_eq, List.length_cons]
  have hmem : ∀ other kept, .occupied other kept ∈ index.buckets.set bucketIndex .deleted ↔
      other ≠ hash ∧ .occupied other kept ∈ index.buckets := by
    intro other kept
    have hother : .occupied other kept ∈ index.buckets.set bucketIndex .deleted → other ≠ hash := by
      rintro hin rfl
      exact hdistinct.1 (mem_storedHashes.mpr ⟨kept, hin⟩)
    rw [hset] at hother ⊢
    rw [hsplit]
    simp only [List.mem_append, List.mem_cons, StoreIndexBucket.occupied.injEq] at hother ⊢
    simp only [reduceCtorEq, false_or] at hother ⊢
    tauto
  refine ⟨by omega, ⟨hdistinct.2, ?_, ?_, ?_, ?_, @fun bucket other kept hkept => ?_,
    @fun other kept hkept => ?_⟩, hmem⟩
  · dsimp only
    omega
  · dsimp only
    rw [h.tombstones_eq, hset, hsplit, List.count_append, List.count_append,
      List.count_cons_of_ne (by simp), List.count_cons_self, Nat.add_assoc]
  · dsimp only
    rw [List.length_set]
    exact h.usable_eq
  · dsimp only
    rw [List.length_set]
    exact h.size
  · dsimp only at hkept ⊢
    have hne : bucketIndex ≠ bucket := by
      rintro rfl
      rw [List.getElem?_set_self (List.getElem?_eq_some_iff.mp hbucket).1] at hkept
      cases hkept
    rw [List.getElem?_set_ne hne] at hkept
    rw [List.map_set]
    exact (h.path hkept).set (by simp [StoreIndexBucket.shape])
  · exact h.slots ((hmem other kept).mp hkept).2

theorem swapRemove_perm {values : List ℕ} {position value : ℕ}
    (h : values[position]? = some value) : values.Perm (value :: swapRemove values position) := by
  obtain rfl | ⟨init, last, rfl⟩ := List.eq_nil_or_concat' values
  · cases h
  · rw [swapRemove, List.getLast?_concat]
    dsimp only
    have hlt := (List.getElem?_eq_some_iff.mp h).1
    rw [List.length_append, List.length_singleton] at hlt
    rcases Nat.lt_succ_iff_lt_or_eq.mp hlt with hlt | rfl
    · rw [List.getElem?_append_left hlt] at h
      obtain ⟨before, after, hsplit, -, hset⟩ := split_at h
      rw [List.set_append_left _ _ hlt, List.dropLast_concat, hset, hsplit, List.append_assoc]
      exact List.perm_middle.trans
        (((List.perm_append_singleton last after).append_left before).cons value)
    · rw [List.getElem?_concat_length] at h
      obtain rfl := Option.some.inj h
      rw [List.set_append_right _ _ (Nat.le_refl _), Nat.sub_self, List.set_cons_zero,
        List.dropLast_concat]
      exact List.perm_append_singleton last init

/-- An addition succeeds unless the slot is there under the hash already. -/
theorem Valid.add (h : index.Valid) (hash slot : ℕ) :
    ∃ added index', index.add hash slot = some (added, index') ∧
      (added = true ↔ ¬index.Live hash slot) ∧ index'.Valid ∧ ∀ other held, index'.Live other held ↔
        index.Live other held ∨ other = hash ∧ held = slot := by
  by_cases hstored : hash ∈ storedHashes index.buckets
  · obtain ⟨slots, hmem⟩ := mem_storedHashes.mp hstored
    obtain ⟨bucketIndex, hprobe, hbucket⟩ := h.probe_stored hmem
    obtain ⟨hne, hnodup⟩ := h.slots hmem
    have hlive := h.live_iff hmem
    by_cases hslot : slot ∈ slots
    · refine ⟨false, index, ?_, ?_, h, fun other held => ⟨Or.inl, ?_⟩⟩
      · simp only [StoreIndex.add, hprobe, hbucket, Option.bind_eq_bind, Option.bind_some,
          if_pos hslot]
      · rw [hlive]
        exact iff_of_false Bool.false_ne_true (not_not_intro hslot)
      · rintro (hold | ⟨rfl, rfl⟩)
        · exact hold
        · exact (hlive held).mpr hslot
    · have hnodup' : (slots ++ [slot]).Nodup :=
        (List.perm_append_singleton slot slots).nodup_iff.mpr (List.nodup_cons.mpr ⟨hslot, hnodup⟩)
      obtain ⟨hvalid, hset⟩ := h.setSlots hbucket
        (List.append_ne_nil_of_right_ne_nil slots (List.cons_ne_nil slot [])) hnodup'
      refine ⟨true, _, ?_, ?_, hvalid, fun other held => ?_⟩
      · simp only [StoreIndex.add, hprobe, hbucket, Option.bind_eq_bind, Option.bind_some,
          if_neg hslot]
      · rw [hlive]
        exact iff_of_true rfl hslot
      · by_cases hother : other = hash
        · subst hother
          rw [hvalid.live_iff ((hset other _).mpr (Or.inl ⟨rfl, rfl⟩)), hlive, List.mem_append,
            List.mem_singleton]
          simp only [true_and]
        · simp only [Live, hset, hother, false_and, false_or, or_false, ne_eq, not_false_eq_true,
            true_and]
  · obtain ⟨bucketIndex, hprobe⟩ := h.probe_absent hstored
    obtain ⟨prepared, hprepare, hvalid, hsame, -, hroom⟩ := h.prepareInsert
    have habsent : hash ∉ storedHashes prepared.buckets := by
      intro hmem
      obtain ⟨slots, hslots⟩ := mem_storedHashes.mp hmem
      exact hstored (mem_storedHashes.mpr ⟨slots, (hsame hash slots).mp hslots⟩)
    obtain ⟨index', _, _, hinsert, -, -, -, hvalid', hgains, -, -⟩ :=
      hvalid.insertBucket habsent (by rwa [← hvalid.hashes_eq]) (List.cons_ne_nil slot [])
        (List.nodup_singleton slot)
    refine ⟨true, index', ?_, iff_of_true rfl (not_live_of_absent hstored slot), hvalid',
      fun other held => ?_⟩
    · simp only [StoreIndex.add, hprobe, hprepare, hinsert, Option.bind_eq_bind, Option.bind_some]
    · rw [← hsame.live]
      constructor
      · rintro ⟨slots, hmem, hheld⟩
        rcases (hgains other slots).mp hmem with hmem | ⟨rfl, rfl⟩
        · exact Or.inl ⟨slots, hmem, hheld⟩
        · exact Or.inr ⟨rfl, List.mem_singleton.mp hheld⟩
      · rintro (⟨slots, hmem, hheld⟩ | ⟨rfl, rfl⟩)
        · exact ⟨slots, (hgains other slots).mpr (Or.inl hmem), hheld⟩
        · exact ⟨[held], (hgains other [held]).mpr (Or.inr ⟨rfl, rfl⟩), List.mem_singleton_self _⟩

/-- A removal succeeds when the slot is there under the hash. -/
theorem Valid.remove (h : index.Valid) (hash slot : ℕ) :
    ∃ removed index', index.remove hash slot = some (removed, index') ∧
      (removed = true ↔ index.Live hash slot) ∧ index'.Valid ∧
      ∀ other held, index'.Live other held ↔
        index.Live other held ∧ ¬(other = hash ∧ held = slot) := by
  by_cases hstored : hash ∈ storedHashes index.buckets
  · obtain ⟨slots, hmem⟩ := mem_storedHashes.mp hstored
    obtain ⟨bucketIndex, hprobe, hbucket⟩ := h.probe_stored hmem
    obtain ⟨hne, hnodup⟩ := h.slots hmem
    have hlive := h.live_iff hmem
    cases hposition : slots.idxOf? slot with
    | none =>
      have hslot : slot ∉ slots := List.idxOf?_eq_none_iff.mp hposition
      refine ⟨false, index, ?_, ?_, h, fun other held => ⟨fun hheld => ⟨hheld, ?_⟩, And.left⟩⟩
      · simp only [StoreIndex.remove, hprobe, hbucket, Option.bind_eq_bind, Option.bind_some,
          hposition]
      · rw [hlive]
        exact iff_of_false Bool.false_ne_true hslot
      · rintro ⟨rfl, rfl⟩
        exact hslot ((hlive held).mp hheld)
    | some position =>
      obtain ⟨hlt, hget, -⟩ := List.idxOf?_eq_some_iff.mp hposition
      have hperm := @swapRemove_perm slots position slot
        (by rw [List.getElem?_eq_getElem hlt, hget])
      rw [hperm.nodup_iff, List.nodup_cons] at hnodup
      have hslot : index.Live hash slot := (hlive slot).mpr (hperm.mem_iff.mpr List.mem_cons_self)
      have hothers : ∀ held, held ∈ swapRemove slots position ↔
          index.Live hash held ∧ held ≠ slot := by
        intro held
        rw [hlive, hperm.mem_iff, List.mem_cons]
        constructor
        · intro hheld
          refine ⟨Or.inr hheld, ?_⟩
          rintro rfl
          exact hnodup.1 hheld
        · rintro ⟨rfl | hheld, hdiffers⟩
          · exact absurd rfl hdiffers
          · exact hheld
      by_cases hempty : swapRemove slots position = []
      · obtain ⟨hcount, hvalid, hset⟩ := h.vacate hbucket
        refine ⟨true, _, ?_, iff_of_true rfl hslot, hvalid, fun other held => ?_⟩
        · simp only [StoreIndex.remove, hprobe, hbucket, Option.bind_eq_bind, Option.bind_some,
            hposition, hempty, List.isEmpty_nil, if_true, checkedSub_of_le hcount]
        · by_cases hother : other = hash
          · subst hother
            have hnone := hothers held
            rw [hempty] at hnone
            simp only [Live, hset, ne_eq, not_true_eq_false, false_and, exists_const, true_and,
              false_iff]
            exact fun hheld => List.not_mem_nil (hnone.mpr hheld)
          · simp only [Live, hset, hother, ne_eq, not_false_eq_true, true_and, false_and, and_true]
      · obtain ⟨hvalid, hset⟩ := h.setSlots hbucket hempty hnodup.2
        refine ⟨true, _, ?_, iff_of_true rfl hslot, hvalid, fun other held => ?_⟩
        · simp only [StoreIndex.remove, hprobe, hbucket, Option.bind_eq_bind, Option.bind_some,
            hposition, List.isEmpty_eq_false_iff.mpr hempty, Bool.false_eq_true, if_false]
        · by_cases hother : other = hash
          · subst hother
            rw [hvalid.live_iff ((hset other _).mpr (Or.inl ⟨rfl, rfl⟩)), hothers]
            simp only [true_and, ne_eq]
          · simp only [Live, hset, hother, false_and, false_or, ne_eq, not_false_eq_true,
              true_and, and_true]
  · obtain ⟨bucketIndex, hprobe⟩ := h.probe_absent hstored
    refine ⟨false, index, ?_, ?_, h, fun other held => ⟨fun hheld => ⟨hheld, ?_⟩, And.left⟩⟩
    · simp only [StoreIndex.remove, hprobe, Option.bind_eq_bind, Option.bind_some]
    · exact iff_of_false Bool.false_ne_true (not_live_of_absent hstored slot)
    · rintro ⟨rfl, rfl⟩
      exact not_live_of_absent hstored held hheld

end StoreIndex

end Nocter.DurableStore
