import Nocter.HashTable.Storage

/-!
# Probing

A key is looked for in the buckets that its hash visits, up to an empty one. The
first deleted bucket on the way is the one that a new entry takes.
-/

namespace Nocter.HashTable

open OpenAddressing

variable {K V : Type}

inductive Probe where
  | found (bucketIndex entryIndex hash : ℕ)
  | vacant (bucketIndex hash : ℕ)

def nextIndex (index bucketCount : ℕ) : ℕ :=
  let next := index + 1
  if next = bucketCount then 0 else next

/-- The variables of a probing loop. -/
structure ProbeLoop where
  bucketIndex : ℕ
  firstDeleted : ℕ

def ProbeLoop.free (loop : ProbeLoop) (bucketCount : ℕ) : ℕ :=
  if loop.firstDeleted < bucketCount then loop.firstDeleted else loop.bucketIndex

def ProbeLoop.next (loop : ProbeLoop) (bucketCount : ℕ) : ProbeLoop :=
  { loop with bucketIndex := nextIndex loop.bucketIndex bucketCount }

/-- A deleted bucket is remembered if it is the first. -/
def ProbeLoop.deleted (loop : ProbeLoop) (bucketCount : ℕ) : ProbeLoop :=
  { loop with
    firstDeleted := if loop.firstDeleted = bucketCount then loop.bucketIndex else loop.firstDeleted }

/-- One pass of the loop of `probe_parts`. -/
def probeBucket (hasher : KeyHash K) (buckets : List Bucket) (keys : List K) (key : K)
    (_examined : ℕ) (loop : ProbeLoop) : Option (ProbeLoop ⊕ Probe) :=
  match buckets[loop.bucketIndex]? with
  | none => none
  | some .empty => some (.inr (.vacant (loop.free buckets.length) (hasher.hash key)))
  | some .deleted => some (.inl ((loop.deleted buckets.length).next buckets.length))
  | some (.occupied entryIndex) => do
    let other ← keys[entryIndex]?
    if hasher.eq other key then
      some (.inr (.found loop.bucketIndex entryIndex (hasher.hash key)))
    else some (.inl (loop.next buckets.length))

def probeParts (hasher : KeyHash K) (buckets : List Bucket) (keys : List K) (key : K) :
    Option Probe :=
  let hash := hasher.hash key
  if buckets.length = 0 then some (.vacant 0 hash)
  else do
    match ← Loop.countedUntil (probeBucket hasher buckets keys key) buckets.length 0
      ⟨hash % buckets.length, buckets.length⟩ with
    | .inr probe => some probe
    | .inl loop =>
      if loop.firstDeleted < buckets.length then some (.vacant loop.firstDeleted hash)
      else some (.vacant 0 hash)

/-- One pass of the loop of `vacant_for_hash`. -/
def vacantBucket (buckets : List Bucket) (_examined : ℕ) (loop : ProbeLoop) :
    Option (ProbeLoop ⊕ ℕ) :=
  match buckets[loop.bucketIndex]? with
  | none => none
  | some .empty => some (.inr (loop.free buckets.length))
  | some .deleted => some (.inl ((loop.deleted buckets.length).next buckets.length))
  | some (.occupied _) => some (.inl (loop.next buckets.length))

/-- The remainder by a count of zero traps. -/
def vacantForHash (buckets : List Bucket) (hash : ℕ) : Option ℕ :=
  if buckets.length = 0 then none
  else do
    match ← Loop.countedUntil (vacantBucket buckets) buckets.length 0
      ⟨hash % buckets.length, buckets.length⟩ with
    | .inr bucketIndex => some bucketIndex
    | .inl loop => if loop.firstDeleted < buckets.length then some loop.firstDeleted else some 0

namespace Table

variable (hasher : KeyHash K) (table : Table K V)

def probe (key : K) : Option Probe :=
  probeParts hasher table.buckets.values table.keys.values key

def findEntryIndex (key : K) : Option (Option ℕ) := do
  match ← table.probe hasher key with
  | .found _ entryIndex _ => some (some entryIndex)
  | .vacant _ _ => some none

/-- The value of a key; looking at an entry that does not exist traps. -/
def get (key : K) : Option (Option V) := do
  match ← table.findEntryIndex hasher key with
  | none => some none
  | some entryIndex =>
    let value ← table.values.values[entryIndex]?
    some (some value)

end Table

theorem nextIndex_visit {count : ℕ} (h : 0 < count) (hash i : ℕ) :
    nextIndex (visit count hash i) count = visit count hash (i + 1) := by
  have hlt := visit_lt h hash i
  have hnext : visit count hash (i + 1) = (visit count hash i + 1) % count := by
    rw [visit, visit, Nat.mod_add_mod, Nat.add_assoc]
  rw [hnext]
  unfold nextIndex
  dsimp only
  split
  · next hlast => rw [hlast, Nat.mod_self]
  · next hmore => rw [Nat.mod_eq_of_lt (by omega)]

/-- What the probing loops have seen before they visit their next bucket. -/
structure Probed (buckets : List Bucket) (hash i : ℕ) (loop : ProbeLoop) : Prop where
  bucketIndex_eq : loop.bucketIndex = visit buckets.length hash i
  nonempty : ∀ j < i, buckets[visit buckets.length hash j]? ≠ some .empty
  deleted : loop.firstDeleted < buckets.length → buckets[loop.firstDeleted]? = some .deleted ∧
    ∃ j < i, visit buckets.length hash j = loop.firstDeleted
  occupied : buckets.length ≤ loop.firstDeleted → loop.firstDeleted = buckets.length ∧
    ∀ j < i, buckets[visit buckets.length hash j]? ≠ some .deleted

namespace Probed

variable {buckets : List Bucket} {hash i : ℕ} {loop : ProbeLoop}

theorem start (buckets : List Bucket) (hash : ℕ) :
    Probed buckets hash 0 ⟨hash % buckets.length, buckets.length⟩ where
  bucketIndex_eq := rfl
  nonempty j hj := absurd hj (Nat.not_lt_zero j)
  deleted hlt := absurd hlt (Nat.lt_irrefl _)
  occupied _ := ⟨rfl, fun j hj => absurd hj (Nat.not_lt_zero j)⟩

theorem nextOccupied (h : Probed buckets hash i loop) {entry : ℕ}
    (hbucket : buckets[loop.bucketIndex]? = some (.occupied entry)) :
    Probed buckets hash (i + 1) (loop.next buckets.length) := by
  have hpositive : 0 < buckets.length :=
    Nat.lt_of_le_of_lt (Nat.zero_le _) (List.getElem?_eq_some_iff.mp hbucket).1
  have hvisited : ∀ {value : Bucket}, value ≠ .occupied entry →
      (∀ j < i, buckets[visit buckets.length hash j]? ≠ some value) →
      ∀ j < i + 1, buckets[visit buckets.length hash j]? ≠ some value := by
    intro value hvalue hbefore j hj hsome
    obtain hlt | rfl := Nat.lt_succ_iff_lt_or_eq.mp hj
    · exact hbefore j hlt hsome
    · rw [← h.bucketIndex_eq, hbucket] at hsome
      exact hvalue (Option.some.inj hsome).symm
  refine ⟨?_, hvisited (by simp) h.nonempty, fun hlt => ?_, fun hle => ?_⟩
  · rw [ProbeLoop.next, h.bucketIndex_eq]
    exact nextIndex_visit hpositive hash i
  · obtain ⟨hdeleted, j, hj, hvisit⟩ := h.deleted hlt
    exact ⟨hdeleted, j, Nat.lt_succ_of_lt hj, hvisit⟩
  · obtain ⟨heq, hbefore⟩ := h.occupied hle
    exact ⟨heq, hvisited (by simp) hbefore⟩

theorem nextDeleted (h : Probed buckets hash i loop)
    (hbucket : buckets[loop.bucketIndex]? = some .deleted) :
    Probed buckets hash (i + 1) ((loop.deleted buckets.length).next buckets.length) := by
  have hlt := (List.getElem?_eq_some_iff.mp hbucket).1
  refine ⟨?_, fun j hj hsome => ?_, fun hfirst => ?_, fun hle => ?_⟩
  · rw [ProbeLoop.next, ProbeLoop.deleted]
    dsimp only
    rw [h.bucketIndex_eq]
    exact nextIndex_visit (by omega) hash i
  · obtain hold | rfl := Nat.lt_succ_iff_lt_or_eq.mp hj
    · exact h.nonempty j hold hsome
    · rw [← h.bucketIndex_eq, hbucket] at hsome
      cases hsome
  · rw [ProbeLoop.next, ProbeLoop.deleted] at hfirst ⊢
    dsimp only at hfirst ⊢
    by_cases hnone : loop.firstDeleted = buckets.length
    · rw [if_pos hnone]
      exact ⟨hbucket, i, Nat.lt_succ_self i, h.bucketIndex_eq.symm⟩
    · rw [if_neg hnone] at hfirst ⊢
      obtain ⟨hdeleted, j, hj, hvisit⟩ := h.deleted hfirst
      exact ⟨hdeleted, j, Nat.lt_succ_of_lt hj, hvisit⟩
  · exfalso
    rw [ProbeLoop.next, ProbeLoop.deleted] at hle
    dsimp only at hle
    by_cases hnone : loop.firstDeleted = buckets.length
    · rw [if_pos hnone] at hle
      omega
    · rw [if_neg hnone] at hle
      exact hnone (h.occupied hle).1

/-- The bucket for a new entry when an empty bucket is met. -/
theorem free (h : Probed buckets hash i loop) (hi : i < buckets.length)
    (hbucket : buckets[loop.bucketIndex]? = some .empty) :
    loop.free buckets.length < buckets.length ∧
      (∀ entry, buckets[loop.free buckets.length]? ≠ some (.occupied entry)) ∧
      OnPath buckets hash (loop.free buckets.length) := by
  have hlt := (List.getElem?_eq_some_iff.mp hbucket).1
  unfold ProbeLoop.free
  split
  · next hfirst =>
    obtain ⟨hdeleted, j, hj, hvisit⟩ := h.deleted hfirst
    refine ⟨hfirst, fun entry hsome => ?_, j, by omega, hvisit,
      fun k hk => h.nonempty k (by omega)⟩
    rw [hdeleted] at hsome
    cases hsome
  · refine ⟨hlt, fun entry hsome => ?_, i, hi, h.bucketIndex_eq.symm, h.nonempty⟩
    rw [hbucket] at hsome
    cases hsome

end Probed

/-- Distinct keys with their hashes behind the buckets. -/
structure Indexed (hasher : KeyHash K) (buckets : List Bucket) (keys : List K) : Prop where
  indexes : Indexes buckets (keys.map hasher.hash)
  distinct : ∀ {entry entry' : ℕ} {key key' : K}, keys[entry]? = some key →
    keys[entry']? = some key' → hasher.eq key key' = true → entry = entry'

/-- What a probe says about a key. -/
inductive Probes (hasher : KeyHash K) (buckets : List Bucket) (keys : List K) (key : K) :
    Probe → Prop
  | found {bucketIndex entryIndex : ℕ} {other : K}
      (hbucket : buckets[bucketIndex]? = some (.occupied entryIndex))
      (hkey : keys[entryIndex]? = some other) (heq : hasher.eq other key = true) :
      Probes hasher buckets keys key (.found bucketIndex entryIndex (hasher.hash key))
  | vacant {bucketIndex : ℕ}
      (hnone : ∀ {entry : ℕ} {other : K}, keys[entry]? = some other → hasher.eq other key = false) :
      Probes hasher buckets keys key (.vacant bucketIndex (hasher.hash key))

theorem probeParts_probes {hasher : KeyHash K} {buckets : List Bucket} {keys : List K}
    (h : Indexed hasher buckets keys) (key : K) :
    ∃ probe, probeParts hasher buckets keys key = some probe ∧
      Probes hasher buckets keys key probe := by
  -- an entry with this key lies on the way of its hash
  have hpath : ∀ {entry : ℕ} {other : K}, keys[entry]? = some other →
      hasher.eq other key = true → ∃ j < buckets.length,
        buckets[visit buckets.length (hasher.hash key) j]? = some (.occupied entry) ∧
        ∀ k < j, buckets[visit buckets.length (hasher.hash key) k]? ≠ some .empty := by
    intro entry other hother heq
    obtain ⟨bucket, hbucket, j, hj, hvisit, hbefore⟩ := h.indexes.placed
      (show (keys.map hasher.hash)[entry]? = some (hasher.hash key) by
        rw [List.getElem?_map, hother, Option.map_some, hasher.consistent heq])
    exact ⟨j, hj, by rw [hvisit, hbucket], hbefore⟩
  unfold probeParts
  dsimp only
  split
  · next hzero =>
    refine ⟨_, rfl, .vacant fun {entry other} hother => ?_⟩
    rw [Bool.eq_false_iff]
    intro heq
    obtain ⟨j, hj, _⟩ := hpath hother heq
    omega
  · next hsome =>
    have hbody : ∀ i loop, i < buckets.length →
        (Probed buckets (hasher.hash key) i loop ∧ ∀ j < i, ∀ entry other,
          buckets[visit buckets.length (hasher.hash key) j]? = some (.occupied entry) →
          keys[entry]? = some other → hasher.eq other key = false) →
        (∃ next, probeBucket hasher buckets keys key i loop = some (.inl next) ∧
          Probed buckets (hasher.hash key) (i + 1) next ∧ ∀ j < i + 1, ∀ entry other,
            buckets[visit buckets.length (hasher.hash key) j]? = some (.occupied entry) →
            keys[entry]? = some other → hasher.eq other key = false) ∨
        ∃ probe, probeBucket hasher buckets keys key i loop = some (.inr probe) ∧
          Probes hasher buckets keys key probe := by
      rintro i loop hi ⟨hprobed, hunequal⟩
      have hlt : loop.bucketIndex < buckets.length := by
        rw [hprobed.bucketIndex_eq]
        exact visit_lt (by omega) _ _
      have hmore : (∀ entry other, buckets[loop.bucketIndex]? = some (.occupied entry) →
          keys[entry]? = some other → hasher.eq other key = false) →
          ∀ j < i + 1, ∀ entry other,
            buckets[visit buckets.length (hasher.hash key) j]? = some (.occupied entry) →
            keys[entry]? = some other → hasher.eq other key = false := by
        intro hhere j hj entry other hbucket hother
        obtain hold | rfl := Nat.lt_succ_iff_lt_or_eq.mp hj
        · exact hunequal j hold entry other hbucket hother
        · rw [← hprobed.bucketIndex_eq] at hbucket
          exact hhere entry other hbucket hother
      unfold probeBucket
      cases hbucket : buckets[loop.bucketIndex]? with
      | none => exact absurd (List.getElem?_eq_none_iff.mp hbucket) (by omega)
      | some bucket =>
        cases bucket with
        | empty =>
          refine Or.inr ⟨_, rfl, .vacant fun {entry other} hother => ?_⟩
          rw [Bool.eq_false_iff]
          intro heq
          obtain ⟨j, hj, hat, hbefore⟩ := hpath hother heq
          rw [hprobed.bucketIndex_eq] at hbucket
          rcases Nat.lt_trichotomy j i with hbelow | rfl | habove
          · rw [hunequal j hbelow entry other hat hother] at heq
            cases heq
          · rw [hat] at hbucket
            cases hbucket
          · exact hbefore i habove hbucket
        | deleted =>
          refine Or.inl ⟨_, rfl, hprobed.nextDeleted hbucket, hmore fun entry other hat => ?_⟩
          rw [hbucket] at hat
          cases hat
        | occupied entry =>
          have hbound := h.indexes.bound hbucket
          rw [List.length_map] at hbound
          have hkey : keys[entry]? = some keys[entry] := List.getElem?_eq_getElem hbound
          simp only [Option.bind_eq_bind]
          rw [hkey, Option.bind_some]
          cases heq : hasher.eq keys[entry] key with
          | true => exact Or.inr ⟨_, rfl, .found hbucket hkey heq⟩
          | false =>
            refine Or.inl ⟨_, rfl, hprobed.nextOccupied hbucket, hmore fun entry' other hat hother => ?_⟩
            rw [hbucket] at hat
            cases hat
            rw [hkey] at hother
            cases hother
            exact heq
    simp only [Option.bind_eq_bind]
    rcases Loop.countedUntil_spec (P := fun i loop => Probed buckets (hasher.hash key) i loop ∧
        ∀ j < i, ∀ entry other,
          buckets[visit buckets.length (hasher.hash key) j]? = some (.occupied entry) →
          keys[entry]? = some other → hasher.eq other key = false)
      (Q := Probes hasher buckets keys key) hbody (Nat.zero_add buckets.length)
      ⟨Probed.start buckets (hasher.hash key), fun j hj => absurd hj (Nat.not_lt_zero j)⟩ with
      ⟨loop, hloop, _, hunequal⟩ | ⟨probe, hloop, hprobe⟩
    · rw [hloop, Option.bind_some]
      have hvacant : ∀ {entry : ℕ} {other : K}, keys[entry]? = some other →
          hasher.eq other key = false := by
        intro entry other hother
        rw [Bool.eq_false_iff]
        intro heq
        obtain ⟨j, hj, hat, _⟩ := hpath hother heq
        rw [hunequal j hj entry other hat hother] at heq
        cases heq
      dsimp only
      split
      · exact ⟨_, rfl, .vacant hvacant⟩
      · exact ⟨_, rfl, .vacant hvacant⟩
    · rw [hloop, Option.bind_some]
      exact ⟨probe, rfl, hprobe⟩

/-- With fewer entries than buckets a new entry finds a bucket on the way of its hash. -/
theorem vacantForHash_spec {buckets : List Bucket} {hashes : List ℕ} (h : Indexes buckets hashes)
    (hlt : hashes.length < buckets.length) (hash : ℕ) :
    ∃ bucket, vacantForHash buckets hash = some bucket ∧ bucket < buckets.length ∧
      (∀ entry, buckets[bucket]? ≠ some (.occupied entry)) ∧ OnPath buckets hash bucket := by
  have hbody : ∀ i loop, i < buckets.length → Probed buckets hash i loop →
      (∃ next, vacantBucket buckets i loop = some (.inl next) ∧ Probed buckets hash (i + 1) next) ∨
      ∃ bucket, vacantBucket buckets i loop = some (.inr bucket) ∧ bucket < buckets.length ∧
        (∀ entry, buckets[bucket]? ≠ some (.occupied entry)) ∧ OnPath buckets hash bucket := by
    intro i loop hi hprobed
    have hindex : loop.bucketIndex < buckets.length := by
      rw [hprobed.bucketIndex_eq]
      exact visit_lt (by omega) _ _
    unfold vacantBucket
    cases hbucket : buckets[loop.bucketIndex]? with
    | none => exact absurd (List.getElem?_eq_none_iff.mp hbucket) (by omega)
    | some bucket =>
      cases bucket with
      | empty => exact Or.inr ⟨_, rfl, hprobed.free hi hbucket⟩
      | deleted => exact Or.inl ⟨_, rfl, hprobed.nextDeleted hbucket⟩
      | occupied entry => exact Or.inl ⟨_, rfl, hprobed.nextOccupied hbucket⟩
  unfold vacantForHash
  rw [if_neg (by omega)]
  simp only [Option.bind_eq_bind]
  rcases Loop.countedUntil_spec (P := Probed buckets hash)
    (Q := fun bucket => bucket < buckets.length ∧
      (∀ entry, buckets[bucket]? ≠ some (.occupied entry)) ∧ OnPath buckets hash bucket)
    hbody (Nat.zero_add buckets.length) (Probed.start buckets hash) with
    ⟨loop, hloop, hprobed⟩ | ⟨bucket, hloop, hbucket⟩
  · rw [hloop, Option.bind_some]
    -- no bucket was empty, so one of them is deleted
    have hfirst : loop.firstDeleted < buckets.length := by
      by_contra hge
      obtain ⟨bucket, hbucket, hvacant⟩ := h.exists_vacant hlt
      obtain ⟨j, hj, rfl⟩ := exists_visit hash hbucket
      cases hvalue : buckets[visit buckets.length hash j]? with
      | none => exact absurd (List.getElem?_eq_none_iff.mp hvalue) (by omega)
      | some value =>
        cases value with
        | empty => exact hprobed.nonempty j hj hvalue
        | deleted => exact (hprobed.occupied (by omega)).2 j hj hvalue
        | occupied entry => exact hvacant entry hvalue
    obtain ⟨hdeleted, j, hj, hvisit⟩ := hprobed.deleted hfirst
    dsimp only
    rw [if_pos hfirst]
    refine ⟨_, rfl, hfirst, fun entry hsome => ?_, j, hj, hvisit,
      fun k hk => hprobed.nonempty k (by omega)⟩
    rw [hdeleted] at hsome
    cases hsome
  · rw [hloop, Option.bind_some]
    exact ⟨bucket, rfl, hbucket⟩

end Nocter.HashTable
