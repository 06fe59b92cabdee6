import Nocter.Library.Loop
import Nocter.Library.OpenAddressing
import Nocter.Library.Word

/-!
# Storage of tables

A table keeps its keys and values in two parallel vectors. Buckets hold the index
of an entry. Every allocation may fail: a call is given which of its allocations
are granted.
-/

namespace Nocter.HashTable

open OpenAddressing

/-- A returned error, an abort for lack of memory, or a trap. -/
inductive Failure where
  | error
  | allocationAbort
  | trap
  deriving DecidableEq

abbrev Result := Except Failure

/-- A read or an arithmetic operation that traps where it has no value. -/
def orTrap {α : Type} : Option α → Result α
  | some value => .ok value
  | none => .error .trap

@[simp] theorem orTrap_some {α : Type} (value : α) : orTrap (some value) = .ok value := rfl

/-- A returned error becomes an abort. -/
def orAbort {α : Type} : Result α → Result α
  | .error .error => .error .allocationAbort
  | result => result

structure Vec (α : Type) where
  values : List α
  capacity : ℕ

namespace Vec

variable {α : Type}

def len (vec : Vec α) : ℕ := vec.values.length

def empty : Vec α := ⟨[], 0⟩

def growthCapacity (current required : ℕ) : ℕ :=
  if required ≤ current then current
  else match checkedAdd u64Max current current with
    | none => u64Max
    | some doubled => if doubled < required then required else doubled

/-- `elementSize` is the size of an element and `granted` says whether memory is given. -/
def tryWithCapacity (elementSize : ℕ) (granted : Bool) (requested : ℕ) : Result (Vec α) :=
  if elementSize = 0 then .ok ⟨[], requested⟩
  else match checkedMul u64Max requested elementSize with
    | none => .error .error
    | some _ => if granted then .ok ⟨[], requested⟩ else .error .error

def tryReserve (elementSize : ℕ) (granted : Bool) (vec : Vec α) (additional : ℕ) :
    Result (Vec α) :=
  if additional = 0 then .ok vec
  else match checkedAdd u64Max vec.len additional with
    | none => .error .error
    | some required =>
      if vec.len ≤ vec.capacity ∧ additional ≤ vec.capacity - vec.len then .ok vec
      else if elementSize = 0 then
        .ok { vec with capacity := growthCapacity vec.capacity required }
      else match checkedMul u64Max (growthCapacity vec.capacity required) elementSize with
        | none =>
          match checkedMul u64Max required elementSize with
          | none => .error .error
          | some _ => if granted then .ok { vec with capacity := required } else .error .error
        | some _ =>
          if granted then .ok { vec with capacity := growthCapacity vec.capacity required }
          else .error .error

def withCapacity (elementSize : ℕ) (granted : Bool) (requested : ℕ) : Result (Vec α) :=
  orAbort (tryWithCapacity elementSize granted requested)

/-- Appending within the capacity. No table pushes beyond it, so no memory is given there. -/
def pushWithin (full : Failure) (vec : Vec α) (value : α) : Result (Vec α) :=
  if vec.len < vec.capacity then .ok { vec with values := vec.values ++ [value] }
  else .error full

def push (vec : Vec α) (value : α) : Result (Vec α) := vec.pushWithin .allocationAbort value

def replaceAt (vec : Vec α) (index : ℕ) (value : α) : Result (Vec α) := do
  let values ← orTrap (checkedSet vec.values index value)
  .ok { vec with values }

def truncate (vec : Vec α) (requestedLen : ℕ) : Vec α :=
  { vec with values := vec.values.take requestedLen }

def clear (vec : Vec α) : Vec α := { vec with values := [] }

/-- The removed element; the last one takes its place. -/
def swapRemove (vec : Vec α) (index : ℕ) : Option (α × Vec α) := do
  let removed ← vec.values[index]?
  let last ← vec.values[vec.len - 1]?
  let values := if index ≠ vec.len - 1 then vec.values.set index last else vec.values
  some (removed, { vec with values := values.take (vec.len - 1) })

end Vec

/-- Hashing under one seed, together with the equality of keys. -/
structure KeyHash (K : Type) where
  hash : K → ℕ
  eq : K → K → Bool
  refl : ∀ key, eq key key = true
  symm : ∀ {key key'}, eq key key' = true → eq key' key = true
  trans : ∀ {key key' key''}, eq key key' = true → eq key' key'' = true → eq key key'' = true
  consistent : ∀ {key key'}, eq key key' = true → hash key = hash key'

structure Table (K : Type) (V : Type) where
  keys : Vec K
  values : Vec V
  buckets : Vec Bucket
  usableBucketCapacity : ℕ
  tombstones : ℕ

/-- The sizes of the elements of the three vectors. -/
structure Sizes where
  key : ℕ
  value : ℕ
  bucket : ℕ

/-- Which allocations of one call are granted. -/
structure Grants where
  cleanup : Bool
  buckets : Bool
  keys : Bool
  values : Bool

def usableCapacity (bucketCount : ℕ) : ℕ := bucketCount - bucketCount / 4

/-- The number of buckets is doubled until it suffices, or it is no word any more. -/
def doubleBuckets (minimum bucketCount : ℕ) : ℕ ⊕ Result ℕ :=
  if usableCapacity bucketCount < minimum then
    match checkedAdd u64Max bucketCount bucketCount with
    | none => .inr (.error .error)
    | some next => .inl next
  else .inr (.ok bucketCount)

def bucketCountFor (minimum : ℕ) (bindEmpty : Bool) : Result ℕ :=
  if minimum = 0 ∧ bindEmpty = false then .ok 0
  else (Loop.within (doubleBuckets minimum) 64 8).getD (.error .trap)

/-- Pushes that fill a new bucket table. -/
def fillWithin (full : Failure) (buckets : Vec Bucket) : ℕ → Result (Vec Bucket)
  | 0 => .ok buckets
  | count + 1 => do
    let buckets ← buckets.pushWithin full .empty
    fillWithin full buckets count

def fillEmpty (buckets : Vec Bucket) (count : ℕ) : Result (Vec Bucket) :=
  fillWithin .allocationAbort buckets count

def tryFillEmpty (buckets : Vec Bucket) (count : ℕ) : Result (Vec Bucket) :=
  fillWithin .error buckets count

namespace Table

variable {K : Type} {V : Type}

def len (table : Table K V) : ℕ := table.keys.len

def tableCapacity (table : Table K V) : ℕ :=
  let dense := if table.keys.capacity < table.values.capacity then table.keys.capacity
    else table.values.capacity
  if dense < table.usableBucketCapacity then dense else table.usableBucketCapacity

def empty : Table K V := ⟨.empty, .empty, .empty, 0, 0⟩

def withCapacity (sizes : Sizes) (grants : Grants) (minimum : ℕ) : Result (Table K V) := do
  let bucketCount ← orAbort (bucketCountFor minimum false)
  let keys ← Vec.withCapacity sizes.key grants.keys minimum
  let values ← Vec.withCapacity sizes.value grants.values minimum
  let buckets ← Vec.withCapacity sizes.bucket grants.buckets bucketCount
  let buckets ← fillEmpty buckets bucketCount
  .ok ⟨keys, values, buckets, if bucketCount = 0 then 0 else usableCapacity bucketCount, 0⟩

def tryWithCapacity (sizes : Sizes) (grants : Grants) (minimum : ℕ) : Result (Table K V) := do
  let denseCapacity := if minimum = 0 then 1 else minimum
  let bucketCount ← bucketCountFor minimum true
  let keys ← Vec.tryWithCapacity sizes.key grants.keys denseCapacity
  let values ← Vec.tryWithCapacity sizes.value grants.values denseCapacity
  let buckets ← Vec.tryWithCapacity sizes.bucket grants.buckets bucketCount
  let buckets ← tryFillEmpty buckets bucketCount
  .ok ⟨keys, values, buckets, usableCapacity bucketCount, 0⟩

end Table

theorem bind_eq_ok {α β : Type} {x : Result α} {f : α → Result β} {b : β} :
    (x >>= f) = .ok b ↔ ∃ a, x = .ok a ∧ f a = .ok b := by
  cases x with
  | error failure => simp [bind, Except.bind]
  | ok a => simp [bind, Except.bind]

theorem usableCapacity_lt {bucketCount : ℕ} (h : 8 ≤ bucketCount) :
    usableCapacity bucketCount < bucketCount := by
  unfold usableCapacity
  omega

/-- Doubling ends after as many passes as a word has bits. -/
theorem doubleBuckets_within {minimum passes count : ℕ} (hcount : 8 ≤ count)
    (hpasses : 2 ^ 64 ≤ count * 2 ^ passes) :
    (∃ n, Loop.within (doubleBuckets minimum) (passes + 1) count = some (.ok n) ∧
        minimum ≤ usableCapacity n ∧ 8 ≤ n) ∨
      Loop.within (doubleBuckets minimum) (passes + 1) count = some (.error .error) := by
  induction passes generalizing count with
  | zero =>
    by_cases hsmall : usableCapacity count < minimum
    · refine Or.inr (Loop.within_of_done ?_ 0)
      rw [doubleBuckets, if_pos hsmall, checkedAdd_eq_none.mpr (by unfold u64Max; omega)]
    · refine Or.inl ⟨count, Loop.within_of_done ?_ 0, by omega, hcount⟩
      rw [doubleBuckets, if_neg hsmall]
  | succ passes ih =>
    by_cases hsmall : usableCapacity count < minimum
    · by_cases hover : u64Max < count + count
      · refine Or.inr (Loop.within_of_done ?_ _)
        rw [doubleBuckets, if_pos hsmall, checkedAdd_eq_none.mpr hover]
      · have hagain : doubleBuckets minimum count = .inl (count + count) := by
          rw [doubleBuckets, if_pos hsmall, checkedAdd_of_le (by omega)]
        rw [Loop.within_of_again hagain]
        refine ih (by omega) ?_
        rw [pow_succ] at hpasses
        calc 2 ^ 64 ≤ count * (2 ^ passes * 2) := hpasses
          _ = (count + count) * 2 ^ passes := by ring
    · refine Or.inl ⟨count, Loop.within_of_done ?_ _, by omega, hcount⟩
      rw [doubleBuckets, if_neg hsmall]

/-- A bucket table of a supported size has room for the minimum. -/
theorem bucketCountFor_cases (minimum : ℕ) (bindEmpty : Bool) :
    (∃ count, bucketCountFor minimum bindEmpty = .ok count ∧
        minimum ≤ usableCapacity count ∧ (count = 0 ∨ 8 ≤ count)) ∨
      bucketCountFor minimum bindEmpty = .error .error := by
  unfold bucketCountFor
  split
  · next hzero => exact Or.inl ⟨0, rfl, by rw [hzero.1]; exact Nat.zero_le _, Or.inl rfl⟩
  · obtain ⟨n, hn, hle, hcount⟩ | herror :=
      doubleBuckets_within (show 8 ≤ 8 from Nat.le_refl 8) (show 2 ^ 64 ≤ 8 * 2 ^ 63 by norm_num)
    · exact Or.inl ⟨n, by rw [hn]; rfl, hle, Or.inr hcount⟩
    · exact Or.inr (by rw [herror]; rfl)

theorem bucketCountFor_ok {minimum count : ℕ} {bindEmpty : Bool}
    (h : bucketCountFor minimum bindEmpty = .ok count) :
    minimum ≤ usableCapacity count ∧ (count = 0 ∨ 8 ≤ count) := by
  obtain ⟨n, hn, hle, hcount⟩ | herror := bucketCountFor_cases minimum bindEmpty
  · cases hn.symm.trans h
    exact ⟨hle, hcount⟩
  · cases herror.symm.trans h

namespace Vec

variable {α : Type} {vec vec' : Vec α}

theorem le_growthCapacity {current required : ℕ} (h : required ≤ u64Max) :
    required ≤ growthCapacity current required := by
  unfold growthCapacity
  split
  · assumption
  · split
    · exact h
    · split <;> omega

/-- Reserving changes the capacity only and makes room; otherwise it fails with an error. -/
theorem tryReserve_cases (elementSize : ℕ) (granted : Bool) (h : vec.len ≤ vec.capacity)
    (additional : ℕ) :
    (∃ capacity, tryReserve elementSize granted vec additional = .ok { vec with capacity } ∧
        vec.len + additional ≤ capacity) ∨
      tryReserve elementSize granted vec additional = .error .error := by
  unfold tryReserve
  split
  · next hzero => exact Or.inl ⟨vec.capacity, rfl, by omega⟩
  · cases hrequired : checkedAdd u64Max vec.len additional with
    | none => exact Or.inr rfl
    | some required =>
      obtain ⟨hle, rfl⟩ := checkedAdd_eq_some.mp hrequired
      dsimp only
      have hgrowth : vec.len + additional ≤ growthCapacity vec.capacity (vec.len + additional) :=
        le_growthCapacity hle
      by_cases hspare : vec.len ≤ vec.capacity ∧ additional ≤ vec.capacity - vec.len
      · rw [if_pos hspare]
        exact Or.inl ⟨vec.capacity, rfl, by omega⟩
      · rw [if_neg hspare]
        by_cases hsize : elementSize = 0
        · rw [if_pos hsize]
          exact Or.inl ⟨_, rfl, hgrowth⟩
        · rw [if_neg hsize]
          split
          · split
            · exact Or.inr rfl
            · cases granted with
              | true => exact Or.inl ⟨_, rfl, Nat.le_refl _⟩
              | false => exact Or.inr rfl
          · cases granted with
            | true => exact Or.inl ⟨_, rfl, hgrowth⟩
            | false => exact Or.inr rfl

theorem tryWithCapacity_ok {elementSize requested : ℕ} {granted : Bool}
    (h : tryWithCapacity elementSize granted requested = .ok vec) : vec = ⟨[], requested⟩ := by
  unfold tryWithCapacity at h
  split at h
  · cases h
    rfl
  · split at h
    · cases h
    · split at h <;> cases h
      rfl

/-- The last element takes the place of the one at the index. -/
def swapOut (values : List α) (last : α) (index : ℕ) : List α :=
  if index = values.length then values else values.set index last

theorem length_swapOut (values : List α) (last : α) (index : ℕ) :
    (swapOut values last index).length = values.length := by
  unfold swapOut
  split
  · rfl
  · exact List.length_set

/-- Where the element at a position comes from. -/
def swapSource (length index i : ℕ) : ℕ := if i = index then length else i

theorem swapOut_getElem? (values : List α) (last : α) (index : ℕ) {i : ℕ} (hi : i < values.length) :
    (swapOut values last index)[i]? = (values ++ [last])[swapSource values.length index i]? := by
  unfold swapOut swapSource
  by_cases hsame : i = index
  · rw [if_neg (by omega), if_pos hsame, ← hsame, List.getElem?_set_self hi,
      List.getElem?_append_right (Nat.le_refl _), Nat.sub_self]
    rfl
  · rw [if_neg hsame, List.getElem?_append_left hi]
    split
    · rfl
    · rw [List.getElem?_set_ne (Ne.symm hsame)]

theorem swapSource_ne {length index i : ℕ} (hi : i < length) : swapSource length index i ≠ index := by
  unfold swapSource
  split <;> omega

/-- Every other element is kept. -/
theorem exists_swapSource {length index j : ℕ} (hindex : index ≤ length) (hj : j ≤ length)
    (hne : j ≠ index) : ∃ i < length, swapSource length index i = j := by
  unfold swapSource
  by_cases hlast : j = length
  · exact ⟨index, by omega, by rw [if_pos rfl, hlast]⟩
  · exact ⟨j, by omega, by rw [if_neg hne]⟩

theorem swapSource_injective {length index i i' : ℕ} (hi : i < length) (hi' : i' < length)
    (h : swapSource length index i = swapSource length index i') : i = i' := by
  unfold swapSource at h
  split at h <;> split at h <;> omega

/-- Removing an element, which may be the last one. -/
theorem swapRemove_eq {values : List α} {last : α} (hvalues : vec.values = values ++ [last])
    {index : ℕ} (h : index ≤ values.length) :
    ∃ removed, (values ++ [last])[index]? = some removed ∧ vec.swapRemove index =
      some (removed, { vec with values := swapOut values last index }) := by
  have hlen : vec.len - 1 = values.length := by
    rw [len, hvalues, List.length_append, List.length_singleton, Nat.add_sub_cancel]
  have hlt : index < (values ++ [last]).length := by
    rw [List.length_append, List.length_singleton]
    omega
  refine ⟨(values ++ [last])[index], List.getElem?_eq_getElem hlt, ?_⟩
  have hlast : (values ++ [last])[values.length]? = some last := by
    rw [List.getElem?_append_right (Nat.le_refl _), Nat.sub_self]
    rfl
  simp only [swapRemove, swapOut, Option.bind_eq_bind]
  rw [hlen, hvalues, List.getElem?_eq_getElem hlt, Option.bind_some, hlast, Option.bind_some]
  by_cases hsame : index = values.length
  · rw [if_neg (by simpa using hsame), if_pos hsame, List.take_left]
  · rw [if_pos hsame, if_neg hsame, List.set_append_left _ _ (by omega)]
    have htake : (values.set index last ++ [last]).take values.length = values.set index last :=
      List.take_left' (by rw [List.length_set])
    rw [htake]

end Vec

theorem orAbort_eq_ok {α : Type} {result : Result α} {value : α} :
    orAbort result = .ok value ↔ result = .ok value := by
  constructor
  · intro h
    unfold orAbort at h
    split at h
    · cases h
    · exact h
  · rintro rfl
    rfl

/-- A new bucket table is filled within its capacity. -/
theorem fillWithin_eq (full : Failure) (buckets : Vec Bucket) {count : ℕ}
    (h : buckets.len + count ≤ buckets.capacity) : fillWithin full buckets count =
      .ok { buckets with values := buckets.values ++ List.replicate count .empty } := by
  induction count generalizing buckets with
  | zero => rw [fillWithin, List.replicate_zero, List.append_nil]
  | succ count ih =>
    have hlen : (buckets.values ++ [Bucket.empty]).length = buckets.len + 1 := by
      rw [List.length_append, List.length_singleton]
      rfl
    rw [fillWithin, Vec.pushWithin, if_pos (by omega)]
    change fillWithin full { buckets with values := buckets.values ++ [Bucket.empty] } count = _
    rw [ih _ (by rw [Vec.len]; simp only; omega), List.replicate_succ, List.append_assoc,
      List.singleton_append]

end Nocter.HashTable
