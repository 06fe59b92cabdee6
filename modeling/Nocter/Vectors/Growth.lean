import Mathlib.Order.Basic
import Nocter.Vectors.Mutation

/-!
# Growth of a vector

The storage of a vector has room for its capacity. A reservation that succeeds leaves room
for what it was asked for, and one that fails changes nothing; it fails only where the bytes
cannot be counted or the allocator refuses them.
-/

namespace Nocter.Vectors

open ObjectMemory

variable {T : Type} {α β : Type}

/-- The operation returns a value and leaves a world. -/
def Returns (op : Op T α) (world : World T) (value : α) (next : World T) : Prop :=
  op world = .ok (value, next)

def Stops (op : Op T α) (world : World T) (reason : Stop) : Prop := op world = .error reason

theorem Returns.pure {world : World T} (value : α) : Returns (pure value) world value world := rfl

theorem Returns.bind {op : Op T α} {next : α → Op T β} {world middle final : World T} {value : α}
    {result : β} (h : Returns op world value middle) (hnext : Returns (next value) middle result final) :
    Returns (op >>= next) world result final := by
  change (op world >>= fun pair => next pair.1 pair.2) = _
  rw [h]
  exact hnext

theorem Returns.bind_stops {op : Op T α} {next : α → Op T β} {world middle : World T} {value : α}
    {reason : Stop} (h : Returns op world value middle) (hnext : Stops (next value) middle reason) :
    Stops (op >>= next) world reason := by
  change (op world >>= fun pair => next pair.1 pair.2) = _
  rw [h]
  exact hnext

theorem Stops.bind {op : Op T α} {next : α → Op T β} {world : World T} {reason : Stop}
    (h : Stops op world reason) : Stops (op >>= next) world reason := by
  change (op world >>= fun pair => next pair.1 pair.2) = _
  rw [h]
  rfl

theorem returns_readVec {next : Vec → Op T β} {world final : World T} {result : β} :
    Returns (readVec >>= next) world result final ↔ Returns (next world.vec) world result final :=
  Iff.rfl

theorem stops_readVec {next : Vec → Op T β} {world : World T} {reason : Stop} :
    Stops (readVec >>= next) world reason ↔ Stops (next world.vec) world reason :=
  Iff.rfl

/-! ### Room -/

/-- The storage that the vector points to has room for its capacity, and no more. -/
structure Owned (pointee : Pointee T) (vec : Vec) : Prop where
  ptr : vec.ptr = vec.storage.ptr
  capacity : vec.capacity ≤ maximumUsize
  bytes : vec.storage.len ≤ maximumUsize
  room : pointee.size ≠ 0 → vec.storage.len = vec.capacity * pointee.size

variable {pointee : Pointee T} {vec : Vec} {allocator : Allocator}

theorem Owned.room_le (h : Owned pointee vec) : vec.capacity * pointee.size ≤ vec.storage.len := by
  by_cases hsize : pointee.size = 0
  · rw [hsize, Nat.mul_zero]
    exact Nat.zero_le _
  · exact (h.room hsize).ge

/-- A slot below the capacity lies in the storage. -/
theorem Owned.slot (h : Owned pointee vec) {index : ℕ} (hindex : index < vec.capacity) :
    index * pointee.size + pointee.size ≤ vec.storage.len := by
  calc index * pointee.size + pointee.size = (index + 1) * pointee.size := (Nat.succ_mul _ _).symm
    _ ≤ vec.capacity * pointee.size := Nat.mul_le_mul_right _ hindex
    _ ≤ vec.storage.len := h.room_le

theorem Owned.offset (h : Owned pointee vec) {index : ℕ} (hindex : index < vec.capacity) :
    index * pointee.size ≤ maximumUsize :=
  (Nat.le_add_right _ _).trans ((h.slot hindex).trans h.bytes)

theorem required_le_growthCapacity {current required : ℕ} (hrequired : required ≤ maximumUsize) :
    required ≤ growthCapacity current required := by
  rw [growthCapacity]
  split
  · assumption
  · split
    · exact hrequired
    · split
      · exact le_rfl
      · exact not_lt.mp ‹_›

theorem growthCapacity_le {current required : ℕ} (hcurrent : current ≤ maximumUsize)
    (hrequired : required ≤ maximumUsize) : growthCapacity current required ≤ maximumUsize := by
  rw [growthCapacity, checkedAdd]
  split
  · exact hcurrent
  · split
    · exact le_rfl
    · next doubled hdoubled =>
      split at hdoubled
      · cases hdoubled
        split <;> assumption
      · cases hdoubled

/-- Why a reservation fails: the bytes cannot be counted, or the allocator refuses some. -/
def Refused (pointee : Pointee T) (allocator : Allocator) (vec : Vec) (additional : ℕ)
    (error : Error) : Prop :=
  (error = capacityOverflow ∧ maximumUsize < (vec.len + additional) * max 1 pointee.size) ∨
    ∃ bytes, vec.storage.len < bytes ∧ allocator bytes = .error error

/-- What a reservation leaves of a vector. -/
inductive Reserved (pointee : Pointee T) (allocator : Allocator) (vec : Vec) (additional : ℕ) :
    Except Error ℕ → Vec → Prop
  | room {next : Vec} (howned : Owned pointee next) (hlen : next.len = vec.len)
      (hroom : vec.len + additional ≤ next.capacity) :
      Reserved pointee allocator vec additional (.ok (vec.len + additional)) next
  | refused {error : Error} (hrefused : Refused pointee allocator vec additional error) :
      Reserved pointee allocator vec additional (.error error) vec

section Grow

variable {world : World T} {bytes : ℕ}

theorem tryGrowOwned_ok {address : ℕ} (hmore : world.vec.storage.len < bytes)
    (hallocator : allocator bytes = .ok address) :
    Returns (tryGrowOwned allocator bytes) world (.ok ())
      { world with vec := { world.vec with storage := ⟨address, bytes⟩ } } := by
  rw [Returns, tryGrowOwned, if_neg (by omega), if_neg (by omega), hallocator]

theorem tryGrowOwned_error {error : Error} (hmore : world.vec.storage.len < bytes)
    (hallocator : allocator bytes = .error error) :
    Returns (tryGrowOwned allocator bytes) world (.error error) world := by
  rw [Returns, tryGrowOwned, if_neg (by omega), if_neg (by omega), hallocator]

/-- The steps of `try_reserve` that grow the storage to a capacity. -/
def growTo (allocator : Allocator) (bytes capacity required : ℕ) : Op T (Except Error ℕ) := do
  match ← tryGrowOwned allocator bytes with
  | .error error => return .error error
  | .ok () =>
    setPtrToStorage
    setCapacity capacity
    return .ok required

theorem growTo_reserved {capacity additional : ℕ} (howned : Owned pointee world.vec)
    (hsize : pointee.size ≠ 0) (hmore : world.vec.capacity < world.vec.len + additional)
    (hcapacity : world.vec.len + additional ≤ capacity) (hbytes : capacity * pointee.size ≤ maximumUsize) :
    ∃ result next, Reserved pointee allocator world.vec additional result next ∧
      Returns (growTo allocator (capacity * pointee.size) capacity (world.vec.len + additional)) world
        result { world with vec := next } := by
  have hlarger : world.vec.storage.len < capacity * pointee.size := by
    rw [howned.room hsize]
    exact Nat.mul_lt_mul_of_pos_right (hmore.trans_le hcapacity) (Nat.pos_of_ne_zero hsize)
  cases hallocator : allocator (capacity * pointee.size) with
  | error error =>
    exact ⟨_, world.vec, .refused (.inr ⟨_, hlarger, hallocator⟩),
      (tryGrowOwned_error hlarger hallocator).bind (.pure _)⟩
  | ok address =>
    refine ⟨_, ⟨address, ⟨address, capacity * pointee.size⟩, world.vec.len, capacity⟩,
      .room ⟨rfl, ?_, hbytes, fun _ => rfl⟩ rfl hcapacity,
      (tryGrowOwned_ok hlarger hallocator).bind rfl⟩
    exact (Nat.le_mul_of_pos_right _ (Nat.pos_of_ne_zero hsize)).trans hbytes

end Grow

theorem checkedMul_eq_none {a b : ℕ} : checkedMul a b = none ↔ maximumUsize < a * b := by
  rw [checkedMul]
  split
  · next h => exact ⟨fun heq => (by cases heq), fun hlt => absurd h (not_le.mpr hlt)⟩
  · next h => exact ⟨fun _ => not_le.mp h, fun _ => rfl⟩

theorem checkedMul_eq_some {a b c : ℕ} : checkedMul a b = some c ↔ a * b ≤ maximumUsize ∧ c = a * b := by
  rw [checkedMul]
  split
  · next h => exact ⟨fun heq => ⟨h, (Option.some.inj heq).symm⟩, fun ⟨_, heq⟩ => by rw [heq]⟩
  · next h => exact ⟨fun heq => (by cases heq), fun ⟨hle, _⟩ => absurd hle h⟩

theorem checkedAdd_eq_none {a b : ℕ} : checkedAdd a b = none ↔ maximumUsize < a + b := by
  rw [checkedAdd]
  split
  · next h => exact ⟨fun heq => (by cases heq), fun hlt => absurd h (not_le.mpr hlt)⟩
  · next h => exact ⟨fun _ => not_le.mp h, fun _ => rfl⟩

theorem checkedAdd_of_le {a b : ℕ} (h : a + b ≤ maximumUsize) : checkedAdd a b = some (a + b) :=
  if_pos h

/-- A reservation that the capacity has no room for. -/
theorem tryReserve_grows {world : World T} {additional : ℕ} (howned : Owned pointee world.vec)
    (hrequired : world.vec.len + additional ≤ maximumUsize)
    (hmore : world.vec.capacity < world.vec.len + additional) (hpositive : additional ≠ 0) :
    ∃ result next, Reserved pointee allocator world.vec additional result next ∧
      Returns (tryReserve pointee allocator additional) world result { world with vec := next } := by
  have hnext := @required_le_growthCapacity world.vec.capacity _ hrequired
  have hspare : ¬ (world.vec.capacity ≥ world.vec.len ∧
      additional ≤ world.vec.capacity - world.vec.len) := by omega
  unfold tryReserve
  simp only [returns_readVec, if_neg hpositive, checkedAdd_of_le hrequired, if_neg hspare]
  by_cases hsize : pointee.size = 0
  · rw [if_pos hsize]
    exact ⟨_, ⟨world.vec.ptr, world.vec.storage, world.vec.len, growthCapacity world.vec.capacity
      (world.vec.len + additional)⟩, .room ⟨howned.ptr, growthCapacity_le howned.capacity hrequired,
      howned.bytes, fun hpos => absurd hsize hpos⟩ rfl hnext, rfl⟩
  · rw [if_neg hsize]
    cases hnextBytes : checkedMul (growthCapacity world.vec.capacity
        (world.vec.len + additional)) pointee.size with
    | some bytes =>
      obtain ⟨hbytes, rfl⟩ := checkedMul_eq_some.mp hnextBytes
      exact growTo_reserved howned hsize hmore hnext hbytes
    | none =>
      cases hbytes : checkedMul (world.vec.len + additional) pointee.size with
      | some bytes =>
        obtain ⟨hbound, rfl⟩ := checkedMul_eq_some.mp hbytes
        exact growTo_reserved howned hsize hmore le_rfl hbound
      | none =>
        refine ⟨_, world.vec, .refused (.inl ⟨rfl, ?_⟩), .pure _⟩
        exact (checkedMul_eq_none.mp hbytes).trans_le (Nat.mul_le_mul_left _ (le_max_right _ _))

/-- A reservation leaves room, or fails and leaves the vector as it was. -/
theorem tryReserve_reserved {world : World T} (howned : Owned pointee world.vec)
    (hlen : world.vec.len ≤ world.vec.capacity) (additional : ℕ) :
    ∃ result next, Reserved pointee allocator world.vec additional result next ∧
      Returns (tryReserve pointee allocator additional) world result { world with vec := next } := by
  by_cases hnone : additional = 0
  · subst hnone
    exact ⟨_, world.vec, .room howned rfl hlen, rfl⟩
  by_cases hrequired : world.vec.len + additional ≤ maximumUsize
  · by_cases hmore : world.vec.capacity < world.vec.len + additional
    · exact tryReserve_grows howned hrequired hmore hnone
    · refine ⟨_, world.vec, .room howned rfl (not_lt.mp hmore), ?_⟩
      unfold tryReserve
      have hspare : world.vec.capacity ≥ world.vec.len ∧
        additional ≤ world.vec.capacity - world.vec.len := by omega
      simp only [returns_readVec, if_neg hnone, checkedAdd_of_le hrequired, if_pos hspare]
      exact .pure _
  · refine ⟨_, world.vec, .refused (.inl ⟨rfl, ?_⟩), ?_⟩
    · exact (not_le.mp hrequired).trans_le (Nat.le_mul_of_pos_right _ (by omega))
    · unfold tryReserve
      rw [returns_readVec, if_neg hnone, checkedAdd_eq_none.mpr (not_le.mp hrequired)]
      exact .pure _

end Nocter.Vectors
