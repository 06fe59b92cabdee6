import Nocter.Library.ObjectMemory

/-!
# Storage of a vector

The raw buffer that a vector owns, the elements that live in it, and the primitives that move
elements at byte offsets. A primitive faults where it would touch storage that is not owned or
a slot that is not in the right state; the elements that are destroyed are recorded.
-/

namespace Nocter.Vectors

open ObjectMemory

/-- The largest `usize`. -/
def maximumUsize : ℕ := 18446744073709551615

structure Error where
  code : String
  message : String
  deriving DecidableEq

def capacityOverflow : Error := ⟨"std.mem.capacity_overflow", "storage capacity overflow"⟩

def invalidArgument : Error := ⟨"std.mem.invalid_argument", "invalid allocation request"⟩

def indexOutOfBounds : Error :=
  ⟨"std.vec.index_out_of_bounds", "Vec insertion index is out of bounds"⟩

structure RawBuffer where
  ptr : ℕ
  len : ℕ
  deriving DecidableEq

structure Vec where
  ptr : ℕ
  storage : RawBuffer
  len : ℕ
  capacity : ℕ
  deriving DecidableEq

/-- A vector with the elements that live in its storage, at byte offsets, and those that its
operations have destroyed. -/
structure World (T : Type) where
  vec : Vec
  objects : List (ℕ × T)
  destroyed : List T
  deriving DecidableEq

inductive Fault where
  | overflow
  | dangling
  | vacant
  | occupied
  | outOfStorage
  | outOfView
  deriving DecidableEq

/-- Why an operation does not return. -/
inductive Stop where
  | fault (fault : Fault)
  | allocationAbort
  | boundsAbort
  deriving DecidableEq

abbrev Op (T : Type) := StateT (World T) (Except Stop)

/-- What an allocation of so many bytes answers: an address, or an error. -/
abbrev Allocator := ℕ → Except Error ℕ

variable {T : Type}

def stop {α : Type} (reason : Stop) : Op T α := fun _ => .error reason

def readVec : Op T Vec := fun world => .ok (world.vec, world)

def setLen (len : ℕ) : Op T Unit := fun world =>
  .ok ((), { world with vec := { world.vec with len := len } })

def setCapacity (capacity : ℕ) : Op T Unit := fun world =>
  .ok ((), { world with vec := { world.vec with capacity := capacity } })

/-- The pointer of the vector is set to the start of its storage. -/
def setPtrToStorage : Op T Unit := fun world =>
  .ok ((), { world with vec := { world.vec with ptr := world.vec.storage.ptr } })

/-- The end of the life of an element that is owned by nothing else. -/
def destroy (value : T) : Op T Unit := fun world =>
  .ok ((), { world with destroyed := world.destroyed ++ [value] })

def checkedAdd (a b : ℕ) : Option ℕ := if a + b ≤ maximumUsize then some (a + b) else none

def checkedMul (a b : ℕ) : Option ℕ := if a * b ≤ maximumUsize then some (a * b) else none

/-- A product of `usize`, which traps where it overflows. -/
def mul (a b : ℕ) : Op T ℕ := if a * b ≤ maximumUsize then pure (a * b) else stop (.fault .overflow)

def takeValueAtPtr (ptr offset : ℕ) : Op T T := fun world =>
  if ptr ≠ world.vec.storage.ptr then .error (.fault .dangling)
  else
    match ObjectMemory.take offset world.objects with
    | none => .error (.fault .vacant)
    | some (value, objects) => .ok (value, { world with objects := objects })

def storeValueToPtr (pointee : Pointee T) (ptr offset : ℕ) (value : T) : Op T Unit := fun world =>
  if ptr ≠ world.vec.storage.ptr then .error (.fault .dangling)
  else if offset + pointee.size > world.vec.storage.len then .error (.fault .outOfStorage)
  else if ¬ Vacant pointee world.objects offset then .error (.fault .occupied)
  else .ok ((), { world with objects := (offset, value) :: world.objects })

def dropValueAtPtr (ptr offset : ℕ) : Op T Unit := do
  let value ← takeValueAtPtr ptr offset
  destroy value

/-- The element at an index of a view of `len` elements, `slice_from_raw_parts_value`. -/
def viewElement (pointee : Pointee T) (ptr len index : ℕ) : Op T T := fun world =>
  if ptr ≠ world.vec.storage.ptr then .error (.fault .dangling)
  else if index ≥ len then .error (.fault .outOfView)
  else
    match ObjectMemory.take (index * pointee.size) world.objects with
    | none => .error (.fault .vacant)
    | some (value, _) => .ok (value, world)

/-- `try_grow_owned`: the bytes of the storage are copied to a new allocation. -/
def tryGrowOwned (allocator : Allocator) (newSize : ℕ) : Op T (Except Error Unit) := fun world =>
  if newSize < world.vec.storage.len then .ok (.error invalidArgument, world)
  else if newSize = world.vec.storage.len then .ok (.ok (), world)
  else
    match allocator newSize with
    | .error error => .ok (.error error, world)
    | .ok address =>
      .ok (.ok (), { world with vec := { world.vec with storage := ⟨address, newSize⟩ } })

def emptyWithCapacity (logicalCapacity : ℕ) : World T := ⟨⟨1, ⟨1, 0⟩, 0, logicalCapacity⟩, [], []⟩

def empty : World T := emptyWithCapacity 0

/-- `try_alloc` of bytes, of which none are asked of the allocator if there are none. -/
def tryAlloc (allocator : Allocator) (size : ℕ) : Except Error RawBuffer :=
  if size = 0 then .ok ⟨1, 0⟩
  else
    match allocator size with
    | .error error => .error error
    | .ok address => .ok ⟨address, size⟩

def withCapacity (pointee : Pointee T) (allocator : Allocator) (requestedCapacity : ℕ) :
    Except Stop (World T) :=
  if pointee.size = 0 then .ok (emptyWithCapacity requestedCapacity)
  else
    match checkedMul requestedCapacity pointee.size with
    | none => .error .allocationAbort
    | some byteCapacity =>
      match tryAlloc allocator byteCapacity with
      | .error _ => .error .allocationAbort
      | .ok storage => .ok ⟨⟨storage.ptr, storage, 0, requestedCapacity⟩, [], []⟩

end Nocter.Vectors

/-!
# Mutation of a vector

Capacity management, mutation of the initialized elements, and destruction. The loops count
down the iterations that are left; the predicate of `retain` may keep a state, so it is a
function of the elements that it has been shown before.
-/

namespace Nocter.Vectors

open ObjectMemory

def growthCapacity (current required : ℕ) : ℕ :=
  if required ≤ current then current
  else
    match checkedAdd current current with
    | none => maximumUsize
    | some doubled => if doubled < required then required else doubled

variable {T : Type} (pointee : Pointee T) (allocator : Allocator)

def tryReserve (additional : ℕ) : Op T (Except Error ℕ) := do
  let values ← readVec
  if additional = 0 then return .ok values.len
  match checkedAdd values.len additional with
  | none => return .error capacityOverflow
  | some requiredCapacity =>
    if values.capacity ≥ values.len ∧ additional ≤ values.capacity - values.len then
      return .ok requiredCapacity
    if pointee.size = 0 then
      setCapacity (growthCapacity values.capacity requiredCapacity)
      return .ok requiredCapacity
    let nextCapacity := growthCapacity values.capacity requiredCapacity
    match checkedMul nextCapacity pointee.size with
    | none =>
      match checkedMul requiredCapacity pointee.size with
      | none => return .error capacityOverflow
      | some requiredBytes =>
        match ← tryGrowOwned allocator requiredBytes with
        | .error error => return .error error
        | .ok () =>
          setPtrToStorage
          setCapacity requiredCapacity
          return .ok requiredCapacity
    | some byteCapacity =>
      match ← tryGrowOwned allocator byteCapacity with
      | .error error => return .error error
      | .ok () =>
        setPtrToStorage
        setCapacity nextCapacity
        return .ok requiredCapacity

def reserve (additional : ℕ) : Op T Unit := do
  match ← tryReserve pointee allocator additional with
  | .error _ => stop .allocationAbort
  | .ok _ => return

/-- The loop of `clear`; the argument is `values.len`. -/
def clearLoop : ℕ → Op T Unit
  | 0 => return
  | nextLen + 1 => do
    setLen nextLen
    let values ← readVec
    let offset ← mul nextLen pointee.size
    dropValueAtPtr values.ptr offset
    clearLoop nextLen

def clear : Op T Unit := do
  let values ← readVec
  clearLoop pointee values.len

def pop : Op T (Option T) := do
  let values ← readVec
  if values.len = 0 then return none
  let nextLen := values.len - 1
  setLen nextLen
  let offset ← mul nextLen pointee.size
  let value ← takeValueAtPtr values.ptr offset
  return some value

/-- The loop of `truncate`; the argument is by how much `values.len` exceeds the request. -/
def truncateLoop : ℕ → Op T Unit
  | 0 => return
  | excess + 1 => do
    match ← pop pointee with
    | none => return
    | some removed =>
      destroy removed
      truncateLoop excess

def truncate (requestedLen : ℕ) : Op T Unit := do
  let values ← readVec
  truncateLoop pointee (values.len - requestedLen)

/-- Where the reservation fails, the value that was passed ends with the call. -/
def tryPush (value : T) : Op T (Except Error Unit) := do
  let values ← readVec
  let oldLen := values.len
  match ← tryReserve pointee allocator 1 with
  | .error error =>
    destroy value
    return .error error
  | .ok nextLen =>
    let byteOffset ← mul oldLen pointee.size
    let values ← readVec
    storeValueToPtr pointee values.ptr byteOffset value
    setLen nextLen
    return .ok ()

def push (value : T) : Op T Unit := do
  match ← tryPush pointee allocator value with
  | .error _ => stop .allocationAbort
  | .ok () => return

/-- The loop of `try_insert_in_bounds`; the hole is so many slots above the index. -/
def insertLoop (index : ℕ) : ℕ → Op T Unit
  | 0 => return
  | above + 1 => do
    let hole := index + (above + 1)
    let sourceIndex := hole - 1
    let values ← readVec
    let sourceOffset ← mul sourceIndex pointee.size
    let shifted ← takeValueAtPtr values.ptr sourceOffset
    let holeOffset ← mul hole pointee.size
    storeValueToPtr pointee values.ptr holeOffset shifted
    insertLoop index above

def tryInsertInBounds (index : ℕ) (value : T) : Op T (Except Error Unit) := do
  let values ← readVec
  let oldLen := values.len
  match ← tryReserve pointee allocator 1 with
  | .error error =>
    destroy value
    return .error error
  | .ok nextLen =>
    insertLoop pointee index (oldLen - index)
    let values ← readVec
    let offset ← mul index pointee.size
    storeValueToPtr pointee values.ptr offset value
    setLen nextLen
    return .ok ()

def tryInsert (index : ℕ) (value : T) : Op T (Except Error Unit) := do
  let values ← readVec
  if index > values.len then
    destroy value
    return .error indexOutOfBounds
  tryInsertInBounds pointee allocator index value

def insert (index : ℕ) (value : T) : Op T Unit := do
  let values ← readVec
  if index > values.len then stop .boundsAbort
  else
    match ← tryInsertInBounds pointee allocator index value with
    | .error _ => stop .allocationAbort
    | .ok () => return

/-- The loop of `remove`; so many elements are behind the hole. -/
def removeLoop (hole : ℕ) : ℕ → Op T Unit
  | 0 => return
  | behind + 1 => do
    let sourceIndex := hole + 1
    let values ← readVec
    let sourceOffset ← mul sourceIndex pointee.size
    let shifted ← takeValueAtPtr values.ptr sourceOffset
    let holeOffset ← mul hole pointee.size
    storeValueToPtr pointee values.ptr holeOffset shifted
    removeLoop sourceIndex behind

def remove (index : ℕ) : Op T (Option T) := do
  let values ← readVec
  let oldLen := values.len
  if index ≥ oldLen then return none
  let offset ← mul index pointee.size
  let removed ← takeValueAtPtr values.ptr offset
  removeLoop pointee index (oldLen - 1 - index)
  setLen (oldLen - 1)
  return some removed

def swapRemove (index : ℕ) : Op T (Option T) := do
  let values ← readVec
  let oldLen := values.len
  if index ≥ oldLen then return none
  let lastIndex := oldLen - 1
  let offset ← mul index pointee.size
  let removed ← takeValueAtPtr values.ptr offset
  if index ≠ lastIndex then
    let lastOffset ← mul lastIndex pointee.size
    let last ← takeValueAtPtr values.ptr lastOffset
    let offset ← mul index pointee.size
    storeValueToPtr pointee values.ptr offset last
  setLen lastIndex
  return some removed

/-- The loop of `retain` with so many elements to read; it returns the write index. -/
def retainLoop (predicate : List T → T → Bool) (originalLen : ℕ) :
    (unread readIndex writeIndex : ℕ) → (shown : List T) → Op T ℕ
  | 0, _, writeIndex, _ => return writeIndex
  | unread + 1, readIndex, writeIndex, shown => do
    let values ← readVec
    let current ← viewElement pointee values.ptr originalLen readIndex
    if predicate shown current then
      if writeIndex ≠ readIndex then
        let readOffset ← mul readIndex pointee.size
        let retained ← takeValueAtPtr values.ptr readOffset
        let writeOffset ← mul writeIndex pointee.size
        storeValueToPtr pointee values.ptr writeOffset retained
      retainLoop predicate originalLen unread (readIndex + 1) (writeIndex + 1) (shown ++ [current])
    else
      let readOffset ← mul readIndex pointee.size
      dropValueAtPtr values.ptr readOffset
      retainLoop predicate originalLen unread (readIndex + 1) writeIndex (shown ++ [current])

def retain (predicate : List T → T → Bool) : Op T Unit := do
  let values ← readVec
  let originalLen := values.len
  let writeIndex ← retainLoop pointee predicate originalLen originalLen 0 0 []
  setLen writeIndex

/-- The destructor of a vector. -/
def drop : Op T Unit := do
  clear pointee
  setCapacity 0

end Nocter.Vectors
