import Mathlib.Data.Finset.Insert
import Mathlib.Data.List.Sort
import Nocter.Arm64.Instruction
import Nocter.Library.LinearScan

/-!
# Register allocation

Every virtual register has an interval from its definition to its last use. The intervals are
placed in the order of their starts. An interval that crosses a call only gets a register
that a call preserves.
-/

namespace Nocter.Arm64

inductive RegisterClass where
  | general
  | floating
  deriving DecidableEq

structure VirtualRegister where
  index : ℕ
  registerClass : RegisterClass
  deriving DecidableEq

abbrev SpillSlotId := ℕ

inductive AllocatedLocation where
  | generalRegister (register : Register)
  | floatRegister (register : FloatRegister)
  | spill (slot : SpillSlotId)
  deriving DecidableEq

/-- The location of every virtual register of one function. -/
structure RegisterAllocation where
  locations : List AllocatedLocation
  preservedRegisters : List Register
  spillCount : ℕ
  deriving DecidableEq

def RegisterAllocation.location (allocation : RegisterAllocation) (register : VirtualRegister) :
    Option AllocatedLocation := allocation.locations[register.index]?

/-- From the definition to the last use. -/
structure LiveRange where
  start : ℕ
  last : ℕ
  registerClass : RegisterClass
  deriving DecidableEq

inductive RegisterAllocationError where
  | unknownVirtualRegister (register : VirtualRegister)
  | useBeforeDefinition (register : VirtualRegister) (definition usage : ℕ)
  deriving DecidableEq

structure RegisterAllocationBuilder where
  ranges : List LiveRange := []
  calls : Finset ℕ := ∅
  callCrossing : Finset VirtualRegister := ∅

namespace RegisterAllocationBuilder

def define (builder : RegisterAllocationBuilder) (position : ℕ) (registerClass : RegisterClass) :
    VirtualRegister × RegisterAllocationBuilder :=
  (⟨builder.ranges.length, registerClass⟩,
    { builder with ranges := builder.ranges ++ [⟨position, position, registerClass⟩] })

/-- Extends the interval of a register through one use. -/
def useAt (builder : RegisterAllocationBuilder) (register : VirtualRegister) (position : ℕ) :
    Except RegisterAllocationError RegisterAllocationBuilder :=
  match builder.ranges[register.index]? with
  | none => .error (.unknownVirtualRegister register)
  | some range =>
    if range.registerClass ≠ register.registerClass then .error (.unknownVirtualRegister register)
    else if position < range.start then
      .error (.useBeforeDefinition register range.start position)
    else .ok { builder with
      ranges := builder.ranges.set register.index { range with last := max range.last position } }

def recordCall (builder : RegisterAllocationBuilder) (position : ℕ) : RegisterAllocationBuilder :=
  { builder with calls := insert position builder.calls }

/-- Marks a register as live across a call. -/
def markCallCrossing (builder : RegisterAllocationBuilder) (register : VirtualRegister) :
    Except RegisterAllocationError RegisterAllocationBuilder :=
  match builder.ranges[register.index]? with
  | none => .error (.unknownVirtualRegister register)
  | some range =>
    if range.registerClass ≠ register.registerClass then .error (.unknownVirtualRegister register)
    else .ok { builder with callCrossing := insert register builder.callCrossing }

end RegisterAllocationBuilder

structure Interval where
  register : VirtualRegister
  start : ℕ
  last : ℕ
  crossesCall : Bool
  deriving DecidableEq

inductive PhysicalRegister where
  | general (register : Register)
  | floating (register : FloatRegister)
  deriving DecidableEq

structure ActiveInterval where
  interval : Interval
  physical : PhysicalRegister

/-- Whether an ordered set of calls has a call strictly between two positions. The search of a
set that is not empty traps where no position is between them. -/
def callBetween (calls : Finset ℕ) (start last : ℕ) : Option Bool :=
  if calls = ∅ then some false
  else if last ≤ start then none
  else some (decide (∃ call ∈ calls, start < call ∧ call < last))

def interval (calls : Finset ℕ) (callCrossing : Finset VirtualRegister) (entry : LiveRange × ℕ) :
    Option Interval :=
  let (range, index) := entry
  let register := ⟨index, range.registerClass⟩
  if register ∈ callCrossing then some ⟨register, range.start, range.last, true⟩
  else (callBetween calls range.start range.last).map fun crosses =>
    ⟨register, range.start, range.last, crosses⟩

/-- The order of placement. No two intervals have the same register. -/
def Interval.before (first second : Interval) : Prop :=
  first.start < second.start ∨
    first.start = second.start ∧ first.register.index ≤ second.register.index

instance : DecidableRel Interval.before := fun _ _ => inferInstanceAs (Decidable (_ ∨ _))

def allocatedLocation : PhysicalRegister → AllocatedLocation
  | .general register => .generalRegister register
  | .floating register => .floatRegister register

/-- The first register of the class that no active interval holds. -/
def availableRegister (active : List ActiveInterval) (interval : Interval) :
    Option PhysicalRegister :=
  let isAvailable := fun candidate => active.all fun active => active.physical ≠ candidate
  match interval.register.registerClass, interval.crossesCall with
  | .general, crossesCall =>
    (((List.finRange 31).map Register.mk).filter fun register =>
      Abi.isAllocatable register && (!crossesCall || Abi.isCalleeSaved register)).map
        PhysicalRegister.general |>.find? isAvailable
  | .floating, true => none
  | .floating, false =>
    (((List.finRange 32).map FloatRegister.mk).filter Abi.isFloatingAllocatable).map
      PhysicalRegister.floating |>.find? isAvailable

/-- Whether an interval may take over a register. -/
def eligible (physical : PhysicalRegister) (interval : Interval) : Bool :=
  match physical, interval.register.registerClass, interval.crossesCall with
  | .general register, .general, crossesCall => !crossesCall || Abi.isCalleeSaved register
  | .floating _, .floating, false => true
  | _, _, _ => false

/-- The order of victims: by the last position, then by the register. -/
def victimBefore (first second : ActiveInterval) : Bool :=
  first.interval.last < second.interval.last ||
    (first.interval.last = second.interval.last &&
      first.interval.register.index ≤ second.interval.register.index)

/-- The last greatest victim with its index. -/
def maxVictim (victims : List (ActiveInterval × ℕ)) : Option (ActiveInterval × ℕ) :=
  victims.foldl (fun best next =>
    match best with
    | none => some next
    | some best => if victimBefore best.1 next.1 then some next else some best) none

structure AllocationState where
  locations : List (Option AllocatedLocation)
  active : List ActiveInterval
  spillCount : ℕ

/-- Places one interval. -/
def place (state : AllocationState) (interval : Interval) : AllocationState :=
  let index := interval.register.index
  let active := state.active.filter fun active => active.interval.last ≥ interval.start
  match availableRegister active interval with
  | some physical => {
      locations := state.locations.set index (some (allocatedLocation physical))
      active := active ++ [⟨interval, physical⟩]
      spillCount := state.spillCount }
  | none =>
    match maxVictim (active.zipIdx.filter fun active => eligible active.1.physical interval) with
    | some (victim, victimIndex) =>
      if victim.interval.last > interval.last then {
        locations := (state.locations.set victim.interval.register.index
          (some (.spill state.spillCount))).set index (some (allocatedLocation victim.physical))
        active := active.set victimIndex ⟨interval, victim.physical⟩
        spillCount := state.spillCount + 1 }
      else {
        locations := state.locations.set index (some (.spill state.spillCount))
        active := active
        spillCount := state.spillCount + 1 }
    | none => {
        locations := state.locations.set index (some (.spill state.spillCount))
        active := active
        spillCount := state.spillCount + 1 }

def placeAll (count : ℕ) (intervals : List Interval) : AllocationState :=
  intervals.foldl place ⟨List.replicate count none, [], 0⟩

/-- The callee-saved registers among the locations, in order. -/
def preserved (locations : List AllocatedLocation) : List Register :=
  ((List.finRange 31).map Register.mk).filter fun register =>
    Abi.isCalleeSaved register && decide (.generalRegister register ∈ locations)

/-- No result where the search for a call traps or an interval has no location. -/
def allocate (ranges : List LiveRange) (calls : Finset ℕ)
    (callCrossing : Finset VirtualRegister) : Option RegisterAllocation :=
  match ranges.zipIdx.mapM (interval calls callCrossing) with
  | none => none
  | some intervals =>
    let state := placeAll intervals.length (intervals.insertionSort Interval.before)
    match state.locations.mapM id with
    | none => none
    | some locations => some {
        locations
        preservedRegisters := preserved locations
        spillCount := state.spillCount }

def RegisterAllocationBuilder.finish (builder : RegisterAllocationBuilder) :
    Option RegisterAllocation := allocate builder.ranges builder.calls builder.callCrossing

end Nocter.Arm64
