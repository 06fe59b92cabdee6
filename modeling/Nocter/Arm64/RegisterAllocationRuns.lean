import Nocter.Arm64.RegisterAllocation
import Nocter.Library.Traversal

/-!
# Allocations of builder runs

Placing the intervals is a linear scan. Its result is an allocation in which registers with
overlapping intervals have different locations.
-/

namespace Nocter.Arm64

/-- The registers that an interval may have. -/
def Interval.Allows (interval : Interval) : PhysicalRegister → Prop
  | .general register => interval.register.registerClass = .general ∧
      Abi.isAllocatable register = true ∧
      (interval.crossesCall = true → Abi.isCalleeSaved register = true)
  | .floating register => interval.register.registerClass = .floating ∧
      Abi.isFloatingAllocatable register = true ∧ interval.crossesCall = false

theorem availableRegister_some {active : List ActiveInterval} {interval : Interval}
    {physical : PhysicalRegister} (h : availableRegister active interval = some physical) :
    interval.Allows physical ∧ ∀ holder ∈ active, holder.physical ≠ physical := by
  unfold availableRegister at h
  dsimp only at h
  split at h
  · next hclass =>
    obtain ⟨hfree, _⟩ := List.find?_eq_some_iff_append.mp h
    have hmem := List.mem_of_find?_eq_some h
    rw [List.mem_map] at hmem
    obtain ⟨register, hregister, rfl⟩ := hmem
    have hallowed := (List.mem_filter.mp hregister).2
    simp only [Bool.and_eq_true, Bool.or_eq_true, Bool.not_eq_true'] at hallowed
    refine ⟨⟨hclass, hallowed.1, fun hcrossing => ?_⟩, ?_⟩
    · exact hallowed.2.resolve_left (by rw [hcrossing]; simp)
    · simpa using hfree
  · cases h
  · next hclass hcrosses =>
    obtain ⟨hfree, _⟩ := List.find?_eq_some_iff_append.mp h
    have hmem := List.mem_of_find?_eq_some h
    rw [List.mem_map] at hmem
    obtain ⟨register, hregister, rfl⟩ := hmem
    exact ⟨⟨hclass, (List.mem_filter.mp hregister).2, hcrosses⟩, by simpa using hfree⟩

/-- An eligible register that another interval holds may be taken over. -/
theorem eligible_allows {physical : PhysicalRegister} {holder interval : Interval}
    (h : eligible physical interval = true) (hholder : holder.Allows physical) :
    interval.Allows physical := by
  unfold eligible at h
  split at h
  · next hclass =>
    refine ⟨hclass, hholder.2.1, fun hcrosses => ?_⟩
    rw [hcrosses] at h
    exact h
  · next hclass hcrosses => exact ⟨hclass, hholder.2.1, hcrosses⟩
  · cases h

/-- A search that keeps the best value or takes the next one finds one of the values. -/
theorem foldl_best_mem {α : Type} {step : Option α → α → Option α}
    (hstep : ∀ best next found, step best next = some found → best = some found ∨ found = next)
    {values : List α} {best : Option α} {found : α} (h : values.foldl step best = some found) :
    best = some found ∨ found ∈ values := by
  induction values generalizing best with
  | nil => exact Or.inl h
  | cons next rest ih =>
    rcases ih h with hnext | hmem
    · rcases hstep best next found hnext with hbest | rfl
      · exact Or.inl hbest
      · exact Or.inr List.mem_cons_self
    · exact Or.inr (List.mem_cons_of_mem _ hmem)

theorem maxVictim_mem {victims : List (ActiveInterval × ℕ)} {victim : ActiveInterval × ℕ}
    (h : maxVictim victims = some victim) : victim ∈ victims := by
  refine (foldl_best_mem ?_ h).resolve_left fun hnone => by cases hnone
  intro best next found hfound
  cases best with
  | none => exact Or.inr (Option.some.inj hfound).symm
  | some best =>
    dsimp only at hfound
    split at hfound
    · exact Or.inr (Option.some.inj hfound).symm
    · exact Or.inl hfound

/-- A victim is an active interval whose register the new interval may have. -/
theorem victim_split {active : List ActiveInterval} {interval : Interval} {victim : ActiveInterval}
    {index : ℕ}
    (h : maxVictim (active.zipIdx.filter fun active => eligible active.1.physical interval) =
      some (victim, index)) :
    eligible victim.physical interval = true ∧ ∃ before after,
      active = before ++ victim :: after ∧ before.length = index := by
  obtain ⟨hmem, heligible⟩ := List.mem_filter.mp (maxVictim_mem h)
  obtain ⟨_, hlt, hvictim⟩ := List.mem_zipIdx hmem
  rw [Nat.zero_add] at hlt
  refine ⟨heligible, active.take index, active.drop (index + 1), ?_, ?_⟩
  · simp only [Nat.sub_zero] at hvictim
    rw [hvictim, ← List.drop_eq_getElem_cons, List.take_append_drop]
  · rw [List.length_take]
    omega

def AllocatedLocation.ofScan : PhysicalRegister ⊕ ℕ → AllocatedLocation
  | .inl physical => allocatedLocation physical
  | .inr slot => .spill slot

theorem ofScan_injective : Function.Injective AllocatedLocation.ofScan := by
  rintro ((_ | _) | _) ((_ | _) | _) h <;> simp_all [AllocatedLocation.ofScan, allocatedLocation]

/-- The state of a scan of these intervals. -/
structure Simulates (intervals : List Interval) (state : AllocationState)
    (scan : LinearScan.State Interval PhysicalRegister) : Prop where
  active : scan.active = state.active.map fun holder => (holder.interval, holder.physical)
  spilled : scan.spilled = state.spillCount
  location : ∀ interval ∈ intervals, state.locations[interval.register.index]? =
    some ((scan.location interval).map AllocatedLocation.ofScan)
  known : ∀ holder ∈ state.active, holder.interval ∈ intervals
  allowed : ∀ holder ∈ state.active, holder.interval.Allows holder.physical

/-- No two intervals are those of one register. -/
def DistinctRegisters (intervals : List Interval) : Prop :=
  ∀ first ∈ intervals, ∀ second ∈ intervals, first.register.index = second.register.index →
    first = second

theorem location_update {intervals : List Interval} {locations : List (Option AllocatedLocation)}
    {location : Interval → Option (PhysicalRegister ⊕ ℕ)} (hdistinct : DistinctRegisters intervals)
    (h : ∀ interval ∈ intervals, locations[interval.register.index]? =
      some ((location interval).map AllocatedLocation.ofScan))
    {moved : Interval} (hmoved : moved ∈ intervals) (value : PhysicalRegister ⊕ ℕ) :
    ∀ interval ∈ intervals,
      (locations.set moved.register.index (some (.ofScan value)))[interval.register.index]? =
        some ((Function.update location moved (some value) interval).map
          AllocatedLocation.ofScan) := by
  intro interval hmem
  by_cases hsame : interval = moved
  · subst hsame
    have hlt := (List.getElem?_eq_some_iff.mp (h interval hmem)).1
    rw [List.getElem?_set_self hlt, Function.update_self]
    rfl
  · rw [List.getElem?_set_ne fun hindex => hsame (hdistinct _ hmem _ hmoved hindex.symm),
      Function.update_of_ne hsame]
    exact h interval hmem

section Step

variable {intervals : List Interval} {state : AllocationState}
  {scan : LinearScan.State Interval PhysicalRegister} {interval : Interval}

/-- The active intervals that have not ended. -/
def AllocationState.current (state : AllocationState) (interval : Interval) :
    List ActiveInterval :=
  state.active.filter fun active => active.interval.last ≥ interval.start

theorem Simulates.current (h : Simulates intervals state scan) (interval : Interval) :
    scan.current Interval.last interval.start =
      (state.current interval).map fun holder => (holder.interval, holder.physical) := by
  rw [LinearScan.State.current, h.active, List.filter_map]
  rfl

theorem Simulates.assign (h : Simulates intervals state scan)
    (hdistinct : DistinctRegisters intervals) (hmem : interval ∈ intervals)
    {physical : PhysicalRegister}
    (hsome : availableRegister (state.current interval) interval = some physical) :
    ∃ next, LinearScan.Places Interval.start Interval.last Interval.Allows scan interval next ∧
      Simulates intervals {
        locations := state.locations.set interval.register.index (some (allocatedLocation physical))
        active := state.current interval ++ [⟨interval, physical⟩]
        spillCount := state.spillCount } next := by
  obtain ⟨hallowed, hfree⟩ := availableRegister_some hsome
  refine ⟨_, .assign physical hallowed fun holder hholder => ?_, ?_⟩
  · rw [h.current, List.mem_map] at hholder
    obtain ⟨active, hactive, rfl⟩ := hholder
    exact hfree active hactive
  refine ⟨?_, h.spilled, location_update hdistinct h.location hmem (.inl physical),
    fun holder hholder => ?_, fun holder hholder => ?_⟩
  · rw [h.current, List.map_append]
    rfl
  all_goals
    rw [List.mem_append, List.mem_singleton] at hholder
    rcases hholder with hholder | rfl
  · exact h.known holder (List.mem_filter.mp hholder).1
  · exact hmem
  · exact h.allowed holder (List.mem_filter.mp hholder).1
  · exact hallowed

theorem Simulates.evict (h : Simulates intervals state scan)
    (hdistinct : DistinctRegisters intervals) (hmem : interval ∈ intervals)
    {victim : ActiveInterval} {before after : List ActiveInterval}
    (heligible : eligible victim.physical interval = true)
    (hsplit : state.current interval = before ++ victim :: after) :
    ∃ next, LinearScan.Places Interval.start Interval.last Interval.Allows scan interval next ∧
      Simulates intervals {
        locations := (state.locations.set victim.interval.register.index
          (some (.spill state.spillCount))).set interval.register.index
            (some (allocatedLocation victim.physical))
        active := before ++ ⟨interval, victim.physical⟩ :: after
        spillCount := state.spillCount + 1 } next := by
  have hkept : ∀ holder ∈ before ++ victim :: after, holder ∈ state.active := fun holder hholder => by
    rw [← hsplit] at hholder
    exact (List.mem_filter.mp hholder).1
  have hvictim := hkept victim (List.mem_append_right _ List.mem_cons_self)
  have hallowed := eligible_allows heligible (h.allowed victim hvictim)
  have hcurrent := h.current interval
  rw [hsplit, List.map_append, List.map_cons] at hcurrent
  have hmoved := location_update hdistinct h.location (h.known victim hvictim) (.inr scan.spilled)
  refine ⟨_, .evict victim.interval victim.physical hcurrent hallowed, ?_⟩
  rw [h.spilled] at hmoved ⊢
  refine ⟨?_, rfl, location_update hdistinct hmoved hmem (.inl victim.physical),
    fun holder hholder => ?_, fun holder hholder => ?_⟩
  · rw [List.map_append, List.map_cons]
  all_goals
    rw [List.mem_append, List.mem_cons, or_left_comm, ← List.mem_append] at hholder
    rcases hholder with rfl | hholder
  · exact hmem
  · refine h.known holder (hkept holder ?_)
    rw [List.mem_append] at hholder ⊢
    exact hholder.imp_right (List.mem_cons_of_mem _)
  · exact hallowed
  · refine h.allowed holder (hkept holder ?_)
    rw [List.mem_append] at hholder ⊢
    exact hholder.imp_right (List.mem_cons_of_mem _)

theorem Simulates.spill (h : Simulates intervals state scan)
    (hdistinct : DistinctRegisters intervals) (hmem : interval ∈ intervals) :
    ∃ next, LinearScan.Places Interval.start Interval.last Interval.Allows scan interval next ∧
      Simulates intervals {
        locations := state.locations.set interval.register.index (some (.spill state.spillCount))
        active := state.current interval
        spillCount := state.spillCount + 1 } next := by
  refine ⟨_, .spill, h.current interval, by rw [h.spilled], ?_,
    fun holder hholder => h.known holder (List.mem_filter.mp hholder).1,
    fun holder hholder => h.allowed holder (List.mem_filter.mp hholder).1⟩
  rw [h.spilled]
  exact location_update hdistinct h.location hmem (.inr state.spillCount)

/-- Placing an interval is a step of the scan. -/
theorem Simulates.place (h : Simulates intervals state scan)
    (hdistinct : DistinctRegisters intervals) (hmem : interval ∈ intervals) :
    ∃ next, LinearScan.Places Interval.start Interval.last Interval.Allows scan interval next ∧
      Simulates intervals (place state interval) next := by
  unfold Arm64.place
  dsimp only
  rw [← AllocationState.current]
  split
  · next physical hsome => exact h.assign hdistinct hmem hsome
  split
  · next victim index hvictim =>
    obtain ⟨heligible, before, after, hsplit, rfl⟩ := victim_split hvictim
    split
    · rw [hsplit, List.set_append_right _ _ (Nat.le_refl _), Nat.sub_self, List.set_cons_zero]
      exact h.evict hdistinct hmem heligible hsplit
    · exact h.spill hdistinct hmem
  · exact h.spill hdistinct hmem

theorem Simulates.placeAll (h : Simulates intervals state scan)
    (hdistinct : DistinctRegisters intervals) {rest : List Interval}
    (hrest : ∀ interval ∈ rest, interval ∈ intervals) :
    ∃ last, LinearScan.Scans Interval.start Interval.last Interval.Allows scan rest last ∧
      Simulates intervals (rest.foldl Arm64.place state) last := by
  induction rest generalizing state scan with
  | nil => exact ⟨scan, .nil scan, h⟩
  | cons interval rest ih =>
    obtain ⟨next, hplaces, hnext⟩ := h.place hdistinct (hrest interval List.mem_cons_self)
    obtain ⟨last, hscans, hlast⟩ :=
      ih hnext fun other hother => hrest other (List.mem_cons_of_mem _ hother)
    exact ⟨last, .cons hplaces hscans, hlast⟩

end Step

/-- A call of the builder. -/
inductive BuilderOperation where
  | define (position : ℕ) (registerClass : RegisterClass)
  | useAt (register : VirtualRegister) (position : ℕ)
  | recordCall (position : ℕ)
  | markCallCrossing (register : VirtualRegister)

namespace RegisterAllocationBuilder

/-- A call that fails leaves the builder as it is. -/
def apply (builder : RegisterAllocationBuilder) : BuilderOperation → RegisterAllocationBuilder
  | .define position registerClass => (builder.define position registerClass).2
  | .useAt register position =>
    match builder.useAt register position with
    | .ok next => next
    | .error _ => builder
  | .recordCall position => builder.recordCall position
  | .markCallCrossing register =>
    match builder.markCallCrossing register with
    | .ok next => next
    | .error _ => builder

def run (operations : List BuilderOperation) : RegisterAllocationBuilder :=
  operations.foldl apply {}

/-- A register crosses a call if it is marked or a recorded call stands inside its interval. -/
def Crosses (builder : RegisterAllocationBuilder) (index : ℕ) (range : LiveRange) : Prop :=
  ⟨index, range.registerClass⟩ ∈ builder.callCrossing ∨
    ∃ call ∈ builder.calls, range.start < call ∧ call < range.last

/-- No call is recorded, or every register that is not marked is used after its definition. -/
def Spans (builder : RegisterAllocationBuilder) : Prop :=
  builder.calls = ∅ ∨ ∀ index range, builder.ranges[index]? = some range →
    ⟨index, range.registerClass⟩ ∈ builder.callCrossing ∨ range.start < range.last

/-- The locations that a register may have. -/
def Suits (range : LiveRange) (crosses : Prop) : AllocatedLocation → Prop
  | .generalRegister register => range.registerClass = .general ∧
      Abi.isAllocatable register = true ∧ (crosses → Abi.isCalleeSaved register = true)
  | .floatRegister register => range.registerClass = .floating ∧
      Abi.isFloatingAllocatable register = true ∧ ¬ crosses
  | .spill _ => True

/-- Every register has a location of its own. -/
structure Sound (builder : RegisterAllocationBuilder) (allocation : RegisterAllocation) :
    Prop where
  located : allocation.locations.length = builder.ranges.length
  apart : ∀ (i j : ℕ) (first second : LiveRange), i ≠ j → builder.ranges[i]? = some first →
    builder.ranges[j]? = some second → first.start ≤ second.last → second.start ≤ first.last →
    allocation.locations[i]? ≠ allocation.locations[j]?
  suited : ∀ (i : ℕ) (range : LiveRange) (location : AllocatedLocation),
    builder.ranges[i]? = some range → allocation.locations[i]? = some location → Suits range (builder.Crosses i range) location
  single : ∀ i j slot : ℕ, allocation.locations[i]? = some (AllocatedLocation.spill slot) →
    allocation.locations[j]? = some (AllocatedLocation.spill slot) → i = j
  dense : ∀ slot, slot < allocation.spillCount ↔
    ∃ i : ℕ, allocation.locations[i]? = some (AllocatedLocation.spill slot)
  preserved : ∀ register, register ∈ allocation.preservedRegisters ↔
    Abi.isCalleeSaved register = true ∧
      ∃ i : ℕ, allocation.locations[i]? = some (AllocatedLocation.generalRegister register)
  ordered : allocation.preservedRegisters.Pairwise fun first second =>
    first.number < second.number

end RegisterAllocationBuilder

theorem callBetween_spec {calls : Finset ℕ} {start last : ℕ} {crosses : Bool}
    (h : callBetween calls start last = some crosses) :
    crosses = true ↔ ∃ call ∈ calls, start < call ∧ call < last := by
  unfold callBetween at h
  split at h
  · next hempty =>
    cases h
    rw [hempty]
    simp
  split at h
  · cases h
  · cases h
    exact decide_eq_true_iff

theorem callBetween_total {calls : Finset ℕ} {start last : ℕ} :
    (∃ crosses, callBetween calls start last = some crosses) ↔ calls = ∅ ∨ start < last := by
  unfold callBetween
  split_ifs with hempty hless
  · simp [hempty]
  · simp [hempty, Nat.not_lt_of_le hless]
  · simp [Nat.lt_of_not_le hless]

theorem interval_spec {builder : RegisterAllocationBuilder} {range : LiveRange} {index : ℕ}
    {found : Interval} (h : interval builder.calls builder.callCrossing (range, index) = some found) :
    found.register = ⟨index, range.registerClass⟩ ∧ found.start = range.start ∧
      found.last = range.last ∧ (found.crossesCall = true ↔ builder.Crosses index range) := by
  simp only [interval] at h
  split at h
  · next hmarked =>
    cases h
    exact ⟨rfl, rfl, rfl, fun _ => Or.inl hmarked, fun _ => rfl⟩
  · next hmarked =>
    rw [Option.map_eq_some_iff] at h
    obtain ⟨crosses, hcrosses, rfl⟩ := h
    refine ⟨rfl, rfl, rfl, ?_⟩
    rw [RegisterAllocationBuilder.Crosses, or_iff_right hmarked]
    exact callBetween_spec hcrosses

theorem interval_total {builder : RegisterAllocationBuilder} {range : LiveRange} {index : ℕ} :
    (∃ found, interval builder.calls builder.callCrossing (range, index) = some found) ↔
      ⟨index, range.registerClass⟩ ∈ builder.callCrossing ∨ builder.calls = ∅ ∨
        range.start < range.last := by
  simp only [interval]
  split
  · next hmarked => simp [hmarked]
  · next hmarked =>
    rw [or_iff_right hmarked, ← callBetween_total]
    constructor
    · rintro ⟨_, h⟩
      rw [Option.map_eq_some_iff] at h
      obtain ⟨crosses, hcrosses, _⟩ := h
      exact ⟨crosses, hcrosses⟩
    · rintro ⟨crosses, hcrosses⟩
      rw [hcrosses]
      exact ⟨_, rfl⟩

/-- The intervals exist exactly if the builder's registers span the search for calls. -/
theorem intervals_total {builder : RegisterAllocationBuilder} :
    (∃ intervals, builder.ranges.zipIdx.mapM (interval builder.calls builder.callCrossing) =
      some intervals) ↔ builder.Spans := by
  constructor
  · rintro ⟨intervals, hintervals⟩
    by_cases hcalls : builder.calls = ∅
    · exact Or.inl hcalls
    refine Or.inr fun index range hrange => ?_
    obtain ⟨found, _, hfound⟩ := (zipIdx_mapM_some hintervals).2 index range hrange
    exact (interval_total.mp ⟨found, hfound⟩).imp_right fun h => h.resolve_left hcalls
  · intro hspans
    refine mapM_some_total fun entry hmem => interval_total.mpr ?_
    obtain ⟨range, index⟩ := entry
    have hrange := List.mem_zipIdx_iff_getElem?.mp hmem
    rcases hspans with hcalls | hspans
    · exact Or.inr (Or.inl hcalls)
    · exact (hspans index range hrange).imp_right Or.inr

section Allocation

variable {builder : RegisterAllocationBuilder} {intervals : List Interval}

theorem intervals_get (h : builder.ranges.zipIdx.mapM
      (interval builder.calls builder.callCrossing) = some intervals) {i : ℕ} {range : LiveRange}
    (hrange : builder.ranges[i]? = some range) :
    ∃ found, intervals[i]? = some found ∧ found.register = ⟨i, range.registerClass⟩ ∧
      found.start = range.start ∧ found.last = range.last ∧
      (found.crossesCall = true ↔ builder.Crosses i range) := by
  obtain ⟨found, hfound, hinterval⟩ := (zipIdx_mapM_some h).2 i range hrange
  exact ⟨found, hfound, interval_spec hinterval⟩

/-- An interval stands at the index of its register. -/
theorem intervals_at (h : builder.ranges.zipIdx.mapM
      (interval builder.calls builder.callCrossing) = some intervals) {i : ℕ} {found : Interval}
    (hfound : intervals[i]? = some found) : found.register.index = i := by
  have hlt := (List.getElem?_eq_some_iff.mp hfound).1
  rw [(zipIdx_mapM_some h).1] at hlt
  obtain ⟨other, hother, hregister, _⟩ := intervals_get h (List.getElem?_eq_getElem hlt)
  rw [hfound, Option.some.injEq] at hother
  rw [hother, hregister]

theorem intervals_distinct (h : builder.ranges.zipIdx.mapM
      (interval builder.calls builder.callCrossing) = some intervals) :
    DistinctRegisters intervals := by
  intro first hfirst second hsecond hindex
  obtain ⟨i, hi⟩ := List.mem_iff_getElem?.mp hfirst
  obtain ⟨j, hj⟩ := List.mem_iff_getElem?.mp hsecond
  rw [intervals_at h hi, intervals_at h hj] at hindex
  rw [hindex, hj] at hi
  exact (Option.some.inj hi).symm

theorem intervals_nodup (h : builder.ranges.zipIdx.mapM
      (interval builder.calls builder.callCrossing) = some intervals) : intervals.Nodup := by
  rw [List.nodup_iff_getElem?_ne_getElem?]
  intro i j hij hj heq
  have hlast := List.getElem?_eq_getElem hj
  rw [hlast] at heq
  have hsame := intervals_at h heq
  rw [intervals_at h hlast] at hsame
  exact absurd hsame.symm hij.ne

theorem before_total : Std.Total Interval.before :=
  ⟨fun first second => by unfold Interval.before; omega⟩

theorem before_trans : IsTrans Interval Interval.before :=
  ⟨fun first second third hfirst hsecond => by unfold Interval.before at *; omega⟩

/-- The placed intervals with their locations. -/
theorem placeAll_placed (h : builder.ranges.zipIdx.mapM
      (interval builder.calls builder.callCrossing) = some intervals) :
    ∃ scan last, Simulates intervals
        (placeAll intervals.length (intervals.insertionSort Interval.before)) scan ∧
      LinearScan.Placed Interval.start Interval.last Interval.Allows
        (intervals.insertionSort Interval.before) last scan := by
  have hperm := List.perm_insertionSort Interval.before intervals
  have hstart : Simulates intervals ⟨List.replicate intervals.length none, [], 0⟩
      (LinearScan.State.empty Interval PhysicalRegister) := by
    refine ⟨rfl, rfl, fun interval hmem => ?_, fun holder hmem => absurd hmem List.not_mem_nil,
      fun holder hmem => absurd hmem List.not_mem_nil⟩
    obtain ⟨i, hi⟩ := List.mem_iff_getElem?.mp hmem
    have hlt := (List.getElem?_eq_some_iff.mp hi).1
    rw [intervals_at h hi, List.getElem?_replicate_of_lt hlt]
    rfl
  obtain ⟨scan, hscans, hsimulates⟩ := hstart.placeAll (intervals_distinct h)
    fun interval hmem => hperm.subset hmem
  have hsorted : (intervals.insertionSort Interval.before).Pairwise
      fun first second => first.start ≤ second.start := by
    have := before_total
    have := before_trans
    refine (List.pairwise_insertionSort Interval.before intervals).imp fun hbefore => ?_
    unfold Interval.before at hbefore
    omega
  obtain ⟨last, hplaced⟩ := hscans.placed hsorted (hperm.nodup_iff.mpr (intervals_nodup h))
  exact ⟨scan, last, hsimulates, hplaced⟩

theorem place_length (state : AllocationState) (interval : Interval) :
    (place state interval).locations.length = state.locations.length := by
  unfold place
  dsimp only
  split
  · rw [List.length_set]
  split
  · split
    · rw [List.length_set, List.length_set]
    · rw [List.length_set]
  · rw [List.length_set]

theorem placeAll_length (count : ℕ) (intervals : List Interval) :
    (placeAll count intervals).locations.length = count := by
  have hfold : ∀ (rest : List Interval) (state : AllocationState),
      (rest.foldl place state).locations.length = state.locations.length := by
    intro rest
    induction rest with
    | nil => exact fun _ => rfl
    | cons interval rest ih =>
      intro state
      rw [List.foldl_cons, ih, place_length]
  rw [placeAll, hfold, List.length_replicate]

/-- Every interval has received a location. -/
theorem locations_total (h : builder.ranges.zipIdx.mapM
      (interval builder.calls builder.callCrossing) = some intervals)
    {scan : LinearScan.State Interval PhysicalRegister} {state : AllocationState} {last : ℕ}
    (hsimulates : Simulates intervals state scan)
    (hplaced : LinearScan.Placed Interval.start Interval.last Interval.Allows
      (intervals.insertionSort Interval.before) last scan)
    (hlength : state.locations.length = intervals.length) :
    ∃ locations, state.locations.mapM id = some locations ∧
      locations.length = builder.ranges.length ∧
      ∀ (i : ℕ) (found : Interval), intervals[i]? = some found →
        ∃ value, scan.location found = some value ∧
          locations[i]? = some (AllocatedLocation.ofScan value) := by
  have hgiven : ∀ (i : ℕ) (found : Interval), intervals[i]? = some found → ∃ value, scan.location found = some value ∧
      state.locations[i]? = some (some (AllocatedLocation.ofScan value)) := by
    intro i found hfound
    have hmem := List.mem_of_getElem? hfound
    obtain ⟨value, hvalue⟩ := Option.ne_none_iff_exists'.mp
      ((hplaced.located found).mp ((List.mem_insertionSort _).mpr hmem))
    have hlocation := hsimulates.location found hmem
    rw [intervals_at h hfound, hvalue] at hlocation
    exact ⟨value, hvalue, hlocation⟩
  have htotal : ∃ locations, state.locations.mapM id = some locations := by
    refine mapM_some_total fun location hmem => ?_
    obtain ⟨i, hi⟩ := List.mem_iff_getElem?.mp hmem
    have hlt := (List.getElem?_eq_some_iff.mp hi).1
    rw [hlength] at hlt
    obtain ⟨value, _, hvalue⟩ := hgiven i _ (List.getElem?_eq_getElem hlt)
    rw [hi, Option.some.injEq] at hvalue
    exact ⟨_, hvalue⟩
  obtain ⟨locations, hlocations⟩ := htotal
  have hresults := mapM_some_iff.mp hlocations
  have hcount := hresults.length_eq
  refine ⟨locations, hlocations, by rw [← hcount, hlength, (zipIdx_mapM_some h).1],
    fun i found hfound => ?_⟩
  obtain ⟨value, hvalue, hlocation⟩ := hgiven i found hfound
  obtain ⟨hlt, hlocation⟩ := List.getElem?_eq_some_iff.mp hlocation
  have hentry := hresults.get hlt (by omega)
  rw [List.get_eq_getElem, List.get_eq_getElem, hlocation] at hentry
  exact ⟨value, hvalue, by rw [List.getElem?_eq_getElem (by omega)]; exact hentry.symm⟩

theorem mem_preserved {locations : List AllocatedLocation} {register : Register} :
    register ∈ preserved locations ↔ Abi.isCalleeSaved register = true ∧
      ∃ i : ℕ, locations[i]? = some (.generalRegister register) := by
  have hmem : register ∈ (List.finRange 31).map Register.mk :=
    List.mem_map.mpr ⟨register.number, List.mem_finRange _, rfl⟩
  rw [preserved, List.mem_filter, Bool.and_eq_true, decide_eq_true_iff, and_iff_right hmem,
    ← List.mem_iff_getElem?]

theorem preserved_ordered (locations : List AllocatedLocation) :
    (preserved locations).Pairwise fun first second => first.number < second.number := by
  refine List.Pairwise.filter _ ?_
  rw [List.pairwise_map]
  exact List.pairwise_lt_finRange 31

/-- The placed intervals make a sound allocation. -/
theorem allocation_sound (h : builder.ranges.zipIdx.mapM
      (interval builder.calls builder.callCrossing) = some intervals)
    {scan : LinearScan.State Interval PhysicalRegister} {last : ℕ}
    (hplaced : LinearScan.Placed Interval.start Interval.last Interval.Allows
      (intervals.insertionSort Interval.before) last scan)
    {locations : List AllocatedLocation} (hlength : locations.length = builder.ranges.length)
    (hlocations : ∀ (i : ℕ) (found : Interval), intervals[i]? = some found → ∃ value,
      scan.location found = some value ∧
        locations[i]? = some (AllocatedLocation.ofScan value)) :
    builder.Sound ⟨locations, preserved locations, scan.spilled⟩ := by
  have hat : ∀ (i : ℕ) location, locations[i]? = some location → ∃ found value,
      intervals[i]? = some found ∧ scan.location found = some value ∧ location = .ofScan value := by
    intro i location hlocation
    have hlt := (List.getElem?_eq_some_iff.mp hlocation).1
    rw [hlength, ← (zipIdx_mapM_some h).1] at hlt
    obtain ⟨value, hvalue, hentry⟩ := hlocations i _ (List.getElem?_eq_getElem hlt)
    rw [hlocation, Option.some.injEq] at hentry
    exact ⟨_, value, List.getElem?_eq_getElem hlt, hvalue, hentry⟩
  have hslot : ∀ (i : ℕ) (slot : ℕ), locations[i]? = some (.spill slot) → ∃ found,
      intervals[i]? = some found ∧ scan.location found = some (.inr slot) := by
    intro i slot hlocation
    obtain ⟨found, value, hfound, hvalue, heq⟩ := hat i _ hlocation
    have hinr : value = .inr slot := ofScan_injective heq.symm
    rw [hinr] at hvalue
    exact ⟨found, hfound, hvalue⟩
  refine ⟨hlength, fun i j first second hij hfirst hsecond hleft hright heq => ?_,
    fun i range location hrange hlocation => ?_, fun i j slot hi hj => ?_, fun slot => ?_,
    fun register => mem_preserved, preserved_ordered locations⟩
  · obtain ⟨a, ha, _, hastart, halast, _⟩ := intervals_get h hfirst
    obtain ⟨b, hb, _, hbstart, hblast, _⟩ := intervals_get h hsecond
    have hne : a ≠ b := by
      rintro rfl
      exact hij ((intervals_at h ha).symm.trans (intervals_at h hb))
    obtain ⟨value, hvalue, hi⟩ := hlocations i a ha
    obtain ⟨other, hother, hj⟩ := hlocations j b hb
    dsimp only at heq
    rw [hi, hj, Option.some.injEq] at heq
    obtain rfl := ofScan_injective heq
    cases value with
    | inl physical =>
      have hapart := hplaced.apart a b physical hvalue hother hne
      omega
    | inr slot => exact hne (hplaced.single a b slot hvalue hother)
  · obtain ⟨found, value, hfound, hvalue, rfl⟩ := hat i location hlocation
    obtain ⟨other, hother, hregister, _, _, hcrosses⟩ := intervals_get h hrange
    rw [hfound, Option.some.injEq] at hother
    subst hother
    have hclass := congrArg VirtualRegister.registerClass hregister
    cases value with
    | inr slot => exact trivial
    | inl physical =>
      have hallowed := hplaced.allowed found physical hvalue
      cases physical with
      | general register =>
        obtain ⟨hgeneral, hallocatable, hsaved⟩ := hallowed
        exact ⟨hclass.symm.trans hgeneral, hallocatable, fun hcross => hsaved (hcrosses.mpr hcross)⟩
      | floating register =>
        obtain ⟨hfloating, hallocatable, hlocal⟩ := hallowed
        refine ⟨hclass.symm.trans hfloating, hallocatable, fun hcross => ?_⟩
        rw [hcrosses.mpr hcross] at hlocal
        cases hlocal
  · obtain ⟨a, ha, haslot⟩ := hslot i slot hi
    obtain ⟨b, hb, hbslot⟩ := hslot j slot hj
    obtain rfl := hplaced.single a b slot haslot hbslot
    exact (intervals_at h ha).symm.trans (intervals_at h hb)
  · constructor
    · intro hslot
      obtain ⟨found, hfound⟩ := hplaced.dense slot hslot
      have hmem := (hplaced.located found).mpr (by rw [hfound]; exact Option.some_ne_none _)
      rw [List.mem_insertionSort] at hmem
      obtain ⟨i, hi⟩ := List.mem_iff_getElem?.mp hmem
      obtain ⟨value, hvalue, hlocation⟩ := hlocations i found hi
      rw [hfound, Option.some.injEq] at hvalue
      subst hvalue
      exact ⟨i, hlocation⟩
    · rintro ⟨i, hi⟩
      obtain ⟨found, _, hfound⟩ := hslot i slot hi
      exact hplaced.bounded found slot hfound

end Allocation

/-- After every sequence of calls, allocation gives every register a location of its own exactly
if no call is recorded or every register that is not marked is used after its definition. -/
theorem finish_sound_iff (operations : List BuilderOperation) :
    (∃ allocation, (RegisterAllocationBuilder.run operations).finish = some allocation ∧
      (RegisterAllocationBuilder.run operations).Sound allocation) ↔
    (RegisterAllocationBuilder.run operations).Spans := by
  generalize RegisterAllocationBuilder.run operations = builder
  rw [← intervals_total]
  constructor
  · rintro ⟨allocation, hfinish, _⟩
    unfold RegisterAllocationBuilder.finish allocate at hfinish
    split at hfinish
    · cases hfinish
    · next intervals hintervals => exact ⟨intervals, hintervals⟩
  · rintro ⟨intervals, hintervals⟩
    obtain ⟨scan, last, hsimulates, hplaced⟩ := placeAll_placed hintervals
    obtain ⟨locations, hlocations, hlength, hgiven⟩ :=
      locations_total hintervals hsimulates hplaced (placeAll_length _ _)
    refine ⟨⟨locations, preserved locations, scan.spilled⟩, ?_,
      allocation_sound hintervals hplaced hlength hgiven⟩
    unfold RegisterAllocationBuilder.finish allocate
    simp only [hintervals, hlocations, hsimulates.spilled]

/-- A register without a use and a recorded call. -/
theorem unused_register_traps :
    ¬ ∃ allocation, (RegisterAllocationBuilder.run [.define 0 .general, .recordCall 5]).finish =
        some allocation ∧
      (RegisterAllocationBuilder.run [.define 0 .general, .recordCall 5]).Sound allocation := by
  rintro ⟨allocation, hfinish, _⟩
  cases hfinish

end Nocter.Arm64
