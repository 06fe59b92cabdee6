import Nocter.Library.FiniteMap
import Nocter.Library.Loop
import Nocter.Library.Traversal
import Nocter.Mir.Body

/-!
# Region flow

The allocation regions of a body form a stack. A worklist carries the active stack over the edges
of the control-flow graph and compares the stacks that meet at a block; every path then respects
the stack order.
-/

namespace Nocter.Mir

variable (body : MirBody)

section Validation

def isRegion (id : MirLocalId) : Bool := (body.locals[id]?).any fun entry => entry.kind = .region

def flowError {α : Type} (block : MirBlockId) (region : Option MirLocalId) : Validation α :=
  .error (.invalidRegionFlow block region)

def validateCurrentSelection (block : MirBlockId) (active : List MirLocalId) :
    MirCallAllocation → Validation Unit
  | .inherit => .ok ()
  | .region region =>
    if active.getLast? = some region then .ok () else flowError block (some region)
  | .explicit id => do
    let place ← orError body.places[id]? (.unknownPlace id)
    match place.root with
    | .local root =>
      if isRegion body root ∧ (place.projections ≠ [] ∨ root ∉ active) then flowError block (some root)
      else return ()
    | _ => return ()

def transferOperation (block : MirBlockId) (active : List MirLocalId) (id : MirOperationId) :
    Validation (List MirLocalId) := do
  let operation ← orError body.operations[id]? (.unknownOperation id)
  match operation.kind with
  | .createRegion _ region =>
    if region ∈ active then flowError block (some region) else return active ++ [region]
  | .releaseRegion region =>
    if active.getLast? = some region then return active.dropLast else flowError block (some region)
  | .call call => do
    validateCurrentSelection body block active call.allocation
    return active
  | .invokeDrop _ allocation => do
    validateCurrentSelection body block active allocation
    return active
  | _ => return active

structure RegionFlow where
  incoming : FiniteMap MirBlockId (List MirLocalId)
  pending : List MirBlockId

def visitSuccessor (active : List MirLocalId) (flow : RegionFlow) (target : MirBranchTarget) :
    Validation RegionFlow :=
  match flow.incoming.get? target.block with
  | some expected => if expected = active then .ok flow else flowError target.block active.getLast?
  | none => .ok ⟨flow.incoming.insert target.block active, flow.pending ++ [target.block]⟩

def leavesBody (terminator : MirTerminator) : Bool := terminator.isReturn || terminator.isExit

def visitBlock (flow : RegionFlow) (id : MirBlockId) : Validation RegionFlow := do
  let block ← orError body.blocks[id]? (.unknownBlock id)
  let incoming ← orError (flow.incoming.get? id) (.invalidRegionFlow id none)
  let active ← block.operations.foldlM (transferOperation body id) incoming
  if leavesBody block.terminator ∧ active ≠ [] then flowError id active.getLast?
  else block.terminator.successors.foldlM (visitSuccessor active) flow

def regionStep (flow : RegionFlow) : RegionFlow ⊕ Validation Unit :=
  match flow.pending with
  | [] => .inr (.ok ())
  | id :: rest =>
    match visitBlock body ⟨flow.incoming, rest⟩ id with
    | .ok next => .inl next
    | .error error => .inr (.error error)

def initialFlow : RegionFlow := ⟨FiniteMap.empty.insert body.entry [], [body.entry]⟩

def validateRegionFlow (passes : ℕ) : Option (Validation Unit) :=
  Loop.within (regionStep body) passes (initialFlow body)

end Validation

section Discipline

/-- What an operation does with the regions of its body. An explicit selection names a region local
as a whole or projects out of it. -/
inductive RegionEvent where
  | create (region : MirLocalId)
  | release (region : MirLocalId)
  | select (region : MirLocalId)
  | explicit (region : MirLocalId) (whole : Bool)
  deriving DecidableEq

def allocationEvent : MirCallAllocation → Option RegionEvent
  | .inherit => none
  | .region region => some (.select region)
  | .explicit id =>
    (body.places[id]?).bind fun place =>
      match place.root with
      | .local root => if isRegion body root then some (.explicit root place.projections.isEmpty) else none
      | _ => none

def regionEvent (operation : MirOperation) : Option RegionEvent :=
  match operation.kind with
  | .createRegion _ region => some (.create region)
  | .releaseRegion region => some (.release region)
  | .call call => allocationEvent body call.allocation
  | .invokeDrop _ allocation => allocationEvent body allocation
  | _ => none

def regionEvents (block : MirBlock) : List RegionEvent :=
  (blockOperations body block).filterMap (regionEvent body)

/-- The events of the blocks that a path has run. -/
def regionTrace (visited : List MirBlockId) : List RegionEvent :=
  visited.flatMap fun id => (body.blocks[id]?).elim [] (regionEvents body)

def advance (active : List MirLocalId) : RegionEvent → List MirLocalId
  | .create region => active ++ [region]
  | .release _ => active.dropLast
  | .select _ | .explicit _ _ => active

/-- The stack of active regions after some events. -/
def activeAfter (events : List RegionEvent) : List MirLocalId := events.foldl advance []

/-- On some path the event follows the events of a list. -/
def Occurs (before : List RegionEvent) (event : RegionEvent) : Prop :=
  ∃ visited id block earlier later, Path body visited id ∧ body.blocks[id]? = some block ∧
    regionEvents body block = earlier ++ event :: later ∧ before = regionTrace body visited ++ earlier

/-- On every path regions are released innermost first, the selected region is the innermost active
one, an explicitly selected region is active, the paths to a block agree on the active regions, and
no region is active where the body is left. -/
structure StackDiscipline : Prop where
  released : ∀ before region, Occurs body before (.release region) →
    (activeAfter before).getLast? = some region
  selected : ∀ before region, Occurs body before (.select region) →
    (activeAfter before).getLast? = some region
  explicit : ∀ before region whole, Occurs body before (.explicit region whole) →
    region ∈ activeAfter before
  merged : ∀ visited visited' id, Path body visited id → Path body visited' id →
    activeAfter (regionTrace body visited) = activeAfter (regionTrace body visited')
  closed : ∀ visited id block, Path body visited id → body.blocks[id]? = some block →
    leavesBody block.terminator → activeAfter (regionTrace body visited ++ regionEvents body block) = []

def knownAllocation : MirCallAllocation → Prop
  | .explicit id => body.places[id]? ≠ none
  | _ => True

/-- The explicitly selected place of the operation is one of the body's. -/
def knownSelection (operation : MirOperation) : Prop :=
  match operation.kind with
  | .call call => knownAllocation body call.allocation
  | .invokeDrop _ allocation => knownAllocation body allocation
  | _ => True

/-- Moreover a region is created while it is not active, an explicit selection names the region as
a whole, and whatever a path reaches is part of the body. -/
structure RegionDiscipline : Prop extends StackDiscipline body where
  created : ∀ before region, Occurs body before (.create region) → region ∉ activeAfter before
  whole : ∀ before region whole, Occurs body before (.explicit region whole) → whole = true
  known : ∀ visited id, Path body visited id → ∃ block, body.blocks[id]? = some block ∧
    ∀ operation ∈ block.operations, ∃ found, body.operations[operation]? = some found ∧
      knownSelection body found

end Discipline

section Transfer

/-- The event is in order when these regions are active. -/
def Admits (active : List MirLocalId) : RegionEvent → Prop
  | .create region => region ∉ active
  | .release region | .select region => active.getLast? = some region
  | .explicit region whole => whole = true ∧ region ∈ active

def Admissible : List MirLocalId → List RegionEvent → Prop
  | _, [] => True
  | active, event :: events => Admits active event ∧ Admissible (advance active event) events

theorem admissible_iff {active : List MirLocalId} {events : List RegionEvent} :
    Admissible active events ↔ ∀ earlier event later, events = earlier ++ event :: later →
      Admits (earlier.foldl advance active) event := by
  induction events generalizing active with
  | nil =>
    refine ⟨fun _ earlier event later h => ?_, fun _ => trivial⟩
    exact absurd h (by simp)
  | cons first events ih =>
    rw [Admissible, ih]
    constructor
    · intro h earlier event later hsplit
      cases earlier with
      | nil =>
        obtain ⟨rfl, rfl⟩ := List.cons.inj hsplit
        exact h.1
      | cons head earlier =>
        obtain ⟨rfl, hrest⟩ := List.cons.inj hsplit
        exact h.2 earlier event later hrest
    · intro h
      refine ⟨h [] first events rfl, fun earlier event later hsplit => ?_⟩
      exact h (first :: earlier) event later (by rw [hsplit]; rfl)

variable {body}

theorem validateCurrentSelection_ok {block : MirBlockId} {active : List MirLocalId}
    {allocation : MirCallAllocation} :
    validateCurrentSelection body block active allocation = .ok () ↔
      knownAllocation body allocation ∧ ∀ event ∈ allocationEvent body allocation,
        Admits active event := by
  cases allocation with
  | inherit => simp [validateCurrentSelection, knownAllocation, allocationEvent]
  | region region =>
    simp [validateCurrentSelection, knownAllocation, allocationEvent, Admits, flowError]
  | explicit id =>
    rw [validateCurrentSelection, except_bind_ok, knownAllocation, allocationEvent]
    cases hplace : body.places[id]? with
    | none => simp
    | some place =>
      simp only [orError_ok, Option.some.injEq, exists_eq_left', ne_eq, reduceCtorEq, not_false_eq_true,
        true_and, Option.bind_some]
      cases hroot : place.root with
      | «local» root =>
        by_cases hregion : isRegion body root
        · simp [hregion, Admits, flowError, pure, Except.pure]
        · simp [hregion, pure, Except.pure]
      | «static» => simp [pure, Except.pure]
      | dereference value => simp [pure, Except.pure]

theorem selection_ok {block : MirBlockId} {active next : List MirLocalId}
    {allocation : MirCallAllocation} :
    (do validateCurrentSelection body block active allocation
        return active : Validation (List MirLocalId)) = .ok next ↔ knownAllocation body allocation ∧
        (∀ event ∈ allocationEvent body allocation, Admits active event) ∧
        next = (allocationEvent body allocation).elim active (advance active) := by
  have hsame : (allocationEvent body allocation).elim active (advance active) = active := by
    cases allocation with
    | inherit => rfl
    | region region => rfl
    | explicit id =>
      cases hevent : allocationEvent body (.explicit id) with
      | none => rfl
      | some event =>
        obtain ⟨place, _, hplace⟩ := Option.bind_eq_some_iff.mp hevent
        split at hplace
        · split at hplace
          · cases hplace
            rfl
          · cases hplace
        · cases hplace
  rw [hsame, except_bind_ok]
  constructor
  · rintro ⟨_, hselect, hnext⟩
    obtain ⟨hknown, hadmits⟩ := validateCurrentSelection_ok.mp hselect
    exact ⟨hknown, hadmits, (Except.ok.inj hnext).symm⟩
  · rintro ⟨hknown, hadmits, rfl⟩
    exact ⟨(), validateCurrentSelection_ok.mpr ⟨hknown, hadmits⟩, rfl⟩

theorem transferOperation_ok {block : MirBlockId} {active next : List MirLocalId}
    {id : MirOperationId} :
    transferOperation body block active id = .ok next ↔ ∃ operation,
      body.operations[id]? = some operation ∧ knownSelection body operation ∧
        (∀ event ∈ regionEvent body operation, Admits active event) ∧
        next = (regionEvent body operation).elim active (advance active) := by
  rw [transferOperation, except_bind_ok]
  refine exists_congr fun operation => ?_
  rw [orError_ok]
  refine and_congr_right fun _ => ?_
  rw [knownSelection, regionEvent]
  cases operation.kind with
  | createRegion parent region =>
    by_cases hmem : region ∈ active
    · simp [hmem, Admits, flowError]
    · simp [hmem, Admits, advance, pure, Except.pure, eq_comm]
  | releaseRegion region =>
    by_cases hlast : active.getLast? = some region
    · simp [hlast, Admits, advance, pure, Except.pure, eq_comm]
    · simp [hlast, Admits, flowError]
  | call call => exact selection_ok
  | invokeDrop place allocation => exact selection_ok
  | _ => simp [pure, Except.pure, eq_comm]

/-- The events of some operations of the body. -/
def eventsOf (body : MirBody) (operations : List MirOperationId) : List RegionEvent :=
  (operations.filterMap fun id => body.operations[id]?).filterMap (regionEvent body)

theorem transferOperations_ok {block : MirBlockId} {active next : List MirLocalId}
    {operations : List MirOperationId} :
    operations.foldlM (transferOperation body block) active = .ok next ↔
      (∀ id ∈ operations, ∃ operation, body.operations[id]? = some operation ∧
        knownSelection body operation) ∧ Admissible active (eventsOf body operations) ∧
      next = (eventsOf body operations).foldl advance active := by
  induction operations generalizing active with
  | nil => simp [eventsOf, Admissible, pure, Except.pure, eq_comm]
  | cons id operations ih =>
    rw [except_foldlM_cons]
    simp only [ih, transferOperation_ok, List.forall_mem_cons]
    constructor
    · rintro ⟨middle, ⟨operation, hfound, hknown, hadmits, rfl⟩, hrest, hadmissible, rfl⟩
      refine ⟨⟨⟨operation, hfound, hknown⟩, hrest⟩, ?_⟩
      cases hevent : regionEvent body operation with
      | none => simpa [eventsOf, hfound, hevent] using hadmissible
      | some event =>
        have hadmit := hadmits event (by rw [hevent]; rfl)
        simpa [eventsOf, hfound, hevent, Admissible, hadmit] using hadmissible
    · rintro ⟨⟨⟨operation, hfound, hknown⟩, hrest⟩, hadmissible, rfl⟩
      refine ⟨_, ⟨operation, hfound, hknown, ?_, rfl⟩, hrest, ?_⟩
      · intro event hevent
        simp only [eventsOf, List.filterMap_cons, hfound, Option.mem_def.mp hevent, Admissible]
          at hadmissible
        exact hadmissible.1
      · cases hevent : regionEvent body operation with
        | none => simpa [eventsOf, hfound, hevent] using hadmissible
        | some event =>
          simp only [eventsOf, List.filterMap_cons, hfound, hevent, Admissible] at hadmissible
          simpa [eventsOf, hfound, hevent] using hadmissible.2

end Transfer

section Worklist

variable {body}

theorem activeAfter_append (before after : List RegionEvent) :
    activeAfter (before ++ after) = after.foldl advance (activeAfter before) := List.foldl_append

theorem regionTrace_append {visited : List MirBlockId} {id : MirBlockId} {block : MirBlock}
    (hblock : body.blocks[id]? = some block) :
    regionTrace body (visited ++ [id]) = regionTrace body visited ++ regionEvents body block := by
  simp [regionTrace, hblock]

/-- The stack was found on some path to the block. -/
def Traced (body : MirBody) (id : MirBlockId) (active : List MirLocalId) : Prop :=
  ∃ visited, Path body visited id ∧ activeAfter (regionTrace body visited) = active

/-- A block whose stack has been carried over its operations to all of its successors. -/
def Settled (body : MirBody) (incoming : FiniteMap MirBlockId (List MirLocalId)) (id : MirBlockId)
    (active : List MirLocalId) : Prop :=
  ∃ block, body.blocks[id]? = some block ∧
    (∀ id ∈ block.operations, ∃ operation, body.operations[id]? = some operation ∧
      knownSelection body operation) ∧
    Admissible active (regionEvents body block) ∧
    (leavesBody block.terminator → (regionEvents body block).foldl advance active = []) ∧
    ∀ target ∈ block.terminator.successors,
      incoming.get? target.block = some ((regionEvents body block).foldl advance active)

/-- Recorded stacks stay, and only blocks without one become pending. -/
structure Extends (flow next : RegionFlow) : Prop where
  stays : ∀ id active, flow.incoming.get? id = some active → next.incoming.get? id = some active
  pending : ∀ id ∈ next.pending, id ∈ flow.pending ∨ id ∉ flow.incoming.keys

theorem Extends.refl (flow : RegionFlow) : Extends flow flow :=
  ⟨fun _ _ h => h, fun _ h => Or.inl h⟩

theorem Extends.mem_keys {flow next : RegionFlow} (h : Extends flow next) {id : MirBlockId}
    (hid : id ∈ flow.incoming.keys) : id ∈ next.incoming.keys := by
  obtain ⟨active, hactive⟩ := Option.isSome_iff_exists.mp (FiniteMap.mem_keys _ |>.mp hid)
  exact FiniteMap.mem_keys_of_get (h.stays id active hactive)

theorem Extends.trans (flow middle next : RegionFlow) (h : Extends flow middle)
    (h' : Extends middle next) : Extends flow next := by
  refine ⟨fun id active hactive => h'.stays id active (h.stays id active hactive), fun id hid => ?_⟩
  rcases h'.pending id hid with hmem | hkeys
  · exact h.pending id hmem
  · exact Or.inr fun hmem => hkeys (h.mem_keys hmem)

theorem Settled.mono {flow next : RegionFlow} (h : Extends flow next) {id : MirBlockId}
    {active : List MirLocalId} (hsettled : Settled body flow.incoming id active) :
    Settled body next.incoming id active := by
  obtain ⟨block, hblock, hknown, hadmits, hleave, htargets⟩ := hsettled
  exact ⟨block, hblock, hknown, hadmits, hleave, fun target ht =>
    h.stays _ _ (htargets target ht)⟩

/-- What the worklist keeps while one block is visited. -/
structure Carried (body : MirBody) (current : MirBlockId) (flow : RegionFlow) : Prop where
  entry : flow.incoming.get? body.entry = some []
  recorded : ∀ id ∈ flow.pending, id ∈ flow.incoming.keys
  nodup : flow.pending.Nodup
  traced : ∀ id active, flow.incoming.get? id = some active → Traced body id active
  settled : ∀ id active, flow.incoming.get? id = some active → id ∉ flow.pending → id ≠ current →
    Settled body flow.incoming id active
  visiting : current ∈ flow.incoming.keys ∧ current ∉ flow.pending

theorem visitSuccessor_carried {current : MirBlockId} {active : List MirLocalId}
    {flow next : RegionFlow} {target : MirBranchTarget} (htraced : Traced body target.block active)
    (h : visitSuccessor active flow target = .ok next) (hflow : Carried body current flow) :
    Carried body current next ∧ Extends flow next ∧
      next.incoming.get? target.block = some active := by
  rw [visitSuccessor] at h
  cases hget : flow.incoming.get? target.block with
  | some expected =>
    simp only [hget] at h
    split at h
    · rename_i heq
      cases h
      exact ⟨hflow, .refl flow, by rw [hget, heq]⟩
    · cases h
  | none =>
    simp only [hget] at h
    cases h
    have hfresh : target.block ∉ flow.incoming.keys := FiniteMap.notMem_keys.mpr hget
    have hextends : Extends flow
        ⟨flow.incoming.insert target.block active, flow.pending ++ [target.block]⟩ := by
      constructor
      · intro id stack hstack
        rw [FiniteMap.get_insert, if_neg]
        · exact hstack
        · rintro rfl
          rw [hget] at hstack
          cases hstack
      · intro id hid
        rcases List.mem_append.mp hid with hid | hid
        · exact Or.inl hid
        · rw [List.mem_singleton.mp hid]
          exact Or.inr hfresh
    refine ⟨⟨hextends.stays _ _ hflow.entry, ?_, ?_, ?_, ?_, ?_⟩, hextends, by
      rw [FiniteMap.get_insert, if_pos rfl]⟩
    · intro id hid
      rcases List.mem_append.mp hid with hid | hid
      · exact Finset.mem_insert_of_mem (hflow.recorded id hid)
      · rw [List.mem_singleton.mp hid]
        exact Finset.mem_insert_self _ _
    · refine List.nodup_append.mpr ⟨hflow.nodup, List.nodup_singleton _, ?_⟩
      rintro id hid _ hmem rfl
      rw [List.mem_singleton.mp hmem] at hid
      exact hfresh (hflow.recorded _ hid)
    · intro id stack hstack
      rw [FiniteMap.get_insert] at hstack
      split at hstack
      · cases hstack
        rename_i heq
        rw [heq]
        exact htraced
      · exact hflow.traced id stack hstack
    · intro id stack hstack hid hne
      rw [List.mem_append, not_or, List.mem_singleton] at hid
      rw [FiniteMap.get_insert, if_neg hid.2] at hstack
      exact (hflow.settled id stack hstack hid.1 hne).mono hextends
    · refine ⟨Finset.mem_insert_of_mem hflow.visiting.1, ?_⟩
      rw [List.mem_append, not_or, List.mem_singleton]
      refine ⟨hflow.visiting.2, ?_⟩
      rintro rfl
      exact hfresh hflow.visiting.1

theorem visitSuccessors_carried {current : MirBlockId} {active : List MirLocalId}
    {flow next : RegionFlow} {targets : List MirBranchTarget}
    (htraced : ∀ target ∈ targets, Traced body target.block active)
    (h : targets.foldlM (visitSuccessor active) flow = .ok next) (hflow : Carried body current flow) :
    Carried body current next ∧ Extends flow next ∧
      ∀ target ∈ targets, next.incoming.get? target.block = some active :=
  foldlM_ok_spec (I := Carried body current) (R := Extends)
    (Q := fun target flow => flow.incoming.get? target.block = some active)
    .refl .trans (fun target _ _ h hget => h.stays target.block active hget)
    (fun target ht _ _ hvisit hcarried => visitSuccessor_carried (htraced target ht) hvisit hcarried)
    h hflow

/-- What the worklist keeps between two blocks. -/
structure FlowInvariant (body : MirBody) (flow : RegionFlow) : Prop where
  entry : flow.incoming.get? body.entry = some []
  recorded : ∀ id ∈ flow.pending, id ∈ flow.incoming.keys
  nodup : flow.pending.Nodup
  traced : ∀ id active, flow.incoming.get? id = some active → Traced body id active
  settled : ∀ id active, flow.incoming.get? id = some active → id ∉ flow.pending →
    Settled body flow.incoming id active

theorem FlowInvariant.carried {id : MirBlockId} {flow : RegionFlow} {rest : List MirBlockId}
    (h : FlowInvariant body flow) (hpending : flow.pending = id :: rest) :
    Carried body id ⟨flow.incoming, rest⟩ where
  entry := h.entry
  recorded other hother := h.recorded other (by rw [hpending]; exact List.mem_cons_of_mem _ hother)
  nodup := (List.nodup_cons.mp (hpending ▸ h.nodup)).2
  traced := h.traced
  settled other active hget hother hne := h.settled other active hget (by
    rw [hpending, List.mem_cons, not_or]
    exact ⟨hne, hother⟩)
  visiting := ⟨h.recorded id (by rw [hpending]; exact List.mem_cons_self),
    (List.nodup_cons.mp (hpending ▸ h.nodup)).1⟩

theorem Traced.step {id : MirBlockId} {block : MirBlock} {active : List MirLocalId}
    (h : Traced body id active) (hblock : body.blocks[id]? = some block) {target : MirBranchTarget}
    (htarget : target ∈ block.terminator.successors) :
    Traced body target.block ((regionEvents body block).foldl advance active) := by
  obtain ⟨visited, hpath, rfl⟩ := h
  refine ⟨visited ++ [id], hpath.step hblock htarget, ?_⟩
  rw [regionTrace_append hblock, activeAfter_append]

theorem visitBlock_invariant {id : MirBlockId} {flow next : RegionFlow} {rest : List MirBlockId}
    (hinv : FlowInvariant body flow) (hpending : flow.pending = id :: rest)
    (h : visitBlock body ⟨flow.incoming, rest⟩ id = .ok next) :
    FlowInvariant body next ∧ Extends ⟨flow.incoming, rest⟩ next ∧ id ∉ next.pending := by
  obtain ⟨block, hblock, h⟩ := except_bind_ok.mp h
  obtain ⟨incoming, hincoming, h⟩ := except_bind_ok.mp h
  obtain ⟨active, hactive, h⟩ := except_bind_ok.mp h
  rw [orError_ok] at hblock hincoming
  obtain ⟨hknown, hadmits, hfold⟩ := transferOperations_ok.mp hactive
  split at h
  · cases h
  · rename_i hleave
    have htraced : ∀ target ∈ block.terminator.successors, Traced body target.block active :=
      fun target htarget => hfold ▸ (hinv.traced id incoming hincoming).step hblock htarget
    obtain ⟨hcarried, hextends, htargets⟩ :=
      visitSuccessors_carried htraced h (hinv.carried hpending)
    have hsettled : Settled body next.incoming id incoming := by
      refine ⟨block, hblock, hknown, hadmits, fun hleaves => ?_, fun target htarget => ?_⟩
      · rw [not_and, not_not] at hleave
        exact hfold.symm.trans (hleave hleaves)
      · rw [htargets target htarget, hfold]
        rfl
    refine ⟨⟨hcarried.entry, hcarried.recorded, hcarried.nodup, hcarried.traced, ?_⟩, hextends,
      hcarried.visiting.2⟩
    intro other stack hstack hother
    by_cases hsame : other = id
    · rw [hsame] at hstack ⊢
      obtain rfl := Option.some.inj ((hextends.stays id incoming hincoming).symm.trans hstack)
      exact hsettled
    · exact hcarried.settled other stack hstack hother hsame

def finished (flow : RegionFlow) : Finset MirBlockId := flow.incoming.keys \ flow.pending.toFinset

theorem finished_card_le {flow : RegionFlow} (h : FlowInvariant body flow) :
    (finished flow).card ≤ body.blocks.length := by
  have hsub : finished flow ⊆ Finset.range body.blocks.length := by
    intro id hid
    rw [finished, Finset.mem_sdiff, List.mem_toFinset] at hid
    obtain ⟨active, hactive⟩ := Option.isSome_iff_exists.mp (FiniteMap.mem_keys _ |>.mp hid.1)
    obtain ⟨block, hblock, _⟩ := h.settled id active hactive hid.2
    exact Finset.mem_range.mpr (List.getElem?_eq_some_iff.mp hblock).1
  simpa using Finset.card_le_card hsub

theorem finished_lt {id : MirBlockId} {flow next : RegionFlow} {rest : List MirBlockId}
    (hinv : FlowInvariant body flow) (hpending : flow.pending = id :: rest)
    (hextends : Extends ⟨flow.incoming, rest⟩ next) (hid : id ∉ next.pending) :
    (finished flow).card < (finished next).card := by
  have hkey : id ∈ flow.incoming.keys := hinv.recorded id (by rw [hpending]; exact List.mem_cons_self)
  apply Finset.card_lt_card
  rw [Finset.ssubset_iff_of_subset]
  · refine ⟨id, ?_, ?_⟩
    · rw [finished, Finset.mem_sdiff, List.mem_toFinset]
      exact ⟨hextends.mem_keys hkey, hid⟩
    · rw [finished, Finset.mem_sdiff, List.mem_toFinset, hpending]
      exact fun h => h.2 List.mem_cons_self
  · intro other hother
    rw [finished, Finset.mem_sdiff, List.mem_toFinset, hpending, List.mem_cons, not_or] at hother
    rw [finished, Finset.mem_sdiff, List.mem_toFinset]
    refine ⟨hextends.mem_keys hother.1, fun hmem => ?_⟩
    rcases hextends.pending other hmem with h | h
    · exact hother.2.2 h
    · exact h hother.1

theorem FlowInvariant.initial : FlowInvariant body (initialFlow body) := by
  have hget : ∀ id active, (initialFlow body).incoming.get? id = some active →
      id = body.entry ∧ active = [] := by
    intro id active h
    rw [initialFlow, FiniteMap.get_insert] at h
    split at h
    · exact ⟨‹_›, (Option.some.inj h).symm⟩
    · cases h
  refine ⟨by rw [initialFlow, FiniteMap.get_insert, if_pos rfl], ?_, List.nodup_singleton _, ?_, ?_⟩
  · intro id hid
    rw [List.mem_singleton.mp hid]
    exact Finset.mem_insert_self _ _
  · intro id active h
    obtain ⟨rfl, rfl⟩ := hget id active h
    exact ⟨[], .entry, rfl⟩
  · intro id active h hid
    exact absurd (List.mem_singleton.mpr (hget id active h).1) hid

end Worklist

section Exactness

variable {body}

/-- When nothing is pending, every path carries the recorded stack to a settled block. -/
theorem FlowInvariant.path {flow : RegionFlow} (h : FlowInvariant body flow)
    (hpending : flow.pending = []) {visited : List MirBlockId} {id : MirBlockId}
    (hpath : Path body visited id) :
    flow.incoming.get? id = some (activeAfter (regionTrace body visited)) ∧
      Settled body flow.incoming id (activeAfter (regionTrace body visited)) := by
  have hsettled : ∀ {id active}, flow.incoming.get? id = some active →
      Settled body flow.incoming id active := fun hget =>
    h.settled _ _ hget (by rw [hpending]; exact List.not_mem_nil)
  induction hpath with
  | entry => exact ⟨h.entry, hsettled h.entry⟩
  | @step visited id block target _ hblock htarget ih =>
    obtain ⟨block', hblock', _, _, _, htargets⟩ := ih.2
    obtain rfl := Option.some.inj (hblock.symm.trans hblock')
    have hget := htargets target htarget
    rw [← activeAfter_append, ← regionTrace_append hblock] at hget
    exact ⟨hget, hsettled hget⟩

theorem FlowInvariant.discipline {flow : RegionFlow} (h : FlowInvariant body flow)
    (hpending : flow.pending = []) : RegionDiscipline body := by
  have hadmits : ∀ before event, Occurs body before event → Admits (activeAfter before) event := by
    rintro _ event ⟨visited, id, block, earlier, later, hpath, hblock, hevents, rfl⟩
    obtain ⟨block', hblock', _, hadmissible, _⟩ := (h.path hpending hpath).2
    obtain rfl := Option.some.inj (hblock.symm.trans hblock')
    rw [activeAfter_append]
    exact admissible_iff.mp hadmissible earlier event later hevents
  refine ⟨⟨fun before region hoccurs => hadmits before _ hoccurs,
    fun before region hoccurs => hadmits before _ hoccurs,
    fun before region whole hoccurs => (hadmits before _ hoccurs).2, ?_, ?_⟩,
    fun before region hoccurs => hadmits before _ hoccurs,
    fun before region whole hoccurs => (hadmits before _ hoccurs).1, ?_⟩
  · intro visited visited' id hpath hpath'
    exact Option.some.inj ((h.path hpending hpath).1.symm.trans (h.path hpending hpath').1)
  · intro visited id block hpath hblock hleave
    obtain ⟨block', hblock', _, _, hclosed, _⟩ := (h.path hpending hpath).2
    obtain rfl := Option.some.inj (hblock.symm.trans hblock')
    rw [activeAfter_append]
    exact hclosed hleave
  · intro visited id hpath
    obtain ⟨block, hblock, hknown, _⟩ := (h.path hpending hpath).2
    exact ⟨block, hblock, hknown⟩

theorem RegionDiscipline.admits (h : RegionDiscipline body) {before : List RegionEvent}
    {event : RegionEvent} (hoccurs : Occurs body before event) :
    Admits (activeAfter before) event := by
  cases event with
  | create region => exact h.created before region hoccurs
  | release region => exact h.released before region hoccurs
  | select region => exact h.selected before region hoccurs
  | explicit region whole => exact ⟨h.whole before region whole hoccurs,
    h.explicit before region whole hoccurs⟩

theorem visitSuccessor_total (hdiscipline : RegionDiscipline body) {current : MirBlockId}
    {active : List MirLocalId} {flow : RegionFlow} {target : MirBranchTarget}
    (htraced : Traced body target.block active) (hflow : Carried body current flow) :
    ∃ next, visitSuccessor active flow target = .ok next ∧ Carried body current next := by
  suffices h : ∃ next, visitSuccessor active flow target = .ok next by
    obtain ⟨next, hnext⟩ := h
    exact ⟨next, hnext, (visitSuccessor_carried htraced hnext hflow).1⟩
  rw [visitSuccessor]
  cases hget : flow.incoming.get? target.block with
  | none => exact ⟨_, rfl⟩
  | some expected =>
    obtain ⟨visited, hpath, rfl⟩ := htraced
    obtain ⟨visited', hpath', rfl⟩ := hflow.traced _ _ hget
    exact ⟨flow, if_pos (hdiscipline.merged visited' visited _ hpath' hpath)⟩

theorem visitBlock_total (hdiscipline : RegionDiscipline body) {id : MirBlockId} {flow : RegionFlow}
    {rest : List MirBlockId} (hinv : FlowInvariant body flow) (hpending : flow.pending = id :: rest) :
    ∃ next, visitBlock body ⟨flow.incoming, rest⟩ id = .ok next := by
  obtain ⟨incoming, hincoming⟩ : ∃ incoming, flow.incoming.get? id = some incoming :=
    Option.isSome_iff_exists.mp (FiniteMap.mem_keys _ |>.mp (hinv.recorded id (by
      rw [hpending]
      exact List.mem_cons_self)))
  have htraced := hinv.traced id incoming hincoming
  obtain ⟨visited, hpath, hactive⟩ := htraced
  obtain ⟨block, hblock, hknown⟩ := hdiscipline.known visited id hpath
  have hadmissible : Admissible incoming (regionEvents body block) := by
    rw [admissible_iff]
    intro earlier event later hevents
    have hoccurs : Occurs body (regionTrace body visited ++ earlier) event :=
      ⟨visited, id, block, earlier, later, hpath, hblock, hevents, rfl⟩
    have hadmits := hdiscipline.admits hoccurs
    rwa [activeAfter_append, hactive] at hadmits
  have hleave : ¬(leavesBody block.terminator = true ∧
      (regionEvents body block).foldl advance incoming ≠ []) := by
    rintro ⟨hleaves, hopen⟩
    have hclosed := hdiscipline.closed visited id block hpath hblock hleaves
    rw [activeAfter_append, hactive] at hclosed
    exact hopen hclosed
  have hvisits : ∃ next, block.terminator.successors.foldlM
      (visitSuccessor ((regionEvents body block).foldl advance incoming)) ⟨flow.incoming, rest⟩ =
        .ok next ∧ Carried body id next :=
    foldlM_total (fun target htarget flow hflow => visitSuccessor_total hdiscipline
      ((hinv.traced id incoming hincoming).step hblock htarget) hflow) (hinv.carried hpending)
  obtain ⟨next, hnext, _⟩ := hvisits
  refine ⟨next, except_bind_ok.mpr ⟨block, orError_ok.mpr hblock, except_bind_ok.mpr ⟨incoming,
    orError_ok.mpr hincoming, except_bind_ok.mpr ⟨_, transferOperations_ok.mpr ⟨hknown,
      hadmissible, rfl⟩, ?_⟩⟩⟩⟩
  exact (if_neg hleave).trans hnext

/-- The validation ends on every body, and accepts the bodies all of whose paths respect the
discipline. -/
theorem validate_region_flow_exact (body : MirBody) : ∃ result,
    (∀ passes, body.blocks.length < passes → validateRegionFlow body passes = some result) ∧
      (result = .ok () ↔ RegionDiscipline body) := by
  have hstart : body.blocks.length - (finished (initialFlow body)).card < body.blocks.length + 1 :=
    Nat.lt_succ_of_le (Nat.sub_le _ _)
  have hrun : ∃ result, validateRegionFlow body (body.blocks.length + 1) = some result ∧
      (result = .ok () ↔ RegionDiscipline body) := Loop.within_spec (P := FlowInvariant body)
    (fun flow => body.blocks.length - (finished flow).card)
    (fun flow next hinv hstep => by
      rw [regionStep] at hstep
      split at hstep
      · cases hstep
      · rename_i id rest hpending
        split at hstep
        · rename_i visited hvisit
          cases hstep
          obtain ⟨hnext, hextends, hid⟩ := visitBlock_invariant hinv hpending hvisit
          have hless := finished_lt hinv hpending hextends hid
          have hbound := finished_card_le hnext
          exact ⟨hnext, by omega⟩
        · cases hstep)
    (fun flow result hinv hstep => by
      rw [regionStep] at hstep
      split at hstep
      · rename_i hpending
        cases hstep
        exact ⟨fun _ => hinv.discipline hpending, fun _ => rfl⟩
      · rename_i id rest hpending
        split at hstep
        · cases hstep
        · rename_i error herror
          cases hstep
          refine ⟨fun h => (by cases h), fun hdiscipline => ?_⟩
          obtain ⟨next, hnext⟩ := visitBlock_total hdiscipline hinv hpending
          cases herror.symm.trans hnext)
    FlowInvariant.initial hstart
  obtain ⟨result, hresult, hexact⟩ := hrun
  exact ⟨result, fun passes hpasses => Loop.within_mono hresult hpasses, hexact⟩

/-- A body that selects a part of its only region while the region is active. -/
def projectedSelection : MirBody where
  parameters := []
  pack := none
  locals := [⟨0, .region⟩]
  dropFlags := []
  places := [⟨.local 0, [.field], 0⟩]
  values := [⟨0, .operation 0⟩, ⟨0, .operation 2⟩]
  operations := [⟨.constant, some 0⟩, ⟨.createRegion 0 0, none⟩,
    ⟨.call ⟨.direct, [], none, .explicit 0⟩, some 1⟩, ⟨.releaseRegion 0, none⟩]
  blocks := [⟨[], [0, 1, 2, 3], .return none⟩]
  entry := 0

/-- The stack discipline alone is not enough: a part of an active region is refused. -/
theorem projected_selection_refused : StackDiscipline projectedSelection ∧
    ∀ passes, 1 < passes →
      validateRegionFlow projectedSelection passes = some (.error (.invalidRegionFlow 0 (some 0))) := by
  have hpaths : ∀ visited id, Path projectedSelection visited id → visited = [] ∧ id = 0 := by
    intro visited id hpath
    induction hpath with
    | entry => exact ⟨rfl, rfl⟩
    | @step visited id block target _ hblock htarget ih =>
      obtain ⟨rfl, rfl⟩ := ih
      cases hblock
      cases htarget
  have hoccurs : ∀ before event, Occurs projectedSelection before event →
      before = [] ∧ event = .create 0 ∨ before = [.create 0] ∧ event = .explicit 0 false ∨
        before = [.create 0, .explicit 0 false] ∧ event = .release 0 := by
    rintro _ event ⟨visited, id, block, earlier, later, hpath, hblock, hevents, rfl⟩
    obtain ⟨rfl, rfl⟩ := hpaths visited id hpath
    cases hblock
    have hsplit : [.create 0, .explicit 0 false, .release 0] = earlier ++ event :: later := hevents
    rcases earlier with _ | ⟨first, _ | ⟨second, _ | ⟨third, rest⟩⟩⟩
    · exact Or.inl ⟨rfl, (List.cons.inj hsplit).1.symm⟩
    · simp only [List.cons_append, List.nil_append, List.cons.injEq] at hsplit
      exact Or.inr (Or.inl ⟨by rw [← hsplit.1]; rfl, hsplit.2.1.symm⟩)
    · simp only [List.cons_append, List.nil_append, List.cons.injEq] at hsplit
      exact Or.inr (Or.inr ⟨by rw [← hsplit.1, ← hsplit.2.1]; rfl, hsplit.2.2.1.symm⟩)
    · simp at hsplit
  refine ⟨⟨?_, ?_, ?_, ?_, ?_⟩, ?_⟩
  · intro before region h
    rcases hoccurs before _ h with ⟨_, he⟩ | ⟨_, he⟩ | ⟨rfl, he⟩
    · cases he
    · cases he
    · rw [RegionEvent.release.inj he]
      rfl
  · intro before region h
    rcases hoccurs before _ h with ⟨_, h⟩ | ⟨_, h⟩ | ⟨_, h⟩ <;> cases h
  · intro before region whole h
    rcases hoccurs before _ h with ⟨_, he⟩ | ⟨rfl, he⟩ | ⟨_, he⟩
    · cases he
    · rw [(RegionEvent.explicit.inj he).1]
      exact List.mem_cons_self
    · cases he
  · intro visited visited' id hpath hpath'
    rw [(hpaths visited id hpath).1, (hpaths visited' id hpath').1]
  · intro visited id block hpath hblock _
    obtain ⟨rfl, rfl⟩ := hpaths visited id hpath
    cases hblock
    rfl
  · intro passes hpasses
    have hone : validateRegionFlow projectedSelection 1 =
        some (.error (.invalidRegionFlow 0 (some 0))) := rfl
    exact Loop.within_mono hone (by omega)

end Exactness

end Nocter.Mir
