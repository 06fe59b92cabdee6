import Nocter.Library.KeyedTable
import Nocter.BlockingRuntime.Identity

/-!
# The resource retirement service

A permit reserves the whole life of one resource: its live owner, its place in the
cleanup queue, its cleanup worker and its observed completion. Every arm the source
marks as impossible, and every assertion it makes, is a fault of the model.
-/

namespace Nocter.BlockingRuntime

/-- The panics of the source: its `unreachable!` arms, its `expect`s and its debug
assertions. -/
inductive Fault where
  | unreachable
  | epochExhausted
  | missingResource
  | missingService
  | debugAssertion
deriving DecidableEq, Repr

inductive RetirementError where
  | zeroWorkers
  | resourceCapacityBelowWorkers (workers maximumResources : ℕ)
  | foreignCapacityEpoch (observed : RetirementEpoch)
  | identityExhausted
  | unknownRetirement (retirement : RetirementId)
  | invalidRetirementState (retirement : RetirementId)
deriving DecidableEq, Repr

/-- Cleanup-worker and live-resource limits; the constructor's two checks are fields. -/
structure RetirementCapacity where
  workers : ℕ
  maximumResources : ℕ
  workers_pos : 0 < workers
  workers_le : workers ≤ maximumResources

def RetirementCapacity.new (workers maximumResources : ℕ) :
    Except RetirementError RetirementCapacity :=
  if hw : workers = 0 then .error .zeroWorkers
  else if hm : maximumResources < workers then
    .error (.resourceCapacityBelowWorkers workers maximumResources)
  else .ok ⟨workers, maximumResources, Nat.pos_of_ne_zero hw, Nat.le_of_not_lt hm⟩

inductive RetirementReserveError where
  | closed
  | saturated (observedEpoch : RetirementEpoch)
  | identityExhausted
deriving DecidableEq, Repr

inductive ActiveRetirement where
  | running
  | detachedRunning
  | completed
deriving DecidableEq, Repr

def ActiveRetirement.isRunning : ActiveRetirement → Bool
  | .running => true
  | .detachedRunning => true
  | .completed => false

def ActiveRetirement.isCompleted : ActiveRetirement → Bool
  | .completed => true
  | _ => false

inductive RetirementStatus where
  | queued
  | running
  | completed
deriving DecidableEq, Repr

structure RetirementSnapshot where
  accepting : Bool
  reserved : ℕ
  queued : ℕ
  running : ℕ
  completed : ℕ
  capacityEpoch : RetirementEpoch
deriving DecidableEq, Repr

def RetirementSnapshot.drained (s : RetirementSnapshot) : Bool := s.reserved == 0

structure QueuedRetirement (α : Type) where
  identity : Option RetirementId
  resource : α
deriving DecidableEq, Repr

/-- A permit holds its service until it is attached or dropped. -/
structure ResourcePermit where
  service : Bool
deriving DecidableEq, Repr

structure ResourceOwner (α : Type) where
  resource : Option α
  service : Bool
deriving DecidableEq, Repr

/-- A cleanup worker's guard; the resource is taken out when it is destroyed. -/
structure RetiringResource (α : Type) where
  identity : Option RetirementId
  resource : Option α
deriving DecidableEq, Repr

structure RetirementService (α : Type) where
  identity : ServiceIdentity
  capacity : RetirementCapacity
  accepting : Bool
  reserved : ℕ
  unobservedRunning : ℕ
  nextRetirement : ℕ
  capacityEpoch : RetirementEpoch
  queue : List (QueuedRetirement α)
  active : KeyedTable RetirementId ActiveRetirement
  notifications : ℕ

namespace RetirementService

open KeyedTable

variable {α : Type}

def new (identity : ServiceIdentity) (capacity : RetirementCapacity) : RetirementService α where
  identity := identity
  capacity := capacity
  accepting := true
  reserved := 0
  unobservedRunning := 0
  nextRetirement := 0
  capacityEpoch := RetirementEpoch.initial identity
  queue := []
  active := ∅
  notifications := 0

def notify (s : RetirementService α) : RetirementService α :=
  { s with notifications := s.notifications + 1 }

def runningCount (s : RetirementService α) : ℕ :=
  s.unobservedRunning + s.active.countValues ActiveRetirement.isRunning

def snapshot (s : RetirementService α) : RetirementSnapshot where
  accepting := s.accepting
  reserved := s.reserved
  queued := s.queue.length
  running := s.runningCount
  completed := s.active.countValues ActiveRetirement.isCompleted
  capacityEpoch := s.capacityEpoch

def releaseReservation (s : RetirementService α) : Except Fault (RetirementService α) :=
  if s.reserved = 0 then .error .debugAssertion
  else
    match s.capacityEpoch.advance with
    | none => .error .epochExhausted
    | some capacityEpoch => .ok { s with reserved := s.reserved - 1, capacityEpoch }

/-- The release followed by a notification, as every caller but one ends. -/
def releaseAndNotify (s : RetirementService α) : Except Fault (RetirementService α) :=
  s.releaseReservation.map notify

def reserve (s : RetirementService α) :
    Except RetirementReserveError ResourcePermit × RetirementService α :=
  if s.accepting then
    if s.reserved = s.capacity.maximumResources then (.error (.saturated s.capacityEpoch), s)
    else if s.capacityEpoch.canCoverReleases (s.reserved + 1) then
      (.ok ⟨true⟩, { s with reserved := s.reserved + 1 })
    else (.error .identityExhausted, s)
  else (.error .closed, s)

def capacityChangedSince (s : RetirementService α) (observed : RetirementEpoch) :
    Except RetirementError Bool :=
  if observed.belongsTo s.identity then .ok (s.capacityEpoch != observed)
  else .error (.foreignCapacityEpoch observed)

def status (s : RetirementService α) (retirement : RetirementId) : Option RetirementStatus :=
  if s.queue.any fun queued => queued.identity = some retirement then some .queued
  else
    match s.active.lookup retirement with
    | some .running => some .running
    | some .completed => some .completed
    | some .detachedRunning => none
    | none => none

def consume (s : RetirementService α) (retirement : RetirementId) :
    Except Fault (Except RetirementError Unit × RetirementService α) :=
  match s.active.lookup retirement with
  | some .completed =>
      ({ s with active := s.active.erase retirement } :
        RetirementService α).releaseAndNotify.map (Prod.mk (.ok ()))
  | some _ => .ok (.error (.invalidRetirementState retirement), s)
  | none =>
      if s.queue.any fun queued => queued.identity = some retirement then
        .ok (.error (.invalidRetirementState retirement), s)
      else .ok (.error (.unknownRetirement retirement), s)

/-- Forgets the identity of the first queued entry that carries it. -/
def detachQueued (retirement : RetirementId) :
    List (QueuedRetirement α) → Option (List (QueuedRetirement α))
  | [] => none
  | queued :: rest =>
      if queued.identity = some retirement then some ({ queued with identity := none } :: rest)
      else (detachQueued retirement rest).map (queued :: ·)

def detach (s : RetirementService α) (retirement : RetirementId) :
    Except Fault (Except RetirementError Unit × RetirementService α) :=
  match detachQueued retirement s.queue with
  | some queue => .ok (.ok (), { s with queue })
  | none =>
      match s.active.lookup retirement with
      | some .running =>
          .ok (.ok (), { s with active := s.active.insert retirement .detachedRunning })
      | some .completed =>
          ({ s with active := s.active.erase retirement } :
            RetirementService α).releaseAndNotify.map (Prod.mk (.ok ()))
      | some .detachedRunning => .ok (.error (.unknownRetirement retirement), s)
      | none => .ok (.error (.unknownRetirement retirement), s)

/-- Detaches the listed active retirements and reports whether any was attached. -/
def detachActive (s : RetirementService α) :
    List RetirementId → Except Fault (Bool × RetirementService α)
  | [] => .ok (false, s)
  | retirement :: rest =>
      match s.active.lookup retirement with
      | some .running =>
          (({ s with active := s.active.insert retirement .detachedRunning } :
            RetirementService α).detachActive rest).map fun r => (true, r.2)
      | some .completed =>
          match ({ s with active := s.active.erase retirement } :
              RetirementService α).releaseReservation with
          | .error fault => .error fault
          | .ok s => (s.detachActive rest).map fun r => (true, r.2)
      | _ => s.detachActive rest

def detachAll (s : RetirementService α) : Except Fault (RetirementService α) :=
  let changed := s.queue.any fun queued => queued.identity.isSome
  let queue := s.queue.map fun queued => { queued with identity := none }
  match ({ s with queue } : RetirementService α).detachActive
      (s.active.keys.mergeSort RetirementId.le) with
  | .error fault => .error fault
  | .ok (detached, s) => .ok (if changed || detached then s.notify else s)

def claim (s : RetirementService α) :
    Except Fault (Option (RetiringResource α) × RetirementService α) :=
  if s.runningCount = s.capacity.workers then .ok (none, s)
  else
    match s.queue with
    | [] => .ok (none, s)
    | queued :: queue =>
        match queued.identity with
        | some retirement =>
            if (s.active.lookup retirement).isSome then .error .debugAssertion
            else
              .ok (some ⟨some retirement, some queued.resource⟩,
                { s with queue, active := s.active.insert retirement .running })
        | none =>
            .ok (some ⟨none, some queued.resource⟩,
              { s with queue, unobservedRunning := s.unobservedRunning + 1 })

def closeAdmission (s : RetirementService α) : RetirementService α :=
  if s.accepting then { s with accepting := false }.notify else s

end RetirementService

namespace ResourcePermit

variable {α : Type}

/-- Moves the service reference into the owner; the permit is left without one. -/
def attach (permit : ResourcePermit) (resource : α) : ResourceOwner α × ResourcePermit :=
  (⟨some resource, permit.service⟩, ⟨false⟩)

def drop (permit : ResourcePermit) (s : RetirementService α) :
    Except Fault (RetirementService α) :=
  if permit.service then s.releaseAndNotify else .ok s

end ResourcePermit

namespace ResourceOwner

variable {α : Type}

/-- The reserved queue slot that a live owner is entitled to. -/
def enqueue (s : RetirementService α) (identity : Option RetirementId) (resource : α) :
    Except Fault (RetirementService α) :=
  if s.queue.length + s.runningCount < s.reserved then
    .ok ({ s with queue := s.queue ++ [⟨identity, resource⟩] } : RetirementService α).notify
  else .error .debugAssertion

def retire (owner : ResourceOwner α) (s : RetirementService α) :
    Except Fault (Except RetirementError RetirementId × RetirementService α) :=
  match owner.resource with
  | none => .error .missingResource
  | some resource =>
      if owner.service then
        match checkedAdd u64Max s.nextRetirement 1 with
        | some next =>
            let identity : RetirementId := ⟨s.identity, s.nextRetirement⟩
            (enqueue { s with nextRetirement := next } (some identity) resource).map
              (Prod.mk (.ok identity))
        | none => (enqueue s none resource).map (Prod.mk (.error .identityExhausted))
      else .error .missingService

def drop (owner : ResourceOwner α) (s : RetirementService α) :
    Except Fault (RetirementService α) :=
  match owner.resource with
  | none => .ok s
  | some resource => if owner.service then enqueue s none resource else .error .unreachable

end ResourceOwner

namespace RetiringResource

variable {α : Type}

/-- The state update of the guard's drop, after the resource was destroyed. -/
def release (guard : RetiringResource α) (s : RetirementService α) :
    Except Fault (RetirementService α) :=
  match guard.identity with
  | some retirement =>
      match s.active.lookup retirement with
      | some .running =>
          .ok ({ s with active := s.active.insert retirement .completed } :
            RetirementService α).notify
      | some .detachedRunning =>
          ({ s with active := s.active.erase retirement } : RetirementService α).releaseAndNotify
      | _ => .error .unreachable
  | none =>
      if s.unobservedRunning = 0 then .error .debugAssertion
      else
        ({ s with unobservedRunning := s.unobservedRunning - 1 } :
          RetirementService α).releaseAndNotify

end RetiringResource

end Nocter.BlockingRuntime
