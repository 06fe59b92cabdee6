import Nocter.BlockingRuntime.Retirement

/-!
# The ledger of a retirement service

One unit of the reservation follows each resource from its permit to its release.
The ledger keeps bags of the places a unit can be in; every step moves one unit or
returns it to the free capacity.
-/

namespace Nocter.BlockingRuntime

variable {α : Type}

@[simp] theorem ActiveRetirement.isRunning_running :
    ActiveRetirement.running.isRunning = true := rfl

@[simp] theorem ActiveRetirement.isRunning_detachedRunning :
    ActiveRetirement.detachedRunning.isRunning = true := rfl

@[simp] theorem ActiveRetirement.isRunning_completed :
    ActiveRetirement.completed.isRunning = false := rfl

structure RetirementLedger (α : Type) where
  permits : ℕ
  owners : Multiset α
  queued : Multiset (QueuedRetirement α)
  active : Multiset (RetirementId × ActiveRetirement)
  unobserved : ℕ
  guards : Multiset (RetiringResource α)
  attached : Multiset α
  destroyed : Multiset α
  reserved : ℕ
  released : ℕ
  issued : ℕ

namespace RetirementLedger

def identities (l : RetirementLedger α) : Multiset RetirementId :=
  l.queued.filterMap QueuedRetirement.identity + l.active.map Prod.fst

def runningIdentities (l : RetirementLedger α) : Multiset RetirementId :=
  (l.active.filter fun e => e.2.isRunning).map Prod.fst

def runningCount (l : RetirementLedger α) : ℕ :=
  l.unobserved + l.active.countP fun e => e.2.isRunning

/-- Returns one unit of the reservation to the free capacity. -/
def release (l : RetirementLedger α) : RetirementLedger α :=
  { l with reserved := l.reserved - 1, released := l.released + 1 }

/-- One step of one resource's life. An `abort` is a guard whose resource panicked
while it was destroyed inside the guard's own drop. -/
inductive Step (identity : ServiceIdentity) (capacity : RetirementCapacity) :
    RetirementLedger α → RetirementLedger α → Prop where
  | reserve (l) (hroom : l.reserved < capacity.maximumResources)
      (hepoch : l.released + (l.reserved + 1) ≤ u64Max) :
      Step identity capacity l { l with permits := l.permits + 1, reserved := l.reserved + 1 }
  | dropPermit (l) {permits : ℕ} (hp : l.permits = permits + 1) :
      Step identity capacity l { l with permits }.release
  | attach (l) {permits : ℕ} (resource : α) (hp : l.permits = permits + 1) :
      Step identity capacity l { l with
        permits
        owners := resource ::ₘ l.owners
        attached := resource ::ₘ l.attached }
  | retire (l) {resource : α} {owners} (ho : l.owners = resource ::ₘ owners) :
      Step identity capacity l { l with
        owners
        queued := ⟨some ⟨identity, l.issued⟩, resource⟩ ::ₘ l.queued
        issued := l.issued + 1 }
  | abandon (l) {resource : α} {owners} (ho : l.owners = resource ::ₘ owners) :
      Step identity capacity l { l with owners, queued := ⟨none, resource⟩ ::ₘ l.queued }
  | detachQueued (l) {retirement : RetirementId} {resource : α} {queued}
      (hq : l.queued = ⟨some retirement, resource⟩ ::ₘ queued) :
      Step identity capacity l { l with queued := ⟨none, resource⟩ ::ₘ queued }
  | detachRunning (l) {retirement : RetirementId} {active}
      (ha : l.active = (retirement, .running) ::ₘ active) :
      Step identity capacity l { l with active := (retirement, .detachedRunning) ::ₘ active }
  | settle (l) {retirement : RetirementId} {active}
      (ha : l.active = (retirement, .completed) ::ₘ active) :
      Step identity capacity l { l with active }.release
  | claim (l) {retirement : RetirementId} {resource : α} {queued}
      (hq : l.queued = ⟨some retirement, resource⟩ ::ₘ queued)
      (hworker : l.runningCount < capacity.workers) :
      Step identity capacity l { l with
        queued
        active := (retirement, .running) ::ₘ l.active
        guards := ⟨some retirement, some resource⟩ ::ₘ l.guards }
  | claimUnobserved (l) {resource : α} {queued} (hq : l.queued = ⟨none, resource⟩ ::ₘ queued)
      (hworker : l.runningCount < capacity.workers) :
      Step identity capacity l { l with
        queued
        unobserved := l.unobserved + 1
        guards := ⟨none, some resource⟩ ::ₘ l.guards }
  | destroy (l) {retirement : Option RetirementId} {resource : α} {guards}
      (hg : l.guards = ⟨retirement, some resource⟩ ::ₘ guards) :
      Step identity capacity l { l with
        guards := ⟨retirement, none⟩ ::ₘ guards
        destroyed := resource ::ₘ l.destroyed }
  | finish (l) {retirement : RetirementId} {active guards}
      (hg : l.guards = ⟨some retirement, none⟩ ::ₘ guards)
      (ha : l.active = (retirement, .running) ::ₘ active) :
      Step identity capacity l { l with active := (retirement, .completed) ::ₘ active, guards }
  | finishDetached (l) {retirement : RetirementId} {active guards}
      (hg : l.guards = ⟨some retirement, none⟩ ::ₘ guards)
      (ha : l.active = (retirement, .detachedRunning) ::ₘ active) :
      Step identity capacity l { l with active, guards }.release
  | finishUnobserved (l) {unobserved : ℕ} {guards} (hg : l.guards = ⟨none, none⟩ ::ₘ guards)
      (hu : l.unobserved = unobserved + 1) :
      Step identity capacity l { l with unobserved, guards }.release
  | abort (l) {retirement : Option RetirementId} {guards}
      (hg : l.guards = ⟨retirement, none⟩ ::ₘ guards) :
      Step identity capacity l { l with guards }

/-- The identities in use are distinct and were issued by this service. -/
structure Own (identity : ServiceIdentity) (issued : ℕ) (identities : Multiset RetirementId) :
    Prop where
  nodup : identities.Nodup
  own : ∀ retirement ∈ identities, retirement.service = identity ∧ retirement.sequence < issued

/-- The reservation is the sum over all places of a unit, within the limits; guards
stand for running entries; every attached resource is in one place or destroyed. -/
structure Balanced (identity : ServiceIdentity) (capacity : RetirementCapacity)
    (l : RetirementLedger α) : Prop where
  reserved : l.reserved = l.permits + l.owners.card + l.queued.card + l.unobserved + l.active.card
  limit : l.reserved ≤ capacity.maximumResources
  epoch : l.released + l.reserved ≤ u64Max
  running : l.runningCount ≤ capacity.workers
  own : Own identity l.issued l.identities
  observed : l.guards.filterMap RetiringResource.identity ≤ l.runningIdentities
  unobserved : l.guards.countP (fun g => g.identity = none) ≤ l.unobserved
  resources : l.attached = l.owners + l.queued.map QueuedRetirement.resource +
    l.guards.filterMap RetiringResource.resource + l.destroyed

variable {identity : ServiceIdentity} {capacity : RetirementCapacity}
  {l l' : RetirementLedger α}

theorem Own.fresh {issued : ℕ} {identities : Multiset RetirementId}
    (h : Own identity issued identities) :
    Own identity (issued + 1) (⟨identity, issued⟩ ::ₘ identities) := by
  have hfresh : (⟨identity, issued⟩ : RetirementId) ∉ identities := fun hmem =>
    absurd (h.own _ hmem).2 (lt_irrefl _)
  refine ⟨Multiset.nodup_cons.mpr ⟨hfresh, h.nodup⟩, fun retirement hmem => ?_⟩
  rcases Multiset.mem_cons.mp hmem with rfl | hmem
  · exact ⟨rfl, Nat.lt_succ_self _⟩
  · exact ⟨(h.own retirement hmem).1, Nat.lt_succ_of_lt (h.own retirement hmem).2⟩

theorem Own.forget {issued : ℕ} {retirement : RetirementId} {identities : Multiset RetirementId}
    (h : Own identity issued (retirement ::ₘ identities)) : Own identity issued identities :=
  ⟨(Multiset.nodup_cons.mp h.nodup).2,
    fun retirement hmem => h.own retirement (Multiset.mem_cons_of_mem hmem)⟩

theorem runningIdentities_cons (retirement : RetirementId) (state : ActiveRetirement)
    (active : Multiset (RetirementId × ActiveRetirement)) :
    (((retirement, state) ::ₘ active).filter fun e => e.2.isRunning).map Prod.fst =
      (if state.isRunning then {retirement} else 0) +
        (active.filter fun e => e.2.isRunning).map Prod.fst := by
  cases h : state.isRunning <;> simp [h]

theorem countP_running_cons (retirement : RetirementId) (state : ActiveRetirement)
    (active : Multiset (RetirementId × ActiveRetirement)) :
    (((retirement, state) ::ₘ active).countP fun e => e.2.isRunning) =
      (active.countP fun e => e.2.isRunning) + if state.isRunning then 1 else 0 := by
  rw [Multiset.countP_cons]

/-- Every step keeps the ledger balanced. -/
theorem Step.balanced (hs : Step identity capacity l l') (h : Balanced identity capacity l) :
    Balanced identity capacity l' := by
  obtain ⟨hres, hlimit, hepoch, hrun, hown, hobs, hunobs, hall⟩ := h
  simp only [identities, runningCount, runningIdentities] at hown hrun hobs
  cases hs with
  | reserve hroom hroomEpoch =>
    exact ⟨by simp only; omega, by simp only; omega, hroomEpoch, hrun, hown, hobs, hunobs, hall⟩
  | dropPermit hp =>
    exact ⟨by simp only [release]; omega, by simp only [release]; omega,
      by simp only [release]; omega, hrun, hown, hobs, hunobs, hall⟩
  | attach resource hp =>
    refine ⟨?_, hlimit, hepoch, hrun, hown, hobs, hunobs, ?_⟩
    · simp only [Multiset.card_cons]
      omega
    · simp [hall]
  | @retire resource owners ho =>
    rw [ho, Multiset.card_cons] at hres
    refine ⟨?_, hlimit, hepoch, hrun, ?_, hobs, hunobs, ?_⟩
    · simp only [Multiset.card_cons]
      omega
    · simpa [identities] using hown.fresh
    · rw [hall, ho]
      simp
  | @abandon resource owners ho =>
    rw [ho, Multiset.card_cons] at hres
    refine ⟨?_, hlimit, hepoch, hrun, ?_, hobs, hunobs, ?_⟩
    · simp only [Multiset.card_cons]
      omega
    · simpa [identities] using hown
    · rw [hall, ho]
      simp
  | @detachQueued retirement resource queued hq =>
    rw [hq] at hres hown hall
    refine ⟨by simpa using hres, hlimit, hepoch, hrun, ?_, hobs, hunobs, ?_⟩
    · have hcons : Own identity l.issued (retirement ::ₘ
          (queued.filterMap QueuedRetirement.identity + l.active.map Prod.fst)) := by
        simpa using hown
      simpa [identities] using hcons.forget
    · simpa using hall
  | @detachRunning retirement active ha =>
    rw [ha] at hres hown hrun hobs
    refine ⟨by simpa using hres, hlimit, hepoch, ?_, ?_, ?_, hunobs, hall⟩
    · simpa [runningCount, countP_running_cons] using hrun
    · simpa [identities] using hown
    · simpa [runningIdentities, runningIdentities_cons] using hobs
  | @settle retirement active ha =>
    rw [ha] at hres hown hrun hobs
    simp only [Multiset.card_cons] at hres
    refine ⟨?_, ?_, ?_, ?_, ?_, ?_, hunobs, hall⟩
    · simp only [release]
      omega
    · simp only [release]
      omega
    · simp only [release]
      omega
    · simpa [release, runningCount, countP_running_cons] using hrun
    · have hcons : Own identity l.issued (retirement ::ₘ
          (l.queued.filterMap QueuedRetirement.identity + active.map Prod.fst)) := by
        simpa using hown
      simpa [release, identities] using hcons.forget
    · simpa [release, runningIdentities, runningIdentities_cons] using hobs
  | @claim retirement resource queued hq hworker =>
    rw [hq] at hres hown hall
    simp only [runningCount] at hworker
    refine ⟨?_, hlimit, hepoch, ?_, ?_, ?_, ?_, ?_⟩
    · simp only [Multiset.card_cons] at hres ⊢
      omega
    · simp only [runningCount, countP_running_cons, ActiveRetirement.isRunning_running, if_true]
      omega
    · simpa [identities] using hown
    · simpa [runningIdentities, runningIdentities_cons] using hobs
    · simpa using hunobs
    · rw [hall]
      simp
  | @claimUnobserved resource queued hq hworker =>
    rw [hq] at hres hown hall
    simp only [runningCount] at hworker
    refine ⟨?_, hlimit, hepoch, ?_, ?_, ?_, ?_, ?_⟩
    · simp only [Multiset.card_cons] at hres ⊢
      omega
    · simp only [runningCount]
      omega
    · simpa [identities] using hown
    · simpa [runningIdentities] using hobs
    · simpa using hunobs
    · rw [hall]
      simp
  | @destroy retirement resource guards hg =>
    rw [hg] at hobs hunobs hall
    refine ⟨hres, hlimit, hepoch, hrun, hown, ?_, ?_, ?_⟩
    · cases retirement <;> simpa [runningIdentities] using hobs
    · simpa [Multiset.countP_cons] using hunobs
    · rw [hall]
      simp
  | @finish retirement active guards hg ha =>
    rw [ha] at hres hown hrun hobs
    rw [hg] at hobs hunobs hall
    refine ⟨by simpa using hres, hlimit, hepoch, ?_, ?_, ?_, ?_, ?_⟩
    · simp [runningCount, countP_running_cons] at hrun ⊢
      omega
    · simpa [identities] using hown
    · simpa [runningIdentities, runningIdentities_cons] using hobs
    · simpa using hunobs
    · simpa using hall
  | @finishDetached retirement active guards hg ha =>
    rw [ha] at hres hown hrun hobs
    rw [hg] at hobs hunobs hall
    simp only [Multiset.card_cons] at hres
    refine ⟨?_, ?_, ?_, ?_, ?_, ?_, ?_, ?_⟩
    · simp only [release]
      omega
    · simp only [release]
      omega
    · simp only [release]
      omega
    · simp [release, runningCount, countP_running_cons] at hrun ⊢
      omega
    · have hcons : Own identity l.issued (retirement ::ₘ
          (l.queued.filterMap QueuedRetirement.identity + active.map Prod.fst)) := by
        simpa using hown
      simpa [release, identities] using hcons.forget
    · simpa [release, runningIdentities, runningIdentities_cons] using hobs
    · simpa [release] using hunobs
    · simpa [release] using hall
  | @finishUnobserved unobserved guards hg hu =>
    rw [hg] at hobs hunobs hall
    refine ⟨?_, ?_, ?_, ?_, hown, ?_, ?_, ?_⟩
    · simp only [release]
      omega
    · simp only [release]
      omega
    · simp only [release]
      omega
    · simp only [release, runningCount]
      omega
    · simpa [release, runningIdentities] using hobs
    · simp [release] at hunobs ⊢
      omega
    · simpa [release] using hall
  | @abort retirement guards hg =>
    rw [hg] at hobs hunobs hall
    refine ⟨hres, hlimit, hepoch, hrun, hown, ?_, ?_, ?_⟩
    · cases retirement with
      | none => simpa [runningIdentities] using hobs
      | some retirement =>
          refine le_trans ?_ hobs
          simp [Multiset.le_cons_self]
    · refine le_trans ?_ hunobs
      exact Multiset.countP_le_of_le _ (Multiset.le_cons_self _ _)
    · simpa using hall

/-- Any number of ledger steps. -/
def Steps (identity : ServiceIdentity) (capacity : RetirementCapacity) :
    RetirementLedger α → RetirementLedger α → Prop :=
  Relation.ReflTransGen (Step identity capacity)

theorem Steps.balanced (hs : Steps identity capacity l l') (h : Balanced identity capacity l) :
    Balanced identity capacity l' := by
  induction hs with
  | refl => exact h
  | tail _ hstep ih => exact hstep.balanced ih

end RetirementLedger

end Nocter.BlockingRuntime

/-!
# Ownership of retired resources

A retirement service is observed together with the permits, owners and worker guards
that point at it, and with a record of every resource attached and destroyed. A guard
is dropped in two steps, because its resource is destroyed outside the lock.
-/

namespace Nocter.BlockingRuntime

open KeyedTable Relation

variable {α : Type}

structure RetirementWorld (α : Type) where
  service : RetirementService α
  permits : List ResourcePermit
  owners : List (ResourceOwner α)
  guards : List (RetiringResource α)
  attached : List α
  destroyed : List α

inductive RetirementOperation (α : Type) where
  | reserve
  | dropPermit (permit : ℕ)
  | attach (permit : ℕ) (resource : α)
  | retire (owner : ℕ)
  | dropOwner (owner : ℕ)
  | consume (retirement : RetirementId)
  | detach (retirement : RetirementId)
  | detachAll
  | claim
  | destroy (worker : ℕ)
  | release (worker : ℕ)
  | abort (worker : ℕ)
  | closeAdmission

namespace RetirementWorld

def new (identity : ServiceIdentity) (capacity : RetirementCapacity) : RetirementWorld α :=
  ⟨RetirementService.new identity capacity, [], [], [], [], []⟩

def reserve (w : RetirementWorld α) : RetirementWorld α :=
  match w.service.reserve with
  | (.ok permit, service) => { w with service, permits := w.permits ++ [permit] }
  | (.error _, service) => { w with service }

def dropPermit (w : RetirementWorld α) (index : ℕ) : Except Fault (RetirementWorld α) :=
  match w.permits[index]? with
  | none => .ok w
  | some permit =>
      (permit.drop w.service).map fun service =>
        { w with service, permits := w.permits.eraseIdx index }

/-- The attached permit is left empty and dropped at the end of the call. -/
def attach (w : RetirementWorld α) (index : ℕ) (resource : α) : Except Fault (RetirementWorld α) :=
  match w.permits[index]? with
  | none => .ok w
  | some permit =>
      let (owner, permit) := permit.attach resource
      (permit.drop w.service).map fun service =>
        { w with
          service
          permits := w.permits.eraseIdx index
          owners := owner :: w.owners
          attached := w.attached ++ [resource] }

def retire (w : RetirementWorld α) (index : ℕ) : Except Fault (RetirementWorld α) :=
  match w.owners[index]? with
  | none => .ok w
  | some owner =>
      (owner.retire w.service).map fun r =>
        { w with service := r.2, owners := w.owners.eraseIdx index }

def dropOwner (w : RetirementWorld α) (index : ℕ) : Except Fault (RetirementWorld α) :=
  match w.owners[index]? with
  | none => .ok w
  | some owner =>
      (owner.drop w.service).map fun service =>
        { w with service, owners := w.owners.eraseIdx index }

def claim (w : RetirementWorld α) : Except Fault (RetirementWorld α) :=
  w.service.claim.map fun r => { w with service := r.2, guards := r.1.toList ++ w.guards }

/-- The first half of finishing or dropping a guard: its resource is taken out and
destroyed. -/
def destroy (w : RetirementWorld α) (worker : ℕ) : RetirementWorld α :=
  match w.guards[worker]? with
  | some ⟨retirement, some resource⟩ =>
      { w with
        guards := ⟨retirement, none⟩ :: w.guards.eraseIdx worker
        destroyed := w.destroyed ++ [resource] }
  | _ => w

/-- The second half of a guard's drop: the state update under the lock. -/
def release (w : RetirementWorld α) (worker : ℕ) : Except Fault (RetirementWorld α) :=
  match w.guards[worker]? with
  | some ⟨retirement, none⟩ =>
      ((⟨retirement, none⟩ : RetiringResource α).release w.service).map fun service =>
        { w with service, guards := w.guards.eraseIdx worker }
  | _ => .ok w

/-- A guard whose second half is skipped by a panic of the resource's destructor. -/
def abort (w : RetirementWorld α) (worker : ℕ) : RetirementWorld α :=
  match w.guards[worker]? with
  | some ⟨_, none⟩ => { w with guards := w.guards.eraseIdx worker }
  | _ => w

def apply (w : RetirementWorld α) : RetirementOperation α → Except Fault (RetirementWorld α)
  | .reserve => .ok w.reserve
  | .dropPermit index => w.dropPermit index
  | .attach index resource => w.attach index resource
  | .retire index => w.retire index
  | .dropOwner index => w.dropOwner index
  | .consume retirement => (w.service.consume retirement).map fun r => { w with service := r.2 }
  | .detach retirement => (w.service.detach retirement).map fun r => { w with service := r.2 }
  | .detachAll => w.service.detachAll.map fun service => { w with service }
  | .claim => w.claim
  | .destroy worker => .ok (w.destroy worker)
  | .release worker => w.release worker
  | .abort worker => .ok (w.abort worker)
  | .closeAdmission => .ok { w with service := w.service.closeAdmission }

def ledger (w : RetirementWorld α) : RetirementLedger α where
  permits := w.permits.length
  owners := (w.owners.filterMap ResourceOwner.resource : List α)
  queued := w.service.queue
  active := w.service.active.entryBag
  unobserved := w.service.unobservedRunning
  guards := w.guards
  attached := w.attached
  destroyed := w.destroyed
  reserved := w.service.reserved
  released := w.service.capacityEpoch.sequence
  issued := w.service.nextRetirement

/-- Permits and owners outside an operation still hold their service and resource. -/
structure Handles (permits : List ResourcePermit) (owners : List (ResourceOwner α)) : Prop where
  permits : ∀ permit ∈ permits, permit.service = true
  owners : ∀ owner ∈ owners, ∃ resource, owner = ⟨some resource, true⟩

structure Valid (w : RetirementWorld α) : Prop where
  balanced : w.ledger.Balanced w.service.identity w.service.capacity
  handles : Handles w.permits w.owners

/-- What an operation guarantees about the worlds around it. -/
structure Refines (w w' : RetirementWorld α) : Prop where
  identity : w'.service.identity = w.service.identity
  capacity : w'.service.capacity = w.service.capacity
  steps : RetirementLedger.Steps w.service.identity w.service.capacity w.ledger w'.ledger
  handles : Handles w.permits w.owners → Handles w'.permits w'.owners

variable {w w' w'' : RetirementWorld α}

theorem Refines.refl (w : RetirementWorld α) : Refines w w := ⟨rfl, rfl, ReflTransGen.refl, id⟩

theorem Refines.valid (hr : Refines w w') (h : Valid w) : Valid w' := by
  refine ⟨?_, hr.handles h.handles⟩
  rw [hr.identity, hr.capacity]
  exact hr.steps.balanced h.balanced

theorem Refines.trans (hr : Refines w w') (hr' : Refines w' w'') : Refines w w'' := by
  refine ⟨hr'.identity.trans hr.identity, hr'.capacity.trans hr.capacity, ?_,
    hr'.handles ∘ hr.handles⟩
  have hs := hr'.steps
  rw [hr.identity, hr.capacity] at hs
  exact ReflTransGen.trans hr.steps hs

theorem notify_refines (w : RetirementWorld α) :
    Refines w { w with service := w.service.notify } := ⟨rfl, rfl, ReflTransGen.refl, id⟩

/-- A reserved unit can always be released: neither the counter nor the epoch fails. -/
theorem releaseReservation_eq {s : RetirementService α} (hr : 0 < s.reserved)
    (he : s.capacityEpoch.sequence + s.reserved ≤ u64Max) :
    s.releaseReservation = .ok { s with
      reserved := s.reserved - 1
      capacityEpoch := ⟨s.capacityEpoch.service, s.capacityEpoch.sequence + 1⟩ } := by
  have hadd : checkedAdd u64Max s.capacityEpoch.sequence 1 =
    some (s.capacityEpoch.sequence + 1) := checkedAdd_eq_some.mpr ⟨by omega, rfl⟩
  simp [RetirementService.releaseReservation, RetirementEpoch.advance, hadd, Nat.ne_of_gt hr]

theorem reserve_refines (h : Valid w) : Refines w w.reserve := by
  unfold reserve RetirementService.reserve
  by_cases ha : w.service.accepting
  · by_cases hfull : w.service.reserved = w.service.capacity.maximumResources
    · simpa [ha, hfull] using Refines.refl w
    · by_cases hcover : w.service.capacityEpoch.canCoverReleases (w.service.reserved + 1)
      · have hlimit : w.service.reserved ≤ w.service.capacity.maximumResources := h.balanced.limit
        have hepoch : w.service.capacityEpoch.sequence + (w.service.reserved + 1) ≤ u64Max := by
          simp only [RetirementEpoch.canCoverReleases, Bool.and_eq_true, Option.isSome_iff_exists,
            checkedAdd_eq_some] at hcover
          obtain ⟨_, _, hle, _⟩ := hcover
          exact hle
        simp only [ha, if_true, if_neg hfull, hcover]
        refine ⟨rfl, rfl, ReflTransGen.single ?_, fun hh => ⟨?_, hh.owners⟩⟩
        · have hs : RetirementLedger.Step w.service.identity w.service.capacity w.ledger _ :=
            .reserve w.ledger (lt_of_le_of_ne hlimit hfull) hepoch
          convert hs using 1
          simp [ledger]
        · intro permit hp
          rcases List.mem_append.mp hp with hp | hp
          · exact hh.permits permit hp
          · rw [List.mem_singleton.mp hp]
      · simpa [ha, hfull, hcover] using Refines.refl w
  · simpa [ha] using Refines.refl w

/-- The concrete release of one reserved unit is the ledger's release. -/
theorem released_eq (h : Valid w) (hr : 0 < w.service.reserved) {s : RetirementService α}
    (hs : s.reserved = w.service.reserved) (he : s.capacityEpoch = w.service.capacityEpoch) :
    s.releaseReservation = .ok { s with
      reserved := s.reserved - 1
      capacityEpoch := ⟨s.capacityEpoch.service, s.capacityEpoch.sequence + 1⟩ } := by
  have hepoch : w.service.capacityEpoch.sequence + w.service.reserved ≤ u64Max :=
    h.balanced.epoch
  exact releaseReservation_eq (hs ▸ hr) (by rw [hs, he]; exact hepoch)

theorem Handles.eraseIdx_permit {permits : List ResourcePermit} {owners : List (ResourceOwner α)}
    (h : Handles permits owners) (index : ℕ) : Handles (permits.eraseIdx index) owners :=
  ⟨fun permit hp => h.permits permit (List.mem_of_mem_eraseIdx hp), h.owners⟩

theorem Handles.eraseIdx_owner {permits : List ResourcePermit} {owners : List (ResourceOwner α)}
    (h : Handles permits owners) (index : ℕ) : Handles permits (owners.eraseIdx index) :=
  ⟨h.permits, fun owner ho => h.owners owner (List.mem_of_mem_eraseIdx ho)⟩

theorem length_of_getElem? {β : Type} {l : List β} {i : ℕ} {b : β} (h : l[i]? = some b) :
    l.length = (l.eraseIdx i).length + 1 := by
  have hi := (List.getElem?_eq_some_iff.mp h).1
  rw [List.length_eraseIdx_of_lt hi]
  omega

theorem dropPermit_refines (h : Valid w) (index : ℕ) :
    ∃ w', w.dropPermit index = .ok w' ∧ Refines w w' := by
  unfold dropPermit
  cases hp : w.permits[index]? with
  | none => exact ⟨w, rfl, Refines.refl w⟩
  | some permit =>
    have hservice := h.handles.permits permit (List.mem_of_getElem? hp)
    have hlen := length_of_getElem? hp
    have hres : w.service.reserved = _ := h.balanced.reserved
    have hpos : 0 < w.service.reserved := by
      rw [hres]
      simp only [ledger]
      omega
    simp only [ResourcePermit.drop, hservice, if_true, RetirementService.releaseAndNotify,
      released_eq h hpos rfl rfl, Except.map]
    refine ⟨_, rfl, rfl, rfl, ReflTransGen.single ?_, fun hh => hh.eraseIdx_permit index⟩
    exact .dropPermit w.ledger hlen

theorem attach_refines (h : Valid w) (index : ℕ) (resource : α) :
    ∃ w', w.attach index resource = .ok w' ∧ Refines w w' := by
  unfold attach
  cases hp : w.permits[index]? with
  | none => exact ⟨w, rfl, Refines.refl w⟩
  | some permit =>
    have hservice := h.handles.permits permit (List.mem_of_getElem? hp)
    simp only [ResourcePermit.attach, ResourcePermit.drop, hservice, Bool.false_eq_true,
      if_false, Except.map]
    refine ⟨_, rfl, rfl, rfl, ReflTransGen.single ?_, fun hh => ⟨?_, ?_⟩⟩
    · have hs : RetirementLedger.Step w.service.identity w.service.capacity w.ledger _ :=
        .attach w.ledger resource (length_of_getElem? hp)
      convert hs using 1
      simp [ledger, coe_append_singleton]
    · exact (hh.eraseIdx_permit index).permits
    · intro owner ho
      rcases List.mem_cons.mp ho with rfl | ho
      · exact ⟨resource, rfl⟩
      · exact hh.owners owner ho

/-- A live owner's resource leaves the bag of owners with it. -/
theorem owners_eq {owners : List (ResourceOwner α)} {index : ℕ} {resource : α} {service : Bool}
    (ho : owners[index]? = some ⟨some resource, service⟩) :
    (owners.filterMap ResourceOwner.resource : Multiset α) =
      resource ::ₘ ((owners.eraseIdx index).filterMap ResourceOwner.resource : List α) := by
  have he := congrArg (Multiset.filterMap ResourceOwner.resource) (coe_eq_cons_eraseIdx ho)
  simpa using he

/-- A live owner's queue slot was reserved with its permit. -/
theorem enqueue_eq (h : Valid w) {index : ℕ} {resource : α} {service : Bool}
    (ho : w.owners[index]? = some ⟨some resource, service⟩) (s : RetirementService α)
    (hq : s.queue = w.service.queue) (ha : s.active = w.service.active)
    (hu : s.unobservedRunning = w.service.unobservedRunning)
    (hr : s.reserved = w.service.reserved) (identity : Option RetirementId) :
    ResourceOwner.enqueue s identity resource =
      .ok ({ s with queue := s.queue ++ [⟨identity, resource⟩] } : RetirementService α).notify := by
  have hres : w.service.reserved = _ := h.balanced.reserved
  have howners := congrArg Multiset.card (owners_eq ho)
  have hrun : w.service.active.countValues ActiveRetirement.isRunning ≤
      w.service.active.entryBag.card := by
    rw [countValues_eq]
    exact Multiset.countP_le_card _ _
  have hlt : s.queue.length + s.runningCount < s.reserved := by
    rw [Multiset.card_cons] at howners
    simp only [ledger, howners, Multiset.coe_card] at hres
    simp only [RetirementService.runningCount, hq, ha, hu, hr]
    omega
  simp only [ResourceOwner.enqueue, if_pos hlt]

theorem dropOwner_refines (h : Valid w) (index : ℕ) :
    ∃ w', w.dropOwner index = .ok w' ∧ Refines w w' := by
  unfold dropOwner
  cases ho : w.owners[index]? with
  | none => exact ⟨w, rfl, Refines.refl w⟩
  | some owner =>
    obtain ⟨resource, rfl⟩ := h.handles.owners owner (List.mem_of_getElem? ho)
    simp only [ResourceOwner.drop, if_true, enqueue_eq h ho w.service rfl rfl rfl rfl, Except.map]
    refine ⟨_, rfl, rfl, rfl, ReflTransGen.single ?_, fun hh => hh.eraseIdx_owner index⟩
    have hs : RetirementLedger.Step w.service.identity w.service.capacity w.ledger _ :=
      .abandon w.ledger (owners_eq ho)
    convert hs using 1
    simp [ledger, RetirementService.notify, coe_append_singleton]

theorem retire_refines (h : Valid w) (index : ℕ) :
    ∃ w', w.retire index = .ok w' ∧ Refines w w' := by
  unfold retire
  cases ho : w.owners[index]? with
  | none => exact ⟨w, rfl, Refines.refl w⟩
  | some owner =>
    obtain ⟨resource, rfl⟩ := h.handles.owners owner (List.mem_of_getElem? ho)
    cases hn : checkedAdd u64Max w.service.nextRetirement 1 with
    | some next =>
      obtain ⟨_, rfl⟩ := checkedAdd_eq_some.mp hn
      simp only [ResourceOwner.retire, if_true, hn,
        enqueue_eq h ho { w.service with nextRetirement := w.service.nextRetirement + 1 }
          rfl rfl rfl rfl, Except.map]
      refine ⟨_, rfl, rfl, rfl, ReflTransGen.single ?_, fun hh => hh.eraseIdx_owner index⟩
      have hs : RetirementLedger.Step w.service.identity w.service.capacity w.ledger _ :=
        .retire w.ledger (owners_eq ho)
      convert hs using 1
      simp [ledger, RetirementService.notify, coe_append_singleton]
    | none =>
      simp only [ResourceOwner.retire, if_true, hn,
        enqueue_eq h ho w.service rfl rfl rfl rfl, Except.map]
      refine ⟨_, rfl, rfl, rfl, ReflTransGen.single ?_, fun hh => hh.eraseIdx_owner index⟩
      have hs : RetirementLedger.Step w.service.identity w.service.capacity w.ledger _ :=
        .abandon w.ledger (owners_eq ho)
      convert hs using 1
      simp [ledger, RetirementService.notify, coe_append_singleton]

end RetirementWorld

end Nocter.BlockingRuntime
