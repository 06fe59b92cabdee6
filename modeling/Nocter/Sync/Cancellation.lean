import Nocter.Library.TransitionSystem
import Nocter.Sync.SharedStorage

/-!
# Cancellation

A source cancels once, by a request or by its destruction. The request that does
it sends one signal to the tasks that wait for the cancellation, and a waiting
task reads one signal before it looks again.
-/

namespace Nocter.Sync

open TransitionSystem

/-- The flag and the notification that a source and all its tokens share. -/
structure Cancellation where
  state : SharedStorage Bool
  notification : Notification
  deriving DecidableEq

namespace Cancellation

def new (capacity : ℕ) : Cancellation := ⟨.new false, ⟨capacity, 0⟩⟩

/-- The flag as a projection reads it. -/
def readFlag (access : SharedStorage Bool) : Except Fault Bool :=
  match access.value with
  | some cancelled => .ok cancelled
  | none => .error .abort

def cancellationState (cancellation : Cancellation) : Except Fault (Bool × Cancellation) :=
  match cancellation.state.tryWrite with
  | none => .error .abort
  | some access => do
    let cancelled ← readFlag access
    let state ← access.unlock
    .ok (cancelled, { cancellation with state })

def requestCancellation (cancellation : Cancellation) : Except Fault (Bool × Cancellation) :=
  match cancellation.state.tryWrite with
  | none => .error .abort
  | some access => do
    if ← readFlag access then
      let state ← access.unlock
      .ok (false, { cancellation with state })
    else
      let state ← { access with value := some true : SharedStorage Bool }.unlock
      .ok (true, ⟨state, cancellation.notification.signalBestEffort⟩)

def share (cancellation : Cancellation) : Except Fault Cancellation := do
  let state ← cancellation.state.shareStorage
  .ok { cancellation with state }

def release (cancellation : Cancellation) : Except Fault Cancellation := do
  let state ← cancellation.state.releaseStorage
  .ok { cancellation with state }

end Cancellation

/-- The cancellation with its source and tokens, the tasks waiting in `cancelled`, and the
requests that changed the state so far. -/
structure CancellationWorld where
  cancellation : Cancellation
  sourceLive : Bool
  tokens : ℕ
  waiting : ℕ
  requests : ℕ
  deriving DecidableEq

/-- An operation of a source, a token or a task that does not exist changes nothing. -/
inductive CancellationOp where
  | token
  | shareToken
  | dropToken
  | cancel
  | dropSource
  | isCancelled
  | await
  | wake
  | abandon
  deriving DecidableEq

namespace CancellationWorld

def start (capacity : ℕ) : CancellationWorld := ⟨.new capacity, true, 0, 0, 0⟩

/-- What `is_cancelled` reports. -/
def cancelled (world : CancellationWorld) : Prop := world.cancellation.state.value = some true

instance (world : CancellationWorld) : Decidable world.cancelled := inferInstanceAs (Decidable (_ = _))

def addToken (world : CancellationWorld) : Except Fault CancellationWorld := do
  let cancellation ← world.cancellation.share
  .ok { world with cancellation, tokens := world.tokens + 1 }

/-- The token that a waiting task borrows cannot be dropped. -/
def dropToken (world : CancellationWorld) : Except Fault CancellationWorld :=
  if world.tokens = 0 ∨ world.tokens = 1 ∧ world.waiting ≠ 0 then .ok world
  else do
    let cancellation ← world.cancellation.release
    .ok { world with cancellation, tokens := world.tokens - 1 }

def request (world : CancellationWorld) : Except Fault CancellationWorld := do
  let (changed, cancellation) ← world.cancellation.requestCancellation
  .ok { world with cancellation, requests := world.requests + changed.toNat }

/-- The destructor requests the cancellation, then the fields are dropped. -/
def dropSource (world : CancellationWorld) : Except Fault CancellationWorld := do
  let world ← world.request
  let cancellation ← world.cancellation.release
  .ok { world with cancellation, sourceLive := false }

/-- One round of the loop of `cancelled`. -/
def await (world : CancellationWorld) : Except Fault CancellationWorld := do
  let (cancelled, cancellation) ← world.cancellation.cancellationState
  if cancelled then .ok { world with cancellation }
  else .ok { world with cancellation, waiting := world.waiting + 1 }

/-- A waiting task reads a signal and looks again. -/
def wake (world : CancellationWorld) : Except Fault CancellationWorld :=
  if world.waiting = 0 then .ok world
  else match world.cancellation.notification.wait with
    | none => .ok world
    | some notification =>
      await { world with
        cancellation := { world.cancellation with notification }
        waiting := world.waiting - 1 }

def step (world : CancellationWorld) : CancellationOp → Except Fault CancellationWorld
  | .token => if world.sourceLive then world.addToken else .ok world
  | .shareToken => if world.tokens = 0 then .ok world else world.addToken
  | .dropToken => world.dropToken
  | .cancel => if world.sourceLive then world.request else .ok world
  | .dropSource => if world.sourceLive then world.dropSource else .ok world
  | .isCancelled =>
    if world.sourceLive = false ∧ world.tokens = 0 then .ok world
    else do
      let (_, cancellation) ← world.cancellation.cancellationState
      .ok { world with cancellation }
  | .await => if world.tokens = 0 then .ok world else world.await
  | .wake => world.wake
  | .abandon => .ok { world with waiting := world.waiting - 1 }

def runs (capacity : ℕ) : TransitionSystem CancellationWorld := ofFallible (start capacity) step

/-- The request that cancels happens while at most one task waits. -/
def Uncrowded (world : CancellationWorld) (op : CancellationOp) : Prop :=
  op = .cancel ∨ op = .dropSource → world.requests = 0 → world.waiting ≤ 1

def uncrowdedRuns (capacity : ℕ) : TransitionSystem CancellationWorld where
  initial world := world = start capacity
  next world world' := ∃ op, world.Uncrowded op ∧ world.step op = .ok world'

/-- Each task that waits after the cancellation finds an unread signal. -/
def NoLostWakeup (world : CancellationWorld) : Prop :=
  world.cancelled → world.waiting ≤ world.cancellation.notification.unread

end CancellationWorld

namespace Cancellation

variable {cancellation : Cancellation} {flag : Bool}

theorem cancellationState_eq (hunlocked : cancellation.state.header.writeLocked = false)
    (hvalue : cancellation.state.value = some flag) :
    cancellation.cancellationState = .ok (flag, cancellation) := by
  obtain ⟨⟨⟨count, locked⟩, value⟩, notification⟩ := cancellation
  obtain rfl : locked = false := hunlocked
  obtain rfl : value = some flag := hvalue
  rfl

theorem requestCancellation_set (hunlocked : cancellation.state.header.writeLocked = false)
    (hvalue : cancellation.state.value = some true) :
    cancellation.requestCancellation = .ok (false, cancellation) := by
  obtain ⟨⟨⟨count, locked⟩, value⟩, notification⟩ := cancellation
  obtain rfl : locked = false := hunlocked
  obtain rfl : value = some true := hvalue
  rfl

theorem requestCancellation_unset (hunlocked : cancellation.state.header.writeLocked = false)
    (hvalue : cancellation.state.value = some false) :
    cancellation.requestCancellation = .ok (true, ⟨{ cancellation.state with value := some true },
      cancellation.notification.signalBestEffort⟩) := by
  obtain ⟨⟨⟨count, locked⟩, value⟩, notification⟩ := cancellation
  obtain rfl : locked = false := hunlocked
  obtain rfl : value = some false := hvalue
  rfl

/-- One owner of several goes. -/
theorem release_some (hcount : 1 < cancellation.state.header.ownerCount) :
    cancellation.release = .ok { cancellation with state := { cancellation.state with
      header := { cancellation.state.header with
        ownerCount := cancellation.state.header.ownerCount - 1 } } } := by
  unfold release SharedStorage.releaseStorage
  rw [if_neg (by omega), if_pos hcount]
  rfl

theorem release_last (hunlocked : cancellation.state.header.writeLocked = false)
    (hcount : cancellation.state.header.ownerCount = 1) :
    cancellation.release = .ok { cancellation with
      state := ⟨{ cancellation.state.header with ownerCount := 0 }, none⟩ } := by
  unfold release SharedStorage.releaseStorage
  rw [if_neg (by omega), if_neg (by omega), if_neg (by simp [hunlocked])]
  rfl

end Cancellation

namespace CancellationWorld

/-- The flag says whether a request has changed the state; `awake` adds that no wakeup is lost. -/
structure Valid (capacity : ℕ) (awake : Prop) (world : CancellationWorld) : Prop where
  capacity_eq : world.cancellation.notification.capacity = capacity
  owners : world.cancellation.state.header.ownerCount = world.sourceLive.toNat + world.tokens
  unlocked : world.cancellation.state.header.writeLocked = false
  value_eq : world.sourceLive.toNat + world.tokens ≠ 0 →
    world.cancellation.state.value = some (decide (world.requests = 1))
  gone : world.sourceLive.toNat + world.tokens = 0 → world.cancellation.state.value = none
  requests_le : world.requests ≤ 1
  requested : world.sourceLive = false → world.requests = 1
  borrowed : world.waiting ≠ 0 → world.tokens ≠ 0
  quiet : world.requests = 0 → world.cancellation.notification.unread = 0
  woken : awake → world.requests = 1 →
    world.waiting ≤ world.cancellation.notification.unread

variable {capacity : ℕ} {awake : Prop} {world world' : CancellationWorld}

theorem Valid.start (capacity : ℕ) (awake : Prop) :
    Valid capacity awake (CancellationWorld.start capacity) where
  capacity_eq := rfl
  owners := rfl
  unlocked := rfl
  value_eq _ := rfl
  gone hnone := absurd hnone Nat.one_ne_zero
  requests_le := Nat.zero_le _
  requested hgone := Bool.noConfusion hgone
  borrowed hwaiting := absurd rfl hwaiting
  quiet _ := rfl
  woken _ hrequested := Nat.noConfusion hrequested

/-- Looking at the flag changes nothing. -/
theorem Valid.cancellationState (h : world.Valid capacity awake)
    (hlive : world.sourceLive.toNat + world.tokens ≠ 0) : world.cancellation.cancellationState =
      .ok (decide (world.requests = 1), world.cancellation) :=
  Cancellation.cancellationState_eq h.unlocked (h.value_eq hlive)

theorem Valid.addToken (h : world.Valid capacity awake)
    (hlive : world.sourceLive.toNat + world.tokens ≠ 0) (hstep : world.addToken = .ok world') :
    world'.Valid capacity awake := by
  unfold CancellationWorld.addToken Cancellation.share SharedStorage.shareStorage at hstep
  split at hstep
  · cases hstep
    have howners := h.owners
    refine ⟨h.capacity_eq, by simp only; omega, h.unlocked, fun _ => h.value_eq hlive,
      fun hnone => ?_, h.requests_le, h.requested, fun _ => Nat.succ_ne_zero _, h.quiet, h.woken⟩
    exact absurd hnone (by simp only; omega)
  · cases hstep

theorem Valid.dropToken (h : world.Valid capacity awake) (hstep : world.dropToken = .ok world') :
    world'.Valid capacity awake := by
  unfold CancellationWorld.dropToken at hstep
  split at hstep
  · cases hstep
    exact h
  · next hborrow =>
    rw [not_or] at hborrow
    have howners := h.owners
    by_cases hlast : world.cancellation.state.header.ownerCount = 1
    · rw [Cancellation.release_last h.unlocked hlast] at hstep
      cases hstep
      refine ⟨h.capacity_eq, by simp only; omega, h.unlocked, fun hsome => ?_, fun _ => rfl,
        h.requests_le, h.requested, fun hwaiting => ?_, h.quiet, h.woken⟩
      · exact absurd hsome (by simp only; omega)
      · exact absurd ⟨by omega, hwaiting⟩ hborrow.2
    · rw [Cancellation.release_some (by omega)] at hstep
      cases hstep
      refine ⟨h.capacity_eq, by simp only; omega, h.unlocked, fun _ => h.value_eq (by omega),
        fun hnone => ?_, h.requests_le, h.requested, fun hwaiting hnone => ?_, h.quiet, h.woken⟩
      · exact absurd hnone (by simp only; omega)
      · exact hborrow.2 ⟨by simp only at hnone; omega, hwaiting⟩

/-- A request of the live source succeeds; from then on the state is cancelled. -/
theorem Valid.request (hpositive : 0 < capacity) (h : world.Valid capacity awake)
    (hlive : world.sourceLive = true) (hroom : awake → world.requests = 0 → world.waiting ≤ 1) :
    ∃ next, world.request = .ok next ∧ next.Valid capacity awake ∧ next.requests = 1 ∧
      next.sourceLive = true ∧ next.tokens = world.tokens := by
  have hvalue := h.value_eq (by rw [hlive]; simp)
  unfold CancellationWorld.request
  by_cases hone : world.requests = 1
  · rw [decide_eq_true hone] at hvalue
    rw [Cancellation.requestCancellation_set h.unlocked hvalue]
    exact ⟨world, rfl, h, hone, hlive, rfl⟩
  · have hzero : world.requests = 0 := by
      have := h.requests_le
      omega
    rw [decide_eq_false hone] at hvalue
    rw [Cancellation.requestCancellation_unset h.unlocked hvalue]
    have hcapacity := h.capacity_eq
    refine ⟨_, rfl, ⟨hcapacity, h.owners, h.unlocked, fun _ => ?_, fun hnone => ?_, ?_,
      fun hgone => absurd (hlive.symm.trans hgone) (by decide), h.borrowed, fun hnone => ?_,
      fun hawake _ => ?_⟩, ?_, hlive, rfl⟩
    · simp only [hzero]
      rfl
    · exact absurd hnone (by simp only [hlive, Bool.toNat_true]; omega)
    · simp only [hzero]
      rfl
    · exact absurd hnone (by simp)
    · have hle := hroom hawake hzero
      simp only [Notification.unread_signalBestEffort, hcapacity]
      omega
    · simp only [hzero]
      rfl

theorem Valid.dropSource (hpositive : 0 < capacity) (h : world.Valid capacity awake)
    (hlive : world.sourceLive = true) (hroom : awake → world.requests = 0 → world.waiting ≤ 1)
    (hstep : world.dropSource = .ok world') : world'.Valid capacity awake := by
  obtain ⟨next, hrequest, hnext, hone, hsource, _⟩ := h.request hpositive hlive hroom
  unfold CancellationWorld.dropSource at hstep
  rw [hrequest] at hstep
  have howners := hnext.owners
  rw [hsource, Bool.toNat_true] at howners
  have hvalue := hnext.value_eq (by rw [hsource, Bool.toNat_true]; omega)
  change (do
    let cancellation ← next.cancellation.release
    .ok { next with cancellation, sourceLive := false }) = Except.ok world' at hstep
  by_cases hlast : next.cancellation.state.header.ownerCount = 1
  · rw [Cancellation.release_last hnext.unlocked hlast] at hstep
    cases hstep
    refine ⟨hnext.capacity_eq, by simp only [Bool.toNat_false]; omega, hnext.unlocked,
      fun hsome => ?_, fun _ => rfl, hnext.requests_le, fun _ => hone, hnext.borrowed, hnext.quiet,
      hnext.woken⟩
    exact absurd hsome (by simp only [Bool.toNat_false]; omega)
  · rw [Cancellation.release_some (by omega)] at hstep
    cases hstep
    refine ⟨hnext.capacity_eq, by simp only [Bool.toNat_false]; omega, hnext.unlocked,
      fun _ => hvalue, fun hnone => ?_, hnext.requests_le, fun _ => hone, hnext.borrowed,
      hnext.quiet, hnext.woken⟩
    exact absurd hnone (by simp only [Bool.toNat_false]; omega)

/-- A round of `cancelled` keeps the invariant even when its signal was just read. -/
theorem Valid.await (h : world.Valid capacity awake) (htokens : world.tokens ≠ 0)
    (hstep : world.await = .ok world') : world'.Valid capacity awake := by
  unfold CancellationWorld.await at hstep
  rw [h.cancellationState (by omega)] at hstep
  by_cases hone : world.requests = 1
  · rw [decide_eq_true hone] at hstep
    cases hstep
    exact h
  · rw [decide_eq_false hone] at hstep
    cases hstep
    exact ⟨h.capacity_eq, h.owners, h.unlocked, h.value_eq, h.gone, h.requests_le, h.requested,
      fun _ => htokens, h.quiet, fun _ hrequested => absurd hrequested hone⟩

theorem Valid.wake (h : world.Valid capacity awake) (hstep : world.wake = .ok world') :
    world'.Valid capacity awake := by
  unfold CancellationWorld.wake at hstep
  split at hstep
  · cases hstep
    exact h
  · next hwaiting =>
    cases hwait : world.cancellation.notification.wait with
    | none =>
      rw [hwait] at hstep
      cases hstep
      exact h
    | some notification =>
      rw [hwait] at hstep
      obtain ⟨hunread, rfl⟩ := Notification.wait_eq_some.mp hwait
      dsimp only at hstep
      have hread : Valid capacity awake { world with
          cancellation := { world.cancellation with
            notification := { world.cancellation.notification with
              unread := world.cancellation.notification.unread - 1 } }
          waiting := world.waiting - 1 } := by
        refine ⟨h.capacity_eq, h.owners, h.unlocked, h.value_eq, h.gone, h.requests_le, h.requested,
          fun _ => h.borrowed hwaiting, fun hnone => absurd (h.quiet hnone) hunread,
          fun hawake hone => ?_⟩
        have hwoken := h.woken hawake hone
        dsimp only
        omega
      exact hread.await (h.borrowed hwaiting) hstep

/-- One operation keeps the invariant; the cancelling request needs its condition for the
waiting tasks. -/
theorem Valid.step (hpositive : 0 < capacity) {op : CancellationOp} (h : world.Valid capacity awake)
    (huncrowded : awake → world.Uncrowded op) (hstep : world.step op = .ok world') :
    world'.Valid capacity awake := by
  cases op with
  | token =>
    rw [CancellationWorld.step] at hstep
    split at hstep
    · next hlive => exact h.addToken (by rw [hlive]; simp) hstep
    · cases hstep
      exact h
  | shareToken =>
    rw [CancellationWorld.step] at hstep
    split at hstep
    · cases hstep
      exact h
    · exact h.addToken (by omega) hstep
  | dropToken => exact h.dropToken hstep
  | cancel =>
    rw [CancellationWorld.step] at hstep
    split at hstep
    · next hlive =>
      obtain ⟨next, hnext, hvalid, _⟩ :=
        h.request hpositive hlive fun hawake => huncrowded hawake (Or.inl rfl)
      rw [hnext] at hstep
      cases hstep
      exact hvalid
    · cases hstep
      exact h
  | dropSource =>
    rw [CancellationWorld.step] at hstep
    split at hstep
    · next hlive =>
      exact h.dropSource hpositive hlive (fun hawake => huncrowded hawake (Or.inr rfl)) hstep
    · cases hstep
      exact h
  | isCancelled =>
    rw [CancellationWorld.step] at hstep
    split at hstep
    · cases hstep
      exact h
    · next hsome =>
      have hlive : world.sourceLive.toNat + world.tokens ≠ 0 := by
        intro hnone
        refine hsome ⟨?_, by omega⟩
        cases hsource : world.sourceLive with
        | false => rfl
        | true =>
          rw [hsource, Bool.toNat_true] at hnone
          omega
      rw [h.cancellationState hlive] at hstep
      cases hstep
      exact h
  | await =>
    rw [CancellationWorld.step] at hstep
    split at hstep
    · cases hstep
      exact h
    · next htokens => exact h.await htokens hstep
  | wake => exact h.wake hstep
  | abandon =>
    cases hstep
    refine ⟨h.capacity_eq, h.owners, h.unlocked, h.value_eq, h.gone, h.requests_le, h.requested,
      fun hwaiting => h.borrowed ?_, h.quiet, fun hawake hone => ?_⟩
    · simp only at hwaiting
      omega
    · exact (Nat.sub_le _ _).trans (h.woken hawake hone)

theorem valid_of_reachable (hpositive : 0 < capacity) (h : (runs capacity).Reachable world) :
    world.Valid capacity False := by
  refine h.invariant (P := Valid capacity False) ?_ ?_
  · rintro world rfl
    exact Valid.start capacity False
  · rintro before after hbefore ⟨op, hstep⟩
    exact hbefore.step hpositive False.elim hstep

theorem valid_of_uncrowded (hpositive : 0 < capacity)
    (h : (uncrowdedRuns capacity).Reachable world) : world.Valid capacity True := by
  refine h.invariant (P := Valid capacity True) ?_ ?_
  · rintro world rfl
    exact Valid.start capacity True
  · rintro before after hbefore ⟨op, huncrowded, hstep⟩
    exact hbefore.step hpositive (fun _ => huncrowded) hstep

theorem Valid.cancelled_iff (h : world.Valid capacity awake)
    (hlive : world.sourceLive = true ∨ world.tokens ≠ 0) :
    world.cancelled ↔ world.requests = 1 := by
  have hvalue : world.cancellation.state.value = some (decide (world.requests = 1)) := by
    refine h.value_eq ?_
    obtain hsource | htokens := hlive
    · rw [hsource, Bool.toNat_true]
      omega
    · omega
  rw [cancelled, hvalue, Option.some.injEq, decide_eq_true_eq]

theorem Valid.requests_of_cancelled (h : world.Valid capacity awake) (hcancelled : world.cancelled) :
    world.requests = 1 := by
  by_cases hlive : world.sourceLive.toNat + world.tokens = 0
  · have hgone := h.gone hlive
    rw [cancelled, hgone] at hcancelled
    cases hcancelled
  · have hvalue := h.value_eq hlive
    rw [cancelled, hvalue, Option.some.injEq, decide_eq_true_eq] at hcancelled
    exact hcancelled

theorem await_requests (hstep : world.await = .ok world') : world'.requests = world.requests := by
  unfold CancellationWorld.await at hstep
  obtain ⟨⟨flag, cancellation⟩, _, hrest⟩ := bind_eq_ok.mp hstep
  cases flag <;> cases hrest <;> rfl

theorem addToken_requests (hstep : world.addToken = .ok world') :
    world'.requests = world.requests := by
  unfold CancellationWorld.addToken at hstep
  obtain ⟨cancellation, _, hrest⟩ := bind_eq_ok.mp hstep
  cases hrest
  rfl

theorem request_requests (hstep : world.request = .ok world') :
    world.requests ≤ world'.requests := by
  unfold CancellationWorld.request at hstep
  obtain ⟨⟨changed, cancellation⟩, _, hrest⟩ := bind_eq_ok.mp hstep
  cases hrest
  exact Nat.le_add_right _ _

/-- No operation takes a request back. -/
theorem requests_mono {op : CancellationOp} (hstep : world.step op = .ok world') :
    world.requests ≤ world'.requests := by
  cases op with
  | token =>
    rw [CancellationWorld.step] at hstep
    split at hstep
    · exact (addToken_requests hstep).ge
    · cases hstep
      exact Nat.le_refl _
  | shareToken =>
    rw [CancellationWorld.step] at hstep
    split at hstep
    · cases hstep
      exact Nat.le_refl _
    · exact (addToken_requests hstep).ge
  | dropToken =>
    rw [CancellationWorld.step, CancellationWorld.dropToken] at hstep
    split at hstep
    · cases hstep
      exact Nat.le_refl _
    · obtain ⟨cancellation, _, hrest⟩ := bind_eq_ok.mp hstep
      cases hrest
      exact Nat.le_refl _
  | cancel =>
    rw [CancellationWorld.step] at hstep
    split at hstep
    · exact request_requests hstep
    · cases hstep
      exact Nat.le_refl _
  | dropSource =>
    rw [CancellationWorld.step] at hstep
    split at hstep
    · obtain ⟨next, hrequest, hrest⟩ := bind_eq_ok.mp hstep
      obtain ⟨cancellation, _, hrest⟩ := bind_eq_ok.mp hrest
      cases hrest
      have hmono := request_requests hrequest
      exact hmono
    · cases hstep
      exact Nat.le_refl _
  | isCancelled =>
    rw [CancellationWorld.step] at hstep
    split at hstep
    · cases hstep
      exact Nat.le_refl _
    · obtain ⟨⟨flag, cancellation⟩, _, hrest⟩ := bind_eq_ok.mp hstep
      cases hrest
      exact Nat.le_refl _
  | await =>
    rw [CancellationWorld.step] at hstep
    split at hstep
    · cases hstep
      exact Nat.le_refl _
    · exact (await_requests hstep).ge
  | wake =>
    rw [CancellationWorld.step, CancellationWorld.wake] at hstep
    split at hstep
    · cases hstep
      exact Nat.le_refl _
    · split at hstep
      · cases hstep
        exact Nat.le_refl _
      · exact (await_requests hstep).ge
  | abandon =>
    cases hstep
    exact Nat.le_refl _

theorem requests_mono_steps (h : (runs capacity).Steps world world') :
    world.requests ≤ world'.requests :=
  Steps.invariant (S := runs capacity) (P := fun after => world.requests ≤ after.requests)
    (fun _ _ hbefore ⟨_, hstep⟩ => hbefore.trans (requests_mono hstep)) h (Nat.le_refl _)

/-- In every run one request changes the state, at the latest the one of the destroyed source,
and the tokens observe it from then on. In every run whose cancelling request is uncrowded no
wakeup is lost. -/
theorem cancellation_exact (hpositive : 0 < capacity) (h : (runs capacity).Reachable world) :
    world.requests ≤ 1 ∧ (world.sourceLive = false → world.requests = 1) ∧
      (world.sourceLive = true ∨ world.tokens ≠ 0 → (world.cancelled ↔ world.requests = 1)) ∧
      (∀ after, (runs capacity).Steps world after → world.cancelled →
        after.sourceLive = true ∨ after.tokens ≠ 0 → after.cancelled) ∧
      ((uncrowdedRuns capacity).Reachable world → world.NoLostWakeup) := by
  have hvalid := valid_of_reachable hpositive h
  refine ⟨hvalid.requests_le, hvalid.requested, hvalid.cancelled_iff, ?_, ?_⟩
  · intro after hsteps hcancelled hlive
    have hafter := valid_of_reachable hpositive (h.steps hsteps)
    have hmono := requests_mono_steps hsteps
    have hle := hafter.requests_le
    have hone := hvalid.requests_of_cancelled hcancelled
    exact (hafter.cancelled_iff hlive).mpr (by omega)
  · intro huncrowded hcancelled
    have hawake := valid_of_uncrowded hpositive huncrowded
    exact hawake.woken trivial (hvalid.requests_of_cancelled hcancelled)

/-- One task waits when the source is dropped. -/
def abandonedToken : CancellationWorld := ⟨⟨⟨⟨1, false⟩, some true⟩, ⟨1, 1⟩⟩, false, 1, 1, 1⟩

theorem abandonedToken_exact :
    abandonedToken.requests ≤ 1 ∧ (abandonedToken.sourceLive = false → abandonedToken.requests = 1) ∧
      (abandonedToken.sourceLive = true ∨ abandonedToken.tokens ≠ 0 →
        (abandonedToken.cancelled ↔ abandonedToken.requests = 1)) ∧
      (∀ after, (runs 1).Steps abandonedToken after → abandonedToken.cancelled →
        after.sourceLive = true ∨ after.tokens ≠ 0 → after.cancelled) ∧
      ((uncrowdedRuns 1).Reachable abandonedToken → abandonedToken.NoLostWakeup) := by
  have hrun : [CancellationOp.token, .await, .dropSource].foldlM step (start 1) =
      Except.ok abandonedToken := rfl
  exact cancellation_exact Nat.one_pos (reachable_foldlM hrun)

/-- Two tasks wait on one token; the first to wake takes the only signal. -/
theorem cancelling_signal_lost : ¬ ∀ (capacity : ℕ) (world : CancellationWorld), 0 < capacity →
    (runs capacity).Reachable world → world.cancelled → world.waiting ≠ 0 →
      world.cancellation.notification.unread ≠ 0 := by
  intro hall
  have hrun : [CancellationOp.token, .await, .await, .cancel, .wake].foldlM step (start 1) =
      Except.ok (⟨⟨⟨⟨2, false⟩, some true⟩, ⟨1, 0⟩⟩, true, 1, 1, 1⟩ : CancellationWorld) := rfl
  exact hall 1 _ Nat.one_pos (reachable_foldlM hrun) rfl (by decide) rfl

end CancellationWorld

end Nocter.Sync
