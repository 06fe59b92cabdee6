import Nocter.Library.TransitionSystem
import Nocter.Sync.SharedStorage

/-!
# Mutexes

A guard is the one projection of the value that a mutex protects. A `lock` call
that finds the value projected waits for a signal, which every dropped guard
sends, and tries again. An operation on the one executor thread is atomic, and so
is reading a signal with the retry behind it.
-/

namespace Nocter.Sync

open TransitionSystem

variable {α : Type}

/-- The storage and the notification that all handles of one mutex share. -/
structure Mutex (α : Type) where
  value : SharedStorage α
  notification : Notification
  deriving DecidableEq

namespace Mutex

/-- One handle of a new mutex. -/
def new (capacity : ℕ) (value : α) : Mutex α := ⟨.new value, ⟨capacity, 0⟩⟩

def share (mutex : Mutex α) : Except Fault (Mutex α) := do
  let value ← mutex.value.shareStorage
  .ok { mutex with value }

/-- One round of the loop of `lock`: the mutex with a guard, or nothing if the call waits. -/
def tryLock (mutex : Mutex α) : Option (Mutex α) := do
  let value ← mutex.value.tryWrite
  some { mutex with value }

def dropGuard (mutex : Mutex α) : Except Fault (Mutex α) := do
  let value ← mutex.value.unlock
  .ok ⟨value, mutex.notification.signalBestEffort⟩

def dropHandle (mutex : Mutex α) : Except Fault (Mutex α) := do
  let value ← mutex.value.releaseStorage
  .ok { mutex with value }

end Mutex

/-- The mutex with its live guards, the `lock` calls that wait and the number of times
its value was destroyed. -/
structure MutexWorld (α : Type) where
  mutex : Mutex α
  guards : ℕ
  waiting : ℕ
  destroyed : ℕ
  deriving DecidableEq

/-- An operation of a handle, a guard or a call that does not exist changes nothing. -/
inductive MutexOp where
  | lock
  | wake
  | abandon
  | dropGuard
  | share
  | dropHandle

namespace MutexWorld

def start (capacity : ℕ) (value : α) : MutexWorld α := ⟨.new capacity value, 0, 0, 0⟩

def handles (world : MutexWorld α) : ℕ := world.mutex.value.header.ownerCount

def locked (world : MutexWorld α) : Bool := world.mutex.value.header.writeLocked

/-- A call of `lock` returns a guard or waits. -/
def lock (world : MutexWorld α) : MutexWorld α :=
  match world.mutex.tryLock with
  | some mutex => { world with mutex, guards := world.guards + 1 }
  | none => { world with waiting := world.waiting + 1 }

/-- A waiting call reads a signal and tries again. -/
def wake (world : MutexWorld α) : MutexWorld α :=
  if world.waiting = 0 then world
  else match world.mutex.notification.wait with
    | none => world
    | some notification =>
      lock { world with
        mutex := { world.mutex with notification }
        waiting := world.waiting - 1 }

def dropGuard (world : MutexWorld α) : Except Fault (MutexWorld α) :=
  if world.guards = 0 then .ok world
  else do
    let mutex ← world.mutex.dropGuard
    .ok { world with mutex, guards := world.guards - 1 }

/-- The handle that a waiting call borrows cannot be dropped. -/
def dropHandle (world : MutexWorld α) : Except Fault (MutexWorld α) :=
  if world.handles = 0 ∨ world.handles = 1 ∧ world.waiting ≠ 0 then .ok world
  else do
    let mutex ← world.mutex.dropHandle
    let gone := if mutex.value.value.isNone then 1 else 0
    .ok { world with mutex, destroyed := world.destroyed + gone }

def step (world : MutexWorld α) : MutexOp → Except Fault (MutexWorld α)
  | .lock => if world.handles = 0 then .ok world else .ok world.lock
  | .wake => .ok world.wake
  | .abandon => .ok { world with waiting := world.waiting - 1 }
  | .dropGuard => world.dropGuard
  | .share =>
    if world.handles = 0 then .ok world
    else do
      let mutex ← world.mutex.share
      .ok { world with mutex }
  | .dropHandle => world.dropHandle

def runs (capacity : ℕ) (value : α) : TransitionSystem (MutexWorld α) :=
  ofFallible (start capacity value) step

/-- The guards are the projections, and nobody waits for a free mutex without a signal. -/
structure Valid (capacity : ℕ) (world : MutexWorld α) : Prop where
  capacity_eq : world.mutex.notification.capacity = capacity
  guards_eq : world.guards = world.locked.toNat
  alive : world.handles ≠ 0 → world.destroyed = 0 ∧ world.mutex.value.value.isSome
  gone : world.handles = 0 → world.destroyed = 1 ∧ world.guards = 0 ∧ world.waiting = 0
  awake : world.guards = 0 → world.waiting ≠ 0 → world.mutex.notification.unread ≠ 0

variable {capacity : ℕ} {world world' : MutexWorld α}

theorem Valid.start (capacity : ℕ) (value : α) :
    (MutexWorld.start capacity value).Valid capacity where
  capacity_eq := rfl
  guards_eq := rfl
  alive _ := ⟨rfl, rfl⟩
  gone hnone := absurd hnone Nat.one_ne_zero
  awake _ hwaiting := absurd rfl hwaiting

/-- A round of `lock` takes the free value, or leaves one more call that waits for it. -/
theorem lock_cases (world : MutexWorld α) :
    (world.locked = false ∧ world.lock = { world with
      mutex := { world.mutex with value := { world.mutex.value with
        header := { world.mutex.value.header with writeLocked := true } } }
      guards := world.guards + 1 }) ∨
    (world.locked = true ∧ world.lock = { world with waiting := world.waiting + 1 }) := by
  unfold MutexWorld.lock Mutex.tryLock SharedStorage.tryWrite locked
  cases hlocked : world.mutex.value.header.writeLocked with
  | false => exact .inl ⟨rfl, rfl⟩
  | true => exact .inr ⟨rfl, rfl⟩

/-- A round of `lock` keeps the invariant even when its signal was just read. -/
theorem lock_valid (hcapacity : world.mutex.notification.capacity = capacity)
    (hguards : world.guards = world.locked.toNat)
    (halive : world.handles ≠ 0 → world.destroyed = 0 ∧ world.mutex.value.value.isSome)
    (hhandles : world.handles ≠ 0) : world.lock.Valid capacity := by
  obtain ⟨hfree, hlock⟩ | ⟨hheld, hlock⟩ := lock_cases world
  · rw [hlock]
    refine ⟨hcapacity, ?_, halive, fun hnone => absurd hnone hhandles,
      fun hnone => absurd hnone (Nat.succ_ne_zero _)⟩
    rw [hfree] at hguards
    simp only [hguards, locked]
    rfl
  · rw [hlock]
    refine ⟨hcapacity, hguards, halive, fun hnone => absurd hnone hhandles, fun hnone => ?_⟩
    rw [hheld] at hguards
    exact absurd (hguards.symm.trans hnone) Nat.one_ne_zero

theorem Valid.wake (h : world.Valid capacity) : world.wake.Valid capacity := by
  unfold MutexWorld.wake
  split
  · exact h
  · next hwaiting =>
    have hhandles : world.handles ≠ 0 := fun hnone => hwaiting (h.gone hnone).2.2
    cases hwait : world.mutex.notification.wait with
    | none => exact h
    | some notification =>
      obtain ⟨_, rfl⟩ := Notification.wait_eq_some.mp hwait
      exact lock_valid h.capacity_eq h.guards_eq h.alive hhandles

/-- Dropping a guard frees the value and leaves a signal. -/
theorem Valid.dropGuard (hpositive : 0 < capacity) (h : world.Valid capacity) :
    ∃ next, world.dropGuard = .ok next ∧ next.Valid capacity := by
  unfold MutexWorld.dropGuard
  split
  · exact ⟨world, rfl, h⟩
  · next hlive =>
    have hguards := h.guards_eq
    have hlocked : world.mutex.value.header.writeLocked = true := by
      cases hflag : world.mutex.value.header.writeLocked with
      | false =>
        rw [locked, hflag] at hguards
        exact absurd hguards hlive
      | true => rfl
    have hone : world.guards = 1 := by rw [hguards, locked, hlocked]; rfl
    unfold Mutex.dropGuard SharedStorage.unlock
    rw [if_neg (by simp [hlocked])]
    refine ⟨_, rfl, h.capacity_eq, ?_, h.alive, fun hnone => ?_, fun _ _ => ?_⟩
    · simp only [hone, locked]
      rfl
    · exact absurd (h.gone hnone).2.1 hlive
    · have hcapacity := h.capacity_eq
      simp only [Notification.unread_signalBestEffort, hcapacity]
      omega

theorem Valid.dropHandle (h : world.Valid capacity) (hstep : world.dropHandle = .ok world') :
    world'.Valid capacity := by
  unfold MutexWorld.dropHandle at hstep
  split at hstep
  · cases hstep
    exact h
  · next hborrow =>
    rw [not_or] at hborrow
    have halive := h.alive hborrow.1
    have hguards := h.guards_eq
    unfold Mutex.dropHandle SharedStorage.releaseStorage at hstep
    unfold handles at hborrow halive
    rw [if_neg hborrow.1] at hstep
    by_cases hmany : world.mutex.value.header.ownerCount > 1
    · rw [if_pos hmany] at hstep
      cases hstep
      have hsome : world.mutex.value.value.isNone = false := by simp [halive.2]
      refine ⟨h.capacity_eq, hguards, fun _ => ?_, fun hnone => ?_, h.awake⟩
      · simp only [hsome]
        exact halive
      · simp only [handles] at hnone
        omega
    · rw [if_neg hmany] at hstep
      by_cases hlocked : world.mutex.value.header.writeLocked = true
      · rw [if_pos hlocked] at hstep
        cases hstep
      · rw [if_neg hlocked] at hstep
        cases hstep
        rw [Bool.not_eq_true] at hlocked
        rw [locked, hlocked] at hguards
        have hwaiting : world.waiting = 0 := by
          by_contra hne
          exact hborrow.2 ⟨by omega, hne⟩
        refine ⟨h.capacity_eq, ?_, fun hsome => absurd rfl hsome, fun _ => ⟨?_, hguards, hwaiting⟩,
          fun _ hne => absurd hwaiting hne⟩
        · simp only [locked, hlocked, hguards]
        · simp only [halive.1]
          rfl

/-- One operation keeps the invariant. -/
theorem Valid.step (hpositive : 0 < capacity) {op : MutexOp} (h : world.Valid capacity)
    (hstep : world.step op = .ok world') : world'.Valid capacity := by
  cases op with
  | lock =>
    rw [MutexWorld.step] at hstep
    split at hstep
    · cases hstep
      exact h
    · next hhandles =>
      cases hstep
      exact lock_valid h.capacity_eq h.guards_eq h.alive hhandles
  | wake =>
    cases hstep
    exact h.wake
  | abandon =>
    cases hstep
    refine ⟨h.capacity_eq, h.guards_eq, h.alive, fun hnone => ?_, fun hnone hwaiting => ?_⟩
    · obtain ⟨hdestroyed, hguards, hwaiting⟩ := h.gone hnone
      exact ⟨hdestroyed, hguards, by simp only [hwaiting]⟩
    · exact h.awake hnone fun hzero => hwaiting (by simp only [hzero])
  | dropGuard =>
    obtain ⟨next, hnext, hvalid⟩ := h.dropGuard hpositive
    rw [MutexWorld.step, hnext] at hstep
    cases hstep
    exact hvalid
  | share =>
    rw [MutexWorld.step] at hstep
    split at hstep
    · cases hstep
      exact h
    · next hhandles =>
      unfold Mutex.share SharedStorage.shareStorage at hstep
      split at hstep
      · cases hstep
        exact ⟨h.capacity_eq, h.guards_eq, fun _ => h.alive hhandles,
          fun hnone => absurd hnone (Nat.succ_ne_zero _), h.awake⟩
      · cases hstep
  | dropHandle => exact h.dropHandle hstep

theorem valid_of_reachable (hpositive : 0 < capacity) {value : α}
    (h : (runs capacity value).Reachable world) : world.Valid capacity := by
  refine h.invariant (P := fun world => world.Valid capacity) ?_ ?_
  · rintro world rfl
    exact Valid.start capacity value
  · rintro before after hbefore ⟨op, hstep⟩
    exact hbefore.step hpositive hstep

/-- The last handle can be dropped while no guard is live and no call waits. -/
theorem dropHandle_last (h : world.Valid capacity) (hlast : world.handles = 1)
    (hguards : world.guards = 0) (hwaiting : world.waiting = 0) :
    ∃ next, world.dropHandle = .ok next ∧ next.destroyed = 1 ∧ next.handles = 0 := by
  have hlocked : world.mutex.value.header.writeLocked = false := by
    have heq := h.guards_eq
    rw [hguards, locked] at heq
    cases hflag : world.mutex.value.header.writeLocked with
    | false => rfl
    | true =>
      rw [hflag] at heq
      cases heq
  have hdestroyed := (h.alive (by omega)).1
  unfold MutexWorld.dropHandle
  rw [if_neg (by omega)]
  unfold Mutex.dropHandle SharedStorage.releaseStorage
  unfold handles at hlast
  rw [if_neg (by omega), if_neg (by omega), if_neg (by simp [hlocked])]
  refine ⟨_, rfl, ?_, rfl⟩
  simp only [hdestroyed]
  rfl

/-- In every run at most one guard is live; the value is destroyed once, when the last handle
is dropped without a live guard; nobody waits for a free mutex without an unread signal. -/
theorem mutex_exact (hpositive : 0 < capacity) {value : α}
    (h : (runs capacity value).Reachable world) :
    world.guards ≤ 1 ∧ world.destroyed ≤ 1 ∧
      (world.destroyed = 1 ↔ world.handles = 0) ∧ (world.destroyed = 1 → world.guards = 0) ∧
      (world.handles = 1 → world.guards = 0 → world.waiting = 0 →
        ∃ next, world.dropHandle = .ok next ∧ next.destroyed = 1) ∧
      (∃ next, world.dropGuard = .ok next) ∧
      (world.guards = 0 → world.waiting ≠ 0 → world.mutex.notification.unread ≠ 0) := by
  have hvalid := valid_of_reachable hpositive h
  have hle : world.guards ≤ 1 := by
    rw [hvalid.guards_eq]
    exact Bool.toNat_le _
  obtain ⟨dropped, hdropped, _⟩ := hvalid.dropGuard hpositive
  have hlast : world.handles = 1 → world.guards = 0 → world.waiting = 0 →
      ∃ next, world.dropHandle = .ok next ∧ next.destroyed = 1 := by
    intro hone hguards hwaiting
    obtain ⟨next, hnext, hdestroyed, _⟩ := dropHandle_last hvalid hone hguards hwaiting
    exact ⟨next, hnext, hdestroyed⟩
  by_cases hhandles : world.handles = 0
  · obtain ⟨hdestroyed, hguards, _⟩ := hvalid.gone hhandles
    exact ⟨hle, hdestroyed.le, ⟨fun _ => hhandles, fun _ => hdestroyed⟩, fun _ => hguards, hlast,
      ⟨dropped, hdropped⟩, hvalid.awake⟩
  · have hdestroyed := (hvalid.alive hhandles).1
    refine ⟨hle, by omega, ⟨fun hone => ?_, fun hnone => absurd hnone hhandles⟩, fun hone => ?_,
      hlast, ⟨dropped, hdropped⟩, hvalid.awake⟩
    · omega
    · omega

/-- A call waited behind a guard and now holds the value. -/
def handedOver : MutexWorld ℕ := ⟨⟨⟨⟨1, true⟩, some 5⟩, ⟨1, 0⟩⟩, 1, 0, 0⟩

theorem handedOver_exact :
    handedOver.guards ≤ 1 ∧ handedOver.destroyed ≤ 1 ∧
      (handedOver.destroyed = 1 ↔ handedOver.handles = 0) ∧
      (handedOver.destroyed = 1 → handedOver.guards = 0) ∧
      (handedOver.handles = 1 → handedOver.guards = 0 → handedOver.waiting = 0 →
        ∃ next, handedOver.dropHandle = .ok next ∧ next.destroyed = 1) ∧
      (∃ next, handedOver.dropGuard = .ok next) ∧
      (handedOver.guards = 0 → handedOver.waiting ≠ 0 →
        handedOver.mutex.notification.unread ≠ 0) := by
  have hrun : [MutexOp.lock, .lock, .dropGuard, .wake].foldlM step (start 1 5) =
      Except.ok handedOver := rfl
  exact mutex_exact Nat.one_pos (reachable_foldlM hrun)

end MutexWorld

end Nocter.Sync
