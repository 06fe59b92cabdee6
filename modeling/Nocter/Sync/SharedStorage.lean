import Mathlib.Algebra.Group.Nat.Defs
import Mathlib.Data.Nat.Notation
import Mathlib.Order.Lattice

/-!
# Shared storage and notifications

A value in shared storage lives as long as one of its owners. One exclusive
projection of it exists at a time. A notification counts the signals that no
waiting call has read yet.
-/

namespace Nocter.Sync

variable {α : Type}

/-- A returned error or `safety.invariant_abort()`. -/
inductive Fault where
  | error (code message : String)
  | abort
  deriving DecidableEq

theorem bind_eq_ok {β : Type} {x : Except Fault α} {f : α → Except Fault β} {b : β} :
    (x >>= f) = .ok b ↔ ∃ a, x = .ok a ∧ f a = .ok b := by
  cases x with
  | error fault => simp [bind, Except.bind]
  | ok a => simp [bind, Except.bind]

structure SharedHeader where
  ownerCount : ℕ
  writeLocked : Bool
  deriving DecidableEq

/-- The storage behind the owners of one value; `value` is absent once it is destroyed. -/
structure SharedStorage (α : Type) where
  header : SharedHeader
  value : Option α
  deriving DecidableEq

namespace SharedStorage

def new (value : α) : SharedStorage α := ⟨⟨1, false⟩, some value⟩

def shareStorage (owner : SharedStorage α) : Except Fault (SharedStorage α) :=
  if owner.header.ownerCount + 1 < 2 ^ 64 then
    .ok { owner with header := { owner.header with ownerCount := owner.header.ownerCount + 1 } }
  else .error .abort

/-- The storage with the projection taken, or nothing while another one exists. -/
def tryWrite (owner : SharedStorage α) : Option (SharedStorage α) :=
  if owner.header.writeLocked then none
  else some { owner with header := { owner.header with writeLocked := true } }

def unlock (write : SharedStorage α) : Except Fault (SharedStorage α) :=
  if ¬ write.header.writeLocked then .error .abort
  else .ok { write with header := { write.header with writeLocked := false } }

/-- One owner is gone. With the last one the value is destroyed and the storage freed. -/
def releaseStorage (owner : SharedStorage α) : Except Fault (SharedStorage α) :=
  if owner.header.ownerCount = 0 then .error .abort
  else if owner.header.ownerCount > 1 then
    .ok { owner with header := { owner.header with ownerCount := owner.header.ownerCount - 1 } }
  else if owner.header.writeLocked then .error .abort
  else .ok ⟨{ owner.header with ownerCount := 0 }, none⟩

end SharedStorage

/-- A descriptor that holds at most so many unread signals. -/
structure Notification where
  capacity : ℕ
  unread : ℕ
  deriving DecidableEq

namespace Notification

/-- A signal that finds no space is a signal already there. -/
def signalBestEffort (notification : Notification) : Notification :=
  { notification with unread := min (notification.unread + 1) notification.capacity }

/-- A waiting call reads one signal, or stays where it is. -/
def wait (notification : Notification) : Option Notification :=
  if notification.unread = 0 then none
  else some { notification with unread := notification.unread - 1 }

theorem unread_signalBestEffort (notification : Notification) :
    notification.signalBestEffort.unread = min (notification.unread + 1) notification.capacity := rfl

theorem wait_eq_some {notification next : Notification} : notification.wait = some next ↔
      notification.unread ≠ 0 ∧ next = { notification with unread := notification.unread - 1 } := by
  unfold wait
  split
  · next hzero => simp [hzero]
  · next hsome => simp [hsome, eq_comm]

end Notification

end Nocter.Sync
