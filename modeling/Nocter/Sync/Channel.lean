import Mathlib.Data.List.Basic
import Mathlib.Data.Nat.ModEq
import Nocter.Sync.SharedStorage

/-!
# Bounded channels

The channel keeps its values in a ring of slots. The ring represents the list of
buffered values: enqueueing appends to the list and dequeueing takes its head.
-/

namespace Nocter.Sync

variable {α : Type}

/-- The state that all endpoints of one channel share. -/
structure ChannelState (α : Type) where
  slots : List (Option α)
  head : ℕ
  len : ℕ
  senderCount : ℕ
  receiverCount : ℕ
  deriving DecidableEq

inductive TrySend (α : Type) where
  | sent
  | closed (value : α)
  | full (value : α)

inductive TryReceive (α : Type) where
  | value (value : α)
  | empty
  | closed

namespace ChannelState

def enqueue (capacity : ℕ) (state : ChannelState α) (value : α) : Except Fault (ChannelState α) :=
  if state.len ≥ capacity then .error .abort
  else
    let index := (state.head + state.len) % capacity
    match state.slots[index]? with
    | some none =>
      .ok { state with slots := state.slots.set index (some value), len := state.len + 1 }
    | _ => .error .abort

def dequeue (capacity : ℕ) (state : ChannelState α) : Option α × ChannelState α :=
  if state.len = 0 then (none, state)
  else
    let index := state.head
    (state.slots[index]?.join, { state with
      slots := state.slots.set index none
      head := (state.head + 1) % capacity
      len := state.len - 1 })

/-- The ring holds these values in order and nothing else. -/
structure Buffers (capacity : ℕ) (state : ChannelState α) (values : List α) : Prop where
  size : state.slots.length = capacity
  head_lt : state.head < capacity
  len_eq : state.len = values.length
  len_le : values.length ≤ capacity
  filled : ∀ (i : ℕ) (h : i < values.length),
    state.slots[(state.head + i) % capacity]? = some (some values[i])
  vacant : ∀ i, values.length ≤ i → i < capacity →
    state.slots[(state.head + i) % capacity]? = some none

variable {capacity : ℕ} {state : ChannelState α} {values : List α}

/-- Distinct offsets below the capacity name distinct slots. -/
theorem index_ne (head : ℕ) {i j : ℕ} (hi : i < capacity) (hj : j < capacity) (h : i ≠ j) :
    (head + i) % capacity ≠ (head + j) % capacity := by
  intro hsame
  have hmod : i ≡ j [MOD capacity] := Nat.ModEq.add_left_cancel' head hsame
  exact h (hmod.eq_of_lt_of_lt hi hj)

namespace Buffers

theorem index_lt (h : Buffers capacity state values) (i : ℕ) :
    (state.head + i) % capacity < state.slots.length := by
  rw [h.size]
  exact Nat.mod_lt _ (Nat.lt_of_le_of_lt (Nat.zero_le _) h.head_lt)

/-- A ring with a vacant slot accepts one more value at the end. -/
theorem enqueue (h : Buffers capacity state values) (hroom : values.length < capacity) (value : α) :
    ∃ state', state.enqueue capacity value = .ok state' ∧
      Buffers capacity state' (values ++ [value]) ∧
        state'.senderCount = state.senderCount ∧ state'.receiverCount = state.receiverCount := by
  have hvacant := h.vacant values.length le_rfl hroom
  have hindex := h.index_lt values.length
  rw [ChannelState.enqueue, if_neg (by rw [h.len_eq]; omega), h.len_eq]
  simp only [hvacant]
  refine ⟨_, rfl, ⟨?_, h.head_lt, ?_, ?_, ?_, ?_⟩, rfl, rfl⟩
  · rw [List.length_set, h.size]
  · rw [List.length_append, List.length_singleton]
  · rw [List.length_append, List.length_singleton]
    exact hroom
  · intro i hi
    rw [List.length_append, List.length_singleton] at hi
    by_cases hlast : i = values.length
    · subst hlast
      simp only [List.getElem?_set_self hindex, List.getElem_concat_length]
    · have hother := index_ne state.head hroom (by omega : i < capacity) (Ne.symm hlast)
      simp only [List.getElem?_set_ne hother]
      rw [h.filled i (by omega), List.getElem_append_left (by omega)]
  · intro i hi hlt
    rw [List.length_append, List.length_singleton] at hi
    have hother := index_ne state.head hroom hlt (by omega)
    simp only [List.getElem?_set_ne hother]
    exact h.vacant i (by omega) hlt

theorem dequeue_nil (h : Buffers capacity state []) : state.dequeue capacity = (none, state) := by
  have hlen : state.len = 0 := h.len_eq
  rw [ChannelState.dequeue, if_pos hlen]

/-- A ring with values gives up the first of them. -/
theorem dequeue_cons {value : α} (h : Buffers capacity state (value :: values)) :
    ∃ state', state.dequeue capacity = (some value, state') ∧ Buffers capacity state' values ∧
      state'.senderCount = state.senderCount ∧ state'.receiverCount = state.receiverCount := by
  have hlen := h.len_eq
  have hle := h.len_le
  rw [List.length_cons] at hlen hle
  have hfirst := h.filled 0 (by simp)
  rw [Nat.add_zero, Nat.mod_eq_of_lt h.head_lt, List.getElem_cons_zero] at hfirst
  have hshift : ∀ i, ((state.head + 1) % capacity + i) % capacity =
      (state.head + (i + 1)) % capacity := by
    intro i
    rw [Nat.mod_add_mod]
    congr 1
    omega
  have hother : ∀ i, i + 1 < capacity → state.head ≠ (state.head + (i + 1)) % capacity := by
    intro i hi
    have hne := index_ne state.head (by omega : 0 < capacity) hi (by omega)
    rw [Nat.add_zero, Nat.mod_eq_of_lt h.head_lt] at hne
    exact hne
  have hindex : state.head < state.slots.length := by
    rw [h.size]
    exact h.head_lt
  rw [ChannelState.dequeue, if_neg (by omega)]
  simp only [hfirst]
  refine ⟨_, rfl, ⟨?_, ?_, ?_, ?_, ?_, ?_⟩, rfl, rfl⟩
  · rw [List.length_set, h.size]
  · exact Nat.mod_lt _ (by omega)
  · simp only [hlen, Nat.add_sub_cancel]
  · omega
  · intro i hi
    simp only [hshift, List.getElem?_set_ne (hother i (by omega))]
    have hnext := h.filled (i + 1) (by rw [List.length_cons]; omega)
    rwa [List.getElem_cons_succ] at hnext
  · intro i hi hlt
    simp only [hshift]
    by_cases hlast : i + 1 < capacity
    · rw [List.getElem?_set_ne (hother i hlast)]
      exact h.vacant (i + 1) (by rw [List.length_cons]; omega) hlast
    · have hwrap : (state.head + (i + 1)) % capacity = state.head := by
        rw [show i + 1 = capacity by omega, Nat.add_mod_right, Nat.mod_eq_of_lt h.head_lt]
      rw [hwrap, List.getElem?_set_self hindex]

theorem empty {capacity : ℕ} (h : 0 < capacity) (senderCount receiverCount : ℕ) :
    Buffers capacity (⟨List.replicate capacity none, 0, 0, senderCount, receiverCount⟩ :
      ChannelState α) [] where
  size := List.length_replicate
  head_lt := h
  len_eq := rfl
  len_le := Nat.zero_le _
  filled i hi := absurd hi (Nat.not_lt_zero i)
  vacant i _ hi := by
    rw [Nat.zero_add, Nat.mod_eq_of_lt hi, List.getElem?_replicate, if_pos hi]

/-- The endpoint counts are no part of the ring. -/
theorem recount (h : Buffers capacity state values) (senderCount receiverCount : ℕ) :
    Buffers capacity { state with senderCount, receiverCount } values := { h with }

end Buffers

end ChannelState

/-- The shared state with the two notifications, each a counter of unread signals. -/
structure Channel (α : Type) where
  state : ChannelState α
  readable : ℕ
  writable : ℕ
  deriving DecidableEq

namespace Channel

/-- One sender and one receiver of an empty channel. -/
def bounded (capacity : ℕ) : Except Fault (Channel α) :=
  if capacity = 0 then
    .error (.error "std.sync.invalid_capacity" "channel capacity must be greater than zero")
  else .ok ⟨⟨List.replicate capacity none, 0, 0, 1, 1⟩, 0, 0⟩

def trySend (capacity : ℕ) (channel : Channel α) (value : α) :
    Except Fault (TrySend α × Channel α) :=
  if channel.state.receiverCount = 0 then .ok (.closed value, channel)
  else if channel.state.len = capacity then .ok (.full value, channel)
  else do
    let state ← channel.state.enqueue capacity value
    .ok (.sent, { channel with state, readable := channel.readable + 1 })

def tryReceive (capacity : ℕ) (channel : Channel α) : TryReceive α × Channel α :=
  match channel.state.dequeue capacity with
  | (none, state) =>
    let closed := state.senderCount = 0
    (if closed then .closed else .empty, { channel with state })
  | (some received, state) =>
    (.value received, { channel with state, writable := channel.writable + 1 })

def shareSender (channel : Channel α) : Except Fault (Channel α) :=
  if channel.state.senderCount + 1 < 2 ^ 64 then
    .ok { channel with
      state := { channel.state with senderCount := channel.state.senderCount + 1 } }
  else .error .abort

def shareReceiver (channel : Channel α) : Except Fault (Channel α) :=
  if channel.state.receiverCount + 1 < 2 ^ 64 then
    .ok { channel with
      state := { channel.state with receiverCount := channel.state.receiverCount + 1 } }
  else .error .abort

def dropSender (channel : Channel α) : Except Fault (Channel α) :=
  if channel.state.senderCount = 0 then .error .abort
  else
    let state := { channel.state with senderCount := channel.state.senderCount - 1 }
    let closed := state.senderCount = 0
    .ok { channel with
      state
      readable := if closed then channel.readable + 1 else channel.readable }

def dropReceiver (channel : Channel α) : Except Fault (Channel α) :=
  if channel.state.receiverCount = 0 then .error .abort
  else
    let state := { channel.state with receiverCount := channel.state.receiverCount - 1 }
    let closed := state.receiverCount = 0
    .ok { channel with
      state
      writable := if closed then channel.writable + 1 else channel.writable }

end Channel

end Nocter.Sync
