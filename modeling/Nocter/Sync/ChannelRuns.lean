import Nocter.Library.TransitionSystem
import Nocter.Sync.Channel

/-!
# Runs of a bounded channel

Every endpoint operation is atomic on the one executor thread. A waiting `send`
or `receive` consumes one unread signal and tries again, without a suspension in
between. The world records the values sent and received so far and the calls
that wait.
-/

namespace Nocter.Sync

open TransitionSystem

variable {α : Type}

structure ChannelWorld (α : Type) where
  channel : Channel α
  /-- The values of the `send` calls that wait for a slot. -/
  waitingSend : List α
  /-- The number of `receive` calls that wait for a value. -/
  waitingReceive : ℕ
  sent : List α
  received : List α
  deriving DecidableEq

/-- A waiting call can be resumed or dropped by its position. An operation of an
endpoint or a call that does not exist changes nothing. -/
inductive ChannelOp (α : Type) where
  | trySend (value : α)
  | send (value : α)
  | tryReceive
  | receive
  | wakeSender (position : ℕ)
  | wakeReceiver
  | abandonSender (position : ℕ)
  | abandonReceiver
  | shareSender
  | shareReceiver
  | dropSender
  | dropReceiver

namespace ChannelWorld

/-- One round of the loop of `send`. -/
def send (capacity : ℕ) (world : ChannelWorld α) (value : α) : Except Fault (ChannelWorld α) := do
  let (result, channel) ← world.channel.trySend capacity value
  match result with
  | .sent => .ok { world with channel, sent := world.sent ++ [value] }
  | .closed _ => .ok { world with channel }
  | .full unsent => .ok { world with channel, waitingSend := world.waitingSend ++ [unsent] }

def trySend (capacity : ℕ) (world : ChannelWorld α) (value : α) : Except Fault (ChannelWorld α) := do
  let (result, channel) ← world.channel.trySend capacity value
  match result with
  | .sent => .ok { world with channel, sent := world.sent ++ [value] }
  | _ => .ok { world with channel }

/-- One round of the loop of `receive`. -/
def receive (capacity : ℕ) (world : ChannelWorld α) : ChannelWorld α :=
  match world.channel.tryReceive capacity with
  | (.value received, channel) => { world with channel, received := world.received ++ [received] }
  | (.closed, channel) => { world with channel }
  | (.empty, channel) => { world with channel, waitingReceive := world.waitingReceive + 1 }

def tryReceive (capacity : ℕ) (world : ChannelWorld α) : ChannelWorld α :=
  match world.channel.tryReceive capacity with
  | (.value received, channel) => { world with channel, received := world.received ++ [received] }
  | (_, channel) => { world with channel }

/-- A waiting `send` consumes a signal and leaves the wait. -/
def signalSender (world : ChannelWorld α) (position : ℕ) : ChannelWorld α :=
  { world with
    channel := { world.channel with writable := world.channel.writable - 1 }
    waitingSend := world.waitingSend.eraseIdx position }

/-- A waiting `receive` consumes a signal and leaves the wait. -/
def signalReceiver (world : ChannelWorld α) : ChannelWorld α :=
  { world with
    channel := { world.channel with readable := world.channel.readable - 1 }
    waitingReceive := world.waitingReceive - 1 }

def wakeSender (capacity : ℕ) (world : ChannelWorld α) (position : ℕ) :
    Except Fault (ChannelWorld α) :=
  match world.waitingSend[position]? with
  | none => .ok world
  | some value =>
    if world.channel.writable = 0 then .ok world
    else (world.signalSender position).send capacity value

def wakeReceiver (capacity : ℕ) (world : ChannelWorld α) : ChannelWorld α :=
  if world.waitingReceive = 0 ∨ world.channel.readable = 0 then world
  else world.signalReceiver.receive capacity

/-- A sender borrowed by a waiting call cannot be dropped. -/
def dropSender (world : ChannelWorld α) : Except Fault (ChannelWorld α) :=
  if world.channel.state.senderCount = 0 ∨
      world.channel.state.senderCount = 1 ∧ world.waitingSend ≠ [] then .ok world
  else do
    let channel ← world.channel.dropSender
    .ok { world with channel }

/-- A receiver borrowed by a waiting call cannot be dropped. -/
def dropReceiver (world : ChannelWorld α) : Except Fault (ChannelWorld α) :=
  if world.channel.state.receiverCount = 0 ∨
      world.channel.state.receiverCount = 1 ∧ world.waitingReceive ≠ 0 then .ok world
  else do
    let channel ← world.channel.dropReceiver
    .ok { world with channel }

def step (capacity : ℕ) (world : ChannelWorld α) : ChannelOp α → Except Fault (ChannelWorld α)
  | .trySend value =>
    if world.channel.state.senderCount = 0 then .ok world else world.trySend capacity value
  | .send value =>
    if world.channel.state.senderCount = 0 then .ok world else world.send capacity value
  | .tryReceive =>
    if world.channel.state.receiverCount = 0 then .ok world else .ok (world.tryReceive capacity)
  | .receive =>
    if world.channel.state.receiverCount = 0 then .ok world else .ok (world.receive capacity)
  | .wakeSender position => world.wakeSender capacity position
  | .wakeReceiver => .ok (world.wakeReceiver capacity)
  | .abandonSender position =>
    .ok { world with waitingSend := world.waitingSend.eraseIdx position }
  | .abandonReceiver => .ok { world with waitingReceive := world.waitingReceive - 1 }
  | .shareSender =>
    if world.channel.state.senderCount = 0 then .ok world
    else do
      let channel ← world.channel.shareSender
      .ok { world with channel }
  | .shareReceiver =>
    if world.channel.state.receiverCount = 0 then .ok world
    else do
      let channel ← world.channel.shareReceiver
      .ok { world with channel }
  | .dropSender => world.dropSender
  | .dropReceiver => world.dropReceiver

def Initial (capacity : ℕ) (world : ChannelWorld α) : Prop :=
  ∃ channel, Channel.bounded capacity = .ok channel ∧ world = ⟨channel, [], 0, [], []⟩

def runs (capacity : ℕ) : TransitionSystem (ChannelWorld α) where
  initial := Initial capacity
  next world world' := ∃ op, world.step capacity op = .ok world'

/-- The last endpoint of one side is dropped only while the calls waiting on the
other side find enough unread signals, with the one the drop sends. -/
def Uncrowded (world : ChannelWorld α) : ChannelOp α → Prop
  | .dropSender => world.channel.state.senderCount = 1 →
    world.waitingReceive ≤ world.channel.readable + 1
  | .dropReceiver => world.channel.state.receiverCount = 1 →
    world.waitingSend.length ≤ world.channel.writable + 1
  | _ => True

def uncrowdedRuns (capacity : ℕ) : TransitionSystem (ChannelWorld α) where
  initial := Initial capacity
  next world world' := ∃ op, world.Uncrowded op ∧ world.step capacity op = .ok world'

/-- A waiting call that could go on finds an unread signal. -/
def NoLostWakeup (capacity : ℕ) (world : ChannelWorld α) : Prop :=
  (world.waitingReceive ≠ 0 → world.channel.state.len ≠ 0 ∨ world.channel.state.senderCount = 0 →
    world.channel.readable ≠ 0) ∧
  (world.waitingSend ≠ [] →
    world.channel.state.len < capacity ∨ world.channel.state.receiverCount = 0 →
      world.channel.writable ≠ 0)

/-- The buffered values are the sent ones not yet received, and every one of them
has an unread signal. -/
structure Ordered (capacity : ℕ) (world : ChannelWorld α) (buffered : List α) : Prop where
  buffers : world.channel.state.Buffers capacity buffered
  history : world.sent = world.received ++ buffered
  readable : buffered.length ≤ world.channel.readable

/-- What keeps a waiting call from missing its event. -/
structure Awake (capacity : ℕ) (world : ChannelWorld α) (buffered : List α) : Prop where
  closedReceivers : world.channel.state.senderCount = 0 →
    world.waitingReceive ≤ world.channel.readable
  closedSenders : world.channel.state.receiverCount = 0 →
    world.waitingSend.length ≤ world.channel.writable
  free : world.channel.state.receiverCount ≠ 0 → world.waitingSend ≠ [] →
    capacity ≤ world.channel.writable + buffered.length

variable {capacity : ℕ} {world : ChannelWorld α} {buffered : List α}

theorem Awake.noLostWakeup (h : Ordered capacity world buffered)
    (hawake : Awake capacity world buffered) : world.NoLostWakeup capacity := by
  have hlen := h.buffers.len_eq
  have hreadable := h.readable
  refine ⟨fun hwaiting hready => ?_, fun hwaiting hready => ?_⟩
  · obtain hvalue | hclosed := hready
    · omega
    · have := hawake.closedReceivers hclosed
      omega
  · have hpending : 0 < world.waitingSend.length := List.length_pos_of_ne_nil hwaiting
    by_cases hclosed : world.channel.state.receiverCount = 0
    · have := hawake.closedSenders hclosed
      omega
    · have := hawake.free hclosed hwaiting
      obtain hfree | hgone := hready
      · omega
      · exact absurd hgone hclosed

/-- What an attempt to send does. -/
inductive Sends (capacity : ℕ) (channel : Channel α) (buffered : List α) (value : α) :
    Except Fault (TrySend α × Channel α) → List α → Prop where
  | sent {channel' : Channel α} (hbuffers : channel'.state.Buffers capacity (buffered ++ [value]))
      (hsenders : channel'.state.senderCount = channel.state.senderCount)
      (hreceivers : channel'.state.receiverCount = channel.state.receiverCount)
      (hreadable : channel'.readable = channel.readable + 1)
      (hwritable : channel'.writable = channel.writable)
      (hopen : channel.state.receiverCount ≠ 0) :
      Sends capacity channel buffered value (.ok (.sent, channel')) (buffered ++ [value])
  | closed (hclosed : channel.state.receiverCount = 0) :
      Sends capacity channel buffered value (.ok (.closed value, channel)) buffered
  | full (hfull : buffered.length = capacity) (hopen : channel.state.receiverCount ≠ 0) :
      Sends capacity channel buffered value (.ok (.full value, channel)) buffered

theorem trySend_sends {channel : Channel α} (h : channel.state.Buffers capacity buffered)
    (value : α) : ∃ buffered', Sends capacity channel buffered value
      (channel.trySend capacity value) buffered' := by
  rw [Channel.trySend]
  by_cases hclosed : channel.state.receiverCount = 0
  · rw [if_pos hclosed]
    exact ⟨_, .closed hclosed⟩
  · rw [if_neg hclosed]
    by_cases hfull : channel.state.len = capacity
    · rw [if_pos hfull]
      exact ⟨_, .full (h.len_eq.symm.trans hfull) hclosed⟩
    · rw [if_neg hfull]
      have hroom : buffered.length < capacity := by
        have := h.len_le
        rw [h.len_eq] at hfull
        omega
      obtain ⟨state', henqueue, hbuffers, hsenders, hreceivers⟩ := h.enqueue hroom value
      rw [henqueue]
      exact ⟨_, .sent hbuffers hsenders hreceivers rfl rfl hclosed⟩

/-- What an attempt to receive does. -/
inductive Receives (capacity : ℕ) (channel : Channel α) :
    List α → TryReceive α × Channel α → List α → Prop where
  | value {value : α} {buffered : List α} {channel' : Channel α}
      (hbuffers : channel'.state.Buffers capacity buffered)
      (hsenders : channel'.state.senderCount = channel.state.senderCount)
      (hreceivers : channel'.state.receiverCount = channel.state.receiverCount)
      (hreadable : channel'.readable = channel.readable)
      (hwritable : channel'.writable = channel.writable + 1) :
      Receives capacity channel (value :: buffered) (.value value, channel') buffered
  | closed (hclosed : channel.state.senderCount = 0) :
      Receives capacity channel [] (.closed, channel) []
  | empty (hopen : channel.state.senderCount ≠ 0) :
      Receives capacity channel [] (.empty, channel) []

theorem tryReceive_receives {channel : Channel α} (h : channel.state.Buffers capacity buffered) :
    ∃ buffered', Receives capacity channel buffered (channel.tryReceive capacity) buffered' := by
  rw [Channel.tryReceive]
  cases buffered with
  | nil =>
    rw [h.dequeue_nil]
    by_cases hclosed : channel.state.senderCount = 0
    · simp only [hclosed, if_true]
      exact ⟨_, .closed hclosed⟩
    · simp only [hclosed, if_false]
      exact ⟨_, .empty hclosed⟩
  | cons value buffered =>
    obtain ⟨state', hdequeue, hbuffers, hsenders, hreceivers⟩ := h.dequeue_cons
    rw [hdequeue]
    exact ⟨_, .value hbuffers hsenders hreceivers rfl rfl⟩

/-- The invariant of every run, and of the runs that close uncrowded. -/
structure Valid (capacity : ℕ) (world : ChannelWorld α) (awake : Prop) : Prop where
  ordered : ∃ buffered, Ordered capacity world buffered ∧ (awake → Awake capacity world buffered)

/-- The calls waiting in a world are safe up to one consumed writable signal. -/
structure Signalled (capacity : ℕ) (world : ChannelWorld α) (buffered : List α) : Prop where
  closedReceivers : world.channel.state.senderCount = 0 →
    world.waitingReceive ≤ world.channel.readable
  closedSenders : world.channel.state.receiverCount = 0 →
    world.waitingSend.length ≤ world.channel.writable
  free : world.channel.state.receiverCount ≠ 0 → world.waitingSend ≠ [] →
    capacity ≤ world.channel.writable + buffered.length + 1

theorem Awake.signalled (h : Awake capacity world buffered) : Signalled capacity world buffered where
  closedReceivers := h.closedReceivers
  closedSenders := h.closedSenders
  free hopen hwaiting := by
    have := h.free hopen hwaiting
    omega

/-- The world after a value was enqueued. -/
theorem sent_valid {awake : Prop} {channel : Channel α} {value : α}
    (hbuffers : channel.state.Buffers capacity (buffered ++ [value]))
    (hsenders : channel.state.senderCount = world.channel.state.senderCount)
    (hreceivers : channel.state.receiverCount = world.channel.state.receiverCount)
    (hreadable : channel.readable = world.channel.readable + 1)
    (hwritable : channel.writable = world.channel.writable)
    (hopen : world.channel.state.receiverCount ≠ 0) (hhistory : world.sent = world.received ++ buffered)
    (hsignals : buffered.length ≤ world.channel.readable)
    (hawake : awake → Signalled capacity world buffered) :
    Valid capacity { world with channel, sent := world.sent ++ [value] } awake := by
  refine ⟨_, ⟨hbuffers, ?_, ?_⟩, fun h => ⟨fun hclosed => ?_, fun hclosed => ?_, ?_⟩⟩
  · simp only [hhistory, List.append_assoc]
  · simp only [List.length_append, List.length_singleton]
    omega
  · have := (hawake h).closedReceivers (hsenders ▸ hclosed)
    simp only
    omega
  · exact absurd (hreceivers ▸ hclosed) hopen
  · intro _ hwaiting
    have := (hawake h).free hopen hwaiting
    simp only [List.length_append, List.length_singleton]
    omega

/-- The world after a value was dequeued. -/
theorem received_valid {awake : Prop} {channel : Channel α} {value : α}
    (hbuffers : channel.state.Buffers capacity buffered)
    (hsenders : channel.state.senderCount = world.channel.state.senderCount)
    (hreceivers : channel.state.receiverCount = world.channel.state.receiverCount)
    (hreadable : channel.readable = world.channel.readable)
    (hwritable : channel.writable = world.channel.writable + 1)
    (hhistory : world.sent = world.received ++ value :: buffered)
    (hsignals : buffered.length ≤ world.channel.readable)
    (hawake : awake → Awake capacity world (value :: buffered)) :
    Valid capacity { world with channel, received := world.received ++ [value] } awake := by
  refine ⟨_, ⟨hbuffers, ?_, ?_⟩, fun h => ⟨fun hclosed => ?_, fun hclosed => ?_, ?_⟩⟩
  · simp only [hhistory, List.append_assoc, List.singleton_append]
  · simp only
    omega
  · have := (hawake h).closedReceivers (hsenders ▸ hclosed)
    simp only
    omega
  · have := (hawake h).closedSenders (hreceivers ▸ hclosed)
    simp only
    omega
  · intro hopen hwaiting
    have := (hawake h).free (hreceivers ▸ hopen) hwaiting
    simp only [List.length_cons] at this ⊢
    omega

/-- A send keeps the invariant even when its own signal was just consumed. -/
theorem send_valid {awake : Prop} (hbuffers : world.channel.state.Buffers capacity buffered)
    (hhistory : world.sent = world.received ++ buffered)
    (hsignals : buffered.length ≤ world.channel.readable)
    (hawake : awake → Signalled capacity world buffered) (value : α) :
    ∃ world', world.send capacity value = .ok world' ∧ Valid capacity world' awake := by
  obtain ⟨buffered', hsends⟩ := trySend_sends hbuffers value
  rw [send]
  cases hresult : world.channel.trySend capacity value with
  | error fault =>
    rw [hresult] at hsends
    cases hsends
  | ok result =>
    rw [hresult] at hsends
    cases hsends with
    | sent hbuffers' hsenders hreceivers hreadable hwritable hopen =>
      exact ⟨_, rfl, sent_valid hbuffers' hsenders hreceivers hreadable hwritable hopen hhistory
        hsignals hawake⟩
    | closed hclosed =>
      refine ⟨_, rfl, ⟨buffered, ⟨hbuffers, hhistory, hsignals⟩, fun h => ?_⟩⟩
      exact ⟨(hawake h).closedReceivers, (hawake h).closedSenders, fun hopen => absurd hclosed hopen⟩
    | full hfull hopen =>
      refine ⟨_, rfl, ⟨buffered, ⟨hbuffers, hhistory, hsignals⟩, fun h => ?_⟩⟩
      refine ⟨(hawake h).closedReceivers, fun hclosed => absurd hclosed hopen, fun _ _ => ?_⟩
      omega

/-- An attempt to send keeps the invariant. -/
theorem Valid.trySend {awake : Prop} (h : Valid capacity world awake) (value : α) :
    ∃ world', world.trySend capacity value = .ok world' ∧ Valid capacity world' awake := by
  obtain ⟨buffered, hordered, hawake⟩ := h
  obtain ⟨buffered', hsends⟩ := trySend_sends hordered.buffers value
  rw [ChannelWorld.trySend]
  cases hresult : world.channel.trySend capacity value with
  | error fault =>
    rw [hresult] at hsends
    cases hsends
  | ok result =>
    rw [hresult] at hsends
    cases hsends with
    | sent hbuffers' hsenders hreceivers hreadable hwritable hopen =>
      exact ⟨_, rfl, sent_valid hbuffers' hsenders hreceivers hreadable hwritable hopen
        hordered.history hordered.readable fun h => (hawake h).signalled⟩
    | closed => exact ⟨_, rfl, ⟨buffered, hordered, hawake⟩⟩
    | full => exact ⟨_, rfl, ⟨buffered, hordered, hawake⟩⟩

/-- A receive keeps the invariant even when its own signal was just consumed. -/
theorem receive_valid {awake : Prop} (hbuffers : world.channel.state.Buffers capacity buffered)
    (hhistory : world.sent = world.received ++ buffered)
    (hsignals : buffered.length ≤ world.channel.readable + 1)
    (hawake : awake → Awake capacity world buffered) :
    Valid capacity (world.receive capacity) awake := by
  obtain ⟨buffered', hreceives⟩ := tryReceive_receives hbuffers
  rw [receive]
  generalize world.channel.tryReceive capacity = result at hreceives
  cases hreceives with
  | value hbuffers' hsenders hreceivers hreadable hwritable =>
    exact received_valid hbuffers' hsenders hreceivers hreadable hwritable hhistory
      (Nat.le_of_succ_le_succ hsignals) hawake
  | closed hclosed => exact ⟨_, ⟨hbuffers, hhistory, Nat.zero_le _⟩, hawake⟩
  | empty hopen =>
    refine ⟨_, ⟨hbuffers, hhistory, Nat.zero_le _⟩, fun h => ?_⟩
    exact ⟨fun hclosed => absurd hclosed hopen, (hawake h).closedSenders, (hawake h).free⟩

theorem Valid.tryReceive {awake : Prop} (h : Valid capacity world awake) :
    Valid capacity (world.tryReceive capacity) awake := by
  obtain ⟨buffered, hordered, hawake⟩ := h
  obtain ⟨buffered', hreceives⟩ := tryReceive_receives hordered.buffers
  rw [ChannelWorld.tryReceive]
  have hhistory := hordered.history
  have hsignals := hordered.readable
  generalize world.channel.tryReceive capacity = result at hreceives
  cases hreceives with
  | value hbuffers' hsenders hreceivers hreadable hwritable =>
    exact received_valid hbuffers' hsenders hreceivers hreadable hwritable hhistory
      (Nat.le_of_succ_le hsignals) hawake
  | closed => exact ⟨_, hordered, hawake⟩
  | empty => exact ⟨_, hordered, hawake⟩

theorem Valid.wakeSender {awake : Prop} (h : Valid capacity world awake) (position : ℕ) :
    ∃ world', world.wakeSender capacity position = .ok world' ∧ Valid capacity world' awake := by
  rw [ChannelWorld.wakeSender]
  cases hvalue : world.waitingSend[position]? with
  | none => exact ⟨world, rfl, h⟩
  | some value =>
    by_cases hnone : world.channel.writable = 0
    · simp only [hnone, if_true]
      exact ⟨world, rfl, h⟩
    · obtain ⟨buffered, hordered, hawake⟩ := h
      simp only [hnone, if_false]
      have hposition : position < world.waitingSend.length :=
        (List.getElem?_eq_some_iff.mp hvalue).1
      have hbuffers : (world.signalSender position).channel.state.Buffers capacity buffered :=
        hordered.buffers
      refine send_valid hbuffers hordered.history hordered.readable (fun h => ?_) value
      refine ⟨(hawake h).closedReceivers, fun hclosed => ?_, fun hopen _ => ?_⟩
      · have := (hawake h).closedSenders hclosed
        simp only [signalSender, List.length_eraseIdx_of_lt hposition]
        omega
      · have := (hawake h).free hopen (List.ne_nil_of_length_pos (by omega))
        simp only [signalSender]
        omega

theorem Valid.wakeReceiver {awake : Prop} (h : Valid capacity world awake) :
    Valid capacity (world.wakeReceiver capacity) awake := by
  rw [ChannelWorld.wakeReceiver]
  by_cases hnone : world.waitingReceive = 0 ∨ world.channel.readable = 0
  · rw [if_pos hnone]
    exact h
  · obtain ⟨buffered, hordered, hawake⟩ := h
    rw [if_neg hnone]
    have hsignals := hordered.readable
    refine receive_valid hordered.buffers hordered.history ?_ fun h => ?_
    · simp only [signalReceiver]
      omega
    · refine ⟨fun hclosed => ?_, (hawake h).closedSenders, (hawake h).free⟩
      have := (hawake h).closedReceivers hclosed
      simp only [signalReceiver]
      omega

theorem Valid.abandonSender {awake : Prop} (h : Valid capacity world awake) (position : ℕ) :
    Valid capacity { world with waitingSend := world.waitingSend.eraseIdx position } awake := by
  obtain ⟨buffered, hordered, hawake⟩ := h
  refine ⟨buffered, ⟨hordered.buffers, hordered.history, hordered.readable⟩, fun h => ?_⟩
  refine ⟨(hawake h).closedReceivers, fun hclosed => ?_, fun hopen hwaiting => ?_⟩
  · exact (List.length_eraseIdx_le _ _).trans ((hawake h).closedSenders hclosed)
  · refine (hawake h).free hopen fun hnil => hwaiting ?_
    rw [hnil]
    rfl

theorem Valid.abandonReceiver {awake : Prop} (h : Valid capacity world awake) :
    Valid capacity { world with waitingReceive := world.waitingReceive - 1 } awake := by
  obtain ⟨buffered, hordered, hawake⟩ := h
  refine ⟨buffered, ⟨hordered.buffers, hordered.history, hordered.readable⟩, fun h => ?_⟩
  refine ⟨fun hclosed => ?_, (hawake h).closedSenders, (hawake h).free⟩
  exact (Nat.sub_le _ _).trans ((hawake h).closedReceivers hclosed)

/-- Changing the endpoint counts and adding signals, where the last endpoint of a
side leaves enough of them. -/
theorem Valid.recount {awake : Prop} (h : Valid capacity world awake) (senderCount receiverCount : ℕ)
    {readable writable : ℕ} (hreadable : world.channel.readable ≤ readable)
    (hwritable : world.channel.writable ≤ writable)
    (hsenders : awake → senderCount = 0 → world.channel.state.senderCount = 0 ∨
      world.waitingReceive ≤ readable)
    (hreceivers : awake → receiverCount = 0 → world.channel.state.receiverCount = 0 ∨
      world.waitingSend.length ≤ writable)
    (hclosed : receiverCount ≠ 0 → world.channel.state.receiverCount ≠ 0) :
    Valid capacity { world with
      channel := ⟨{ world.channel.state with senderCount, receiverCount }, readable, writable⟩ }
      awake := by
  obtain ⟨buffered, hordered, hawake⟩ := h
  have hsignals := hordered.readable
  refine ⟨buffered, ⟨hordered.buffers.recount _ _, hordered.history, by simp only; omega⟩, fun h => ?_⟩
  refine ⟨fun hzero => ?_, fun hzero => ?_, fun hopen hwaiting => ?_⟩
  · obtain hbefore | henough := hsenders h hzero
    · exact ((hawake h).closedReceivers hbefore).trans hreadable
    · exact henough
  · obtain hbefore | henough := hreceivers h hzero
    · exact ((hawake h).closedSenders hbefore).trans hwritable
    · exact henough
  · have := (hawake h).free (hclosed hopen) hwaiting
    simp only
    omega

/-- One operation keeps the invariant; the closing drops need their condition
for the waiting calls. -/
theorem Valid.step {awake : Prop} {world' : ChannelWorld α} {op : ChannelOp α}
    (h : Valid capacity world awake) (huncrowded : awake → world.Uncrowded op)
    (hstep : world.step capacity op = .ok world') : Valid capacity world' awake := by
  cases op with
  | trySend value =>
    rw [ChannelWorld.step] at hstep
    split at hstep
    · cases hstep
      exact h
    · obtain ⟨after, hafter, hvalid⟩ := h.trySend value
      rw [hafter] at hstep
      cases hstep
      exact hvalid
  | send value =>
    rw [ChannelWorld.step] at hstep
    split at hstep
    · cases hstep
      exact h
    · obtain ⟨buffered, hordered, hawake⟩ := h
      obtain ⟨after, hafter, hvalid⟩ := send_valid hordered.buffers hordered.history
        hordered.readable (fun h => (hawake h).signalled) value
      rw [hafter] at hstep
      cases hstep
      exact hvalid
  | tryReceive =>
    rw [ChannelWorld.step] at hstep
    split at hstep
    · cases hstep
      exact h
    · cases hstep
      exact h.tryReceive
  | receive =>
    rw [ChannelWorld.step] at hstep
    split at hstep
    · cases hstep
      exact h
    · cases hstep
      obtain ⟨buffered, hordered, hawake⟩ := h
      exact receive_valid hordered.buffers hordered.history (Nat.le_succ_of_le hordered.readable)
        hawake
  | wakeSender position =>
    obtain ⟨after, hafter, hvalid⟩ := h.wakeSender position
    rw [ChannelWorld.step, hafter] at hstep
    cases hstep
    exact hvalid
  | wakeReceiver =>
    cases hstep
    exact h.wakeReceiver
  | abandonSender position =>
    cases hstep
    exact h.abandonSender position
  | abandonReceiver =>
    cases hstep
    exact h.abandonReceiver
  | shareSender =>
    rw [ChannelWorld.step] at hstep
    split at hstep
    · cases hstep
      exact h
    · rw [Channel.shareSender] at hstep
      split at hstep
      · cases hstep
        exact h.recount _ _ le_rfl le_rfl (fun _ hzero => by omega) (fun _ hzero => .inl hzero) id
      · cases hstep
  | shareReceiver =>
    rw [ChannelWorld.step] at hstep
    split at hstep
    · cases hstep
      exact h
    case isFalse hopen =>
      rw [Channel.shareReceiver] at hstep
      split at hstep
      · cases hstep
        exact h.recount _ _ le_rfl le_rfl (fun _ hzero => .inl hzero) (fun _ hzero => by omega)
          fun _ => hopen
      · cases hstep
  | dropSender =>
    rw [ChannelWorld.step, ChannelWorld.dropSender] at hstep
    split at hstep
    · cases hstep
      exact h
    case isFalse hopen =>
      rw [not_or] at hopen
      rw [Channel.dropSender, if_neg hopen.1] at hstep
      cases hstep
      refine h.recount _ _ ?_ le_rfl (fun hawake hzero => .inr ?_) (fun _ hzero => .inl hzero) id
      · split <;> omega
      · rw [if_pos hzero]
        exact huncrowded hawake (by omega)
  | dropReceiver =>
    rw [ChannelWorld.step, ChannelWorld.dropReceiver] at hstep
    split at hstep
    · cases hstep
      exact h
    case isFalse hopen =>
      rw [not_or] at hopen
      rw [Channel.dropReceiver, if_neg hopen.1] at hstep
      cases hstep
      refine h.recount _ _ le_rfl ?_ (fun _ hzero => .inl hzero) (fun hawake hzero => .inr ?_)
        fun _ => hopen.1
      · split <;> omega
      · rw [if_pos hzero]
        exact huncrowded hawake (by omega)

theorem Initial.valid {awake : Prop} (h : Initial capacity world) : Valid capacity world awake := by
  obtain ⟨channel, hbounded, rfl⟩ := h
  rw [Channel.bounded] at hbounded
  split at hbounded
  · cases hbounded
  case isFalse hpositive =>
    cases hbounded
    refine ⟨[], ⟨.empty (Nat.pos_of_ne_zero hpositive) 1 1, rfl, le_rfl⟩, fun _ => ?_⟩
    exact ⟨fun _ => le_rfl, fun _ => le_rfl, fun _ hwaiting => absurd rfl hwaiting⟩

theorem valid_of_reachable (h : (runs capacity).Reachable world) : Valid capacity world False := by
  refine h.invariant (P := fun world => Valid capacity world False)
    (fun _ (hinitial : Initial capacity _) => hinitial.valid) ?_
  rintro before after hbefore ⟨op, hstep⟩
  exact hbefore.step False.elim hstep

theorem valid_of_uncrowded (h : (uncrowdedRuns capacity).Reachable world) :
    Valid capacity world True := by
  refine h.invariant (P := fun world => Valid capacity world True)
    (fun _ (hinitial : Initial capacity _) => hinitial.valid) ?_
  rintro before after hbefore ⟨op, huncrowded, hstep⟩
  exact hbefore.step (fun _ => huncrowded) hstep

/-- In every run the values leave in the order they were sent, each once, and at
most the capacity is buffered; in every run whose closing drops are uncrowded no
wakeup is lost. -/
theorem bounded_channel_exact (h : (runs capacity).Reachable world) :
    (∃ buffered, world.channel.state.Buffers capacity buffered ∧
        world.sent = world.received ++ buffered ∧ buffered.length ≤ capacity) ∧
      ((uncrowdedRuns capacity).Reachable world → world.NoLostWakeup capacity) := by
  constructor
  · obtain ⟨buffered, hordered, _⟩ := (valid_of_reachable h).ordered
    exact ⟨buffered, hordered.buffers, hordered.history, hordered.buffers.len_le⟩
  · intro huncrowded
    obtain ⟨buffered, hordered, hawake⟩ := (valid_of_uncrowded huncrowded).ordered
    exact (hawake trivial).noLostWakeup hordered

/-- Running operations from a new channel reaches a world. -/
theorem reachable_of_run {world₀ : ChannelWorld α} (ops : List (ChannelOp α))
    (h₀ : Initial capacity world₀) (h : ops.foldlM (step capacity) world₀ = .ok world) :
    (runs capacity).Reachable world := by
  obtain ⟨start, rfl, hsteps⟩ := reachable_foldlM h
  exact ⟨_, h₀, hsteps⟩

/-- After a call waited for a value and received it. -/
def awaitedValue : ChannelWorld ℕ := ⟨⟨⟨[none], 0, 0, 1, 1⟩, 0, 1⟩, [], 0, [5], [5]⟩

theorem awaitedValue_exact :
    (∃ buffered, awaitedValue.channel.state.Buffers 1 buffered ∧
        awaitedValue.sent = awaitedValue.received ++ buffered ∧ buffered.length ≤ 1) ∧
      ((uncrowdedRuns 1).Reachable awaitedValue → awaitedValue.NoLostWakeup 1) := by
  have hreach : (runs 1).Reachable awaitedValue :=
    reachable_of_run [.receive, .send 5, .wakeReceiver] ⟨_, rfl, rfl⟩ rfl
  exact bounded_channel_exact hreach

/-- Two calls wait, the last sender leaves one signal, and the first call takes it. -/
theorem closing_signal_lost : ¬ ∀ (capacity : ℕ) (world : ChannelWorld Unit),
    (runs capacity).Reachable world → world.NoLostWakeup capacity := by
  intro hall
  have hreach : (runs 1).Reachable (⟨⟨⟨[none], 0, 0, 0, 1⟩, 0, 0⟩, [], 1, [], []⟩ :
      ChannelWorld Unit) :=
    reachable_of_run [.receive, .receive, .dropSender, .wakeReceiver] ⟨_, rfl, rfl⟩ rfl
  exact (hall 1 _ hreach).1 (by decide) (.inr rfl) rfl

end ChannelWorld

end Nocter.Sync
