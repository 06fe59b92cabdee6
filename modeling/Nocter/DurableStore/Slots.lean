import Nocter.DurableStore.SlotIndexFacts
import Nocter.DurableStore.State
import Nocter.Library.LinkedOrder

/-!
# The slots of the store state

The entries lie in the slots of a vector. The occupied slots are linked in insertion order, the
free ones are a list of their own, and the hash index maps keys to slots. A result of `none`
stands for an index outside the slots, a wrapped counter or an invariant abort.
-/

namespace Nocter.DurableStore

structure StoreSlot where
  entry : StoreEntry
  previous : Option ℕ
  next : Option ℕ
  freeNext : Option ℕ
  occupied : Bool
  deriving DecidableEq

def emptyStoreEntry : StoreEntry := ⟨[], []⟩

/-- The `StoreState` of the source. -/
structure SlotState where
  slots : List StoreSlot
  index : StoreIndex
  first : Option ℕ
  last : Option ℕ
  free : Option ℕ
  len : ℕ

/-- `new_store_state`. -/
def newSlotState (capacity : ℕ) : Option SlotState := do
  let index ← newStoreIndex capacity
  some ⟨[], index, none, none, none, 0⟩

namespace SlotState

variable (hasher : Bytes → ℕ)

/-- A write through `state.slots[index]`. -/
def modifySlot (state : SlotState) (index : ℕ) (f : StoreSlot → StoreSlot) : Option SlotState :=
  if index < state.slots.length then some { state with slots := state.slots.modify index f }
  else none

/-- The test of a candidate in `find_store_slot`. -/
def holdsKey (slots : List StoreSlot) (key : Bytes) (candidate : ℕ) : Bool :=
  match slots[candidate]? with
  | none => false
  | some slot => slot.occupied && slot.entry.key = key

/-- `find_store_slot`. -/
def findSlot (state : SlotState) (key : Bytes) : Option (Option ℕ) := do
  let candidates ← state.index.candidates (hasher key)
  some (candidates.bind fun slots => slots.find? (holdsKey state.slots key))

/-- `store_state_contains`. -/
def contains (state : SlotState) (key : Bytes) : Option Bool := do
  let slot ← state.findSlot hasher key
  some slot.isSome

/-- `link_store_slot`. -/
def linkSlot (state : SlotState) (slotIndex : ℕ) : Option SlotState := do
  let previous := state.last
  let state ← state.modifySlot slotIndex fun slot => { slot with previous, next := none }
  match previous with
  | none => some { state with first := some slotIndex, last := some slotIndex }
  | some previousIndex => do
    let state ← state.modifySlot previousIndex fun slot => { slot with next := some slotIndex }
    some { state with last := some slotIndex }

/-- `occupy_reusable_store_slot`. -/
def occupySlot (state : SlotState) (slotIndex : ℕ) (entry : StoreEntry) : Option SlotState := do
  let slot ← state.slots[slotIndex]?
  let state ← { state with free := slot.freeNext }.modifySlot slotIndex fun slot =>
    { slot with entry, freeNext := none, occupied := true }
  state.linkSlot slotIndex

/-- `append_store_slot`. -/
def appendSlot (state : SlotState) (entry : StoreEntry) : Option (ℕ × SlotState) := do
  let slotIndex := state.slots.length
  let appended := state.slots ++ [⟨entry, none, none, none, true⟩]
  let state ← { state with slots := appended }.linkSlot slotIndex
  some (slotIndex, state)

/-- The slot that a new entry takes. -/
def takeSlot (state : SlotState) (entry : StoreEntry) : Option (ℕ × SlotState) :=
  match state.free with
  | none => state.appendSlot entry
  | some slotIndex => do
    let state ← state.occupySlot slotIndex entry
    some (slotIndex, state)

/-- `insert_store_entry`. -/
def insert (state : SlotState) (entry : StoreEntry) : Option (Bool × SlotState) := do
  let present ← state.contains hasher entry.key
  if present then some (false, state)
  else do
    let (slotIndex, state) ← state.takeSlot entry
    let (added, index) ← state.index.add (hasher entry.key) slotIndex
    if added then some (true, { state with index, len := state.len + 1 }) else none

/-- `replace_store_value`. -/
def replace (state : SlotState) (key value : Bytes) : Option (Option Bytes × SlotState) := do
  match ← state.findSlot hasher key with
  | none => some (none, state)
  | some slotIndex => do
    let slot ← state.slots[slotIndex]?
    let state ← state.modifySlot slotIndex fun slot =>
      { slot with entry := { slot.entry with value } }
    some (some slot.entry.value, state)

/-- The first half of `unlink_store_slot`. -/
def unlinkBefore (state : SlotState) (slot : StoreSlot) : Option SlotState :=
  match slot.previous with
  | none => some { state with first := slot.next }
  | some previousIndex =>
    state.modifySlot previousIndex fun previous => { previous with next := slot.next }

/-- `unlink_store_slot`. -/
def unlinkSlot (state : SlotState) (slotIndex : ℕ) : Option SlotState := do
  let slot ← state.slots[slotIndex]?
  let state ← state.unlinkBefore slot
  match slot.next with
  | none => some { state with last := slot.previous }
  | some nextIndex =>
    state.modifySlot nextIndex fun next => { next with previous := slot.previous }

/-- `remove_store_entry`. -/
def remove (state : SlotState) (key : Bytes) : Option (Option StoreEntry × SlotState) := do
  match ← state.findSlot hasher key with
  | none => some (none, state)
  | some slotIndex => do
    let (removed, index) ← state.index.remove (hasher key) slotIndex
    if removed then do
      let state ← { state with index }.unlinkSlot slotIndex
      let slot ← state.slots[slotIndex]?
      let state ← state.modifySlot slotIndex fun _ =>
        ⟨emptyStoreEntry, none, none, state.free, false⟩
      let len ← checkedSub state.len 1
      some (some slot.entry, { state with free := some slotIndex, len })
    else none

/-- `store_state_value`. -/
def value (state : SlotState) (key : Bytes) : Option (Option Bytes) := do
  match ← state.findSlot hasher key with
  | none => some none
  | some slotIndex => do
    let slot ← state.slots[slotIndex]?
    some (some slot.entry.value)

/-- `store_state_next_slot`. -/
def nextSlot (state : SlotState) (slotIndex : ℕ) : Option ℕ :=
  match state.slots[slotIndex]? with
  | none => none
  | some slot => if slot.occupied then slot.next else none

/-- `store_state_entry_at`. -/
def entryAt (state : SlotState) (slotIndex : ℕ) : Option StoreEntry :=
  match state.slots[slotIndex]? with
  | none => none
  | some slot => if slot.occupied then some slot.entry else none

end SlotState

structure StoreEntries where
  nextSlot : Option ℕ
  remaining : ℕ

namespace StoreEntries

/-- `store_entries`. -/
def new (state : SlotState) : StoreEntries := ⟨state.first, state.len⟩

def next (state : SlotState) (entries : StoreEntries) :
    Option (Option StoreEntry × StoreEntries) :=
  match entries.nextSlot with
  | none => some (none, entries)
  | some slotIndex => do
    let remaining ← checkedSub entries.remaining 1
    let entry ← state.entryAt slotIndex
    some (some entry, ⟨state.nextSlot slotIndex, remaining⟩)

/-- The entries that so many calls of `next` yield before the end. -/
def collect (state : SlotState) : ℕ → StoreEntries → Option (List StoreEntry)
  | 0, _ => none
  | calls + 1, entries => do
    let (entry, entries) ← entries.next state
    match entry with
    | none => some []
    | some entry => do
      let rest ← collect state calls entries
      some (entry :: rest)

end StoreEntries

end Nocter.DurableStore

/-!
# What the slots hold

The occupied slots in their linked order hold the entries of the abstract state, all other slots
are in the free list, and the index has every occupied slot under the hash of its key.
-/

namespace Nocter.DurableStore

open Chained

section Fields

variable {β : Type} {slots : List StoreSlot}

/-- A field of the slots as a function of the slot number. -/
def fieldOf (field : StoreSlot → Option β) (slots : List StoreSlot) (index : ℕ) : Option β :=
  slots[index]?.bind field

def nextOf (slots : List StoreSlot) : ℕ → Option ℕ := fieldOf StoreSlot.next slots

def previousOf (slots : List StoreSlot) : ℕ → Option ℕ := fieldOf StoreSlot.previous slots

def freeNextOf (slots : List StoreSlot) : ℕ → Option ℕ := fieldOf StoreSlot.freeNext slots

def entryOf (slots : List StoreSlot) : ℕ → Option StoreEntry :=
  fieldOf (fun slot => some slot.entry) slots

def occupiedOf (slots : List StoreSlot) : ℕ → Option Bool :=
  fieldOf (fun slot => some slot.occupied) slots

theorem fieldOf_modify {index : ℕ} {slot : StoreSlot} (h : slots[index]? = some slot)
    (field : StoreSlot → Option β) (f : StoreSlot → StoreSlot) :
    fieldOf field (slots.modify index f) =
      Function.update (fieldOf field slots) index (field (f slot)) := by
  funext other
  rw [fieldOf, List.getElem?_modify]
  by_cases hsame : index = other
  · subst hsame
    rw [h, Function.update_self]
    simp
  · rw [Function.update_of_ne (Ne.symm hsame), fieldOf]
    cases slots[other]? with
    | none => rfl
    | some value => simp [hsame]

theorem fieldOf_modify_same {field : StoreSlot → Option β} {f : StoreSlot → StoreSlot}
    (h : ∀ slot, field (f slot) = field slot) (index : ℕ) :
    fieldOf field (slots.modify index f) = fieldOf field slots := by
  funext other
  rw [fieldOf, List.getElem?_modify, fieldOf]
  cases slots[other]? with
  | none => rfl
  | some slot =>
    simp only [Option.map_eq_map, Option.map_some, Option.bind_some]
    split_ifs
    · exact h slot
    · rfl

theorem fieldOf_append_old (field : StoreSlot → Option β) (slot : StoreSlot) {index : ℕ}
    (h : index < slots.length) : fieldOf field (slots ++ [slot]) index = fieldOf field slots index := by
  rw [fieldOf, List.getElem?_append_left h, fieldOf]

theorem fieldOf_append_new (field : StoreSlot → Option β) (slot : StoreSlot) :
    fieldOf field (slots ++ [slot]) slots.length = field slot := by
  rw [fieldOf, List.getElem?_concat_length, Option.bind_some]

end Fields

namespace SlotState

/-- The slots in `order` are linked both ways, those in `free` are a list of their own, and those
in `loose` are neither. -/
structure Linked (state : SlotState) (order free loose : List ℕ) : Prop where
  partition : (order ++ (free ++ loose)).Perm (List.range state.slots.length)
  first_eq : state.first = order.head?
  last_eq : state.last = order.getLast?
  free_eq : state.free = free.head?
  forward : Chained (nextOf state.slots) order
  backward : Chained (previousOf state.slots) order.reverse
  freeLinks : Chained (freeNextOf state.slots) free
  occupied : ∀ slot ∈ order, occupiedOf state.slots slot = some true
  vacant : ∀ slot ∈ free, occupiedOf state.slots slot = some false

/-- The slots hold the entries of the state: `order` are the occupied slots in insertion order
and `free` the others. -/
structure Represents (hasher : Bytes → ℕ) (state : SlotState) (order free : List ℕ)
    (model : StoreState) : Prop extends Linked state order free [] where
  len_eq : state.len = order.length
  entries_eq : order.map (entryOf state.slots) = model.entries.map some
  valid : state.index.Valid
  indexed : ∀ hash slot, state.index.Live hash slot ↔
    slot ∈ order ∧ ∃ entry, entryOf state.slots slot = some entry ∧ hasher entry.key = hash

namespace Linked

variable {state : SlotState} {order free loose : List ℕ}

theorem nodup (h : Linked state order free loose) : (order ++ (free ++ loose)).Nodup :=
  h.partition.nodup_iff.mpr List.nodup_range

theorem order_nodup (h : Linked state order free loose) : order.Nodup :=
  (List.nodup_append.mp h.nodup).1

theorem lt_of_mem (h : Linked state order free loose) {slot : ℕ}
    (hmem : slot ∈ order ++ (free ++ loose)) : slot < state.slots.length :=
  List.mem_range.mp (h.partition.mem_iff.mp hmem)

theorem slot_of_mem (h : Linked state order free loose) {slot : ℕ} (hmem : slot ∈ order) :
    ∃ value, state.slots[slot]? = some value ∧ value.occupied = true := by
  have hlt := h.lt_of_mem (List.mem_append_left _ hmem)
  have hoccupied := h.occupied slot hmem
  rw [occupiedOf, fieldOf, List.getElem?_eq_getElem hlt] at hoccupied
  exact ⟨_, List.getElem?_eq_getElem hlt, Option.some.inj hoccupied⟩

theorem mem_of_occupied (h : Linked state order free []) {slot : ℕ} {value : StoreSlot}
    (hslot : state.slots[slot]? = some value) (hoccupied : value.occupied = true) :
    slot ∈ order := by
  have hlt := (List.getElem?_eq_some_iff.mp hslot).1
  have hmem := h.partition.mem_iff.mpr (List.mem_range.mpr hlt)
  rw [List.append_nil, List.mem_append] at hmem
  refine hmem.resolve_right fun hfree => ?_
  have hvacant := h.vacant slot hfree
  rw [occupiedOf, fieldOf, hslot, Option.bind_some, hoccupied] at hvacant
  cases hvacant

end Linked

theorem newSlotState_represents (hasher : Bytes → ℕ) (index : StoreIndex)
    (hvalid : index.Valid) (hlive : ∀ hash slot, ¬index.Live hash slot) :
    Represents hasher ⟨[], index, none, none, none, 0⟩ [] [] StoreState.new where
  partition := List.Perm.refl _
  first_eq := rfl
  last_eq := rfl
  free_eq := rfl
  len_eq := rfl
  forward := trivial
  backward := trivial
  freeLinks := trivial
  occupied _ hslot := absurd hslot List.not_mem_nil
  vacant _ hslot := absurd hslot List.not_mem_nil
  entries_eq := rfl
  valid := hvalid
  indexed hash slot := iff_of_false (hlive hash slot) fun h => absurd h.1 List.not_mem_nil

namespace Represents

variable {hasher : Bytes → ℕ} {state : SlotState} {order free : List ℕ} {model : StoreState}

theorem mem_entries (h : Represents hasher state order free model) {entry : StoreEntry} :
    entry ∈ model.entries ↔ ∃ slot ∈ order, entryOf state.slots slot = some entry := by
  have hmem : some entry ∈ order.map (entryOf state.slots) ↔ entry ∈ model.entries := by
    rw [h.entries_eq, List.mem_map_of_injective (Option.some_injective _)]
  rw [← hmem, List.mem_map]

/-- A key lies in one slot only. -/
theorem slot_unique (h : Represents hasher state order free model) {slot other : ℕ}
    {entry entry' : StoreEntry} (hslot : slot ∈ order) (hother : other ∈ order)
    (hentry : entryOf state.slots slot = some entry)
    (hentry' : entryOf state.slots other = some entry') (hkey : entry.key = entry'.key) :
    slot = other := by
  have hkeys : (order.map fun slot => (entryOf state.slots slot).map StoreEntry.key).Nodup := by
    have hmap : order.map (fun slot => (entryOf state.slots slot).map StoreEntry.key) =
        (model.entries.map StoreEntry.key).map some := by
      calc order.map (fun slot => (entryOf state.slots slot).map StoreEntry.key)
          = (order.map (entryOf state.slots)).map (Option.map StoreEntry.key) := by
            rw [List.map_map]
            rfl
        _ = (model.entries.map StoreEntry.key).map some := by
            rw [h.entries_eq, List.map_map, List.map_map]
            rfl
    rw [hmap]
    exact model.distinct.map (Option.some_injective _)
  refine List.inj_on_of_nodup_map hkeys hslot hother ?_
  rw [hentry, hentry', Option.map_some, Option.map_some, hkey]

/-- A key is found in the slot of its entry. -/
theorem findSlot (h : Represents hasher state order free model) (key : Bytes) :
    (state.findSlot hasher key = some none ∧ model.value key = none) ∨
      ∃ slot value, state.findSlot hasher key = some (some slot) ∧ slot ∈ order ∧
        entryOf state.slots slot = some ⟨key, value⟩ ∧ model.value key = some value := by
  have habsent : (∀ slot ∈ order, ∀ value, entryOf state.slots slot ≠ some ⟨key, value⟩) →
      model.value key = none := by
    intro hnone
    rw [StoreState.value_eq_none_iff]
    intro hmem
    obtain ⟨⟨_, value⟩, hentry, rfl⟩ := List.mem_map.mp hmem
    obtain ⟨slot, hslot, hat⟩ := h.mem_entries.mp hentry
    exact hnone slot hslot value hat
  rcases h.valid.candidates (hasher key) with ⟨hcandidates, hnone⟩ | ⟨slots, hcandidates, -, -, hlive⟩
  · left
    refine ⟨?_, habsent fun slot hslot value hentry => hnone slot ?_⟩
    · simp only [SlotState.findSlot, hcandidates, Option.bind_eq_bind, Option.bind_some,
        Option.bind_none]
    · rw [h.indexed]
      exact ⟨hslot, _, hentry, rfl⟩
  · have hfind : state.findSlot hasher key = some (slots.find? (holdsKey state.slots key)) := by
      simp only [SlotState.findSlot, hcandidates, Option.bind_eq_bind, Option.bind_some]
    cases hslot : slots.find? (holdsKey state.slots key) with
    | none =>
      left
      refine ⟨by rw [hfind, hslot], habsent fun slot hmem value hentry => ?_⟩
      have hcandidate : slot ∈ slots := by
        rw [hlive, h.indexed]
        exact ⟨hmem, _, hentry, rfl⟩
      obtain ⟨held, hheld, hoccupied⟩ := h.slot_of_mem hmem
      have htest := List.find?_eq_none.mp hslot slot hcandidate
      rw [entryOf, fieldOf, hheld, Option.bind_some] at hentry
      rw [holdsKey, hheld] at htest
      dsimp only at htest
      rw [hoccupied, Option.some.inj hentry] at htest
      simp at htest
    | some slot =>
      right
      have htest := List.find?_some hslot
      rw [holdsKey] at htest
      cases hheld : state.slots[slot]? with
      | none =>
        rw [hheld] at htest
        cases htest
      | some held =>
        rw [hheld] at htest
        dsimp only at htest
        rw [Bool.and_eq_true, decide_eq_true_eq] at htest
        obtain ⟨hoccupied, hkey⟩ := htest
        have hmem := h.mem_of_occupied hheld hoccupied
        have hentry : entryOf state.slots slot = some ⟨key, held.entry.value⟩ := by
          rw [entryOf, fieldOf, hheld, Option.bind_some, ← hkey]
        refine ⟨slot, held.entry.value, by rw [hfind, hslot], hmem, hentry, ?_⟩
        rw [StoreState.value_eq_some_iff]
        exact h.mem_entries.mpr ⟨slot, hmem, hentry⟩

theorem contains (h : Represents hasher state order free model) (key : Bytes) :
    state.contains hasher key = some (model.value key).isSome := by
  rcases h.findSlot key with ⟨hfind, hvalue⟩ | ⟨slot, value, hfind, -, -, hvalue⟩
  · simp only [SlotState.contains, hfind, Option.bind_eq_bind, Option.bind_some, hvalue,
    Option.isSome_none]
  · simp only [SlotState.contains, hfind, Option.bind_eq_bind, Option.bind_some, hvalue,
    Option.isSome_some]

theorem value (h : Represents hasher state order free model) (key : Bytes) :
    state.value hasher key = some (model.value key) := by
  rcases h.findSlot key with ⟨hfind, hvalue⟩ | ⟨slot, value, hfind, hmem, hentry, hvalue⟩
  · simp only [SlotState.value, hfind, Option.bind_eq_bind, Option.bind_some, hvalue]
  · obtain ⟨held, hheld, -⟩ := h.slot_of_mem hmem
    rw [entryOf, fieldOf, hheld, Option.bind_some] at hentry
    simp only [SlotState.value, hfind, Option.bind_eq_bind, Option.bind_some, hheld, hvalue,
      Option.some.inj hentry]

end Represents

end SlotState

end Nocter.DurableStore
