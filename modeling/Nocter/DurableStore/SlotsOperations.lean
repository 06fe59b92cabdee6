import Nocter.DurableStore.Slots

/-!
# What the operations on slots keep

Linking and unlinking change the links of at most two neighbours and nothing else. From this
every operation of the slots does what the same operation of the abstract state does.
-/

namespace Nocter.DurableStore

open Chained

namespace SlotState

/-- The fields of the slots besides the links between occupied ones. -/
structure SameContents (slots slots' : List StoreSlot) : Prop where
  length : slots'.length = slots.length
  freeNext : freeNextOf slots' = freeNextOf slots
  entry : entryOf slots' = entryOf slots
  occupied : occupiedOf slots' = occupiedOf slots

theorem SameContents.trans {slots slots' slots'' : List StoreSlot} (h : SameContents slots slots')
    (h' : SameContents slots' slots'') : SameContents slots slots'' :=
  ⟨h'.length.trans h.length, h'.freeNext.trans h.freeNext, h'.entry.trans h.entry,
    h'.occupied.trans h.occupied⟩

/-- A write to the links of one slot. -/
theorem modifySlot_spec {state : SlotState} {index : ℕ} {slot : StoreSlot}
    (hslot : state.slots[index]? = some slot) {f : StoreSlot → StoreSlot}
    (h : ∀ slot, (f slot).freeNext = slot.freeNext ∧ (f slot).entry = slot.entry ∧
      (f slot).occupied = slot.occupied) :
    ∃ slots, state.modifySlot index f = some { state with slots } ∧ SameContents state.slots slots ∧
      nextOf slots = Function.update (nextOf state.slots) index (f slot).next ∧
      previousOf slots = Function.update (previousOf state.slots) index (f slot).previous := by
  refine ⟨_, if_pos (List.getElem?_eq_some_iff.mp hslot).1, ⟨List.length_modify _ _ _, ?_, ?_, ?_⟩,
    fieldOf_modify hslot StoreSlot.next f, fieldOf_modify hslot StoreSlot.previous f⟩
  · exact fieldOf_modify_same (fun slot => (h slot).1) index
  · refine fieldOf_modify_same (fun slot => ?_) index
    rw [(h slot).2.1]
  · refine fieldOf_modify_same (fun slot => ?_) index
    rw [(h slot).2.2]

theorem SameContents.slot_exists {slots slots' : List StoreSlot} (h : SameContents slots slots')
    {index : ℕ} (hlt : index < slots.length) : ∃ slot, slots'[index]? = some slot :=
  ⟨_, List.getElem?_eq_getElem (by rwa [h.length])⟩

theorem nextOf_eq {slots : List StoreSlot} {index : ℕ} {slot : StoreSlot}
    (h : slots[index]? = some slot) : nextOf slots index = slot.next := by
  rw [nextOf, fieldOf, h, Option.bind_some]

theorem previousOf_eq {slots : List StoreSlot} {index : ℕ} {slot : StoreSlot}
    (h : slots[index]? = some slot) : previousOf slots index = slot.previous := by
  rw [previousOf, fieldOf, h, Option.bind_some]

/-- A slot is linked behind the last one. -/
theorem linkSlot_spec {state : SlotState} {slotIndex : ℕ} (hslot : slotIndex < state.slots.length)
    (hlast : ∀ last, state.last = some last → last < state.slots.length) :
    ∃ slots, state.linkSlot slotIndex = some { state with
        slots
        first := if state.last = none then some slotIndex else state.first
        last := some slotIndex } ∧
      SameContents state.slots slots ∧
      nextOf slots = relink (Function.update (nextOf state.slots) slotIndex none) state.last
        (some slotIndex) ∧
      previousOf slots = Function.update (previousOf state.slots) slotIndex state.last := by
  obtain ⟨slots, hmodify, hkept, hnext, hprevious⟩ :=
    modifySlot_spec (f := fun slot => { slot with previous := state.last, next := none })
      (List.getElem?_eq_getElem hslot) fun _ => ⟨rfl, rfl, rfl⟩
  rw [linkSlot, hmodify]
  cases hold : state.last with
  | none =>
    rw [hold] at hnext hprevious
    exact ⟨slots, rfl, hkept, hnext, hprevious⟩
  | some last =>
    rw [hold] at hprevious
    obtain ⟨old, hget⟩ := hkept.slot_exists (hlast last hold)
    obtain ⟨slots', hmodify', hkept', hnext', hprevious'⟩ :=
      @modifySlot_spec { state with slots } _ old hget
        (fun slot => { slot with next := some slotIndex }) fun _ => ⟨rfl, rfl, rfl⟩
    rw [hold] at hmodify'
    refine ⟨slots', ?_, hkept.trans hkept', ?_, ?_⟩
    · simp only [Option.bind_eq_bind, Option.bind_some, hmodify', reduceCtorEq, if_false]
    · rw [hnext', hnext, relink_some]
    · rw [hprevious', ← previousOf_eq hget, Function.update_eq_self, hprevious]

/-- A slot is taken out from between its neighbours. -/
theorem unlinkSlot_spec {state : SlotState} {slotIndex : ℕ} {slot : StoreSlot}
    (hslot : state.slots[slotIndex]? = some slot)
    (hprevious : ∀ index, slot.previous = some index → index < state.slots.length)
    (hnext : ∀ index, slot.next = some index → index < state.slots.length) :
    ∃ slots, state.unlinkSlot slotIndex = some { state with
        slots
        first := if slot.previous = none then slot.next else state.first
        last := if slot.next = none then slot.previous else state.last } ∧
      SameContents state.slots slots ∧
      nextOf slots = relink (nextOf state.slots) slot.previous slot.next ∧
      previousOf slots = relink (previousOf state.slots) slot.next slot.previous := by
  -- the slot before it, and then the slot behind it
  obtain ⟨slots, hfirst, hkept, hnextOf, hpreviousOf⟩ : ∃ slots,
      state.unlinkBefore slot = some { state with
        slots
        first := if slot.previous = none then slot.next else state.first } ∧
      SameContents state.slots slots ∧
      nextOf slots = relink (nextOf state.slots) slot.previous slot.next ∧
      previousOf slots = previousOf state.slots := by
    cases hbefore : slot.previous with
    | none => exact ⟨state.slots, by rw [unlinkBefore, hbefore]; rfl, ⟨rfl, rfl, rfl, rfl⟩, rfl, rfl⟩
    | some previousIndex =>
      have hget := List.getElem?_eq_getElem (hprevious previousIndex hbefore)
      obtain ⟨slots, hmodify, hkept, hnextOf, hpreviousOf⟩ :=
        modifySlot_spec (f := fun previous => { previous with next := slot.next }) hget
          fun _ => ⟨rfl, rfl, rfl⟩
      refine ⟨slots, by rw [unlinkBefore, hbefore]; exact hmodify, hkept, hnextOf, ?_⟩
      rw [hpreviousOf, ← previousOf_eq hget, Function.update_eq_self]
  rw [unlinkSlot, hslot]
  simp only [Option.bind_eq_bind, Option.bind_some, hfirst]
  cases hbehind : slot.next with
  | none =>
    rw [hbehind] at hnextOf
    exact ⟨slots, rfl, hkept, hnextOf, hpreviousOf⟩
  | some nextIndex =>
    rw [hbehind] at hnextOf
    obtain ⟨old, hget⟩ := hkept.slot_exists (hnext nextIndex hbehind)
    obtain ⟨slots', hmodify', hkept', hnextOf', hpreviousOf'⟩ :=
      @modifySlot_spec { state with
          slots, first := if slot.previous = none then some nextIndex else state.first } _ old hget
        (fun next => { next with previous := slot.previous }) fun _ => ⟨rfl, rfl, rfl⟩
    refine ⟨slots', ?_, hkept.trans hkept', ?_, ?_⟩
    · simp only [hmodify', reduceCtorEq, if_false]
    · rw [hnextOf', ← nextOf_eq hget, Function.update_eq_self, hnextOf]
    · rw [hpreviousOf', hpreviousOf, relink_some]

namespace Linked

variable {state : SlotState} {order free : List ℕ} {slotIndex : ℕ}

theorem of_eq {state' : SlotState} {loose : List ℕ} (h : Linked state order free loose)
    (hslots : state'.slots = state.slots) (hfirst : state'.first = state.first)
    (hlast : state'.last = state.last) (hfree : state'.free = state.free) :
    Linked state' order free loose := by
  refine ⟨?_, hfirst.trans h.first_eq, hlast.trans h.last_eq, hfree.trans h.free_eq, ?_, ?_, ?_, ?_, ?_⟩
  all_goals rw [hslots]
  · exact h.partition
  · exact h.forward
  · exact h.backward
  · exact h.freeLinks
  · exact h.occupied
  · exact h.vacant

theorem last_lt (h : Linked state order free [slotIndex]) {last : ℕ} (hlast : state.last = some last) :
    last < state.slots.length := by
  rw [h.last_eq] at hlast
  exact h.lt_of_mem (List.mem_append_left _ (List.mem_of_getLast? hlast))

theorem loose_notMem (h : Linked state order free [slotIndex]) :
    slotIndex ∉ order ∧ slotIndex ∉ free := by
  have hnodup := h.nodup
  rw [List.nodup_append, List.nodup_append] at hnodup
  obtain ⟨-, ⟨-, -, hfree⟩, horder⟩ := hnodup
  constructor
  · intro hmem
    exact horder slotIndex hmem slotIndex (List.mem_append_right _ (List.mem_singleton_self _)) rfl
  · intro hmem
    exact hfree slotIndex hmem slotIndex (List.mem_singleton_self _) rfl

theorem linkSlot (h : Linked state order free [slotIndex])
    (hoccupied : occupiedOf state.slots slotIndex = some true) :
    ∃ state', state.linkSlot slotIndex = some state' ∧
      Linked state' (order ++ [slotIndex]) free [] ∧ entryOf state'.slots = entryOf state.slots ∧
      state'.index = state.index ∧ state'.len = state.len := by
  obtain ⟨hnotOrder, -⟩ := h.loose_notMem
  have hlt : slotIndex < state.slots.length :=
    h.lt_of_mem (List.mem_append_right _ (List.mem_append_right _ (List.mem_singleton_self _)))
  obtain ⟨slots, hlink, hkept, hnext, hprevious⟩ := linkSlot_spec hlt fun last => h.last_lt
  refine ⟨_, hlink, ⟨?_, ?_, ?_, h.free_eq, ?_, ?_, ?_, ?_, ?_⟩, hkept.entry, rfl, rfl⟩
  · dsimp only
    rw [hkept.length, List.append_nil, List.append_assoc]
    exact (List.perm_append_comm.append_left order).trans h.partition
  · dsimp only
    rw [h.last_eq, h.first_eq]
    cases order with
    | nil => rfl
    | cons head tail => simp
  · exact List.getLast?_concat.symm
  · dsimp only
    rw [hnext, h.last_eq]
    exact h.forward.concat h.order_nodup hnotOrder
  · dsimp only
    rw [hprevious, List.reverse_concat]
    refine ⟨?_, h.backward.congr fun other hother => Function.update_of_ne ?_ _ _⟩
    · rw [Function.update_self, h.last_eq, List.head?_reverse]
    · rintro rfl
      exact hnotOrder (List.mem_reverse.mp hother)
  · dsimp only
    rw [hkept.freeNext]
    exact h.freeLinks
  · intro slot hslot
    dsimp only
    rw [hkept.occupied]
    rcases List.mem_append.mp hslot with hslot | hslot
    · exact h.occupied slot hslot
    · rw [List.mem_singleton.mp hslot]
      exact hoccupied
  · dsimp only
    rw [hkept.occupied]
    exact h.vacant

/-- A new slot behind the others. -/
theorem append (h : Linked state order free []) (slot : StoreSlot) :
    Linked { state with slots := state.slots ++ [slot] } order free [state.slots.length] := by
  have hold : ∀ {β : Type} (field : StoreSlot → Option β) {index : ℕ}, index ∈ order ++ (free ++ []) →
      fieldOf field (state.slots ++ [slot]) index = fieldOf field state.slots index :=
    fun field _ hmem => fieldOf_append_old field slot (h.lt_of_mem hmem)
  have horder : ∀ {index}, index ∈ order → index ∈ order ++ (free ++ []) :=
    fun hmem => List.mem_append_left _ hmem
  have hfree : ∀ {index}, index ∈ free → index ∈ order ++ (free ++ []) :=
    fun hmem => List.mem_append_right _ (List.mem_append_left _ hmem)
  refine ⟨?_, h.first_eq, h.last_eq, h.free_eq, h.forward.congr fun index hmem => ?_,
    h.backward.congr fun index hmem => ?_, h.freeLinks.congr fun index hmem => ?_,
    fun index hmem => ?_, fun index hmem => ?_⟩
  · dsimp only
    rw [List.length_append, List.length_singleton, List.range_succ, ← List.append_assoc]
    refine List.Perm.append_right _ ?_
    have hpartition := h.partition
    rwa [List.append_nil] at hpartition
  · exact hold StoreSlot.next (horder hmem)
  · exact hold StoreSlot.previous (horder (List.mem_reverse.mp hmem))
  · exact hold StoreSlot.freeNext (hfree hmem)
  · exact (hold _ (horder hmem)).trans (h.occupied index hmem)
  · exact (hold _ (hfree hmem)).trans (h.vacant index hmem)

/-- The first free slot is taken from the list. -/
theorem takeFree (h : Linked state order (slotIndex :: free) []) (entry : StoreEntry) :
    ∃ slot slots, state.slots[slotIndex]? = some slot ∧
      ({ state with free := slot.freeNext } : SlotState).modifySlot slotIndex (fun slot =>
        { slot with entry, freeNext := none, occupied := true }) =
          some { state with free := slot.freeNext, slots } ∧
      Linked { state with free := slot.freeNext, slots } order free [slotIndex] ∧
      entryOf slots = Function.update (entryOf state.slots) slotIndex (some entry) ∧
      occupiedOf slots slotIndex = some true := by
  have hlt : slotIndex < state.slots.length :=
    h.lt_of_mem (List.mem_append_right _ (List.mem_append_left _ List.mem_cons_self))
  have hslot := List.getElem?_eq_getElem hlt
  generalize state.slots[slotIndex] = slot at hslot
  have hnodup := h.nodup
  rw [List.append_nil, List.nodup_append, List.nodup_cons] at hnodup
  obtain ⟨-, ⟨hnotFree, -⟩, hapart⟩ := hnodup
  have hnotOrder : ∀ {index}, index ∈ order → index ≠ slotIndex :=
    fun hmem => hapart _ hmem slotIndex List.mem_cons_self
  have hrest : ∀ {index}, index ∈ free → index ≠ slotIndex := by
    rintro index hmem rfl
    exact hnotFree hmem
  have hmodified := fun {β : Type} (field : StoreSlot → Option β) => fieldOf_modify hslot field
    fun slot => { slot with entry, freeNext := none, occupied := true }
  refine ⟨slot, _, hslot, if_pos hlt, ⟨?_, h.first_eq, h.last_eq, ?_,
    h.forward.congr fun index _ => ?_, h.backward.congr fun index _ => ?_,
    h.freeLinks.2.congr fun index hmem => ?_, fun index hmem => ?_, fun index hmem => ?_⟩, ?_, ?_⟩
  · dsimp only
    rw [List.length_modify]
    refine List.Perm.trans (List.Perm.append_left order ?_) h.partition
    rw [List.append_nil]
    exact List.perm_append_singleton slotIndex free
  · have hfirst := h.freeLinks.1
    rwa [freeNextOf, fieldOf, hslot, Option.bind_some] at hfirst
  · exact (congrFun (hmodified StoreSlot.next) index).trans (by
      rw [← nextOf_eq hslot]
      exact congrFun (Function.update_eq_self slotIndex (nextOf state.slots)) index)
  · exact (congrFun (hmodified StoreSlot.previous) index).trans (by
      rw [← previousOf_eq hslot]
      exact congrFun (Function.update_eq_self slotIndex (previousOf state.slots)) index)
  · exact (congrFun (hmodified StoreSlot.freeNext) index).trans
      (Function.update_of_ne (hrest hmem) _ _)
  · exact (congrFun (hmodified _) index).trans
      ((Function.update_of_ne (hnotOrder hmem) _ _).trans (h.occupied index hmem))
  · exact (congrFun (hmodified _) index).trans
      ((Function.update_of_ne (hrest hmem) _ _).trans
        (h.vacant index (List.mem_cons_of_mem _ hmem)))
  · exact hmodified _
  · exact (congrFun (hmodified _) slotIndex).trans (Function.update_self _ _ _)

/-- A new entry is linked behind the others, in a free slot or a new one. -/
theorem takeSlot (h : Linked state order free []) (entry : StoreEntry) :
    ∃ slotIndex state' free', state.takeSlot entry = some (slotIndex, state') ∧
      Linked state' (order ++ [slotIndex]) free' [] ∧ slotIndex ∉ order ∧
      (∀ index ∈ order, entryOf state'.slots index = entryOf state.slots index) ∧
      entryOf state'.slots slotIndex = some entry ∧
      state'.index = state.index ∧ state'.len = state.len := by
  rw [SlotState.takeSlot, h.free_eq]
  cases free with
  | nil =>
    have happended := h.append ⟨entry, none, none, none, true⟩
    obtain ⟨state', hlink, hlinked, hentry, hindex, hlen⟩ :=
      happended.linkSlot (fieldOf_append_new _ _)
    refine ⟨state.slots.length, state', [], ?_, hlinked, happended.loose_notMem.1,
      fun index hmem => ?_, ?_, hindex, hlen⟩
    · simp only [List.head?_nil, appendSlot, hlink, Option.bind_eq_bind, Option.bind_some]
    · rw [hentry]
      exact fieldOf_append_old _ _ (h.lt_of_mem (List.mem_append_left _ hmem))
    · rw [hentry]
      exact fieldOf_append_new _ _
  | cons slotIndex free =>
    obtain ⟨slot, slots, hslot, hmodify, htaken, hentry, hoccupied⟩ := h.takeFree entry
    obtain ⟨state', hlink, hlinked, hentry', hindex, hlen⟩ := htaken.linkSlot hoccupied
    obtain ⟨hnotOrder, -⟩ := htaken.loose_notMem
    refine ⟨slotIndex, state', free, ?_, hlinked, hnotOrder, fun index hmem => ?_, ?_, hindex, hlen⟩
    · simp only [List.head?_cons, occupySlot, hslot, hmodify, hlink, Option.bind_eq_bind,
        Option.bind_some]
    · rw [hentry', hentry, Function.update_of_ne]
      rintro rfl
      exact hnotOrder hmem
    · rw [hentry', hentry, Function.update_self]

/-- The links of a slot name its neighbours in the order. -/
theorem neighbours {before after loose : List ℕ}
    (h : Linked state (before ++ slotIndex :: after) free loose) {slot : StoreSlot}
    (hslot : state.slots[slotIndex]? = some slot) :
    slot.previous = before.getLast? ∧ slot.next = after.head? := by
  constructor
  · have hbackward := h.backward
    rw [List.reverse_append, List.reverse_cons, List.append_assoc, List.singleton_append] at hbackward
    rw [← previousOf_eq hslot, hbackward.next_eq rfl, List.head?_reverse]
  · rw [← nextOf_eq hslot, h.forward.next_eq rfl]

theorem unlinkSlot {before after : List ℕ}
    (h : Linked state (before ++ slotIndex :: after) free []) :
    ∃ state', state.unlinkSlot slotIndex = some state' ∧
      Linked state' (before ++ after) free [slotIndex] ∧
      entryOf state'.slots = entryOf state.slots ∧ state'.slots.length = state.slots.length ∧
      state'.free = state.free ∧ state'.index = state.index ∧ state'.len = state.len := by
  obtain ⟨slot, hslot, -⟩ := h.slot_of_mem (List.mem_append_right before List.mem_cons_self)
  obtain ⟨hprevious, hnext⟩ := h.neighbours hslot
  have hlt : ∀ {index}, index ∈ before ++ slotIndex :: after → index < state.slots.length :=
    fun hmem => h.lt_of_mem (List.mem_append_left _ hmem)
  obtain ⟨slots, hunlink, hkept, hnextOf, hpreviousOf⟩ := unlinkSlot_spec hslot
    (fun index hindex => by
      rw [hprevious] at hindex
      exact hlt (List.mem_append_left _ (List.mem_of_getLast? hindex)))
    (fun index hindex => by
      rw [hnext] at hindex
      exact hlt (List.mem_append_right _ (List.mem_cons_of_mem _ (List.mem_of_head? hindex))))
  refine ⟨_, hunlink, ⟨?_, ?_, ?_, h.free_eq, ?_, ?_, ?_, ?_, ?_⟩, hkept.entry, hkept.length, rfl,
    rfl, rfl⟩
  · dsimp only
    rw [hkept.length]
    refine List.Perm.trans ?_ h.partition
    rw [List.append_nil, List.append_assoc, List.append_assoc, List.cons_append]
    refine List.Perm.append_left before ?_
    rw [← List.append_assoc]
    exact List.perm_append_singleton slotIndex _
  · dsimp only
    rw [hprevious, hnext, h.first_eq]
    cases before with
    | nil => rfl
    | cons head before => simp
  · dsimp only
    rw [hprevious, hnext, h.last_eq]
    cases after with
    | nil => rw [List.head?_nil, if_pos rfl, List.append_nil]
    | cons next after =>
      rw [List.head?_cons, if_neg (Option.some_ne_none next), List.getLast?_append_cons,
        List.getLast?_append_cons, List.getLast?_cons_cons]
  · dsimp only
    rw [hnextOf, hprevious, hnext]
    exact h.forward.remove h.order_nodup
  · dsimp only
    have hbackward := h.backward
    have hnodup := List.nodup_reverse.mpr h.order_nodup
    rw [List.reverse_append, List.reverse_cons, List.append_assoc, List.singleton_append]
      at hbackward hnodup
    rw [hpreviousOf, hprevious, hnext, List.reverse_append]
    have hremoved := hbackward.remove hnodup
    rwa [List.getLast?_reverse, List.head?_reverse] at hremoved
  · dsimp only
    rw [hkept.freeNext]
    exact h.freeLinks
  · intro index hmem
    dsimp only
    rw [hkept.occupied]
    refine h.occupied index ?_
    rcases List.mem_append.mp hmem with hmem | hmem
    · exact List.mem_append_left _ hmem
    · exact List.mem_append_right _ (List.mem_cons_of_mem _ hmem)
  · dsimp only
    rw [hkept.occupied]
    exact h.vacant

/-- A slot that is not linked goes to the front of the free list. -/
theorem release (h : Linked state order free [slotIndex]) (index : StoreIndex) (len : ℕ) :
    Linked { state with
        slots := state.slots.modify slotIndex fun _ =>
          ⟨emptyStoreEntry, none, none, state.free, false⟩
        free := some slotIndex
        index
        len } order (slotIndex :: free) [] ∧
      ∀ other ∈ order, entryOf (state.slots.modify slotIndex fun _ =>
        ⟨emptyStoreEntry, none, none, state.free, false⟩) other = entryOf state.slots other := by
  obtain ⟨hnotOrder, hnotFree⟩ := h.loose_notMem
  have hlt : slotIndex < state.slots.length :=
    h.lt_of_mem (List.mem_append_right _ (List.mem_append_right _ (List.mem_singleton_self _)))
  have hmodified := fun {β : Type} (field : StoreSlot → Option β) =>
    fieldOf_modify (List.getElem?_eq_getElem hlt) field
      fun _ => ⟨emptyStoreEntry, none, none, state.free, false⟩
  have hother : ∀ {β : Type} (field : StoreSlot → Option β) {other : ℕ}, other ≠ slotIndex →
      fieldOf field (state.slots.modify slotIndex fun _ =>
        ⟨emptyStoreEntry, none, none, state.free, false⟩) other = fieldOf field state.slots other :=
    fun field other hne => (congrFun (hmodified field) other).trans (Function.update_of_ne hne _ _)
  have horder : ∀ {other}, other ∈ order → other ≠ slotIndex := by
    rintro other hmem rfl
    exact hnotOrder hmem
  have hfree : ∀ {other}, other ∈ free → other ≠ slotIndex := by
    rintro other hmem rfl
    exact hnotFree hmem
  refine ⟨⟨?_, h.first_eq, h.last_eq, rfl, h.forward.congr fun other hmem => ?_,
    h.backward.congr fun other hmem => ?_, ⟨?_, h.freeLinks.congr fun other hmem => ?_⟩,
    fun other hmem => ?_, fun other hmem => ?_⟩, fun other hmem => hother _ (horder hmem)⟩
  · dsimp only
    rw [List.length_modify, List.append_nil]
    refine List.Perm.trans (List.Perm.append_left order ?_) h.partition
    exact (List.perm_append_singleton slotIndex free).symm
  · exact hother StoreSlot.next (horder hmem)
  · exact hother StoreSlot.previous (horder (List.mem_reverse.mp hmem))
  · exact (congrFun (hmodified StoreSlot.freeNext) slotIndex).trans
      ((Function.update_self _ _ _).trans h.free_eq)
  · exact hother StoreSlot.freeNext (hfree hmem)
  · exact (hother _ (horder hmem)).trans (h.occupied other hmem)
  · rcases List.mem_cons.mp hmem with rfl | hmem
    · exact (congrFun (hmodified _) other).trans (Function.update_self _ _ _)
    · exact (hother _ (hfree hmem)).trans (h.vacant other hmem)

end Linked

end SlotState

end Nocter.DurableStore
