import Nocter.DurableStore.SlotsOperations
import Nocter.DurableStore.SlotIndexRuns

/-!
# Runs of the slots

Every operation of the slots succeeds and does what it does on the sequence of entries.
-/

namespace Nocter.DurableStore

namespace SlotState

namespace Represents

variable {hasher : Bytes → ℕ} {state : SlotState} {order free : List ℕ} {model : StoreState}

theorem insert (h : Represents hasher state order free model) (entry : StoreEntry) :
    ∃ state' order' free', state.insert hasher entry = some ((model.insert entry).isSome, state') ∧
      Represents hasher state' order' free' ((model.insert entry).getD model) := by
  have hcontains := h.contains entry.key
  cases hvalue : model.value entry.key with
  | some held =>
    have hmem : entry.key ∈ model.entries.map StoreEntry.key := by
      by_contra hnot
      rw [StoreState.value_eq_none_iff.mpr hnot] at hvalue
      cases hvalue
    have hmodel : model.insert entry = none := dif_pos hmem
    refine ⟨state, order, free, ?_, by rw [hmodel]; exact h⟩
    simp only [SlotState.insert, hcontains, hvalue, Option.isSome_some, Option.bind_eq_bind,
      Option.bind_some, if_true, hmodel, Option.isSome_none]
  | none =>
    obtain ⟨model', hmodel, hentries⟩ := StoreState.insert_of_value_none entry.value hvalue
    have hmodel' : model.insert entry = some model' := hmodel
    obtain ⟨slotIndex, taken, free', htake, hlinked, hnotOrder, hkept, hnew, hindex, hlen⟩ :=
      h.toLinked.takeSlot entry
    obtain ⟨added, index, hadd, hadded, hvalid, hlive⟩ := h.valid.add (hasher entry.key) slotIndex
    have htrue : added = true := by
      rw [hadded, h.indexed]
      exact fun hold => hnotOrder hold.1
    refine ⟨{ taken with index, len := taken.len + 1 }, order ++ [slotIndex], free', ?_,
      ⟨hlinked.of_eq rfl rfl rfl rfl, ?_, ?_, hvalid, fun hash slot => ?_⟩⟩
    · simp only [SlotState.insert, hcontains, hvalue, Option.isSome_none, Option.bind_eq_bind,
        Option.bind_some, htake, hindex, hadd, htrue, Bool.false_eq_true, if_false, if_true,
        hmodel', Option.isSome_some]
    · dsimp only
      rw [hlen, h.len_eq, List.length_append, List.length_singleton]
    · dsimp only
      rw [hmodel', Option.getD_some, hentries, List.map_append, List.map_append,
        List.map_congr_left hkept, h.entries_eq, List.map_singleton, hnew, List.map_singleton]
    · dsimp only
      rw [hlive, h.indexed, List.mem_append, List.mem_singleton]
      constructor
      · rintro (⟨hslot, held, hheld, hhash⟩ | ⟨rfl, rfl⟩)
        · exact ⟨Or.inl hslot, held, (hkept slot hslot).trans hheld, hhash⟩
        · exact ⟨Or.inr rfl, entry, hnew, rfl⟩
      · rintro ⟨hslot | rfl, held, hheld, hhash⟩
        · exact Or.inl ⟨hslot, held, (hkept slot hslot).symm.trans hheld, hhash⟩
        · rw [hnew] at hheld
          obtain rfl := Option.some.inj hheld
          exact Or.inr ⟨hhash.symm, rfl⟩

theorem replace (h : Represents hasher state order free model) (key value : Bytes) :
    ∃ state', state.replace hasher key value =
        some ((model.replace key value).map Prod.fst, state') ∧
      Represents hasher state' order free (((model.replace key value).map Prod.snd).getD model) := by
  rcases h.findSlot key with ⟨hfind, hvalue⟩ | ⟨slotIndex, held, hfind, hmem, hentry, hvalue⟩
  · refine ⟨state, ?_, ?_⟩
    · simp only [SlotState.replace, hfind, Option.bind_eq_bind, Option.bind_some,
        StoreState.replace, hvalue, Option.map_none]
    · rw [StoreState.replace, hvalue]
      exact h
  · obtain ⟨model', hmodel, hentries⟩ := StoreState.replace_of_value_some value hvalue
    obtain ⟨slot, hslot, -⟩ := h.slot_of_mem hmem
    have hlt := (List.getElem?_eq_some_iff.mp hslot).1
    have hheld : slot.entry = ⟨key, held⟩ := by
      rw [entryOf, fieldOf, hslot, Option.bind_some] at hentry
      exact Option.some.inj hentry
    have hsame := fun {β : Type} {field : StoreSlot → Option β}
        (hfield : ∀ slot, field { slot with entry := { slot.entry with value } } = field slot) =>
      @fieldOf_modify_same _ state.slots field _ hfield slotIndex
    have hnew : entryOf (state.slots.modify slotIndex
        fun slot => { slot with entry := { slot.entry with value } }) =
          Function.update (entryOf state.slots) slotIndex (some ⟨key, value⟩) := by
      refine (fieldOf_modify hslot _ _).trans ?_
      rw [hheld]
      rfl
    -- the entry of every linked slot is replaced where its key is the key
    have hreplaced : ∀ other ∈ order, Function.update (entryOf state.slots) slotIndex
        (some ⟨key, value⟩) other =
          (entryOf state.slots other).map (StoreState.replaceIn key value) := by
      intro other hother
      obtain ⟨otherSlot, hotherSlot, -⟩ := h.slot_of_mem hother
      have hotherEntry : entryOf state.slots other = some otherSlot.entry := by
        rw [entryOf, fieldOf, hotherSlot, Option.bind_some]
      by_cases heq : other = slotIndex
      · rw [heq, Function.update_self, hentry, Option.map_some, StoreState.replaceIn, if_pos rfl]
      · rw [Function.update_of_ne heq, hotherEntry, Option.map_some, StoreState.replaceIn, if_neg]
        intro hkey
        exact heq (h.slot_unique hother hmem hotherEntry hentry hkey)
    refine ⟨{ state with
        slots := state.slots.modify slotIndex fun slot =>
          { slot with entry := { slot.entry with value } } }, ?_,
      ⟨⟨?_, h.first_eq, h.last_eq, h.free_eq, ?_, ?_, ?_, ?_, ?_⟩, h.len_eq, ?_, h.valid,
        fun hash other => ?_⟩⟩
    · simp only [SlotState.replace, hfind, Option.bind_eq_bind, Option.bind_some, hslot,
        modifySlot, if_pos hlt, hmodel, Option.map_some, hheld]
    · dsimp only
      rw [List.length_modify]
      exact h.partition
    · dsimp only
      rw [nextOf, hsame fun _ => rfl]
      exact h.forward
    · dsimp only
      rw [previousOf, hsame fun _ => rfl]
      exact h.backward
    · dsimp only
      rw [freeNextOf, hsame fun _ => rfl]
      exact h.freeLinks
    · dsimp only
      rw [occupiedOf, hsame fun _ => rfl]
      exact h.occupied
    · dsimp only
      rw [occupiedOf, hsame fun _ => rfl]
      exact h.vacant
    · dsimp only
      rw [hnew, List.map_congr_left hreplaced, hmodel, Option.map_some, Option.getD_some, hentries]
      calc order.map (fun other => (entryOf state.slots other).map (StoreState.replaceIn key value))
          = (order.map (entryOf state.slots)).map
              (Option.map (StoreState.replaceIn key value)) := by
            rw [List.map_map]
            rfl
        _ = (model.entries.map (StoreState.replaceIn key value)).map some := by
            rw [h.entries_eq, List.map_map, List.map_map]
            rfl
    · dsimp only
      rw [h.indexed]
      refine and_congr_right fun hother => ?_
      rw [hnew, hreplaced other hother]
      cases entryOf state.slots other with
      | none => simp
      | some entry => simp [StoreState.replaceIn_key]

theorem remove (h : Represents hasher state order free model) (key : Bytes) :
    ∃ state' order' free', state.remove hasher key =
        some ((model.remove key).map Prod.fst, state') ∧
      Represents hasher state' order' free' (((model.remove key).map Prod.snd).getD model) := by
  rcases h.findSlot key with ⟨hfind, hvalue⟩ | ⟨slotIndex, held, hfind, hmem, hentry, hvalue⟩
  · refine ⟨state, order, free, ?_, ?_⟩
    · simp only [SlotState.remove, hfind, Option.bind_eq_bind, Option.bind_some,
        StoreState.remove_eq_none_iff.mpr hvalue, Option.map_none]
    · rw [StoreState.remove_eq_none_iff.mpr hvalue]
      exact h
  · obtain ⟨model', hmodel, hentries⟩ := StoreState.remove_of_value_some hvalue
    obtain ⟨removed, index, hremove, hremoved, hvalid, hlive⟩ :=
      h.valid.remove (hasher key) slotIndex
    have htrue : removed = true := by
      rw [hremoved, h.indexed]
      exact ⟨hmem, _, hentry, rfl⟩
    obtain ⟨before, after, rfl⟩ := List.append_of_mem hmem
    have hstart : Linked { state with index } (before ++ slotIndex :: after) free [] :=
      h.toLinked.of_eq rfl rfl rfl rfl
    obtain ⟨unlinked, hunlink, hlinked, hentryOf, hlength, hfree, hindex, hlen⟩ :=
      hstart.unlinkSlot
    have hnodup := h.order_nodup
    have hlt : slotIndex < unlinked.slots.length := by
      rw [hlength]
      exact h.lt_of_mem (List.mem_append_left _ hmem)
    have hslot := List.getElem?_eq_getElem hlt
    have hheld : (unlinked.slots[slotIndex]).entry = ⟨key, held⟩ := by
      have hat : entryOf unlinked.slots slotIndex = some ⟨key, held⟩ := by
        rw [hentryOf]
        exact hentry
      rw [entryOf, fieldOf, hslot, Option.bind_some] at hat
      exact Option.some.inj hat
    have hcount : 1 ≤ unlinked.len := by
      rw [hlen]
      dsimp only
      rw [h.len_eq, List.length_append, List.length_cons]
      omega
    obtain ⟨hreleased, hkept⟩ := hlinked.release index (unlinked.len - 1)
    have hnotIn : slotIndex ∉ before ++ after := (hlinked.loose_notMem).1
    have hkept' : ∀ other ∈ before ++ after, entryOf (unlinked.slots.modify slotIndex fun _ =>
        ⟨emptyStoreEntry, none, none, unlinked.free, false⟩) other = entryOf state.slots other :=
      fun other hother => (hkept other hother).trans (congrFun hentryOf other)
    refine ⟨_, before ++ after, slotIndex :: free, ?_,
      ⟨hreleased, ?_, ?_, hvalid, fun hash other => ?_⟩⟩
    · simp only [SlotState.remove, hfind, Option.bind_eq_bind, Option.bind_some, hremove, htrue,
        if_true, hunlink, hslot, modifySlot, if_pos hlt, checkedSub_of_le hcount, hheld, hmodel,
        Option.map_some, hindex]
    · dsimp only
      rw [hlen]
      dsimp only
      rw [h.len_eq, List.length_append, List.length_append, List.length_cons]
      omega
    · dsimp only
      rw [List.map_congr_left hkept', hmodel, Option.map_some, Option.getD_some, hentries]
      have hsplit := h.entries_eq
      rw [List.map_append, List.map_cons] at hsplit
      obtain ⟨first, rest, heq, hfirst, hrest⟩ := List.map_eq_append_iff.mp hsplit.symm
      obtain ⟨entry, last, rfl, hat, hlast⟩ := List.map_eq_cons_iff.mp hrest
      rw [hentry] at hat
      obtain rfl := Option.some.inj hat
      have hdistinct := model.distinct
      rw [heq, List.map_append, List.map_cons, List.nodup_append] at hdistinct
      have hnotFirst : (⟨key, held⟩ : StoreEntry) ∉ first := fun hin =>
        hdistinct.2.2 key (List.mem_map_of_mem (f := StoreEntry.key) hin) key List.mem_cons_self rfl
      rw [heq, List.erase_append_right _ hnotFirst, List.erase_cons_head, List.map_append,
        List.map_append, hfirst, hlast]
    · dsimp only
      rw [hlive, h.indexed]
      constructor
      · rintro ⟨⟨hother, entry, hotherEntry, hhash⟩, hdiffers⟩
        have hin : other ∈ before ++ after := by
          rw [List.mem_append, List.mem_cons] at hother
          rw [List.mem_append]
          refine hother.imp_right fun hor => hor.resolve_left ?_
          rintro rfl
          rw [hentry] at hotherEntry
          obtain rfl := Option.some.inj hotherEntry
          exact hdiffers ⟨hhash.symm, rfl⟩
        exact ⟨hin, entry, (hkept' other hin).trans hotherEntry, hhash⟩
      · rintro ⟨hin, entry, hotherEntry, hhash⟩
        have hother : other ∈ before ++ slotIndex :: after := by
          rw [List.mem_append] at hin
          rw [List.mem_append, List.mem_cons]
          exact hin.imp_right Or.inr
        refine ⟨⟨hother, entry, (hkept' other hin).symm.trans hotherEntry, hhash⟩, ?_⟩
        rintro ⟨-, rfl⟩
        exact hnotIn hin

/-- A traversal yields the entries in their order. -/
theorem collect_suffix (h : Represents hasher state order free model) {before after : List ℕ}
    (hsplit : order = before ++ after) {calls : ℕ} (hcalls : after.length < calls) :
    ∃ values, StoreEntries.collect state calls ⟨after.head?, after.length⟩ = some values ∧
      values.map some = after.map (entryOf state.slots) := by
  induction calls generalizing before after with
  | zero => exact absurd hcalls (Nat.not_lt_zero _)
  | succ calls ih =>
    cases after with
    | nil => exact ⟨[], rfl, rfl⟩
    | cons slotIndex after =>
      have hmem : slotIndex ∈ order := by
        rw [hsplit]
        exact List.mem_append_right _ List.mem_cons_self
      obtain ⟨slot, hslot, hoccupied⟩ := h.slot_of_mem hmem
      have hlinked := h.toLinked
      rw [hsplit] at hlinked
      obtain ⟨-, hnext⟩ := hlinked.neighbours hslot
      rw [List.length_cons] at hcalls
      obtain ⟨values, hcollect, hvalues⟩ := @ih (before ++ [slotIndex]) after
        (by rw [hsplit, List.append_assoc]; rfl) (Nat.lt_of_succ_lt_succ hcalls)
      have hremaining : checkedSub (after.length + 1) 1 = some after.length :=
        checkedSub_of_le (Nat.le_add_left 1 after.length)
      refine ⟨slot.entry :: values, ?_, ?_⟩
      · simp only [StoreEntries.collect, StoreEntries.next, List.head?_cons, List.length_cons,
          hremaining, entryAt,
          SlotState.nextSlot, hslot, hoccupied, if_true, hnext, Option.bind_eq_bind,
          Option.bind_some, hcollect]
      · rw [List.map_cons, List.map_cons, hvalues, entryOf, fieldOf, hslot, Option.bind_some]

theorem collect (h : Represents hasher state order free model) :
    StoreEntries.collect state (state.len + 1) (StoreEntries.new state) = some model.entries := by
  obtain ⟨values, hcollect, hvalues⟩ := h.collect_suffix (List.nil_append order).symm
    (Nat.lt_succ_self _)
  rw [h.entries_eq] at hvalues
  rw [StoreEntries.new, h.first_eq, h.len_eq, hcollect,
    List.map_injective_iff.mpr (Option.some_injective _) hvalues]

end Represents

end SlotState

inductive StoreStateOperation where
  | insert (entry : StoreEntry)
  | replace (key value : Bytes)
  | remove (key : Bytes)
  | value (key : Bytes)
  | contains (key : Bytes)
  | len
  | entries

inductive StoreStateAnswer where
  | inserted (isNew : Bool)
  | replaced (previous : Option Bytes)
  | removed (entry : Option StoreEntry)
  | found (value : Option Bytes)
  | contained (present : Bool)
  | count (len : ℕ)
  | entries (entries : List StoreEntry)

/-- The operations on the sequence of entries. -/
def StoreState.perform (model : StoreState) :
    StoreStateOperation → StoreStateAnswer × StoreState
  | .insert entry => (.inserted (model.insert entry).isSome, (model.insert entry).getD model)
  | .replace key value =>
    (.replaced ((model.replace key value).map Prod.fst),
      ((model.replace key value).map Prod.snd).getD model)
  | .remove key =>
    (.removed ((model.remove key).map Prod.fst), ((model.remove key).map Prod.snd).getD model)
  | .value key => (.found (model.value key), model)
  | .contains key => (.contained (model.value key).isSome, model)
  | .len => (.count model.len, model)
  | .entries => (.entries model.entries, model)

def StoreState.run (model : StoreState) :
    List StoreStateOperation → List StoreStateAnswer × StoreState
  | [] => ([], model)
  | operation :: operations =>
    let (answer, model) := model.perform operation
    let (answers, model) := model.run operations
    (answer :: answers, model)

namespace SlotState

variable (hasher : Bytes → ℕ)

def perform (state : SlotState) : StoreStateOperation → Option (StoreStateAnswer × SlotState)
  | .insert entry => do
    let (isNew, state) ← state.insert hasher entry
    some (.inserted isNew, state)
  | .replace key value => do
    let (previous, state) ← state.replace hasher key value
    some (.replaced previous, state)
  | .remove key => do
    let (entry, state) ← state.remove hasher key
    some (.removed entry, state)
  | .value key => do
    let value ← state.value hasher key
    some (.found value, state)
  | .contains key => do
    let present ← state.contains hasher key
    some (.contained present, state)
  | .len => some (.count state.len, state)
  | .entries => do
    let entries ← StoreEntries.collect state (state.len + 1) (StoreEntries.new state)
    some (.entries entries, state)

def run (state : SlotState) :
    List StoreStateOperation → Option (List StoreStateAnswer × SlotState)
  | [] => some ([], state)
  | operation :: operations => do
    let (answer, state) ← state.perform hasher operation
    let (answers, state) ← state.run operations
    some (answer :: answers, state)

variable {hasher} {state : SlotState} {order free : List ℕ} {model : StoreState}

theorem Represents.model_len (h : Represents hasher state order free model) :
    state.len = model.len := by
  rw [h.len_eq, StoreState.len, ← List.length_map (f := entryOf state.slots), h.entries_eq,
    List.length_map]

theorem Represents.perform (h : Represents hasher state order free model)
    (operation : StoreStateOperation) : ∃ state' order' free', state.perform hasher operation =
        some ((model.perform operation).1, state') ∧
      Represents hasher state' order' free' (model.perform operation).2 := by
  cases operation with
  | insert entry =>
    obtain ⟨state', order', free', hinsert, hrepresents⟩ := h.insert entry
    exact ⟨state', order', free', by rw [SlotState.perform, hinsert]; rfl, hrepresents⟩
  | replace key value =>
    obtain ⟨state', hreplace, hrepresents⟩ := h.replace key value
    exact ⟨state', order, free, by rw [SlotState.perform, hreplace]; rfl, hrepresents⟩
  | remove key =>
    obtain ⟨state', order', free', hremove, hrepresents⟩ := h.remove key
    exact ⟨state', order', free', by rw [SlotState.perform, hremove]; rfl, hrepresents⟩
  | value key => exact ⟨state, order, free, by rw [SlotState.perform, h.value]; rfl, h⟩
  | contains key => exact ⟨state, order, free, by rw [SlotState.perform, h.contains]; rfl, h⟩
  | len =>
    exact ⟨state, order, free, by rw [SlotState.perform, h.model_len, StoreState.perform], h⟩
  | entries => exact ⟨state, order, free, by rw [SlotState.perform, h.collect]; rfl, h⟩

theorem Represents.run (h : Represents hasher state order free model)
    (operations : List StoreStateOperation) : ∃ state' order' free', state.run hasher operations =
        some ((model.run operations).1, state') ∧
      Represents hasher state' order' free' (model.run operations).2 := by
  induction operations generalizing state order free model with
  | nil => exact ⟨state, order, free, rfl, h⟩
  | cons operation operations ih =>
    obtain ⟨next, order', free', hnext, hrepresents⟩ := h.perform operation
    obtain ⟨last, order'', free'', hlast, hrepresents'⟩ := ih hrepresents
    refine ⟨last, order'', free'', ?_, hrepresents'⟩
    simp only [SlotState.run, hnext, hlast, Option.bind_eq_bind, Option.bind_some, StoreState.run]

/-- Any operations on new slots succeed with the answers of the sequence of entries. Afterwards
the slots hold the entries: linked both ways in insertion order, with all other slots in the free
list and every linked slot in the index. -/
theorem runs_refine_entries (hasher : Bytes → ℕ) (capacity : ℕ)
    (operations : List StoreStateOperation) :
    ∃ start state order free, newSlotState capacity = some start ∧
      start.run hasher operations = some ((StoreState.new.run operations).1, state) ∧
      Represents hasher state order free (StoreState.new.run operations).2 := by
  obtain ⟨index, hindex, hholds⟩ := newStoreIndex_holds capacity
  have hstart := newSlotState_represents hasher index hholds.valid fun hash slot => by
    rw [hholds.live]
    exact Finset.notMem_empty _
  obtain ⟨state, order, free, hrun, hrepresents⟩ := hstart.run operations
  refine ⟨_, state, order, free, ?_, hrun, hrepresents⟩
  simp only [newSlotState, hindex, Option.bind_eq_bind, Option.bind_some]

end SlotState

end Nocter.DurableStore
