import Mathlib.Data.List.Basic
import Mathlib.Data.List.Nodup
import Mathlib.Tactic

/-!
# Generation-qualified slot tables

A slot table reuses storage positions. Every position carries a generation that
advances when its value is released, and an identity is a position together with
the generation it was issued under. A position whose generation cannot advance is
never offered again, so a released identity stays dead for the rest of the run.
-/

namespace Nocter

universe u

@[ext] structure SlotId where
  slot : ℕ
  generation : ℕ
deriving DecidableEq, Repr

structure Slot (α : Type u) where
  generation : ℕ
  value : Option α
deriving DecidableEq, Repr

structure SlotTable (α : Type u) where
  slots : List (Slot α)
  free : List ℕ
deriving DecidableEq, Repr

namespace SlotTable

variable {α : Type u}

def empty : SlotTable α := ⟨[], []⟩

/-- The slot currently owned by the identity, whether or not it holds a value. -/
def entry (t : SlotTable α) (id : SlotId) : Option (Slot α) :=
  (t.slots[id.slot]?).filter fun e => e.generation == id.generation

def lookup (t : SlotTable α) (id : SlotId) : Option α := (t.entry id).bind Slot.value

def generationAt (t : SlotTable α) (slot : ℕ) : ℕ := (t.slots[slot]?).elim 0 Slot.generation

/-- Fills the most recently freed position, or appends one while fewer than
`capacity` positions exist. -/
def allocate (capacity : ℕ) (t : SlotTable α) (a : α) : Option (SlotId × SlotTable α) :=
  match t.free with
  | slot :: free =>
      some (⟨slot, t.generationAt slot⟩,
        ⟨t.slots.modify slot fun e => { e with value := some a }, free⟩)
  | [] =>
      if t.slots.length < capacity then
        some (⟨t.slots.length, 0⟩, ⟨t.slots ++ [⟨0, some a⟩], []⟩)
      else none

/-- Empties the position and offers it again under the next generation, unless
`lastGeneration` has been reached. -/
def release (lastGeneration : ℕ) (t : SlotTable α) (id : SlotId) : SlotTable α :=
  if t.generationAt id.slot < lastGeneration then
    ⟨t.slots.modify id.slot fun e => ⟨e.generation + 1, none⟩, id.slot :: t.free⟩
  else ⟨t.slots.modify id.slot fun e => { e with value := none }, t.free⟩

/-- Replaces the value of the position owned by the identity. -/
def store (t : SlotTable α) (id : SlotId) (value : Option α) : SlotTable α :=
  if (t.entry id).isSome then
    { t with slots := t.slots.modify id.slot fun e => { e with value := value } }
  else t

/-- The offered positions are distinct and vacant. -/
structure WellFormed (t : SlotTable α) : Prop where
  free_nodup : t.free.Nodup
  free_vacant : ∀ i ∈ t.free, ∃ e, t.slots[i]? = some e ∧ e.value = none

/-- The identity was issued before and its position will never carry its
generation together with a value again. -/
def Spent (t : SlotTable α) (id : SlotId) : Prop :=
  ∃ e, t.slots[id.slot]? = some e ∧
    (id.generation < e.generation ∨
      id.generation = e.generation ∧ e.value = none ∧ id.slot ∉ t.free)

def Live (t : SlotTable α) (id : SlotId) : Prop := (t.lookup id).isSome

instance (t : SlotTable α) (id : SlotId) : Decidable (t.Live id) :=
  inferInstanceAs (Decidable ((t.lookup id).isSome = true))

/-- What any history of one table guarantees about identities. -/
def Evolves (t t' : SlotTable α) : Prop :=
  (∀ id, t.Spent id → t'.Spent id) ∧ (∀ id, t.Live id → t'.Live id ∨ t'.Spent id)

theorem lookup_of_getElem? {t : SlotTable α} {id : SlotId} {e : Slot α}
    (h : t.slots[id.slot]? = some e) :
    t.lookup id = if e.generation = id.generation then e.value else none := by
  by_cases hg : e.generation = id.generation <;> simp [lookup, entry, h, hg, Option.filter]

theorem lookup_eq_some {t : SlotTable α} {id : SlotId} {a : α} :
    t.lookup id = some a ↔ t.slots[id.slot]? = some ⟨id.generation, some a⟩ := by
  cases h : t.slots[id.slot]? with
  | none => simp [lookup, entry, h]
  | some e =>
    obtain ⟨g, v⟩ := e
    rw [lookup_of_getElem? h]
    by_cases hg : g = id.generation <;> simp [hg]

/-- Overwriting one position changes only the identities of that position. -/
theorem lookup_set {t : SlotTable α} {i : ℕ} (hi : i < t.slots.length) (e : Slot α)
    (free : List ℕ) (id : SlotId) : (⟨t.slots.set i e, free⟩ : SlotTable α).lookup id =
      if id.slot = i then (if e.generation = id.generation then e.value else none)
      else t.lookup id := by
  by_cases hslot : id.slot = i
  · rw [if_pos hslot]
    exact lookup_of_getElem? (by simp [hslot, hi])
  · simp [lookup, entry, hslot, Ne.symm hslot]

theorem lookup_eq_none {t : SlotTable α} {id : SlotId} :
    t.lookup id = none ↔ ∀ a, t.slots[id.slot]? ≠ some ⟨id.generation, some a⟩ := by
  constructor
  · intro h a ha
    rw [lookup_eq_some.mpr ha] at h
    cases h
  · intro h
    cases hl : t.lookup id with
    | none => rfl
    | some a => exact absurd (lookup_eq_some.mp hl) (h a)

theorem live_iff {t : SlotTable α} {id : SlotId} : t.Live id ↔ ∃ a, t.lookup id = some a := by
  simp [Live, Option.isSome_iff_exists]

theorem entry_isSome_of_lookup {t : SlotTable α} {id : SlotId} {a : α}
    (h : t.lookup id = some a) : (t.entry id).isSome := by
  have hs := lookup_eq_some.mp h
  simp [entry, hs]

theorem Spent.lookup_eq_none {t : SlotTable α} {id : SlotId} (h : t.Spent id) :
    t.lookup id = none := by
  rw [SlotTable.lookup_eq_none]
  intro a ha
  obtain ⟨e, he, hcase⟩ := h
  rw [he] at ha
  cases ha
  rcases hcase with hlt | ⟨_, hv, _⟩
  · simp at hlt
  · simp at hv

theorem Evolves.refl (t : SlotTable α) : t.Evolves t := ⟨fun _ h => h, fun _ h => Or.inl h⟩

theorem Evolves.trans {t t' t'' : SlotTable α} (h : t.Evolves t') (h' : t'.Evolves t'') :
    t.Evolves t'' := by
  refine ⟨fun id hs => h'.1 id (h.1 id hs), fun id hl => ?_⟩
  rcases h.2 id hl with hl' | hs'
  · exact h'.2 id hl'
  · exact Or.inr (h'.1 id hs')

/-- An identity that was live and then was not is dead ever after. -/
theorem Evolves.freed_stays_dead {t t' t'' : SlotTable α} (h : t.Evolves t')
    (h' : t'.Evolves t'') {id : SlotId} (hl : t.Live id) (hf : ¬ t'.Live id) :
    t''.lookup id = none :=
  (h'.1 id ((h.2 id hl).resolve_left hf)).lookup_eq_none

theorem wellFormed_empty : (empty : SlotTable α).WellFormed :=
  ⟨List.nodup_nil, by simp [empty]⟩

@[simp] theorem lookup_empty (id : SlotId) : (empty : SlotTable α).lookup id = none := by
  simp [lookup, entry, empty]

section Allocate

variable {capacity : ℕ} {t t' : SlotTable α} {a : α} {id : SlotId}

/-- Everything an allocation does: the identity's position is vacant or new, and
only that position changes. -/
theorem allocate_cases (hw : t.WellFormed) (h : t.allocate capacity a = some (id, t')) :
    (∃ free, t.free = id.slot :: free ∧ t.slots[id.slot]? = some ⟨id.generation, none⟩ ∧
        t' = ⟨t.slots.set id.slot ⟨id.generation, some a⟩, free⟩) ∨
      (t.free = [] ∧ id = ⟨t.slots.length, 0⟩ ∧ t' = ⟨t.slots ++ [⟨0, some a⟩], []⟩) := by
  unfold allocate at h
  cases hf : t.free with
  | nil =>
    rw [hf] at h
    simp only at h
    split_ifs at h
    obtain ⟨rfl, rfl⟩ := Prod.mk.inj (Option.some.inj h)
    exact Or.inr ⟨rfl, rfl, rfl⟩
  | cons slot free =>
    rw [hf] at h
    obtain ⟨rfl, rfl⟩ := Prod.mk.inj (Option.some.inj h)
    obtain ⟨e, he, hv⟩ := hw.free_vacant slot (by simp [hf])
    obtain ⟨g, v⟩ := e
    obtain rfl : v = none := hv
    refine Or.inl ⟨free, rfl, by simp [generationAt, he], ?_⟩
    rw [List.modify_eq_set_getElem?]
    simp [generationAt, he]

theorem allocate_lookup (hw : t.WellFormed) (h : t.allocate capacity a = some (id, t'))
    (id' : SlotId) : t'.lookup id' = if id' = id then some a else t.lookup id' := by
  rcases allocate_cases hw h with ⟨free, hf, hs, rfl⟩ | ⟨hf, rfl, rfl⟩
  · rw [lookup_set (List.getElem?_eq_some_iff.mp hs).1]
    by_cases hslot : id'.slot = id.slot
    · have hold : t.lookup id' = none := by
        rw [lookup_of_getElem? (by rw [hslot, hs])]
        simp
      rw [if_pos hslot, hold]
      simp only [SlotId.ext_iff, hslot, true_and, eq_comm]
    · have hne : id' ≠ id := fun he => hslot (congrArg SlotId.slot he)
      rw [if_neg hslot, if_neg hne]
  · by_cases hslot : id'.slot = t.slots.length
    · have hold : t.lookup id' = none := by simp [lookup, entry, hslot]
      rw [hold, lookup_of_getElem? (e := ⟨0, some a⟩) (by simp [hslot])]
      simp only [SlotId.ext_iff, hslot, true_and, eq_comm]
    · have hne : id' ≠ ⟨t.slots.length, 0⟩ := fun he => hslot (congrArg SlotId.slot he)
      have hsame : (t.slots ++ [⟨0, some a⟩])[id'.slot]? = t.slots[id'.slot]? := by
        rcases lt_or_gt_of_ne hslot with hlt | hgt
        · exact List.getElem?_append_left hlt
        · rw [List.getElem?_eq_none (by simp; omega), List.getElem?_eq_none (by omega)]
      rw [if_neg hne]
      simp only [lookup, entry, hsame]

theorem allocate_fresh (hw : t.WellFormed) (h : t.allocate capacity a = some (id, t')) :
    t.lookup id = none ∧ ¬ t.Spent id := by
  rcases allocate_cases hw h with ⟨free, hf, hs, rfl⟩ | ⟨hf, rfl, rfl⟩
  · constructor
    · rw [lookup_eq_none]
      intro b hb
      rw [hs] at hb
      simp at hb
    · rintro ⟨e, he, hcase⟩
      rw [hs] at he
      cases he
      rcases hcase with hlt | ⟨_, _, hnot⟩
      · simp at hlt
      · exact hnot (by simp [hf])
  · constructor
    · rw [lookup_eq_none]
      simp
    · rintro ⟨e, he, _⟩
      simp at he

theorem allocate_wellFormed (hw : t.WellFormed) (h : t.allocate capacity a = some (id, t')) :
    t'.WellFormed := by
  rcases allocate_cases hw h with ⟨free, hf, hs, rfl⟩ | ⟨hf, rfl, rfl⟩
  · have hnd := hw.free_nodup
    rw [hf, List.nodup_cons] at hnd
    refine ⟨hnd.2, fun i hi => ?_⟩
    have hne : id.slot ≠ i := by
      rintro rfl
      exact hnd.1 hi
    obtain ⟨e, he, hv⟩ := hw.free_vacant i (by simp [hf, hi])
    exact ⟨e, by simpa [List.getElem?_set, hne] using he, hv⟩
  · exact ⟨List.nodup_nil, by simp⟩

theorem allocate_evolves (hw : t.WellFormed) (h : t.allocate capacity a = some (id, t')) :
    t.Evolves t' := by
  have hl := allocate_lookup hw h
  obtain ⟨hdead, hnot⟩ := allocate_fresh hw h
  refine ⟨fun id' hs => ?_, fun id' hlive => Or.inl ?_⟩
  · have hne : id' ≠ id := by
      rintro rfl
      exact hnot hs
    obtain ⟨e, he, hcase⟩ := hs
    rcases allocate_cases hw h with ⟨free, hf, hsl, rfl⟩ | ⟨hf, rfl, rfl⟩
    · by_cases hslot : id'.slot = id.slot
      · rw [hslot, hsl] at he
        cases he
        have hlt : id.slot < t.slots.length := (List.getElem?_eq_some_iff.mp hsl).1
        refine ⟨⟨id.generation, some a⟩, by simp [hslot, hlt], Or.inl ?_⟩
        rcases hcase with hlt' | ⟨hg, _, _⟩
        · exact hlt'
        · exact absurd (SlotId.ext hslot hg) hne
      · refine ⟨e, by simpa [List.getElem?_set, Ne.symm hslot] using he, ?_⟩
        rcases hcase with hlt' | ⟨hg, hv, hfree⟩
        · exact Or.inl hlt'
        · refine Or.inr ⟨hg, hv, fun hmem => hfree ?_⟩
          rw [hf]
          exact List.mem_cons_of_mem _ hmem
    · have hlt : id'.slot < t.slots.length := (List.getElem?_eq_some_iff.mp he).1
      refine ⟨e, by simpa [List.getElem?_append_left hlt] using he, ?_⟩
      rcases hcase with hlt' | ⟨hg, hv, _⟩
      · exact Or.inl hlt'
      · exact Or.inr ⟨hg, hv, by simp⟩
  · obtain ⟨b, hb⟩ := live_iff.mp hlive
    have hne : id' ≠ id := by
      rintro rfl
      rw [hdead] at hb
      cases hb
    rw [live_iff]
    exact ⟨b, by rw [hl, if_neg hne, hb]⟩

end Allocate

section Store

variable {t : SlotTable α} {id : SlotId} {a b : α}

theorem store_eq_set (h : t.lookup id = some a) (v : Option α) :
    t.store id v = { t with slots := t.slots.set id.slot ⟨id.generation, v⟩ } := by
  unfold store
  rw [if_pos (entry_isSome_of_lookup h)]
  have hs := lookup_eq_some.mp h
  rw [List.modify_eq_set_getElem?]
  simp [hs]

theorem entry_store_isSome (h : t.lookup id = some a) (v : Option α) :
    ((t.store id v).entry id).isSome := by
  have hlt := (List.getElem?_eq_some_iff.mp (lookup_eq_some.mp h)).1
  simp [store_eq_set h, entry, hlt]

/-- Taking a value out and storing another leaves what one store leaves. -/
theorem store_store (h : t.lookup id = some a) (v w : Option α) :
    (t.store id v).store id w = t.store id w := by
  have hlt := (List.getElem?_eq_some_iff.mp (lookup_eq_some.mp h)).1
  have he := entry_store_isSome h v
  rw [store_eq_set h v] at he ⊢
  rw [store_eq_set h w]
  unfold store
  rw [if_pos he, List.modify_eq_set_getElem?]
  simp [hlt]

theorem store_self (h : t.lookup id = some a) : t.store id (some a) = t := by
  have hs := lookup_eq_some.mp h
  obtain ⟨hlt, hget⟩ := List.getElem?_eq_some_iff.mp hs
  rw [store_eq_set h, ← hget, List.set_getElem_self]

theorem store_lookup (h : t.lookup id = some a) (id' : SlotId) :
    (t.store id (some b)).lookup id' = if id' = id then some b else t.lookup id' := by
  have hs := lookup_eq_some.mp h
  rw [store_eq_set h, lookup_set (List.getElem?_eq_some_iff.mp hs).1]
  by_cases hslot : id'.slot = id.slot
  · rw [if_pos hslot, lookup_of_getElem? (by rw [hslot, hs])]
    by_cases hg : id.generation = id'.generation
    · rw [if_pos hg, if_pos (SlotId.ext hslot hg.symm)]
    · have hne : id' ≠ id := fun he => hg (congrArg SlotId.generation he).symm
      rw [if_neg hg, if_neg hne, if_neg hg]
  · have hne : id' ≠ id := fun he => hslot (congrArg SlotId.slot he)
    rw [if_neg hslot, if_neg hne]

theorem store_wellFormed (hw : t.WellFormed) (h : t.lookup id = some a) :
    (t.store id (some b)).WellFormed := by
  rw [store_eq_set h]
  have hs := lookup_eq_some.mp h
  refine ⟨hw.free_nodup, fun i hi => ?_⟩
  obtain ⟨e, he, hv⟩ := hw.free_vacant i hi
  have hne : id.slot ≠ i := by
    rintro rfl
    rw [hs] at he
    cases he
    cases hv
  exact ⟨e, by simpa [List.getElem?_set, hne] using he, hv⟩

theorem store_evolves (h : t.lookup id = some a) : t.Evolves (t.store id (some b)) := by
  have hl := store_lookup (b := b) h
  refine ⟨fun id' hs => ?_, fun id' hlive => Or.inl ?_⟩
  · obtain ⟨e, he, hcase⟩ := hs
    have hsl := lookup_eq_some.mp h
    have hlt : id.slot < t.slots.length := (List.getElem?_eq_some_iff.mp hsl).1
    rw [store_eq_set h]
    by_cases hslot : id'.slot = id.slot
    · rw [hslot, hsl] at he
      cases he
      refine ⟨⟨id.generation, some b⟩, by simp [hslot, hlt], Or.inl ?_⟩
      rcases hcase with hlt' | ⟨_, hv, _⟩
      · exact hlt'
      · cases hv
    · exact ⟨e, by simpa [List.getElem?_set, Ne.symm hslot] using he, hcase⟩
  · obtain ⟨c, hc⟩ := live_iff.mp hlive
    rw [live_iff]
    by_cases he : id' = id
    · exact ⟨b, by rw [hl, if_pos he]⟩
    · exact ⟨c, by rw [hl, if_neg he, hc]⟩

end Store

section Release

variable {m : ℕ} {t : SlotTable α} {id : SlotId} {a : α}

theorem release_eq_set (h : t.lookup id = some a) : t.release m id = if id.generation < m
      then ⟨t.slots.set id.slot ⟨id.generation + 1, none⟩, id.slot :: t.free⟩
      else ⟨t.slots.set id.slot ⟨id.generation, none⟩, t.free⟩ := by
  have hs := lookup_eq_some.mp h
  have hg : t.generationAt id.slot = id.generation := by simp [generationAt, hs]
  unfold release
  rw [hg, List.modify_eq_set_getElem?, List.modify_eq_set_getElem?]
  simp [hs]

theorem release_lookup (h : t.lookup id = some a) (id' : SlotId) :
    (t.release m id).lookup id' = if id' = id then none else t.lookup id' := by
  have hs := lookup_eq_some.mp h
  have hlt : id.slot < t.slots.length := (List.getElem?_eq_some_iff.mp hs).1
  have hset : (t.release m id).lookup id' = if id'.slot = id.slot then none else t.lookup id' := by
    rw [release_eq_set h]
    split_ifs with hg hslot hslot <;> rw [lookup_set hlt] <;> simp [hslot]
  rw [hset]
  by_cases hslot : id'.slot = id.slot
  · rw [if_pos hslot, lookup_of_getElem? (by rw [hslot, hs])]
    by_cases hg : id.generation = id'.generation
    · rw [if_pos (SlotId.ext hslot hg.symm)]
    · have hne : id' ≠ id := fun he => hg (congrArg SlotId.generation he).symm
      rw [if_neg hne, if_neg hg]
  · have hne : id' ≠ id := fun he => hslot (congrArg SlotId.slot he)
    rw [if_neg hslot, if_neg hne]

theorem release_wellFormed (hw : t.WellFormed) (h : t.lookup id = some a) :
    (t.release m id).WellFormed := by
  have hs := lookup_eq_some.mp h
  have hlt : id.slot < t.slots.length := (List.getElem?_eq_some_iff.mp hs).1
  have hnot : id.slot ∉ t.free := by
    intro hmem
    obtain ⟨e, he, hv⟩ := hw.free_vacant _ hmem
    rw [hs] at he
    cases he
    cases hv
  have hother : ∀ g, ∀ i ∈ t.free, ∃ e, (t.slots.set id.slot ⟨g, none⟩)[i]? = some e ∧
      e.value = none := by
    intro g i hi
    obtain ⟨e, he, hv⟩ := hw.free_vacant i hi
    have hne : id.slot ≠ i := by
      rintro rfl
      exact hnot hi
    exact ⟨e, by simpa [List.getElem?_set, hne] using he, hv⟩
  rw [release_eq_set h]
  split_ifs
  · refine ⟨List.nodup_cons.mpr ⟨hnot, hw.free_nodup⟩, fun i hi => ?_⟩
    rcases List.mem_cons.mp hi with rfl | hi
    · exact ⟨⟨id.generation + 1, none⟩, by simp [hlt], rfl⟩
    · exact hother _ i hi
  · exact ⟨hw.free_nodup, hother _⟩

theorem release_spent (hw : t.WellFormed) (h : t.lookup id = some a) :
    (t.release m id).Spent id := by
  have hs := lookup_eq_some.mp h
  have hlt : id.slot < t.slots.length := (List.getElem?_eq_some_iff.mp hs).1
  rw [release_eq_set h]
  split_ifs
  · exact ⟨⟨id.generation + 1, none⟩, by simp [hlt], Or.inl (Nat.lt_succ_self _)⟩
  · refine ⟨⟨id.generation, none⟩, by simp [hlt], Or.inr ⟨rfl, rfl, fun hmem => ?_⟩⟩
    obtain ⟨e, he, hv⟩ := hw.free_vacant _ hmem
    rw [hs] at he
    cases he
    cases hv

theorem release_evolves (hw : t.WellFormed) (h : t.lookup id = some a) :
    t.Evolves (t.release m id) := by
  have hsl := lookup_eq_some.mp h
  have hlt : id.slot < t.slots.length := (List.getElem?_eq_some_iff.mp hsl).1
  refine ⟨fun id' hs => ?_, fun id' hlive => ?_⟩
  · obtain ⟨e, he, hcase⟩ := hs
    rw [release_eq_set h]
    by_cases hslot : id'.slot = id.slot
    · rw [hslot, hsl] at he
      cases he
      have hg : id'.generation < id.generation := by
        rcases hcase with hlt' | ⟨_, hv, _⟩
        · exact hlt'
        · cases hv
      split_ifs
      · exact ⟨⟨id.generation + 1, none⟩, by simp [hslot, hlt], Or.inl (by simp; omega)⟩
      · exact ⟨⟨id.generation, none⟩, by simp [hslot, hlt], Or.inl hg⟩
    · split_ifs
      · refine ⟨e, by simpa [List.getElem?_set, Ne.symm hslot] using he, ?_⟩
        rcases hcase with hlt' | ⟨hg, hv, hfree⟩
        · exact Or.inl hlt'
        · exact Or.inr ⟨hg, hv, by simp [hslot, hfree]⟩
      · exact ⟨e, by simpa [List.getElem?_set, Ne.symm hslot] using he, hcase⟩
  · by_cases he : id' = id
    · subst he
      exact Or.inr (release_spent hw h)
    · obtain ⟨b, hb⟩ := live_iff.mp hlive
      refine Or.inl (live_iff.mpr ⟨b, ?_⟩)
      rw [release_lookup h, if_neg he, hb]

end Release

section Restoration

variable {m capacity : ℕ} {t t' u : SlotTable α} {id : SlotId} {a : α}

/-- The second table offers and holds what the first one does. New positions are offered behind
the old ones, and positions whose generation is used up are no longer offered. -/
structure Restores (lastGeneration : ℕ) (t t' : SlotTable α) : Prop where
  wellFormed : t'.WellFormed
  lookup : ∀ id, t'.lookup id = t.lookup id
  free : ∃ (retired : List ℕ) (count : ℕ),
    (∀ slot ∈ retired, lastGeneration ≤ t.generationAt slot) ∧
    t'.free = (t.free.filter fun slot => slot ∉ retired) ++ List.range' t.slots.length count

theorem Restores.refl (hw : t.WellFormed) : Restores m t t where
  wellFormed := hw
  lookup _ := rfl
  free := ⟨[], 0, by simp, by simp⟩

theorem allocate_generationAt (hw : t.WellFormed) (h : t.allocate capacity a = some (id, t'))
    (slot : ℕ) : t'.generationAt slot = t.generationAt slot := by
  rcases allocate_cases hw h with ⟨free, hf, hs, rfl⟩ | ⟨hf, rfl, rfl⟩
  · obtain ⟨hlt, hget⟩ := List.getElem?_eq_some_iff.mp hs
    by_cases he : id.slot = slot
    · subst he
      simp [generationAt, hlt, hget]
    · simp [generationAt, he]
  · rcases lt_trichotomy slot t.slots.length with hlt | rfl | hgt
    · simp [generationAt, List.getElem?_append_left hlt]
    · simp [generationAt]
    · have hnone : (t.slots ++ [⟨0, some a⟩])[slot]? = none :=
        List.getElem?_eq_none (by simp; omega)
      simp only [generationAt, hnone, List.getElem?_eq_none hgt.le]

/-- Releasing what was allocated before the table was restored. -/
theorem Restores.release (hw : t.WellFormed) (hm : 0 < m)
    (h : t.allocate capacity a = some (id, t')) (hr : Restores m t' u) :
    Restores m t (u.release m id) := by
  have hlive : u.lookup id = some a := by
    rw [hr.lookup, allocate_lookup hw h, if_pos rfl]
  obtain ⟨retired, count, hretired, hfree⟩ := hr.free
  have hexhausted : ∀ slot ∈ retired, m ≤ t.generationAt slot := by
    intro slot hslot
    rw [← allocate_generationAt hw h]
    exact hretired slot hslot
  refine ⟨release_wellFormed hr.wellFormed hlive, fun other => ?_, ?_⟩
  · rw [release_lookup hlive, hr.lookup, allocate_lookup hw h]
    by_cases he : other = id
    · rw [if_pos he, he, (allocate_fresh hw h).1]
    · rw [if_neg he, if_neg he]
  · rcases allocate_cases hw h with ⟨free, hf, hs, rfl⟩ | ⟨hf, rfl, rfl⟩
    · -- a position that was offered already
      have hnot : id.slot ∉ free := by
        have hnodup := hw.free_nodup
        rw [hf] at hnodup
        exact (List.nodup_cons.mp hnodup).1
      rw [List.length_set] at hfree
      by_cases hlast : id.generation < m
      · refine ⟨retired.filter fun slot => slot ≠ id.slot, count, fun slot hslot =>
          hexhausted slot (List.mem_filter.mp hslot).1, ?_⟩
        have hkept : (free.filter fun slot => slot ∉ retired) =
            free.filter fun slot => slot ∉ retired.filter fun slot => slot ≠ id.slot := by
          refine List.filter_congr fun slot hslot => ?_
          have hne : slot ≠ id.slot := fun he => hnot (he ▸ hslot)
          simp [hne]
        rw [release_eq_set hlive, if_pos hlast, hf, List.filter_cons_of_pos (by simp), ← hkept,
          hfree, List.cons_append]
      · refine ⟨id.slot :: retired, count, ?_, ?_⟩
        · intro slot hslot
          rcases List.mem_cons.mp hslot with rfl | hmem
          · simp only [generationAt, hs, Option.elim_some]
            omega
          · exact hexhausted slot hmem
        · have hkept : (free.filter fun slot => slot ∉ retired) =
              free.filter fun slot => slot ∉ id.slot :: retired := by
            refine List.filter_congr fun slot hslot => ?_
            have hne : slot ≠ id.slot := fun he => hnot (he ▸ hslot)
            simp [hne]
          rw [release_eq_set hlive, if_neg hlast, hf, List.filter_cons_of_neg (by simp), ← hkept]
          exact hfree
    · -- a position the allocation appended
      refine ⟨[], count + 1, by simp, ?_⟩
      rw [release_eq_set hlive, if_pos hm, hfree, hf, List.range'_succ]
      simp

end Restoration

end SlotTable

end Nocter
