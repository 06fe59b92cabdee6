import Mathlib.Data.List.Nodup
import Mathlib.Data.List.Perm.Basic
import Mathlib.Data.List.Range

/-!
# Objects in raw storage

Storage holds objects of one size at byte offsets. An object may be put where none is live in
any of its bytes, and taken from the offset at which it lives. Objects in slots, at multiples
of the size, are described by their values with the indices of the slots; where the size is
zero every slot is at offset zero, and the type has one value.
-/

namespace Nocter.ObjectMemory

/-- A type of objects; the bytes of an object determine its value. -/
structure Pointee (α : Type*) where
  size : ℕ
  zeroSized : size = 0 → ∀ a b : α, a = b

variable {α : Type*} {pointee : Pointee α} {objects : List (ℕ × α)} {pairs others : List (α × ℕ)}
  {value : α} {index : ℕ}

/-- No object is live in the bytes of an object at the offset. -/
def Vacant (pointee : Pointee α) (objects : List (ℕ × α)) (offset : ℕ) : Prop :=
  ∀ object ∈ objects, object.1 + pointee.size ≤ offset ∨ offset + pointee.size ≤ object.1

instance (pointee : Pointee α) (objects : List (ℕ × α)) (offset : ℕ) :
    Decidable (Vacant pointee objects offset) :=
  inferInstanceAs (Decidable (∀ _ ∈ _, _))

/-- The object at an offset, and those that are left without it. -/
def take (offset : ℕ) : List (ℕ × α) → Option (α × List (ℕ × α))
  | [] => none
  | object :: rest =>
    if object.1 = offset then some (object.2, rest)
    else (take offset rest).map fun taken => (taken.1, object :: taken.2)

/-- The live objects are the values in the slots of their indices. -/
structure Placed (pointee : Pointee α) (objects : List (ℕ × α)) (pairs : List (α × ℕ)) : Prop where
  objects : objects.Perm (pairs.map fun pair => (pair.2 * pointee.size, pair.1))
  apart : (pairs.map Prod.snd).Nodup

theorem Placed.perm (h : Placed pointee objects pairs) (hperm : pairs.Perm others) :
    Placed pointee objects others where
  objects := h.objects.trans (hperm.map _)
  apart := (hperm.map Prod.snd).nodup_iff.mp h.apart

theorem take_of_mem {offset : ℕ} (hmem : ∃ found, (offset, found) ∈ objects)
    (hsame : ∀ found, (offset, found) ∈ objects → found = value) :
    ∃ rest, take offset objects = some (value, rest) ∧ objects.Perm ((offset, value) :: rest) := by
  induction objects with
  | nil =>
    obtain ⟨_, hmem⟩ := hmem
    cases hmem
  | cons object rest ih =>
    obtain ⟨start, found⟩ := object
    rw [take]
    by_cases hstart : start = offset
    · subst hstart
      rw [if_pos rfl, hsame found List.mem_cons_self]
      exact ⟨rest, rfl, .refl _⟩
    · have hrest : ∃ found, (offset, found) ∈ rest := by
        obtain ⟨other, hother⟩ := hmem
        rcases List.mem_cons.mp hother with heq | hother
        · exact absurd (congrArg Prod.fst heq).symm hstart
        · exact ⟨other, hother⟩
      obtain ⟨left, htake, hperm⟩ :=
        ih hrest fun other hother => hsame other (List.mem_cons_of_mem _ hother)
      rw [if_neg hstart, htake]
      exact ⟨_, rfl, (hperm.cons _).trans (.swap _ _ _)⟩

/-- An object in a slot can be taken from there. -/
theorem Placed.take (h : Placed pointee objects ((value, index) :: pairs)) :
    ∃ rest, ObjectMemory.take (index * pointee.size) objects = some (value, rest) ∧
      Placed pointee rest pairs := by
  obtain ⟨hobjects, hapart⟩ := h
  rw [List.map_cons, List.nodup_cons] at hapart
  have hsame : ∀ found, (index * pointee.size, found) ∈ objects → found = value := by
    intro found hfound
    obtain ⟨⟨other, place⟩, hpair, heq⟩ := List.mem_map.mp (hobjects.mem_iff.mp hfound)
    obtain ⟨hplace, rfl⟩ := Prod.mk.inj heq
    by_cases hsize : pointee.size = 0
    · exact pointee.zeroSized hsize other value
    · have hindex : place = index := Nat.eq_of_mul_eq_mul_right (Nat.pos_of_ne_zero hsize) hplace
      rcases List.mem_cons.mp hpair with heq | hpair
      · exact congrArg Prod.fst heq
      · rw [← hindex] at hapart
        exact absurd (List.mem_map_of_mem hpair) hapart.1
  have hmem : (index * pointee.size, value) ∈ objects := by
    rw [hobjects.mem_iff, List.map_cons]
    exact List.mem_cons_self
  obtain ⟨rest, htake, hperm⟩ := take_of_mem ⟨value, hmem⟩ hsame
  refine ⟨rest, htake, ?_, hapart.2⟩
  have hboth := hperm.symm.trans hobjects
  rw [List.map_cons] at hboth
  exact hboth.cons_inv

/-- A slot of another index is vacant. -/
theorem Placed.vacant (h : Placed pointee objects pairs) (hindex : index ∉ pairs.map Prod.snd) :
    Vacant pointee objects (index * pointee.size) := by
  intro object hobject
  obtain ⟨pair, hpair, rfl⟩ := List.mem_map.mp (h.objects.mem_iff.mp hobject)
  have hne : pair.2 ≠ index := fun heq => hindex (heq ▸ List.mem_map_of_mem hpair)
  rcases Nat.lt_or_gt_of_ne hne with hlt | hgt
  · left
    calc pair.2 * pointee.size + pointee.size = (pair.2 + 1) * pointee.size :=
        (Nat.succ_mul _ _).symm
      _ ≤ index * pointee.size := Nat.mul_le_mul_right _ hlt
  · right
    calc index * pointee.size + pointee.size = (index + 1) * pointee.size :=
        (Nat.succ_mul _ _).symm
      _ ≤ pair.2 * pointee.size := Nat.mul_le_mul_right _ hgt

/-- An object put into a slot of another index joins those that are live. -/
theorem Placed.store (h : Placed pointee objects pairs) (hindex : index ∉ pairs.map Prod.snd) :
    Placed pointee ((index * pointee.size, value) :: objects) ((value, index) :: pairs) where
  objects := h.objects.cons _
  apart := List.nodup_cons.mpr ⟨hindex, h.apart⟩

/-! ### Runs of slots -/

theorem mem_zipIdx_snd {values : List α} {start : ℕ} :
    index ∈ (values.zipIdx start).map Prod.snd ↔ start ≤ index ∧ index < start + values.length := by
  rw [List.zipIdx_map_snd, List.mem_range'_1]

/-- Values in adjacent slots from zero on, and others from a later slot on. -/
def Split (pointee : Pointee α) (objects : List (ℕ × α)) (before : List α) (start : ℕ)
    (after : List α) : Prop :=
  Placed pointee objects (before.zipIdx ++ after.zipIdx start)

variable {before after : List α} {start : ℕ}

theorem split_nil_iff : Split pointee objects before start [] ↔
    Placed pointee objects before.zipIdx := by
  rw [Split, List.zipIdx_nil, List.append_nil]

/-- Two adjacent runs are one run. -/
theorem split_adjacent (h : start = before.length) : Split pointee objects before start after ↔
    Placed pointee objects (before ++ after).zipIdx := by
  rw [Split, List.zipIdx_append, h, Nat.zero_add]

/-- The first value of the later run can be taken. -/
theorem Split.takeAfter (h : Split pointee objects before start (value :: after)) :
    ∃ rest, ObjectMemory.take (start * pointee.size) objects = some (value, rest) ∧
      Split pointee rest before (start + 1) after := by
  rw [Split, List.zipIdx_cons] at h
  exact Placed.take (h.perm List.perm_middle)

/-- The last value of the first run can be taken. -/
theorem Split.takeBefore (h : Split pointee objects (before ++ [value]) start after) :
    ∃ rest, ObjectMemory.take (before.length * pointee.size) objects = some (value, rest) ∧
      Split pointee rest before start after := by
  rw [Split, List.zipIdx_append, List.zipIdx_singleton, List.append_assoc, Nat.zero_add] at h
  exact Placed.take (h.perm List.perm_middle)

/-- The last value of the later run can be taken. -/
theorem Split.takeLast (h : Split pointee objects before start (after ++ [value])) :
    ∃ rest, ObjectMemory.take ((start + after.length) * pointee.size) objects = some (value, rest) ∧
      Split pointee rest before start after := by
  rw [Split, List.zipIdx_append, List.zipIdx_singleton, ← List.append_assoc] at h
  exact Placed.take (h.perm (List.perm_append_singleton _ _))

/-- The slot behind the first run is vacant where the later run starts behind it. -/
theorem Split.notMem_behind (h : before.length < start) :
    before.length ∉ (before.zipIdx ++ after.zipIdx start).map Prod.snd := by
  rw [List.map_append, List.mem_append, mem_zipIdx_snd, mem_zipIdx_snd]
  omega

theorem Split.notMem_ahead (h : before.length ≤ start) :
    start ∉ (before.zipIdx ++ after.zipIdx (start + 1)).map Prod.snd := by
  rw [List.map_append, List.mem_append, mem_zipIdx_snd, mem_zipIdx_snd]
  omega

/-- A value put behind the first run extends it. -/
theorem Split.storeBehind (value : α) (h : Split pointee objects before start after)
    (hstart : before.length < start) : Vacant pointee objects (before.length * pointee.size) ∧
      Split pointee ((before.length * pointee.size, value) :: objects) (before ++ [value]) start
        after := by
  have hbehind := @Split.notMem_behind _ _ after _ hstart
  refine ⟨Placed.vacant h hbehind, ?_⟩
  rw [Split, List.zipIdx_append, List.zipIdx_singleton, List.append_assoc, Nat.zero_add]
  exact (Placed.store h hbehind).perm List.perm_middle.symm

/-- A value put ahead of the later run extends it. -/
theorem Split.storeAhead (value : α) (h : Split pointee objects before (start + 1) after)
    (hstart : before.length ≤ start) : Vacant pointee objects (start * pointee.size) ∧
      Split pointee ((start * pointee.size, value) :: objects) before start (value :: after) := by
  have hahead := @Split.notMem_ahead _ _ after _ hstart
  refine ⟨Placed.vacant h hahead, ?_⟩
  rw [Split, List.zipIdx_cons]
  exact (Placed.store h hahead).perm List.perm_middle.symm

end Nocter.ObjectMemory
