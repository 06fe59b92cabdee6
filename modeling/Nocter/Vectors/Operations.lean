import Nocter.Vectors.Removal

/-!
# Operations of a vector on its list

What each operation returns and leaves, as the operation on the list that the vector holds.
An operation that needs room and is refused it leaves the list as it was.
-/

namespace Nocter.Vectors

open ObjectMemory

variable {T : Type} {pointee : Pointee T} {allocator : Allocator} {world : World T}
  {contents : List T}

/-- What a reservation leaves: the same elements with room for more, or the same world. -/
theorem Holds.reserve (h : Holds pointee world contents) (additional : ℕ) :
    (∃ next, Returns (tryReserve pointee allocator additional) world
        (.ok (contents.length + additional)) { world with vec := next } ∧
      Holds pointee { world with vec := next } contents ∧
      contents.length + additional ≤ next.capacity) ∨
    ∃ error, Returns (tryReserve pointee allocator additional) world (.error error) world ∧
      Refused pointee allocator world.vec additional error := by
  obtain ⟨result, next, hreserved, hreturns⟩ :=
    @tryReserve_reserved _ _ allocator world h.owned h.room additional
  cases hreserved with
  | room howned hlen hroom =>
    rw [h.len] at hreturns hlen hroom
    refine .inl ⟨next, hreturns, ⟨howned, hlen, ?_, h.placed⟩, hroom⟩
    simp only [hlen]
    omega
  | refused hrefused => exact .inr ⟨_, hreturns, hrefused⟩

/-- An element that is put behind the last one. -/
theorem Holds.pushed (h : Holds pointee world contents) (value : T)
    (hroom : contents.length < world.vec.capacity) :
    Returns (do
        let byteOffset ← mul contents.length pointee.size
        let values ← readVec
        storeValueToPtr pointee values.ptr byteOffset value
        setLen (contents.length + 1)
        return (Except.ok () : Except Error Unit)) world (.ok ())
      { world with
        vec := { world.vec with len := contents.length + 1 }
        objects := (contents.length * pointee.size, value) :: world.objects } ∧
    Holds pointee { world with
      vec := { world.vec with len := contents.length + 1 }
      objects := (contents.length * pointee.size, value) :: world.objects } (contents ++ [value]) := by
  have howned := h.owned
  have hsplit : Split pointee world.objects contents (contents.length + 1) [] :=
    split_nil_iff.mpr h.placed
  have hbehind := hsplit.storeBehind value (Nat.lt_succ_self _)
  constructor
  · refine (mul_returns (howned.offset hroom)).bind ?_
    rw [returns_readVec]
    exact (store_returns howned hroom hbehind.1).bind rfl
  · refine ⟨⟨howned.ptr, howned.capacity, howned.bytes, howned.room⟩, ?_, hroom,
      split_nil_iff.mp hbehind.2⟩
    rw [List.length_append, List.length_singleton]

theorem tryPush_returns (h : Holds pointee world contents) (value : T) :
    (∃ next, Returns (tryPush pointee allocator value) world (.ok ()) next ∧
      Holds pointee next (contents ++ [value]) ∧ next.destroyed = world.destroyed) ∨
    ∃ error, Returns (tryPush pointee allocator value) world (.error error)
        { world with destroyed := world.destroyed ++ [value] } ∧
      Refused pointee allocator world.vec 1 error := by
  unfold tryPush
  simp only [returns_readVec, h.len]
  rcases @Holds.reserve _ _ allocator _ _ h 1 with
    ⟨next, hreserve, hholds, hroom⟩ | ⟨error, hreserve, hrefused⟩
  · have hpushed := hholds.pushed value hroom
    exact .inl ⟨_, hreserve.bind hpushed.1, hpushed.2, rfl⟩
  · exact .inr ⟨error, hreserve.bind rfl, hrefused⟩

/-! ### Insertion -/

section Middle

variable {before after : List T}

theorem insertIdx_length (value : T) :
    (before ++ after).insertIdx before.length value = before ++ value :: after := by
  induction before with
  | nil => rfl
  | cons first before ih =>
    rw [List.cons_append, List.length_cons, List.insertIdx_succ_cons, ih, List.cons_append]

/-- An element that is put into the hole that the loop of `insert` makes. -/
theorem Holds.inserted (h : Holds pointee world (before ++ after)) (value : T)
    (hroom : before.length + after.length < world.vec.capacity) :
    ∃ next, Returns (do
        insertLoop pointee before.length after.length
        let values ← readVec
        let offset ← mul before.length pointee.size
        storeValueToPtr pointee values.ptr offset value
        setLen (before.length + after.length + 1)
        return (Except.ok () : Except Error Unit)) world (.ok ()) next ∧
      Holds pointee next (before ++ value :: after) ∧ next.destroyed = world.destroyed := by
  have howned := h.owned
  have hindex : before.length < world.vec.capacity := by omega
  have hsplit : Split pointee world.objects (before ++ after)
      (before.length + after.length + 1) [] := split_nil_iff.mpr h.placed
  obtain ⟨objects, hloop, hhole⟩ := insertLoop_returns howned hroom hsplit
  rw [List.append_nil] at hhole
  have hbehind := hhole.storeBehind value (Nat.lt_succ_self _)
  have hplaced := (split_adjacent (by rw [List.length_append, List.length_singleton])).mp hbehind.2
  rw [← List.append_cons] at hplaced
  have hmoved : Owned pointee ({ world with objects := objects } : World T).vec := howned
  refine ⟨⟨{ world.vec with len := before.length + after.length + 1 },
    (before.length * pointee.size, value) :: objects, world.destroyed⟩, ?_,
    ⟨⟨howned.ptr, howned.capacity, howned.bytes, howned.room⟩, ?_, hroom, hplaced⟩, rfl⟩
  · refine hloop.bind ?_
    rw [returns_readVec]
    refine (mul_returns (hmoved.offset hindex)).bind ?_
    exact (store_returns hmoved hindex hbehind.1).bind rfl
  · rw [List.length_append, List.length_cons]
    rfl

theorem tryInsertInBounds_returns (h : Holds pointee world (before ++ after)) (value : T) :
    (∃ next, Returns (tryInsertInBounds pointee allocator before.length value) world (.ok ()) next ∧
      Holds pointee next (before ++ value :: after) ∧ next.destroyed = world.destroyed) ∨
    ∃ error, Returns (tryInsertInBounds pointee allocator before.length value) world (.error error)
        { world with destroyed := world.destroyed ++ [value] } ∧
      Refused pointee allocator world.vec 1 error := by
  have hlen := h.len
  rw [List.length_append] at hlen
  unfold tryInsertInBounds
  simp only [returns_readVec, hlen, Nat.add_sub_cancel_left]
  rcases @Holds.reserve _ _ allocator _ _ h 1 with
    ⟨next, hreserve, hholds, hroom⟩ | ⟨error, hreserve, hrefused⟩
  · rw [List.length_append] at hreserve hroom
    obtain ⟨final, hinserted, hfinal, hdestroyed⟩ := hholds.inserted value hroom
    exact .inl ⟨final, hreserve.bind hinserted, hfinal, hdestroyed⟩
  · exact .inr ⟨error, hreserve.bind rfl, hrefused⟩

/-! ### Removal -/

theorem remove_returns {value : T} (h : Holds pointee world (before ++ value :: after)) :
    ∃ next, Returns (remove pointee before.length) world (some value) next ∧
      Holds pointee next (before ++ after) ∧ next.destroyed = world.destroyed := by
  have howned := h.owned
  have hlen := h.len
  have hroom := h.room
  rw [List.length_append, List.length_cons] at hlen
  have hsplit := (split_adjacent rfl).mpr h.placed
  obtain ⟨rest, htake, hhole⟩ := hsplit.takeAfter
  obtain ⟨objects, hloop, hplaced⟩ :=
    @removeLoop_returns _ _ { world with objects := rest } _ _ howned (by simp only; omega) hhole
  refine ⟨⟨{ world.vec with len := before.length + after.length }, objects, world.destroyed⟩, ?_,
    ⟨⟨howned.ptr, howned.capacity, howned.bytes, howned.room⟩, ?_, ?_, hplaced⟩, rfl⟩
  · have hbehind : before.length + (after.length + 1) - 1 - before.length = after.length := by omega
    unfold remove
    rw [returns_readVec]
    simp only [hlen, if_neg (show ¬ before.length ≥ before.length + (after.length + 1) by omega),
      hbehind]
    refine (mul_returns (howned.offset (by omega))).bind ?_
    refine (take_returns howned htake).bind ?_
    exact hloop.bind rfl
  · rw [List.length_append]
  · simp only
    omega

theorem swapRemove_last {value : T} (h : Holds pointee world (before ++ [value])) :
    ∃ next, Returns (swapRemove pointee before.length) world (some value) next ∧
      Holds pointee next before ∧ next.destroyed = world.destroyed := by
  obtain ⟨rest, htake, hroom, hholds⟩ := h.shortened
  have howned := h.owned
  have hlen := h.len
  rw [List.length_append, List.length_singleton] at hlen
  refine ⟨_, ?_, hholds world.destroyed, rfl⟩
  unfold swapRemove
  rw [returns_readVec]
  simp only [hlen, if_neg (show ¬ before.length ≥ before.length + 1 by omega), Nat.add_sub_cancel,
    ne_eq, not_true_eq_false, if_false]
  refine (mul_returns (howned.offset hroom)).bind ?_
  exact (take_returns howned htake).bind rfl

theorem swapRemove_middle {value last : T} (h : Holds pointee world (before ++ value :: (after ++ [last]))) :
    ∃ next, Returns (swapRemove pointee before.length) world (some value) next ∧
      Holds pointee next (before ++ last :: after) ∧ next.destroyed = world.destroyed := by
  have howned := h.owned
  have hlen := h.len
  have hroom := h.room
  simp only [List.length_append, List.length_cons, List.length_nil, Nat.zero_add] at hlen
  have hsplit := (split_adjacent rfl).mpr h.placed
  obtain ⟨rest, htake, hhole⟩ := hsplit.takeAfter
  obtain ⟨left, htakeLast, hleft⟩ := hhole.takeLast
  have hbehind := hleft.storeBehind last (Nat.lt_succ_self _)
  have hplaced := (split_adjacent (by rw [List.length_append, List.length_singleton])).mp hbehind.2
  rw [← List.append_cons] at hplaced
  have hindex : before.length < world.vec.capacity := by omega
  have hlast : before.length + (after.length + 1 + 1) - 1 = before.length + 1 + after.length := by
    omega
  have hmoved : Owned pointee ({ world with objects := rest } : World T).vec := howned
  refine ⟨⟨{ world.vec with len := before.length + 1 + after.length }, _, world.destroyed⟩, ?_,
    ⟨⟨howned.ptr, howned.capacity, howned.bytes, howned.room⟩, ?_, ?_, hplaced⟩, rfl⟩
  · unfold swapRemove
    rw [returns_readVec]
    simp only [hlen, if_neg (show ¬ before.length ≥ before.length + (after.length + 1 + 1) by omega),
      hlast, if_pos (show before.length ≠ before.length + 1 + after.length by omega)]
    refine (mul_returns (howned.offset hindex)).bind ?_
    refine (take_returns howned htake).bind ?_
    exact @move_returns _ _ { world with objects := rest } last _ (before.length + 1 + after.length)
      before.length left _ _ _ hmoved (by simp only; omega) hindex htakeLast hbehind.1 rfl
  · simp only [List.length_append, List.length_cons]
    omega
  · simp only
    omega

end Middle

theorem retain_returns (h : Holds pointee world contents) (predicate : List T → T → Bool) :
    ∃ next, Returns (retain pointee predicate) world () next ∧
      Holds pointee next (retained predicate [] contents).1 ∧
      next.destroyed = world.destroyed ++ (retained predicate [] contents).2 := by
  have howned := h.owned
  have hlen := h.len
  have hroom := h.room
  have hsplit : Split pointee world.objects [] 0 contents := (split_adjacent rfl).mpr h.placed
  obtain ⟨objects, hloop, hplaced⟩ :=
    @retainLoop_returns _ _ _ predicate [] contents [] 0 howned le_rfl (by omega) hsplit
  rw [Nat.zero_add, List.length_nil, List.nil_append] at hloop
  rw [List.nil_append] at hplaced
  have hkept := retained_length_le predicate [] contents
  refine ⟨⟨{ world.vec with len := (retained predicate [] contents).1.length }, objects,
    world.destroyed ++ (retained predicate [] contents).2⟩, ?_,
    ⟨⟨howned.ptr, howned.capacity, howned.bytes, howned.room⟩, rfl, ?_, hplaced⟩, rfl⟩
  · unfold retain
    rw [returns_readVec]
    simp only [hlen]
    exact hloop.bind rfl
  · simp only
    omega

/-- The destructor destroys every element and leaves no object behind. -/
theorem drop_returns_empty (h : Holds pointee world contents) :
    ∃ next, Returns (drop pointee) world () next ∧ next.objects = [] ∧ next.vec.len = 0 ∧
      next.vec.capacity = 0 ∧ next.destroyed = world.destroyed ++ contents.reverse := by
  obtain ⟨cleared, hclear, hcleared, hdestroyed⟩ := clear_returns h
  exact ⟨_, hclear.bind rfl, hcleared.placed.objects.eq_nil, hcleared.len, rfl, hdestroyed⟩

end Nocter.Vectors
