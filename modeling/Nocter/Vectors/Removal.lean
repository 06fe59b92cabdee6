import Nocter.Vectors.Growth

/-!
# Elements moved through a hole

Each loop moves elements between two runs of slots with a hole between them. What a loop
leaves is described by the runs, and no step of it touches a slot in the wrong state.
-/

namespace Nocter.Vectors

open ObjectMemory

variable {T : Type} {pointee : Pointee T} {world : World T} {before after : List T} {start : ℕ}
  {value : T}

theorem mul_returns {a b : ℕ} (h : a * b ≤ maximumUsize) : Returns (mul a b) world (a * b) world := by
  rw [Returns, mul, if_pos h]
  rfl

theorem take_returns {offset : ℕ} {objects : List (ℕ × T)} (howned : Owned pointee world.vec)
    (htake : ObjectMemory.take offset world.objects = some (value, objects)) :
    Returns (takeValueAtPtr world.vec.ptr offset) world value { world with objects := objects } := by
  rw [Returns, takeValueAtPtr, if_neg (not_not.mpr howned.ptr), htake]

theorem store_returns {index : ℕ} (howned : Owned pointee world.vec)
    (hindex : index < world.vec.capacity)
    (hvacant : Vacant pointee world.objects (index * pointee.size)) :
    Returns (storeValueToPtr pointee world.vec.ptr (index * pointee.size) value) world ()
      { world with objects := (index * pointee.size, value) :: world.objects } := by
  rw [Returns, storeValueToPtr, if_neg (not_not.mpr howned.ptr),
    if_neg (not_lt.mpr (howned.slot hindex)), if_neg (not_not.mpr hvacant)]

theorem drop_returns {offset : ℕ} {objects : List (ℕ × T)} (howned : Owned pointee world.vec)
    (htake : ObjectMemory.take offset world.objects = some (value, objects)) :
    Returns (dropValueAtPtr world.vec.ptr offset) world ()
      { world with objects := objects, destroyed := world.destroyed ++ [value] } :=
  (take_returns howned htake).bind rfl

/-- One iteration of a loop that moves an element from a slot to the hole. -/
theorem move_returns {β : Type} {source hole : ℕ} {objects : List (ℕ × T)} {next : Op T β}
    {result : β} {final : World T} (howned : Owned pointee world.vec)
    (hsource : source < world.vec.capacity) (hhole : hole < world.vec.capacity)
    (htake : ObjectMemory.take (source * pointee.size) world.objects = some (value, objects))
    (hvacant : Vacant pointee objects (hole * pointee.size))
    (hnext : Returns next
      { world with objects := (hole * pointee.size, value) :: objects } result final) :
    Returns (do
        let sourceOffset ← mul source pointee.size
        let shifted ← takeValueAtPtr world.vec.ptr sourceOffset
        let holeOffset ← mul hole pointee.size
        storeValueToPtr pointee world.vec.ptr holeOffset shifted
        next) world result final := by
  refine (mul_returns (howned.offset hsource)).bind ?_
  refine (take_returns howned htake).bind ?_
  refine (mul_returns (howned.offset hhole)).bind ?_
  have hmoved : Owned pointee ({ world with objects := objects } : World T).vec := howned
  exact (store_returns hmoved hhole hvacant).bind hnext

/-- The loop of `insert` moves the elements from the index on by one slot. -/
theorem insertLoop_returns {moved : List T} (howned : Owned pointee world.vec)
    (hroom : before.length + moved.length < world.vec.capacity)
    (h : Split pointee world.objects (before ++ moved) (before.length + moved.length + 1) after) :
    ∃ objects, Returns (insertLoop pointee before.length moved.length) world ()
        { world with objects := objects } ∧
      Split pointee objects before (before.length + 1) (moved ++ after) := by
  induction moved using List.reverseRecOn generalizing world after with
  | nil =>
    rw [List.append_nil, List.length_nil, Nat.add_zero] at h
    exact ⟨world.objects, .pure (), h⟩
  | append_singleton moved value ih =>
    rw [List.length_append, List.length_singleton] at h hroom
    rw [← List.append_assoc] at h
    obtain ⟨rest, htake, hrest⟩ := h.takeBefore
    rw [List.length_append] at htake
    have hahead := hrest.storeAhead value (by rw [List.length_append]; omega)
    obtain ⟨objects, hreturns, hsplit⟩ :=
      @ih { world with objects := (_, value) :: rest } _ howned (by simp only; omega) hahead.2
    refine ⟨objects, ?_, ?_⟩
    · rw [List.length_append, List.length_singleton, insertLoop, returns_readVec]
      exact move_returns howned (by omega) (by omega) htake hahead.1 hreturns
    · rw [List.append_assoc, List.singleton_append]
      exact hsplit

/-- The loop of `remove` moves the elements behind the hole by one slot. -/
theorem removeLoop_returns (howned : Owned pointee world.vec)
    (hroom : before.length + after.length < world.vec.capacity)
    (h : Split pointee world.objects before (before.length + 1) after) :
    ∃ objects, Returns (removeLoop pointee before.length after.length) world ()
        { world with objects := objects } ∧
      Placed pointee objects (before ++ after).zipIdx := by
  induction after generalizing world before with
  | nil =>
    rw [split_nil_iff] at h
    rw [List.append_nil]
    exact ⟨world.objects, .pure (), h⟩
  | cons value after ih =>
    rw [List.length_cons] at hroom
    obtain ⟨rest, htake, hrest⟩ := h.takeAfter
    have hbehind := hrest.storeBehind value (by omega)
    have hlength : (before ++ [value]).length = before.length + 1 := by
      rw [List.length_append, List.length_singleton]
    obtain ⟨objects, hreturns, hplaced⟩ :=
      @ih { world with objects := (_, value) :: rest } (before ++ [value]) howned
        (by rw [hlength]; simp only; omega) (by rw [hlength]; exact hbehind.2)
    refine ⟨objects, ?_, ?_⟩
    · rw [List.length_cons, removeLoop, returns_readVec]
      rw [hlength] at hreturns
      exact move_returns howned (by omega) (by omega) htake hbehind.1 hreturns
    · rw [← List.append_cons] at hplaced
      exact hplaced

end Nocter.Vectors

/-!
# Elements removed from the end and by a predicate

A vector holds a list where its initialized slots are the elements of the list. Removal from
the end shortens the list; `retain` keeps the elements that its predicate accepts and leaves
the slots between the write and the read index vacant meanwhile.
-/

namespace Nocter.Vectors

open ObjectMemory

variable {T : Type} {pointee : Pointee T} {world : World T} {contents : List T} {value : T}

/-- The vector holds the elements of the list, one in each slot below its length. -/
structure Holds (pointee : Pointee T) (world : World T) (contents : List T) : Prop where
  owned : Owned pointee world.vec
  len : world.vec.len = contents.length
  room : world.vec.len ≤ world.vec.capacity
  placed : Placed pointee world.objects contents.zipIdx

theorem Placed.takeLast {objects : List (ℕ × T)}
    (h : Placed pointee objects (contents ++ [value]).zipIdx) :
    ∃ rest, ObjectMemory.take (contents.length * pointee.size) objects = some (value, rest) ∧
      Placed pointee rest contents.zipIdx := by
  have hsplit : Split pointee objects (contents ++ [value]) 0 [] := split_nil_iff.mpr h
  obtain ⟨rest, htake, hrest⟩ := hsplit.takeBefore
  exact ⟨rest, htake, split_nil_iff.mp hrest⟩

/-- A vector that is shortened by its last element, which is no longer live. -/
theorem Holds.shortened (h : Holds pointee world (contents ++ [value])) :
    ∃ rest, ObjectMemory.take (contents.length * pointee.size) world.objects = some (value, rest) ∧
      contents.length < world.vec.capacity ∧ ∀ destroyed, Holds pointee
        ⟨{ world.vec with len := contents.length }, rest, destroyed⟩ contents := by
  have hlen := h.len
  have hroom := h.room
  rw [List.length_append, List.length_singleton] at hlen
  obtain ⟨rest, htake, hrest⟩ := Placed.takeLast h.placed
  have howned := h.owned
  refine ⟨rest, htake, by omega, fun destroyed => ⟨?_, rfl, ?_, hrest⟩⟩
  · exact ⟨howned.ptr, howned.capacity, howned.bytes, howned.room⟩
  · simp only
    omega

theorem clearLoop_returns (h : Holds pointee world contents) :
    ∃ next, Returns (clearLoop pointee contents.length) world () next ∧ Holds pointee next [] ∧
      next.destroyed = world.destroyed ++ contents.reverse := by
  induction contents using List.reverseRecOn generalizing world with
  | nil =>
    rw [List.reverse_nil, List.append_nil]
    exact ⟨world, .pure (), h, rfl⟩
  | append_singleton contents value ih =>
    obtain ⟨rest, htake, hroom, hholds⟩ := h.shortened
    obtain ⟨next, hreturns, hnext, hdestroyed⟩ := ih (hholds (world.destroyed ++ [value]))
    refine ⟨next, ?_, hnext, ?_⟩
    · rw [List.length_append, List.length_singleton, clearLoop]
      have hshort := (hholds world.destroyed).owned
      refine Returns.bind rfl ?_
      rw [returns_readVec]
      refine (mul_returns (hshort.offset hroom)).bind ?_
      exact (@drop_returns _ _ ⟨_, world.objects, world.destroyed⟩ _ _ _ hshort htake).bind hreturns
    · rw [hdestroyed, List.reverse_append, List.reverse_singleton, List.append_assoc]

theorem clear_returns (h : Holds pointee world contents) :
    ∃ next, Returns (clear pointee) world () next ∧ Holds pointee next [] ∧
      next.destroyed = world.destroyed ++ contents.reverse := by
  obtain ⟨next, hreturns, hnext, hdestroyed⟩ := clearLoop_returns h
  refine ⟨next, ?_, hnext, hdestroyed⟩
  rw [clear, returns_readVec, h.len]
  exact hreturns

theorem pop_empty (h : Holds pointee world []) : Returns (pop pointee) world none world := by
  rw [pop, returns_readVec, h.len]
  exact .pure none

theorem pop_returns (h : Holds pointee world (contents ++ [value])) :
    ∃ next, Returns (pop pointee) world (some value) next ∧ Holds pointee next contents ∧
      next.destroyed = world.destroyed := by
  obtain ⟨rest, htake, hroom, hholds⟩ := h.shortened
  refine ⟨_, ?_, hholds world.destroyed, rfl⟩
  have hlen := h.len
  rw [List.length_append, List.length_singleton] at hlen
  have hshort := (hholds world.destroyed).owned
  rw [pop, returns_readVec, hlen, if_neg (Nat.succ_ne_zero _), Nat.add_sub_cancel]
  refine Returns.bind rfl ?_
  refine (mul_returns (hshort.offset hroom)).bind ?_
  exact (@take_returns _ _ ⟨_, world.objects, world.destroyed⟩ _ _ _ hshort htake).bind rfl

theorem truncateLoop_returns {removed : List T} (h : Holds pointee world (contents ++ removed)) :
    ∃ next, Returns (truncateLoop pointee removed.length) world () next ∧
      Holds pointee next contents ∧ next.destroyed = world.destroyed ++ removed.reverse := by
  induction removed using List.reverseRecOn generalizing world with
  | nil =>
    rw [List.append_nil] at h
    rw [List.reverse_nil, List.append_nil]
    exact ⟨world, .pure (), h, rfl⟩
  | append_singleton removed value ih =>
    rw [← List.append_assoc] at h
    obtain ⟨popped, hpop, hpopped, hsame⟩ := pop_returns h
    have hdestroy : Holds pointee { popped with destroyed := popped.destroyed ++ [value] }
        (contents ++ removed) := ⟨hpopped.owned, hpopped.len, hpopped.room, hpopped.placed⟩
    obtain ⟨next, hreturns, hnext, hdestroyed⟩ := ih hdestroy
    refine ⟨next, ?_, hnext, ?_⟩
    · rw [List.length_append, List.length_singleton, truncateLoop]
      refine hpop.bind ?_
      exact Returns.bind rfl hreturns
    · rw [hdestroyed, hsame, List.reverse_append, List.reverse_singleton, List.append_assoc]

theorem truncate_returns (h : Holds pointee world contents) (requestedLen : ℕ) :
    ∃ next, Returns (truncate pointee requestedLen) world () next ∧
      Holds pointee next (contents.take requestedLen) ∧
      next.destroyed = world.destroyed ++ (contents.drop requestedLen).reverse := by
  have hwhole := h
  rw [← List.take_append_drop requestedLen contents] at hwhole
  obtain ⟨next, hreturns, hnext, hdestroyed⟩ := truncateLoop_returns hwhole
  refine ⟨next, ?_, hnext, hdestroyed⟩
  rw [truncate, returns_readVec, h.len, ← List.length_drop]
  exact hreturns

/-! ### Retained elements -/

/-- The elements that a predicate keeps, and those that it rejects, in their order. -/
def retained (predicate : List T → T → Bool) : (shown : List T) → List T → List T × List T
  | _, [] => ([], [])
  | shown, value :: rest =>
    let (kept, rejected) := retained predicate (shown ++ [value]) rest
    if predicate shown value then (value :: kept, rejected) else (kept, value :: rejected)

theorem retained_kept {predicate : List T → T → Bool} {shown rest : List T}
    (h : predicate shown value = true) : retained predicate shown (value :: rest) =
      (value :: (retained predicate (shown ++ [value]) rest).1,
        (retained predicate (shown ++ [value]) rest).2) := by
  rw [retained]
  exact if_pos h

theorem retained_rejected {predicate : List T → T → Bool} {shown rest : List T}
    (h : predicate shown value = false) : retained predicate shown (value :: rest) =
      ((retained predicate (shown ++ [value]) rest).1,
        value :: (retained predicate (shown ++ [value]) rest).2) := by
  rw [retained]
  exact if_neg (by rw [h]; exact Bool.false_ne_true)

/-- Every element is kept or rejected. -/
theorem retained_perm (predicate : List T → T → Bool) (shown rest : List T) :
    ((retained predicate shown rest).1 ++ (retained predicate shown rest).2).Perm rest := by
  induction rest generalizing shown with
  | nil => exact .refl _
  | cons value rest ih =>
    have hrest := ih (shown ++ [value])
    cases hpredicate : predicate shown value with
    | true =>
      rw [retained_kept hpredicate]
      exact hrest.cons value
    | false =>
      rw [retained_rejected hpredicate]
      exact List.perm_middle.trans (hrest.cons value)

theorem retained_length_le (predicate : List T → T → Bool) (shown rest : List T) :
    (retained predicate shown rest).1.length ≤ rest.length := by
  have hlength := (retained_perm predicate shown rest).length_eq
  rw [List.length_append] at hlength
  omega

theorem view_returns {len index : ℕ} {objects : List (ℕ × T)} (howned : Owned pointee world.vec)
    (hindex : index < len)
    (htake : ObjectMemory.take (index * pointee.size) world.objects = some (value, objects)) :
    Returns (viewElement pointee world.vec.ptr len index) world value world := by
  rw [Returns, viewElement, if_neg (not_not.mpr howned.ptr), if_neg (not_le.mpr hindex), htake]

/-- The loop of `retain`: the kept elements are in the first slots, and those that are not yet
read in the slots from the read index on. -/
theorem retainLoop_returns {predicate : List T → T → Bool} {kept rest shown : List T}
    {readIndex : ℕ} (howned : Owned pointee world.vec) (hkept : kept.length ≤ readIndex)
    (hroom : readIndex + rest.length ≤ world.vec.capacity)
    (h : Split pointee world.objects kept readIndex rest) :
    ∃ objects, Returns (retainLoop pointee predicate (readIndex + rest.length) rest.length readIndex
        kept.length shown) world (kept ++ (retained predicate shown rest).1).length
        { world with objects := objects,
                     destroyed := world.destroyed ++ (retained predicate shown rest).2 } ∧
      Placed pointee objects (kept ++ (retained predicate shown rest).1).zipIdx := by
  induction rest generalizing world kept shown readIndex with
  | nil =>
    rw [split_nil_iff] at h
    simp only [retained, List.append_nil]
    exact ⟨world.objects, .pure _, h⟩
  | cons value rest ih =>
    rw [List.length_cons] at hroom
    obtain ⟨left, htake, hleft⟩ := h.takeAfter
    have hview := @view_returns _ _ _ _ (readIndex + (rest.length + 1)) _ _ howned (by omega) htake
    have hlength : readIndex + (rest.length + 1) = readIndex + 1 + rest.length := by omega
    cases hpredicate : predicate shown value with
    | true =>
      have hgrown : (kept ++ [value]).length = kept.length + 1 := by
        rw [List.length_append, List.length_singleton]
      rw [retained_kept hpredicate]
      simp only
      by_cases hplace : kept.length = readIndex
      · have hsplit : Split pointee world.objects (kept ++ [value]) (readIndex + 1) rest := by
          rw [split_adjacent (by rw [hgrown, hplace]), ← List.append_cons]
          exact (split_adjacent hplace.symm).mp h
        obtain ⟨objects, hreturns, hplaced⟩ :=
          @ih world (kept ++ [value]) (shown ++ [value]) (readIndex + 1) howned (by omega)
            (by omega) hsplit
        rw [← List.append_cons] at hreturns hplaced
        refine ⟨objects, ?_, hplaced⟩
        rw [List.length_cons, retainLoop, returns_readVec]
        refine hview.bind ?_
        rw [if_pos hpredicate, if_neg (not_not.mpr hplace), hlength]
        rw [hgrown] at hreturns
        exact hreturns
      · have hbehind := hleft.storeBehind value (by omega)
        obtain ⟨objects, hreturns, hplaced⟩ :=
          @ih { world with objects := (_, value) :: left } (kept ++ [value]) (shown ++ [value])
            (readIndex + 1) howned (by omega) (by simp only; omega) hbehind.2
        rw [← List.append_cons] at hreturns hplaced
        refine ⟨objects, ?_, hplaced⟩
        rw [List.length_cons, retainLoop, returns_readVec]
        refine hview.bind ?_
        rw [if_pos hpredicate, if_pos hplace, hlength]
        rw [hgrown] at hreturns
        exact move_returns howned (by omega) (by omega) htake hbehind.1 hreturns
    | false =>
      rw [retained_rejected hpredicate]
      simp only
      have hsplit : Split pointee left kept (readIndex + 1) rest := hleft
      obtain ⟨objects, hreturns, hplaced⟩ :=
        @ih { world with objects := left, destroyed := world.destroyed ++ [value] } kept
          (shown ++ [value]) (readIndex + 1) howned (by omega) (by simp only; omega) hsplit
      refine ⟨objects, ?_, hplaced⟩
      rw [List.length_cons, retainLoop, returns_readVec]
      refine hview.bind ?_
      rw [if_neg (by rw [hpredicate]; exact Bool.false_ne_true), hlength]
      refine (mul_returns (howned.offset (by omega))).bind ?_
      refine (drop_returns howned htake).bind ?_
      rw [List.append_assoc] at hreturns
      exact hreturns

end Nocter.Vectors
