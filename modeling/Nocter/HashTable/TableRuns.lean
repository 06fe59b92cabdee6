import Nocter.HashTable.Mutation
import Nocter.Library.TransitionSystem

/-!
# Runs of tables

A table answers every call as the map of its entries does. A call that fails for
lack of memory leaves every mapping as it was.
-/

namespace Nocter.HashTable

open TransitionSystem

variable {K V : Type}

/-- A call with the allocations that are granted to it. -/
inductive TableOp (K V : Type) where
  | insert (grants : Grants) (key : K) (value : V)
  | tryInsert (grants : Grants) (key : K) (value : V)
  | remove (key : K)
  | reserve (grants : Grants) (additional : ℕ)
  | tryReserve (grants : Grants) (additional : ℕ)
  | clear
  | get (key : K)

/-- How a call fails for lack of memory. -/
def TableOp.failure : TableOp K V → Option Failure
  | .insert _ _ _ | .reserve _ _ => some .allocationAbort
  | .tryInsert _ _ _ | .tryReserve _ _ => some .error
  | .remove _ | .clear | .get _ => none

inductive Answer (V : Type) where
  | value (value : Option V)
  | done

/-- A call of the table, with the table it leaves. -/
def Table.apply (hasher : KeyHash K) (sizes : Sizes) (table : Table K V) :
    TableOp K V → Result (Answer V) × Table K V
  | .insert grants key value =>
    let (result, table) := table.insert hasher sizes grants key value
    (result.map .value, table)
  | .tryInsert grants key value =>
    let (result, table) := table.tryInsert hasher sizes grants key value
    (result.map .value, table)
  | .remove key =>
    match table.remove hasher key with
    | .error failure => (.error failure, table)
    | .ok (value, table) => (.ok (.value value), table)
  | .reserve grants additional =>
    let (result, table) := table.reserve hasher sizes grants additional
    (result.map fun _ => .done, table)
  | .tryReserve grants additional =>
    let (result, table) := table.tryReserve hasher sizes grants additional
    (result.map fun _ => .done, table)
  | .clear =>
    match table.clear with
    | .error failure => (.error failure, table)
    | .ok table => (.ok .done, table)
  | .get key => ((orTrap (table.get hasher key)).map .value, table)

/-- The same call of a map. -/
def Mapping.apply (hasher : KeyHash K) (mapping : Mapping K V) :
    TableOp K V → Answer V × Mapping K V
  | .insert _ key value | .tryInsert _ key value =>
    (.value (mapping key), mapping.insert hasher key value)
  | .remove key => (.value (mapping key), mapping.erase hasher key)
  | .reserve _ _ | .tryReserve _ _ => (.done, mapping)
  | .clear => (.done, .empty)
  | .get key => (.value (mapping key), mapping)

/-- Tables as they are constructed. -/
inductive Table.New (sizes : Sizes) : Table K V → Prop
  | empty : Table.New sizes .empty
  | withCapacity {grants : Grants} {minimum : ℕ} {table : Table K V}
      (h : Table.withCapacity sizes grants minimum = .ok table) : Table.New sizes table
  | tryWithCapacity {grants : Grants} {minimum : ℕ} {table : Table K V}
      (h : Table.tryWithCapacity sizes grants minimum = .ok table) : Table.New sizes table

/-- A table beside the map that it stands for. -/
structure TableWorld (K V : Type) where
  table : Table K V
  mapping : Mapping K V

namespace TableWorld

variable (hasher : KeyHash K) (sizes : Sizes)

/-- The map follows the calls that succeed. -/
def step (world : TableWorld K V) (op : TableOp K V) : TableWorld K V :=
  let (result, table) := world.table.apply hasher sizes op
  match result with
  | .ok _ => ⟨table, (world.mapping.apply hasher op).2⟩
  | .error _ => ⟨table, world.mapping⟩

def runs : TransitionSystem (TableWorld K V) where
  initial world := world.table.New sizes ∧ world.mapping = .empty
  next world world' := ∃ op, world.step hasher sizes op = world'

end TableWorld

variable {hasher : KeyHash K} {sizes : Sizes} {table : Table K V} {mapping : Mapping K V}

theorem Table.New.valid (h : table.New sizes) : table.Valid hasher ∧ table.Represents hasher .empty := by
  cases h with
  | empty =>
    exact ⟨Valid.vacant rfl rfl rfl (Or.inl rfl) (Nat.le_refl _), Represents.none rfl⟩
  | withCapacity h =>
    obtain ⟨bucketCount, hcount, h⟩ := bind_eq_ok.mp h
    obtain ⟨keys, hkeys, h⟩ := bind_eq_ok.mp h
    obtain ⟨values, hvalues, h⟩ := bind_eq_ok.mp h
    obtain ⟨buckets, hbuckets, h⟩ := bind_eq_ok.mp h
    obtain rfl := Vec.tryWithCapacity_ok (orAbort_eq_ok.mp hkeys)
    obtain rfl := Vec.tryWithCapacity_ok (orAbort_eq_ok.mp hvalues)
    obtain rfl := Vec.tryWithCapacity_ok (orAbort_eq_ok.mp hbuckets)
    have hsize := (bucketCountFor_ok (orAbort_eq_ok.mp hcount)).2
    rw [fillEmpty, fillWithin_eq _ _ (Nat.zero_add bucketCount).le, List.nil_append] at h
    have husable : (if bucketCount = 0 then 0 else usableCapacity bucketCount) =
        usableCapacity bucketCount := by
      split
      · next hzero =>
        rw [hzero]
        rfl
      · rfl
    cases h
    rw [husable]
    exact ⟨Valid.vacant rfl rfl rfl hsize (Nat.le_refl _), Represents.none rfl⟩
  | tryWithCapacity h =>
    obtain ⟨bucketCount, hcount, h⟩ := bind_eq_ok.mp h
    obtain ⟨keys, hkeys, h⟩ := bind_eq_ok.mp h
    obtain ⟨values, hvalues, h⟩ := bind_eq_ok.mp h
    obtain ⟨buckets, hbuckets, h⟩ := bind_eq_ok.mp h
    obtain rfl := Vec.tryWithCapacity_ok hkeys
    obtain rfl := Vec.tryWithCapacity_ok hvalues
    obtain rfl := Vec.tryWithCapacity_ok hbuckets
    rw [tryFillEmpty, fillWithin_eq _ _ (Nat.zero_add bucketCount).le, List.nil_append] at h
    cases h
    exact ⟨Valid.vacant rfl rfl rfl (bucketCountFor_ok hcount).2 (Nat.le_refl _),
      Represents.none rfl⟩

namespace Table

/-- A call answers as the map does and leaves a table of the next map; a failed one leaves a
table of the same map. -/
theorem Valid.apply (h : table.Valid hasher) (hmap : table.Represents hasher mapping)
    (sizes : Sizes) (op : TableOp K V) :
    ∃ result next, table.apply hasher sizes op = (result, next) ∧ next.Valid hasher ∧
      (result = .ok (mapping.apply hasher op).1 ∧
          next.Represents hasher (mapping.apply hasher op).2 ∨
        ∃ failure, op.failure = some failure ∧ result = .error failure ∧
          next.Represents hasher mapping) := by
  cases op with
  | insert grants key value =>
    obtain ⟨result, next, heq, hvalid, hresult⟩ := h.tryInsertValue hmap sizes grants key value
    refine ⟨_, next, by rw [Table.apply, Table.insert, heq], hvalid, ?_⟩
    obtain ⟨rfl, hnext⟩ | ⟨rfl, hnext⟩ := hresult
    · exact Or.inl ⟨rfl, hnext⟩
    · exact Or.inr ⟨_, rfl, rfl, hnext⟩
  | tryInsert grants key value =>
    obtain ⟨result, next, heq, hvalid, hresult⟩ := h.tryInsertValue hmap sizes grants key value
    refine ⟨_, next, by rw [Table.apply, Table.tryInsert, heq], hvalid, ?_⟩
    obtain ⟨rfl, hnext⟩ | ⟨rfl, hnext⟩ := hresult
    · exact Or.inl ⟨rfl, hnext⟩
    · exact Or.inr ⟨_, rfl, rfl, hnext⟩
  | remove key =>
    obtain ⟨next, heq, hvalid, hnext⟩ := h.remove hmap key
    exact ⟨_, next, by rw [Table.apply, heq]; rfl, hvalid, Or.inl ⟨rfl, hnext⟩⟩
  | reserve grants additional =>
    obtain ⟨result, next, heq, hvalid, hsame, hresult⟩ := h.tryReserveTable sizes grants additional
    refine ⟨_, next, by rw [Table.apply, Table.reserve, heq], hvalid, ?_⟩
    obtain ⟨rfl, _⟩ | rfl := hresult
    · exact Or.inl ⟨rfl, hmap.sameEntries hsame⟩
    · exact Or.inr ⟨_, rfl, rfl, hmap.sameEntries hsame⟩
  | tryReserve grants additional =>
    obtain ⟨result, next, heq, hvalid, hsame, hresult⟩ := h.tryReserveTable sizes grants additional
    refine ⟨_, next, by rw [Table.apply, Table.tryReserve, heq], hvalid, ?_⟩
    obtain ⟨rfl, _⟩ | rfl := hresult
    · exact Or.inl ⟨rfl, hmap.sameEntries hsame⟩
    · exact Or.inr ⟨_, rfl, rfl, hmap.sameEntries hsame⟩
  | clear =>
    obtain ⟨next, heq, hvalid, hnext⟩ := h.clear
    exact ⟨_, next, by rw [Table.apply, heq]; rfl, hvalid, Or.inl ⟨rfl, hnext⟩⟩
  | get key =>
    exact ⟨_, table, by rw [Table.apply, h.get hmap, orTrap_some]; rfl, h, Or.inl ⟨rfl, hmap⟩⟩

end Table

namespace TableWorld

variable {world : TableWorld K V}

theorem valid_of_reachable (h : (runs hasher sizes).Reachable world) :
    world.table.Valid hasher ∧ world.table.Represents hasher world.mapping := by
  refine h.invariant (P := fun world =>
    world.table.Valid hasher ∧ world.table.Represents hasher world.mapping) ?_ ?_
  · rintro start ⟨hnew, hmapping⟩
    rw [hmapping]
    exact hnew.valid
  · rintro before after ⟨hvalid, hmap⟩ ⟨op, rfl⟩
    obtain ⟨result, next, heq, hnext, hresult⟩ := hvalid.apply hmap sizes op
    unfold step
    rw [heq]
    obtain ⟨rfl, hmapping⟩ | ⟨failure, _, rfl, hmapping⟩ := hresult
    · exact ⟨hnext, hmapping⟩
    · exact ⟨hnext, hmapping⟩

theorem reachable_foldl (h : (runs hasher sizes).Reachable world) (ops : List (TableOp K V)) :
    (runs hasher sizes).Reachable (ops.foldl (step hasher sizes) world) := by
  induction ops generalizing world with
  | nil => exact h
  | cons op ops ih => exact ih (h.next ⟨op, rfl⟩)

/-- Numbers that are their own hashes. -/
def numberHash : KeyHash ℕ where
  hash key := key
  eq key key' := key == key'
  refl := beq_self_eq_true
  symm h := by
    rw [beq_iff_eq] at h ⊢
    exact h.symm
  trans h h' := by
    rw [beq_iff_eq] at h h' ⊢
    exact h.trans h'
  consistent h := by rw [beq_iff_eq.mp h]

/-- Two entries whose hashes collide, the first of them removed and the second moved. -/
def collided : TableWorld ℕ ℕ :=
  [TableOp.insert ⟨true, true, true, true⟩ 1 10, .insert ⟨true, true, true, true⟩ 9 90,
    .remove 1].foldl (step numberHash ⟨8, 8, 16⟩) ⟨.empty, .empty⟩

end TableWorld

end Nocter.HashTable
