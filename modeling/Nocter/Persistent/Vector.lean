import Mathlib.Data.Nat.Bitwise
import Mathlib.Data.List.Basic
import Mathlib.Tactic.Ring

/-!
# The persistent vector

An append-only vector as a 32-way tree. The stored elements are the shared
handles, so a vector of `Shared` values also answers whether two vectors hold
the same allocation at one position. A result of `none` from `push` stands for
the `unreachable!` arms of the tree walk. `Holds` says which list a tree
represents.
-/

namespace Nocter.Persistent

def branchBits : ℕ := 5

def branchFactor : ℕ := 2 ^ branchBits

instance : NeZero branchFactor := ⟨by decide⟩

/-- One reference-counted allocation. The address is its identity: it is given
out once and nothing else receives it while the allocation is alive. -/
structure Shared (α : Type) where
  address : ℕ
  value : α
  deriving DecidableEq

/-- `vacant` is an absent child; a node is a branch above the last level. -/
inductive VectorNode (α : Type) where
  | vacant
  | branch (children : Fin branchFactor → VectorNode α)
  | leaf (values : Fin branchFactor → Option α)

/-- The source's `shift` is `branchBits * levels`. -/
structure PersistentVector (α : Type) where
  root : VectorNode α
  levels : ℕ
  len : ℕ

variable {α : Type}

namespace VectorNode

def emptyLeaf : VectorNode α := .leaf fun _ => none

/-- The child slot of `index` at a level, `(index >> shift) & BRANCH_MASK`. -/
def slot (levels index : ℕ) : Fin branchFactor :=
  ⟨(index >>> (branchBits * levels)) % branchFactor, Nat.mod_lt _ (by decide)⟩

def get : ℕ → VectorNode α → ℕ → Option α
  | 0, .leaf values, index => values (slot 0 index)
  | levels + 1, .branch children, index => get levels (children (slot (levels + 1) index)) index
  | _, _, _ => none

def newPath : ℕ → ℕ → α → VectorNode α
  | 0, index, value => .leaf (Function.update (fun _ => none) (slot 0 index) (some value))
  | levels + 1, index, value =>
    .branch (Function.update (fun _ => .vacant) (slot (levels + 1) index)
      (newPath levels index value))

def pushAt : ℕ → VectorNode α → ℕ → α → Option (VectorNode α)
  | 0, .leaf values, index, value =>
    some (.leaf (Function.update values (slot 0 index) (some value)))
  | levels + 1, .branch children, index, value =>
    match children (slot (levels + 1) index) with
    | .vacant =>
      some (.branch (Function.update children (slot (levels + 1) index)
        (newPath levels index value)))
    | child => do
      let child ← pushAt levels child index value
      some (.branch (Function.update children (slot (levels + 1) index) child))
  | _, _, _, _ => none

end VectorNode

namespace PersistentVector

def empty : PersistentVector α := ⟨.emptyLeaf, 0, 0⟩

def capacity (levels : ℕ) : ℕ := 2 ^ (branchBits * levels + branchBits)

def get (vector : PersistentVector α) (index : ℕ) : Option α :=
  if index ≥ vector.len then none else vector.root.get vector.levels index

/-- Whether both vectors hold the same allocation at `index`. -/
def sharesValueAt (vector other : PersistentVector (Shared α)) (index : ℕ) : Bool :=
  match vector.get index, other.get index with
  | some left, some right => left.address == right.address
  | _, _ => false

def push (vector : PersistentVector α) (value : α) : Option (PersistentVector α) :=
  if vector.len = capacity vector.levels then
    let children := Function.update (Function.update (fun _ => VectorNode.vacant) 0 vector.root) 1
      (VectorNode.newPath vector.levels vector.len value)
    some ⟨.branch children, vector.levels + 1, vector.len + 1⟩
  else do
    let root ← vector.root.pushAt vector.levels vector.len value
    some ⟨root, vector.levels, vector.len + 1⟩

end PersistentVector

/-- The number of elements below one node of a level. -/
def span (levels : ℕ) : ℕ := branchFactor ^ (levels + 1)

theorem span_pos (levels : ℕ) : 0 < span levels := Nat.pow_pos (by decide)

theorem span_succ (levels : ℕ) : span (levels + 1) = span levels * branchFactor := by
  rw [span, pow_succ, ← span]

theorem capacity_eq_span (levels : ℕ) : PersistentVector.capacity levels = span levels := by
  rw [PersistentVector.capacity, span, branchFactor, ← pow_mul]
  congr 1

theorem slot_zero (index : ℕ) : (VectorNode.slot 0 index : ℕ) = index % branchFactor := by
  simp [VectorNode.slot]

theorem slot_succ (levels index : ℕ) :
    (VectorNode.slot (levels + 1) index : ℕ) = index / span levels % branchFactor := by
  simp only [VectorNode.slot, Nat.shiftRight_eq_div_pow, span, branchFactor, pow_mul]

/-- The part of a list that one child of a node covers. -/
def chunk (levels : ℕ) (xs : List α) (child : ℕ) : List α :=
  (xs.drop (child * span levels)).take (span levels)

theorem chunk_getElem? {levels : ℕ} {xs : List α} {child offset : ℕ} (h : offset < span levels) :
    (chunk levels xs child)[offset]? = xs[child * span levels + offset]? := by
  rw [chunk, List.getElem?_take_of_lt h, List.getElem?_drop]

theorem chunk_eq_nil {levels : ℕ} {xs : List α} {child : ℕ} :
    chunk levels xs child = [] ↔ xs.length ≤ child * span levels := by
  have hpos := span_pos levels
  rw [chunk, List.take_eq_nil_iff, List.drop_eq_nil_iff]
  omega

theorem chunk_append_before {levels : ℕ} {xs : List α} {child : ℕ} (value : α)
    (h : child < xs.length / span levels) :
    chunk levels (xs ++ [value]) child = chunk levels xs child := by
  have hmul : (child + 1) * span levels ≤ xs.length :=
    (Nat.le_div_iff_mul_le (span_pos levels)).mp h
  rw [Nat.add_mul, Nat.one_mul] at hmul
  rw [chunk, chunk, List.drop_append_of_le_length (by omega), List.take_append_of_le_length]
  rw [List.length_drop]
  omega

theorem chunk_append_at {levels : ℕ} (xs : List α) (value : α) :
    chunk levels (xs ++ [value]) (xs.length / span levels) =
      chunk levels xs (xs.length / span levels) ++ [value] := by
  have hpos := span_pos levels
  have hdiv := Nat.div_add_mod' xs.length (span levels)
  have hmod := Nat.mod_lt xs.length hpos
  rw [chunk, chunk, List.drop_append_of_le_length (by omega)]
  rw [List.take_of_length_le, List.take_of_length_le]
  · rw [List.length_drop]
    omega
  · rw [List.length_append, List.length_drop, List.length_singleton]
    omega

theorem chunk_append_after {levels : ℕ} {xs : List α} {child : ℕ} (value : α)
    (h : xs.length / span levels < child) :
    chunk levels (xs ++ [value]) child = [] ∧ chunk levels xs child = [] := by
  have hmul : xs.length < child * span levels := (Nat.div_lt_iff_lt_mul (span_pos levels)).mp h
  rw [chunk_eq_nil, chunk_eq_nil, List.length_append, List.length_singleton]
  omega

/-- The node holds exactly the elements of the list, in order. -/
def Holds : ℕ → VectorNode α → List α → Prop
  | 0, .leaf values, xs => xs.length ≤ branchFactor ∧ ∀ s : Fin branchFactor, values s = xs[s.val]?
  | levels + 1, .branch children, xs =>
    xs.length ≤ span (levels + 1) ∧ ∀ s : Fin branchFactor,
      (chunk levels xs s = [] ∧ children s = .vacant) ∨
        (chunk levels xs s ≠ [] ∧ Holds levels (children s) (chunk levels xs s))
  | _, _, _ => False

theorem holds_length {levels : ℕ} {node : VectorNode α} {xs : List α} (h : Holds levels node xs) :
    xs.length ≤ span levels := by
  cases levels with
  | zero =>
    cases node with
    | leaf values => simpa [span] using h.1
    | vacant => exact h.elim
    | branch children => exact h.elim
  | succ levels =>
    cases node with
    | branch children => exact h.1
    | vacant => exact h.elim
    | leaf values => exact h.elim

theorem not_holds_vacant {levels : ℕ} {xs : List α} : ¬ Holds levels .vacant xs := by
  cases levels <;> exact id

@[simp] theorem get_vacant (levels index : ℕ) :
    (VectorNode.vacant : VectorNode α).get levels index = none := by
  cases levels <;> rfl

theorem get_of_holds {levels : ℕ} {node : VectorNode α} {xs : List α} (h : Holds levels node xs)
    (index : ℕ) : node.get levels index = xs[index % span levels]? := by
  induction levels generalizing node xs with
  | zero =>
    cases node with
    | leaf values =>
      rw [VectorNode.get, h.2, slot_zero, span, zero_add, pow_one]
    | vacant => exact h.elim
    | branch children => exact h.elim
  | succ levels ih =>
    cases node with
    | branch children =>
      have hoffset := Nat.mod_lt index (span_pos levels)
      have hindex : index % span (levels + 1) =
          VectorNode.slot (levels + 1) index * span levels + index % span levels := by
        rw [span_succ, Nat.mod_mul, slot_succ]
        ring
      rw [VectorNode.get, hindex, ← chunk_getElem? hoffset]
      rcases h.2 (VectorNode.slot (levels + 1) index) with ⟨hnil, hvacant⟩ | ⟨_, hchild⟩
      · rw [hvacant, hnil, get_vacant, List.getElem?_nil]
      · rw [ih hchild]
    | vacant => exact h.elim
    | leaf values => exact h.elim

theorem newPath_holds {levels index : ℕ} (value : α) (h : index % span levels = 0) :
    Holds levels (VectorNode.newPath levels index value) [value] := by
  induction levels with
  | zero =>
    refine ⟨Nat.one_le_two_pow, fun s => ?_⟩
    have hslot : (VectorNode.slot 0 index : ℕ) = 0 := by
      rw [slot_zero]
      simpa [span] using h
    by_cases hs : s = VectorNode.slot 0 index
    · rw [hs, Function.update_self, hslot]
      rfl
    · have hne : s.val ≠ 0 := fun h0 => hs (Fin.ext (by rw [h0, hslot]))
      rw [Function.update_of_ne hs, List.getElem?_eq_none (Nat.pos_of_ne_zero hne)]
  | succ levels ih =>
    rw [span_succ, Nat.mod_mul] at h
    have hspan := span_pos levels
    have hslot : (VectorNode.slot (levels + 1) index : ℕ) = 0 := by
      rw [slot_succ]
      rcases Nat.mul_eq_zero.mp (Nat.eq_zero_of_add_eq_zero_left h) with h0 | h0
      · omega
      · exact h0
    refine ⟨span_pos (levels + 1), fun s => ?_⟩
    by_cases hs : s = VectorNode.slot (levels + 1) index
    · right
      have hchunk : chunk levels [value] s = [value] := by
        rw [hs, hslot, chunk, Nat.zero_mul, List.drop_zero, List.take_of_length_le hspan]
      rw [hchunk, hs, Function.update_self]
      exact ⟨List.cons_ne_nil _ _, ih (by omega)⟩
    · left
      have hne : 0 < s.val := Nat.pos_of_ne_zero fun h0 => hs (Fin.ext (by rw [h0, hslot]))
      refine ⟨chunk_eq_nil.mpr (Nat.mul_pos hne hspan), ?_⟩
      rw [Function.update_of_ne hs]

/-- A child keeps what it held when the new element belongs to another child. -/
theorem holds_child_append {levels : ℕ} {xs : List α} {child : VectorNode α} {s : ℕ} (value : α)
    (hs : s ≠ xs.length / span levels)
    (h : (chunk levels xs s = [] ∧ child = .vacant) ∨
      (chunk levels xs s ≠ [] ∧ Holds levels child (chunk levels xs s))) :
    (chunk levels (xs ++ [value]) s = [] ∧ child = .vacant) ∨
      (chunk levels (xs ++ [value]) s ≠ [] ∧
        Holds levels child (chunk levels (xs ++ [value]) s)) := by
  rcases Nat.lt_or_gt_of_ne hs with hlt | hgt
  · rw [chunk_append_before value hlt]
    exact h
  · have hafter := chunk_append_after value hgt
    rw [hafter.1]
    rw [hafter.2] at h
    exact h

theorem pushAt_holds {levels index : ℕ} {node : VectorNode α} {xs : List α} (value : α)
    (h : Holds levels node xs) (hindex : index % span levels = xs.length) :
    ∃ node', node.pushAt levels index value = some node' ∧ Holds levels node' (xs ++ [value]) := by
  induction levels generalizing node xs with
  | zero =>
    cases node with
    | leaf values =>
      have hslot : (VectorNode.slot 0 index : ℕ) = xs.length := by
        rw [slot_zero, ← hindex, span, zero_add, pow_one]
      have hlt := (VectorNode.slot 0 index).isLt
      refine ⟨_, rfl, by rw [List.length_append, List.length_singleton]; omega, fun s => ?_⟩
      by_cases hs : s = VectorNode.slot 0 index
      · rw [hs, Function.update_self, hslot, List.getElem?_concat_length]
      · have hne : s.val ≠ xs.length := fun he => hs (Fin.ext (by rw [he, hslot]))
        rw [Function.update_of_ne hs, h.2]
        rcases Nat.lt_or_gt_of_ne hne with hlt | hgt
        · rw [List.getElem?_append_left hlt]
        · rw [List.getElem?_eq_none hgt.le, List.getElem?_eq_none (by rw [List.length_append]; exact hgt)]
    | vacant => exact h.elim
    | branch children => exact h.elim
  | succ levels ih =>
    cases node with
    | branch children =>
      have hspan := span_pos levels
      have hmod := Nat.mod_lt index (span_pos (levels + 1))
      rw [hindex, span_succ] at hmod
      rw [span_succ, Nat.mod_mul] at hindex
      have hoffset : index % span levels = xs.length % span levels := by
        rw [← hindex, Nat.add_mul_mod_self_left, Nat.mod_mod]
      have hslot : (VectorNode.slot (levels + 1) index : ℕ) = xs.length / span levels := by
        rw [slot_succ, ← hindex, Nat.add_mul_div_left _ _ hspan,
          Nat.div_eq_of_lt (Nat.mod_lt _ hspan), Nat.zero_add]
      have hlen : (xs ++ [value]).length ≤ span (levels + 1) := by
        rw [List.length_append, List.length_singleton, span_succ]
        exact hmod
      have hothers : ∀ s, s ≠ VectorNode.slot (levels + 1) index → s.val ≠ xs.length / span levels :=
        fun s hs he => hs (Fin.ext (by rw [he, hslot]))
      -- the child at the slot receives the element, the others keep their parts
      suffices hchild : ∃ child', (VectorNode.branch children).pushAt (levels + 1) index value =
          some (.branch (Function.update children (VectorNode.slot (levels + 1) index) child')) ∧
          Holds levels child' (chunk levels xs (xs.length / span levels) ++ [value]) by
        obtain ⟨child', hpush, hholds⟩ := hchild
        refine ⟨_, hpush, hlen, fun s => ?_⟩
        by_cases hs : s = VectorNode.slot (levels + 1) index
        · right
          rw [hs, hslot, chunk_append_at, Function.update_self]
          exact ⟨List.append_ne_nil_of_right_ne_nil _ (List.cons_ne_nil _ _), hholds⟩
        · rw [Function.update_of_ne hs]
          exact holds_child_append value (hothers s hs) (h.2 s)
      rcases h.2 (VectorNode.slot (levels + 1) index) with ⟨hnil, hvacant⟩ | ⟨_, hchild⟩
      · rw [hslot] at hnil
        have hfull : xs.length % span levels = 0 := by
          have := chunk_eq_nil.mp hnil
          have := Nat.div_add_mod' xs.length (span levels)
          omega
        refine ⟨VectorNode.newPath levels index value, ?_, ?_⟩
        · simp only [VectorNode.pushAt, hvacant]
        · rw [hnil]
          exact newPath_holds value (hoffset.trans hfull)
      · rw [hslot] at hchild
        have hlength : (chunk levels xs (xs.length / span levels)).length =
            xs.length % span levels := by
          have := Nat.div_add_mod' xs.length (span levels)
          have := Nat.mod_lt xs.length hspan
          rw [chunk, List.length_take, List.length_drop]
          omega
        obtain ⟨child', hpush, hholds⟩ := ih hchild (hoffset.trans hlength.symm)
        refine ⟨child', ?_, hholds⟩
        have hpresent : children (VectorNode.slot (levels + 1) index) ≠ .vacant := by
          intro hvacant
          rw [hvacant] at hchild
          exact not_holds_vacant hchild
        rw [VectorNode.pushAt]
        split
        · contradiction
        · rw [hpush]
          rfl
    | vacant => exact h.elim
    | leaf values => exact h.elim

namespace PersistentVector

/-- The vector stands for the list. -/
structure Represents (vector : PersistentVector α) (xs : List α) : Prop where
  len_eq : vector.len = xs.length
  holds : Holds vector.levels vector.root xs

theorem empty_represents : (empty : PersistentVector α).Represents [] :=
  ⟨rfl, Nat.zero_le _, fun _ => rfl⟩

variable {vector : PersistentVector α} {xs : List α}

theorem Represents.get_eq (h : vector.Represents xs) (index : ℕ) :
    vector.get index = xs[index]? := by
  rw [get]
  split
  case isTrue hge =>
    rw [h.len_eq] at hge
    rw [List.getElem?_eq_none hge]
  case isFalse hlt =>
    rw [h.len_eq, not_le] at hlt
    rw [get_of_holds h.holds, Nat.mod_eq_of_lt (hlt.trans_le (holds_length h.holds))]

theorem Represents.push (h : vector.Represents xs) (value : α) :
    ∃ vector', vector.push value = some vector' ∧ vector'.Represents (xs ++ [value]) := by
  have hspan := span_pos vector.levels
  have hlength := holds_length h.holds
  rw [PersistentVector.push, capacity_eq_span, h.len_eq]
  by_cases hfull : xs.length = span vector.levels
  · rw [if_pos hfull]
    refine ⟨_, rfl, by simp, ?_, fun s => ?_⟩
    · have hfactor : 2 ≤ branchFactor := by decide
      have := Nat.mul_le_mul_left (span vector.levels) hfactor
      rw [List.length_append, List.length_singleton, span_succ]
      omega
    have hdiv : xs.length / span vector.levels = 1 := by rw [hfull, Nat.div_self hspan]
    by_cases hs1 : s = 1
    · right
      have hchunk : chunk vector.levels (xs ++ [value]) s = [value] := by
        rw [hs1, show ((1 : Fin branchFactor) : ℕ) = xs.length / span vector.levels from hdiv.symm,
          chunk_append_at, hdiv, chunk_eq_nil.mpr (by omega), List.nil_append]
      rw [hchunk, hs1, Function.update_self]
      exact ⟨List.cons_ne_nil _ _, newPath_holds value (by rw [hfull, Nat.mod_self])⟩
    rw [Function.update_of_ne hs1]
    by_cases hs0 : s = 0
    · right
      have hchunk : chunk vector.levels (xs ++ [value]) s = xs := by
        rw [hs0, chunk_append_before value (by rw [hdiv]; exact Nat.zero_lt_one), chunk,
          Fin.val_zero, Nat.zero_mul, List.drop_zero, List.take_of_length_le hlength]
      rw [hchunk, hs0, Function.update_self]
      exact ⟨fun hnil => by simp [hnil] at hfull; omega, h.holds⟩
    · left
      rw [Function.update_of_ne hs0]
      refine ⟨(chunk_append_after value ?_).1, rfl⟩
      have h0 : s.val ≠ 0 := fun h0 => hs0 (Fin.ext h0)
      have h1 : s.val ≠ 1 := fun h1 => hs1 (Fin.ext h1)
      omega
  · rw [if_neg hfull]
    obtain ⟨root, hpush, hholds⟩ := pushAt_holds value h.holds
      (Nat.mod_eq_of_lt (lt_of_le_of_ne hlength hfull))
    rw [hpush]
    exact ⟨_, rfl, by simp, hholds⟩

end PersistentVector

end Nocter.Persistent
