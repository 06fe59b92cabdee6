import Nocter.Library.Clones
import Nocter.Library.Loop
import Nocter.Persistent.Vector

/-!
# Updating and traversing the persistent vector

An update copies the path to one element. A traversal keeps the branches it is in on a
stack and yields the elements of the tree in order.
-/

namespace Nocter.Persistent

variable {α : Type}

namespace VectorNode

/-- `none` stands for the `unreachable!` arms and the `expect` of a missing path. -/
def setAt : ℕ → VectorNode α → ℕ → α → Option (VectorNode α)
  | 0, .leaf values, index, value =>
    some (.leaf (Function.update values (slot 0 index) (some value)))
  | levels + 1, .branch children, index, value =>
    match children (slot (levels + 1) index) with
    | .vacant => none
    | child => do
      let child ← setAt levels child index value
      some (.branch (Function.update children (slot (levels + 1) index) child))
  | _, _, _, _ => none

/-- The elements below a node in the order of a traversal. -/
def elements : VectorNode α → List α
  | .vacant => []
  | .branch children => (List.finRange branchFactor).flatMap fun s => (children s).elements
  | .leaf values => (List.finRange branchFactor).filterMap values

/-- The steps that the traversal of a node takes. -/
def weight : VectorNode α → ℕ
  | .vacant => 0
  | .branch children =>
    ((List.finRange branchFactor).map fun s => (children s).weight + 1).sum + 1
  | .leaf _ => branchFactor + 1

end VectorNode

/-- The result is `none` outside the vector. -/
def PersistentVector.set (vector : PersistentVector α) (index : ℕ) (value : α) :
    Option (Option (PersistentVector α)) :=
  if index ≥ vector.len then some none
  else do
    let root ← vector.root.setAt vector.levels index value
    some (some { vector with root })

inductive VectorIterFrame (α : Type) where
  | branch (children : Fin branchFactor → VectorNode α) (next : ℕ)
  | leaf (values : Fin branchFactor → Option α) (next : ℕ)

structure PersistentVectorIter (α : Type) where
  stack : List (VectorIterFrame α)
  remaining : ℕ

/-- The frame of a node that is present. -/
def VectorIterFrame.new : VectorNode α → Option (VectorIterFrame α)
  | .vacant => none
  | .branch children => some (.branch children 0)
  | .leaf values => some (.leaf values 0)

def PersistentVector.iter (vector : PersistentVector α) : PersistentVectorIter α :=
  ⟨(VectorIterFrame.new vector.root).toList, vector.len⟩

namespace PersistentVectorIter

/-- One pass of the loop of `next`. It traps where `remaining` would wrap or the traversal
ends early. -/
def pass (iter : PersistentVectorIter α) :
    Option (PersistentVectorIter α ⊕ Option α × PersistentVectorIter α) :=
  match iter.stack with
  | [] => if iter.remaining = 0 then some (.inr (none, iter)) else none
  | .branch children next :: stack =>
    if h : next < branchFactor then
      let stack := .branch children (next + 1) :: stack
      match VectorIterFrame.new (children ⟨next, h⟩) with
      | none => some (.inl { iter with stack })
      | some frame => some (.inl { iter with stack := frame :: stack })
    else some (.inl { iter with stack })
  | .leaf values next :: stack =>
    if h : next < branchFactor then
      let stack := .leaf values (next + 1) :: stack
      match values ⟨next, h⟩ with
      | none => some (.inl { iter with stack })
      | some value =>
        if iter.remaining = 0 then none
        else some (.inr (some value, ⟨stack, iter.remaining - 1⟩))
    else some (.inl { iter with stack })

end PersistentVectorIter

namespace VectorIterFrame

/-- The elements that a frame has not yielded. -/
def pending : VectorIterFrame α → List α
  | .branch children next =>
    ((List.finRange branchFactor).drop next).flatMap fun s => (children s).elements
  | .leaf values next => ((List.finRange branchFactor).drop next).filterMap values

def weight : VectorIterFrame α → ℕ
  | .branch children next =>
    (((List.finRange branchFactor).drop next).map fun s => (children s).weight + 1).sum + 1
  | .leaf _ next => branchFactor - next + 1

theorem new_pending (node : VectorNode α) : (new node).toList.flatMap pending = node.elements := by
  cases node with
  | vacant => rfl
  | branch children => exact List.append_nil _
  | leaf values => exact List.append_nil _

theorem new_weight (node : VectorNode α) : ((new node).toList.map weight).sum = node.weight := by
  cases node with
  | vacant => rfl
  | branch children =>
    simp only [new, Option.toList_some, List.map_cons, List.map_nil, List.sum_singleton, weight,
      List.drop_zero, VectorNode.weight]
  | leaf values => rfl

end VectorIterFrame

namespace PersistentVectorIter

/-- `next`, with a pass for every step that the frames take. -/
def next (iter : PersistentVectorIter α) : Option (Option α × PersistentVectorIter α) :=
  Loop.attempt pass ((iter.stack.map VectorIterFrame.weight).sum + 1) iter

def pending (iter : PersistentVectorIter α) : List α := iter.stack.flatMap VectorIterFrame.pending

/-- The elements that so many calls of `next` yield before the end. -/
def collect : ℕ → PersistentVectorIter α → Option (List α)
  | 0, _ => none
  | calls + 1, iter => do
    let (value, iter) ← iter.next
    match value with
    | none => some []
    | some value => do
      let values ← collect calls iter
      some (value :: values)

/-- The traversal counts what it has not yielded. -/
def Counts (values : List α) (iter : PersistentVectorIter α) : Prop :=
  iter.pending = values ∧ iter.remaining = values.length

theorem drop_finRange {count next : ℕ} (h : next < count) :
    (List.finRange count).drop next = ⟨next, h⟩ :: (List.finRange count).drop (next + 1) := by
  rw [List.drop_eq_getElem_cons (by rwa [List.length_finRange]), List.getElem_finRange]
  rfl

theorem drop_finRange_eq_nil {count next : ℕ} (h : ¬next < count) :
    (List.finRange count).drop next = [] := by
  rw [List.drop_eq_nil_iff, List.length_finRange]
  exact Nat.le_of_not_lt h

/-- A pass yields the next element or comes closer to it. -/
theorem pass_spec {values : List α} (iter : PersistentVectorIter α) (h : Counts values iter) :
    (∃ later, iter.pass = some (.inl later) ∧ Counts values later ∧
      (later.stack.map VectorIterFrame.weight).sum <
        (iter.stack.map VectorIterFrame.weight).sum) ∨
    ∃ result, iter.pass = some (.inr result) ∧ result.1 = values.head? ∧
      Counts values.tail result.2 := by
  obtain ⟨hpending, hremaining⟩ := h
  obtain ⟨stack, remaining⟩ := iter
  dsimp only at hremaining
  subst hremaining
  unfold pending at hpending
  dsimp only at hpending
  cases stack with
  | nil =>
    subst hpending
    exact Or.inr ⟨_, rfl, rfl, rfl, rfl⟩
  | cons frame stack =>
    rw [List.flatMap_cons] at hpending
    cases frame with
    | branch children next =>
      left
      by_cases hnext : next < branchFactor
      · have hframe : (VectorIterFrame.branch children next).pending =
            (children ⟨next, hnext⟩).elements ++
              (VectorIterFrame.branch children (next + 1)).pending := by
          rw [VectorIterFrame.pending, drop_finRange hnext, List.flatMap_cons]
          rfl
        have hweight : (VectorIterFrame.branch children next).weight =
            (children ⟨next, hnext⟩).weight +
              (VectorIterFrame.branch children (next + 1)).weight + 1 := by
          rw [VectorIterFrame.weight, drop_finRange hnext, List.map_cons, List.sum_cons,
            VectorIterFrame.weight]
          omega
        have hpass : (⟨.branch children next :: stack, values.length⟩ :
            PersistentVectorIter α).pass = some (.inl ⟨(VectorIterFrame.new
              (children ⟨next, hnext⟩)).toList ++ .branch children (next + 1) :: stack,
                values.length⟩) := by
          simp only [pass, dif_pos hnext]
          cases VectorIterFrame.new (children ⟨next, hnext⟩) <;> rfl
        refine ⟨_, hpass, ⟨?_, rfl⟩, ?_⟩
        · rw [pending, List.flatMap_append, VectorIterFrame.new_pending, List.flatMap_cons,
            ← List.append_assoc, ← hframe]
          exact hpending
        · rw [List.map_append, List.sum_append, VectorIterFrame.new_weight, List.map_cons,
            List.sum_cons, List.map_cons, List.sum_cons, hweight]
          omega
      · have hframe : (VectorIterFrame.branch children next).pending = [] := by
          rw [VectorIterFrame.pending, drop_finRange_eq_nil hnext]
          rfl
        rw [hframe, List.nil_append] at hpending
        refine ⟨⟨stack, values.length⟩, by simp only [pass, dif_neg hnext], ⟨hpending, rfl⟩, ?_⟩
        simp only [List.map_cons, List.sum_cons, VectorIterFrame.weight]
        omega
    | leaf held next =>
      by_cases hnext : next < branchFactor
      · have hframe : (VectorIterFrame.leaf held next).pending =
            (held ⟨next, hnext⟩).toList ++ (VectorIterFrame.leaf held (next + 1)).pending := by
          rw [VectorIterFrame.pending, drop_finRange hnext, List.filterMap_cons,
            VectorIterFrame.pending]
          cases held ⟨next, hnext⟩ <;> rfl
        rw [hframe] at hpending
        cases hvalue : held ⟨next, hnext⟩ with
        | none =>
          left
          rw [hvalue] at hpending
          refine ⟨⟨.leaf held (next + 1) :: stack, values.length⟩, ?_, ⟨hpending, rfl⟩, ?_⟩
          · simp only [pass, dif_pos hnext, hvalue]
          · simp only [List.map_cons, List.sum_cons, VectorIterFrame.weight]
            omega
        | some value =>
          right
          rw [hvalue, Option.toList_some, List.singleton_append, List.cons_append] at hpending
          subst hpending
          refine ⟨(some value, ⟨.leaf held (next + 1) :: stack, _⟩), ?_, rfl, rfl, rfl⟩
          simp only [pass, dif_pos hnext, hvalue, List.length_cons, Nat.add_one_ne_zero, if_false,
            Nat.add_sub_cancel, List.tail_cons]
      · left
        have hframe : (VectorIterFrame.leaf held next).pending = [] := by
          rw [VectorIterFrame.pending, drop_finRange_eq_nil hnext]
          rfl
        rw [hframe, List.nil_append] at hpending
        refine ⟨⟨stack, values.length⟩, by simp only [pass, dif_neg hnext], ⟨hpending, rfl⟩, ?_⟩
        simp only [List.map_cons, List.sum_cons, VectorIterFrame.weight]
        omega

theorem next_spec {values : List α} (iter : PersistentVectorIter α) (h : Counts values iter) :
    ∃ result, iter.next = some result ∧ result.1 = values.head? ∧ Counts values.tail result.2 :=
  Loop.attempt_spec (P := Counts values)
    (Q := fun result : Option α × PersistentVectorIter α => result.1 = values.head? ∧ Counts values.tail result.2)
    (fun iter => (iter.stack.map VectorIterFrame.weight).sum) pass_spec h (Nat.lt_succ_self _)

/-- The calls of `next` yield the pending elements in order, and then the end. -/
theorem collect_eq {values : List α} {iter : PersistentVectorIter α} (h : Counts values iter)
    {calls : ℕ} (hcalls : values.length < calls) : iter.collect calls = some values := by
  induction calls generalizing values iter with
  | zero => exact absurd hcalls (Nat.not_lt_zero _)
  | succ calls ih =>
    obtain ⟨⟨value, later⟩, hnext, hvalue, hcounts⟩ := next_spec iter h
    dsimp only at hvalue hcounts
    simp only [collect, hnext, Option.bind_eq_bind, Option.bind_some, hvalue]
    cases values with
    | nil => rfl
    | cons first rest =>
      rw [List.tail_cons] at hcounts
      rw [List.length_cons] at hcalls
      simp only [List.head?_cons, ih hcounts (Nat.lt_of_succ_lt_succ hcalls), Option.bind_some]

end PersistentVectorIter

section Elements

/-- A list is its chunks one after the other. -/
theorem flatMap_chunk (levels : ℕ) (xs : List α) (count : ℕ) :
    (List.range count).flatMap (fun child => chunk levels xs child) =
      xs.take (count * span levels) := by
  induction count with
  | zero => rw [Nat.zero_mul, List.take_zero]; rfl
  | succ count ih =>
    rw [List.range_succ, List.flatMap_append, ih, List.flatMap_cons, List.flatMap_nil,
      List.append_nil, chunk, Nat.add_mul, Nat.one_mul, List.take_add]

theorem filterMap_range (xs : List α) (count : ℕ) :
    (List.range count).filterMap (fun index => xs[index]?) = xs.take count := by
  induction count with
  | zero => rfl
  | succ count ih =>
    rw [List.range_succ, List.filterMap_append, ih, List.take_add_one, List.filterMap_cons,
      List.filterMap_nil]
    cases xs[count]? <;> rfl

theorem finRange_flatMap {β : Type} (count : ℕ) (f : ℕ → List β) :
    (List.finRange count).flatMap (fun s => f s.val) = (List.range count).flatMap f := by
  have hrange : (List.finRange count).map Fin.val = List.range count :=
    List.map_coe_finRange_eq_range
  rw [← hrange, List.flatMap_map]

/-- The traversal of a node meets the elements it holds. -/
theorem elements_of_holds {levels : ℕ} {node : VectorNode α} {xs : List α}
    (h : Holds levels node xs) : node.elements = xs := by
  induction levels generalizing node xs with
  | zero =>
    cases node with
    | leaf values =>
      have hvalues : values = fun s : Fin branchFactor => xs[s.val]? := funext h.2
      have hlength : xs.length ≤ branchFactor := by
        rw [← pow_one branchFactor]
        exact h.1
      have hrange : (List.finRange branchFactor).map Fin.val = List.range branchFactor :=
        List.map_coe_finRange_eq_range
      rw [VectorNode.elements, hvalues]
      calc (List.finRange branchFactor).filterMap (fun s => xs[s.val]?)
          = ((List.finRange branchFactor).map Fin.val).filterMap fun index => xs[index]? :=
            List.filterMap_map.symm
        _ = xs := by rw [hrange, filterMap_range, List.take_of_length_le hlength]
    | vacant => exact h.elim
    | branch children => exact h.elim
  | succ levels ih =>
    cases node with
    | branch children =>
      have hchildren : ∀ s, (children s).elements = chunk levels xs s := by
        intro s
        rcases h.2 s with ⟨hnil, hvacant⟩ | ⟨_, hchild⟩
        · rw [hvacant, hnil]
          rfl
        · exact ih hchild
      have hlength := h.1
      rw [span_succ, Nat.mul_comm] at hlength
      rw [VectorNode.elements]
      simp only [hchildren]
      rw [finRange_flatMap branchFactor (chunk levels xs), flatMap_chunk,
        List.take_of_length_le hlength]
    | vacant => exact h.elim
    | leaf values => exact h.elim

end Elements

section Update

theorem chunk_set {levels : ℕ} (xs : List α) (index child : ℕ) (value : α) :
    chunk levels (xs.set index value) child =
      if child = index / span levels then (chunk levels xs child).set (index % span levels) value
      else chunk levels xs child := by
  have hpos := span_pos levels
  have hdiv := Nat.div_add_mod' index (span levels)
  have hmod := Nat.mod_lt index hpos
  refine List.ext_getElem? fun offset => ?_
  by_cases hoffset : offset < span levels
  · split_ifs with hchild
    · rw [chunk_getElem? hoffset, List.getElem?_set, List.getElem?_set, chunk_getElem? hoffset]
      have hlength : (chunk levels xs child).length =
          min (span levels) (xs.length - child * span levels) := by
        rw [chunk, List.length_take, List.length_drop]
      subst hchild
      by_cases heq : index % span levels = offset
      · rw [if_pos (by omega), if_pos heq, hlength]
        by_cases hin : index < xs.length
        · rw [if_pos hin, if_pos (by omega)]
        · rw [if_neg hin, if_neg (by omega)]
      · rw [if_neg (by omega), if_neg heq]
    · rw [chunk_getElem? hoffset, chunk_getElem? hoffset, List.getElem?_set_ne]
      rintro rfl
      refine hchild ?_
      rw [Nat.mul_comm, Nat.mul_add_div hpos, Nat.div_eq_of_lt hoffset, Nat.add_zero]
  · have hlong : ∀ ys : List α, (chunk levels ys child).length ≤ offset := by
      intro ys
      rw [chunk, List.length_take]
      omega
    have hnone := List.getElem?_eq_none (hlong (xs.set index value))
    rw [hnone]
    split_ifs
    · rw [List.getElem?_eq_none]
      rw [List.length_set]
      exact hlong xs
    · rw [List.getElem?_eq_none (hlong xs)]

theorem setAt_holds {levels index : ℕ} {node : VectorNode α} {xs : List α} (value : α)
    (h : Holds levels node xs) (hindex : index % span levels < xs.length) :
    ∃ node', node.setAt levels index value = some node' ∧
      Holds levels node' (xs.set (index % span levels) value) := by
  induction levels generalizing node xs with
  | zero =>
    cases node with
    | leaf values =>
      have hslot : (VectorNode.slot 0 index : ℕ) = index % span 0 := by
        rw [slot_zero, span, zero_add, pow_one]
      refine ⟨_, rfl, by rw [List.length_set]; exact h.1, fun s => ?_⟩
      by_cases hs : s = VectorNode.slot 0 index
      · rw [hs, Function.update_self, hslot, List.getElem?_set_self hindex]
      · have hne : index % span 0 ≠ s.val := fun he => hs (Fin.ext (by rw [hslot, he]))
        rw [Function.update_of_ne hs, List.getElem?_set_ne hne, h.2]
    | vacant => exact h.elim
    | branch children => exact h.elim
  | succ levels ih =>
    cases node with
    | branch children =>
      have hpos := span_pos levels
      have hsplit : index % span (levels + 1) =
          VectorNode.slot (levels + 1) index * span levels + index % span levels := by
        rw [span_succ, Nat.mod_mul, slot_succ]
        ring
      have hmod := Nat.mod_lt index hpos
      have hslot : index % span (levels + 1) / span levels = VectorNode.slot (levels + 1) index := by
        rw [hsplit, Nat.mul_comm, Nat.mul_add_div hpos, Nat.div_eq_of_lt hmod, Nat.add_zero]
      have hoffset : index % span (levels + 1) % span levels = index % span levels := by
        rw [hsplit, Nat.mul_comm, Nat.mul_add_mod, Nat.mod_mod]
      have hin : index % span levels < (chunk levels xs (VectorNode.slot (levels + 1) index)).length := by
        rw [chunk, List.length_take, List.length_drop]
        omega
      have hnonempty : chunk levels xs (VectorNode.slot (levels + 1) index) ≠ [] := by
        intro hnil
        rw [hnil] at hin
        exact absurd hin (Nat.not_lt_zero _)
      obtain ⟨hnil, _⟩ | ⟨_, hchild⟩ := h.2 (VectorNode.slot (levels + 1) index)
      · exact absurd hnil hnonempty
      obtain ⟨child', hset, hholds⟩ := ih hchild hin
      have hpresent : children (VectorNode.slot (levels + 1) index) ≠ .vacant := by
        intro hvacant
        rw [hvacant] at hchild
        exact not_holds_vacant hchild
      refine ⟨.branch (Function.update children (VectorNode.slot (levels + 1) index) child'), ?_, ?_⟩
      · rw [VectorNode.setAt]
        split
        · contradiction
        · rw [hset]
          rfl
      · refine ⟨by rw [List.length_set]; exact h.1, fun s => ?_⟩
        rw [chunk_set, hslot, hoffset]
        by_cases hs : s = VectorNode.slot (levels + 1) index
        · right
          rw [hs, if_pos rfl, Function.update_self]
          refine ⟨fun hnil => hnonempty ?_, hholds⟩
          rw [← List.length_eq_zero_iff] at hnil ⊢
          rwa [List.length_set] at hnil
        · have hne : s.val ≠ VectorNode.slot (levels + 1) index := fun he => hs (Fin.ext he)
          rw [if_neg hne, Function.update_of_ne hs]
          exact h.2 s
    | vacant => exact h.elim
    | leaf values => exact h.elim

end Update

end Nocter.Persistent

/-!
# Programs over persistent vectors

A program creates vectors, clones them, and pushes, sets, reads and traverses them in any
order. Every such program runs like the one over lists.
-/

namespace Nocter.Persistent

variable {α : Type}

inductive VectorOperation (α : Type) where
  | push (value : α)
  | set (index : ℕ) (value : α)
  | get (index : ℕ)
  | iterate

inductive VectorAnswer (α : Type) where
  | pushed
  | updated (found : Bool)
  | element (value : Option α)
  | elements (values : List α)

namespace PersistentVector

/-- `none` stands for a panic of the operation. A traversal is a loop over `next` up to its
end. -/
def perform (vector : PersistentVector α) :
    VectorOperation α → Option (VectorAnswer α × PersistentVector α)
  | .push value => do
    let vector ← vector.push value
    some (.pushed, vector)
  | .set index value => do
    let updated ← vector.set index value
    match updated with
    | none => some (.updated false, vector)
    | some vector => some (.updated true, vector)
  | .get index => some (.element (vector.get index), vector)
  | .iterate => do
    let values ← vector.iter.collect (vector.len + 1)
    some (.elements values, vector)

/-- The operations on a list. -/
def performList (xs : List α) : VectorOperation α → Option (VectorAnswer α × List α)
  | .push value => some (.pushed, xs ++ [value])
  | .set index value =>
    if index < xs.length then some (.updated true, xs.set index value)
    else some (.updated false, xs)
  | .get index => some (.element xs[index]?, xs)
  | .iterate => some (.elements xs, xs)

/-- The vector stands for the list, with no more levels than the length requires. -/
structure Stands (vector : PersistentVector α) (xs : List α) : Prop where
  represents : vector.Represents xs
  depth : ∀ levels, xs.length ≤ capacity levels ↔ vector.levels ≤ levels

theorem capacity_mono {levels levels' : ℕ} (h : levels ≤ levels') :
    capacity levels ≤ capacity levels' :=
  Nat.pow_le_pow_right (Nat.zero_lt_succ 1) (Nat.add_le_add_right (Nat.mul_le_mul_left _ h) _)

/-- The levels are the fewest that are enough when one level less is not. -/
theorem depth_of_shallow {levels len : ℕ} (hfits : len ≤ capacity levels)
    (hshallow : ∀ lower, levels = lower + 1 → capacity lower < len) (other : ℕ) :
    len ≤ capacity other ↔ levels ≤ other := by
  refine ⟨fun hlen => ?_, fun hle => hfits.trans (capacity_mono hle)⟩
  by_contra hlt
  obtain ⟨lower, rfl⟩ : ∃ lower, levels = lower + 1 := Nat.exists_eq_succ_of_ne_zero (by omega)
  have hmono : capacity other ≤ capacity lower := capacity_mono (by omega)
  have hlower := hshallow lower rfl
  omega

variable {vector : PersistentVector α} {xs : List α}

theorem empty_stands : (empty : PersistentVector α).Stands [] :=
  ⟨empty_represents, fun _ => iff_of_true (Nat.zero_le _) (Nat.zero_le _)⟩

theorem Represents.length_le (h : vector.Represents xs) : xs.length ≤ capacity vector.levels := by
  rw [capacity_eq_span]
  exact holds_length h.holds

theorem push_levels {vector' : PersistentVector α} {value : α}
    (h : vector.push value = some vector') :
    vector'.levels = if vector.len = capacity vector.levels then vector.levels + 1
      else vector.levels := by
  rw [push] at h
  split_ifs at h ⊢
  · obtain rfl := Option.some.inj h
    rfl
  · obtain ⟨root, -, hroot⟩ := Option.bind_eq_some_iff.mp h
    obtain rfl := Option.some.inj hroot
    rfl

theorem Stands.push (h : vector.Stands xs) (value : α) :
    ∃ vector', vector.push value = some vector' ∧ vector'.Stands (xs ++ [value]) := by
  obtain ⟨vector', hpush, hrepresents⟩ := h.represents.push value
  refine ⟨vector', hpush, hrepresents, depth_of_shallow hrepresents.length_le ?_⟩
  intro lower hlevels
  rw [push_levels hpush, h.represents.len_eq] at hlevels
  rw [List.length_append, List.length_singleton]
  split_ifs at hlevels with hfull
  · have hlower : lower = vector.levels := by omega
    rw [hlower, ← hfull]
    exact Nat.lt_succ_self _
  · have hshallow := mt (h.depth lower).mp (by omega)
    omega

theorem Stands.set (h : vector.Stands xs) {index : ℕ} (hindex : index < xs.length) (value : α) :
    ∃ vector', vector.set index value = some (some vector') ∧
      vector'.Stands (xs.set index value) := by
  have hin := hindex.trans_le (holds_length h.represents.holds)
  have hmod := Nat.mod_eq_of_lt hin
  obtain ⟨root, hset, hholds⟩ := setAt_holds value h.represents.holds (by rwa [hmod])
  rw [hmod] at hholds
  refine ⟨{ vector with root }, ?_, ⟨?_, hholds⟩, ?_⟩
  · rw [PersistentVector.set, if_neg (by rw [h.represents.len_eq]; omega), hset]
    rfl
  · rw [List.length_set]
    exact h.represents.len_eq
  · rw [List.length_set]
    exact h.depth

theorem set_outside (h : vector.Stands xs) {index : ℕ} (hindex : ¬index < xs.length) (value : α) :
    vector.set index value = some none := by
  rw [PersistentVector.set, if_pos]
  rw [h.represents.len_eq]
  exact Nat.le_of_not_lt hindex

theorem Represents.iter_collect (h : vector.Represents xs) :
    vector.iter.collect (vector.len + 1) = some xs := by
  refine PersistentVectorIter.collect_eq ⟨?_, h.len_eq⟩ (by rw [h.len_eq]; exact Nat.lt_succ_self _)
  rw [PersistentVectorIter.pending, iter, VectorIterFrame.new_pending]
  exact elements_of_holds h.holds

theorem perform_simulates : Clones.Simulates (α := VectorAnswer α) Stands perform performList := by
  intro vector xs operation h
  cases operation with
  | push value =>
    obtain ⟨vector', hpush, hstands⟩ := h.push value
    exact ⟨.pushed, vector', xs ++ [value], by rw [perform, hpush]; rfl, rfl, hstands⟩
  | set index value =>
    by_cases hindex : index < xs.length
    · obtain ⟨vector', hset, hstands⟩ := h.set hindex value
      exact ⟨.updated true, vector', xs.set index value, by rw [perform, hset]; rfl,
        by rw [performList, if_pos hindex], hstands⟩
    · have hset := set_outside h hindex value
      exact ⟨.updated false, vector, xs, by rw [perform, hset]; rfl,
        by rw [performList, if_neg hindex], h⟩
  | get index =>
    exact ⟨.element xs[index]?, vector, xs, by rw [perform, h.represents.get_eq], rfl, h⟩
  | iterate =>
    exact ⟨.elements xs, vector, xs, by rw [perform, h.represents.iter_collect]; rfl, rfl, h⟩

/-- A program over vectors never panics. It gets the answers of the same program over lists,
its vectors stand for the lists, and a vector that later commands do not name stays as it is. -/
theorem programs_run_as_lists (commands : List (Clones.Command (VectorOperation α))) :
    ∃ answers vectors lists, Clones.run empty perform commands [] = some (answers, vectors) ∧
      Clones.run [] performList commands [] = some (answers, lists) ∧
      List.Forall₂ Stands vectors lists ∧
      ∀ later answers' vectors', Clones.run empty perform later vectors = some (answers', vectors') →
        ∀ index vector, vectors[index]? = some vector →
          (∀ command ∈ later, command.target ≠ some index) → vectors'[index]? = some vector := by
  obtain ⟨answers, vectors, lists, hrun, hlists, hstands⟩ :=
    Clones.run_simulates empty_stands perform_simulates commands List.Forall₂.nil
  exact ⟨answers, vectors, lists, hrun, hlists, hstands,
    fun later answers' vectors' hlater index vector hvector htargets =>
      Clones.run_untouched hlater hvector htargets⟩

end PersistentVector

end Nocter.Persistent
