import Mathlib.Algebra.Order.Group.Multiset
import Mathlib.Tactic.Abel
import Nocter.Vectors.Operations

/-!
# Vectors over every run

Any calls may follow one another, and any growth may be refused. After every run the vector
holds a list that each further call treats as the operation on lists does, no step touches a
slot in the wrong state, and every element that was passed in is in the list, was handed out,
or was destroyed.
-/

namespace Nocter.Vectors

open ObjectMemory

variable {T : Type} {pointee : Pointee T} {allocator : Allocator} {world : World T}
  {contents : List T}

inductive Call (T : Type) where
  | push (value : T)
  | tryPush (value : T)
  | insert (index : ℕ) (value : T)
  | tryInsert (index : ℕ) (value : T)
  | remove (index : ℕ)
  | swapRemove (index : ℕ)
  | pop
  | truncate (requestedLen : ℕ)
  | retain (predicate : List T → T → Bool)
  | reserve (additional : ℕ)
  | tryReserve (additional : ℕ)
  | clear

/-- What a call returns. -/
inductive Reply (T : Type) where
  | done
  | failed (error : Error)
  | value (value : Option T)
  deriving DecidableEq

def Reply.ofTry {α : Type} : Except Error α → Reply T
  | .error error => .failed error
  | .ok _ => .done

namespace Call

def run (pointee : Pointee T) (allocator : Allocator) : Call T → Op T (Reply T)
  | .push value => do
    Vectors.push pointee allocator value
    return .done
  | .tryPush value => do return .ofTry (← Vectors.tryPush pointee allocator value)
  | .insert index value => do
    Vectors.insert pointee allocator index value
    return .done
  | .tryInsert index value => do return .ofTry (← Vectors.tryInsert pointee allocator index value)
  | .remove index => do return .value (← Vectors.remove pointee index)
  | .swapRemove index => do return .value (← Vectors.swapRemove pointee index)
  | .pop => do return .value (← Vectors.pop pointee)
  | .truncate requestedLen => do
    Vectors.truncate pointee requestedLen
    return .done
  | .retain predicate => do
    Vectors.retain pointee predicate
    return .done
  | .reserve additional => do
    Vectors.reserve pointee allocator additional
    return .done
  | .tryReserve additional => do return .ofTry (← Vectors.tryReserve pointee allocator additional)
  | .clear => do
    Vectors.clear pointee
    return .done

/-- The elements that a call is passed. -/
def given : Call T → List T
  | .push value | .tryPush value | .insert _ value | .tryInsert _ value => [value]
  | _ => []

end Call

/-- The elements that a reply hands out. -/
def Reply.handed : Reply T → List T
  | .value (some element) => [element]
  | _ => []

/-! ### Calls on lists -/

/-- What a call does to a list. -/
structure Effect (T : Type) where
  reply : Reply T
  contents : List T
  destroyed : List T

/-- The last element in the place of the one at the index. -/
def swapRemoved (contents : List T) (index : ℕ) : List T :=
  match contents.getLast? with
  | some last => if index < contents.length then (contents.set index last).dropLast else contents
  | none => contents

def Call.effect (contents : List T) : Call T → Effect T
  | .push value | .tryPush value => ⟨.done, contents ++ [value], []⟩
  | .insert index value | .tryInsert index value => ⟨.done, contents.insertIdx index value, []⟩
  | .remove index => ⟨.value contents[index]?, contents.eraseIdx index, []⟩
  | .swapRemove index => ⟨.value contents[index]?, swapRemoved contents index, []⟩
  | .pop => ⟨.value contents.getLast?, contents.dropLast, []⟩
  | .truncate requestedLen =>
    ⟨.done, contents.take requestedLen, (contents.drop requestedLen).reverse⟩
  | .retain predicate => ⟨.done, (retained predicate [] contents).1, (retained predicate [] contents).2⟩
  | .reserve _ | .tryReserve _ => ⟨.done, contents, []⟩
  | .clear => ⟨.done, [], contents.reverse⟩

/-- The index of a call is one that an element may be inserted at. -/
def Call.InBounds (contents : List T) : Call T → Prop
  | .insert index _ | .tryInsert index _ => index ≤ contents.length
  | _ => True

/-- How many elements a call needs room for. -/
def Call.additional : Call T → ℕ
  | .push _ | .tryPush _ | .insert _ _ | .tryInsert _ _ => 1
  | .reserve additional | .tryReserve additional => additional
  | _ => 0

/-- A call whose failure the caller sees. -/
def Call.Recoverable : Call T → Prop
  | .tryPush _ | .tryInsert _ _ | .tryReserve _ => True
  | _ => False

/-- Why a call fails: its index is out of bounds, or it is refused the room it needs. -/
inductive Fails (pointee : Pointee T) (allocator : Allocator) (vec : Vec) (contents : List T)
    (call : Call T) : Error → Stop → Prop
  | bounds (h : ¬ call.InBounds contents) :
      Fails pointee allocator vec contents call indexOutOfBounds .boundsAbort
  | refused {error : Error} (h : Refused pointee allocator vec call.additional error) :
      Fails pointee allocator vec contents call error .allocationAbort

/-- A call on a vector that holds a list does what it does to the list, or it fails and the
vector holds the list that it held, or the program ends with a failure that is not
recoverable. -/
inductive Refines (pointee : Pointee T) (allocator : Allocator) (world : World T)
    (contents : List T) (call : Call T) : Prop
  | done {next : World T} (hbounds : call.InBounds contents)
      (hreturns : Returns (call.run pointee allocator) world (call.effect contents).reply next)
      (hholds : Holds pointee next (call.effect contents).contents)
      (hdestroyed : next.destroyed = world.destroyed ++ (call.effect contents).destroyed)
  | failed {next : World T} {error : Error} {reason : Stop} (hrecoverable : call.Recoverable)
      (hfails : Fails pointee allocator world.vec contents call error reason)
      (hreturns : Returns (call.run pointee allocator) world (.failed error) next)
      (hholds : Holds pointee next contents)
      (hdestroyed : next.destroyed = world.destroyed ++ call.given)
  | stopped {error : Error} {reason : Stop} (hrecoverable : ¬ call.Recoverable)
      (hfails : Fails pointee allocator world.vec contents call error reason)
      (hstops : Stops (call.run pointee allocator) world reason)

theorem Holds.destroying (h : Holds pointee world contents) (value : T) :
    Holds pointee { world with destroyed := world.destroyed ++ [value] } contents :=
  ⟨h.owned, h.len, h.room, h.placed⟩

theorem push_refines (h : Holds pointee world contents) (value : T) :
    Refines pointee allocator world contents (.push value) ∧
      Refines pointee allocator world contents (.tryPush value) := by
  rcases @tryPush_returns _ _ allocator _ _ h value with
    ⟨next, hreturns, hholds, hdestroyed⟩ | ⟨error, hreturns, hrefused⟩
  · have hsame : next.destroyed = world.destroyed ++ [] := by rw [hdestroyed, List.append_nil]
    have hpush : Returns (push pointee allocator value) world () next := hreturns.bind (.pure ())
    exact ⟨.done trivial (hpush.bind (.pure _)) hholds hsame,
      .done trivial (hreturns.bind (.pure _)) hholds hsame⟩
  · have hpush : Stops (push pointee allocator value) world .allocationAbort :=
      hreturns.bind_stops rfl
    exact ⟨.stopped not_false (.refused hrefused) hpush.bind,
      .failed trivial (.refused hrefused) (hreturns.bind (.pure _)) (h.destroying value) rfl⟩

/-- A list around an index that is in bounds. -/
theorem exists_around {index : ℕ} (h : index ≤ contents.length) :
    ∃ before after, contents = before ++ after ∧ before.length = index :=
  ⟨contents.take index, contents.drop index, (List.take_append_drop _ _).symm,
    List.length_take_of_le h⟩

theorem insert_refines (h : Holds pointee world contents) (index : ℕ) (value : T) :
    Refines pointee allocator world contents (.insert index value) ∧
      Refines pointee allocator world contents (.tryInsert index value) := by
  by_cases hindex : index ≤ contents.length
  · obtain ⟨before, after, rfl, rfl⟩ := exists_around hindex
    have hinside : ¬ before.length > world.vec.len := by
      rw [h.len]
      exact not_lt.mpr hindex
    rcases @tryInsertInBounds_returns _ _ allocator _ _ _ h value with
      ⟨next, hreturns, hholds, hdestroyed⟩ | ⟨error, hreturns, hrefused⟩
    · have hsame : next.destroyed = world.destroyed ++ [] := by rw [hdestroyed, List.append_nil]
      have hinsert : Returns (insert pointee allocator before.length value) world () next := by
        unfold insert
        rw [returns_readVec, if_neg hinside]
        exact hreturns.bind (.pure ())
      have htry : Returns (tryInsert pointee allocator before.length value) world (.ok ()) next := by
        unfold tryInsert
        rw [returns_readVec, if_neg hinside]
        exact hreturns
      rw [← insertIdx_length] at hholds
      exact ⟨.done hindex (hinsert.bind (.pure _)) hholds hsame,
        .done hindex (htry.bind (.pure _)) hholds hsame⟩
    · have hinsert : Stops (insert pointee allocator before.length value) world .allocationAbort := by
        unfold insert
        rw [stops_readVec, if_neg hinside]
        exact hreturns.bind_stops rfl
      have htry : Returns (tryInsert pointee allocator before.length value) world (.error error)
          { world with destroyed := world.destroyed ++ [value] } := by
        unfold tryInsert
        rw [returns_readVec, if_neg hinside]
        exact hreturns
      exact ⟨.stopped not_false (.refused hrefused) hinsert.bind,
        .failed trivial (.refused hrefused) (htry.bind (.pure _)) (h.destroying value) rfl⟩
  · have hfails : Fails pointee allocator world.vec contents (.tryInsert index value)
        indexOutOfBounds .boundsAbort := .bounds hindex
    have hstop : Fails pointee allocator world.vec contents (.insert index value)
        indexOutOfBounds .boundsAbort := .bounds hindex
    have houtside : index > world.vec.len := by
      rw [h.len]
      exact not_le.mp hindex
    constructor
    · refine .stopped not_false hstop (Stops.bind ?_)
      unfold insert
      rw [stops_readVec, if_pos houtside]
      rfl
    · refine .failed trivial hfails ?_ (h.destroying value) rfl
      have htry : Returns (tryInsert pointee allocator index value) world
          (.error indexOutOfBounds) { world with destroyed := world.destroyed ++ [value] } := by
        unfold tryInsert
        rw [returns_readVec, if_pos houtside]
        rfl
      exact htry.bind (.pure _)

theorem reserve_refines (h : Holds pointee world contents) (additional : ℕ) :
    Refines pointee allocator world contents (.reserve additional) ∧
      Refines pointee allocator world contents (.tryReserve additional) := by
  rcases @Holds.reserve _ _ allocator _ _ h additional with
    ⟨next, hreturns, hholds, -⟩ | ⟨error, hreturns, hrefused⟩
  · have hsame : world.destroyed = world.destroyed ++ [] := (List.append_nil _).symm
    have hreserve : Returns (reserve pointee allocator additional) world ()
        { world with vec := next } := hreturns.bind (.pure ())
    exact ⟨.done trivial (hreserve.bind (.pure _)) hholds hsame,
      .done trivial (hreturns.bind (.pure _)) hholds hsame⟩
  · have hreserve : Stops (reserve pointee allocator additional) world .allocationAbort :=
      hreturns.bind_stops rfl
    exact ⟨.stopped not_false (.refused hrefused) hreserve.bind,
      .failed trivial (.refused hrefused) (hreturns.bind (.pure _)) h (List.append_nil _).symm⟩

/-- An index at which there is an element. -/
theorem exists_at {index : ℕ} (h : index < contents.length) :
    ∃ before value after, contents = before ++ value :: after ∧ before.length = index := by
  refine ⟨contents.take index, contents[index], contents.drop (index + 1), ?_,
    List.length_take_of_le h.le⟩
  rw [← List.drop_eq_getElem_cons h, List.take_append_drop]

theorem getElem?_middle {before after : List T} {value : T} :
    (before ++ value :: after)[before.length]? = some value := by
  rw [List.getElem?_append_right le_rfl, Nat.sub_self, List.getElem?_cons_zero]

theorem remove_refines (h : Holds pointee world contents) (index : ℕ) :
    Refines pointee allocator world contents (.remove index) := by
  by_cases hindex : index < contents.length
  · obtain ⟨before, value, after, rfl, rfl⟩ := exists_at hindex
    obtain ⟨next, hreturns, hholds, hdestroyed⟩ := remove_returns h
    have hcontents : (before ++ value :: after).eraseIdx before.length = before ++ after := by
      rw [List.eraseIdx_append_of_length_le le_rfl, Nat.sub_self, List.eraseIdx_cons_zero]
    refine .done trivial ?_ (by rw [Call.effect, hcontents]; exact hholds)
      (by rw [hdestroyed]; exact (List.append_nil _).symm)
    rw [Call.effect, getElem?_middle]
    exact hreturns.bind (.pure _)
  · have hcontents : contents.eraseIdx index = contents :=
      List.eraseIdx_of_length_le (not_lt.mp hindex)
    have hreturns : Returns (remove pointee index) world none world := by
      unfold remove
      rw [returns_readVec, h.len, if_pos (not_lt.mp hindex)]
      exact .pure none
    refine .done trivial ?_ (by rw [Call.effect, hcontents]; exact h) (List.append_nil _).symm
    rw [Call.effect, List.getElem?_eq_none (not_lt.mp hindex)]
    exact hreturns.bind (.pure _)

theorem swapRemoved_last {before : List T} {value : T} :
    swapRemoved (before ++ [value]) before.length = before := by
  rw [swapRemoved, List.getLast?_concat]
  simp only [List.length_append, List.length_singleton, Nat.lt_succ_self, if_true]
  rw [List.set_append_right _ _ le_rfl, Nat.sub_self, List.set_cons_zero, List.dropLast_concat]

theorem swapRemoved_middle {before after : List T} {value last : T} :
    swapRemoved (before ++ value :: (after ++ [last])) before.length = before ++ last :: after := by
  have hlast : (before ++ value :: (after ++ [last])).getLast? = some last := by
    rw [← List.cons_append, ← List.append_assoc, List.getLast?_concat]
  have hset : (before ++ value :: (after ++ [last])).set before.length last =
      (before ++ last :: after) ++ [last] := by
    rw [List.set_append_right _ _ le_rfl, Nat.sub_self, List.set_cons_zero, List.append_assoc,
      List.cons_append]
  rw [swapRemoved, hlast]
  simp only [hset, List.dropLast_concat]
  rw [if_pos]
  rw [List.length_append, List.length_cons]
  omega

theorem swapRemoved_outside {index : ℕ} (h : ¬ index < contents.length) :
    swapRemoved contents index = contents := by
  rw [swapRemoved]
  split
  · exact if_neg h
  · rfl

theorem swapRemove_refines (h : Holds pointee world contents) (index : ℕ) :
    Refines pointee allocator world contents (.swapRemove index) := by
  by_cases hindex : index < contents.length
  · obtain ⟨before, value, after, rfl, rfl⟩ := exists_at hindex
    have hmoved : ∃ next, Returns (swapRemove pointee before.length) world (some value) next ∧
        Holds pointee next (swapRemoved (before ++ value :: after) before.length) ∧
        next.destroyed = world.destroyed := by
      rcases List.eq_nil_or_concat' after with rfl | ⟨middle, last, rfl⟩
      · rw [swapRemoved_last]
        exact swapRemove_last h
      · rw [swapRemoved_middle]
        exact swapRemove_middle h
    obtain ⟨next, hreturns, hholds, hdestroyed⟩ := hmoved
    refine .done trivial ?_ hholds (by rw [hdestroyed]; exact (List.append_nil _).symm)
    rw [Call.effect, getElem?_middle]
    exact hreturns.bind (.pure _)
  · have hreturns : Returns (swapRemove pointee index) world none world := by
      unfold swapRemove
      rw [returns_readVec, h.len, if_pos (not_lt.mp hindex)]
      exact .pure none
    refine .done trivial ?_ (by rw [Call.effect, swapRemoved_outside hindex]; exact h)
      (List.append_nil _).symm
    rw [Call.effect, List.getElem?_eq_none (not_lt.mp hindex)]
    exact hreturns.bind (.pure _)

theorem pop_refines (h : Holds pointee world contents) :
    Refines pointee allocator world contents .pop := by
  rcases List.eq_nil_or_concat' contents with rfl | ⟨before, value, rfl⟩
  · exact .done trivial ((pop_empty h).bind (.pure _)) h (List.append_nil _).symm
  · obtain ⟨next, hreturns, hholds, hdestroyed⟩ := pop_returns h
    refine .done trivial ?_ (by rw [Call.effect, List.dropLast_concat]; exact hholds)
      (by rw [hdestroyed]; exact (List.append_nil _).symm)
    rw [Call.effect, List.getLast?_concat]
    exact hreturns.bind (.pure _)

/-- Every call refines the operation on the list that the vector holds. -/
theorem call_refines (h : Holds pointee world contents) (call : Call T) :
    Refines pointee allocator world contents call := by
  cases call with
  | push value => exact (push_refines h value).1
  | tryPush value => exact (push_refines h value).2
  | insert index value => exact (insert_refines h index value).1
  | tryInsert index value => exact (insert_refines h index value).2
  | remove index => exact remove_refines h index
  | swapRemove index => exact swapRemove_refines h index
  | pop => exact pop_refines h
  | truncate requestedLen =>
    obtain ⟨next, hreturns, hholds, hdestroyed⟩ := truncate_returns h requestedLen
    exact .done trivial (hreturns.bind (.pure _)) hholds hdestroyed
  | retain predicate =>
    obtain ⟨next, hreturns, hholds, hdestroyed⟩ := retain_returns h predicate
    exact .done trivial (hreturns.bind (.pure _)) hholds hdestroyed
  | reserve additional => exact (reserve_refines h additional).1
  | tryReserve additional => exact (reserve_refines h additional).2
  | clear =>
    obtain ⟨next, hreturns, hholds, hdestroyed⟩ := clear_returns h
    exact .done trivial (hreturns.bind (.pure _)) hholds hdestroyed

/-! ### Accounting -/

theorem swapRemoved_perm (contents : List T) (index : ℕ) :
    contents.Perm (swapRemoved contents index ++ (contents[index]?).toList) := by
  by_cases hindex : index < contents.length
  · obtain ⟨before, value, after, rfl, rfl⟩ := exists_at hindex
    rw [getElem?_middle]
    rcases List.eq_nil_or_concat' after with rfl | ⟨middle, last, rfl⟩
    · rw [swapRemoved_last]
      exact .refl _
    · rw [swapRemoved_middle, Option.toList_some, List.append_assoc, List.cons_append]
      refine .append_left _ ?_
      calc (value :: (middle ++ [last])).Perm (value :: last :: middle) :=
            (List.perm_append_singleton _ _).cons _
        _ |>.Perm (last :: value :: middle) := .swap _ _ _
        _ |>.Perm (last :: (middle ++ [value])) := ((List.perm_append_singleton _ _).symm).cons _
  · rw [swapRemoved_outside hindex, List.getElem?_eq_none (not_lt.mp hindex), Option.toList_none,
      List.append_nil]

theorem insertIdx_perm {index : ℕ} (h : index ≤ contents.length) (value : T) :
    (contents ++ [value]).Perm (contents.insertIdx index value) := by
  obtain ⟨before, after, rfl, rfl⟩ := exists_around h
  rw [insertIdx_length, List.append_assoc]
  exact .append_left _ (List.perm_append_singleton _ _)

theorem eraseIdx_perm (contents : List T) (index : ℕ) :
    contents.Perm (contents.eraseIdx index ++ (contents[index]?).toList) := by
  by_cases hindex : index < contents.length
  · obtain ⟨before, value, after, rfl, rfl⟩ := exists_at hindex
    rw [getElem?_middle, List.eraseIdx_append_of_length_le le_rfl, Nat.sub_self,
      List.eraseIdx_cons_zero, Option.toList_some, List.append_assoc]
    exact .append_left _ (List.perm_append_singleton _ _).symm
  · rw [List.eraseIdx_of_length_le (not_lt.mp hindex), List.getElem?_eq_none (not_lt.mp hindex),
      Option.toList_none, List.append_nil]

theorem handed_value (value : Option T) : (Reply.value value).handed = value.toList := by
  cases value <;> rfl

/-- What a call is given and the list before it are the list after it with what is handed out
and what is destroyed. -/
theorem effect_accounts {call : Call T} (h : call.InBounds contents) :
    (contents ++ call.given).Perm ((call.effect contents).contents ++
      (call.effect contents).reply.handed ++ (call.effect contents).destroyed) := by
  cases call with
  | push value | tryPush value =>
    simp only [Call.effect, Call.given, Reply.handed, List.append_nil]
    exact .refl _
  | insert index value | tryInsert index value =>
    simp only [Call.effect, Call.given, Reply.handed, List.append_nil]
    exact insertIdx_perm h value
  | remove index =>
    simp only [Call.effect, Call.given, handed_value, List.append_nil]
    exact eraseIdx_perm contents index
  | swapRemove index =>
    simp only [Call.effect, Call.given, handed_value, List.append_nil]
    exact swapRemoved_perm contents index
  | pop =>
    simp only [Call.effect, Call.given, handed_value, List.append_nil]
    rcases List.eq_nil_or_concat' contents with rfl | ⟨before, value, rfl⟩
    · exact .refl _
    · rw [List.dropLast_concat, List.getLast?_concat]
      exact .refl _
  | truncate requestedLen =>
    simp only [Call.effect, Call.given, Reply.handed, List.append_nil]
    calc contents.Perm (contents.take requestedLen ++ contents.drop requestedLen) := by
          rw [List.take_append_drop]
      _ |>.Perm (contents.take requestedLen ++ (contents.drop requestedLen).reverse) :=
          .append_left _ (List.reverse_perm _).symm
  | retain predicate =>
    simp only [Call.effect, Call.given, Reply.handed, List.append_nil]
    exact (retained_perm predicate [] contents).symm
  | reserve additional | tryReserve additional =>
    simp only [Call.effect, Call.given, Reply.handed, List.append_nil]
    exact .refl _
  | clear =>
    simp only [Call.effect, Call.given, Reply.handed, List.append_nil, List.nil_append]
    exact (List.reverse_perm _).symm

/-! ### Runs -/

/-- A world that some run leads to, with what its calls were given and have handed out. -/
inductive Reached (pointee : Pointee T) : (given handed : List T) → World T → Prop
  | empty : Reached pointee [] [] empty
  | withCapacity {allocator : Allocator} {requestedCapacity : ℕ} {world : World T}
      (hworld : withCapacity pointee allocator requestedCapacity = .ok world)
      (husize : requestedCapacity ≤ maximumUsize) : Reached pointee [] [] world
  | call {given handed : List T} {world next : World T} {allocator : Allocator} {call : Call T}
      {reply : Reply T} (h : Reached pointee given handed world)
      (hreturns : Returns (call.run pointee allocator) world reply next) :
      Reached pointee (given ++ call.given) (handed ++ reply.handed) next

theorem emptyWithCapacity_holds {capacity : ℕ} (h : capacity ≤ maximumUsize)
    (hsize : pointee.size ≠ 0 → capacity = 0) :
    Holds pointee (emptyWithCapacity capacity : World T) [] where
  owned := ⟨rfl, h, Nat.zero_le _, fun hpos => by rw [emptyWithCapacity, hsize hpos, Nat.zero_mul]⟩
  len := rfl
  room := Nat.zero_le _
  placed := ⟨.refl _, .nil⟩

theorem tryAlloc_len {size : ℕ} {storage : RawBuffer} (h : tryAlloc allocator size = .ok storage) :
    storage.len = size := by
  rw [tryAlloc] at h
  split at h
  · next hzero =>
    cases h
    exact hzero.symm
  · split at h
    · cases h
    · cases h
      rfl

theorem withCapacity_holds {requestedCapacity : ℕ} (husize : requestedCapacity ≤ maximumUsize)
    (h : withCapacity pointee allocator requestedCapacity = .ok world) :
    Holds pointee world [] ∧ world.destroyed = [] := by
  rw [withCapacity] at h
  by_cases hsize : pointee.size = 0
  · rw [if_pos hsize] at h
    cases h
    exact ⟨emptyWithCapacity_holds husize fun hpos => absurd hsize hpos, rfl⟩
  · rw [if_neg hsize] at h
    cases hbytes : checkedMul requestedCapacity pointee.size with
    | none => rw [hbytes] at h; cases h
    | some byteCapacity =>
      obtain ⟨hbound, rfl⟩ := checkedMul_eq_some.mp hbytes
      rw [hbytes] at h
      cases halloc : tryAlloc allocator (requestedCapacity * pointee.size) with
      | error error =>
        simp only [halloc] at h
        cases h
      | ok storage =>
        simp only [halloc] at h
        cases h
        have hlen : storage.len = requestedCapacity * pointee.size := tryAlloc_len halloc
        exact ⟨⟨⟨rfl, husize, hlen.le.trans hbound, fun _ => hlen⟩, rfl, Nat.zero_le _,
          ⟨.refl _, .nil⟩⟩, rfl⟩

/-- After a run the vector holds a list, and everything given is accounted for. -/
theorem Reached.holds {given handed : List T} (h : Reached pointee given handed world) :
    ∃ contents, Holds pointee world contents ∧
      given.Perm (contents ++ handed ++ world.destroyed) := by
  induction h with
  | empty =>
    exact ⟨[], emptyWithCapacity_holds (Nat.zero_le _) fun _ => rfl, .refl _⟩
  | withCapacity hworld husize =>
    obtain ⟨hholds, hdestroyed⟩ := withCapacity_holds husize hworld
    exact ⟨[], hholds, by rw [hdestroyed]; exact .refl _⟩
  | @call given handed world next allocator call reply h hreturns ih =>
    obtain ⟨contents, hholds, haccounts⟩ := ih
    rw [← Multiset.coe_eq_coe] at haccounts
    simp only [← Multiset.coe_add] at haccounts
    cases @call_refines _ _ allocator _ _ hholds call with
    | done hbounds hcall hnext hdestroyed =>
      cases hcall.symm.trans hreturns
      refine ⟨_, hnext, ?_⟩
      have heffect := effect_accounts hbounds
      rw [← Multiset.coe_eq_coe] at heffect ⊢
      simp only [← Multiset.coe_add, hdestroyed] at heffect ⊢
      calc (given + call.given : Multiset T)
          = contents + call.given + handed + world.destroyed := by rw [haccounts]; abel
        _ = _ := by rw [heffect]; abel
    | @failed _ error _ hrecoverable hfails hcall hnext hdestroyed =>
      cases hcall.symm.trans hreturns
      refine ⟨contents, hnext, ?_⟩
      have hnone : (Reply.failed error : Reply T).handed = [] := rfl
      rw [← Multiset.coe_eq_coe]
      simp only [← Multiset.coe_add, hdestroyed, hnone, Multiset.coe_nil, add_zero]
      rw [haccounts]
      abel
    | stopped hrecoverable hfails hstops => cases hstops.symm.trans hreturns

/-- After every run the vector is a list: its length is within its capacity and the capacity
within the storage that it owns, each further call does what it does to the list or fails and
leaves the list, and no element is lost or duplicated, whether the run goes on or the vector
is dropped. -/
theorem vec_refines_list {given handed : List T} (h : Reached pointee given handed world) :
    ∃ contents, Holds pointee world contents ∧ world.vec.len ≤ world.vec.capacity ∧
      world.vec.capacity * pointee.size ≤ world.vec.storage.len ∧
      given.Perm (contents ++ handed ++ world.destroyed) ∧
      (∀ (allocator : Allocator) (call : Call T), Refines pointee allocator world contents call) ∧
      ∃ next, Returns (drop pointee) world () next ∧ next.objects = [] ∧
        next.destroyed = world.destroyed ++ contents.reverse ∧
        given.Perm (handed ++ next.destroyed) := by
  obtain ⟨contents, hholds, haccounts⟩ := h.holds
  obtain ⟨next, hdrop, hobjects, -, -, hdestroyed⟩ := drop_returns_empty hholds
  refine ⟨contents, hholds, hholds.room, hholds.owned.room_le, haccounts,
    fun allocator call => call_refines hholds call, next, hdrop, hobjects, hdestroyed, ?_⟩
  rw [hdestroyed]
  refine haccounts.trans ?_
  rw [List.append_assoc]
  refine List.perm_append_comm.trans ?_
  rw [List.append_assoc]
  exact .append_left _ (.append_left _ (List.reverse_perm contents).symm)

/-- Bytes as the elements of a vector. -/
def bytePointee : Pointee UInt8 := ⟨1, by rintro ⟨⟩⟩

/-- A run that pushes two bytes, is refused room for a third, and removes the first. -/
theorem vec_refines_list_pushes :
    Reached bytePointee [7, 8, 9] [7] ⟨⟨64, ⟨64, 2⟩, 1, 2⟩, [(0, 8)], [9]⟩ ∧
      ∃ contents : List UInt8, [7, 8, 9].Perm (contents ++ [7] ++ [9]) := by
  have hfirst : Returns ((Call.push 7).run bytePointee fun _ => .ok 32) empty .done
      ⟨⟨32, ⟨32, 1⟩, 1, 1⟩, [(0, 7)], []⟩ := rfl
  have hsecond : Returns ((Call.push 8).run bytePointee fun _ => .ok 64)
      ⟨⟨32, ⟨32, 1⟩, 1, 1⟩, [(0, 7)], []⟩ .done
      ⟨⟨64, ⟨64, 2⟩, 2, 2⟩, [(1, 8), (0, 7)], []⟩ := rfl
  have hrefused : Returns ((Call.tryPush 9).run bytePointee fun _ => .error invalidArgument)
      ⟨⟨64, ⟨64, 2⟩, 2, 2⟩, [(1, 8), (0, 7)], []⟩ (.failed invalidArgument)
      ⟨⟨64, ⟨64, 2⟩, 2, 2⟩, [(1, 8), (0, 7)], [9]⟩ := rfl
  have hremoved : Returns ((Call.remove 0).run bytePointee fun _ => .ok 0)
      ⟨⟨64, ⟨64, 2⟩, 2, 2⟩, [(1, 8), (0, 7)], [9]⟩ (.value (some 7))
      ⟨⟨64, ⟨64, 2⟩, 1, 2⟩, [(0, 8)], [9]⟩ := rfl
  have hrun : Reached bytePointee [7, 8, 9] [7] ⟨⟨64, ⟨64, 2⟩, 1, 2⟩, [(0, 8)], [9]⟩ :=
    (((Reached.empty.call hfirst).call hsecond).call hrefused).call hremoved
  obtain ⟨contents, -, -, -, haccounts, -⟩ := vec_refines_list hrun
  exact ⟨hrun, contents, haccounts⟩

end Nocter.Vectors
