import Mathlib.Algebra.Group.Nat.Defs
import Mathlib.Data.Int.Notation
import Mathlib.Data.List.Basic
import Mathlib.Order.Compare
import Mathlib.Tactic.Common

/-!
# The persistent ordered map

A path-copying AVL tree. A result of `none` stands for a failed `expect` of
the rotations. Every operation is described by the entries in tree order:
rotations keep them, and an insertion puts one entry between the smaller and
the larger keys.
-/

namespace Nocter.Persistent

/-- `absent` is a missing child. -/
inductive MapNode (κ υ : Type) where
  | absent
  | node (key : κ) (value : υ) (left right : MapNode κ υ) (height : ℕ)

structure PersistentMap (κ υ : Type) where
  root : MapNode κ υ
  len : ℕ

variable {κ υ : Type}

namespace MapNode

def nodeHeight : MapNode κ υ → ℕ
  | .absent => 0
  | .node _ _ _ _ height => height

def new (key : κ) (value : υ) (left right : MapNode κ υ) : MapNode κ υ :=
  .node key value left right (1 + max left.nodeHeight right.nodeHeight)

def rotateLeft : MapNode κ υ → Option (MapNode κ υ)
  | .node key value left (.node pivotKey pivotValue pivotLeft pivotRight _) _ =>
    some (new pivotKey pivotValue (new key value left pivotLeft) pivotRight)
  | _ => none

def rotateRight : MapNode κ υ → Option (MapNode κ υ)
  | .node key value (.node pivotKey pivotValue pivotLeft pivotRight _) right _ =>
    some (new pivotKey pivotValue pivotLeft (new key value pivotRight right))
  | _ => none

def left : MapNode κ υ → MapNode κ υ
  | .absent => .absent
  | .node _ _ left _ _ => left

def right : MapNode κ υ → MapNode κ υ
  | .absent => .absent
  | .node _ _ _ right _ => right

def rebalance : MapNode κ υ → Option (MapNode κ υ)
  | .absent => some .absent
  | .node key value left right height =>
    let balance : ℤ := left.nodeHeight - right.nodeHeight
    if balance > 1 then
      if left.left.nodeHeight < left.right.nodeHeight then do
        let pivot ← left.rotateLeft
        (new key value pivot right).rotateRight
      else (MapNode.node key value left right height).rotateRight
    else if balance < -1 then
      if right.right.nodeHeight < right.left.nodeHeight then do
        let pivot ← right.rotateRight
        (new key value left pivot).rotateLeft
      else (MapNode.node key value left right height).rotateLeft
    else some (.node key value left right height)

variable [Ord κ]

def get : MapNode κ υ → κ → Option υ
  | .absent, _ => none
  | .node current value left right _, key =>
    match compare key current with
    | .lt => left.get key
    | .gt => right.get key
    | .eq => some value

def insert : MapNode κ υ → κ → υ → Option (MapNode κ υ × Bool)
  | .absent, key, value => some (new key value .absent .absent, true)
  | .node current held left right height, key, value =>
    match compare key current with
    | .eq => some (.node current held left right height, false)
    | .lt => do
      let (child, inserted) ← left.insert key value
      if inserted then
        let root ← (new current held child right).rebalance
        some (root, true)
      else some (.node current held left right height, false)
    | .gt => do
      let (child, inserted) ← right.insert key value
      if inserted then
        let root ← (new current held left child).rebalance
        some (root, true)
      else some (.node current held left right height, false)

end MapNode

namespace PersistentMap

def empty : PersistentMap κ υ := ⟨.absent, 0⟩

variable [Ord κ]

def get (map : PersistentMap κ υ) (key : κ) : Option υ := map.root.get key

def insertAbsent (map : PersistentMap κ υ) (key : κ) (value : υ) :
    Option (PersistentMap κ υ × Bool) := do
  let (root, inserted) ← map.root.insert key value
  if inserted then some (⟨root, map.len + 1⟩, true) else some (map, false)

end PersistentMap

namespace MapNode

/-- The entries of a tree in order. -/
def entries : MapNode κ υ → List (κ × υ)
  | .absent => []
  | .node key value left right _ => left.entries ++ (key, value) :: right.entries

@[simp] theorem entries_absent : (absent : MapNode κ υ).entries = [] := rfl

@[simp] theorem entries_node (key : κ) (value : υ) (left right : MapNode κ υ) (height : ℕ) :
    (node key value left right height).entries = left.entries ++ (key, value) :: right.entries :=
  rfl

@[simp] theorem entries_new (key : κ) (value : υ) (left right : MapNode κ υ) :
    (new key value left right).entries = left.entries ++ (key, value) :: right.entries := rfl

@[simp] theorem nodeHeight_absent : (absent : MapNode κ υ).nodeHeight = 0 := rfl

theorem rotateLeft_entries (root : MapNode κ υ) (h : root.right ≠ .absent) :
    ∃ rotated, root.rotateLeft = some rotated ∧ rotated.entries = root.entries ∧
      rotated.left ≠ .absent := by
  cases root with
  | absent => exact absurd rfl h
  | node key value left right height =>
    cases right with
    | absent => exact absurd rfl h
    | node pivotKey pivotValue pivotLeft pivotRight pivotHeight =>
      refine ⟨_, rfl, ?_, nofun⟩
      simp only [entries_new, entries_node, List.append_assoc, List.cons_append]

theorem rotateRight_entries (root : MapNode κ υ) (h : root.left ≠ .absent) :
    ∃ rotated, root.rotateRight = some rotated ∧ rotated.entries = root.entries ∧
      rotated.right ≠ .absent := by
  cases root with
  | absent => exact absurd rfl h
  | node key value left right height =>
    cases left with
    | absent => exact absurd rfl h
    | node pivotKey pivotValue pivotLeft pivotRight pivotHeight =>
      refine ⟨_, rfl, ?_, nofun⟩
      simp only [entries_new, entries_node, List.append_assoc, List.cons_append]

theorem ne_absent_of_height {node : MapNode κ υ} (h : 0 < node.nodeHeight) : node ≠ .absent := by
  rintro rfl
  exact absurd h (Nat.lt_irrefl 0)

/-- The tests of `rebalance` guarantee every child its rotations need. -/
theorem rebalance_entries (root : MapNode κ υ) :
    ∃ balanced, root.rebalance = some balanced ∧ balanced.entries = root.entries := by
  cases root with
  | absent => exact ⟨_, rfl, rfl⟩
  | node key value left right height =>
    simp only [rebalance]
    split_ifs with hleft hinner hright hinner
    · have hpresent : left.right ≠ .absent := ne_absent_of_height (by omega)
      obtain ⟨pivot, hpivot, hpivotEntries, hne⟩ := rotateLeft_entries _ hpresent
      obtain ⟨rotated, hrotated, hentries, _⟩ :=
        rotateRight_entries (new key value pivot right) (by
          cases pivot with
          | absent => exact absurd rfl hne
          | node => exact nofun)
      refine ⟨rotated, by rw [hpivot]; exact hrotated, ?_⟩
      rw [hentries, entries_new, hpivotEntries, entries_node]
    · have hpresent : left ≠ .absent := ne_absent_of_height (by omega)
      obtain ⟨rotated, hrotated, hentries, _⟩ :=
        rotateRight_entries (node key value left right height) hpresent
      exact ⟨rotated, hrotated, hentries⟩
    · have hpresent : right.left ≠ .absent := ne_absent_of_height (by omega)
      obtain ⟨pivot, hpivot, hpivotEntries, hne⟩ := rotateRight_entries _ hpresent
      obtain ⟨rotated, hrotated, hentries, _⟩ :=
        rotateLeft_entries (new key value left pivot) (by
          cases pivot with
          | absent => exact absurd rfl hne
          | node => exact nofun)
      refine ⟨rotated, by rw [hpivot]; exact hrotated, ?_⟩
      rw [hentries, entries_new, hpivotEntries, entries_node]
    · have hpresent : right ≠ .absent := ne_absent_of_height (by omega)
      obtain ⟨rotated, hrotated, hentries, _⟩ :=
        rotateLeft_entries (node key value left right height) hpresent
      exact ⟨rotated, hrotated, hentries⟩
    · exact ⟨_, rfl, rfl⟩

variable [Ord κ]

/-- Every key is smaller than the keys after it. -/
def Ordered (root : MapNode κ υ) : Prop :=
  root.entries.Pairwise fun a b => compare a.1 b.1 = .lt

theorem insert_of_get_some {root : MapNode κ υ} {key : κ} {held : υ} (value : υ)
    (h : root.get key = some held) : root.insert key value = some (root, false) := by
  induction root with
  | absent => simp [get] at h
  | node current other left right height ihl ihr =>
    simp only [get] at h
    simp only [insert]
    cases hc : compare key current with
    | lt =>
      rw [hc] at h
      rw [ihl h]
      rfl
    | gt =>
      rw [hc] at h
      rw [ihr h]
      rfl
    | eq => rfl

variable [Std.TransOrd κ]

theorem ordered_node {key : κ} {value : υ} {left right : MapNode κ υ} {height : ℕ} :
    (node key value left right height).Ordered ↔ left.Ordered ∧ right.Ordered ∧
      (∀ e ∈ left.entries, compare e.1 key = .lt) ∧ ∀ e ∈ right.entries, compare key e.1 = .lt := by
  simp only [Ordered, entries_node, List.pairwise_append, List.pairwise_cons, List.mem_cons]
  constructor
  · rintro ⟨hl, ⟨hkr, hr⟩, hlr⟩
    exact ⟨hl, hr, fun e he => hlr e he _ (.inl rfl), hkr⟩
  · rintro ⟨hl, hr, hlk, hkr⟩
    refine ⟨hl, ⟨hkr, hr⟩, fun a ha b hb => ?_⟩
    rcases hb with rfl | hb
    · exact hlk a ha
    · exact Std.TransCmp.lt_trans (hlk a ha) (hkr b hb)

/-- Inserting an absent key splits the entries between the smaller and the
larger keys. -/
theorem insert_of_get_none {root : MapNode κ υ} (h : root.Ordered) {key : κ} (value : υ)
    (hnone : root.get key = none) :
    ∃ root' before after, root.insert key value = some (root', true) ∧
      root.entries = before ++ after ∧ root'.entries = before ++ (key, value) :: after ∧
      (∀ e ∈ before, compare e.1 key = .lt) ∧ ∀ e ∈ after, compare key e.1 = .lt := by
  induction root with
  | absent => exact ⟨_, [], [], rfl, rfl, rfl, by simp, by simp⟩
  | node current held left right height ihl ihr =>
    obtain ⟨hl, hr, hlk, hkr⟩ := ordered_node.mp h
    simp only [get] at hnone
    cases hc : compare key current with
    | lt =>
      rw [hc] at hnone
      obtain ⟨child, before, after, hinsert, hentries, hchild, hbefore, hafter⟩ := ihl hl hnone
      obtain ⟨balanced, hbalance, hbalanced⟩ := rebalance_entries (new current held child right)
      refine ⟨balanced, before, after ++ (current, held) :: right.entries, ?_, ?_, ?_, hbefore, ?_⟩
      · simp [insert, hc, hinsert, hbalance]
      · rw [entries_node, hentries, List.append_assoc]
      · rw [hbalanced, entries_new, hchild, List.append_assoc, List.cons_append]
      · intro e he
        rcases List.mem_append.mp he with he | he
        · exact hafter e he
        · rcases List.mem_cons.mp he with rfl | he
          · exact hc
          · exact Std.TransCmp.lt_trans hc (hkr e he)
    | gt =>
      rw [hc] at hnone
      have hgt : compare current key = .lt := Std.OrientedCmp.gt_iff_lt.mp hc
      obtain ⟨child, before, after, hinsert, hentries, hchild, hbefore, hafter⟩ := ihr hr hnone
      obtain ⟨balanced, hbalance, hbalanced⟩ := rebalance_entries (new current held left child)
      refine ⟨balanced, left.entries ++ (current, held) :: before, after, ?_, ?_, ?_, ?_, hafter⟩
      · simp [insert, hc, hinsert, hbalance]
      · rw [entries_node, hentries, List.append_assoc, List.cons_append]
      · rw [hbalanced, entries_new, hchild, List.append_assoc, List.cons_append]
      · intro e he
        rcases List.mem_append.mp he with he | he
        · exact Std.TransCmp.lt_trans (hlk e he) hgt
        · rcases List.mem_cons.mp he with rfl | he
          · exact hgt
          · exact hbefore e he
    | eq =>
      rw [hc] at hnone
      exact absurd hnone (by simp)

variable [Std.LawfulEqOrd κ]

theorem get_eq_some_iff {root : MapNode κ υ} (h : root.Ordered) {key : κ} {value : υ} :
    root.get key = some value ↔ (key, value) ∈ root.entries := by
  induction root with
  | absent => simp [get]
  | node current held left right height ihl ihr =>
    obtain ⟨hl, hr, hlk, hkr⟩ := ordered_node.mp h
    simp only [get, entries_node, List.mem_append, List.mem_cons, Prod.mk.injEq]
    have hnotLeft : compare key current ≠ .lt → (key, value) ∉ left.entries :=
      fun hc hmem => hc (hlk _ hmem)
    have hnotRight : compare key current ≠ .gt → (key, value) ∉ right.entries :=
      fun hc hmem => hc (Std.OrientedCmp.gt_of_lt (hkr _ hmem))
    have hnotHere : compare key current ≠ .eq → key ≠ current :=
      fun hc he => hc (Std.LawfulEqCmp.compare_eq_iff_eq.mpr he)
    cases hc : compare key current with
    | lt =>
      have h1 := hnotRight (by simp [hc])
      have h2 := hnotHere (by simp [hc])
      rw [ihl hl]
      tauto
    | gt =>
      have h1 := hnotLeft (by simp [hc])
      have h2 := hnotHere (by simp [hc])
      rw [ihr hr]
      tauto
    | eq =>
      have h1 := hnotLeft (by simp [hc])
      have h2 := hnotRight (by simp [hc])
      have h3 : key = current := Std.LawfulEqCmp.compare_eq_iff_eq.mp hc
      simp only [Option.some.injEq]
      constructor
      · rintro rfl
        exact .inr (.inl ⟨h3, rfl⟩)
      · rintro (hmem | ⟨_, rfl⟩ | hmem)
        · exact absurd hmem h1
        · rfl
        · exact absurd hmem h2

end MapNode

namespace PersistentMap

variable [Ord κ]

/-- The stored length is the number of entries, which are in key order. -/
structure WellFormed (map : PersistentMap κ υ) : Prop where
  ordered : map.root.Ordered
  len_eq : map.len = map.root.entries.length

theorem empty_wellFormed : (empty : PersistentMap κ υ).WellFormed :=
  ⟨List.Pairwise.nil, rfl⟩

variable {map : PersistentMap κ υ}

theorem insertAbsent_of_get_some {key : κ} {held : υ} (value : υ) (h : map.get key = some held) :
    map.insertAbsent key value = some (map, false) := by
  rw [insertAbsent, MapNode.insert_of_get_some value h]
  rfl

variable [Std.TransOrd κ] [Std.LawfulEqOrd κ]

theorem WellFormed.insertAbsent (h : map.WellFormed) {key : κ} (value : υ)
    (hnone : map.get key = none) :
    ∃ map', map.insertAbsent key value = some (map', true) ∧ map'.WellFormed ∧
      map'.len = map.len + 1 ∧
      ∀ k v, map'.get k = some v ↔ map.get k = some v ∨ (k = key ∧ v = value) := by
  obtain ⟨root, before, after, hinsert, hentries, hroot, hbefore, hafter⟩ :=
    MapNode.insert_of_get_none h.ordered value hnone
  have hpair := h.ordered
  rw [MapNode.Ordered, hentries, List.pairwise_append] at hpair
  have hordered : root.Ordered := by
    rw [MapNode.Ordered, hroot, List.pairwise_append, List.pairwise_cons]
    refine ⟨hpair.1, ⟨hafter, hpair.2.1⟩, fun a ha b hb => ?_⟩
    rcases List.mem_cons.mp hb with rfl | hb
    · exact hbefore a ha
    · exact hpair.2.2 a ha b hb
  refine ⟨⟨root, map.len + 1⟩, ?_, ⟨hordered, ?_⟩, rfl, fun k v => ?_⟩
  · rw [PersistentMap.insertAbsent, hinsert]
    rfl
  · rw [h.len_eq, hentries, hroot]
    simp only [List.length_append, List.length_cons]
    omega
  · rw [get, get, MapNode.get_eq_some_iff hordered, MapNode.get_eq_some_iff h.ordered, hroot,
      hentries]
    simp only [List.mem_append, List.mem_cons, Prod.mk.injEq]
    tauto

end PersistentMap

end Nocter.Persistent

/-!
# The balance of the persistent map

In every tree of the map the stored heights are the heights of the nodes and the two children
of a node differ in height by at most one.
-/

namespace Nocter.Persistent.MapNode

variable {κ υ : Type}

/-- The height that the shape of a tree gives it. -/
def depth : MapNode κ υ → ℕ
  | .absent => 0
  | .node _ _ left right _ => 1 + max left.depth right.depth

def Balanced : MapNode κ υ → Prop
  | .absent => True
  | .node _ _ left right height =>
    left.Balanced ∧ right.Balanced ∧ height = 1 + max left.depth right.depth ∧
      left.depth ≤ right.depth + 1 ∧ right.depth ≤ left.depth + 1

theorem Balanced.nodeHeight_eq {root : MapNode κ υ} (h : root.Balanced) :
    root.nodeHeight = root.depth := by
  cases root with
  | absent => rfl
  | node key value left right height => exact h.2.2.1

theorem depth_new (key : κ) (value : υ) (left right : MapNode κ υ) :
    (new key value left right).depth = 1 + max left.depth right.depth := rfl

theorem new_balanced {left right : MapNode κ υ} (key : κ) (value : υ) (hleft : left.Balanced)
    (hright : right.Balanced) (hlr : left.depth ≤ right.depth + 1)
    (hrl : right.depth ≤ left.depth + 1) : (new key value left right).Balanced :=
  ⟨hleft, hright, by rw [hleft.nodeHeight_eq, hright.nodeHeight_eq], hlr, hrl⟩

/-- The left child is higher by two. Its own children decide between one rotation and two. -/
theorem rebalance_left {left right : MapNode κ υ} (key : κ) (value : υ) (hleft : left.Balanced)
    (hright : right.Balanced) (hheavy : left.depth = right.depth + 2) :
    ∃ root, (new key value left right).rebalance = some root ∧ root.Balanced ∧
      left.depth ≤ root.depth ∧ root.depth ≤ left.depth + 1 := by
  have hleftHeight := hleft.nodeHeight_eq
  have hrightHeight := hright.nodeHeight_eq
  cases left with
  | absent =>
    rw [depth] at hheavy
    omega
  | node leftKey leftValue outer inner leftHeight =>
    obtain ⟨houter, hinner, -, hoi, hio⟩ := hleft
    have houterHeight := houter.nodeHeight_eq
    have hinnerHeight := hinner.nodeHeight_eq
    rw [depth] at hheavy hleftHeight
    have hbalance : ((node leftKey leftValue outer inner leftHeight).nodeHeight : ℤ) -
        right.nodeHeight > 1 := by omega
    simp only [new, rebalance, if_pos hbalance]
    split
    case isTrue hdouble =>
      simp only [MapNode.left, MapNode.right] at hdouble
      cases inner with
      | absent =>
        rw [nodeHeight] at hdouble
        omega
      | node innerKey innerValue near far innerHeight =>
        obtain ⟨hnear, hfar, -, hnf, hfn⟩ := hinner
        rw [depth] at hheavy hinnerHeight hoi hio
        refine ⟨_, rfl, new_balanced _ _ (new_balanced _ _ houter hnear ?_ ?_)
          (new_balanced _ _ hfar hright ?_ ?_) ?_ ?_, ?_, ?_⟩
        all_goals try simp only [depth_new, depth]
        all_goals omega
    case isFalse hdouble =>
      simp only [MapNode.left, MapNode.right] at hdouble
      refine ⟨_, rfl, new_balanced _ _ houter (new_balanced _ _ hinner hright ?_ ?_) ?_ ?_, ?_, ?_⟩
      all_goals try simp only [depth_new, depth]
      all_goals omega

theorem rebalance_right {left right : MapNode κ υ} (key : κ) (value : υ) (hleft : left.Balanced)
    (hright : right.Balanced) (hheavy : right.depth = left.depth + 2) :
    ∃ root, (new key value left right).rebalance = some root ∧ root.Balanced ∧
      right.depth ≤ root.depth ∧ root.depth ≤ right.depth + 1 := by
  have hleftHeight := hleft.nodeHeight_eq
  have hrightHeight := hright.nodeHeight_eq
  cases right with
  | absent =>
    rw [depth] at hheavy
    omega
  | node rightKey rightValue inner outer rightHeight =>
    obtain ⟨hinner, houter, -, hio, hoi⟩ := hright
    have houterHeight := houter.nodeHeight_eq
    have hinnerHeight := hinner.nodeHeight_eq
    rw [depth] at hheavy hrightHeight
    have hnotLeft : ¬((left.nodeHeight : ℤ) -
        (node rightKey rightValue inner outer rightHeight).nodeHeight > 1) := by omega
    have hbalance : (left.nodeHeight : ℤ) -
        (node rightKey rightValue inner outer rightHeight).nodeHeight < -1 := by omega
    simp only [new, rebalance, if_neg hnotLeft, if_pos hbalance]
    split
    case isTrue hdouble =>
      simp only [MapNode.left, MapNode.right] at hdouble
      cases inner with
      | absent =>
        rw [nodeHeight] at hdouble
        omega
      | node innerKey innerValue far near innerHeight =>
        obtain ⟨hfar, hnear, -, hfn, hnf⟩ := hinner
        rw [depth] at hheavy hinnerHeight hoi hio
        refine ⟨_, rfl, new_balanced _ _ (new_balanced _ _ hleft hfar ?_ ?_)
          (new_balanced _ _ hnear houter ?_ ?_) ?_ ?_, ?_, ?_⟩
        all_goals try simp only [depth_new, depth]
        all_goals omega
    case isFalse hdouble =>
      simp only [MapNode.left, MapNode.right] at hdouble
      refine ⟨_, rfl, new_balanced _ _ (new_balanced _ _ hleft hinner ?_ ?_) houter ?_ ?_, ?_, ?_⟩
      all_goals try simp only [depth_new, depth]
      all_goals omega

theorem rebalance_even {left right : MapNode κ υ} (key : κ) (value : υ) (hleft : left.Balanced)
    (hright : right.Balanced) (hlr : left.depth ≤ right.depth + 1)
    (hrl : right.depth ≤ left.depth + 1) :
    (new key value left right).rebalance = some (new key value left right) := by
  have hleftHeight := hleft.nodeHeight_eq
  have hrightHeight := hright.nodeHeight_eq
  simp only [new, rebalance]
  rw [if_neg (by omega), if_neg (by omega)]

/-- A node whose child grew by at most one is balanced again, and grew by at most one. -/
theorem rebalance_grown {key : κ} {value : υ} {left right left' right' : MapNode κ υ} {height : ℕ}
    {root : MapNode κ υ} (h : (node key value left right height).Balanced)
    (hleft : left'.Balanced) (hright : right'.Balanced)
    (hgrown : (left'.depth = left.depth ∨ left'.depth = left.depth + 1) ∧ right'.depth = right.depth ∨
      (right'.depth = right.depth ∨ right'.depth = right.depth + 1) ∧ left'.depth = left.depth)
    (hroot : (new key value left' right').rebalance = some root) :
    root.Balanced ∧ (root.depth = (node key value left right height).depth ∨
      root.depth = (node key value left right height).depth + 1) := by
  obtain ⟨-, -, -, hlr, hrl⟩ := h
  rw [depth]
  by_cases hleftHeavy : left'.depth = right'.depth + 2
  · obtain ⟨root', hroot', hbalanced, hle, hge⟩ := rebalance_left key value hleft hright hleftHeavy
    obtain rfl := Option.some.inj (hroot.symm.trans hroot')
    exact ⟨hbalanced, by omega⟩
  · by_cases hrightHeavy : right'.depth = left'.depth + 2
    · obtain ⟨root', hroot', hbalanced, hle, hge⟩ :=
        rebalance_right key value hleft hright hrightHeavy
      obtain rfl := Option.some.inj (hroot.symm.trans hroot')
      exact ⟨hbalanced, by omega⟩
    · have hlr' : left'.depth ≤ right'.depth + 1 := by omega
      have hrl' : right'.depth ≤ left'.depth + 1 := by omega
      rw [rebalance_even key value hleft hright hlr' hrl'] at hroot
      obtain rfl := Option.some.inj hroot
      refine ⟨new_balanced key value hleft hright hlr' hrl', ?_⟩
      rw [depth_new]
      omega

theorem insert_balanced [Ord κ] {root root' : MapNode κ υ} {key : κ} {value : υ} {inserted : Bool}
    (h : root.Balanced) (hinsert : root.insert key value = some (root', inserted)) :
    root'.Balanced ∧ (root'.depth = root.depth ∨ root'.depth = root.depth + 1) := by
  induction root generalizing root' inserted with
  | absent =>
    obtain ⟨rfl, -⟩ := Prod.mk.inj (Option.some.inj hinsert)
    exact ⟨new_balanced key value trivial trivial (Nat.zero_le _) (Nat.zero_le _), Or.inr rfl⟩
  | node current held left right height ihl ihr =>
    rw [insert] at hinsert
    cases hcompare : compare key current with
    | eq =>
      rw [hcompare] at hinsert
      obtain ⟨rfl, -⟩ := Prod.mk.inj (Option.some.inj hinsert)
      exact ⟨h, Or.inl rfl⟩
    | lt =>
      rw [hcompare] at hinsert
      obtain ⟨⟨child, grew⟩, hchild, hrest⟩ := Option.bind_eq_some_iff.mp hinsert
      obtain ⟨hbalanced, hdepth⟩ := ihl h.1 hchild
      dsimp only at hrest
      split at hrest
      · obtain ⟨balanced, hrebalance, hroot⟩ := Option.bind_eq_some_iff.mp hrest
        obtain ⟨rfl, -⟩ := Prod.mk.inj (Option.some.inj hroot)
        exact rebalance_grown h hbalanced h.2.1 (Or.inl ⟨hdepth, rfl⟩) hrebalance
      · obtain ⟨rfl, -⟩ := Prod.mk.inj (Option.some.inj hrest)
        exact ⟨h, Or.inl rfl⟩
    | gt =>
      rw [hcompare] at hinsert
      obtain ⟨⟨child, grew⟩, hchild, hrest⟩ := Option.bind_eq_some_iff.mp hinsert
      obtain ⟨hbalanced, hdepth⟩ := ihr h.2.1 hchild
      dsimp only at hrest
      split at hrest
      · obtain ⟨balanced, hrebalance, hroot⟩ := Option.bind_eq_some_iff.mp hrest
        obtain ⟨rfl, -⟩ := Prod.mk.inj (Option.some.inj hroot)
        exact rebalance_grown h h.1 hbalanced (Or.inr ⟨hdepth, rfl⟩) hrebalance
      · obtain ⟨rfl, -⟩ := Prod.mk.inj (Option.some.inj hrest)
        exact ⟨h, Or.inl rfl⟩

/-- A balanced tree doubles its entries with every second level. -/
theorem Balanced.pow_depth_le {root : MapNode κ υ} (h : root.Balanced) :
    2 ^ (root.depth / 2) ≤ root.entries.length + 1 := by
  suffices hstrong : ∀ depth, depth ≤ root.depth → 2 ^ (depth / 2) ≤ root.entries.length + 1 from
    hstrong _ (Nat.le_refl _)
  induction root with
  | absent =>
    intro depth hdepth
    obtain rfl := Nat.le_zero.mp hdepth
    exact Nat.le_refl 1
  | node key value left right height ihl ihr =>
    intro depth hdepth
    obtain ⟨hleft, hright, -, hlr, hrl⟩ := h
    rw [MapNode.depth] at hdepth
    rw [entries_node, List.length_append, List.length_cons]
    rcases Nat.lt_or_ge depth 2 with hsmall | hlarge
    · rw [Nat.div_eq_of_lt hsmall]
      exact Nat.le_add_left 1 _
    · have hl := ihl hleft (depth - 2) (by omega)
      have hr := ihr hright (depth - 2) (by omega)
      have hhalf : depth / 2 = (depth - 2) / 2 + 1 := by omega
      rw [hhalf, pow_succ]
      omega

end Nocter.Persistent.MapNode
