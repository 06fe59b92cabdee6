import Mathlib.Data.List.Nodup
import Mathlib.Logic.Function.Basic
import Mathlib.Tactic

/-!
# Linear scans

Intervals are placed in the order of their starts. An interval gets a register that no
interval holds any more, takes one over from an interval that moves to a slot, or gets a
slot itself. A register is given up when the interval that holds it has ended.
-/

namespace Nocter.LinearScan

universe u v

variable {ι : Type u} {R : Type v}

structure State (ι : Type u) (R : Type v) where
  location : ι → Option (R ⊕ ℕ)
  active : List (ι × R)
  spilled : ℕ

/-- Nothing is placed. -/
def State.empty (ι : Type u) (R : Type v) : State ι R := ⟨fun _ => none, [], 0⟩

section Scan

variable [DecidableEq ι] (start finish : ι → ℕ) (allowed : ι → R → Prop)

/-- The intervals that have not ended before a position. -/
def State.current (s : State ι R) (position : ℕ) : List (ι × R) :=
  s.active.filter fun holder => position ≤ finish holder.1

inductive Places (s : State ι R) (i : ι) : State ι R → Prop
  | assign (r : R) (hallowed : allowed i r)
      (hfree : ∀ holder ∈ s.current finish (start i), holder.2 ≠ r) :
      Places s i {
        location := Function.update s.location i (some (.inl r))
        active := s.current finish (start i) ++ [(i, r)]
        spilled := s.spilled }
  | evict {before after : List (ι × R)} (victim : ι) (r : R)
      (hcurrent : s.current finish (start i) = before ++ (victim, r) :: after)
      (hallowed : allowed i r) :
      Places s i {
        location := Function.update
          (Function.update s.location victim (some (.inr s.spilled))) i (some (.inl r))
        active := before ++ (i, r) :: after
        spilled := s.spilled + 1 }
  | spill :
      Places s i {
        location := Function.update s.location i (some (.inr s.spilled))
        active := s.current finish (start i)
        spilled := s.spilled + 1 }

inductive Scans : State ι R → List ι → State ι R → Prop
  | nil (s : State ι R) : Scans s [] s
  | cons {s t u : State ι R} {i : ι} {rest : List ι} (hplace : Places start finish allowed s i t)
      (hrest : Scans t rest u) : Scans s (i :: rest) u

/-- What holds once these intervals are placed and the last of them started at a position. -/
structure Placed (placed : List ι) (position : ℕ) (s : State ι R) : Prop where
  located : ∀ i, i ∈ placed ↔ s.location i ≠ none
  started : ∀ i ∈ placed, start i ≤ position
  allowed : ∀ i r, s.location i = some (.inl r) → allowed i r
  held : ∀ holder ∈ s.active, s.location holder.1 = some (.inl holder.2)
  distinct : (s.active.map Prod.snd).Nodup
  holds : ∀ i r, s.location i = some (.inl r) → (i, r) ∈ s.active ∨ finish i < position
  apart : ∀ i j r, s.location i = some (.inl r) → s.location j = some (.inl r) → i ≠ j →
    finish i < start j ∨ finish j < start i
  bounded : ∀ i slot, s.location i = some (.inr slot) → slot < s.spilled
  single : ∀ i j slot, s.location i = some (.inr slot) → s.location j = some (.inr slot) → i = j
  dense : ∀ slot < s.spilled, ∃ i, s.location i = some (.inr slot)

variable {start finish allowed}

omit [DecidableEq ι] in
theorem Placed.empty : Placed start finish allowed [] 0 (State.empty ι R) where
  located _ := ⟨fun h => absurd h (List.not_mem_nil), fun h => absurd rfl h⟩
  started _ h := absurd h (List.not_mem_nil)
  allowed _ _ h := by cases h
  held _ h := absurd h (List.not_mem_nil)
  distinct := List.nodup_nil
  holds _ _ h := by cases h
  apart _ _ _ h := by cases h
  bounded _ _ h := by cases h
  single _ _ _ h := by cases h
  dense _ h := absurd h (Nat.not_lt_zero _)

omit [DecidableEq ι] in
theorem State.mem_current {s : State ι R} {position : ℕ} {holder : ι × R} :
    holder ∈ s.current finish position ↔ holder ∈ s.active ∧ position ≤ finish holder.1 := by
  simp [State.current]

omit [DecidableEq ι] in
theorem Placed.current_distinct {placed : List ι} {position : ℕ} {s : State ι R}
    (h : Placed start finish allowed placed position s) (next : ℕ) :
    ((s.current finish next).map Prod.snd).Nodup :=
  (List.filter_sublist.map _).nodup h.distinct

omit [DecidableEq ι] in
/-- An interval that holds a register has not ended, or has ended before the next start. -/
theorem Placed.holds_next {placed : List ι} {position next : ℕ} {s : State ι R}
    (h : Placed start finish allowed placed position s) (hnext : position ≤ next) {i : ι} {r : R}
    (hlocation : s.location i = some (.inl r)) :
    (i, r) ∈ s.current finish next ∨ finish i < next := by
  rcases h.holds i r hlocation with hactive | hended
  · by_cases hfinish : next ≤ finish i
    · exact Or.inl (State.mem_current.mpr ⟨hactive, hfinish⟩)
    · exact Or.inr (Nat.lt_of_not_le hfinish)
  · exact Or.inr (Nat.lt_of_lt_of_le hended hnext)

omit [DecidableEq ι] in
/-- A holder of a register that nobody else keeps is apart from the next interval. -/
theorem Placed.ended {placed : List ι} {position next : ℕ} {s : State ι R}
    (h : Placed start finish allowed placed position s) (hnext : position ≤ next) {i : ι} {r : R}
    (hlocation : s.location i = some (.inl r))
    (hfree : ∀ holder ∈ s.current finish next, holder.2 = r → holder.1 ≠ i) : finish i < next := by
  rcases h.holds_next hnext hlocation with hcurrent | hended
  · exact absurd rfl (hfree (i, r) hcurrent rfl)
  · exact hended

/-- The location of an interval after another one moved. -/
theorem update_eq_some {location : ι → Option (R ⊕ ℕ)} {i j : ι} {value found : R ⊕ ℕ} :
    Function.update location i (some value) j = some found ↔
      (j = i ∧ found = value) ∨ (j ≠ i ∧ location j = some found) := by
  by_cases h : j = i
  · subst h
    simp [eq_comm]
  · simp [h]

theorem Placed.located_update {placed : List ι} {position : ℕ} {s : State ι R} {i : ι}
    (h : Placed start finish allowed placed position s) (value : R ⊕ ℕ) (j : ι) :
    j ∈ placed ++ [i] ↔ Function.update s.location i (some value) j ≠ none := by
  by_cases hsame : j = i
  · subst hsame
    simp
  · rw [Function.update_of_ne hsame, ← h.located]
    simp [hsame]

omit [DecidableEq ι] in
theorem Placed.started_next {placed : List ι} {position : ℕ} {s : State ι R} {i : ι}
    (h : Placed start finish allowed placed position s) (hposition : position ≤ start i) :
    ∀ j ∈ placed ++ [i], start j ≤ start i := by
  intro j hmem
  rw [List.mem_append, List.mem_singleton] at hmem
  rcases hmem with hmem | rfl
  · exact (h.started j hmem).trans hposition
  · exact Nat.le_refl _

omit [DecidableEq ι] in
/-- The next interval is none of those that have a location. -/
theorem Placed.other {placed : List ι} {position : ℕ} {s : State ι R} {i : ι}
    (h : Placed start finish allowed placed position s) (hfresh : i ∉ placed) {j : ι}
    {value : R ⊕ ℕ} (hlocation : s.location j = some value) : j ≠ i := by
  rintro rfl
  exact hfresh ((h.located j).mpr (by rw [hlocation]; exact Option.some_ne_none _))

theorem Placed.assign {placed : List ι} {position : ℕ} {s : State ι R} {i : ι} {r : R}
    (h : Placed start finish allowed placed position s) (hposition : position ≤ start i)
    (hfresh : i ∉ placed) (hallowed : allowed i r)
    (hfree : ∀ holder ∈ s.current finish (start i), holder.2 ≠ r) :
    Placed start finish allowed (placed ++ [i]) (start i) {
      location := Function.update s.location i (some (.inl r))
      active := s.current finish (start i) ++ [(i, r)]
      spilled := s.spilled } := by
  refine ⟨h.located_update _, h.started_next hposition, fun j q hj => ?_, fun holder hmem => ?_, ?_,
    fun j q hj => ?_, fun j k q hj hk hne => ?_, fun j slot hj => ?_, fun j k slot hj hk => ?_,
    fun slot hslot => ?_⟩
  · rcases update_eq_some.mp hj with ⟨rfl, heq⟩ | ⟨_, hj⟩
    · cases heq
      exact hallowed
    · exact h.allowed j q hj
  · rw [update_eq_some]
    rw [List.mem_append, List.mem_singleton] at hmem
    rcases hmem with hmem | rfl
    · have hlocation := h.held holder (State.mem_current.mp hmem).1
      exact Or.inr ⟨h.other hfresh hlocation, hlocation⟩
    · exact Or.inl ⟨rfl, rfl⟩
  · rw [List.map_append, List.nodup_append']
    refine ⟨h.current_distinct _, List.nodup_singleton _, fun q hq hr => ?_⟩
    rw [List.mem_map] at hq
    obtain ⟨holder, hmem, rfl⟩ := hq
    exact hfree holder hmem (List.mem_singleton.mp hr)
  · rw [List.mem_append, List.mem_singleton]
    rcases update_eq_some.mp hj with ⟨rfl, heq⟩ | ⟨_, hj⟩
    · cases heq
      exact Or.inl (Or.inr rfl)
    · exact (h.holds_next hposition hj).imp_left Or.inl
  · have hended : ∀ k, s.location k = some (.inl r) → finish k < start i := fun k hk =>
      h.ended hposition hk fun holder hmem hq => absurd hq (hfree holder hmem)
    rcases update_eq_some.mp hj with ⟨rfl, heq⟩ | ⟨_, hlocation⟩
    · cases heq
      rcases update_eq_some.mp hk with ⟨rfl, _⟩ | ⟨_, hk⟩
      · exact absurd rfl hne
      · exact Or.inr (hended k hk)
    · rcases update_eq_some.mp hk with ⟨rfl, heq⟩ | ⟨_, hk⟩
      · cases heq
        exact Or.inl (hended j hlocation)
      · exact h.apart j k q hlocation hk hne
  · rcases update_eq_some.mp hj with ⟨_, heq⟩ | ⟨_, hj⟩
    · cases heq
    · exact h.bounded j slot hj
  · rcases update_eq_some.mp hj with ⟨_, heq⟩ | ⟨_, hj⟩
    · cases heq
    rcases update_eq_some.mp hk with ⟨_, heq⟩ | ⟨_, hk⟩
    · cases heq
    exact h.single j k slot hj hk
  · obtain ⟨j, hj⟩ := h.dense slot hslot
    exact ⟨j, update_eq_some.mpr (Or.inr ⟨h.other hfresh hj, hj⟩)⟩

theorem Placed.evict {placed : List ι} {position : ℕ} {s : State ι R} {i victim : ι} {r : R}
    {before after : List (ι × R)} (h : Placed start finish allowed placed position s)
    (hposition : position ≤ start i) (hfresh : i ∉ placed) (hallowed : allowed i r)
    (hcurrent : s.current finish (start i) = before ++ (victim, r) :: after) :
    Placed start finish allowed (placed ++ [i]) (start i) {
      location := Function.update
        (Function.update s.location victim (some (.inr s.spilled))) i (some (.inl r))
      active := before ++ (i, r) :: after
      spilled := s.spilled + 1 } := by
  have hvictimMem : (victim, r) ∈ s.current finish (start i) := by
    rw [hcurrent]
    exact List.mem_append_right _ List.mem_cons_self
  have hvictim := h.held _ (State.mem_current.mp hvictimMem).1
  have hvictimNe : victim ≠ i := h.other hfresh hvictim
  have hdistinct := h.current_distinct (start i)
  rw [hcurrent, List.map_append, List.map_cons, List.nodup_middle, ← List.map_append,
    List.nodup_cons] at hdistinct
  have hrest : ∀ holder ∈ before ++ after, holder ∈ s.current finish (start i) ∧ holder.2 ≠ r := by
    intro holder hmem
    have hregister : holder.2 ∈ (before ++ after).map Prod.snd := List.mem_map_of_mem hmem
    refine ⟨?_, fun hq => hdistinct.1 (by rw [← hq]; exact hregister)⟩
    rw [hcurrent, List.mem_append, List.mem_cons]
    rw [List.mem_append] at hmem
    exact hmem.imp_right Or.inr
  have hmoved : ∀ {j value}, Function.update (Function.update s.location victim
      (some (.inr s.spilled))) i (some (.inl r)) j = some value ↔
      (j = i ∧ value = .inl r) ∨ (j ≠ i ∧ ((j = victim ∧ value = .inr s.spilled) ∨
        (j ≠ victim ∧ s.location j = some value))) := by
    intro j value
    rw [update_eq_some, update_eq_some]
  refine ⟨fun j => ?_, h.started_next hposition, fun j q hj => ?_, fun holder hmem => ?_, ?_,
    fun j q hj => ?_, fun j k q hj hk hne => ?_, fun j slot hj => ?_, fun j k slot hj hk => ?_,
    fun slot hslot => ?_⟩
  · by_cases hsame : j = i
    · subst hsame
      simp
    · dsimp only
      rw [Function.update_of_ne hsame]
      by_cases hevicted : j = victim
      · subst hevicted
        have hmem : j ∈ placed := (h.located j).mpr (by rw [hvictim]; exact Option.some_ne_none _)
        simp [hmem]
      · rw [Function.update_of_ne hevicted, ← h.located]
        simp [hsame]
  · rcases hmoved.mp hj with ⟨rfl, heq⟩ | ⟨_, ⟨_, heq⟩ | ⟨_, hj⟩⟩
    · cases heq
      exact hallowed
    · cases heq
    · exact h.allowed j q hj
  · rw [hmoved]
    rw [List.mem_append, List.mem_cons, or_left_comm, ← List.mem_append] at hmem
    rcases hmem with rfl | hmem
    · exact Or.inl ⟨rfl, rfl⟩
    · obtain ⟨hkept, hne⟩ := hrest holder hmem
      have hlocation := h.held holder (State.mem_current.mp hkept).1
      refine Or.inr ⟨h.other hfresh hlocation, Or.inr ⟨fun heq => hne ?_, hlocation⟩⟩
      rw [heq, hvictim] at hlocation
      exact (Sum.inl.inj (Option.some.inj hlocation)).symm
  · rw [List.map_append, List.map_cons, List.nodup_middle, ← List.map_append, List.nodup_cons]
    exact hdistinct
  · rw [List.mem_append, List.mem_cons, or_left_comm, ← List.mem_append]
    rcases hmoved.mp hj with ⟨rfl, heq⟩ | ⟨_, ⟨_, heq⟩ | ⟨hne, hj⟩⟩
    · cases heq
      exact Or.inl (Or.inl rfl)
    · cases heq
    · rcases h.holds_next hposition hj with hmem | hended
      · rw [hcurrent, List.mem_append, List.mem_cons, or_left_comm, ← List.mem_append] at hmem
        rcases hmem with heq | hmem
        · exact absurd (congrArg Prod.fst heq) hne
        · exact Or.inl (Or.inr hmem)
      · exact Or.inr hended
  · have hended : ∀ k, k ≠ victim → s.location k = some (.inl r) → finish k < start i := by
      intro k hk hlocation
      refine h.ended hposition hlocation fun holder hmem hq heq => ?_
      rw [hcurrent, List.mem_append, List.mem_cons, or_left_comm, ← List.mem_append] at hmem
      rcases hmem with rfl | hmem
      · exact hk heq.symm
      · exact (hrest holder hmem).2 hq
    rcases hmoved.mp hj with ⟨rfl, heq⟩ | ⟨_, ⟨_, heq⟩ | ⟨hjne, hlocation⟩⟩
    · cases heq
      rcases hmoved.mp hk with ⟨rfl, _⟩ | ⟨_, ⟨_, heq⟩ | ⟨hkne, hk⟩⟩
      · exact absurd rfl hne
      · cases heq
      · exact Or.inr (hended k hkne hk)
    · cases heq
    · rcases hmoved.mp hk with ⟨rfl, heq⟩ | ⟨_, ⟨_, heq⟩ | ⟨hkne, hk⟩⟩
      · cases heq
        exact Or.inl (hended j hjne hlocation)
      · cases heq
      · exact h.apart j k q hlocation hk hne
  · rcases hmoved.mp hj with ⟨_, heq⟩ | ⟨_, ⟨_, heq⟩ | ⟨_, hj⟩⟩
    · cases heq
    · cases heq
      exact Nat.lt_succ_self _
    · exact Nat.lt_succ_of_lt (h.bounded j slot hj)
  · rcases hmoved.mp hj with ⟨_, heq⟩ | ⟨_, ⟨rfl, heq⟩ | ⟨_, hj⟩⟩
    · cases heq
    · cases heq
      rcases hmoved.mp hk with ⟨_, heq⟩ | ⟨_, ⟨rfl, _⟩ | ⟨_, hk⟩⟩
      · cases heq
      · rfl
      · exact absurd (h.bounded k _ hk) (Nat.lt_irrefl _)
    · rcases hmoved.mp hk with ⟨_, heq⟩ | ⟨_, ⟨_, heq⟩ | ⟨_, hk⟩⟩
      · cases heq
      · cases heq
        exact absurd (h.bounded j _ hj) (Nat.lt_irrefl _)
      · exact h.single j k slot hj hk
  · rcases Nat.lt_succ_iff_lt_or_eq.mp hslot with hslot | rfl
    · obtain ⟨j, hj⟩ := h.dense slot hslot
      refine ⟨j, hmoved.mpr (Or.inr ⟨h.other hfresh hj, Or.inr ⟨fun heq => ?_, hj⟩⟩)⟩
      rw [heq, hvictim] at hj
      cases hj
    · exact ⟨victim, hmoved.mpr (Or.inr ⟨hvictimNe, Or.inl ⟨rfl, rfl⟩⟩)⟩

theorem Placed.spill {placed : List ι} {position : ℕ} {s : State ι R} {i : ι}
    (h : Placed start finish allowed placed position s) (hposition : position ≤ start i)
    (hfresh : i ∉ placed) :
    Placed start finish allowed (placed ++ [i]) (start i) {
      location := Function.update s.location i (some (.inr s.spilled))
      active := s.current finish (start i)
      spilled := s.spilled + 1 } := by
  refine ⟨h.located_update _, h.started_next hposition, fun j q hj => ?_, fun holder hmem => ?_,
    h.current_distinct _, fun j q hj => ?_, fun j k q hj hk hne => ?_, fun j slot hj => ?_,
    fun j k slot hj hk => ?_, fun slot hslot => ?_⟩
  · rcases update_eq_some.mp hj with ⟨_, heq⟩ | ⟨_, hj⟩
    · cases heq
    · exact h.allowed j q hj
  · have hlocation := h.held holder (State.mem_current.mp hmem).1
    exact update_eq_some.mpr (Or.inr ⟨h.other hfresh hlocation, hlocation⟩)
  · rcases update_eq_some.mp hj with ⟨_, heq⟩ | ⟨_, hj⟩
    · cases heq
    · exact h.holds_next hposition hj
  · rcases update_eq_some.mp hj with ⟨_, heq⟩ | ⟨_, hj⟩
    · cases heq
    rcases update_eq_some.mp hk with ⟨_, heq⟩ | ⟨_, hk⟩
    · cases heq
    exact h.apart j k q hj hk hne
  · rcases update_eq_some.mp hj with ⟨_, heq⟩ | ⟨_, hj⟩
    · cases heq
      exact Nat.lt_succ_self _
    · exact Nat.lt_succ_of_lt (h.bounded j slot hj)
  · rcases update_eq_some.mp hj with ⟨rfl, heq⟩ | ⟨_, hj⟩
    · cases heq
      rcases update_eq_some.mp hk with ⟨rfl, _⟩ | ⟨_, hk⟩
      · rfl
      · exact absurd (h.bounded k _ hk) (Nat.lt_irrefl _)
    · rcases update_eq_some.mp hk with ⟨_, heq⟩ | ⟨_, hk⟩
      · cases heq
        exact absurd (h.bounded j _ hj) (Nat.lt_irrefl _)
      · exact h.single j k slot hj hk
  · rcases Nat.lt_succ_iff_lt_or_eq.mp hslot with hslot | rfl
    · obtain ⟨j, hj⟩ := h.dense slot hslot
      exact ⟨j, update_eq_some.mpr (Or.inr ⟨h.other hfresh hj, hj⟩)⟩
    · exact ⟨i, update_eq_some.mpr (Or.inl ⟨rfl, rfl⟩)⟩

/-- Placing the next interval keeps what holds of the intervals placed before. -/
theorem Places.placed {placed : List ι} {position : ℕ} {s t : State ι R} {i : ι}
    (hplaces : Places start finish allowed s i t) (h : Placed start finish allowed placed position s)
    (hposition : position ≤ start i) (hfresh : i ∉ placed) :
    Placed start finish allowed (placed ++ [i]) (start i) t := by
  cases hplaces with
  | assign r hallowed hfree => exact h.assign hposition hfresh hallowed hfree
  | evict victim r hcurrent hallowed => exact h.evict hposition hfresh hallowed hcurrent
  | spill => exact h.spill hposition hfresh

theorem Scans.placed_from {placed intervals : List ι} {position : ℕ} {s t : State ι R}
    (hscans : Scans start finish allowed s intervals t)
    (h : Placed start finish allowed placed position s)
    (hsorted : intervals.Pairwise fun i j => start i ≤ start j)
    (hposition : ∀ i ∈ intervals, position ≤ start i) (hnodup : (placed ++ intervals).Nodup) :
    ∃ last, Placed start finish allowed (placed ++ intervals) last t := by
  induction hscans generalizing placed position with
  | nil s =>
    rw [List.append_nil]
    exact ⟨position, h⟩
  | @cons s t u i rest hplace hrest ih =>
    rw [List.pairwise_cons] at hsorted
    have hfresh : i ∉ placed := fun hmem =>
      (List.nodup_append'.mp hnodup).2.2 hmem List.mem_cons_self
    have hnext := hplace.placed h (hposition i List.mem_cons_self) hfresh
    rw [← List.singleton_append, ← List.append_assoc] at hnodup ⊢
    exact ih hnext hsorted.2 hsorted.1 hnodup

/-- A scan of all intervals places each of them. -/
theorem Scans.placed {intervals : List ι} {s : State ι R}
    (hscans : Scans start finish allowed (State.empty ι R) intervals s)
    (hsorted : intervals.Pairwise fun i j => start i ≤ start j) (hnodup : intervals.Nodup) :
    ∃ last, Placed start finish allowed intervals last s := by
  have hplaced := hscans.placed_from Placed.empty hsorted (fun _ _ => Nat.zero_le _)
    (by rwa [List.nil_append])
  rwa [List.nil_append] at hplaced

end Scan

end Nocter.LinearScan
