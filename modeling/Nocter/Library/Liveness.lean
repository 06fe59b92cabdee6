import Mathlib.Algebra.BigOperators.Group.Finset.Basic
import Mathlib.Data.Finset.Card
import Mathlib.Data.Finset.Union
import Mathlib.Logic.Relation
import Mathlib.Tactic

/-!
# Liveness

A value is live at a program point when some path from the point reaches a use of it
without passing a definition of it. For straight-line code liveness is computed backwards;
over a graph of blocks it is the least solution of the flow equations, which repeated
visits of pending blocks reach.
-/

namespace Nocter

variable {P V ι : Type}

/-- A control-flow graph whose points use values and then define values. -/
structure ProgramPoints (P V : Type) where
  next : P → P → Prop
  uses : P → V → Prop
  defines : P → V → Prop

namespace ProgramPoints

variable (C : ProgramPoints P V)

/-- A path between two points along which the value is not defined before the last point. -/
def Avoids (v : V) : P → P → Prop :=
  Relation.ReflTransGen fun p q => ¬ C.defines p v ∧ C.next p q

/-- Some path from the point reaches a use of the value without passing its definition. -/
def LiveAt (p : P) (v : V) : Prop := ∃ q, C.Avoids v p q ∧ C.uses q v

variable {C}

theorem liveAt_iff {p : P} {v : V} :
    C.LiveAt p v ↔ C.uses p v ∨ ¬ C.defines p v ∧ ∃ q, C.next p q ∧ C.LiveAt q v := by
  constructor
  · rintro ⟨last, hpath, huse⟩
    rcases hpath.cases_head with rfl | ⟨q, ⟨hdef, hnext⟩, hrest⟩
    · exact Or.inl huse
    · exact Or.inr ⟨hdef, q, hnext, last, hrest, huse⟩
  · rintro (huse | ⟨hdef, q, hnext, last, hrest, huse⟩)
    · exact ⟨p, .refl, huse⟩
    · exact ⟨last, .head ⟨hdef, hnext⟩ hrest, huse⟩

/-- Whatever contains the uses and is kept against the edges contains the live values. -/
theorem LiveAt.least {Q : P → V → Prop} (huse : ∀ p v, C.uses p v → Q p v)
    (hnext : ∀ p q v, C.next p q → ¬ C.defines p v → Q q v → Q p v) {p : P} {v : V}
    (h : C.LiveAt p v) : Q p v := by
  obtain ⟨last, hpath, hlast⟩ := h
  induction hpath using Relation.ReflTransGen.head_induction_on with
  | refl => exact huse last v hlast
  | head hstep _ ih => exact hnext _ _ v hstep.2 hstep.1 ih

end ProgramPoints

section StraightLine

variable [DecidableEq V]

/-- What one instruction reads and what it defines. -/
structure InstructionFlow (V : Type) where
  inputs : Finset V
  result : Option V

/-- The uses not preceded by a definition, and the definitions, after one more instruction. -/
def exposeStep (state : Finset V × Finset V) (flow : InstructionFlow V) : Finset V × Finset V :=
  (state.1 ∪ (flow.inputs \ state.2), state.2 ∪ flow.result.toFinset)

/-- The values live before an instruction, from those live after it. -/
def walkStep (live : Finset V) (flow : InstructionFlow V) : Finset V :=
  (live \ flow.result.toFinset) ∪ flow.inputs

/-- The values live before straight-line code, from those live after it. -/
def walkBack (live : Finset V) (flows : List (InstructionFlow V)) : Finset V :=
  flows.foldr (fun flow live => walkStep live flow) live

theorem walkBack_cons (live : Finset V) (flow : InstructionFlow V)
    (flows : List (InstructionFlow V)) :
    walkBack live (flow :: flows) = walkStep (walkBack live flows) flow := rfl

/-- Forward exposure and the backward walk agree on what a block needs. -/
theorem expose_walkBack (flows : List (InstructionFlow V)) (last out uses definitions : Finset V) :
    let final := flows.foldl exposeStep (uses, definitions)
    final.1 ∪ (last \ final.2) ∪ (out \ final.2) =
      uses ∪ (walkBack (out ∪ last) flows \ definitions) := by
  induction flows generalizing uses definitions with
  | nil =>
    ext v
    simp only [List.foldl_nil, walkBack, List.foldr_nil, Finset.mem_union, Finset.mem_sdiff]
    tauto
  | cons flow flows ih =>
    rw [List.foldl_cons, walkBack_cons]
    have hrest := ih (exposeStep (uses, definitions) flow).1 (exposeStep (uses, definitions) flow).2
    simp only at hrest ⊢
    rw [hrest]
    ext v
    simp only [exposeStep, walkStep, Finset.mem_union, Finset.mem_sdiff]
    tauto

end StraightLine

section Graph

variable [DecidableEq V]

/-- The flow facts of the blocks of a graph. -/
structure BlockFlow (ι V : Type) where
  uses : ι → Finset V
  definitions : ι → Finset V
  successors : ι → Finset ι
  predecessors : ι → Finset ι

namespace BlockFlow

variable (F : BlockFlow ι V)

def outOf (live : ι → Finset V) (b : ι) : Finset V := (F.successors b).biUnion live

def transfer (live : ι → Finset V) (b : ι) : Finset V :=
  F.uses b ∪ (F.outOf live b \ F.definitions b)

/-- The least solution of the flow equations. -/
inductive Needs : ι → V → Prop
  | use {b : ι} {v : V} (h : v ∈ F.uses b) : Needs b v
  | flow {b c : ι} {v : V} (hdef : v ∉ F.definitions b) (hnext : c ∈ F.successors b)
      (h : Needs c v) : Needs b v

/-- The nodes are closed under edges, and the predecessors invert the successors. -/
structure Closed (nodes : Finset ι) : Prop where
  successors : ∀ b ∈ nodes, F.successors b ⊆ nodes
  predecessors : ∀ b ∈ nodes, F.predecessors b ⊆ nodes
  inverse : ∀ b ∈ nodes, ∀ c ∈ F.successors b, b ∈ F.predecessors c

/-- The variables of a solver that visits pending blocks. -/
structure Solver (ι V : Type) where
  live : ι → Finset V
  out : ι → Finset V
  pending : Finset ι

section Visits

variable [DecidableEq ι]

/-- Recomputes one block and, when its needs changed, queues its predecessors. -/
def visit (s : Solver ι V) (b : ι) : Solver ι V where
  live := Function.update s.live b (F.transfer s.live b)
  out := Function.update s.out b (F.outOf s.live b)
  pending := s.pending.erase b ∪
    if F.transfer s.live b ≠ s.live b then F.predecessors b else ∅

end Visits

/-- What the solver has established. -/
structure Solving (nodes : Finset ι) (s : Solver ι V) : Prop where
  pending : s.pending ⊆ nodes
  sound : ∀ b v, v ∈ s.live b → F.Needs b v
  grows : ∀ b ∈ nodes, s.live b ⊆ F.transfer s.live b
  settled : ∀ b ∈ nodes, b ∉ s.pending →
    s.live b = F.transfer s.live b ∧ s.out b = F.outOf s.live b

def mentioned (nodes : Finset ι) : Finset V := nodes.biUnion F.uses

/-- Blocks that may still grow weigh more than pending blocks. -/
def weight (nodes : Finset ι) (s : Solver ι V) : ℕ :=
  (∑ b ∈ nodes, (F.mentioned nodes \ s.live b).card) * (nodes.card + 1) + s.pending.card

variable {F} {nodes : Finset ι} {s : Solver ι V} {b : ι}

theorem transfer_mono {live live' : ι → Finset V} (h : ∀ c, live c ⊆ live' c) (b : ι) :
    F.transfer live b ⊆ F.transfer live' b := by
  refine Finset.union_subset_union_right (Finset.sdiff_subset_sdiff ?_ (Finset.Subset.refl _))
  exact Finset.biUnion_mono fun c _ => h c

theorem Needs.of_transfer {live : ι → Finset V} (hsound : ∀ b v, v ∈ live b → F.Needs b v)
    {v : V} (h : v ∈ F.transfer live b) : F.Needs b v := by
  rcases Finset.mem_union.mp h with huse | hflow
  · exact .use huse
  · obtain ⟨hout, hdef⟩ := Finset.mem_sdiff.mp hflow
    obtain ⟨c, hc, hv⟩ := Finset.mem_biUnion.mp hout
    exact .flow hdef hc (hsound c v hv)

theorem Needs.mentioned (hclosed : F.Closed nodes) {v : V} (h : F.Needs b v) (hb : b ∈ nodes) :
    v ∈ F.mentioned nodes := by
  induction h with
  | use h => exact Finset.mem_biUnion.mpr ⟨_, hb, h⟩
  | flow _ hnext _ ih => exact ih (hclosed.successors _ hb hnext)

theorem solving_start (nodes : Finset ι) : F.Solving nodes ⟨fun _ => ∅, fun _ => ∅, nodes⟩ where
  pending := Finset.Subset.refl _
  sound _ _ h := absurd h (Finset.notMem_empty _)
  grows _ _ := Finset.empty_subset _
  settled _ hb hnot := absurd hb hnot

section Visits

variable [DecidableEq ι]

@[simp] theorem visit_live_self : (F.visit s b).live b = F.transfer s.live b :=
  Function.update_self b _ _

theorem visit_live_of_ne {c : ι} (h : c ≠ b) : (F.visit s b).live c = s.live c :=
  Function.update_of_ne h _ _

theorem visit_out_of_ne {c : ι} (h : c ≠ b) : (F.visit s b).out c = s.out c :=
  Function.update_of_ne h _ _

theorem Solving.le_visit (h : F.Solving nodes s) (hb : b ∈ nodes) (c : ι) :
    s.live c ⊆ (F.visit s b).live c := by
  by_cases hc : c = b
  · subst hc
    rw [visit_live_self]
    exact h.grows c hb
  · rw [visit_live_of_ne hc]

/-- One visit keeps what the solver has established. -/
theorem Solving.visit (hclosed : F.Closed nodes) (h : F.Solving nodes s) (hb : b ∈ s.pending) :
    F.Solving nodes (F.visit s b) := by
  have hnode := h.pending hb
  refine ⟨?_, fun c v hv => ?_, fun c hc => ?_, fun c hc hnot => ?_⟩
  · refine Finset.union_subset ((Finset.erase_subset _ _).trans h.pending) ?_
    split_ifs
    · exact hclosed.predecessors b hnode
    · exact Finset.empty_subset _
  · by_cases hcb : c = b
    · subst hcb
      rw [visit_live_self] at hv
      exact Needs.of_transfer h.sound hv
    · rw [visit_live_of_ne hcb] at hv
      exact h.sound c v hv
  · have hmono := transfer_mono (F := F) (h.le_visit hnode) c
    by_cases hcb : c = b
    · subst hcb
      rw [visit_live_self]
      exact hmono
    · rw [visit_live_of_ne hcb]
      exact (h.grows c hc).trans hmono
  · -- a block that stays settled does not read a changed one
    have hread : b ∈ F.successors c → F.transfer s.live b = s.live b := by
      intro hsucc
      by_contra hchanged
      apply hnot
      rw [BlockFlow.visit, if_pos hchanged]
      exact Finset.mem_union_right _ (hclosed.inverse c hc b hsucc)
    have hout : F.outOf (F.visit s b).live c = F.outOf s.live c := by
      refine Finset.biUnion_congr rfl fun d hd => ?_
      by_cases hdb : d = b
      · subst hdb
        rw [visit_live_self]
        exact hread hd
      · rw [visit_live_of_ne hdb]
    have htransfer : F.transfer (F.visit s b).live c = F.transfer s.live c := by
      rw [transfer, transfer, hout]
    rw [hout, htransfer]
    by_cases hcb : c = b
    · subst hcb
      simp [BlockFlow.visit]
    · have hold : c ∉ s.pending := by
        intro hmem
        exact hnot (Finset.mem_union_left _ (Finset.mem_erase.mpr ⟨hcb, hmem⟩))
      rw [visit_live_of_ne hcb, visit_out_of_ne hcb]
      exact h.settled c hc hold

/-- One visit lowers the weight. -/
theorem Solving.weight_visit (hclosed : F.Closed nodes) (h : F.Solving nodes s)
    (hb : b ∈ s.pending) : F.weight nodes (F.visit s b) < F.weight nodes s := by
  have hnode := h.pending hb
  have hle := h.le_visit hnode
  have hsum : ∀ c ∈ nodes, (F.mentioned nodes \ (F.visit s b).live c).card ≤
      (F.mentioned nodes \ s.live c).card := fun c _ =>
    Finset.card_le_card (Finset.sdiff_subset_sdiff (Finset.Subset.refl _) (hle c))
  by_cases hchanged : F.transfer s.live b = s.live b
  · have hpending : (F.visit s b).pending.card < s.pending.card := by
      rw [BlockFlow.visit, if_neg (not_not.mpr hchanged), Finset.union_empty]
      exact Finset.card_erase_lt_of_mem hb
    have hrest := Nat.mul_le_mul_right (nodes.card + 1) (Finset.sum_le_sum hsum)
    simp only [weight]
    omega
  · obtain ⟨v, hv, hnew⟩ : ∃ v ∈ F.transfer s.live b, v ∉ s.live b := by
      by_contra hnone
      push Not at hnone
      exact hchanged (Finset.Subset.antisymm hnone (h.grows b hnode))
    have hmentioned : v ∈ F.mentioned nodes :=
      (Needs.of_transfer h.sound hv).mentioned hclosed hnode
    have hless : (F.mentioned nodes \ (F.visit s b).live b).card <
        (F.mentioned nodes \ s.live b).card := by
      refine Finset.card_lt_card (Finset.ssubset_iff_subset_ne.mpr
        ⟨Finset.sdiff_subset_sdiff (Finset.Subset.refl _) (hle b), fun heq => ?_⟩)
      have hmem : v ∈ F.mentioned nodes \ s.live b := Finset.mem_sdiff.mpr ⟨hmentioned, hnew⟩
      rw [← heq, visit_live_self] at hmem
      exact (Finset.mem_sdiff.mp hmem).2 hv
    have hdrop := Finset.sum_lt_sum hsum ⟨b, hnode, hless⟩
    have hpending := Finset.card_le_card (h.visit hclosed hb).pending
    have hrest := Nat.mul_le_mul_right (nodes.card + 1) (Nat.succ_le_of_lt hdrop)
    rw [Nat.succ_mul] at hrest
    simp only [weight]
    omega

end Visits

/-- With nothing pending the solver has found exactly the least solution. -/
theorem Solving.exact (hclosed : F.Closed nodes) (h : F.Solving nodes s) (hdone : s.pending = ∅)
    (hb : b ∈ nodes) : (∀ v, v ∈ s.live b ↔ F.Needs b v) ∧
      ∀ v, v ∈ s.out b ↔ ∃ c ∈ F.successors b, F.Needs c v := by
  have hsettled : ∀ c ∈ nodes, s.live c = F.transfer s.live c ∧ s.out c = F.outOf s.live c :=
    fun c hc => h.settled c hc (hdone ▸ Finset.notMem_empty c)
  have hneeds : ∀ c v, F.Needs c v → c ∈ nodes → v ∈ s.live c := by
    intro c v hv
    induction hv with
    | use huse =>
      intro hc
      rw [(hsettled _ hc).1]
      exact Finset.mem_union_left _ huse
    | flow hdef hnext _ ih =>
      intro hc
      rw [(hsettled _ hc).1]
      refine Finset.mem_union_right _ (Finset.mem_sdiff.mpr ⟨?_, hdef⟩)
      exact Finset.mem_biUnion.mpr ⟨_, hnext, ih (hclosed.successors _ hc hnext)⟩
  refine ⟨fun v => ⟨h.sound b v, fun hv => hneeds b v hv hb⟩, fun v => ?_⟩
  rw [(hsettled b hb).2, outOf, Finset.mem_biUnion]
  refine exists_congr fun c => and_congr_right fun hc => ?_
  exact ⟨h.sound c v, fun hv => hneeds c v hv (hclosed.successors b hb hc)⟩

omit [DecidableEq V] in
/-- Any solution of the flow equations contains the needs. -/
theorem Needs.least {P : ι → V → Prop} (huse : ∀ b, ∀ v ∈ F.uses b, P b v)
    (hflow : ∀ b, ∀ v ∉ F.definitions b, ∀ c ∈ F.successors b, P c v → P b v)
    {v : V} (h : F.Needs b v) : P b v := by
  induction h with
  | use h => exact huse _ _ h
  | flow hdef hnext _ ih => exact hflow _ _ hdef _ hnext ih

end BlockFlow

end Graph

end Nocter
