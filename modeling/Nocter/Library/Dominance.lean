import Mathlib.Algebra.BigOperators.Group.Finset.Basic
import Mathlib.Algebra.Order.BigOperators.Group.Finset
import Mathlib.Data.Finset.Card

/-!
# Dominance

A node of a flow graph dominates another when every walk from the entry to the other passes it. The
dominators are the greatest solution of the meet equations, which repeated refinement of the largest
candidate reaches.
-/

namespace Nocter

/-- A finite graph with an entry, given by the predecessors of its nodes. -/
structure FlowGraph (ι : Type) where
  nodes : Finset ι
  entry : ι
  preds : ι → Finset ι

namespace FlowGraph

variable {ι : Type} (G : FlowGraph ι)

/-- A walk from the entry passes the nodes of a list and then reaches the node. -/
inductive Walk : List ι → ι → Prop
  | entry : Walk [] G.entry
  | step {visited : List ι} {a b : ι} (h : Walk visited a) (hb : b ∈ G.nodes) (hab : a ∈ G.preds b) :
      Walk (visited ++ [a]) b

def Dominates (d b : ι) : Prop := ∀ visited, G.Walk visited b → d ∈ visited ++ [b]

variable {G}

/-- A dominator other than the node itself dominates every predecessor. -/
theorem Dominates.pred {d a b : ι} (h : G.Dominates d b) (hne : d ≠ b) (hb : b ∈ G.nodes)
    (hab : a ∈ G.preds b) : G.Dominates d a := by
  intro visited hwalk
  rcases List.mem_append.mp (h _ (hwalk.step hb hab)) with hmem | hmem
  · exact hmem
  · exact absurd (List.mem_singleton.mp hmem) hne

theorem Dominates.entry {d : ι} (h : G.Dominates d G.entry) : d = G.entry :=
  List.mem_singleton.mp (h [] .entry)

section Refinement

variable [DecidableEq ι] (G)

/-- The node and whatever is a candidate of all of its predecessors. -/
def meet (candidates : ι → Finset ι) (b : ι) : Finset ι :=
  insert b {d ∈ G.nodes | ∀ p ∈ G.preds b, d ∈ candidates p}

variable {G}

/-- What the refinement keeps: no dominator is lost, and refining once more only removes
candidates. -/
structure Refining (G : FlowGraph ι) (candidates : ι → Finset ι) : Prop where
  entry : candidates G.entry = {G.entry}
  subset : ∀ b ∈ G.nodes, candidates b ⊆ G.nodes
  keeps : ∀ b ∈ G.nodes, ∀ d ∈ G.nodes, G.Dominates d b → d ∈ candidates b
  meet_subset : ∀ b ∈ G.nodes, b ≠ G.entry → G.meet candidates b ⊆ candidates b

theorem meet_mono {candidates smaller : ι → Finset ι} {b : ι} (hpreds : G.preds b ⊆ G.nodes)
    (h : ∀ a ∈ G.nodes, smaller a ⊆ candidates a) : G.meet smaller b ⊆ G.meet candidates b := by
  intro d hd
  rw [meet, Finset.mem_insert, Finset.mem_filter] at hd ⊢
  exact hd.imp_right fun hd => ⟨hd.1, fun p hp => h p (hpreds hp) (hd.2 p hp)⟩

variable (G)

/-- All nodes, but for the entry. -/
def largest (b : ι) : Finset ι := if b = G.entry then {b} else G.nodes

def refineAt (candidates : ι → Finset ι) (b : ι) : ι → Finset ι :=
  Function.update candidates b (G.meet candidates b)

variable {G}

theorem meet_subset_nodes {candidates : ι → Finset ι} {b : ι} (hb : b ∈ G.nodes) :
    G.meet candidates b ⊆ G.nodes := by
  intro d hd
  rw [meet, Finset.mem_insert, Finset.mem_filter] at hd
  rcases hd with rfl | hd
  · exact hb
  · exact hd.1

theorem refining_largest (hentry : G.entry ∈ G.nodes) : Refining G G.largest := by
  refine ⟨if_pos rfl, fun b _ => ?_, fun b _ d hd hdom => ?_, fun b hb hne => ?_⟩
  · rw [largest]
    split
    · rename_i heq
      rw [heq, Finset.singleton_subset_iff]
      exact hentry
    · exact Finset.Subset.refl _
  · rw [largest]
    split
    · rename_i heq
      rw [heq] at hdom ⊢
      exact Finset.mem_singleton.mpr hdom.entry
    · exact hd
  · rw [largest, if_neg hne]
    exact meet_subset_nodes hb

theorem Refining.congr {candidates others : ι → Finset ι} (h : Refining G candidates)
    (hstart : G.entry ∈ G.nodes) (hpreds : ∀ b ∈ G.nodes, G.preds b ⊆ G.nodes)
    (heq : ∀ b ∈ G.nodes, others b = candidates b) : Refining G others := by
  refine ⟨by rw [heq _ hstart, h.entry], fun b hb => heq b hb ▸ h.subset b hb,
    fun b hb d hd hdom => heq b hb ▸ h.keeps b hb d hd hdom, fun b hb hne => ?_⟩
  rw [heq b hb]
  exact (meet_mono (hpreds b hb) fun a ha => (heq a ha).le).trans (h.meet_subset b hb hne)

theorem Refining.refineAt {candidates : ι → Finset ι} (h : Refining G candidates)
    (hpreds : ∀ b ∈ G.nodes, G.preds b ⊆ G.nodes) {b : ι} (hb : b ∈ G.nodes) (hne : b ≠ G.entry) :
    Refining G (G.refineAt candidates b) := by
  have hsmaller : ∀ a ∈ G.nodes, G.refineAt candidates b a ⊆ candidates a := by
    intro a ha
    rw [FlowGraph.refineAt, Function.update_apply]
    split
    · rename_i heq
      rw [heq]
      exact h.meet_subset b hb hne
    · exact Finset.Subset.refl _
  refine ⟨?_, fun a ha => (hsmaller a ha).trans (h.subset a ha), fun a ha d hd hdom => ?_,
    fun a ha hane => ?_⟩
  · rw [FlowGraph.refineAt, Function.update_of_ne (Ne.symm hne), h.entry]
  · rw [FlowGraph.refineAt, Function.update_apply]
    split
    · rename_i heq
      rw [heq] at hdom
      rw [meet, Finset.mem_insert, Finset.mem_filter]
      refine or_iff_not_imp_left.mpr fun hdne => ⟨hd, fun p hp => ?_⟩
      exact h.keeps p (hpreds b hb hp) d hd (hdom.pred hdne hb hp)
    · exact h.keeps a ha d hd hdom
  · have hmeet : G.meet (G.refineAt candidates b) a ⊆ G.meet candidates a :=
      meet_mono (hpreds a ha) hsmaller
    by_cases heq : a = b
    · rw [heq] at hmeet ⊢
      rwa [FlowGraph.refineAt, Function.update_self]
    · rw [FlowGraph.refineAt, Function.update_of_ne heq]
      exact hmeet.trans (h.meet_subset a ha hane)

/-- Where refinement changes nothing the candidates are the dominators. -/
theorem Refining.dominates {candidates : ι → Finset ι} (h : Refining G candidates)
    (hstable : ∀ b ∈ G.nodes, b ≠ G.entry → G.meet candidates b = candidates b)
    {b d : ι} (hb : b ∈ G.nodes) : d ∈ candidates b ↔ d ∈ G.nodes ∧ G.Dominates d b := by
  refine ⟨fun hd => ⟨h.subset b hb hd, fun visited hwalk => ?_⟩, fun hd => h.keeps b hb d hd.1 hd.2⟩
  clear hb
  induction hwalk with
  | entry =>
    rw [h.entry, Finset.mem_singleton] at hd
    exact List.mem_append_right _ (List.mem_singleton.mpr hd)
  | @step visited a b _ hb hab ih =>
    by_cases hentry : b = G.entry
    · rw [hentry, h.entry, Finset.mem_singleton] at hd
      exact List.mem_append_right _ (List.mem_singleton.mpr (hd.trans hentry.symm))
    · rw [← hstable b hb hentry, meet, Finset.mem_insert, Finset.mem_filter] at hd
      rcases hd with rfl | hd
      · exact List.mem_append_right _ List.mem_cons_self
      · exact List.mem_append_left _ (ih (hd.2 a hab))

/-- The number of candidates, which every effective refinement decreases. -/
def candidateCount (G : FlowGraph ι) (candidates : ι → Finset ι) : ℕ :=
  ∑ b ∈ G.nodes, (candidates b).card

theorem candidateCount_refineAt_lt {candidates : ι → Finset ι} (h : Refining G candidates) {b : ι}
    (hb : b ∈ G.nodes) (hne : b ≠ G.entry) (hchanged : G.meet candidates b ≠ candidates b) :
    candidateCount G (G.refineAt candidates b) < candidateCount G candidates := by
  have hless : (G.meet candidates b).card < (candidates b).card :=
    Finset.card_lt_card ((h.meet_subset b hb hne).ssubset_of_ne hchanged)
  refine Finset.sum_lt_sum (fun a _ => ?_) ⟨b, hb, ?_⟩
  · rw [FlowGraph.refineAt, Function.update_apply]
    split
    · rename_i heq
      rw [heq]
      exact hless.le
    · exact le_rfl
  · rwa [FlowGraph.refineAt, Function.update_self]

end Refinement

end FlowGraph

end Nocter
