import Nocter.Library.Liveness
import Nocter.Library.Traversal
import Nocter.Machine.Dataflow

/-!
# The facts of the blocks

What a successful collection has established: every block is straight-line code whose
exposed uses and definitions were recorded, every operation belongs to one place of one
block, and the predecessors invert the successors.
-/

namespace Nocter.Machine

variable {body : MachineBody}

theorem orError_ok {α : Type} {value : Option α} {error : MachineDataflowError} {a : α} :
    orError value error = .ok a ↔ value = some a := by
  cases value with
  | none =>
    constructor
    · intro h
      cases h
    · intro h
      cases h
  | some b => simp [orError]

/-- What the operations of a block read and define, in order. -/
def blockFlows (body : MachineBody) (operations : List MachineOperationDataflow)
    (ids : List MachineOperationId) : List (InstructionFlow MachineValueId) :=
  ids.map fun id => ⟨(operations[id]?).elim ∅ MachineOperationDataflow.inputs,
    (body.operation id).bind MachineOperation.result⟩

theorem addUses_eq (uses definitions inputs : Finset MachineValueId) :
    addUses uses definitions inputs = uses ∪ (inputs \ definitions) := by
  rw [addUses, Finset.filter_notMem_eq_sdiff]

section Scan

variable {operations : List MachineOperationDataflow} {ownership : List MachineBlockId}
  {blockId : MachineBlockId}

/-- Scanning an operation exposes its inputs and adds its definition. -/
theorem scanOperation_ok {scan scan' : BlockScan} {id : MachineOperationId}
    (h : scanOperation body operations ownership blockId scan id = .ok scan') :
    ∃ flow operation, operations[id]? = some flow ∧ body.operation id = some operation ∧
      (scan'.2, scan'.1) = exposeStep (scan.2, scan.1) ⟨flow.inputs, operation.result⟩ := by
  unfold scanOperation at h
  split_ifs at h with howner
  obtain ⟨flow, hflow, h⟩ := except_bind_ok.mp h
  obtain ⟨operation, hoperation, h⟩ := except_bind_ok.mp h
  rw [orError_ok] at hflow hoperation
  refine ⟨flow, operation, hflow, hoperation, ?_⟩
  rw [addUses_eq] at h
  cases hresult : operation.result with
  | none =>
    rw [hresult] at h
    cases h
    simp [exposeStep]
  | some result =>
    rw [hresult] at h
    obtain ⟨_, _, h⟩ := except_bind_ok.mp h
    split_ifs at h
    cases h
    simp [exposeStep]

theorem scanOperations_ok (ids : List MachineOperationId) {scan scan' : BlockScan}
    (h : ids.foldlM (scanOperation body operations ownership blockId) scan = .ok scan') :
    (scan'.2, scan'.1) = (blockFlows body operations ids).foldl exposeStep (scan.2, scan.1) ∧
      ∀ id ∈ ids, (∃ flow, operations[id]? = some flow) ∧
        ∃ operation, body.operation id = some operation := by
  induction ids generalizing scan with
  | nil =>
    cases h
    exact ⟨rfl, fun id hid => absurd hid List.not_mem_nil⟩
  | cons id rest ih =>
    obtain ⟨middle, hfirst, hrest⟩ := except_foldlM_cons.mp h
    obtain ⟨flow, operation, hflow, hoperation, hstep⟩ := scanOperation_ok hfirst
    obtain ⟨hfold, hknown⟩ := ih hrest
    constructor
    · rw [hfold, hstep]
      simp [blockFlows, hflow, hoperation]
    · intro other hother
      rcases List.mem_cons.mp hother with rfl | hmem
      · exact ⟨⟨flow, hflow⟩, operation, hoperation⟩
      · exact hknown other hmem

end Scan

/-- The facts recorded for a block, before its predecessors are known. -/
structure FactOf (body : MachineBody) (operations : List MachineOperationDataflow)
    (block : MachineBlock) (fact : BlockFacts) : Prop where
  known : ∀ id ∈ block.operations, (∃ flow, operations[id]? = some flow) ∧
    ∃ operation, body.operation id = some operation
  terminator : terminatorFlow body block.terminator = .ok (fact.terminatorInputs, fact.successors)
  /-- Forward exposure and the backward walk agree on what the block needs. -/
  transfer : ∀ out : Finset MachineValueId, fact.uses ∪ (out \ fact.definitions) =
    walkBack (out ∪ fact.terminatorInputs) (blockFlows body operations block.operations) \
      block.parameters.toFinset
  unsolved : fact.liveIn = ∅ ∧ fact.liveOut = ∅

theorem blockFact_ok {operations : List MachineOperationDataflow}
    {ownership : List MachineBlockId} {block : MachineBlock} {blockId : MachineBlockId}
    {fact : BlockFacts} (h : blockFact body operations ownership (block, blockId) = .ok fact) :
    FactOf body operations block fact ∧ fact.predecessors = ∅ := by
  unfold blockFact at h
  obtain ⟨_, _, h⟩ := except_bind_ok.mp h
  obtain ⟨⟨definitions, uses⟩, hscan, h⟩ := except_bind_ok.mp h
  obtain ⟨⟨terminatorInputs, successors⟩, hterminator, h⟩ := except_bind_ok.mp h
  obtain ⟨hfold, hknown⟩ := scanOperations_ok _ hscan
  cases h
  refine ⟨⟨hknown, hterminator, fun out => ?_, rfl, rfl⟩, rfl⟩
  have hexpose := expose_walkBack (blockFlows body operations block.operations) terminatorInputs
    out ∅ block.parameters.toFinset
  simp only at hfold hexpose
  rw [← hfold, Finset.empty_union] at hexpose
  rw [← hexpose, addUses_eq]

/-- The predecessors a traversal of edges adds. -/
theorem addPredecessors_ok (list : List (MachineBlockId × MachineBlockId))
    {facts facts' : List BlockFacts} (h : list.foldlM addPredecessor facts = .ok facts') :
    facts'.length = facts.length ∧ (∀ edge ∈ list, edge.2 < facts.length) ∧
      ∀ b fact, facts[b]? = some fact → ∃ predecessors,
        facts'[b]? = some { fact with predecessors } ∧
        ∀ p, p ∈ predecessors ↔ p ∈ fact.predecessors ∨ (p, b) ∈ list := by
  induction list generalizing facts with
  | nil =>
    cases h
    refine ⟨rfl, fun edge hedge => absurd hedge List.not_mem_nil, fun b fact hfact => ?_⟩
    exact ⟨fact.predecessors, hfact, fun p => by simp⟩
  | cons edge rest ih =>
    obtain ⟨middle, hfirst, hrest⟩ := except_foldlM_cons.mp h
    unfold addPredecessor at hfirst
    obtain ⟨target, htarget, hfirst⟩ := except_bind_ok.mp hfirst
    rw [orError_ok] at htarget
    cases hfirst
    obtain ⟨hlength, hedges, hfacts⟩ := ih hrest
    rw [List.length_set] at hlength hedges
    have hlt : edge.2 < facts.length := (List.getElem?_eq_some_iff.mp htarget).1
    refine ⟨hlength, fun other hother => ?_, fun b fact hfact => ?_⟩
    · rcases List.mem_cons.mp hother with rfl | hmem
      · exact hlt
      · exact hedges other hmem
    · by_cases hb : edge.2 = b
      · subst hb
        obtain rfl := Option.some.inj (htarget.symm.trans hfact)
        obtain ⟨predecessors, hnew, hmem⟩ := hfacts edge.2
          { target with predecessors := insert edge.1 target.predecessors } (by simp [hlt])
        refine ⟨predecessors, hnew, fun p => ?_⟩
        rw [hmem p]
        simp only [Finset.mem_insert, List.mem_cons, Prod.ext_iff, and_true]
        tauto
      · obtain ⟨predecessors, hnew, hmem⟩ := hfacts b fact (by simpa [hb] using hfact)
        refine ⟨predecessors, hnew, fun p => ?_⟩
        rw [hmem p]
        have hne : (p, b) ≠ edge := fun he => hb (by rw [← he])
        simp [hne]

/-- No two claims of a successful assignment name one operation. -/
theorem claimOperations_nodup (list : List (MachineBlockId × MachineOperationId))
    {owners owners' : List (Option MachineBlockId)}
    (h : list.foldlM claimOperation owners = .ok owners') :
    (list.map Prod.snd).Nodup ∧ ∀ id ∈ list.map Prod.snd, owners[id]? = some none := by
  induction list generalizing owners with
  | nil => exact ⟨List.nodup_nil, fun id hid => absurd hid List.not_mem_nil⟩
  | cons claim rest ih =>
    obtain ⟨middle, hfirst, hrest⟩ := except_foldlM_cons.mp h
    obtain ⟨hnodup, hfree⟩ := ih hrest
    have hclaim : owners[claim.2]? = some none ∧ middle = owners.set claim.2 (some claim.1) := by
      unfold claimOperation at hfirst
      split at hfirst
      · cases hfirst
      · cases hfirst
      · rename_i hnone
        cases hfirst
        exact ⟨hnone, rfl⟩
    obtain ⟨hnone, rfl⟩ := hclaim
    have hlt : claim.2 < owners.length := (List.getElem?_eq_some_iff.mp hnone).1
    have hother : ∀ id ∈ rest.map Prod.snd, id ≠ claim.2 ∧ owners[id]? = some none := by
      intro id hid
      have hmem := hfree id hid
      by_cases he : id = claim.2
      · subst he
        simp [hlt] at hmem
      · refine ⟨he, ?_⟩
        simpa [Ne.symm he] using hmem
    constructor
    · rw [List.map_cons, List.nodup_cons]
      exact ⟨fun hmem => (hother claim.2 hmem).1 rfl, hnodup⟩
    · intro id hid
      rcases List.mem_cons.mp hid with rfl | hmem
      · exact hnone
      · exact (hother id hmem).2

/-- What collection has established about a body and its facts. -/
structure Collected (body : MachineBody) (operations : List MachineOperationDataflow)
    (facts : List BlockFacts) : Prop where
  inputs : ∀ (id : ℕ) (operation : MachineOperation), body.operation id = some operation →
    ∃ flow, operations[id]? = some flow ∧ operationInputs body operation.kind = .ok flow.inputs
  length : facts.length = body.blocks.length
  fact : ∀ (b : ℕ) (block : MachineBlock), body.block b = some block →
    ∃ fact, facts[b]? = some fact ∧ FactOf body operations block fact
  successors : ∀ (b : ℕ) (fact : BlockFacts), facts[b]? = some fact →
    ∀ c ∈ fact.successors, ∃ next : BlockFacts, facts[c]? = some next ∧ b ∈ next.predecessors
  predecessors : ∀ (b : ℕ) (fact : BlockFacts), facts[b]? = some fact → ∀ p ∈ fact.predecessors, p < facts.length
  nodup : ((claims body).map Prod.snd).Nodup

theorem mem_edges {facts : List BlockFacts} {edge : MachineBlockId × MachineBlockId} :
    edge ∈ edges facts ↔ ∃ fact, facts[edge.1]? = some fact ∧ edge.2 ∈ fact.successors := by
  unfold edges
  rw [List.mem_flatMap]
  constructor
  · rintro ⟨⟨fact, index⟩, hmem, hedge⟩
    obtain ⟨successor, hsuccessor, rfl⟩ := List.mem_map.mp hedge
    exact ⟨fact, List.mem_zipIdx_iff_getElem?.mp hmem, by simpa using hsuccessor⟩
  · rintro ⟨fact, hfact, hsuccessor⟩
    refine ⟨(fact, edge.1), List.mem_zipIdx_iff_getElem?.mpr hfact, ?_⟩
    exact List.mem_map.mpr ⟨edge.2, by simpa using hsuccessor, rfl⟩

theorem collect_ok {operations : List MachineOperationDataflow} {facts : List BlockFacts}
    (h : collect body = .ok (operations, facts)) : Collected body operations facts := by
  unfold collect at h
  obtain ⟨_, _, h⟩ := except_bind_ok.mp h
  obtain ⟨_, hoperations, h⟩ := except_bind_ok.mp h
  obtain ⟨ownership, hownership, h⟩ := except_bind_ok.mp h
  obtain ⟨_, hblocks, h⟩ := except_bind_ok.mp h
  cases h
  unfold operationOwnership at hownership
  obtain ⟨owners, hclaims, _⟩ := except_bind_ok.mp hownership
  unfold blockFacts at hblocks
  obtain ⟨_, _, hblocks⟩ := except_bind_ok.mp hblocks
  obtain ⟨early, hearly, hblocks⟩ := except_bind_ok.mp hblocks
  obtain ⟨hlength, hfact⟩ := zipIdx_mapM_ok hearly
  obtain ⟨hlength', hedges, hfinal⟩ := addPredecessors_ok _ hblocks
  -- the facts of a block before and after its predecessors are added
  have hback : ∀ b fact, facts[b]? = some fact → ∃ first, early[b]? = some first ∧
      first.predecessors = ∅ ∧ fact.successors = first.successors ∧
      ∀ p, p ∈ fact.predecessors ↔ (p, b) ∈ edges early := by
    intro b fact hb
    have hlt : b < early.length := hlength' ▸ (List.getElem?_eq_some_iff.mp hb).1
    have hblock : body.blocks[b]? = some body.blocks[b] := List.getElem?_eq_getElem _
    obtain ⟨first, hfirst, hof⟩ := hfact b _ hblock
    obtain ⟨predecessors, hnew, hmem⟩ := hfinal b first hfirst
    obtain rfl := Option.some.inj (hb.symm.trans hnew)
    have hempty := (blockFact_ok hof).2
    refine ⟨first, hfirst, hempty, rfl, fun p => ?_⟩
    rw [hmem p, hempty]
    simp
  refine ⟨fun id operation hid => ?_, hlength'.trans hlength, fun b block hb => ?_,
    fun b fact hb c hc => ?_, fun b fact hb p hp => ?_, (claimOperations_nodup _ hclaims).1⟩
  · have hall := mapM_ok_iff.mp hoperations
    obtain ⟨hlt, hget⟩ := List.getElem?_eq_some_iff.mp hid
    have hsame := hall.length_eq
    have hentry := hall.get hlt (by omega : id < operations.length)
    obtain ⟨inputs, hinputs, hflow⟩ := except_bind_ok.mp hentry
    have hflow := (Except.ok.inj hflow).symm
    refine ⟨_, List.getElem?_eq_getElem (by omega), ?_⟩
    rw [List.get_eq_getElem] at hflow hinputs
    rw [hflow, ← hget]
    exact hinputs
  · obtain ⟨first, hfirst, hof⟩ := hfact b block hb
    obtain ⟨predecessors, hnew, _⟩ := hfinal b first hfirst
    have hfactOf := (blockFact_ok hof).1
    exact ⟨_, hnew, hfactOf.known, hfactOf.terminator, hfactOf.transfer, hfactOf.unsolved⟩
  · obtain ⟨first, hfirst, _, hsuccessors, _⟩ := hback b fact hb
    have hedge : (b, c) ∈ edges early := mem_edges.mpr ⟨first, hfirst, hsuccessors ▸ hc⟩
    have hlt : c < facts.length := hlength' ▸ hedges _ hedge
    obtain ⟨_, _, _, _, hmem⟩ := hback c facts[c] (List.getElem?_eq_getElem hlt)
    exact ⟨facts[c], List.getElem?_eq_getElem hlt, (hmem b).mpr hedge⟩
  · obtain ⟨_, _, _, _, hmem⟩ := hback b fact hb
    obtain ⟨first, hfirst, _⟩ := mem_edges.mp ((hmem p).mp hp)
    rw [hlength']
    exact (List.getElem?_eq_some_iff.mp hfirst).1

end Nocter.Machine

/-!
# Solving and completing liveness

The worklist loop is the abstract solver on the flow of the collected facts, so it ends
with the least solution; the backward walk through every block then meets that solution.
-/

namespace Nocter.Machine

open BlockFlow (Solver)

section Worklist

/-- The flow the facts describe. -/
def flowOf (facts : List BlockFacts) : BlockFlow MachineBlockId MachineValueId where
  uses b := (facts[b]?).elim ∅ BlockFacts.uses
  definitions b := (facts[b]?).elim ∅ BlockFacts.definitions
  successors b := (facts[b]?).elim ∅ BlockFacts.successors
  predecessors b := (facts[b]?).elim ∅ BlockFacts.predecessors

def solverOf (solver : LivenessSolver) : Solver MachineBlockId MachineValueId where
  live b := (solver.facts[b]?).elim ∅ BlockFacts.liveIn
  out b := (solver.facts[b]?).elim ∅ BlockFacts.liveOut
  pending := solver.pending

/-- The second facts differ from the first in their live sets only. -/
structure Updates (facts facts' : List BlockFacts) : Prop where
  length : facts'.length = facts.length
  fact : ∀ (b : ℕ) (fact : BlockFacts), facts[b]? = some fact → ∃ liveIn liveOut,
    facts'[b]? = some { fact with liveIn, liveOut }

theorem Updates.refl (facts : List BlockFacts) : Updates facts facts :=
  ⟨rfl, fun _ fact h => ⟨fact.liveIn, fact.liveOut, h⟩⟩

theorem Updates.set {facts facts' : List BlockFacts} (h : Updates facts facts') {b : ℕ}
    {fact : BlockFacts} (hb : facts'[b]? = some fact) (liveIn liveOut : Finset MachineValueId) :
    Updates facts (facts'.set b { fact with liveIn, liveOut }) := by
  refine ⟨by rw [List.length_set, h.length], fun c first hc => ?_⟩
  obtain ⟨i, o, hnew⟩ := h.fact c first hc
  by_cases hbc : b = c
  · subst hbc
    obtain rfl := Option.some.inj (hb.symm.trans hnew)
    exact ⟨liveIn, liveOut, by simp [(List.getElem?_eq_some_iff.mp hb).1]⟩
  · exact ⟨i, o, by simpa [hbc] using hnew⟩

theorem Updates.flowOf {facts facts' : List BlockFacts} (h : Updates facts facts') :
    flowOf facts' = flowOf facts := by
  have hsame : ∀ {α : Type} (d : α) (g : BlockFacts → α)
      (_ : ∀ fact i o, g { fact with liveIn := i, liveOut := o } = g fact) (b : ℕ),
      (facts'[b]?).elim d g = (facts[b]?).elim d g := by
    intro α d g hg b
    cases hb : facts[b]? with
    | none =>
      rw [List.getElem?_eq_none (h.length ▸ List.getElem?_eq_none_iff.mp hb)]
    | some fact =>
      obtain ⟨i, o, hnew⟩ := h.fact b fact hb
      rw [hnew]
      exact hg fact i o
  unfold Machine.flowOf
  congr 1 <;> funext b <;> exact hsame _ _ (fun _ _ _ => rfl) b

/-- One pass of the loop is one visit of the abstract solver. -/
theorem solveBlock_visit {facts : List BlockFacts} (pending : Finset ℕ) {b : ℕ}
    {fact : BlockFacts} (hb : facts[b]? = some fact)
    (hknown : ∀ c ∈ fact.successors, c < facts.length) :
    ∃ solver, solveBlock facts (pending.erase b) b = some solver ∧
      (∃ liveIn liveOut, solver.facts = facts.set b { fact with liveIn, liveOut }) ∧
      solverOf solver = (flowOf facts).visit (solverOf ⟨facts, pending⟩) b := by
  have hlt : b < facts.length := (List.getElem?_eq_some_iff.mp hb).1
  have hout : (flowOf facts).outOf (solverOf ⟨facts, pending⟩).live b =
      successorsLive facts fact := by
    simp [BlockFlow.outOf, flowOf, solverOf, hb, successorsLive]
  have htransfer : (flowOf facts).transfer (solverOf ⟨facts, pending⟩).live b =
      fact.uses ∪ (successorsLive facts fact).filter fun value => value ∉ fact.definitions := by
    rw [BlockFlow.transfer, hout, Finset.filter_notMem_eq_sdiff]
    simp [flowOf, hb]
  let liveIn := fact.uses ∪ (successorsLive facts fact).filter fun value => value ∉ fact.definitions
  refine ⟨⟨facts.set b { fact with liveIn, liveOut := successorsLive facts fact },
    if liveIn ≠ fact.liveIn then pending.erase b ∪ fact.predecessors else pending.erase b⟩,
    ?_, ⟨_, _, rfl⟩, ?_⟩
  · rw [solveBlock, hb]
    exact if_pos hknown
  rw [BlockFlow.visit, htransfer, hout]
  unfold solverOf
  congr 1
  · funext c
    by_cases hbc : b = c
    · subst hbc
      simp [hlt, liveIn]
    · simp [hbc, Function.update_of_ne (Ne.symm hbc)]
  · funext c
    by_cases hbc : b = c
    · subst hbc
      simp [hlt]
    · simp [hbc, Function.update_of_ne (Ne.symm hbc)]
  · simp only [flowOf, hb, Option.elim_some]
    split_ifs
    · rfl
    · rw [Finset.union_empty]

/-- The live sets are the least solution of the flow equations. -/
structure Solved (facts facts' : List BlockFacts) : Prop where
  length : facts'.length = facts.length
  fact : ∀ (b : ℕ) (fact : BlockFacts), facts[b]? = some fact → ∃ liveIn liveOut,
    facts'[b]? = some { fact with liveIn, liveOut } ∧
    liveIn = fact.uses ∪ (liveOut \ fact.definitions) ∧
    (∀ v, v ∈ liveIn ↔ (flowOf facts).Needs b v) ∧
    ∀ v, v ∈ liveOut ↔ ∃ c ∈ fact.successors, (flowOf facts).Needs c v

variable {body : MachineBody} {operations : List MachineOperationDataflow}
  {facts : List BlockFacts}

theorem Collected.closed (h : Collected body operations facts) :
    (flowOf facts).Closed (Finset.range facts.length) := by
  have hget : ∀ b : ℕ, b ∈ Finset.range facts.length → ∃ fact : BlockFacts, facts[b]? = some fact :=
    fun b hb => ⟨_, List.getElem?_eq_getElem (Finset.mem_range.mp hb)⟩
  refine ⟨fun b hb c hc => ?_, fun b hb p hp => ?_, fun b hb c hc => ?_⟩
  · obtain ⟨fact, hfact⟩ := hget b hb
    simp only [flowOf, hfact, Option.elim_some] at hc
    obtain ⟨next, hnext, _⟩ := h.successors b fact hfact c hc
    exact Finset.mem_range.mpr (List.getElem?_eq_some_iff.mp hnext).1
  · obtain ⟨fact, hfact⟩ := hget b hb
    simp only [flowOf, hfact, Option.elim_some] at hp
    exact Finset.mem_range.mpr (h.predecessors b fact hfact p hp)
  · obtain ⟨fact, hfact⟩ := hget b hb
    simp only [flowOf, hfact, Option.elim_some] at hc
    obtain ⟨next, hnext, hmem⟩ := h.successors b fact hfact c hc
    simpa only [flowOf, hnext, Option.elim_some] using hmem

/-- The passes after which the worklist is certainly empty. -/
def passBound (facts : List BlockFacts) : ℕ :=
  (flowOf facts).weight (Finset.range facts.length)
    (solverOf ⟨facts, Finset.range facts.length⟩) + 1

theorem solveLiveness_solved (h : Collected body operations facts) {passes : ℕ}
    (hpasses : passBound facts ≤ passes) :
    ∃ facts', solveLiveness passes facts = some facts' ∧ Solved facts facts' := by
  have hclosed := h.closed
  have hstart : solverOf ⟨facts, Finset.range facts.length⟩ =
      ⟨fun _ => ∅, fun _ => ∅, Finset.range facts.length⟩ := by
    have hempty : ∀ b : ℕ, (facts[b]?).elim ∅ BlockFacts.liveIn = ∅ ∧
        (facts[b]?).elim ∅ BlockFacts.liveOut = ∅ := by
      intro b
      cases hb : facts[b]? with
      | none => exact ⟨rfl, rfl⟩
      | some fact =>
        have hlt : b < body.blocks.length := h.length ▸ (List.getElem?_eq_some_iff.mp hb).1
        obtain ⟨_, hfact, hof⟩ := h.fact b _ (List.getElem?_eq_getElem hlt)
        obtain rfl := Option.some.inj (hb.symm.trans hfact)
        exact hof.unsolved
    unfold solverOf
    congr 1 <;> funext b
    · exact (hempty b).1
    · exact (hempty b).2
  refine Loop.attempt_spec
    (P := fun solver => Updates facts solver.facts ∧
      (flowOf facts).Solving (Finset.range facts.length) (solverOf solver))
    (fun solver => (flowOf facts).weight (Finset.range facts.length) (solverOf solver))
    ?_ ?_ hpasses
  · rintro solver ⟨hupdates, hsolving⟩
    by_cases hpending : solver.pending.Nonempty
    · left
      have hmem := solver.pending.max'_mem hpending
      generalize hblock : solver.pending.max' hpending = block at hmem
      have hlt : block < facts.length := Finset.mem_range.mp (hsolving.pending hmem)
      obtain ⟨i, o, hget⟩ := hupdates.fact block _ (List.getElem?_eq_getElem hlt)
      have hknown : ∀ c ∈ facts[block].successors, c < solver.facts.length := by
        intro c hc
        obtain ⟨_, hnext, _⟩ := h.successors block _ (List.getElem?_eq_getElem hlt) c hc
        rw [hupdates.length]
        exact (List.getElem?_eq_some_iff.mp hnext).1
      obtain ⟨next, hnext, ⟨liveIn, liveOut, hset⟩, hvisit⟩ :=
        solveBlock_visit solver.pending hget hknown
      rw [hupdates.flowOf] at hvisit
      refine ⟨next, ?_, ⟨?_, ?_⟩, ?_⟩
      · simp only [solveStep, dif_pos hpending, hblock, hnext, Option.map_some]
      · rw [hset]
        exact hupdates.set hget liveIn liveOut
      · rw [hvisit]
        exact hsolving.visit hclosed hmem
      · rw [hvisit]
        exact hsolving.weight_visit hclosed hmem
    · right
      have hdone := Finset.not_nonempty_iff_eq_empty.mp hpending
      refine ⟨solver.facts, by rw [solveStep, dif_neg hpending], hupdates.length,
        fun b fact hb => ?_⟩
      obtain ⟨i, o, hget⟩ := hupdates.fact b fact hb
      have hlt : b ∈ Finset.range facts.length :=
        Finset.mem_range.mpr (List.getElem?_eq_some_iff.mp hb).1
      obtain ⟨hlive, hout⟩ := hsolving.exact hclosed hdone hlt
      have hsettled := hsolving.settled b hlt (by
        rw [show (solverOf solver).pending = ∅ from hdone]
        exact Finset.notMem_empty b)
      rw [BlockFlow.transfer, ← hsettled.2] at hsettled
      simp only [solverOf, flowOf, hget, hb, Option.elim_some] at hlive hout hsettled
      exact ⟨i, o, hget, hsettled.1, hlive, hout⟩
  · refine ⟨Updates.refl facts, ?_⟩
    rw [hstart]
    exact BlockFlow.solving_start _

end Worklist

section Completion

variable {body : MachineBody} {operations : List MachineOperationDataflow}

/-- The table keeps the inputs that were recorded for every operation. -/
def SameInputs (operations table : List MachineOperationDataflow) : Prop :=
  ∀ id : ℕ, (table[id]?).map MachineOperationDataflow.inputs =
    (operations[id]?).map MachineOperationDataflow.inputs

/-- One operation of the walk. -/
theorem completeOperation_walks (rest : List MachineOperationId) (last : Finset MachineValueId)
    {id : MachineOperationId} {operation : MachineOperation} {table : List MachineOperationDataflow}
    {flow entry : MachineOperationDataflow} (hflow : operations[id]? = some flow)
    (hoperation : body.operation id = some operation) (hentry : table[id]? = some entry)
    (hinputs : entry.inputs = flow.inputs) :
    completeOperation body (walkBack last (blockFlows body operations rest), table) id =
      .ok (walkBack last (blockFlows body operations (id :: rest)), table.set id
          { entry with liveAfter := walkBack last (blockFlows body operations rest) }) := by
  have hflows : blockFlows body operations (id :: rest) =
      ⟨flow.inputs, operation.result⟩ :: blockFlows body operations rest := by
    rw [blockFlows, List.map_cons, hflow, hoperation]
    rfl
  rw [hflows, walkBack_cons, walkStep]
  cases hresult : operation.result with
  | none => simp [completeOperation, orError, hoperation, hentry, hresult, hinputs, bind,
      Except.bind, pure, Except.pure]
  | some result => simp [completeOperation, orError, hoperation, hentry, hresult, hinputs, bind,
      Except.bind, pure, Except.pure, Finset.sdiff_singleton_eq_erase]

/-- The walk through the operations of a block records what is live after each of them. -/
theorem completeOperations_ok (ids : List MachineOperationId) (hnodup : ids.Nodup)
    (hknown : ∀ id ∈ ids, (∃ flow, operations[id]? = some flow) ∧
      ∃ operation, body.operation id = some operation)
    (last : Finset MachineValueId) {table : List MachineOperationDataflow}
    (hsame : SameInputs operations table) :
    ∃ table', ids.reverse.foldlM (completeOperation body) (last, table) =
        .ok (walkBack last (blockFlows body operations ids), table') ∧
      SameInputs operations table' ∧ (∀ id ∉ ids, table'[id]? = table[id]?) ∧
      ∀ a id rest, ids = a ++ id :: rest → (table'[id]?).map MachineOperationDataflow.liveAfter =
          some (walkBack last (blockFlows body operations rest)) := by
  induction ids with
  | nil =>
    refine ⟨table, rfl, hsame, fun _ _ => rfl, fun a id rest h => ?_⟩
    simp at h
  | cons id rest ih =>
    obtain ⟨hnew, hrest⟩ := List.nodup_cons.mp hnodup
    obtain ⟨middle, hfold, hmiddle, hkept, hlive⟩ :=
      ih hrest fun other hother => hknown other (List.mem_cons_of_mem _ hother)
    obtain ⟨⟨flow, hflow⟩, operation, hoperation⟩ := hknown id List.mem_cons_self
    have hinputs := hmiddle id
    rw [hflow, Option.map_some, Option.map_eq_some_iff] at hinputs
    obtain ⟨entry, hentry, hentryInputs⟩ := hinputs
    have hlt : id < middle.length := (List.getElem?_eq_some_iff.mp hentry).1
    refine ⟨middle.set id
      { entry with liveAfter := walkBack last (blockFlows body operations rest) }, ?_, ?_, ?_, ?_⟩
    · rw [List.reverse_cons, List.foldlM_append, hfold]
      have hstep := completeOperation_walks rest last hflow hoperation hentry hentryInputs
      simp only [bind, Except.bind, List.foldlM_cons, List.foldlM_nil, hstep, pure, Except.pure]
    · intro other
      by_cases he : id = other
      · subst he
        simp [hlt, hflow, hentryInputs]
      · rw [List.getElem?_set_ne he]
        exact hmiddle other
    · intro other hother
      rw [List.mem_cons, not_or] at hother
      rw [List.getElem?_set_ne (Ne.symm hother.1)]
      exact hkept other hother.2
    · intro a other tail hsplit
      cases a with
      | nil =>
        obtain ⟨rfl, rfl⟩ := List.cons.inj hsplit
        simp [hlt]
      | cons first a =>
        obtain ⟨rfl, htail⟩ := List.cons.inj hsplit
        have hmem : other ∈ rest := by simp [htail]
        have hne : id ≠ other := fun he => hnew (he ▸ hmem)
        rw [List.getElem?_set_ne hne]
        exact hlive a other tail htail

theorem foldl_erase (values : List MachineValueId) (live : Finset MachineValueId) :
    values.foldl Finset.erase live = live \ values.toFinset := by
  induction values generalizing live with
  | nil => simp
  | cons value values ih =>
    rw [List.foldl_cons, ih, List.toFinset_cons]
    ext v
    simp only [Finset.mem_sdiff, Finset.mem_erase, Finset.mem_insert]
    tauto

/-- What the completed table says about the operations of one block. -/
def CompletedBlock (body : MachineBody) (operations table : List MachineOperationDataflow)
    (block : MachineBlock) (fact : BlockFacts) : Prop :=
  ∀ a id rest, block.operations = a ++ id :: rest →
    (table[id]?).map MachineOperationDataflow.liveAfter =
      some (walkBack (fact.liveOut ∪ fact.terminatorInputs) (blockFlows body operations rest))

/-- The walks through all blocks end at the solved live sets. -/
theorem completeBlocks_ok {facts : List BlockFacts} (entries : List (MachineBlock × MachineBlockId))
    (hnodup : (entries.flatMap fun entry => entry.1.operations).Nodup)
    (hfacts : ∀ entry ∈ entries, ∃ fact, facts[entry.2]? = some fact ∧
      (∀ id ∈ entry.1.operations, (∃ flow, operations[id]? = some flow) ∧
        ∃ operation, body.operation id = some operation) ∧
      fact.liveIn = walkBack (fact.liveOut ∪ fact.terminatorInputs)
        (blockFlows body operations entry.1.operations) \ entry.1.parameters.toFinset)
    {table : List MachineOperationDataflow} (hsame : SameInputs operations table) :
    ∃ table', entries.foldlM (completeBlock body facts) table = .ok table' ∧
      SameInputs operations table' ∧
      (∀ id ∉ entries.flatMap fun entry => entry.1.operations, table'[id]? = table[id]?) ∧
      ∀ entry ∈ entries, ∀ fact, facts[entry.2]? = some fact →
        CompletedBlock body operations table' entry.1 fact := by
  induction entries generalizing table with
  | nil =>
    refine ⟨table, rfl, hsame, fun _ _ => rfl, fun entry hentry => ?_⟩
    exact absurd hentry List.not_mem_nil
  | cons entry rest ih =>
    obtain ⟨fact, hfact, hknown, hlive⟩ := hfacts entry List.mem_cons_self
    rw [List.flatMap_cons, List.nodup_append] at hnodup
    obtain ⟨hfirst, hothers, hdisjoint⟩ := hnodup
    obtain ⟨middle, hwalk, hmiddle, hkept, hcompleted⟩ := completeOperations_ok
      entry.1.operations hfirst hknown (fact.liveOut ∪ fact.terminatorInputs) hsame
    obtain ⟨table', hfold, hsame', hkept', hcompleted'⟩ :=
      ih hothers (fun other hother => hfacts other (List.mem_cons_of_mem _ hother)) hmiddle
    have hblock : completeBlock body facts table entry = .ok middle := by
      simp only [completeBlock, hfact, orError, Option.elim_some, bind, Except.bind, hwalk,
        foldl_erase, ← hlive, ne_eq, not_true, if_false]
      rfl
    refine ⟨table', ?_, hsame', fun id hid => ?_, fun other hother fact' hfact' => ?_⟩
    · rw [List.foldlM_cons, hblock]
      exact hfold
    · rw [List.flatMap_cons, List.mem_append, not_or] at hid
      rw [hkept' id hid.2, hkept id hid.1]
    · rcases List.mem_cons.mp hother with rfl | hmem
      · obtain rfl := Option.some.inj (hfact.symm.trans hfact')
        intro a id tail hsplit
        have hin : id ∈ other.1.operations := by simp [hsplit]
        have hout : id ∉ rest.flatMap fun entry => entry.1.operations := fun hmem =>
          hdisjoint id hin id hmem rfl
        rw [hkept' id hout]
        exact hcompleted a id tail hsplit
      · exact hcompleted' other hmem fact' hfact'

end Completion

end Nocter.Machine
