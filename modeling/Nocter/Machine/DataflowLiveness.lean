import Nocter.Machine.DataflowSolution

/-!
# Liveness is liveness along paths

The program points of a body lie before its operations and terminators and around its
blocks. The dataflow of a body records, at every block boundary and after every operation,
exactly the values some path from there still uses.
-/

namespace Nocter.Machine

/-- Where control is within a body. -/
inductive Point where
  | entry (block : MachineBlockId)
  | before (block : MachineBlockId) (position : ℕ)
  | exit (block : MachineBlockId)

variable (body : MachineBody)

/-- The operations and the terminator of a block read their inputs. -/
inductive Uses : Point → MachineValueId → Prop
  | operation {b : MachineBlockId} {k : ℕ} {block : MachineBlock} {id : MachineOperationId}
      {operation : MachineOperation} {inputs : Finset MachineValueId} {v : MachineValueId}
      (hblock : body.block b = some block) (hid : block.operations[k]? = some id)
      (hoperation : body.operation id = some operation)
      (hinputs : operationInputs body operation.kind = .ok inputs) (h : v ∈ inputs) :
      Uses (.before b k) v
  | terminator {b : MachineBlockId} {block : MachineBlock} {flow : TerminatorFlow}
      {v : MachineValueId} (hblock : body.block b = some block)
      (hflow : terminatorFlow body block.terminator = .ok flow) (h : v ∈ flow.1) :
      Uses (.before b block.operations.length) v

/-- Entering a block defines its parameters, an operation defines its result. -/
inductive Defines : Point → MachineValueId → Prop
  | parameter {b : MachineBlockId} {block : MachineBlock} {v : MachineValueId}
      (hblock : body.block b = some block) (h : v ∈ block.parameters) : Defines (.entry b) v
  | result {b : MachineBlockId} {k : ℕ} {block : MachineBlock} {id : MachineOperationId}
      {operation : MachineOperation} {v : MachineValueId} (hblock : body.block b = some block)
      (hid : block.operations[k]? = some id) (hoperation : body.operation id = some operation)
      (h : operation.result = some v) : Defines (.before b k) v

inductive Next : Point → Point → Prop
  | start (b : MachineBlockId) : Next (.entry b) (.before b 0)
  | operation {b : MachineBlockId} {k : ℕ} {block : MachineBlock}
      (hblock : body.block b = some block) (hk : k < block.operations.length) :
      Next (.before b k) (.before b (k + 1))
  | terminator {b : MachineBlockId} {block : MachineBlock} (hblock : body.block b = some block) :
      Next (.before b block.operations.length) (.exit b)
  | edge {b c : MachineBlockId} {block : MachineBlock} {flow : TerminatorFlow}
      (hblock : body.block b = some block)
      (hflow : terminatorFlow body block.terminator = .ok flow) (h : c ∈ flow.2) :
      Next (.exit b) (.entry c)

def controlFlow : ProgramPoints Point MachineValueId := ⟨Next body, Uses body, Defines body⟩

/-- Some path from the point reaches a use of the value without passing its definition. -/
def LiveAt (point : Point) (value : MachineValueId) : Prop := (controlFlow body).LiveAt point value

variable {body} {operations : List MachineOperationDataflow} {facts solved : List BlockFacts}
  {b : MachineBlockId} {block : MachineBlock} {v : MachineValueId}

theorem liveAt_iff {point : Point} : LiveAt body point v ↔ Uses body point v ∨
    ¬ Defines body point v ∧ ∃ q, Next body point q ∧ LiveAt body q v :=
  ProgramPoints.liveAt_iff

section Walks

/-- A value the backward walk keeps is live, when the walk starts with live values. -/
theorem liveAt_of_walk (h : Collected body operations facts) (hb : body.block b = some block)
    (last : Finset MachineValueId)
    (hlast : ∀ w ∈ last, LiveAt body (.before b block.operations.length) w)
    (a rest : List MachineOperationId) (hsplit : block.operations = a ++ rest)
    (hv : v ∈ walkBack last (blockFlows body operations rest)) :
    LiveAt body (.before b a.length) v := by
  induction rest generalizing a v with
  | nil =>
    rw [List.append_nil] at hsplit
    rw [← hsplit]
    exact hlast v hv
  | cons id rest ih =>
    obtain ⟨_, _, hof⟩ := h.fact b block hb
    obtain ⟨_, operation, hoperation⟩ := hof.known id (by simp [hsplit])
    obtain ⟨flow, hflow, hinputs⟩ := h.inputs id operation hoperation
    have hid : block.operations[a.length]? = some id := by simp [hsplit]
    rw [blockFlows, List.map_cons, walkBack_cons, walkStep, hflow, hoperation] at hv
    rcases Finset.mem_union.mp hv with hlater | huse
    · obtain ⟨hmem, hdef⟩ := Finset.mem_sdiff.mp hlater
      have hnext := ih (a ++ [id]) (by simp [hsplit]) hmem
      rw [List.length_append, List.length_singleton] at hnext
      refine liveAt_iff.mpr (Or.inr ⟨?_, _, .operation hb (by simp [hsplit]), hnext⟩)
      intro hdefines
      cases hdefines with
      | result hblock' hid' hoperation' hresult =>
        obtain rfl := Option.some.inj (hb.symm.trans hblock')
        obtain rfl := Option.some.inj (hid.symm.trans hid')
        obtain rfl := Option.some.inj (hoperation.symm.trans hoperation')
        exact hdef (by simp [hresult])
    · exact liveAt_iff.mpr (Or.inl (.operation hb hid hoperation hinputs huse))

theorem liveAt_entry (h : Collected body operations facts) (hb : body.block b = some block)
    (last : Finset MachineValueId)
    (hlast : ∀ w ∈ last, LiveAt body (.before b block.operations.length) w)
    (hv : v ∈ walkBack last (blockFlows body operations block.operations) \
      block.parameters.toFinset) : LiveAt body (.entry b) v := by
  obtain ⟨hwalk, hparameter⟩ := Finset.mem_sdiff.mp hv
  have hbefore := liveAt_of_walk h hb _ hlast [] block.operations rfl hwalk
  refine liveAt_iff.mpr (Or.inr ⟨?_, _, .start b, hbefore⟩)
  intro hdefines
  cases hdefines with
  | parameter hblock' hmem =>
    obtain rfl := Option.some.inj (hb.symm.trans hblock')
    exact hparameter (List.mem_toFinset.mpr hmem)

theorem liveAt_exit_of_entry (hb : body.block b = some block) {flow : TerminatorFlow}
    (hflow : terminatorFlow body block.terminator = .ok flow) {c : MachineBlockId}
    (hc : c ∈ flow.2) (hv : LiveAt body (.entry c) v) : LiveAt body (.exit b) v := by
  refine liveAt_iff.mpr (Or.inr ⟨?_, _, .edge hb hflow hc, hv⟩)
  intro hdefines
  cases hdefines

theorem liveAt_terminator (hb : body.block b = some block) (hv : LiveAt body (.exit b) v) :
    LiveAt body (.before b block.operations.length) v := by
  refine liveAt_iff.mpr (Or.inr ⟨?_, _, .terminator hb, hv⟩)
  intro hdefines
  cases hdefines with
  | result hblock' hid' _ _ =>
    obtain rfl := Option.some.inj (hb.symm.trans hblock')
    simp at hid'

/-- What a block needs is live at its entry. -/
theorem liveAt_of_needs (h : Collected body operations facts)
    (hv : (flowOf facts).Needs b v) : LiveAt body (.entry b) v := by
  -- the block that has the facts
  have hknown : ∀ (b : ℕ) (fact : BlockFacts), facts[b]? = some fact →
      ∃ block, body.block b = some block ∧ FactOf body operations block fact := by
    intro b fact hfact
    have hlt : b < body.blocks.length := h.length ▸ (List.getElem?_eq_some_iff.mp hfact).1
    obtain ⟨_, hsame, hof⟩ := h.fact b _ (List.getElem?_eq_getElem hlt)
    obtain rfl := Option.some.inj (hfact.symm.trans hsame)
    exact ⟨_, List.getElem?_eq_getElem hlt, hof⟩
  have hterminator : ∀ (b : ℕ) (block : MachineBlock) (fact : BlockFacts),
      body.block b = some block → FactOf body operations block fact →
      ∀ w ∈ fact.terminatorInputs, LiveAt body (.before b block.operations.length) w :=
    fun b block fact hb hof w hw => liveAt_iff.mpr (Or.inl (.terminator hb hof.terminator hw))
  refine BlockFlow.Needs.least (P := fun b v => LiveAt body (.entry b) v) ?_ ?_ hv
  · intro b v huse
    cases hfact : facts[b]? with
    | none => simp [flowOf, hfact] at huse
    | some fact =>
      obtain ⟨block, hb, hof⟩ := hknown b fact hfact
      simp only [flowOf, hfact, Option.elim_some] at huse
      refine liveAt_entry h hb (∅ ∪ fact.terminatorInputs) ?_ ?_
      · rw [Finset.empty_union]
        exact hterminator b block fact hb hof
      · rw [← hof.transfer ∅]
        exact Finset.mem_union_left _ huse
  · intro b v hdef c hc hlive
    cases hfact : facts[b]? with
    | none => simp [flowOf, hfact] at hc
    | some fact =>
      obtain ⟨block, hb, hof⟩ := hknown b fact hfact
      simp only [flowOf, hfact, Option.elim_some] at hdef hc
      have hexit := liveAt_exit_of_entry hb hof.terminator hc hlive
      refine liveAt_entry h hb ({v} ∪ fact.terminatorInputs) ?_ ?_
      · intro w hw
        rcases Finset.mem_union.mp hw with hsingle | hinput
        · rw [Finset.mem_singleton.mp hsingle]
          exact liveAt_terminator hb hexit
        · exact hterminator b block fact hb hof w hinput
      · rw [← hof.transfer {v}]
        exact Finset.mem_union_right _ (Finset.mem_sdiff.mpr ⟨Finset.mem_singleton_self v, hdef⟩)

end Walks

section Paths

/-- What the solved facts claim to be live at a point. -/
def Claimed (body : MachineBody) (operations : List MachineOperationDataflow)
    (solved : List BlockFacts) : Point → MachineValueId → Prop
  | .entry b, v => ∃ fact, solved[b]? = some fact ∧ v ∈ fact.liveIn
  | .exit b, v => ∃ fact, solved[b]? = some fact ∧ v ∈ fact.liveOut
  | .before b k, v => ∃ fact block, solved[b]? = some fact ∧ body.block b = some block ∧
      v ∈ walkBack (fact.liveOut ∪ fact.terminatorInputs)
        (blockFlows body operations (block.operations.drop k))

/-- The facts of a block after liveness is solved. -/
theorem Solved.of_block (h : Collected body operations facts) (hs : Solved facts solved)
    (hb : body.block b = some block) : ∃ fact, solved[b]? = some fact ∧
      FactOf body operations block { fact with liveIn := ∅, liveOut := ∅ } ∧
      fact.liveIn = fact.uses ∪ (fact.liveOut \ fact.definitions) ∧
      (∀ v, v ∈ fact.liveIn ↔ (flowOf facts).Needs b v) ∧
      ∀ v, v ∈ fact.liveOut ↔ ∃ c ∈ fact.successors, (flowOf facts).Needs c v := by
  obtain ⟨fact, hfact, hof⟩ := h.fact b block hb
  obtain ⟨liveIn, liveOut, hsolved, heq, hin, hout⟩ := hs.fact b fact hfact
  exact ⟨_, hsolved, ⟨hof.known, hof.terminator, hof.transfer, rfl, rfl⟩, heq, hin, hout⟩

theorem blockFlows_drop {ids : List MachineOperationId} {k : ℕ} {id : MachineOperationId}
    (hid : ids[k]? = some id) : blockFlows body operations (ids.drop k) =
      ⟨(operations[id]?).elim ∅ MachineOperationDataflow.inputs,
        (body.operation id).bind MachineOperation.result⟩ ::
        blockFlows body operations (ids.drop (k + 1)) := by
  obtain ⟨hlt, rfl⟩ := List.getElem?_eq_some_iff.mp hid
  rw [List.drop_eq_getElem_cons hlt]
  rfl

/-- A live value is claimed, because the claims contain the uses and are closed under steps. -/
theorem claimed_of_liveAt (h : Collected body operations facts) (hs : Solved facts solved)
    (hknown : ∀ b, (∃ fact, solved[b]? = some fact) → ∃ block, body.block b = some block)
    {point : Point} (hv : LiveAt body point v) : Claimed body operations solved point v := by
  refine ProgramPoints.LiveAt.least ?_ ?_ hv
  · rintro p w (⟨hblock, hid, hoperation, hinputs, hw⟩ | ⟨hblock, hflow, hw⟩)
    · obtain ⟨fact, hfact, _⟩ := hs.of_block h hblock
      obtain ⟨flow, hflow, hrecorded⟩ := h.inputs _ _ hoperation
      obtain rfl := Except.ok.inj (hinputs.symm.trans hrecorded)
      refine ⟨fact, _, hfact, hblock, ?_⟩
      rw [blockFlows_drop hid, walkBack_cons, walkStep, hflow]
      exact Finset.mem_union_right _ hw
    · obtain ⟨fact, hfact, hof, _⟩ := hs.of_block h hblock
      obtain rfl := Except.ok.inj (hflow.symm.trans hof.terminator)
      refine ⟨fact, _, hfact, hblock, ?_⟩
      rw [List.drop_length]
      exact Finset.mem_union_right _ hw
  · rintro p q w hnext hdef hclaimed
    cases hnext with
    | start b =>
      obtain ⟨fact, block, hfact, hb, hw⟩ := hclaimed
      obtain ⟨fact', hfact', hof, hin, _⟩ := hs.of_block h hb
      obtain rfl := Option.some.inj (hfact.symm.trans hfact')
      refine ⟨fact, hfact, ?_⟩
      rw [hin, hof.transfer fact.liveOut]
      refine Finset.mem_sdiff.mpr ⟨hw, fun hparameter => hdef ?_⟩
      exact .parameter hb (List.mem_toFinset.mp hparameter)
    | operation hblock hk =>
      obtain ⟨fact, block, hfact, hb, hw⟩ := hclaimed
      obtain rfl := Option.some.inj (hb.symm.trans hblock)
      refine ⟨fact, block, hfact, hb, ?_⟩
      have hid := List.getElem?_eq_getElem hk
      rw [blockFlows_drop hid, walkBack_cons, walkStep]
      refine Finset.mem_union_left _ (Finset.mem_sdiff.mpr ⟨hw, fun hresult => hdef ?_⟩)
      obtain ⟨operation, hoperation, hresult⟩ :=
        Option.bind_eq_some_iff.mp (Option.mem_toFinset.mp hresult)
      exact .result hb hid hoperation hresult
    | terminator hblock =>
      obtain ⟨fact, hfact, hw⟩ := hclaimed
      refine ⟨fact, _, hfact, hblock, ?_⟩
      rw [List.drop_length]
      exact Finset.mem_union_left _ hw
    | edge hblock hflow hc =>
      obtain ⟨next, hnext, hw⟩ := hclaimed
      obtain ⟨fact, hfact, hof, _, _, hout⟩ := hs.of_block h hblock
      obtain rfl := Except.ok.inj (hflow.symm.trans hof.terminator)
      obtain ⟨target, htarget⟩ := hknown _ ⟨next, hnext⟩
      obtain ⟨next', hnext', _, _, hin, _⟩ := hs.of_block h htarget
      obtain rfl := Option.some.inj (hnext.symm.trans hnext')
      exact ⟨fact, hfact, (hout w).mpr ⟨_, hc, (hin w).mp hw⟩⟩

end Paths

/-- The dataflow of a body is its liveness along paths, and the least solution of the equations
between its blocks. -/
structure ExactLiveness (body : MachineBody) (dataflow : MachineFunctionDataflow) : Prop where
  blocks : ∀ (b : ℕ) (block : MachineBlock), body.block b = some block → ∃ fact,
    dataflow.blocks[b]? = some fact ∧ (∀ v, v ∈ fact.liveIn ↔ LiveAt body (.entry b) v) ∧
    ∀ v, v ∈ fact.liveOut ↔ LiveAt body (.exit b) v
  operations : ∀ (b : ℕ) (block : MachineBlock) (k : ℕ) (id : MachineOperationId),
    body.block b = some block → block.operations[k]? = some id → ∃ flow,
      dataflow.operations[id]? = some flow ∧
      ∀ v, v ∈ flow.liveAfter ↔ LiveAt body (.before b (k + 1)) v
  equations : ∀ (b : ℕ) (fact : BlockFacts), dataflow.blocks[b]? = some fact →
    fact.liveIn = fact.uses ∪ (fact.liveOut \ fact.definitions) ∧
    fact.liveOut = successorsLive dataflow.blocks fact
  least : ∀ (liveIn : ℕ → MachineValueId → Prop), (∀ (b : ℕ) (fact : BlockFacts),
      dataflow.blocks[b]? = some fact → ∀ v, liveIn b v ↔ v ∈ fact.uses ∨
        (∃ c ∈ fact.successors, liveIn c v) ∧ v ∉ fact.definitions) →
    ∀ (b : ℕ) (fact : BlockFacts), dataflow.blocks[b]? = some fact →
      ∀ v ∈ fact.liveIn, liveIn b v

section Completed

/-- The solved facts of a collected body complete to its liveness along paths. -/
theorem complete_exact (h : Collected body operations facts) (hs : Solved facts solved) :
    ∃ table, completeOperationLiveness body solved operations = .ok table ∧
      ExactLiveness body ⟨table, solved⟩ := by
  have hknown : ∀ b, (∃ fact, solved[b]? = some fact) → ∃ block, body.block b = some block := by
    rintro b ⟨fact, hfact⟩
    have hlt : b < body.blocks.length := by
      rw [← h.length, ← hs.length]
      exact (List.getElem?_eq_some_iff.mp hfact).1
    exact ⟨_, List.getElem?_eq_getElem hlt⟩
  have hplaces : (body.blocks.zipIdx.flatMap fun entry => entry.1.operations).Nodup := by
    have hclaims := h.nodup
    rw [claims, List.map_flatMap] at hclaims
    simpa [Function.comp_def] using hclaims
  have hfacts : ∀ entry ∈ body.blocks.zipIdx, ∃ fact, solved[entry.2]? = some fact ∧
      (∀ id ∈ entry.1.operations, (∃ flow, operations[id]? = some flow) ∧
        ∃ operation, body.operation id = some operation) ∧
      fact.liveIn = walkBack (fact.liveOut ∪ fact.terminatorInputs)
        (blockFlows body operations entry.1.operations) \ entry.1.parameters.toFinset := by
    rintro ⟨block, b⟩ hentry
    obtain ⟨fact, hfact, hof, hin, _⟩ := hs.of_block h (List.mem_zipIdx_iff_getElem?.mp hentry)
    exact ⟨fact, hfact, hof.known, hin.trans (hof.transfer fact.liveOut)⟩
  obtain ⟨table, hcomplete, _, _, hcompleted⟩ :=
    completeBlocks_ok body.blocks.zipIdx hplaces hfacts fun _ => rfl
  have hentry : ∀ {b : ℕ} {block : MachineBlock} {fact : BlockFacts},
      body.block b = some block → solved[b]? = some fact → ∀ v,
      v ∈ fact.liveIn ↔ LiveAt body (.entry b) v := by
    intro b block fact hb hfact v
    obtain ⟨fact', hfact', _, _, hin, _⟩ := hs.of_block h hb
    obtain rfl := Option.some.inj (hfact.symm.trans hfact')
    refine ⟨fun hv => liveAt_of_needs h ((hin v).mp hv), fun hv => ?_⟩
    obtain ⟨other, hother, hmem⟩ := claimed_of_liveAt h hs hknown hv
    rwa [Option.some.inj (hfact.symm.trans hother)]
  have hexit : ∀ {b : ℕ} {block : MachineBlock} {fact : BlockFacts},
      body.block b = some block → solved[b]? = some fact → ∀ v,
      v ∈ fact.liveOut ↔ LiveAt body (.exit b) v := by
    intro b block fact hb hfact v
    obtain ⟨fact', hfact', hof, _, _, hout⟩ := hs.of_block h hb
    obtain rfl := Option.some.inj (hfact.symm.trans hfact')
    refine ⟨fun hv => ?_, fun hv => ?_⟩
    · obtain ⟨c, hc, hneeds⟩ := (hout v).mp hv
      exact liveAt_exit_of_entry hb hof.terminator hc (liveAt_of_needs h hneeds)
    · obtain ⟨other, hother, hmem⟩ := claimed_of_liveAt h hs hknown hv
      rwa [Option.some.inj (hfact.symm.trans hother)]
  refine ⟨table, hcomplete, fun b block hb => ?_, fun b block k id hb hid => ?_,
    fun b fact hfact => ?_, fun liveIn hsolution b fact hfact v hv => ?_⟩
  · obtain ⟨fact, hfact, _⟩ := hs.of_block h hb
    exact ⟨fact, hfact, hentry hb hfact, hexit hb hfact⟩
  · obtain ⟨fact, hfact, hof, _⟩ := hs.of_block h hb
    obtain ⟨hlt, hget⟩ := List.getElem?_eq_some_iff.mp hid
    have hsplit : block.operations = block.operations.take k ++ id ::
        block.operations.drop (k + 1) := by
      rw [← hget, ← List.drop_eq_getElem_cons hlt, List.take_append_drop]
    have hlive := hcompleted (block, b) (List.mem_zipIdx_iff_getElem?.mpr hb) fact hfact
      _ id _ hsplit
    obtain ⟨flow, hflow, hafter⟩ := Option.map_eq_some_iff.mp hlive
    refine ⟨flow, hflow, fun v => ?_⟩
    rw [hafter]
    constructor
    · intro hv
      have hwalk := liveAt_of_walk h hb (fact.liveOut ∪ fact.terminatorInputs)
        (fun w hw => ?_) (block.operations.take k ++ [id]) (block.operations.drop (k + 1))
        (by rw [List.append_assoc]; exact hsplit) hv
      · rwa [List.length_append, List.length_take_of_le hlt.le, List.length_singleton] at hwalk
      · rcases Finset.mem_union.mp hw with hout | hinput
        · exact liveAt_terminator hb ((hexit hb hfact w).mp hout)
        · exact liveAt_iff.mpr (Or.inl (.terminator hb hof.terminator hinput))
    · intro hv
      obtain ⟨fact', block', hfact', hb', hmem⟩ := claimed_of_liveAt h hs hknown hv
      obtain rfl := Option.some.inj (hfact.symm.trans hfact')
      obtain rfl := Option.some.inj (hb.symm.trans hb')
      exact hmem
  · obtain ⟨block, hb⟩ := hknown b ⟨fact, hfact⟩
    obtain ⟨fact', hfact', hof, hin, _, hout⟩ := hs.of_block h hb
    obtain rfl := Option.some.inj (hfact.symm.trans hfact')
    refine ⟨hin, ?_⟩
    ext v
    rw [hout v, successorsLive, Finset.mem_biUnion]
    refine exists_congr fun c => and_congr_right fun hc => ?_
    cases hnext : solved[c]? with
    | none =>
      -- every successor of a collected block has facts
      obtain ⟨first, hfirst, hfirstOf⟩ := h.fact b block hb
      have hsame := Except.ok.inj (hof.terminator.symm.trans hfirstOf.terminator)
      have hc' : c ∈ first.successors := (Prod.mk.inj hsame).2 ▸ hc
      obtain ⟨_, htarget, _⟩ := h.successors b first hfirst c hc'
      have hlt := (List.getElem?_eq_some_iff.mp htarget).1
      rw [← hs.length] at hlt
      exact absurd hnext (by simp [hlt])
    | some next =>
      obtain ⟨target, htarget⟩ := hknown c ⟨next, hnext⟩
      obtain ⟨next', hnext', _, _, hneeds, _⟩ := hs.of_block h htarget
      obtain rfl := Option.some.inj (hnext.symm.trans hnext')
      exact (hneeds v).symm
  · obtain ⟨block, hb⟩ := hknown b ⟨fact, hfact⟩
    obtain ⟨fact', hfact', _, _, hin, _⟩ := hs.of_block h hb
    obtain rfl := Option.some.inj (hfact.symm.trans hfact')
    -- a solution agrees with the flow on every block that has facts
    have hflow : ∀ c w, (w ∈ (flowOf facts).uses c ∨
        w ∉ (flowOf facts).definitions c ∧ ∃ d ∈ (flowOf facts).successors c, liveIn d w) →
        liveIn c w := by
      intro c w hcase
      cases hcfact : facts[c]? with
      | none => simp [flowOf, hcfact] at hcase
      | some first =>
        obtain ⟨i, o, hsolved, _⟩ := hs.fact c first hcfact
        simp only [flowOf, hcfact, Option.elim_some] at hcase
        refine (hsolution c _ hsolved w).mpr ?_
        rcases hcase with huse | ⟨hdef, hnext⟩
        · exact Or.inl huse
        · exact Or.inr ⟨hnext, hdef⟩
    exact BlockFlow.Needs.least (fun c w hw => hflow c w (Or.inl hw))
      (fun c w hdef d hd hlive => hflow c w (Or.inr ⟨hdef, d, hd, hlive⟩)) ((hin v).mp hv)

end Completed

section Errors

/-- The computation does not report inconsistent liveness. -/
abbrev Consistent {α : Type} (x : Attempt α) : Prop :=
  ∀ b, Spares (.inconsistentLiveness b) x

theorem Consistent.bind {α β : Type} {x : Attempt α} {f : α → Attempt β} (hx : Consistent x)
    (hf : ∀ a, Consistent (f a)) : Consistent (x >>= f) :=
  fun b => (hx b).bind fun a => hf a b

theorem consistent_ok {α : Type} (a : α) : Consistent (.ok a) := fun _ => spares_ok a

theorem consistent_orError {α : Type} (value : Option α) {error : MachineDataflowError}
    (h : ∀ b, error ≠ .inconsistentLiveness b) : Consistent (orError value error) := by
  cases value with
  | none => exact fun b => spares_error (h b)
  | some a => exact consistent_ok a

theorem consistent_foldlM {α β : Type} {f : β → α → Attempt β} (hf : ∀ b a, Consistent (f b a))
    (values : List α) (start : β) : Consistent (values.foldlM f start) :=
  fun b => Spares.foldlM (fun s a => hf s a b) values start

variable (body)

theorem consistent_requireValue (value : MachineValueId) : Consistent (requireValue body value) :=
  (consistent_orError _ (by exact fun _ => nofun)).bind fun _ => consistent_ok _

theorem consistent_insertValue (value : MachineValueId) (inputs : Finset MachineValueId) :
    Consistent (insertValue body value inputs) :=
  (consistent_requireValue body value).bind fun _ => consistent_ok _

theorem consistent_addAddressInputs (address : MachineAddressId) (inputs : Finset MachineValueId) :
    Consistent (addAddressInputs body address inputs) := by
  refine (consistent_orError _ (by exact fun _ => nofun)).bind fun address => ?_
  have hsteps : ∀ inputs, Consistent (address.steps.foldlM (addAddressStep body) inputs) := by
    intro start
    refine consistent_foldlM (fun inputs step => ?_) _ start
    unfold addAddressStep
    split <;> first | exact consistent_insertValue body _ _ | exact consistent_ok _
  split
  · exact (consistent_ok _).bind hsteps
  · exact (consistent_ok _).bind hsteps
  · exact (consistent_insertValue body _ _).bind hsteps
  · exact (consistent_insertValue body _ _).bind hsteps

theorem consistent_addPackInputs (pack : MachinePackId) (inputs : Finset MachineValueId) :
    Consistent (addPackInputs body pack inputs) := by
  refine (consistent_orError _ (by exact fun _ => nofun)).bind fun pack => ?_
  refine (consistent_insertValue body _ _).bind fun inputs => ?_
  refine consistent_foldlM (fun inputs segment => ?_) _ _
  cases segment with
  | value value _ => exact consistent_insertValue body _ _
  | keyedValue key _ value _ =>
    exact (consistent_insertValue body _ _).bind fun _ => consistent_insertValue body _ _
  | spread spread =>
    exact (consistent_addAddressInputs body _ _).bind fun _ => consistent_insertValue body _ _

theorem consistent_addCallInputs (call : MachineCall) (inputs : Finset MachineValueId) :
    Consistent (addCallInputs body call inputs) := by
  have htarget : Consistent (addCallTarget body inputs call.target) := by
    unfold addCallTarget
    split
    · exact consistent_addAddressInputs body _ _
    · exact consistent_ok _
  have hallocation : ∀ inputs, Consistent (addCallAllocation body inputs call.allocation) := by
    intro inputs
    unfold addCallAllocation
    split
    · exact consistent_addAddressInputs body _ _
    · exact consistent_ok _
  have hpack : ∀ inputs, Consistent (addCallPack body inputs call.pack) := by
    intro inputs
    unfold addCallPack
    split
    · exact consistent_addPackInputs body _ _
    · exact consistent_ok _
  refine htarget.bind fun inputs => ?_
  refine (consistent_foldlM (fun inputs argument => consistent_insertValue body _ _) _ _).bind
    fun inputs => ?_
  exact (hallocation inputs).bind hpack

theorem consistent_operationInputs (kind : MachineOperationKind) :
    Consistent (operationInputs body kind) := by
  cases kind with
  | store destination value =>
    exact (consistent_addAddressInputs body _ _).bind fun _ => consistent_insertValue body _ _
  | binary left right =>
    exact (consistent_insertValue body _ _).bind fun _ => consistent_insertValue body _ _
  | comparison left right =>
    exact (consistent_insertValue body _ _).bind fun _ => consistent_insertValue body _ _
  | releaseMappedStorage pointer bytes =>
    exact (consistent_insertValue body _ _).bind fun _ => consistent_insertValue body _ _
  | indexBorrow receiver index =>
    refine (consistent_insertValue body _ _).bind fun inputs => ?_
    cases index with
    | constant _ => exact consistent_ok _
    | value value => exact consistent_insertValue body _ _
  | driveComputation computation destination =>
    refine (consistent_addAddressInputs body _ _).bind fun inputs => ?_
    cases destination with
    | none => exact consistent_ok _
    | some destination => exact consistent_addAddressInputs body _ _
  | aggregate writes =>
    refine consistent_foldlM (fun inputs write => ?_) _ _
    cases write with
    | tag _ _ => exact consistent_ok _
    | value _ value => exact consistent_insertValue body _ _
    | repeatedValue _ _ _ value => exact consistent_insertValue body _ _
  | call call => exact consistent_addCallInputs body _ _
  | constant | releaseRegion | setDropFlag | packLength | packNext | destroyPack =>
    exact consistent_ok _
  | load _ | addressOf _ | invokeDrop _ _ _ | reportError _ | releaseError _
  | releaseComputation _ | releaseErasedCallable _ =>
    exact consistent_addAddressInputs body _ _
  | unary _ | numericConversion _ | borrowWeakening _ | eraseCallable _ | createRegion _ =>
    exact consistent_insertValue body _ _

theorem consistent_addTarget (flow : TerminatorFlow) (target : MachineBranchTarget) :
    Consistent (addTarget body flow target) := by
  refine (consistent_orError _ (by exact fun _ => nofun)).bind fun block => ?_
  split_ifs
  · exact fun b => spares_error nofun
  · refine (consistent_foldlM (fun inputs pair => ?_) _ _).bind fun _ => consistent_ok _
    refine (consistent_requireValue body _).bind fun _ => ?_
    refine (consistent_requireValue body _).bind fun _ => ?_
    split_ifs
    · exact fun b => spares_error nofun
    · exact consistent_ok _

theorem consistent_terminatorFlow (terminator : MachineTerminator) :
    Consistent (terminatorFlow body terminator) := by
  have hreturned : ∀ value, Consistent (terminatorFlow.returned body value) := by
    intro value
    cases value with
    | none => exact consistent_ok _
    | some value => exact (consistent_insertValue body _ _).bind fun _ => consistent_ok _
  have htwo : ∀ flow first second, Consistent (do
      addTarget body (← addTarget body flow first) second) := fun flow first second =>
    (consistent_addTarget body _ _).bind fun _ => consistent_addTarget body _ _
  have hcases : ∀ (flow : TerminatorFlow) (cases : List MachineBranchTarget)
      (fallback : MachineBranchTarget), Consistent (do
        addTarget body (← cases.foldlM (addTarget body) flow) fallback) :=
    fun flow cases fallback => (consistent_foldlM (consistent_addTarget body) _ _).bind fun _ =>
      consistent_addTarget body _ _
  cases terminator with
  | goto target => exact consistent_addTarget body _ _
  | branch condition thenTarget elseTarget =>
    exact (consistent_insertValue body _ _).bind fun _ => htwo _ _ _
  | branchDropFlag initialized uninitialized => exact htwo _ _ _
  | switchValue subject cases fallback =>
    exact (consistent_insertValue body _ _).bind fun _ => hcases _ _ _
  | switchTag subject cases fallback =>
    exact (consistent_addAddressInputs body _ _).bind fun _ => hcases _ _ _
  | suspend computation resume =>
    refine (consistent_insertValue body _ _).bind fun inputs => ?_
    refine (consistent_orError _ (by exact fun _ => nofun)).bind fun block => ?_
    split_ifs
    · exact fun b => spares_error nofun
    · exact consistent_ok _
  | «return» value => exact hreturned value
  | exit value => exact hreturned value
  | trap => exact consistent_ok _
  | unreachable => exact consistent_ok _

theorem consistent_blockFact (ownership : List MachineBlockId)
    (entry : MachineBlock × MachineBlockId) :
    Consistent (blockFact body operations ownership entry) := by
  have hparameters : Consistent (entry.1.parameters.forM fun parameter => do
      let _ ← requireValue body parameter) := fun b => Spares.forM (fun parameter =>
    ((consistent_requireValue body parameter).bind fun _ => consistent_ok _) b) _
  refine hparameters.bind fun _ => ?_
  refine (consistent_foldlM (fun scan id => ?_) _ _).bind fun ⟨definitions, uses⟩ => ?_
  · unfold scanOperation
    split_ifs
    · exact fun b => spares_error nofun
    · refine (consistent_orError _ (by exact fun _ => nofun)).bind fun flow => ?_
      refine (consistent_orError _ (by exact fun _ => nofun)).bind fun operation => ?_
      split
      · refine (consistent_requireValue body _).bind fun _ => ?_
        split_ifs
        · exact fun b => spares_error nofun
        · exact consistent_ok _
      · exact consistent_ok _
  · exact (consistent_terminatorFlow body _).bind fun _ => consistent_ok _

/-- Collecting the facts of a body never reports inconsistent liveness. -/
theorem consistent_collect : Consistent (collect body) := by
  have hrequire : ∀ (valid : Bool) (value : MachineValueId),
      Consistent (require valid (.invalidValueDefinition value)) := by
    intro valid value
    unfold require
    split_ifs
    · exact consistent_ok _
    · exact fun b => spares_error (by rintro ⟨⟩)
  have hvalidate : Consistent (validateValueDefinitions body) := by
    unfold validateValueDefinitions
    refine Consistent.bind (fun b => Spares.forM (fun _ => hrequire _ _ b) _) fun _ => ?_
    refine Consistent.bind (fun b => Spares.forM (fun _ => Spares.forM (fun _ => hrequire _ _ b) _) _)
      fun _ b => Spares.forM (fun entry => ?_) _
    cases hresult : entry.1.result with
    | none =>
      simp only [hresult]
      exact spares_ok _
    | some value =>
      simp only [hresult]
      exact hrequire _ _ b
  have howners : Consistent (operationOwnership body) := by
    refine (consistent_foldlM (fun owners claim => ?_) _ _).bind fun owners => ?_
    · unfold claimOperation
      split
      · exact fun b => spares_error (by rintro ⟨⟩)
      · exact fun b => spares_error (by rintro ⟨⟩)
      · exact consistent_ok _
    · exact fun b => Spares.mapM (fun _ => consistent_orError _ (by rintro _ ⟨⟩) b) _
  refine hvalidate.bind fun _ => ?_
  have hinputs : Consistent (body.operations.mapM fun operation : MachineOperation => do
      return (⟨← operationInputs body operation.kind, ∅⟩ : MachineOperationDataflow)) := fun b =>
    Spares.mapM (fun operation : MachineOperation =>
      ((consistent_operationInputs body operation.kind).bind fun _ => consistent_ok _) b) _
  refine hinputs.bind fun operations => ?_
  refine howners.bind fun ownership => ?_
  have hblocks : Consistent (blockFacts body operations ownership) := by
    refine (consistent_orError _ (by rintro _ ⟨⟩)).bind fun _ => ?_
    refine Consistent.bind (fun b => Spares.mapM (fun entry =>
      consistent_blockFact body ownership entry b) _) fun facts => ?_
    refine consistent_foldlM (fun facts edge => ?_) _ _
    exact (consistent_orError _ (by rintro _ ⟨⟩)).bind fun _ => consistent_ok _
  exact hblocks.bind fun _ => consistent_ok _

end Errors

end Nocter.Machine
