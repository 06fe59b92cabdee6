import Mathlib.Data.Set.Basic
import Mathlib.Order.CompletePartialOrder
import Nocter.Checking.OwnershipFacts

/-!
# Soundness of ownership flow

Storage holds live values at some of its paths and temporaries. Each operation of the flow
state stands for what an execution does to storage; at a join an execution arrives through
one of the incoming states. The flow state then over-approximates the storage of every
execution that reaches its point.
-/

namespace Nocter.Ownership

/-- The live parts of named storage and the live temporaries. -/
structure Storage where
  live : Set MovePath
  temporaries : Set TemporaryIdentity

namespace Storage

def empty : Storage := ⟨∅, ∅⟩

/-- A path with everything below it. -/
def below (path : MovePath) : Set MovePath := {query | path.isPrefixOf query}

end Storage

inductive Event where
  | declareInitialized (root : PlaceRoot)
  | moveOut (path : MovePath)
  | assign (path : MovePath)
  | declareTemporary (temporary : TemporaryIdentity)
  | consumeTemporary (temporary : TemporaryIdentity)
  | forgetRoot (root : PlaceRoot)
  | forgetTemporariesExcept (retained : List TemporaryIdentity)

/-- The operation of the flow state on an event; only whole roots are declared. -/
def OwnershipState.apply (self : OwnershipState) : Event → Except OwnershipStateError OwnershipState
  | .declareInitialized root => self.declareInitialized (.root root)
  | .moveOut path => self.moveOut path
  | .assign path => self.assign path
  | .declareTemporary temporary => self.declareTemporary temporary
  | .consumeTemporary temporary => self.consumeTemporary temporary
  | .forgetRoot root => .ok (self.forgetRoot root)
  | .forgetTemporariesExcept retained => .ok (self.forgetTemporariesExcept retained)

namespace Storage

/-- What an execution does to storage on an event. -/
def apply (storage : Storage) : Event → Storage
  | .declareInitialized root => { storage with live := storage.live ∪ below (.root root) }
  | .moveOut path => { storage with live := storage.live \ below path }
  | .assign path => { storage with live := storage.live ∪ below path }
  | .declareTemporary temporary =>
    { storage with temporaries := insert temporary storage.temporaries }
  | .consumeTemporary temporary =>
    { storage with temporaries := storage.temporaries \ {temporary} }
  | .forgetRoot root => { storage with live := storage.live \ below (.root root) }
  | .forgetTemporariesExcept retained =>
    { storage with temporaries := {temporary ∈ storage.temporaries | temporary ∈ retained} }

/-- The event uses no dead value and overwrites no live temporary. -/
def Permits (storage : Storage) : Event → Prop
  | .moveOut path => below path ⊆ storage.live
  | .assign path => ∀ parent, parent.isPrefixOf path → parent ≠ path → parent ∈ storage.live
  | .declareTemporary temporary => temporary ∉ storage.temporaries
  | .consumeTemporary temporary => temporary ∈ storage.temporaries
  | .declareInitialized _ | .forgetRoot _ | .forgetTemporariesExcept _ => True

end Storage

/-- An execution along some control-flow path has the storage where the flow state holds. -/
inductive Reaches : OwnershipState → Storage → Prop
  | start : Reaches .default .empty
  | step {σ σ' : OwnershipState} {storage : Storage} {event : Event} :
    Reaches σ storage → σ.apply event = .ok σ' → Reaches σ' (storage.apply event)
  | join {entry σ joined : OwnershipState} {incoming : List OwnershipState} {storage : Storage} :
    Reaches σ storage → σ ∈ incoming → entry.joinReachable incoming = .ok joined →
    Reaches joined storage

open OwnershipState

section Sound

/-- A path has a state only where its root has one. -/
def Rooted (σ : OwnershipState) : Prop :=
  ∀ path, (σ.nearest path).isSome → (σ.nearest (.root path.rootIdentity)).isSome

/-- The flow state over-approximates the storage. -/
structure Sound (σ : OwnershipState) (storage : Storage) : Prop where
  rooted : Rooted σ
  initialized : ∀ path, σ.nearest path = some .initialized → path ∈ storage.live
  uninitialized : ∀ path, σ.nearest path = some .uninitialized →
    ∀ query, path.isPrefixOf query → query ∉ storage.live
  initializedTemporary : ∀ temporary, σ.temporaryInitialization temporary = .initialized →
    temporary ∈ storage.temporaries
  uninitializedTemporary : ∀ temporary, σ.temporaryInitialization temporary = .uninitialized →
    temporary ∉ storage.temporaries

variable {σ σ' : OwnershipState} {storage : Storage} {path query : MovePath} {base : PlaceRoot}
  {temporary : TemporaryIdentity} {state : Option InitializationState}

theorem Sound.start : Sound .default .empty where
  rooted path h := by
    obtain ⟨key, _, hkey⟩ := exists_explicit h
    simp [OwnershipState.default] at hkey
  initialized path h := by
    obtain ⟨key, _, hkey⟩ := exists_explicit (Option.isSome_of_eq_some h)
    simp [OwnershipState.default] at hkey
  uninitialized _ _ _ _ := Set.notMem_empty _
  initializedTemporary temporary h := by simp [OwnershipState.default, temporaryInitialization] at h
  uninitializedTemporary _ _ := Set.notMem_empty _

section Paths

theorem Rooted.replaced (h : Rooted σ)
    (hnearest : ∀ query, σ'.nearest query = if path.isPrefixOf query then state
      else σ.nearest query)
    (hknown : state.isSome → path ≠ .root path.rootIdentity → (σ.nearest path).isSome) :
    Rooted σ' := by
  intro query hquery
  have hroot : (MovePath.root query.rootIdentity).isPrefixOf query :=
    MovePath.root_isPrefixOf.mpr rfl
  rw [hnearest] at hquery ⊢
  by_cases hle : path.isPrefixOf query
  · rw [if_pos hle] at hquery
    by_cases hbase : path.isPrefixOf (.root query.rootIdentity)
    · rwa [if_pos hbase]
    · have hne : path ≠ .root path.rootIdentity := fun heq =>
        hbase (MovePath.isPrefixOf_root.mpr (hle.1 ▸ heq))
      rw [if_neg hbase, ← hle.1]
      exact h path (hknown hquery hne)
  · rw [if_neg hle] at hquery
    rw [if_neg fun hbase => hle (hbase.trans hroot)]
    exact h query hquery

/-- Everything below a path becomes live. -/
theorem Sound.filled (h : Sound σ storage)
    (hnearest : ∀ query, σ'.nearest query = if path.isPrefixOf query then state
      else σ.nearest query)
    (hknown : state.isSome → path ≠ .root path.rootIdentity → (σ.nearest path).isSome)
    (hstate : state ≠ some .uninitialized)
    (hparents : ∀ query, query.isPrefixOf path → query ≠ path →
      σ.nearest query ≠ some .uninitialized)
    (htemporaries : σ'.temporaries = σ.temporaries) :
    Sound σ' { storage with live := storage.live ∪ Storage.below path } where
  rooted := h.rooted.replaced hnearest hknown
  initialized query hquery := by
    rw [hnearest] at hquery
    by_cases hle : path.isPrefixOf query
    · exact .inr hle
    · rw [if_neg hle] at hquery
      exact .inl (h.initialized query hquery)
  uninitialized query hquery other hother := by
    rw [hnearest] at hquery
    by_cases hle : path.isPrefixOf query
    · rw [if_pos hle] at hquery
      exact absurd hquery hstate
    · rw [if_neg hle] at hquery
      rintro (hlive | hbelow)
      · exact h.uninitialized query hquery other hother hlive
      · -- The two paths have a common extension, so the query is a parent of the path.
        have habove := (hother.comparable hbelow).resolve_right hle
        refine hparents query habove ?_ hquery
        rintro rfl
        exact hle habove
  initializedTemporary := by
    rw [temporaryInitialization_congr htemporaries]
    exact h.initializedTemporary
  uninitializedTemporary := by
    rw [temporaryInitialization_congr htemporaries]
    exact h.uninitializedTemporary

/-- Nothing below a path stays live. -/
theorem Sound.emptied (h : Sound σ storage)
    (hnearest : ∀ query, σ'.nearest query = if path.isPrefixOf query then state
      else σ.nearest query)
    (hknown : state.isSome → path ≠ .root path.rootIdentity → (σ.nearest path).isSome)
    (hstate : state ≠ some .initialized) (htemporaries : σ'.temporaries = σ.temporaries) :
    Sound σ' { storage with live := storage.live \ Storage.below path } where
  rooted := h.rooted.replaced hnearest hknown
  initialized query hquery := by
    rw [hnearest] at hquery
    by_cases hle : path.isPrefixOf query
    · rw [if_pos hle] at hquery
      exact absurd hquery hstate
    · rw [if_neg hle] at hquery
      exact ⟨h.initialized query hquery, hle⟩
  uninitialized query hquery other hother := by
    rw [hnearest] at hquery
    rintro ⟨hlive, hnot⟩
    by_cases hle : path.isPrefixOf query
    · exact hnot (hle.trans hother)
    · rw [if_neg hle] at hquery
      exact h.uninitialized query hquery other hother hlive
  initializedTemporary := by
    rw [temporaryInitialization_congr htemporaries]
    exact h.initializedTemporary
  uninitializedTemporary := by
    rw [temporaryInitialization_congr htemporaries]
    exact h.uninitializedTemporary

theorem Sound.declareInitialized (h : Sound σ storage)
    (hdeclare : σ.declareInitialized (.root base) = .ok σ') :
    Sound σ' (storage.apply (.declareInitialized base)) := by
  unfold OwnershipState.declareInitialized at hdeclare
  split at hdeclare
  case isTrue => cases hdeclare
  case isFalse hnew =>
    cases hdeclare
    have hnearest (query : MovePath) : (OwnershipState.mk
        (σ.paths.insert (.root base) .initialized) σ.temporaries).nearest query =
          if (MovePath.root base).isPrefixOf query then some .initialized
          else σ.nearest query := by
      apply nearest_replaced
      · exact nearest_of_get (by simp)
      · intro query hle hne
        rw [FiniteMap.get_insert, if_neg hne]
        by_contra hsome
        obtain ⟨known, hknown⟩ := Option.ne_none_iff_exists'.mp hsome
        have hroot := h.rooted query (Option.isSome_of_eq_some (nearest_of_get hknown))
        rw [MovePath.root_isPrefixOf.mp hle, nearest_root] at hroot
        exact hnew hroot
      · intro query hle
        rw [FiniteMap.get_insert, if_neg]
        rintro rfl
        exact hle (MovePath.isPrefixOf_refl _)
    apply h.filled hnearest
    · intro _ hne
      exact absurd rfl hne
    · simp
    · intro query hle hne
      exact absurd (MovePath.isPrefixOf_root.mp hle) hne
    · rfl

theorem Sound.moveOut (h : Sound σ storage) (hmove : σ.moveOut path = .ok σ') :
    Sound σ' (storage.apply (.moveOut path)) := by
  apply h.emptied fun query => nearest_moveOut hmove
  · intro _ _
    rw [requireInitialized_ok_iff.mp (moveOut_ok hmove).1 path (MovePath.isPrefixOf_refl path)]
    rfl
  · simp
  · rw [(moveOut_ok hmove).2]

theorem Sound.assign (h : Sound σ storage) (hassign : σ.assign path = .ok σ') :
    Sound σ' (storage.apply (.assign path)) := by
  apply h.filled fun query => nearest_assign hassign
  · intro hstate _
    rwa [Option.isSome_map] at hstate
  · cases σ.nearest path <;> simp
  · intro query hle hne
    rw [(assign_ok hassign).1 query hle hne]
    simp
  · rw [(assign_ok hassign).2]

theorem Sound.forgetRoot (h : Sound σ storage) :
    Sound (σ.forgetRoot base) (storage.apply (.forgetRoot base)) := by
  have hnearest (query : MovePath) : (σ.forgetRoot base).nearest query =
      if (MovePath.root base).isPrefixOf query then none else σ.nearest query := by
    apply nearest_replaced
    · rw [nearest_root]
      simp [OwnershipState.forgetRoot, MovePath.root]
    · intro query hle _
      simp [OwnershipState.forgetRoot, MovePath.root_isPrefixOf.mp hle]
    · intro query hle
      rw [MovePath.root_isPrefixOf] at hle
      simp [OwnershipState.forgetRoot, hle]
  apply h.emptied hnearest
  · simp
  · simp
  · rfl

end Paths

section Temporaries

theorem Sound.temporaries (h : Sound σ storage) {temporaries : Set TemporaryIdentity}
    (hinitialized : ∀ temporary, σ'.temporaryInitialization temporary = .initialized →
      temporary ∈ temporaries)
    (huninitialized : ∀ temporary, σ'.temporaryInitialization temporary = .uninitialized →
      temporary ∉ temporaries)
    (hpaths : σ'.paths = σ.paths) : Sound σ' { storage with temporaries := temporaries } where
  rooted path := by
    rw [nearest_congr hpaths, nearest_congr hpaths]
    exact h.rooted path
  initialized path := by
    rw [nearest_congr hpaths]
    exact h.initialized path
  uninitialized path := by
    rw [nearest_congr hpaths]
    exact h.uninitialized path
  initializedTemporary := hinitialized
  uninitializedTemporary := huninitialized

theorem Sound.declareTemporary (h : Sound σ storage)
    (hdeclare : σ.declareTemporary temporary = .ok σ') :
    Sound σ' (storage.apply (.declareTemporary temporary)) := by
  obtain ⟨_, rfl⟩ := declareTemporary_ok hdeclare
  apply h.temporaries
  · intro other hother
    rw [temporaryInitialization_insert] at hother
    by_cases heq : other = temporary
    · exact .inl heq
    · rw [if_neg heq] at hother
      exact .inr (h.initializedTemporary other hother)
  · intro other hother
    rw [temporaryInitialization_insert] at hother
    by_cases heq : other = temporary
    · rw [if_pos heq] at hother
      cases hother
    · rw [if_neg heq] at hother
      rintro (hin | hin)
      · exact heq hin
      · exact h.uninitializedTemporary other hother hin
  · rfl

theorem Sound.consumeTemporary (h : Sound σ storage)
    (hconsume : σ.consumeTemporary temporary = .ok σ') :
    Sound σ' (storage.apply (.consumeTemporary temporary)) := by
  obtain ⟨_, rfl⟩ := consumeTemporary_ok hconsume
  apply h.temporaries
  · intro other hother
    rw [temporaryInitialization_erase] at hother
    by_cases heq : other = temporary
    · rw [if_pos heq] at hother
      cases hother
    · rw [if_neg heq] at hother
      exact ⟨h.initializedTemporary other hother, heq⟩
  · intro other hother
    rw [temporaryInitialization_erase] at hother
    by_cases heq : other = temporary
    · exact fun hin => hin.2 heq
    · rw [if_neg heq] at hother
      exact fun hin => h.uninitializedTemporary other hother hin.1
  · rfl

theorem Sound.forgetTemporariesExcept (h : Sound σ storage) {retained : List TemporaryIdentity} :
    Sound (σ.forgetTemporariesExcept retained)
      (storage.apply (.forgetTemporariesExcept retained)) := by
  apply h.temporaries
  · intro other hother
    rw [temporaryInitialization_retain] at hother
    by_cases hin : other ∈ retained
    · rw [if_pos hin] at hother
      exact ⟨h.initializedTemporary other hother, hin⟩
    · rw [if_neg hin] at hother
      cases hother
  · intro other hother
    rw [temporaryInitialization_retain] at hother
    by_cases hin : other ∈ retained
    · rw [if_pos hin] at hother
      exact fun hlive => h.uninitializedTemporary other hother hlive.1
    · exact fun hlive => hin hlive.2
  · rfl

end Temporaries

theorem Sound.apply (h : Sound σ storage) {event : Event} (hevent : σ.apply event = .ok σ') :
    Sound σ' (storage.apply event) := by
  cases event with
  | declareInitialized root => exact h.declareInitialized hevent
  | moveOut path => exact h.moveOut hevent
  | assign path => exact h.assign hevent
  | declareTemporary temporary => exact h.declareTemporary hevent
  | consumeTemporary temporary => exact h.consumeTemporary hevent
  | forgetRoot root =>
    cases hevent
    exact h.forgetRoot
  | forgetTemporariesExcept retained =>
    cases hevent
    exact h.forgetTemporariesExcept

/-- What a joined state says holds in every execution that arrives through the state. -/
theorem Sound.join (h : Sound σ storage) {entry joined : OwnershipState}
    {incoming : List OwnershipState} (hmem : σ ∈ incoming)
    (hjoin : entry.joinReachable incoming = .ok joined) : Sound joined storage where
  rooted _ hpath := nearest_root_of_joinReachable hjoin hmem h.rooted hpath
  initialized path hpath :=
    h.initialized path (nearest_of_joinReachable hjoin (by simp) hmem hpath)
  uninitialized path hpath :=
    h.uninitialized path (nearest_of_joinReachable hjoin (by simp) hmem hpath)
  initializedTemporary temporary htemporary :=
    h.initializedTemporary temporary (temporary_of_joinReachable hjoin (by simp) hmem htemporary)
  uninitializedTemporary temporary htemporary :=
    h.uninitializedTemporary temporary (temporary_of_joinReachable hjoin (by simp) hmem htemporary)

theorem Reaches.sound (h : Reaches σ storage) : Sound σ storage := by
  induction h with
  | start => exact .start
  | step _ hevent ih => exact ih.apply hevent
  | join _ hmem hjoin ih => exact ih.join hmem hjoin

/-- An accepted operation uses no dead value. -/
theorem Sound.permits (h : Sound σ storage) {event : Event} (hevent : σ.apply event = .ok σ') :
    storage.Permits event := by
  cases event with
  | declareInitialized root => trivial
  | moveOut path =>
    intro query hle
    have hrequire := (moveOut_ok hevent).1
    exact h.initialized query (requireInitialized_ok_iff.mp hrequire query hle)
  | assign path =>
    intro parent hle hne
    exact h.initialized parent ((assign_ok hevent).1 parent hle hne)
  | declareTemporary temporary =>
    apply h.uninitializedTemporary
    rw [temporaryInitialization, (declareTemporary_ok hevent).1]
    rfl
  | consumeTemporary temporary =>
    apply h.initializedTemporary
    rw [temporaryInitialization, (consumeTemporary_ok hevent).1]
    rfl
  | forgetRoot root => trivial
  | forgetTemporariesExcept retained => trivial

end Sound

section Main

variable {σ : OwnershipState} {storage : Storage}

/-- What the flow state says about the storage of an execution. -/
structure Describes (σ : OwnershipState) (storage : Storage) : Prop where
  required : ∀ path, σ.requireInitialized path = .ok () → Storage.below path ⊆ storage.live
  unavailable : ∀ path, σ.stateAt path = .ok .uninitialized →
    Disjoint (Storage.below path) storage.live
  available : ∀ temporary, σ.temporaryInitialization temporary = .initialized →
    temporary ∈ storage.temporaries
  absent : ∀ temporary, σ.temporaryInitialization temporary = .uninitialized →
    temporary ∉ storage.temporaries

theorem Sound.describes (h : Sound σ storage) : Describes σ storage where
  required _ hrequire query hle :=
    h.initialized query (requireInitialized_ok_iff.mp hrequire query hle)
  unavailable path hstate := by
    rw [Set.disjoint_left]
    exact h.uninitialized path (stateAt_eq_ok.mp hstate)
  available := h.initializedTemporary
  absent := h.uninitializedTemporary

/-- A move or an assignment leaves the states of disjoint paths unchanged. -/
theorem disjoint_unchanged {σ' : OwnershipState} {path query : MovePath}
    (h : σ.moveOut path = .ok σ' ∨ σ.assign path = .ok σ') (hpath : ¬ path.isPrefixOf query)
    (hquery : ¬ query.isPrefixOf path) :
    σ'.stateAt query = σ.stateAt query ∧ σ'.requireInitialized query = σ.requireInitialized query := by
  have hapart (candidate : MovePath) (hle : query.isPrefixOf candidate) :
      ¬ path.isPrefixOf candidate :=
    fun hbelow => (hbelow.comparable hle).elim hpath hquery
  have hnearest : σ'.nearest query = σ.nearest query := by
    rcases h with h | h
    · rw [nearest_moveOut h, if_neg hpath]
    · rw [nearest_assign h, if_neg hpath]
  refine ⟨by rw [stateAt, stateAt, hnearest], requireInitialized_congr hnearest ?_⟩
  intro candidate hle
  rcases h with h | h
  · exact get_moveOut_outside h (hapart candidate hle)
  · exact get_assign_outside h (hapart candidate hle)

/-- The flow state over-approximates the storage of every execution that reaches it, an
accepted operation uses no dead value and leaves disjoint paths unchanged, and a join is sound
for each of its incoming states in any order. -/
theorem ownershipState_sound (h : Reaches σ storage) :
    Describes σ storage ∧
      (∀ event σ', σ.apply event = .ok σ' →
        storage.Permits event ∧ Describes σ' (storage.apply event)) ∧
      (∀ path σ', σ.moveOut path = .ok σ' ∨ σ.assign path = .ok σ' →
        ∀ query, ¬ path.isPrefixOf query → ¬ query.isPrefixOf path →
          σ'.stateAt query = σ.stateAt query ∧
            σ'.requireInitialized query = σ.requireInitialized query) ∧
      (∀ (entry : OwnershipState) (incoming : List OwnershipState), σ ∈ incoming →
        (∀ others, incoming.Perm others →
          entry.joinReachable others = entry.joinReachable incoming) ∧
        ∀ joined, entry.joinReachable incoming = .ok joined → Describes joined storage) := by
  have hsound := h.sound
  refine ⟨hsound.describes, ?_, fun _ _ h _ => disjoint_unchanged h, ?_⟩
  · exact fun event σ' hevent => ⟨hsound.permits hevent, (hsound.apply hevent).describes⟩
  · intro entry incoming hmem
    exact ⟨fun others hperm => joinReachable_perm hperm.symm,
      fun joined hjoin => (hsound.join hmem hjoin).describes⟩

theorem ownershipState_sound_moved : ∃ declared moved : OwnershipState,
    OwnershipState.default.declareInitialized (.root (.localBinding 0)) = .ok declared ∧
      declared.moveOut ((MovePath.root (.localBinding 0)).field 1) = .ok moved ∧
      Describes moved ((Storage.empty.apply (.declareInitialized (.localBinding 0))).apply
        (.moveOut ((MovePath.root (.localBinding 0)).field 1))) := by
  let declared : OwnershipState :=
    ⟨FiniteMap.empty.insert (.root (.localBinding 0)) .initialized, .empty⟩
  have hdeclare : OwnershipState.default.declareInitialized (.root (.localBinding 0)) =
      .ok declared := rfl
  have hrequire : declared.requireInitialized ((MovePath.root (.localBinding 0)).field 1) =
      .ok () := by
    rw [requireInitialized_ok, MovePath.field, nearest_project, nearest_root]
    refine ⟨rfl, ?_⟩
    intro candidate state _ _ hstate
    simp only [declared, FiniteMap.get_insert, FiniteMap.get_empty] at hstate
    split at hstate
    · exact (Option.some.inj hstate).symm
    · cases hstate
  have hmove := moveOut_of_required hrequire
  have hdeclared : Reaches declared (Storage.empty.apply (.declareInitialized (.localBinding 0))) :=
    @Reaches.step _ _ _ (.declareInitialized _) .start hdeclare
  have hmoved : Reaches _ (Storage.apply _ (.moveOut _)) :=
    @Reaches.step _ _ _ (.moveOut _) hdeclared hmove
  exact ⟨declared, _, hdeclare, hmove, (ownershipState_sound hmoved).1⟩

end Main

end Nocter.Ownership
