import Nocter.Library.Interning
import Nocter.Model.TypeKind
import Nocter.Persistent.Map
import Nocter.Persistent.Vector

/-!
# The type store

The intern table of structural types. Kinds are appended and never replaced,
the map takes a kind to its identity, and the properties of a kind are computed
from those of its references when it is inserted. A result of `none` stands for
a failed `expect` or `assert!`. Every stored kind is one allocation, whose
address the caller provides.
-/

namespace Nocter.Model

open Nocter.Persistent

structure TypeProperties where
  mayCarryStorage : Bool
  concrete : Bool
  deriving DecidableEq

namespace TypeProperties

section ForKind

variable (child : TypeId → Option TypeProperties)

def childConcrete (ty : TypeId) : Option Bool := (child ty).map (·.concrete)

def childMayCarryStorage (ty : TypeId) : Option Bool := (child ty).map (·.mayCarryStorage)

def argumentConcrete : GenericValue TypeId → Option Bool
  | .type ty => childConcrete child ty
  | .usize value => some value.closedValue.isSome

def applicationConcrete (application : GenericApplication TypeId) : Option Bool :=
  application.values.allM (argumentConcrete child)

def packConcrete (pack : ArgumentPack TypeId) : Option Bool :=
  childConcrete child pack.primary <&&> pack.value.elim (some true) (childConcrete child)

def concreteForKind : TypeKind TypeId → Option Bool
  | .genericParameter _ | .interfaceSelf _ | .associatedProjection _ _ => some false
  | .builtin _ => some true
  | .nominal _ arguments | .opaqueType _ arguments | .closure _ arguments =>
    applicationConcrete child arguments
  | .tuple elements => elements.asSlice.allM (childConcrete child)
  | .pointer base | .borrow _ base | .future base | .slice base | .optional base
  | .fallible base => childConcrete child base
  | .fixedArray element length => childConcrete child element <&&> some length.closedValue.isSome
  | .packEntry key value => childConcrete child key <&&> childConcrete child value
  | .callable ty =>
    childConcrete child ty.contract.result <&&>
      (ty.contract.parameters.allM (childConcrete child) <&&>
        ty.contract.pack.elim (some true) (packConcrete child))

def mayCarryStorageForKind : TypeKind TypeId → Option Bool
  | .builtin .str | .genericParameter _ | .interfaceSelf _ | .nominal _ _
  | .associatedProjection _ _ | .opaqueType _ _ | .pointer _ | .borrow _ _ | .future _ | .slice _
  | .closure _ _ | .callable _ => some true
  | .packEntry key value => childMayCarryStorage child key <||> childMayCarryStorage child value
  | .tuple elements => elements.asSlice.anyM (childMayCarryStorage child)
  | .fixedArray element _ | .optional element | .fallible element =>
    childMayCarryStorage child element
  | .builtin _ => some false

def forKind (kind : TypeKind TypeId) : Option TypeProperties := do
  let concrete ← concreteForKind child kind
  let mayCarryStorage ← mayCarryStorageForKind child kind
  some ⟨mayCarryStorage, concrete⟩

end ForKind

end TypeProperties

structure UnknownTypeId where
  id : TypeId
  deriving DecidableEq

structure TypeStore where
  kinds : PersistentVector (Shared (TypeKind TypeId))
  properties : PersistentVector TypeProperties
  interned : PersistentMap (TypeKind TypeId) TypeId
  builtins : List TypeId

namespace TypeStore

def get (store : TypeStore) (id : TypeId) : Option (TypeKind TypeId) :=
  (store.kinds.get id).map (·.value)

def identity (store : TypeStore) (kind : TypeKind TypeId) : Option TypeId :=
  store.interned.get kind

def typeCount (store : TypeStore) : ℕ := store.kinds.len

def mayCarryStorage (store : TypeStore) (root : TypeId) : Bool :=
  ((store.properties.get root).map (·.mayCarryStorage)).getD false

def isConcrete (store : TypeStore) (root : TypeId) : Option Bool :=
  (store.properties.get root).map (·.concrete)

def builtin (store : TypeStore) (primitive : BuiltinType) : Option TypeId :=
  store.builtins[primitive.index]?

def insertKnown (address : ℕ) (store : TypeStore) (kind : TypeKind TypeId) :
    Option (TypeId × TypeStore) := do
  let id := store.kinds.len
  let properties ← TypeProperties.forKind store.properties.get kind
  let kinds ← store.kinds.push ⟨address, kind⟩
  let properties ← store.properties.push properties
  let (interned, inserted) ← store.interned.insertAbsent kind id
  guard inserted
  guard (interned.len = kinds.len ∧ properties.len = kinds.len)
  some (id, { store with kinds, properties, interned })

/-- Intern every builtin in declaration order, each into its array slot. -/
def insertBuiltins (address : ℕ) (store : TypeStore) : List (BuiltinType × ℕ) → Option TypeStore
  | [] => some store
  | (primitive, index) :: rest => do
    let (id, store) ← store.insertKnown address (.builtin primitive)
    insertBuiltins (address + 1) { store with builtins := store.builtins.set index id } rest

/-- The builtins take the addresses from `address` on. -/
def new (address : ℕ) : Option TypeStore :=
  insertBuiltins address ⟨.empty, .empty, .empty, List.replicate BuiltinType.all.length 0⟩
    BuiltinType.all.zipIdx

def internBranch (address : ℕ) (store : TypeStore) (kind : TypeKind TypeId) :
    Option (Except UnknownTypeId TypeId × TypeStore) :=
  match kind.references.find? fun referenced => (store.get referenced).isNone with
  | some invalid => some (.error ⟨invalid⟩, store)
  | none =>
    match store.interned.get kind with
    | some id => some (.ok id, store)
    | none => do
      let (id, store) ← store.insertKnown address kind
      some (.ok id, store)

/-- Whether the store retains the exact immutable prefix `other`. -/
def preservesPrefix (store other : TypeStore) : Bool :=
  other.typeCount ≤ store.typeCount && 0 < other.typeCount &&
    store.kinds.sharesValueAt other.kinds (other.typeCount - 1)

end TypeStore

end Nocter.Model

/-!
# Types as finite terms

A type is the term obtained by following its references down to the builtins
and parameters. Its label is the skeleton of the kind, which keeps every
component but the references. The properties of a type are defined over the
term; `forKind` computes the same from one kind and the properties of its
references.
-/

namespace Nocter.Model

open Interning

abbrev TypeTerm := Term (TypeKind Unit)

namespace TypeTerm

def closedArgument : GenericValue Unit → Bool
  | .type _ => true
  | .usize length => length.closedValue.isSome

/-- No component of this level is left open. -/
def closedLevel : TypeKind Unit → Bool
  | .genericParameter _ | .interfaceSelf _ | .associatedProjection _ _ => false
  | .nominal _ arguments | .opaqueType _ arguments | .closure _ arguments =>
    arguments.values.all closedArgument
  | .fixedArray _ length => length.closedValue.isSome
  | _ => true

/-- A type is concrete when every level of it is closed. -/
def concrete : TypeTerm → Bool :=
  Term.fold fun skeleton children => closedLevel skeleton && children.all id

/-- Whether a level carries storage, given which of its components do. -/
def carriesLevel : TypeKind Unit → List Bool → Bool
  | .builtin primitive, _ => primitive == .str
  | .packEntry _ _, children | .tuple _, children | .fixedArray _ _, children
  | .optional _, children | .fallible _, children => children.any id
  | _, _ => true

def mayCarryStorage : TypeTerm → Bool := Term.fold carriesLevel

def properties (term : TypeTerm) : TypeProperties := ⟨term.mayCarryStorage, term.concrete⟩

end TypeTerm

section Faithful

variable {ρ : Type}

theorem GenericValue.eq_of_skeleton : ∀ {a b : List (GenericValue ρ)},
    a.map GenericValue.skeleton = b.map GenericValue.skeleton →
    a.filterMap GenericValue.asType = b.filterMap GenericValue.asType → a = b
  | [], [], _, _ => rfl
  | [], _ :: _, h, _ => by simp at h
  | _ :: _, [], h, _ => by simp at h
  | .type s :: a, .type t :: b, hs, ht => by
    simp only [List.map_cons, List.cons.injEq, skeleton, true_and] at hs
    simp only [List.filterMap_cons, asType, List.cons.injEq] at ht
    rw [ht.1, eq_of_skeleton hs ht.2]
  | .usize s :: a, .usize t :: b, hs, ht => by
    simp only [List.map_cons, List.cons.injEq, skeleton, GenericValue.usize.injEq] at hs
    simp only [List.filterMap_cons, asType] at ht
    rw [hs.1, eq_of_skeleton hs.2 ht]
  | .type _ :: _, .usize _ :: _, h, _ => by simp [skeleton] at h
  | .usize _ :: _, .type _ :: _, h, _ => by simp [skeleton] at h

theorem GenericApplication.eq_of_skeleton {a b : GenericApplication ρ}
    (hs : a.skeleton = b.skeleton) (ht : a.typeValues = b.typeValues) : a = b := by
  cases a
  cases b
  simp only [GenericApplication.skeleton, GenericApplication.mk.injEq] at hs
  rw [GenericValue.eq_of_skeleton hs ht]

theorem length_eq_of_map_unit {a b : List ρ} (h : a.map (fun _ => ()) = b.map fun _ => ()) :
    a.length = b.length := by
  simpa using congrArg List.length h

theorem CallableContract.eq_of_skeleton {a b : CallableContract ρ} (hs : a.skeleton = b.skeleton)
    (ht : a.parameters ++ a.pack.elim [] ArgumentPack.components ++ [a.result] =
      b.parameters ++ b.pack.elim [] ArgumentPack.components ++ [b.result]) : a = b := by
  obtain ⟨ac, ag, ap, apack, ai, ar, aprov⟩ := a
  obtain ⟨bc, bg, bp, bpack, bi, br, bprov⟩ := b
  simp only [CallableContract.skeleton, CallableContract.mk.injEq] at hs
  obtain ⟨rfl, rfl, hparameters, hpack, rfl, _, rfl⟩ := hs
  obtain ⟨hfront, hresult⟩ := List.append_inj' ht rfl
  obtain ⟨rfl, hcomponents⟩ := List.append_inj hfront (length_eq_of_map_unit hparameters)
  obtain rfl : ar = br := by simpa using hresult
  -- the shape of the pack is in the skeleton, its components are references
  have hsame : apack = bpack := by
    rcases apack with _ | (a | ⟨a, a'⟩) <;> rcases bpack with _ | (b | ⟨b, b'⟩) <;>
      simp_all [ArgumentPack.skeleton, ArgumentPack.components]
  rw [hsame]

/-- The skeleton and the references determine the kind. -/
theorem TypeKind.faithful : Faithful (TypeKind.skeleton (ρ := TypeId)) TypeKind.references := by
  intro a b hs ht
  cases a <;> cases b <;>
    simp only [TypeKind.skeleton, reduceCtorEq, TypeKind.builtin.injEq,
      TypeKind.genericParameter.injEq, TypeKind.interfaceSelf.injEq, TypeKind.nominal.injEq,
      TypeKind.associatedProjection.injEq, TypeKind.opaqueType.injEq, TypeKind.borrow.injEq,
      TypeKind.fixedArray.injEq, TypeKind.tuple.injEq, TypeKind.closure.injEq,
      TypeKind.callable.injEq, CallableType.mk.injEq, true_and] at hs <;>
    simp only [TypeKind.references, List.cons.injEq, and_true] at ht
  case nominal.nominal | opaqueType.opaqueType | closure.closure =>
    rw [hs.1, GenericApplication.eq_of_skeleton hs.2 ht]
  case tuple.tuple elements others =>
    cases elements
    cases others
    simp_all [TupleElements.asSlice]
  case callable.callable left right =>
    cases left
    cases right
    simp only at hs ht
    rw [hs.1, CallableContract.eq_of_skeleton hs.2 ht]
  all_goals simp_all

end Faithful

section Properties

variable {child : TypeId → Option TypeProperties} {known : TypeId → TypeProperties}

theorem allM_eq_all {α : Type} {test : α → Option Bool} {decided : α → Bool} {xs : List α}
    (h : ∀ x ∈ xs, test x = some (decided x)) : xs.allM test = some (xs.all decided) := by
  induction xs with
  | nil => rfl
  | cons x xs ih =>
    rw [List.allM, h x List.mem_cons_self, ih fun y hy => h y (List.mem_cons_of_mem x hy)]
    cases hx : decided x <;> simp [hx]

theorem anyM_eq_any {α : Type} {test : α → Option Bool} {decided : α → Bool} {xs : List α}
    (h : ∀ x ∈ xs, test x = some (decided x)) : xs.anyM test = some (xs.any decided) := by
  induction xs with
  | nil => rfl
  | cons x xs ih =>
    rw [List.anyM, h x List.mem_cons_self, ih fun y hy => h y (List.mem_cons_of_mem x hy)]
    cases hx : decided x <;> simp [hx]

@[simp] theorem some_andM (a b : Bool) : (some a <&&> some b) = some (a && b) := by
  cases a <;> rfl

@[simp] theorem some_orM (a b : Bool) : (some a <||> some b) = some (a || b) := by
  cases a <;> rfl

theorem childConcrete_eq {ty : TypeId} (h : child ty = some (known ty)) :
    TypeProperties.childConcrete child ty = some (known ty).concrete := by
  rw [TypeProperties.childConcrete, h, Option.map_some]

theorem childMayCarryStorage_eq {ty : TypeId} (h : child ty = some (known ty)) :
    TypeProperties.childMayCarryStorage child ty = some (known ty).mayCarryStorage := by
  rw [TypeProperties.childMayCarryStorage, h, Option.map_some]

theorem applicationConcrete_eq {values : List (GenericValue TypeId)}
    (h : ∀ r ∈ values.filterMap GenericValue.asType, child r = some (known r)) :
    values.allM (TypeProperties.argumentConcrete child) =
      some ((values.map GenericValue.skeleton).all TypeTerm.closedArgument &&
        (values.filterMap GenericValue.asType).all fun r => (known r).concrete) := by
  induction values with
  | nil => rfl
  | cons value values ih =>
    cases value with
    | type ty =>
      rw [show (GenericValue.type ty :: values).filterMap GenericValue.asType =
        ty :: values.filterMap GenericValue.asType from rfl] at h
      rw [List.allM, ih fun r hr => h r (List.mem_cons_of_mem ty hr),
        TypeProperties.argumentConcrete, childConcrete_eq (h ty List.mem_cons_self)]
      cases hty : (known ty).concrete <;>
        simp [GenericValue.skeleton, GenericValue.asType, TypeTerm.closedArgument, hty]
    | usize length =>
      rw [show (GenericValue.usize length :: values).filterMap GenericValue.asType =
        values.filterMap GenericValue.asType from rfl] at h
      rw [List.allM, ih h, TypeProperties.argumentConcrete]
      cases hlength : length.closedValue.isSome <;>
        simp [GenericValue.skeleton, GenericValue.asType, TypeTerm.closedArgument, hlength]

theorem callableConcrete_eq {contract : CallableContract TypeId}
    (h : ∀ r ∈ contract.parameters ++ contract.pack.elim [] ArgumentPack.components ++
      [contract.result], child r = some (known r)) :
    (TypeProperties.childConcrete child contract.result <&&>
      (contract.parameters.allM (TypeProperties.childConcrete child) <&&>
        contract.pack.elim (some true) (TypeProperties.packConcrete child))) =
    some ((contract.parameters ++ contract.pack.elim [] ArgumentPack.components ++
      [contract.result]).all fun r => (known r).concrete) := by
  have hparameters : contract.parameters.allM (TypeProperties.childConcrete child) =
      some (contract.parameters.all fun r => (known r).concrete) :=
    allM_eq_all fun r hr => childConcrete_eq (h r (by simp [hr]))
  have hpack : contract.pack.elim (some true) (TypeProperties.packConcrete child) =
      some ((contract.pack.elim [] ArgumentPack.components).all fun r => (known r).concrete) := by
    rcases hpack : contract.pack with _ | (element | ⟨key, value⟩)
    · rfl
    · have helement := h element (by simp [hpack, ArgumentPack.components])
      simp [TypeProperties.packConcrete, ArgumentPack.primary, ArgumentPack.value,
        ArgumentPack.components, childConcrete_eq helement]
    · have hkey := h key (by simp [hpack, ArgumentPack.components])
      have hvalue := h value (by simp [hpack, ArgumentPack.components])
      simp [TypeProperties.packConcrete, ArgumentPack.primary, ArgumentPack.value,
        ArgumentPack.components, childConcrete_eq hkey, childConcrete_eq hvalue]
  rw [childConcrete_eq (h _ (by simp)), hparameters, hpack, some_andM, some_andM,
    List.all_append, List.all_append]
  simp [Bool.and_comm]

theorem concreteForKind_eq (known : TypeId → TypeProperties) {kind : TypeKind TypeId}
    (h : ∀ r ∈ kind.references, child r = some (known r)) :
    TypeProperties.concreteForKind child kind =
      some (TypeTerm.closedLevel kind.skeleton &&
        (kind.references.map fun r => (known r).concrete).all id) := by
  rw [List.all_map, Function.id_comp]
  cases kind with
  | builtin | genericParameter | interfaceSelf | associatedProjection => rfl
  | nominal definition arguments => exact applicationConcrete_eq h
  | opaqueType definition arguments => exact applicationConcrete_eq h
  | closure definition arguments => exact applicationConcrete_eq h
  | pointer base | slice base | optional base | fallible base | future base =>
    rw [TypeProperties.concreteForKind, childConcrete_eq (h base List.mem_cons_self)]
    simp [TypeTerm.closedLevel, TypeKind.skeleton, TypeKind.references]
  | borrow capability base =>
    rw [TypeProperties.concreteForKind, childConcrete_eq (h base List.mem_cons_self)]
    simp [TypeTerm.closedLevel, TypeKind.skeleton, TypeKind.references]
  | fixedArray base length =>
    rw [TypeProperties.concreteForKind, childConcrete_eq (h base List.mem_cons_self), some_andM]
    simp [TypeTerm.closedLevel, TypeKind.skeleton, TypeKind.references, Bool.and_comm]
  | packEntry key value =>
    rw [TypeProperties.concreteForKind, childConcrete_eq (h key (by simp [TypeKind.references])),
      childConcrete_eq (h value (by simp [TypeKind.references])), some_andM]
    simp [TypeTerm.closedLevel, TypeKind.skeleton, TypeKind.references]
  | tuple elements =>
    have helements : elements.asSlice.allM (TypeProperties.childConcrete child) =
        some (elements.asSlice.all fun r => (known r).concrete) :=
      allM_eq_all fun r hr => childConcrete_eq (h r hr)
    rw [TypeProperties.concreteForKind, helements]
    simp [TypeTerm.closedLevel, TypeKind.skeleton, TypeKind.references]
  | callable ty =>
    rw [TypeProperties.concreteForKind, callableConcrete_eq h]
    simp [TypeTerm.closedLevel, TypeKind.skeleton, TypeKind.references]

theorem mayCarryStorageForKind_eq (known : TypeId → TypeProperties) {kind : TypeKind TypeId}
    (h : ∀ r ∈ kind.references, child r = some (known r)) :
    TypeProperties.mayCarryStorageForKind child kind =
      some (TypeTerm.carriesLevel kind.skeleton
        (kind.references.map fun r => (known r).mayCarryStorage)) := by
  cases kind with
  | builtin primitive => cases primitive <;> rfl
  | tuple elements =>
    have helements : elements.asSlice.anyM (TypeProperties.childMayCarryStorage child) =
        some (elements.asSlice.any fun r => (known r).mayCarryStorage) :=
      anyM_eq_any fun r hr => childMayCarryStorage_eq (h r hr)
    rw [TypeProperties.mayCarryStorageForKind, helements]
    simp [TypeTerm.carriesLevel, TypeKind.skeleton, TypeKind.references]
  | packEntry key value =>
    rw [TypeProperties.mayCarryStorageForKind,
      childMayCarryStorage_eq (h key (by simp [TypeKind.references])),
      childMayCarryStorage_eq (h value (by simp [TypeKind.references])), some_orM]
    simp [TypeTerm.carriesLevel, TypeKind.skeleton, TypeKind.references]
  | fixedArray base length =>
    rw [TypeProperties.mayCarryStorageForKind, childMayCarryStorage_eq (h base List.mem_cons_self)]
    simp [TypeTerm.carriesLevel, TypeKind.skeleton, TypeKind.references]
  | optional base | fallible base =>
    rw [TypeProperties.mayCarryStorageForKind, childMayCarryStorage_eq (h base List.mem_cons_self)]
    simp [TypeTerm.carriesLevel, TypeKind.skeleton, TypeKind.references]
  | _ => rfl

/-- One level of the computed properties, over the terms of the references. -/
theorem forKind_eq {kind : TypeKind TypeId} {children : List TypeTerm} {terms : TypeId → TypeTerm}
    (hchildren : children = kind.references.map terms)
    (h : ∀ r ∈ kind.references, child r = some (terms r).properties) :
    TypeProperties.forKind child kind =
      some (TypeTerm.properties (.node kind.skeleton children)) := by
  rw [TypeProperties.forKind, concreteForKind_eq (fun r => (terms r).properties) h,
    mayCarryStorageForKind_eq (fun r => (terms r).properties) h, TypeTerm.properties,
    TypeTerm.concrete, TypeTerm.mayCarryStorage, Term.fold_node, Term.fold_node, hchildren,
    List.map_map, List.map_map]
  rfl

end Properties

end Nocter.Model
