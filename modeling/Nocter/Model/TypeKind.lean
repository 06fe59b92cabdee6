import Nocter.Library.OrderKey

/-!
# Structural type kinds

One level of a structural type, with the references to its components left as
a parameter: the type store refers to components by `TypeId`. The derived order
of the source is the order of `TypeKind.key`.
-/

namespace Nocter.Model

abbrev TypeId := ℕ

abbrev GenericParameterId := ℕ

abbrev InterfaceId := ℕ

abbrev NominalTypeId := ℕ

abbrev AssociatedTypeId := ℕ

abbrev OpaqueTypeId := ℕ

abbrev ClosureId := ℕ

inductive BuiltinType where
  | bool | char | f32 | f64 | i8 | i16 | i32 | i64 | u8 | u16 | u32 | u64 | usize | isize
  | str | error | void | never
  deriving DecidableEq

namespace BuiltinType

def all : List BuiltinType :=
  [bool, char, f32, f64, i8, i16, i32, i64, u8, u16, u32, u64, usize, isize, str, error, void,
    never]

def index : BuiltinType → ℕ
  | bool => 0 | char => 1 | f32 => 2 | f64 => 3 | i8 => 4 | i16 => 5 | i32 => 6 | i64 => 7
  | u8 => 8 | u16 => 9 | u32 => 10 | u64 => 11 | usize => 12 | isize => 13 | str => 14
  | error => 15 | void => 16 | never => 17

theorem all_getElem?_index (builtin : BuiltinType) : all[builtin.index]? = some builtin := by
  cases builtin <;> rfl

theorem index_injective : Function.Injective index := by
  intro a b h
  have hab := congrArg (all[·]?) h
  simpa only [all_getElem?_index, Option.some.injEq] using hab

end BuiltinType

inductive BorrowCapability where
  | readonly | readWrite
  deriving DecidableEq

inductive CallableCapability where
  | readonly | readWrite | owned
  deriving DecidableEq

inductive CallableRepresentation where
  | staticWitness | erased
  deriving DecidableEq

inductive AllocationGuarantee where
  | unspecified | noAllocation
  deriving DecidableEq

inductive NonblockingGuarantee where
  | nonblocking | unspecified
  deriving DecidableEq

inductive TrapGuarantee where
  | unspecified | noTrap
  deriving DecidableEq

inductive CompileTimeGuarantee where
  | runtimeOnly | evaluatable
  deriving DecidableEq

structure CallableGuarantees where
  allocation : AllocationGuarantee
  trap : TrapGuarantee
  nonblocking : NonblockingGuarantee
  compileTime : CompileTimeGuarantee
  deriving DecidableEq

inductive UsizeTerm where
  | value (value : UInt64)
  | parameter (parameter : GenericParameterId)
  deriving DecidableEq

def UsizeTerm.closedValue : UsizeTerm → Option UInt64
  | .value length => some length
  | .parameter _ => none

/-- Caller parameter positions, sorted and unique. -/
structure ProvenanceSet where
  origins : List ℕ
  sorted : origins.Pairwise (· < ·)
  deriving DecidableEq

structure InputProvenanceConstraint where
  target : ℕ
  sources : ProvenanceSet
  deriving DecidableEq

/-- Constraints sorted by target; no target occurs twice or names itself. -/
structure InputProvenance where
  constraints : List InputProvenanceConstraint
  sorted : constraints.Pairwise (·.target < ·.target)
  proper : ∀ constraint ∈ constraints, constraint.target ∉ constraint.sources.origins
  deriving DecidableEq

variable {ρ σ : Type}

inductive GenericValue (ρ : Type) where
  | type (ty : ρ)
  | usize (term : UsizeTerm)
  deriving DecidableEq

structure GenericApplication (ρ : Type) where
  values : List (GenericValue ρ)
  deriving DecidableEq

/-- At least two elements. -/
structure TupleElements (ρ : Type) where
  first : ρ
  second : ρ
  remaining : List ρ
  deriving DecidableEq

inductive ArgumentPack (ρ : Type) where
  | values (element : ρ)
  | keyed (key value : ρ)
  deriving DecidableEq

structure CallableContract (ρ : Type) where
  capability : CallableCapability
  guarantees : CallableGuarantees
  parameters : List ρ
  pack : Option (ArgumentPack ρ)
  inputProvenance : InputProvenance
  result : ρ
  provenance : ProvenanceSet
  deriving DecidableEq

structure CallableType (ρ : Type) where
  representation : CallableRepresentation
  contract : CallableContract ρ
  deriving DecidableEq

inductive TypeKind (ρ : Type) where
  | builtin (builtin : BuiltinType)
  | genericParameter (parameter : GenericParameterId)
  | interfaceSelf (interface : InterfaceId)
  | nominal (definition : NominalTypeId) (arguments : GenericApplication ρ)
  | associatedProjection (base : ρ) (associated : AssociatedTypeId)
  | opaqueType (definition : OpaqueTypeId) (arguments : GenericApplication ρ)
  | pointer (base : ρ)
  | borrow (capability : BorrowCapability) (referent : ρ)
  | future (output : ρ)
  | slice (element : ρ)
  | fixedArray (element : ρ) (length : UsizeTerm)
  | tuple (elements : TupleElements ρ)
  | packEntry (key value : ρ)
  | closure (definition : ClosureId) (arguments : GenericApplication ρ)
  | callable (callable : CallableType ρ)
  | optional (payload : ρ)
  | fallible (payload : ρ)
  deriving DecidableEq

def GenericValue.asType : GenericValue ρ → Option ρ
  | .type ty => some ty
  | .usize _ => none

def GenericApplication.typeValues (arguments : GenericApplication ρ) : List ρ :=
  arguments.values.filterMap GenericValue.asType

def TupleElements.asSlice (elements : TupleElements ρ) : List ρ :=
  elements.first :: elements.second :: elements.remaining

def ArgumentPack.primary : ArgumentPack ρ → ρ
  | .values element => element
  | .keyed key _ => key

def ArgumentPack.value : ArgumentPack ρ → Option ρ
  | .values _ => none
  | .keyed _ value => some value

def ArgumentPack.components : ArgumentPack ρ → List ρ
  | .values element => [element]
  | .keyed key value => [key, value]

/-- The referenced types in structural order. -/
def TypeKind.references : TypeKind ρ → List ρ
  | .builtin _ | .genericParameter _ | .interfaceSelf _ => []
  | .nominal _ arguments | .opaqueType _ arguments | .closure _ arguments => arguments.typeValues
  | .associatedProjection base _ | .pointer base | .borrow _ base | .future base | .slice base
  | .fixedArray base _ | .optional base | .fallible base => [base]
  | .tuple elements => elements.asSlice
  | .packEntry key value => [key, value]
  | .callable ty =>
    ty.contract.parameters ++ ty.contract.pack.elim [] ArgumentPack.components ++
      [ty.contract.result]

section Skeleton

/-! The skeleton of a kind is everything except which types it refers to. -/

def GenericValue.skeleton : GenericValue ρ → GenericValue Unit
  | .type _ => .type ()
  | .usize term => .usize term

def GenericApplication.skeleton (arguments : GenericApplication ρ) : GenericApplication Unit :=
  ⟨arguments.values.map GenericValue.skeleton⟩

def TupleElements.skeleton (elements : TupleElements ρ) : TupleElements Unit :=
  ⟨(), (), elements.remaining.map fun _ => ()⟩

def ArgumentPack.skeleton : ArgumentPack ρ → ArgumentPack Unit
  | .values _ => .values ()
  | .keyed _ _ => .keyed () ()

def CallableContract.skeleton (contract : CallableContract ρ) : CallableContract Unit :=
  { contract with
    parameters := contract.parameters.map fun _ => ()
    pack := contract.pack.map ArgumentPack.skeleton
    result := () }

def TypeKind.skeleton : TypeKind ρ → TypeKind Unit
  | .builtin primitive => .builtin primitive
  | .genericParameter parameter => .genericParameter parameter
  | .interfaceSelf interface => .interfaceSelf interface
  | .nominal definition arguments => .nominal definition arguments.skeleton
  | .associatedProjection _ associated => .associatedProjection () associated
  | .opaqueType definition arguments => .opaqueType definition arguments.skeleton
  | .pointer _ => .pointer ()
  | .borrow capability _ => .borrow capability ()
  | .future _ => .future ()
  | .slice _ => .slice ()
  | .fixedArray _ length => .fixedArray () length
  | .tuple elements => .tuple elements.skeleton
  | .packEntry _ _ => .packEntry () ()
  | .closure definition arguments => .closure definition arguments.skeleton
  | .callable ty => .callable ⟨ty.representation, ty.contract.skeleton⟩
  | .optional _ => .optional ()
  | .fallible _ => .fallible ()

end Skeleton

end Nocter.Model

/-!
# Representations of the numeric builtin types

The widths that explicit conversions between builtin types are judged by.
-/

namespace Nocter.Model

inductive BuiltinNumericType where
  | integer (bits : ℕ) (signed : Bool)
  | float (bits precision : ℕ)
  deriving DecidableEq

def BuiltinNumericType.forBuiltin : BuiltinType → Option BuiltinNumericType
  | .i8 => some (.integer 8 true)
  | .i16 => some (.integer 16 true)
  | .i32 => some (.integer 32 true)
  | .i64 | .isize => some (.integer 64 true)
  | .u8 => some (.integer 8 false)
  | .u16 => some (.integer 16 false)
  | .u32 => some (.integer 32 false)
  | .u64 | .usize => some (.integer 64 false)
  | .f32 => some (.float 32 24)
  | .f64 => some (.float 64 53)
  | .bool | .char | .str | .error | .void | .never => none

/-- Whether a conversion preserves every value of the source type. -/
def losslessBuiltinNumericConversion (source target : BuiltinType) : Bool :=
  match BuiltinNumericType.forBuiltin source, BuiltinNumericType.forBuiltin target with
  | some (.integer sourceBits sourceSigned), some (.integer targetBits targetSigned) =>
    match sourceSigned, targetSigned with
    | false, false | true, true => decide (sourceBits ≤ targetBits)
    | false, true => decide (sourceBits < targetBits)
    | true, false => false
  | some (.integer bits signed), some (.float _ precision) =>
    decide (bits - (if signed then 1 else 0) ≤ precision)
  | some (.float sourceBits _), some (.float targetBits _) => decide (sourceBits < targetBits)
  | _, _ => false

/-- An integer type of the language. -/
structure IntegerType where
  builtin : BuiltinType
  bits : ℕ
  signed : Bool
  numeric : BuiltinNumericType.forBuiltin builtin = some (.integer bits signed)

namespace IntegerType

variable (ty : IntegerType)

theorem bits_eq : ty.bits = 8 ∨ ty.bits = 16 ∨ ty.bits = 32 ∨ ty.bits = 64 := by
  obtain ⟨builtin, bits, signed, numeric⟩ := ty
  cases builtin <;> simp only [BuiltinNumericType.forBuiltin, Option.some.injEq,
    BuiltinNumericType.integer.injEq, reduceCtorEq] at numeric <;> dsimp only <;> omega

theorem bits_pos : 0 < ty.bits := by
  have hbits := ty.bits_eq
  omega

theorem bits_lt : ty.bits < 128 := by
  have hbits := ty.bits_eq
  omega

end IntegerType

end Nocter.Model

/-!
# The derived order of type kinds

The keys follow the declaration order of variants and fields, which is the
order the source derives. They are injective, so kinds are a lawful key type
for the intern table.
-/

namespace Nocter.Model

open OrderKey

namespace OrderKeys

def word (value : ℕ) : OrderKey := .word value

def usizeTerm : UsizeTerm → OrderKey
  | .value value => .fields [.word 0, .word value.toNat]
  | .parameter parameter => .fields [.word 1, .word parameter]

def genericValue : GenericValue TypeId → OrderKey
  | .type ty => .fields [.word 0, .word ty]
  | .usize term => .fields [.word 1, usizeTerm term]

def application (arguments : GenericApplication TypeId) : OrderKey :=
  ofList genericValue arguments.values

def argumentPack : ArgumentPack TypeId → OrderKey
  | .values element => .fields [.word 0, .word element]
  | .keyed key value => .fields [.word 1, .word key, .word value]

def provenanceSet (set : ProvenanceSet) : OrderKey := ofList word set.origins

def constraint (constraint : InputProvenanceConstraint) : OrderKey :=
  .fields [.word constraint.target, provenanceSet constraint.sources]

def inputProvenance (provenance : InputProvenance) : OrderKey :=
  ofList constraint provenance.constraints

def borrowCapability : BorrowCapability → OrderKey
  | .readonly => .word 0
  | .readWrite => .word 1

def callableCapability : CallableCapability → OrderKey
  | .readonly => .word 0
  | .readWrite => .word 1
  | .owned => .word 2

def representation : CallableRepresentation → OrderKey
  | .staticWitness => .word 0
  | .erased => .word 1

def allocation : AllocationGuarantee → OrderKey
  | .unspecified => .word 0
  | .noAllocation => .word 1

def trap : TrapGuarantee → OrderKey
  | .unspecified => .word 0
  | .noTrap => .word 1

def nonblocking : NonblockingGuarantee → OrderKey
  | .nonblocking => .word 0
  | .unspecified => .word 1

def compileTime : CompileTimeGuarantee → OrderKey
  | .runtimeOnly => .word 0
  | .evaluatable => .word 1

def guarantees (guarantees : CallableGuarantees) : OrderKey :=
  .fields [allocation guarantees.allocation, trap guarantees.trap,
    nonblocking guarantees.nonblocking, compileTime guarantees.compileTime]

def contract (contract : CallableContract TypeId) : OrderKey :=
  .fields [callableCapability contract.capability, guarantees contract.guarantees,
    ofList word contract.parameters, ofOption argumentPack contract.pack,
    inputProvenance contract.inputProvenance, .word contract.result,
    provenanceSet contract.provenance]

end OrderKeys

open OrderKeys in
def TypeKind.key : TypeKind TypeId → OrderKey
  | .builtin primitive => .fields [.word 0, .word primitive.index]
  | .genericParameter parameter => .fields [.word 1, .word parameter]
  | .interfaceSelf interface => .fields [.word 2, .word interface]
  | .nominal definition arguments => .fields [.word 3, .word definition, application arguments]
  | .associatedProjection base associated => .fields [.word 4, .word base, .word associated]
  | .opaqueType definition arguments => .fields [.word 5, .word definition, application arguments]
  | .pointer base => .fields [.word 6, .word base]
  | .borrow capability referent => .fields [.word 7, borrowCapability capability, .word referent]
  | .future output => .fields [.word 8, .word output]
  | .slice element => .fields [.word 9, .word element]
  | .fixedArray element length => .fields [.word 10, .word element, usizeTerm length]
  | .tuple elements => .fields [.word 11, ofList OrderKeys.word elements.asSlice]
  | .packEntry key value => .fields [.word 12, .word key, .word value]
  | .closure definition arguments => .fields [.word 13, .word definition, application arguments]
  | .callable ty => .fields [.word 14, representation ty.representation, contract ty.contract]
  | .optional payload => .fields [.word 15, .word payload]
  | .fallible payload => .fields [.word 16, .word payload]

namespace OrderKeys

theorem word_injective : Function.Injective word := fun _ _ h => OrderKey.word.inj h

theorem usizeTerm_injective : Function.Injective usizeTerm := by
  intro a b h
  cases a <;> cases b <;> simp_all [usizeTerm, UInt64.toNat_inj]

theorem genericValue_injective : Function.Injective genericValue := by
  intro a b h
  cases a <;> cases b <;> simp_all [genericValue, usizeTerm_injective.eq_iff]

theorem application_injective : Function.Injective application := by
  intro a b h
  have := ofList_injective genericValue_injective h
  cases a
  cases b
  simp_all

theorem argumentPack_injective : Function.Injective argumentPack := by
  intro a b h
  cases a <;> cases b <;> simp_all [argumentPack]

theorem provenanceSet_injective : Function.Injective provenanceSet := by
  intro a b h
  have := ofList_injective word_injective h
  cases a
  cases b
  simp_all

theorem constraint_injective : Function.Injective constraint := by
  intro a b h
  cases a
  cases b
  simp_all [constraint, provenanceSet_injective.eq_iff]

theorem inputProvenance_injective : Function.Injective inputProvenance := by
  intro a b h
  have := ofList_injective constraint_injective h
  cases a
  cases b
  simp_all

theorem borrowCapability_injective : Function.Injective borrowCapability := by
  intro a b h
  cases a <;> cases b <;> simp_all [borrowCapability]

theorem callableCapability_injective : Function.Injective callableCapability := by
  intro a b h
  cases a <;> cases b <;> simp_all [callableCapability]

theorem representation_injective : Function.Injective representation := by
  intro a b h
  cases a <;> cases b <;> simp_all [representation]

theorem guarantees_injective : Function.Injective guarantees := by
  rintro ⟨a, t, n, c⟩ ⟨a', t', n', c'⟩ h
  simp only [guarantees, OrderKey.fields.injEq, List.cons.injEq, and_true] at h
  obtain ⟨ha, ht, hn, hc⟩ := h
  have ha : a = a' := by cases a <;> cases a' <;> simp_all [allocation]
  have ht : t = t' := by cases t <;> cases t' <;> simp_all [trap]
  have hn : n = n' := by cases n <;> cases n' <;> simp_all [nonblocking]
  have hc : c = c' := by cases c <;> cases c' <;> simp_all [compileTime]
  rw [ha, ht, hn, hc]

theorem contract_injective : Function.Injective contract := by
  intro a b h
  cases a
  cases b
  simp only [contract, OrderKey.fields.injEq, List.cons.injEq, and_true, OrderKey.word.injEq,
    callableCapability_injective.eq_iff, guarantees_injective.eq_iff,
    (ofList_injective word_injective).eq_iff, (ofOption_injective argumentPack_injective).eq_iff,
    inputProvenance_injective.eq_iff, provenanceSet_injective.eq_iff] at h
  simp only [CallableContract.mk.injEq]
  exact h

theorem asSlice_injective : Function.Injective (TupleElements.asSlice (ρ := TypeId)) := by
  intro a b h
  cases a
  cases b
  simp_all [TupleElements.asSlice]

end OrderKeys

open OrderKeys in
theorem TypeKind.key_injective : Function.Injective TypeKind.key := by
  intro a b h
  cases a <;> cases b <;> simp only [TypeKind.key, OrderKey.fields.injEq, List.cons.injEq,
    OrderKey.word.injEq, Nat.reduceEqDiff, reduceCtorEq, and_true, true_and, false_and,
    BuiltinType.index_injective.eq_iff, application_injective.eq_iff,
    borrowCapability_injective.eq_iff, usizeTerm_injective.eq_iff,
    (ofList_injective word_injective).eq_iff, asSlice_injective.eq_iff,
    representation_injective.eq_iff, contract_injective.eq_iff] at h
  case callable.callable a b =>
    cases a
    cases b
    simp_all
  all_goals simp_all

instance : Ord (TypeKind TypeId) := derivedOrd TypeKind.key

instance : Std.TransOrd (TypeKind TypeId) := derivedOrd_trans TypeKind.key

instance : Std.LawfulEqOrd (TypeKind TypeId) :=
  derivedOrd_lawfulEq TypeKind.key TypeKind.key_injective

end Nocter.Model
