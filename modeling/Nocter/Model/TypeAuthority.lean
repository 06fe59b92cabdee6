import Nocter.Library.Word
import Nocter.Model.TypeStore

/-!
# The type store represents an interning table

`Represents` relates a store to the list of the kinds it interned: the vector
holds the list, the map inverts it, the properties are those of the terms, and
the list is a well-formed interning table. Interning either finds a kind of the
list or appends one.
-/

namespace Nocter.Model

open Interning Nocter.Persistent

/-- The kinds of a table of shared allocations. -/
abbrev kindsOf (table : List (Shared (TypeKind TypeId))) : List (TypeKind TypeId) :=
  table.map (·.value)

/-- The type each identity of a table names. -/
def termsOf (kinds : List (TypeKind TypeId)) : List TypeTerm :=
  meanings TypeKind.skeleton TypeKind.references kinds

namespace TypeStore

structure Represents (store : TypeStore) (table : List (Shared (TypeKind TypeId))) : Prop where
  kinds : store.kinds.Represents table
  properties : store.properties.Represents ((termsOf (kindsOf table)).map TypeTerm.properties)
  interned : store.interned.WellFormed
  internedLength : store.interned.len = table.length
  identity_iff : ∀ kind id, store.identity kind = some id ↔ (kindsOf table)[id]? = some kind
  wellFormed : WellFormed TypeKind.references (kindsOf table)

variable {store : TypeStore} {table : List (Shared (TypeKind TypeId))}

theorem Represents.get_eq (h : store.Represents table) (id : TypeId) :
    store.get id = (kindsOf table)[id]? := by
  rw [get, h.kinds.get_eq, List.getElem?_map]

theorem Represents.typeCount_eq (h : store.Represents table) : store.typeCount = table.length :=
  h.kinds.len_eq

theorem Represents.properties_get (h : store.Represents table) (id : TypeId) :
    store.properties.get id = ((termsOf (kindsOf table))[id]?).map TypeTerm.properties := by
  rw [h.properties.get_eq, List.getElem?_map]

theorem empty_represents (builtins : List TypeId) :
    (TypeStore.mk .empty .empty .empty builtins).Represents [] where
  kinds := PersistentVector.empty_represents
  properties := PersistentVector.empty_represents
  interned := PersistentMap.empty_wellFormed
  internedLength := rfl
  identity_iff kind id := by
    simp [identity, PersistentMap.get, PersistentMap.empty, MapNode.get]
  wellFormed := wellFormed_nil

/-- The unfolding of a kind whose references are all known. -/
theorem decode_children {kinds : List (TypeKind TypeId)} {kind : TypeKind TypeId}
    (fallback : TypeTerm) (hrefs : ∀ r ∈ kind.references, r < kinds.length) :
    kind.references.filterMap ((termsOf kinds)[·]?) =
      kind.references.map fun r => ((termsOf kinds)[r]?).getD fallback := by
  have hsome := filterMap_getElem?_eq (termsOf kinds) kind.references
    fun r hr => by rw [termsOf, meanings_length]; exact hrefs r hr
  have hget := congrArg (List.map fun term : Option TypeTerm => term.getD fallback) hsome
  rw [List.map_map, List.map_map] at hget
  rw [← List.map_id (kind.references.filterMap _)]
  exact hget

theorem Represents.forKind (h : store.Represents table) {kind : TypeKind TypeId}
    (hrefs : ∀ r ∈ kind.references, r < table.length) :
    TypeProperties.forKind store.properties.get kind =
      some (TypeTerm.properties
        (decode TypeKind.skeleton TypeKind.references (termsOf (kindsOf table)) kind)) := by
  have hkinds : ∀ r ∈ kind.references, r < (kindsOf table).length := by
    intro r hr
    rw [List.length_map]
    exact hrefs r hr
  refine forKind_eq (decode_children (.node (.builtin .bool) []) hkinds) fun r hr => ?_
  have hr' : r < (termsOf (kindsOf table)).length := by
    rw [termsOf, meanings_length]
    exact hkinds r hr
  rw [h.properties_get, List.getElem?_eq_getElem hr']
  rfl

/-- Appending a kind that is not in the table. -/
theorem Represents.insertKnown (h : store.Represents table) (address : ℕ) (kind : TypeKind TypeId)
    (hrefs : ∀ r ∈ kind.references, r < table.length) (hnew : kind ∉ kindsOf table) :
    ∃ store', store.insertKnown address kind = some (table.length, store') ∧
      store'.Represents (table ++ [⟨address, kind⟩]) ∧ store'.builtins = store.builtins := by
  have habsent : store.interned.get kind = none := by
    cases hget : store.interned.get kind with
    | none => rfl
    | some id =>
      exact absurd (List.mem_of_getElem? ((h.identity_iff kind id).mp hget)) hnew
  obtain ⟨kinds, hpushKinds, hkinds⟩ := h.kinds.push ⟨address, kind⟩
  obtain ⟨properties, hpushProperties, hproperties⟩ := h.properties.push (TypeTerm.properties
    (decode TypeKind.skeleton TypeKind.references (termsOf (kindsOf table)) kind))
  obtain ⟨interned, hinsert, hinterned, hlen, hgetIff⟩ :=
    h.interned.insertAbsent table.length habsent
  have hkindsOf : kindsOf (table ++ [⟨address, kind⟩]) = kindsOf table ++ [kind] := by
    rw [kindsOf, List.map_append, List.map_singleton]
  have htermsOf : termsOf (kindsOf (table ++ [⟨address, kind⟩])) = termsOf (kindsOf table) ++
      [decode TypeKind.skeleton TypeKind.references (termsOf (kindsOf table)) kind] := by
    rw [hkindsOf, termsOf, meanings_concat, ← termsOf]
  have hlength : interned.len = kinds.len ∧ properties.len = kinds.len := by
    rw [hlen, hkinds.len_eq, hproperties.len_eq, h.internedLength]
    simp [termsOf]
  refine ⟨{ store with kinds, properties, interned }, ?_, ?_, rfl⟩
  · simp [TypeStore.insertKnown, h.forKind hrefs, hpushKinds, hpushProperties, hinsert, hlength,
      guard, h.kinds.len_eq]
  · refine ⟨hkinds, ?_, hinterned, ?_, fun other id => ?_, ?_⟩
    · rw [htermsOf, List.map_append]
      exact hproperties
    · rw [hlen, h.internedLength, List.length_append, List.length_singleton]
    · have hold := h.identity_iff other id
      rw [identity] at hold ⊢
      rw [hgetIff, hold, hkindsOf]
      rcases lt_trichotomy id table.length with hlt | rfl | hgt
      · rw [List.getElem?_append_left (by simpa using hlt)]
        exact ⟨fun hor => hor.resolve_right fun hlast => hlt.ne hlast.2, .inl⟩
      · rw [List.getElem?_append_right (by simp), List.getElem?_eq_none (by simp)]
        simp [eq_comm]
      · rw [List.getElem?_eq_none (by simpa using hgt.le),
          List.getElem?_eq_none (by simpa using Nat.succ_le_of_lt hgt)]
        constructor
        · rintro (hnone | hlast)
          · cases hnone
          · exact absurd hlast.2 hgt.ne'
        · exact fun hnone => by cases hnone
    · rw [hkindsOf]
      exact h.wellFormed.concat (by simpa using hrefs) hnew

theorem Represents.get_isNone_iff (h : store.Represents table) (id : TypeId) :
    (store.get id).isNone = true ↔ table.length ≤ id := by
  rw [h.get_eq, Option.isNone_iff_eq_none, List.getElem?_eq_none_iff, List.length_map]

/-- Everything `intern_branch` can do. -/
theorem Represents.internBranch (h : store.Represents table) (address : ℕ)
    (kind : TypeKind TypeId) :
    (∃ invalid ∈ kind.references, table.length ≤ invalid ∧
      store.internBranch address kind = some (.error ⟨invalid⟩, store)) ∨
    ((∀ r ∈ kind.references, r < table.length) ∧
      ((∃ id, (kindsOf table)[id]? = some kind ∧
        store.internBranch address kind = some (.ok id, store)) ∨
      (kind ∉ kindsOf table ∧ ∃ store', store.internBranch address kind =
        some (.ok table.length, store') ∧ store'.Represents (table ++ [⟨address, kind⟩]) ∧
        store'.builtins = store.builtins))) := by
  rw [TypeStore.internBranch]
  cases hfind : kind.references.find? fun referenced => (store.get referenced).isNone with
  | some invalid =>
    left
    exact ⟨invalid, List.mem_of_find?_eq_some hfind, (h.get_isNone_iff invalid).mp
        (List.find?_some (p := fun referenced => (store.get referenced).isNone) hfind), rfl⟩
  | none =>
    right
    have hrefs : ∀ r ∈ kind.references, r < table.length := by
      intro r hr
      have hknown := List.find?_eq_none.mp hfind r hr
      rw [h.get_isNone_iff] at hknown
      exact not_le.mp hknown
    refine ⟨hrefs, ?_⟩
    cases hget : store.interned.get kind with
    | some id => exact .inl ⟨id, (h.identity_iff kind id).mp hget, rfl⟩
    | none =>
      right
      have hnew : kind ∉ kindsOf table := by
        intro hmem
        obtain ⟨id, hid⟩ := List.getElem?_of_mem hmem
        rw [← h.identity_iff, identity, hget] at hid
        cases hid
      obtain ⟨store', hinsert, hrepresents, hbuiltins⟩ := h.insertKnown address kind hrefs hnew
      exact ⟨hnew, store', by rw [hinsert]; rfl, hrepresents, hbuiltins⟩

/-- Consecutive addresses for the kinds of a list. -/
def allocate (address : ℕ) : List (TypeKind TypeId) → List (Shared (TypeKind TypeId))
  | [] => []
  | kind :: kinds => ⟨address, kind⟩ :: allocate (address + 1) kinds

/-- The array slot of every builtin holds its identity. -/
def BuiltinsUpTo (store : TypeStore) (count : ℕ) : Prop :=
  ∀ index < count, store.builtins[index]? = some index

theorem Represents.insertBuiltins (rest : List BuiltinType) (address : ℕ)
    (h : store.Represents table) (hrest : rest.Nodup)
    (hnew : ∀ primitive ∈ rest, .builtin primitive ∉ kindsOf table)
    (hslots : store.BuiltinsUpTo table.length)
    (hlength : store.builtins.length = table.length + rest.length) :
    ∃ store', store.insertBuiltins address (rest.zipIdx table.length) = some store' ∧
      store'.Represents (table ++ allocate address (rest.map .builtin)) ∧
      store'.BuiltinsUpTo (table.length + rest.length) := by
  induction rest generalizing address store table with
  | nil => exact ⟨store, rfl, by simpa [allocate] using h, hslots⟩
  | cons primitive rest ih =>
    rw [List.nodup_cons] at hrest
    obtain ⟨store₁, hinsert, hrepresents, hbuiltins⟩ := h.insertKnown address
      (.builtin primitive) (fun r hr => by simp [TypeKind.references] at hr)
      (hnew primitive List.mem_cons_self)
    let store₂ : TypeStore :=
      { store₁ with builtins := store₁.builtins.set table.length table.length }
    have hstore₂ : store₂.Represents (table ++ [Shared.mk address (TypeKind.builtin primitive)]) :=
      ⟨hrepresents.kinds, hrepresents.properties, hrepresents.interned,
        hrepresents.internedLength, hrepresents.identity_iff, hrepresents.wellFormed⟩
    have htable : (table ++ [Shared.mk address (TypeKind.builtin primitive)]).length =
        table.length + 1 := by simp
    have hnew₂ : ∀ other ∈ rest,
        .builtin other ∉ kindsOf (table ++ [Shared.mk address (TypeKind.builtin primitive)]) := by
      intro other hother hmem
      rw [kindsOf, List.map_append, List.mem_append] at hmem
      rcases hmem with hmem | hmem
      · exact hnew other (List.mem_cons_of_mem primitive hother) hmem
      · rw [List.map_singleton, List.mem_singleton, TypeKind.builtin.injEq] at hmem
        exact hrest.1 (hmem ▸ hother)
    have hslots₂ : store₂.BuiltinsUpTo
        (table ++ [Shared.mk address (TypeKind.builtin primitive)]).length := by
      intro index hindex
      rw [htable] at hindex
      change (store₁.builtins.set table.length table.length)[index]? = _
      rw [hbuiltins]
      by_cases heq : table.length = index
      · subst heq
        rw [List.length_cons] at hlength
        exact List.getElem?_set_self (by omega)
      · rw [List.getElem?_set_ne heq]
        exact hslots index (by omega)
    have hlength₂ : store₂.builtins.length =
        (table ++ [Shared.mk address (TypeKind.builtin primitive)]).length + rest.length := by
      change (store₁.builtins.set table.length table.length).length = _
      rw [List.length_set, hbuiltins, hlength, htable, List.length_cons]
      omega
    obtain ⟨store', hrun, hfinal, hfinalSlots⟩ :=
      ih (address + 1) hstore₂ hrest.2 hnew₂ hslots₂ hlength₂
    rw [htable] at hrun hfinalSlots
    refine ⟨store', ?_, ?_, ?_⟩
    · rw [List.zipIdx_cons, TypeStore.insertBuiltins, hinsert]
      exact hrun
    · rw [List.append_assoc] at hfinal
      exact hfinal
    · rw [List.length_cons, Nat.add_comm rest.length, ← Nat.add_assoc]
      exact hfinalSlots

/-- The table of a new store: the builtins in declaration order. -/
def builtinTable (address : ℕ) : List (Shared (TypeKind TypeId)) :=
  allocate address (BuiltinType.all.map .builtin)

theorem new_represents (address : ℕ) : ∃ store, TypeStore.new address = some store ∧
    store.Represents (builtinTable address) ∧ store.BuiltinsUpTo BuiltinType.all.length := by
  obtain ⟨store, hrun, hrepresents, hslots⟩ := (empty_represents
    (List.replicate BuiltinType.all.length 0)).insertBuiltins BuiltinType.all address
    (by decide) (fun _ _ hmem => by simp at hmem) (fun index hindex => by simp at hindex)
    (by simp)
  rw [List.nil_append] at hrepresents
  rw [List.length_nil, Nat.zero_add] at hslots
  exact ⟨store, hrun, hrepresents, hslots⟩

end TypeStore

end Nocter.Model

/-!
# Type authorities and transactions

Stores are only extended through a transaction opened on an authority. A world
holds every live authority, transaction and store snapshot together with the
two global counters: the next allocation and the next authority identity. An
operation that names no holder of the right kind does nothing.
-/

namespace Nocter.Model

open Nocter.Persistent

structure TypeAuthority where
  store : TypeStore
  identity : ℕ

structure TypeTransaction where
  base : ℕ
  branch : TypeStore

def TypeAuthority.transaction (authority : TypeAuthority) : TypeTransaction :=
  ⟨authority.identity, authority.store⟩

namespace TypeTransaction

def intern (address : ℕ) (transaction : TypeTransaction) (kind : TypeKind TypeId) :
    Option (Except UnknownTypeId TypeId × TypeTransaction) := do
  let (result, branch) ← transaction.branch.internBranch address kind
  some (result, { transaction with branch })

def isBasedOn (transaction : TypeTransaction) (authority : TypeAuthority) : Bool :=
  transaction.base == authority.identity

def freeze (identity : ℕ) (transaction : TypeTransaction) : TypeAuthority :=
  ⟨transaction.branch, identity⟩

end TypeTransaction

inductive TypeHolder where
  | authority (authority : TypeAuthority)
  | transaction (transaction : TypeTransaction)
  | store (store : TypeStore)

def TypeHolder.types : TypeHolder → TypeStore
  | .authority owner => owner.store
  | .transaction branch => branch.branch
  | .store snapshot => snapshot

structure TypeWorld where
  holders : List TypeHolder
  nextAddress : ℕ
  nextIdentity : ℕ

inductive TypeOperation where
  | newStore
  | newAuthority
  | clone (holder : ℕ)
  | snapshot (holder : ℕ)
  | transaction (authority : ℕ)
  | intern (transaction : ℕ) (kind : TypeKind TypeId)
  | commit (transaction base : ℕ)
  | freeze (transaction : ℕ)
  | intoStore (authority : ℕ)
  | drop (holder : ℕ)

namespace TypeWorld

def empty : TypeWorld := ⟨[], 0, 1⟩

/-- `TypeAuthorityIdentity::fresh`; an exhausted counter panics. -/
def freshIdentity (world : TypeWorld) : Option (ℕ × TypeWorld) := do
  let next ← checkedAdd u64Max world.nextIdentity 1
  some (world.nextIdentity, { world with nextIdentity := next })

/-- `TypeStore::new`, which allocates every builtin kind. -/
def freshStore (world : TypeWorld) : Option (TypeStore × TypeWorld) := do
  let store ← TypeStore.new world.nextAddress
  some (store, { world with nextAddress := world.nextAddress + BuiltinType.all.length })

def add (world : TypeWorld) (holder : TypeHolder) : TypeWorld :=
  { world with holders := world.holders ++ [holder] }

def replace (world : TypeWorld) (index : ℕ) (holder : TypeHolder) : TypeWorld :=
  { world with holders := world.holders.set index holder }

def remove (world : TypeWorld) (index : ℕ) : TypeWorld :=
  { world with holders := world.holders.eraseIdx index }

def apply (world : TypeWorld) : TypeOperation → Option TypeWorld
  | .newStore => do
    let (store, world) ← world.freshStore
    some (world.add (.store store))
  | .newAuthority => do
    let (store, world) ← world.freshStore
    let (identity, world) ← world.freshIdentity
    some (world.add (.authority ⟨store, identity⟩))
  | .clone index =>
    match world.holders[index]? with
    | some (.authority owner) => some (world.add (.authority owner))
    | some (.store types) => some (world.add (.store types))
    | _ => some world
  | .snapshot index =>
    match world.holders[index]? with
    | some holder => some (world.add (.store holder.types))
    | none => some world
  | .transaction index =>
    match world.holders[index]? with
    | some (.authority owner) => some (world.add (.transaction owner.transaction))
    | _ => some world
  | .intern index kind =>
    match world.holders[index]? with
    | some (.transaction branch) => do
      let (_, branch) ← branch.intern world.nextAddress kind
      let world := world.replace index (.transaction branch)
      some { world with nextAddress := world.nextAddress + 1 }
    | _ => some world
  | .commit index base =>
    match world.holders[index]?, world.holders[base]? with
    | some (.transaction branch), some (.authority owner) =>
      -- a stale transaction is consumed as well
      if branch.isBasedOn owner then do
        let (identity, world) ← world.freshIdentity
        some (world.replace index (.authority (branch.freeze identity)))
      else some (world.remove index)
    | _, _ => some world
  | .freeze index =>
    match world.holders[index]? with
    | some (.transaction branch) => do
      let (identity, world) ← world.freshIdentity
      some (world.replace index (.authority (branch.freeze identity)))
    | _ => some world
  | .intoStore index =>
    match world.holders[index]? with
    | some (.authority owner) => some (world.replace index (.store owner.store))
    | _ => some world
  | .drop index => some (world.remove index)

def stores (world : TypeWorld) : Set TypeStore :=
  {store | ∃ holder ∈ world.holders, holder.types = store}

end TypeWorld

end Nocter.Model
