import Nocter.Library.PrefixOrder
import Nocter.Library.TransitionSystem
import Nocter.Model.TypeAuthority

/-!
# Runs over type authorities

Every store of every reachable world represents an interning table, and the
tables form a family of append-only logs. So identities decide structural
equality inside one store, and one shared allocation means a shared prefix
between two stores.
-/

namespace Nocter.Model

open Interning Nocter.Persistent TransitionSystem

namespace TypeStore

/-- The shared kinds in identity order. -/
def table (store : TypeStore) : List (Shared (TypeKind TypeId)) :=
  (List.range store.typeCount).filterMap store.kinds.get

/-- The type an identity names. -/
def typeOf (store : TypeStore) (id : TypeId) : Option TypeTerm :=
  (termsOf (kindsOf store.table))[id]?

variable {store : TypeStore} {entries : List (Shared (TypeKind TypeId))}

theorem Represents.table_eq (h : store.Represents entries) : store.table = entries := by
  have hget : store.kinds.get = fun id => entries[id]? := funext h.kinds.get_eq
  rw [table, h.typeCount_eq, hget]
  have hsome := filterMap_getElem?_eq entries (List.range entries.length)
    fun r hr => List.mem_range.mp hr
  have hlist : (List.range entries.length).map (entries[·]?) = entries.map some := by
    refine List.ext_getElem? fun i => ?_
    rw [List.getElem?_map, List.getElem?_map]
    by_cases hi : i < entries.length
    · rw [List.getElem?_range hi, Option.map_some, List.getElem?_eq_getElem hi, Option.map_some]
    · rw [List.getElem?_eq_none (by simpa using hi), List.getElem?_eq_none (by simpa using hi)]
      rfl
  rw [hlist] at hsome
  exact (Option.some_injective _).list_map hsome

/-- The store stands for its own table and its builtins are in place. -/
structure Valid (store : TypeStore) : Prop where
  represents : store.Represents store.table
  builtins : store.BuiltinsUpTo BuiltinType.all.length
  declared : (BuiltinType.all.map .builtin) <+: kindsOf store.table

theorem Represents.valid (h : store.Represents entries)
    (hbuiltins : store.BuiltinsUpTo BuiltinType.all.length)
    (hdeclared : (BuiltinType.all.map .builtin) <+: kindsOf entries) : store.Valid := by
  refine ⟨?_, hbuiltins, ?_⟩
  · rw [h.table_eq]
    exact h
  · rw [h.table_eq]
    exact hdeclared

theorem kindsOf_allocate (address : ℕ) (kinds : List (TypeKind TypeId)) :
    kindsOf (allocate address kinds) = kinds := by
  induction kinds generalizing address with
  | nil => rfl
  | cons kind kinds ih => rw [allocate, kindsOf, List.map_cons, ← kindsOf, ih]

theorem new_valid {address : ℕ} (h : TypeStore.new address = some store) :
    store.Valid ∧ store.table = builtinTable address := by
  obtain ⟨store', hrun, hrepresents, hslots⟩ := new_represents address
  obtain rfl : store = store' := Option.some.inj (h.symm.trans hrun)
  refine ⟨hrepresents.valid hslots ?_, hrepresents.table_eq⟩
  rw [builtinTable, kindsOf_allocate]

theorem Valid.builtin_eq (h : store.Valid) (primitive : BuiltinType) :
    store.builtin primitive = some primitive.index ∧
      store.get primitive.index = some (.builtin primitive) := by
  have hlt : primitive.index < BuiltinType.all.length :=
    (List.getElem?_eq_some_iff.mp (BuiltinType.all_getElem?_index primitive)).1
  refine ⟨h.builtins primitive.index hlt, ?_⟩
  obtain ⟨rest, hrest⟩ := h.declared
  rw [h.represents.get_eq, ← hrest, List.getElem?_append_left (by simpa using hlt),
    List.getElem?_map, BuiltinType.all_getElem?_index]
  rfl

/-- Interning keeps the store valid and its table a prefix. -/
theorem Valid.internBranch (h : store.Valid) (address : ℕ) (kind : TypeKind TypeId) :
    ∃ result store', store.internBranch address kind = some (result, store') ∧ store'.Valid ∧
      (store' = store ∨ store'.table = store.table ++ [⟨address, kind⟩]) ∧
      ((∃ invalid ∈ kind.references, store.typeCount ≤ invalid ∧ result = .error ⟨invalid⟩) ∨
        ((∀ r ∈ kind.references, r < store.typeCount) ∧
          ∃ id, result = .ok id ∧ store'.get id = some kind)) := by
  have hcount := h.represents.typeCount_eq
  rcases h.represents.internBranch address kind with
    ⟨invalid, hmem, hge, hrun⟩ | ⟨hrefs, ⟨id, hid, hrun⟩ | ⟨hnew, store', hrun, hstore', hslots⟩⟩
  · exact ⟨_, store, hrun, h, .inl rfl, .inl ⟨invalid, hmem, hcount ▸ hge, rfl⟩⟩
  · exact ⟨_, store, hrun, h, .inl rfl,
      .inr ⟨hcount ▸ hrefs, id, rfl, by rw [h.represents.get_eq, hid]⟩⟩
  · have hkinds : kindsOf (store.table ++ [⟨address, kind⟩]) = kindsOf store.table ++ [kind] := by
      rw [kindsOf, List.map_append, List.map_singleton]
    refine ⟨_, store', hrun, hstore'.valid ?_ ?_, .inr hstore'.table_eq,
      .inr ⟨hcount ▸ hrefs, store.table.length, rfl, ?_⟩⟩
    · rw [BuiltinsUpTo, hslots]
      exact h.builtins
    · rw [hkinds]
      exact h.declared.trans (List.prefix_append _ _)
    · rw [hstore'.get_eq, hkinds, ← List.length_map (f := (·.value)),
        List.getElem?_concat_length]

theorem Valid.get_eq (h : store.Valid) (id : TypeId) :
    store.get id = (kindsOf store.table)[id]? := h.represents.get_eq id

/-- Identities below the count name types, and only those. -/
theorem Valid.typeOf_isSome (h : store.Valid) {id : TypeId} :
    (store.typeOf id).isSome = true ↔ id < store.typeCount := by
  rw [typeOf, h.represents.typeCount_eq, Option.isSome_iff_ne_none, Ne, List.getElem?_eq_none_iff,
    termsOf, meanings_length, List.length_map, not_le]

theorem Valid.typeOf_node (h : store.Valid) {id : TypeId} {kind : TypeKind TypeId}
    (hget : store.get id = some kind) :
    ∃ children, store.typeOf id = some (.node kind.skeleton children) ∧
      children.map some = kind.references.map store.typeOf := by
  rw [h.get_eq] at hget
  have hmeaning := h.represents.wellFormed.meaning_eq TypeKind.skeleton hget
  refine ⟨_, hmeaning, filterMap_getElem?_eq _ _ fun r hr => ?_⟩
  rw [meanings_length]
  have hid := (List.getElem?_eq_some_iff.mp hget).1
  exact (h.represents.wellFormed.earlier id kind hget r hr).trans hid

theorem Valid.eq_iff_typeOf_eq (h : store.Valid) {a b : TypeId} (ha : a < store.typeCount) :
    a = b ↔ store.typeOf a = store.typeOf b := by
  refine h.represents.wellFormed.eq_iff_meaning_eq TypeKind.faithful ?_
  rw [List.length_map, ← h.represents.typeCount_eq]
  exact ha

theorem Valid.properties_eq (h : store.Valid) {id : TypeId} {term : TypeTerm}
    (hterm : store.typeOf id = some term) : store.isConcrete id = some term.concrete ∧
      store.mayCarryStorage id = term.mayCarryStorage := by
  rw [typeOf] at hterm
  rw [isConcrete, mayCarryStorage, h.represents.properties_get, hterm]
  exact ⟨rfl, rfl⟩

end TypeStore

namespace TypeWorld

/-- Every run over authorities, transactions and snapshots. -/
def runs : TransitionSystem TypeWorld := ofPartial empty apply

/-- What an operation does to the stores of a world. -/
def StoreStep (world world' : TypeWorld) : Prop :=
  (world'.stores ⊆ world.stores ∧ world'.nextAddress = world.nextAddress) ∨
  (∃ store, TypeStore.new world.nextAddress = some store ∧
    world'.stores ⊆ insert store world.stores ∧
    world'.nextAddress = world.nextAddress + BuiltinType.all.length) ∨
  (∃ store ∈ world.stores, ∃ kind result store',
    store.internBranch world.nextAddress kind = some (result, store') ∧
    world'.stores ⊆ insert store' world.stores ∧ world'.nextAddress = world.nextAddress + 1)

variable {world world' : TypeWorld}

theorem stores_add (world : TypeWorld) (holder : TypeHolder) :
    (world.add holder).stores ⊆ insert holder.types world.stores := by
  rintro store ⟨other, hmem, rfl⟩
  rcases List.mem_append.mp hmem with hmem | hmem
  · exact Set.mem_insert_of_mem _ ⟨other, hmem, rfl⟩
  · rw [List.mem_singleton.mp hmem]
    exact Set.mem_insert _ _

theorem stores_replace (world : TypeWorld) (index : ℕ) (holder : TypeHolder) :
    (world.replace index holder).stores ⊆ insert holder.types world.stores := by
  rintro store ⟨other, hmem, rfl⟩
  rcases List.mem_or_eq_of_mem_set hmem with hmem | rfl
  · exact Set.mem_insert_of_mem _ ⟨other, hmem, rfl⟩
  · exact Set.mem_insert _ _

theorem stores_remove (world : TypeWorld) (index : ℕ) :
    (world.remove index).stores ⊆ world.stores := by
  rintro store ⟨other, hmem, rfl⟩
  exact ⟨other, List.mem_of_mem_eraseIdx hmem, rfl⟩

theorem types_mem_stores {index : ℕ} {holder : TypeHolder}
    (h : world.holders[index]? = some holder) : holder.types ∈ world.stores :=
  ⟨holder, List.mem_of_getElem? h, rfl⟩

theorem insert_subset_of_mem {store : TypeStore} (h : store ∈ world.stores) :
    insert store world.stores ⊆ world.stores :=
  Set.insert_subset h subset_rfl

theorem freshIdentity_eq {fresh : ℕ × TypeWorld} (h : world.freshIdentity = some fresh) :
    fresh.2.holders = world.holders ∧ fresh.2.nextAddress = world.nextAddress := by
  rw [freshIdentity] at h
  obtain ⟨next, _, heq⟩ := Option.bind_eq_some_iff.mp h
  cases heq
  exact ⟨rfl, rfl⟩

theorem freshStore_eq {fresh : TypeStore × TypeWorld} (h : world.freshStore = some fresh) :
    TypeStore.new world.nextAddress = some fresh.1 ∧ fresh.2.holders = world.holders ∧
      fresh.2.nextAddress = world.nextAddress + BuiltinType.all.length := by
  rw [freshStore] at h
  obtain ⟨store, hnew, heq⟩ := Option.bind_eq_some_iff.mp h
  cases heq
  exact ⟨hnew, rfl, rfl⟩

theorem stores_congr (h : world'.holders = world.holders) : world'.stores = world.stores := by
  rw [stores, stores, h]

/-- Handing over or dropping a store that is already held. -/
theorem StoreStep.of_mem (holder : TypeHolder) (hmem : holder.types ∈ world.stores)
    (hstores : world'.stores ⊆ insert holder.types world.stores)
    (haddress : world'.nextAddress = world.nextAddress) : StoreStep world world' :=
  .inl ⟨hstores.trans (insert_subset_of_mem hmem), haddress⟩

theorem StoreStep.refl (world : TypeWorld) : StoreStep world world := .inl ⟨subset_rfl, rfl⟩

/-- Adding a holder after fetching an identity, over a world with the same holders. -/
theorem StoreStep.of_fresh {fresh : ℕ × TypeWorld} {index : ℕ} (holder : TypeHolder)
    (hmem : holder.types ∈ world.stores) (hfresh : world.freshIdentity = some fresh) :
    StoreStep world (fresh.2.replace index holder) := by
  obtain ⟨hholders, haddress⟩ := freshIdentity_eq hfresh
  refine .of_mem holder hmem ?_ haddress
  rw [← stores_congr hholders]
  exact stores_replace _ _ _

theorem apply_storeStep {op : TypeOperation} (h : world.apply op = some world') :
    StoreStep world world' := by
  cases op with
  | newStore =>
    rw [apply] at h
    obtain ⟨fresh, hfresh, heq⟩ := Option.bind_eq_some_iff.mp h
    cases heq
    obtain ⟨hnew, hholders, haddress⟩ := freshStore_eq hfresh
    refine .inr (.inl ⟨fresh.1, hnew, ?_, haddress⟩)
    rw [← stores_congr hholders]
    exact stores_add _ _
  | newAuthority =>
    rw [apply] at h
    obtain ⟨fresh, hfresh, hrest⟩ := Option.bind_eq_some_iff.mp h
    obtain ⟨identity, hidentity, heq⟩ := Option.bind_eq_some_iff.mp hrest
    cases heq
    obtain ⟨hnew, hholders, haddress⟩ := freshStore_eq hfresh
    obtain ⟨hholders', haddress'⟩ := freshIdentity_eq hidentity
    refine .inr (.inl ⟨fresh.1, hnew, ?_, haddress'.trans haddress⟩)
    rw [← stores_congr (hholders'.trans hholders)]
    exact stores_add _ _
  | clone index =>
    rw [apply] at h
    rcases hholder : world.holders[index]? with _ | (owner | branch | types) <;>
      rw [hholder] at h <;> cases h
    · exact StoreStep.refl world
    · exact .of_mem _ (types_mem_stores hholder :) (stores_add _ _) rfl
    · exact StoreStep.refl world
    · exact .of_mem _ (types_mem_stores hholder :) (stores_add _ _) rfl
  | snapshot index =>
    rw [apply] at h
    rcases hholder : world.holders[index]? with _ | holder <;> rw [hholder] at h <;> cases h
    · exact StoreStep.refl world
    · exact .of_mem (.store holder.types) (types_mem_stores hholder :) (stores_add _ _) rfl
  | transaction index =>
    rw [apply] at h
    rcases hholder : world.holders[index]? with _ | (owner | branch | types) <;>
      rw [hholder] at h <;> cases h
    · exact StoreStep.refl world
    · exact .of_mem (.transaction owner.transaction) (types_mem_stores hholder :)
        (stores_add _ _) rfl
    · exact StoreStep.refl world
    · exact StoreStep.refl world
  | intern index kind =>
    rw [apply] at h
    rcases hholder : world.holders[index]? with _ | (owner | branch | types) <;> rw [hholder] at h
    case some.transaction =>
      obtain ⟨pair, hintern, heq⟩ := Option.bind_eq_some_iff.mp h
      cases heq
      obtain ⟨⟨result, store'⟩, hbranch, heq⟩ := Option.bind_eq_some_iff.mp hintern
      cases heq
      exact .inr (.inr ⟨branch.branch, types_mem_stores hholder, kind, result, store', hbranch,
        stores_replace _ _ _, rfl⟩)
    all_goals
      cases h
      exact StoreStep.refl world
  | commit index base =>
    rw [apply] at h
    rcases hholder : world.holders[index]? with _ | (owner | branch | types) <;> rw [hholder] at h
    case some.transaction =>
      rcases hbase : world.holders[base]? with _ | (owner | other | types) <;> rw [hbase] at h
      case some.authority =>
        dsimp only at h
        split at h
        · obtain ⟨fresh, hfresh, heq⟩ := Option.bind_eq_some_iff.mp h
          cases heq
          exact .of_fresh (.authority (branch.freeze fresh.1)) (types_mem_stores hholder :) hfresh
        · cases h
          exact .inl ⟨stores_remove _ _, rfl⟩
      all_goals
        cases h
        exact StoreStep.refl world
    all_goals
      cases h
      exact StoreStep.refl world
  | freeze index =>
    rw [apply] at h
    rcases hholder : world.holders[index]? with _ | (owner | branch | types) <;> rw [hholder] at h
    case some.transaction =>
      obtain ⟨fresh, hfresh, heq⟩ := Option.bind_eq_some_iff.mp h
      cases heq
      exact .of_fresh (.authority (branch.freeze fresh.1)) (types_mem_stores hholder :) hfresh
    all_goals
      cases h
      exact StoreStep.refl world
  | intoStore index =>
    rw [apply] at h
    rcases hholder : world.holders[index]? with _ | (owner | branch | types) <;>
      rw [hholder] at h <;> cases h
    · exact StoreStep.refl world
    · exact .of_mem (.store owner.store) (types_mem_stores hholder :) (stores_replace _ _ _) rfl
    · exact StoreStep.refl world
    · exact StoreStep.refl world
  | drop index =>
    cases h
    exact .inl ⟨stores_remove _ _, rfl⟩

/-- The tables of the live stores. -/
def tables (world : TypeWorld) : Set (List (Shared (TypeKind TypeId))) :=
  TypeStore.table '' world.stores

/-- Every store is valid and their tables share allocations only by sharing
prefixes. -/
structure Valid (world : TypeWorld) : Prop where
  store : ∀ store ∈ world.stores, store.Valid
  coherent : PrefixCoherent Shared.address world.nextAddress world.tables

theorem valid_empty : Valid empty := by
  have hstores : empty.stores = ∅ := by
    ext store
    simp [stores, empty]
  refine ⟨fun store hstore => ?_, ?_⟩
  · rw [hstores] at hstore
    exact hstore.elim
  · rw [tables, hstores, Set.image_empty]
    exact PrefixCoherent.empty

/-- A log of consecutively allocated entries joins the family. -/
theorem coherent_allocate {logs : Set (List (Shared (TypeKind TypeId)))} {bound : ℕ}
    {log : List (Shared (TypeKind TypeId))} (kinds : List (TypeKind TypeId))
    (h : PrefixCoherent Shared.address bound logs) (hlog : log ∈ logs) :
    PrefixCoherent Shared.address (bound + kinds.length)
      (insert (log ++ TypeStore.allocate bound kinds) logs) := by
  induction kinds generalizing bound log logs with
  | nil =>
    rw [TypeStore.allocate, List.append_nil, Set.insert_eq_of_mem hlog]
    exact h
  | cons kind kinds ih =>
    have hextended := h.extend ⟨bound, kind⟩ hlog rfl
    have hrest := ih hextended (Set.mem_insert _ _)
    rw [List.append_assoc] at hrest
    rw [List.length_cons, Nat.add_comm kinds.length, ← Nat.add_assoc]
    exact hrest.mono le_rfl (Set.insert_subset_insert (Set.subset_insert _ _))

theorem tables_insert {store : TypeStore} (h : world'.stores ⊆ insert store world.stores) :
    world'.tables ⊆ insert store.table world.tables := by
  rw [tables, tables, ← Set.image_insert_eq]
  exact Set.image_mono h

theorem Valid.next (h : world.Valid) (hstep : StoreStep world world') : world'.Valid := by
  rcases hstep with ⟨hstores, haddress⟩ | ⟨store, hnew, hstores, haddress⟩ |
    ⟨store, hstore, kind, result, store', hintern, hstores, haddress⟩
  · refine ⟨fun store hmem => h.store store (hstores hmem), ?_⟩
    rw [haddress]
    exact h.coherent.mono le_rfl (Set.image_mono hstores)
  · obtain ⟨hvalid, htable⟩ := TypeStore.new_valid hnew
    refine ⟨fun other hmem => ?_, ?_⟩
    · rcases Set.mem_insert_iff.mp (hstores hmem) with rfl | hmem
      · exact hvalid
      · exact h.store other hmem
    · have hcoherent := coherent_allocate (BuiltinType.all.map .builtin) h.coherent.insert_nil
        (Set.mem_insert _ _)
      rw [haddress, ← List.length_map]
      refine hcoherent.mono le_rfl ((tables_insert hstores).trans ?_)
      rw [htable]
      exact Set.insert_subset_insert (Set.subset_insert _ _)
  · obtain ⟨_, _, hrun, hvalid, htable, _⟩ := (h.store store hstore).internBranch
      world.nextAddress kind
    cases hintern.symm.trans hrun
    refine ⟨fun other hmem => ?_, ?_⟩
    · rcases Set.mem_insert_iff.mp (hstores hmem) with rfl | hmem
      · exact hvalid
      · exact h.store other hmem
    · have hmem : store.table ∈ world.tables := Set.mem_image_of_mem _ hstore
      rw [haddress]
      rcases htable with rfl | htable
      · refine h.coherent.mono (Nat.le_succ _) ((tables_insert hstores).trans ?_)
        exact Set.insert_subset hmem subset_rfl
      · refine (h.coherent.extend ⟨_, kind⟩ hmem rfl).mono le_rfl ((tables_insert hstores).trans ?_)
        rw [htable]

theorem valid_of_reachable (h : runs.Reachable world) : world.Valid := by
  refine h.invariant ?_ ?_
  · rintro world rfl
    exact valid_empty
  · rintro world world' hvalid ⟨op, hop⟩
    exact hvalid.next (apply_storeStep hop)

theorem freshStore_total (world : TypeWorld) : ∃ store, world.freshStore =
    some (store, { world with nextAddress := world.nextAddress + BuiltinType.all.length }) := by
  obtain ⟨store, hrun, _⟩ := TypeStore.new_represents world.nextAddress
  refine ⟨store, ?_⟩
  rw [freshStore, hrun]
  rfl

theorem freshIdentity_total (world : TypeWorld) (h : world.nextIdentity < u64Max) : world.freshIdentity =
    some (world.nextIdentity, { world with nextIdentity := world.nextIdentity + 1 }) := by
  have hadd : checkedAdd u64Max world.nextIdentity 1 = some (world.nextIdentity + 1) :=
    checkedAdd_eq_some.mpr ⟨h, rfl⟩
  rw [freshIdentity, hadd]
  rfl

/-- No operation of a valid world panics before the identities run out. -/
theorem Valid.apply_total (h : world.Valid) (hidentity : world.nextIdentity < u64Max)
    (op : TypeOperation) : ∃ world', world.apply op = some world' ∧
      world'.nextIdentity ≤ world.nextIdentity + 1 := by
  obtain ⟨store, hstore⟩ := freshStore_total world
  have hfresh := freshIdentity_total world hidentity
  cases op with
  | newStore =>
    rw [apply, hstore]
    exact ⟨_, rfl, Nat.le_succ _⟩
  | newAuthority =>
    rw [apply, hstore]
    have hfresh' := freshIdentity_total
      { world with nextAddress := world.nextAddress + BuiltinType.all.length } hidentity
    simp only [Option.bind_eq_bind, Option.bind_some, hfresh']
    exact ⟨_, rfl, le_rfl⟩
  | clone index =>
    rw [apply]
    rcases world.holders[index]? with _ | (owner | branch | types) <;> exact ⟨_, rfl, Nat.le_succ _⟩
  | snapshot index =>
    rw [apply]
    rcases world.holders[index]? with _ | holder <;> exact ⟨_, rfl, Nat.le_succ _⟩
  | transaction index =>
    rw [apply]
    rcases world.holders[index]? with _ | (owner | branch | types) <;> exact ⟨_, rfl, Nat.le_succ _⟩
  | intern index kind =>
    rw [apply]
    rcases hholder : world.holders[index]? with _ | (owner | branch | types)
    case some.transaction =>
      obtain ⟨result, store', hrun, _⟩ :=
        (h.store branch.branch (types_mem_stores hholder :)).internBranch world.nextAddress kind
      simp only [TypeTransaction.intern, hrun]
      exact ⟨_, rfl, Nat.le_succ _⟩
    all_goals exact ⟨_, rfl, Nat.le_succ _⟩
  | commit index base =>
    rw [apply]
    rcases world.holders[index]? with _ | (owner | branch | types)
    case some.transaction =>
      rcases world.holders[base]? with _ | (owner | other | types)
      case some.authority =>
        dsimp only
        split
        · rw [hfresh]
          exact ⟨_, rfl, le_rfl⟩
        · exact ⟨_, rfl, Nat.le_succ _⟩
      all_goals exact ⟨_, rfl, Nat.le_succ _⟩
    all_goals exact ⟨_, rfl, Nat.le_succ _⟩
  | freeze index =>
    rw [apply]
    rcases world.holders[index]? with _ | (owner | branch | types)
    case some.transaction =>
      rw [hfresh]
      exact ⟨_, rfl, le_rfl⟩
    all_goals exact ⟨_, rfl, Nat.le_succ _⟩
  | intoStore index =>
    rw [apply]
    rcases world.holders[index]? with _ | (owner | branch | types) <;> exact ⟨_, rfl, Nat.le_succ _⟩
  | drop index => exact ⟨_, rfl, Nat.le_succ _⟩

end TypeWorld

namespace TypeStore

/-- Identity, structure and cached properties of one store fit together. -/
structure Exact (store : TypeStore) : Prop where
  named : ∀ id, (store.typeOf id).isSome = true ↔ id < store.typeCount
  unfolds : ∀ id kind, store.get id = some kind → ∃ children,
    store.typeOf id = some (.node kind.skeleton children) ∧
      children.map some = kind.references.map store.typeOf
  decides : ∀ a b, a < store.typeCount → b < store.typeCount →
    (a = b ↔ store.typeOf a = store.typeOf b)
  properties : ∀ id term, store.typeOf id = some term →
    store.isConcrete id = some term.concrete ∧ store.mayCarryStorage id = term.mayCarryStorage
  interns : ∀ address kind, ∃ result store',
    store.internBranch address kind = some (result, store') ∧
      (∀ id < store.typeCount, store'.typeOf id = store.typeOf id) ∧
      ((∃ invalid ∈ kind.references, store.typeCount ≤ invalid ∧ result = .error ⟨invalid⟩) ∨
        ((∀ r ∈ kind.references, r < store.typeCount) ∧
          ∃ id, result = .ok id ∧ store'.get id = some kind))

/-- The identities below `count` mean the same in both stores. -/
def AgreesBelow (store other : TypeStore) (count : ℕ) : Prop :=
  ∀ id < count, store.get id = other.get id ∧ store.typeOf id = other.typeOf id ∧
    store.isConcrete id = other.isConcrete id ∧
    store.mayCarryStorage id = other.mayCarryStorage id

variable {store other : TypeStore} {count : ℕ}

/-- Tables with a common prefix agree on it in every respect. -/
theorem Valid.agreesBelow (h : store.Valid) (hother : other.Valid)
    (htake : store.table.take count = other.table.take count) : store.AgreesBelow other count := by
  intro id hid
  have hget : (kindsOf store.table)[id]? = (kindsOf other.table)[id]? := by
    rw [List.getElem?_map, List.getElem?_map, ← List.getElem?_take_of_lt hid, htake,
      List.getElem?_take_of_lt hid]
  have hterms : ∀ entries : List (Shared (TypeKind TypeId)),
      (termsOf (kindsOf entries))[id]? = (termsOf (kindsOf (entries.take count)))[id]? := by
    intro entries
    have hretained := meanings_prefix TypeKind.skeleton (ν := TypeKind TypeId) TypeKind.references
      (kindsOf (entries.take count)) (kindsOf (entries.drop count))
    rw [← List.map_append, List.take_append_drop] at hretained
    obtain ⟨rest, hrest⟩ := hretained
    rw [termsOf, ← hrest, termsOf]
    by_cases hlt : id < entries.length
    · rw [List.getElem?_append_left]
      rw [meanings_length, List.length_map, List.length_take]
      exact lt_min hid hlt
    · have hwhole : entries.take count = entries := List.take_of_length_le (by omega)
      have hlength := congrArg List.length hrest
      rw [List.length_append, meanings_length, meanings_length, hwhole] at hlength
      have hnil : rest = [] := List.eq_nil_of_length_eq_zero (Nat.add_eq_left.mp hlength)
      rw [hnil, List.append_nil]
  have htype : store.typeOf id = other.typeOf id := by
    rw [typeOf, typeOf, hterms, htake, ← hterms]
  have hproperties : store.properties.get id = other.properties.get id := by
    rw [h.represents.properties_get, hother.represents.properties_get, ← typeOf, ← typeOf, htype]
  refine ⟨by rw [h.get_eq, hother.get_eq, hget], htype, ?_, ?_⟩
  · rw [isConcrete, isConcrete, hproperties]
  · rw [mayCarryStorage, mayCarryStorage, hproperties]

theorem Valid.exact (h : store.Valid) : store.Exact where
  named _ := h.typeOf_isSome
  unfolds _ _ hget := h.typeOf_node hget
  decides _ _ ha _ := h.eq_iff_typeOf_eq ha
  properties _ _ hterm := h.properties_eq hterm
  interns address kind := by
    obtain ⟨result, store', hrun, hvalid, htable, hresult⟩ := h.internBranch address kind
    refine ⟨result, store', hrun, ?_, hresult⟩
    have htake : store'.table.take store.typeCount = store.table.take store.typeCount := by
      rcases htable with rfl | htable
      · rfl
      · rw [htable, h.represents.typeCount_eq, List.take_append_of_le_length le_rfl]
    exact fun id hid => (hvalid.agreesBelow h htake id hid).2.1

theorem Valid.sharesValueAt_iff (h : store.Valid) (hother : other.Valid) (index : ℕ) :
    store.kinds.sharesValueAt other.kinds index = true ↔
      ∃ a b, store.table[index]? = some a ∧ other.table[index]? = some b ∧
        a.address = b.address := by
  rw [PersistentVector.sharesValueAt, h.represents.kinds.get_eq, hother.represents.kinds.get_eq]
  cases store.table[index]? <;> cases other.table[index]? <;> simp

/-- An interned extension retains its base as an exact prefix. -/
theorem Valid.internBranch_preservesPrefix (h : store.Valid) (address : ℕ) (kind : TypeKind TypeId) :
    ∃ result store', store.internBranch address kind = some (result, store') ∧
      store'.preservesPrefix store = true := by
  obtain ⟨result, store', hrun, hvalid, htable, _⟩ := h.internBranch address kind
  refine ⟨result, store', hrun, ?_⟩
  have hpos : 0 < store.table.length := by
    have hretained := h.declared.length_le
    rw [List.length_map, List.length_map] at hretained
    exact Nat.lt_of_lt_of_le (by decide) hretained
  have hlast : store'.table[store.table.length - 1]? = store.table[store.table.length - 1]? := by
    rcases htable with rfl | htable
    · rfl
    · rw [htable, List.getElem?_append_left (by omega)]
  have hlength : store.table.length ≤ store'.table.length := by
    rcases htable with rfl | htable
    · exact le_rfl
    · rw [htable, List.length_append]
      omega
  have hentry := List.getElem?_eq_getElem (l := store.table) (i := store.table.length - 1)
    (by omega)
  rw [preservesPrefix, h.represents.typeCount_eq, hvalid.represents.typeCount_eq,
    (hvalid.sharesValueAt_iff h _).mpr ⟨_, _, hlast.trans hentry, hentry, rfl⟩]
  simp [hlength, hpos]

end TypeStore

namespace TypeWorld

variable {world : TypeWorld} {store other : TypeStore}

theorem Valid.agreesBelow_of_shares (h : world.Valid) (hstore : store ∈ world.stores)
    (hother : other ∈ world.stores) {index : ℕ}
    (hshares : store.kinds.sharesValueAt other.kinds index = true) :
    store.AgreesBelow other (index + 1) := by
  have hvalid := h.store store hstore
  have hvalid' := h.store other hother
  obtain ⟨a, b, ha, hb, hab⟩ := (hvalid.sharesValueAt_iff hvalid' index).mp hshares
  exact hvalid.agreesBelow hvalid' (h.coherent.agree store.table (Set.mem_image_of_mem _ hstore)
    other.table (Set.mem_image_of_mem _ hother) index a b ha hb hab)

theorem Valid.agreesBelow_of_preservesPrefix (h : world.Valid) (hstore : store ∈ world.stores)
    (hother : other ∈ world.stores) (hretained : store.preservesPrefix other = true) :
    store.AgreesBelow other other.typeCount := by
  rw [TypeStore.preservesPrefix, Bool.and_eq_true, Bool.and_eq_true, decide_eq_true_eq] at hretained
  obtain ⟨⟨_, hpos⟩, hshares⟩ := hretained
  have hagrees := h.agreesBelow_of_shares hstore hother hshares
  rw [Nat.sub_add_cancel (of_decide_eq_true hpos)] at hagrees
  exact hagrees

/-- In every reachable world identities are exact in every store, and stores that
share an allocation agree on everything up to it. -/
theorem type_identities_exact (h : runs.Reachable world) :
    (∀ store ∈ world.stores, store.Exact) ∧
      ∀ store ∈ world.stores, ∀ other ∈ world.stores,
        (∀ index, store.kinds.sharesValueAt other.kinds index = true →
          store.AgreesBelow other (index + 1)) ∧
        (store.preservesPrefix other = true → store.AgreesBelow other other.typeCount) := by
  have hvalid := valid_of_reachable h
  refine ⟨fun store hstore => (hvalid.store store hstore).exact,
    fun store hstore other hother => ⟨fun index hshares => ?_, fun hretained => ?_⟩⟩
  · exact hvalid.agreesBelow_of_shares hstore hother hshares
  · exact hvalid.agreesBelow_of_preservesPrefix hstore hother hretained

/-- Two branches of one authority that intern different kinds after a common one. -/
theorem branched_identities_exact : ∃ world, List.foldlM apply empty [.newAuthority, .transaction 0,
      .intern 1 (.optional 6), .snapshot 1, .intern 1 (.packEntry 18 0), .commit 1 0] = some world ∧
    (world.holders.map (·.types.typeCount)) = [18, 20, 19] ∧
    (∀ store ∈ world.stores, store.Exact) ∧
      ∀ store ∈ world.stores, ∀ other ∈ world.stores,
        (∀ index, store.kinds.sharesValueAt other.kinds index = true →
          store.AgreesBelow other (index + 1)) ∧
        (store.preservesPrefix other = true → store.AgreesBelow other other.typeCount) := by
  have hcounts : (List.foldlM apply empty [.newAuthority, .transaction 0, .intern 1 (.optional 6),
      .snapshot 1, .intern 1 (.packEntry 18 0), .commit 1 0]).map
        (fun world => world.holders.map (·.types.typeCount)) = some [18, 20, 19] := by
    decide +kernel
  obtain ⟨world, hrun, hcount⟩ := Option.map_eq_some_iff.mp hcounts
  exact ⟨world, hrun, hcount, type_identities_exact (reachable_of_run hrun)⟩

theorem Valid.run_total (h : world.Valid) {ops : List TypeOperation}
    (hidentity : world.nextIdentity + ops.length ≤ u64Max) :
    ∃ world', ops.foldlM apply world = some world' ∧ world'.Valid := by
  induction ops generalizing world with
  | nil => exact ⟨world, rfl, h⟩
  | cons op ops ih =>
    rw [List.length_cons] at hidentity
    obtain ⟨next, hnext, hle⟩ := h.apply_total (by omega) op
    rw [List.foldlM_cons, hnext]
    exact ih (h.next (apply_storeStep hnext)) (by omega)

/-- A run with fewer operations than there are identities does not panic. Every store it leaves has
each builtin in its place, and is retained by whatever is interned into it. -/
theorem type_runs_complete {ops : List TypeOperation} (h : ops.length < u64Max) :
    ∃ world, ops.foldlM apply empty = some world ∧ ∀ store ∈ world.stores,
      (∀ primitive, store.builtin primitive = some primitive.index ∧
        store.get primitive.index = some (.builtin primitive)) ∧
      ∀ address kind, ∃ result store', store.internBranch address kind = some (result, store') ∧
        store'.preservesPrefix store = true := by
  obtain ⟨world, hrun, hvalid⟩ := valid_empty.run_total (by rw [Nat.add_comm]; exact h)
  refine ⟨world, hrun, fun store hstore => ?_⟩
  have hstore := hvalid.store store hstore
  exact ⟨hstore.builtin_eq, hstore.internBranch_preservesPrefix⟩

theorem branched_run_complete : ∃ world, List.foldlM apply empty [.newAuthority, .transaction 0,
      .intern 1 (.optional 6), .freeze 1] = some world ∧ ∀ store ∈ world.stores,
      (∀ primitive, store.builtin primitive = some primitive.index ∧
        store.get primitive.index = some (.builtin primitive)) ∧
      ∀ address kind, ∃ result store', store.internBranch address kind = some (result, store') ∧
        store'.preservesPrefix store = true :=
  type_runs_complete (by decide +kernel)

end TypeWorld

end Nocter.Model
