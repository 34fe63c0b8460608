import Mathlib.Data.List.Induction
import RowOrder.Proofs.Derivations
import RowOrder.Proofs.Reading
import RowOrder.Row

/-! # Queries and stores that can be reached

    A program over a schema has only the queries that it opens and derives, and
    only the stores that it fills by insertion.

    - `Query.Reachable` and `Store.Reachable` say this, one rule for each thing
      a program can do.
    - `Query.reachable_iff_over`: a query can be reached just if all its steps
      are on fields of the schema.
-/

namespace RowOrder

variable {ε : Type} {schema : Schema ε}

/-! ### Queries -/

/-- A chain all of whose steps are on fields of the schema. -/
def Chain.Over (schema : Schema ε) (chain : Chain ε) : Prop :=
  ∀ key ∈ chain, key.field ∈ schema.fields

theorem Chain.Over.append {first second : Chain ε} (hfirst : Chain.Over schema first)
    (hsecond : Chain.Over schema second) : Chain.Over schema (first ++ second) := by
  intro key hkey
  rcases List.mem_append.mp hkey with hmem | hmem
  · exact hfirst key hmem
  · exact hsecond key hmem

theorem Chain.over_singleton {field : Field ε} {direction : Direction}
    (h : field ∈ schema.fields) : Chain.Over schema [⟨field, direction⟩] := by
  intro key hkey
  obtain rfl := List.mem_singleton.mp hkey
  exact h

theorem Chain.Over.toggled {chain : Chain ε} (h : Chain.Over schema chain) :
    Chain.Over schema chain.toggled := by
  intro key hkey
  obtain ⟨k, hk, rfl⟩ := List.mem_map.mp hkey
  exact h k hk

/-- A derivation whose descriptor, if it has one, was made in some way. -/
def Derivation.Made (schema : Schema ε) : Derivation (Descriptor ε) → Prop
  | .apply descriptor => ∃ recipe, (Descriptor.make schema recipe).value = descriptor
  | _ => True

/-- The queries that a program over the schema can come to hold. -/
inductive Query.Reachable (schema : Schema ε) : Query ε → Prop where
  /-- A query that was just opened has no ordering. -/
  | opened (source : StoreId) : Reachable schema { source }
  /-- A query may be derived from another. -/
  | derived {query next : Query ε} (hquery : Reachable schema query)
      (derivation : Derivation (Descriptor ε)) (hmade : derivation.Made schema)
      (hnext : (query.derive schema derivation).value = .ok next) : Reachable schema next

theorem Descriptor.WellFormed.over {d : Descriptor ε} (h : d.WellFormed schema) :
    Chain.Over schema d.keys :=
  fun key hkey => (h.readable key hkey).mem_fields

namespace Query

/-- What is derived from a query over the schema is over the schema. -/
theorem over_derive {query next : Query ε} {derivation : Derivation (Descriptor ε)}
    (h : Chain.Over schema query.chain) (hmade : derivation.Made schema)
    (hnext : (query.derive schema derivation).value = .ok next) :
    Chain.Over schema next.chain := by
  cases derivation with
  | orderByField name direction =>
    obtain ⟨field, hname, rfl⟩ := orderByField_eq_ok_iff.mp hnext
    exact Chain.over_singleton (Schema.resolve?_eq_some_iff.mp hname).1
  | thenByField name direction =>
    obtain ⟨field, hname, -, rfl⟩ := thenByField_eq_ok_iff.mp hnext
    exact h.append (Chain.over_singleton (Schema.resolve?_eq_some_iff.mp hname).1)
  | apply descriptor =>
    obtain ⟨recipe, rfl⟩ := hmade
    obtain rfl := Except.ok.inj ((Descriptor.value_apply _ query).symm.trans hnext)
    exact h.append (Descriptor.wellFormed_make schema recipe).over
  | orderByText text =>
    obtain rfl := Except.ok.inj ((value_orderByText query text).symm.trans hnext)
    exact h.append (Descriptor.wellFormed_parse schema text {}).over
  | orderByTokens tokens =>
    obtain rfl := Except.ok.inj ((value_orderByTokens query tokens).symm.trans hnext)
    exact h.append (Descriptor.wellFormed_fromTokens schema tokens {}).over

theorem Reachable.over {query : Query ε} (h : query.Reachable schema) :
    Chain.Over schema query.chain := by
  induction h with
  | opened source => exact List.forall_mem_nil _
  | derived hquery derivation hmade hnext ih => exact over_derive ih hmade hnext

/-- Every chain over the schema is built by naming its fields one by one. -/
theorem reachable_of_over (source : StoreId) {chain : Chain ε} (h : Chain.Over schema chain) :
    Reachable schema { source, chain } := by
  induction chain using List.reverseRecOn with
  | nil => exact .opened source
  | append_singleton chain key ih =>
    -- A first step comes by `orderByField`, which would discard a chain, a
    -- later one by `thenByField`, which would be refused without one.
    have hkey : schema.resolve? key.name = some key.field := Schema.resolve?_name (h key (by simp))
    have hchain : Reachable schema { source, chain } :=
      ih fun k hk => h k (List.mem_append_left _ hk)
    by_cases hempty : chain = []
    · obtain rfl := hempty
      exact hchain.derived (.orderByField key.name key.direction) trivial
        (orderByField_eq_ok_iff.mpr ⟨key.field, hkey, rfl⟩)
    · exact hchain.derived (.thenByField key.name key.direction) trivial
        (thenByField_eq_ok_iff.mpr ⟨key.field, hkey, hempty, rfl⟩)

theorem reachable_iff_over {query : Query ε} :
    query.Reachable schema ↔ Chain.Over schema query.chain :=
  ⟨Reachable.over, reachable_of_over query.source⟩

end Query

/-! ### Stores -/

/-- The stores that a program over the schema can fill. -/
inductive Store.Reachable (schema : Schema ε) : Store ε → Prop where
  /-- A new store is empty. -/
  | empty : Reachable schema Store.empty
  /-- An entity may be offered, whether it is accepted or refused. -/
  | insert {store : Store ε} (hstore : Reachable schema store) (e : ε) :
      Reachable schema (store.insert schema e).1
  /-- A list of entities may be offered. -/
  | insertAll {store : Store ε} (hstore : Reachable schema store) (entities : List ε) :
      Reachable schema (store.insertAll schema entities).1

/-- What is loaded can be reached: its store was filled by one list. -/
theorem Query.reachable_load {catalog next : Catalog ε} {entities : List ε} {query : Query ε}
    (h : Query.load schema catalog entities = .ok (next, query)) :
    query.Reachable schema ∧ (next.store query.source).Reachable schema := by
  by_cases hfits : ∀ e ∈ entities, schema.Fits e
  · rw [Query.load_of_fits hfits] at h
    obtain ⟨rfl, rfl⟩ := Prod.mk.inj (Except.ok.inj h)
    refine ⟨.opened _, ?_⟩
    rw [Catalog.store_add_nextId]
    exact .insertAll .empty entities
  · obtain ⟨error, herror⟩ := Query.load_of_not_fits hfits catalog
    rw [herror] at h
    contradiction

/-! ### Numbers -/

/-- Rows with one number. -/
def numberSchema : Schema Row where
  fields := [Row.field "Id" .int 0]

/-- The numbers from the largest to the smallest. -/
def numberKey : SortKey Row := ⟨Row.field "Id" .int 0, .descending⟩

theorem over_numberKey : Chain.Over numberSchema [numberKey] :=
  Chain.over_singleton (List.mem_singleton.mpr rfl)

end RowOrder
