import RowOrder.Proofs.ChainOrder
import RowOrder.Proofs.Reachable

/-! # Values of one type

    Rows are compared by the values of a field, and these are all of the type
    that the field declares: whatever is stored fits the schema
    (`Store.Reachable.wellTyped`), and a chain has steps on fields of the schema
    only. What `Value.compare` says of values of different types is therefore
    never asked for. `Query.compares_within_types` says so of an arrangement by
    any comparison in its place.
-/

namespace RowOrder

variable {ε : Type} {schema : Schema ε}

/-! ### Stored entities -/

namespace Store

/-- All stored entities fit the schema. -/
def WellTyped (schema : Schema ε) (store : Store ε) : Prop :=
  ∀ id e, store.get? id = some e → schema.Fits e

variable {store : Store ε}

theorem wellTyped_empty (schema : Schema ε) : WellTyped schema (empty : Store ε) := by
  intro id e he
  rw [get?_empty] at he
  contradiction

theorem WellTyped.insert (h : store.WellTyped schema) (e : ε) :
    (store.insert schema e).1.WellTyped schema := by
  by_cases hfits : schema.Fits e
  · intro id e' he'
    rw [get?_insert_of_fits hfits] at he'
    split at he'
    · obtain rfl := Option.some.inj he'
      exact hfits
    · exact h id e' he'
  · rw [insert_of_not_fits hfits]
    exact h

theorem WellTyped.insertAll (h : store.WellTyped schema) (entities : List ε) :
    (store.insertAll schema entities).1.WellTyped schema := by
  induction entities generalizing store with
  | nil => exact h
  | cons e rest ih =>
    by_cases hfits : schema.Fits e
    · rw [insertAll_cons_of_fits hfits]
      exact ih (h.insert e)
    · obtain ⟨error, -, hinsert⟩ := insertAll_cons_of_not_fits hfits store rest
      rw [hinsert]
      exact h

/-- There is no way into a store past the check. -/
theorem Reachable.wellTyped (h : store.Reachable schema) : store.WellTyped schema := by
  induction h with
  | empty => exact wellTyped_empty schema
  | insert hstore e ih => exact ih.insert e
  | insertAll hstore entities ih => exact ih.insertAll entities

/-- The entities that are listed are those that are stored. -/
theorem mem_scan_iff {e : ε} : e ∈ store.scan ↔ ∃ id, store.get? id = some e := by
  rw [scan, List.mem_map]
  constructor
  · rintro ⟨⟨id, e⟩, hmem, rfl⟩
    exact ⟨id, Std.TreeMap.mem_toList_iff_getElem?_eq_some.mp hmem⟩
  · rintro ⟨id, he⟩
    exact ⟨(id, e), Std.TreeMap.mem_toList_iff_getElem?_eq_some.mpr he, rfl⟩

end Store

/-! ### Other comparisons of values -/

/-- A comparison that agrees with the order on values wherever these are of
    one type, and may say anything elsewhere. -/
def Value.AgreesWithinTypes (cmp : Value → Value → Ordering) : Prop :=
  ∀ v w : Value, v.columnType = w.columnType → cmp v w = compare v w

namespace Chain

/-- The comparison of entities by a chain, with values compared by `cmp`. -/
def compareBy (cmp : Value → Value → Ordering) : Chain ε → ε → ε → Ordering
  | [], _, _ => .eq
  | key :: rest, a, b =>
    (key.direction.orient (cmp (key.field.read a) (key.field.read b))).then
      (compareBy cmp rest a b)

/-- The stable arrangement by a chain, with values compared by `cmp`. -/
def sortBy (cmp : Value → Value → Ordering) (chain : Chain ε) (entities : List ε) : List ε :=
  entities.mergeSort fun a b => (compareBy cmp chain a b).isLE

/-- Entities with values of the same types are compared alike. -/
theorem compareBy_eq_compare {cmp : Value → Value → Ordering} (hcmp : Value.AgreesWithinTypes cmp)
    {chain : Chain ε} {a b : ε}
    (h : ∀ key ∈ chain, (key.field.read a).columnType = (key.field.read b).columnType) :
    compareBy cmp chain a b = Chain.compare chain a b := by
  induction chain with
  | nil => rfl
  | cons key rest ih =>
    rw [compareBy, compare_cons, SortKey.compare, hcmp _ _ (h key List.mem_cons_self),
      ih fun k hk => h k (List.mem_cons_of_mem _ hk)]

/-- Only the comparisons of listed entities count for their arrangement. -/
theorem sortBy_eq_sort {cmp : Value → Value → Ordering} {chain : Chain ε} {entities : List ε}
    (h : ∀ a ∈ entities, ∀ b ∈ entities, compareBy cmp chain a b = Chain.compare chain a b) :
    sortBy cmp chain entities = sort chain entities := by
  have hle : ∀ a ∈ entities, ∀ b ∈ entities,
      (compareBy cmp chain a b).isLE = le chain (id a) (id b) := by
    intro a ha b hb
    rw [h a ha b hb]
    rfl
  -- Two orders that agree on a list sort it alike: sorting commutes with the
  -- identity, which carries one order to the other.
  have hsort := List.map_mergeSort hle
  rw [List.map_id, List.map_id] at hsort
  exact hsort

end Chain

/-! ### The rows of a query -/

/-- An entity that fits has a value of the declared type on every step. -/
theorem SortKey.columnType_read {key : SortKey ε} (hkey : key.field ∈ schema.fields) {e : ε}
    (he : schema.Fits e) : (key.field.read e).columnType = key.field.type :=
  he key.field hkey

namespace Query

/-- **Values of different types are never compared.** On every step of a query
    any two stored entities have values of the one type that the field of the
    step declares. The rows are those of an arrangement by any comparison that
    agrees with the order on values within each type: what it says of values of
    different types has no part in them. -/
theorem compares_within_types (schema : Schema ε) (query : Query ε)
    (hquery : query.Reachable schema) (catalog : Catalog ε)
    (hstore : (catalog.store query.source).Reachable schema) :
    let store := catalog.store query.source
    (∀ key ∈ query.chain, ∃ field, schema.resolve? key.name = some field ∧
      ∀ idA a idB b, store.get? idA = some a → store.get? idB = some b →
        (key.field.read a).columnType = field.type ∧
        (key.field.read b).columnType = field.type) ∧
    ∀ cmp, Value.AgreesWithinTypes cmp →
      Chain.sortBy cmp query.chain store.scan = query.rows catalog := by
  intro store
  have htyped : store.WellTyped schema := hstore.wellTyped
  have hover : Chain.Over schema query.chain := hquery.over
  refine ⟨?_, ?_⟩
  · intro key hkey
    refine ⟨key.field, Schema.resolve?_name (hover key hkey), ?_⟩
    intro idA a idB b ha hb
    exact ⟨SortKey.columnType_read (hover key hkey) (htyped idA a ha),
      SortKey.columnType_read (hover key hkey) (htyped idB b hb)⟩
  · intro cmp hcmp
    refine Chain.sortBy_eq_sort ?_
    intro a ha b hb
    obtain ⟨idA, ha⟩ := Store.mem_scan_iff.mp ha
    obtain ⟨idB, hb⟩ := Store.mem_scan_iff.mp hb
    refine Chain.compareBy_eq_compare hcmp ?_
    intro key hkey
    rw [SortKey.columnType_read (hover key hkey) (htyped idA a ha),
      SortKey.columnType_read (hover key hkey) (htyped idB b hb)]

/-- Text is refused among numbers, so that a comparison which takes every two
    values of different types to tie gives the same rows. -/
theorem compares_within_types_refused :
    let store := (Store.empty.insertAll numberSchema [⟨[.int 1]⟩, ⟨[.text "2"]⟩, ⟨[.int 3]⟩]).1
    let catalog : Catalog Row := Catalog.empty.add (store.insert numberSchema ⟨[.int 3]⟩).1
    let query : Query Row := { source := ⟨0⟩, chain := [numberKey] }
    let cmp : Value → Value → Ordering :=
      fun v w => if v.columnType = w.columnType then compare v w else .eq
    query.Reachable numberSchema ∧
    (catalog.store query.source).Reachable numberSchema ∧
    Value.AgreesWithinTypes cmp ∧
    (∀ id row, (catalog.store query.source).get? id = some row →
      (numberKey.field.read row).columnType = .int) ∧
    Chain.sortBy cmp query.chain (catalog.store query.source).scan = query.rows catalog := by
  intro store catalog query cmp
  have hquery : query.Reachable numberSchema := reachable_of_over ⟨0⟩ over_numberKey
  have hstore : (catalog.store query.source).Reachable numberSchema :=
    .insert (.insertAll .empty _) _
  have hcmp : Value.AgreesWithinTypes cmp := fun v w h => if_pos h
  obtain ⟨htypes, hrows⟩ := compares_within_types numberSchema query hquery catalog hstore
  obtain ⟨field, hfield, hread⟩ := htypes numberKey (List.mem_singleton.mpr rfl)
  obtain rfl : numberKey.field = field :=
    Option.some.inj ((Schema.resolve?_name (List.mem_singleton.mpr rfl)).symm.trans hfield)
  exact ⟨hquery, hstore, hcmp, fun id row hrow => (hread id row id row hrow hrow).1, hrows cmp hcmp⟩

end Query

end RowOrder
