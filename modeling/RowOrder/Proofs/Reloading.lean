import RowOrder.Proofs.FilledStores
import RowOrder.Proofs.Requests
import RowOrder.Proofs.StableSorting

/-! # Rows that are stored again

    The rows of a query can be loaded into a new store, and the query's
    ordering can be asked for once more, name by name as it is shown. Neither
    changes the rows: they were checked when they were first stored, a store
    keeps the order in which it is filled, each name that is shown stands for
    the field it is the name of, and what is arranged already stays as it is.
-/

namespace RowOrder

variable {ε : Type} {schema : Schema ε}

/-- Rows in the order of a chain are not moved by it. -/
theorem Chain.sort_sort (chain : Chain ε) (entities : List ε) :
    sort chain (sort chain entities) = sort chain entities :=
  List.mergeSort_of_pairwise (stablySorts_sort chain entities).ordered

/-! ### Asking for what is shown -/

namespace Request

/-- The request for a step as it is shown. -/
def ofLabel (label : String × Direction) : Request := ⟨label.1, label.2⟩

/-- A step on a field of the schema is what the request for it stands for. -/
theorem key?_ofLabel {key : SortKey ε} (h : key.field ∈ schema.fields) :
    key? schema (ofLabel key.label) = some key := by
  show (schema.resolve? key.name).map _ = _
  rw [SortKey.name, Schema.resolve?_name h]
  rfl

theorem resolves_ofLabel {chain : Chain ε} (h : Chain.Over schema chain) :
    ∀ request ∈ chain.labels.map ofLabel, (schema.resolve? request.name).isSome := by
  intro request hrequest
  obtain ⟨label, hlabel, rfl⟩ := List.mem_map.mp hrequest
  obtain ⟨key, hkey, rfl⟩ := List.mem_map.mp hlabel
  show (schema.resolve? key.field.name).isSome
  rw [Schema.resolve?_name (h key hkey)]
  rfl

/-- The requests for the steps of a chain stand for the chain. -/
theorem keys_labels {chain : Chain ε} (h : Chain.Over schema chain) :
    keys schema (chain.labels.map ofLabel) = chain := by
  unfold keys Chain.labels
  rw [List.map_map, List.filterMap_map]
  have hkey : ∀ key ∈ chain, (key? schema ∘ ofLabel ∘ SortKey.label) key = some key :=
    fun key hkey => key?_ofLabel (h key hkey)
  rw [List.filterMap_congr hkey, List.filterMap_some]

end Request

namespace Query

/-- The query with its ordering asked for as it is shown: by the first step
    alone, refined by each of the others. -/
def reorder (schema : Schema ε) (query : Query ε) (ordering : List (String × Direction)) :
    Except QueryError (Query ε) :=
  match ordering.map Request.ofLabel with
  | [] => .ok query
  | first :: rest => query.orderByRequests schema first rest

/-- A query without ordering takes on any chain over the schema as it is shown. -/
theorem reorder_labels (source : StoreId) {chain : Chain ε} (h : Chain.Over schema chain) :
    reorder schema { source } chain.labels = .ok { source, chain } := by
  have hresolves := Request.resolves_ofLabel h
  have hkeys := Request.keys_labels h
  unfold reorder
  cases hrequests : chain.labels.map Request.ofLabel with
  | nil =>
    rw [hrequests] at hkeys
    rw [← hkeys]
    rfl
  | cons first rest =>
    rw [hrequests] at hresolves hkeys
    show orderByRequests schema { source } first rest = _
    rw [orderByRequests_of_resolves _ hresolves, hkeys]

/-! ### Loading -/

/-- **Rows come back as they were.** Let a query be reachable and be over a
    store that has accepted no more entities than there are identities. Its
    rows can be loaded; the query that this gives has no ordering, and the same
    rows. Ordered as the first query shows itself, which is never refused, it
    shows the same ordering and has the same rows again. -/
theorem rows_survive_reload (schema : Schema ε) (query : Query ε)
    (hquery : query.Reachable schema) (catalog : Catalog ε) (accepted : List ε)
    (hfilled : (catalog.store query.source).Filled schema accepted)
    (hcapacity : accepted.length ≤ Store.capacity) :
    ∃ (next : Catalog ε) (loaded again : Query ε),
      load schema catalog (query.rows catalog) = .ok (next, loaded) ∧
      loaded.state = .unordered ∧
      loaded.rows next = query.rows catalog ∧
      loaded.reorder schema query.ordering = .ok again ∧
      again.source = loaded.source ∧
      again.ordering = query.ordering ∧
      again.rows next = query.rows catalog := by
  have hrows : query.rows catalog = Chain.sort query.chain accepted := by
    rw [rows, hfilled.scan_eq hcapacity]
  have hperm : (query.rows catalog).Perm accepted := by
    rw [hrows]
    exact Chain.sort_perm query.chain accepted
  have hfits : ∀ e ∈ query.rows catalog, schema.Fits e :=
    fun e he => hfilled.fits e (hperm.mem_iff.mp he)
  obtain ⟨next, hload, hnext⟩ :=
    exists_load_eq_ok hfits (by rwa [hperm.length_eq]) catalog
  refine ⟨next, { source := catalog.nextId }, { source := catalog.nextId, chain := query.chain },
    hload, rfl, ?_, reorder_labels catalog.nextId hquery.over, rfl, rfl, ?_⟩
  · rw [hnext, Chain.sort_nil]
  · rw [hnext, hrows, Chain.sort_sort]

/-- Rows from the largest number to the smallest, two of them with the same
    number, are loaded as they stand and stay so. -/
theorem rows_survive_reload_numbers :
    let one : Row := ⟨[.int 1]⟩
    let three : Row := ⟨[.int 3]⟩
    let drei : Row := ⟨[.int 3, .text "drei"]⟩
    let store := (Journal.ofCalls numberSchema [.insertAll [one, three], .insert drei]).store
    let catalog : Catalog Row := Catalog.empty.add store
    let query : Query Row := { source := ⟨0⟩, chain := [numberKey] }
    query.Reachable numberSchema ∧
    (catalog.store query.source).Filled numberSchema [one, three, drei] ∧
    [one, three, drei].length ≤ Store.capacity ∧
    ∃ (next : Catalog Row) (loaded again : Query Row),
      load numberSchema catalog [three, drei, one] = .ok (next, loaded) ∧
      loaded.rows next = [three, drei, one] ∧
      loaded.reorder numberSchema [("Id", .descending)] = .ok again ∧
      again.rows next = [three, drei, one] := by
  intro one three drei store catalog query
  have hquery : query.Reachable numberSchema := reachable_of_over ⟨0⟩ over_numberKey
  have hfilled : (catalog.store query.source).Filled numberSchema [one, three, drei] :=
    Store.filled_ofCalls [.insertAll [one, three], .insert drei] rfl (by decide +kernel)
  have hcapacity : [one, three, drei].length ≤ Store.capacity := by decide
  have hrows : query.rows catalog = [three, drei, one] := by
    have honeThree : Chain.le [numberKey] one three = false := by decide +kernel
    have hthreeDrei : Chain.le [numberKey] three drei = true := by decide +kernel
    have honeDrei : Chain.le [numberKey] one drei = false := by decide +kernel
    rw [rows, hfilled.scan_eq hcapacity]
    simp [query, Chain.sort, List.mergeSort, List.MergeSort.Internal.splitInTwo,
      honeThree, hthreeDrei, honeDrei]
  obtain ⟨next, loaded, again, hload, -, hloaded, hagain, -, -, hrowsAgain⟩ :=
    rows_survive_reload numberSchema query hquery catalog _ hfilled hcapacity
  rw [hrows] at hload hloaded hrowsAgain
  exact ⟨hquery, hfilled, hcapacity, next, loaded, again, hload, hloaded, hagain, hrowsAgain⟩

end Query

end RowOrder
