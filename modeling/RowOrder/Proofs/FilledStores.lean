import RowOrder.Proofs.StoreRuns

/-! # Filled stores

    A store that was filled by calls keeps no trace of how the calls divided up
    what they offered: what it holds, in which order and under which identities,
    can be read off the list of the entities that were accepted.

    - `Store.Filled` names this list. The stores that can be reached are those
      that have one (`Store.reachable_iff_filled`).
    - A new store can be filled with any list of entities that fit, and a query
      over it arranges this list (`Query.exists_load_eq_ok`).
-/

namespace RowOrder

variable {ε : Type} {schema : Schema ε}

namespace Journal

/-- Which entities a run accepts, read off the calls alone. -/
theorem fitting_foldl (journal : Journal ε) (calls : List (Store.Call ε)) :
    (calls.foldl (enter schema) journal).fitting schema =
      journal.fitting schema ++ calls.flatMap fun call => schema.accepted call.offered := by
  induction calls generalizing journal with
  | nil => exact (List.append_nil _).symm
  | cons call rest ih =>
    rw [List.foldl_cons, ih, fitting_enter, List.flatMap_cons, List.append_assoc]

theorem ofCalls_concat (schema : Schema ε) (calls : List (Store.Call ε)) (call : Store.Call ε) :
    ofCalls schema (calls ++ [call]) = (ofCalls schema calls).enter schema call := by
  unfold ofCalls
  rw [List.foldl_append]
  rfl

end Journal

namespace Store

/-! ### The entities behind a store -/

/-- The store was filled, from a new one, by calls that accepted the entities
    of the list, in this order, and no others. -/
def Filled (schema : Schema ε) (entities : List ε) (store : Store ε) : Prop :=
  ∃ calls, (Journal.ofCalls schema calls).store = store ∧
    (Journal.ofCalls schema calls).fitting schema = entities

/-- Calls that offer entities which all fit fill a store with these. -/
theorem filled_ofCalls (calls : List (Call ε)) {entities : List ε}
    (hoffered : calls.flatMap Call.offered = entities) (hfits : ∀ e ∈ entities, schema.Fits e) :
    Filled schema entities (Journal.ofCalls schema calls).store := by
  refine ⟨calls, rfl, ?_⟩
  have haccepted : ∀ call ∈ calls, schema.accepted call.offered = call.offered := by
    intro call hcall
    refine Schema.accepted_eq_self fun e he => hfits e ?_
    rw [← hoffered]
    exact List.mem_flatMap_of_mem hcall he
  rw [Journal.ofCalls, Journal.fitting_foldl, ← hoffered]
  exact List.flatMap_congr haccepted

variable {store : Store ε} {entities : List ε}

theorem Filled.records (h : store.Filled schema entities) : store.Records entities := by
  obtain ⟨calls, rfl, rfl⟩ := h
  exact (Journal.sound_ofCalls schema calls).records

/-- A filled store lists what it was filled with. -/
theorem Filled.scan_eq (h : store.Filled schema entities) (hlength : entities.length ≤ capacity) :
    store.scan = entities :=
  h.records.scan_eq hlength

/-- Nothing gets into a store that does not fit. -/
theorem Filled.fits (h : store.Filled schema entities) : ∀ e ∈ entities, schema.Fits e := by
  obtain ⟨calls, rfl, rfl⟩ := h
  intro e he
  exact of_decide_eq_true (List.mem_filter.mp he).2

/-- One more call fills in what it accepts. -/
theorem Filled.call (h : store.Filled schema entities) (call : Call ε) :
    (store.call schema call).1.Filled schema (entities ++ schema.accepted call.offered) := by
  obtain ⟨calls, rfl, rfl⟩ := h
  refine ⟨calls ++ [call], ?_, ?_⟩
  · rw [Journal.ofCalls_concat]
    rfl
  · rw [Journal.ofCalls_concat, Journal.fitting_enter]

/-- The stores that a program can fill are those that calls fill with some
    list of entities. -/
theorem reachable_iff_filled :
    store.Reachable schema ↔ ∃ entities, store.Filled schema entities := by
  constructor
  · intro h
    induction h with
    | empty => exact ⟨[], [], rfl, rfl⟩
    | insert hstore e ih =>
      obtain ⟨entities, hfilled⟩ := ih
      exact ⟨_, hfilled.call (.insert e)⟩
    | insertAll hstore offered ih =>
      obtain ⟨entities, hfilled⟩ := ih
      exact ⟨_, hfilled.call (.insertAll offered)⟩
  · rintro ⟨entities, calls, rfl, -⟩
    induction calls using List.reverseRecOn with
    | nil => exact .empty
    | append_singleton calls call ih =>
      rw [Journal.ofCalls_concat, Journal.enter, call_eq_insertAll]
      exact .insertAll ih call.offered

end Store

/-! ### New stores -/

namespace Query

/-- Entities that fit, no more of them than there are identities, can be
    loaded, and a query over their store arranges them. -/
theorem exists_load_eq_ok {entities : List ε} (hfits : ∀ e ∈ entities, schema.Fits e)
    (hlength : entities.length ≤ Store.capacity) (catalog : Catalog ε) :
    ∃ next, load schema catalog entities = .ok (next, { source := catalog.nextId }) ∧
      ∀ chain, rows { source := catalog.nextId, chain } next = Chain.sort chain entities := by
  have hrecords : (Store.empty.insertAll schema entities).1.Records
      ([] ++ schema.accepted entities) := Store.records_empty.insertAll entities
  rw [List.nil_append, Schema.accepted_eq_self hfits] at hrecords
  refine ⟨_, load_of_fits hfits catalog, ?_⟩
  intro chain
  rw [rows, Catalog.store_add_nextId, hrecords.scan_eq hlength]

end Query

end RowOrder
