import RowOrder.Proofs.Reachable
import RowOrder.Proofs.Records

/-! # Runs of insertions

    Calls offer entities to a store, one at a time or a list at once. A list is
    given up at the first refusal, so a run gets to some of the entities only.

    - A `Visit` is an entity that a call gets to, with what its insertion gave.
      A call hands back what its visits gave (`Store.snd_insertAll`).
    - A `Journal` holds the store after some calls and all their visits.
      `Journal.Sound` is what every call keeps: the store holds the visited
      entities that fit, under the numbers in which they were accepted.
    - `Journal.store_accounts` reads off it what a store answers after any run.
-/

namespace RowOrder

variable {ε : Type} {schema : Schema ε}

/-! ### Visits -/

/-- An entity that was offered to a store, with what came of it. -/
structure Visit (ε : Type) where
  /-- The entity. -/
  entity : ε
  /-- Its identity, or why it was refused. -/
  outcome : Except SchemaError EntityId

/-- The entity under its identity, if it was accepted. -/
def Visit.entry? (visit : Visit ε) : Option (EntityId × ε) :=
  match visit.outcome with
  | .ok id => some (id, visit.entity)
  | .error _ => none

namespace Store

/-- The entities of a list that are got to when it is offered, each with the
    outcome of its insertion: all up to the first that is refused, and this
    one. -/
def visits (schema : Schema ε) (store : Store ε) : List ε → List (Visit ε)
  | [] => []
  | e :: rest =>
    match store.insert schema e with
    | (_, .error error) => [⟨e, .error error⟩]
    | (next, .ok id) => ⟨e, .ok id⟩ :: visits schema next rest

theorem visits_cons_of_fits {e : ε} (h : schema.Fits e) (store : Store ε) (rest : List ε) :
    store.visits schema (e :: rest) =
      ⟨e, .ok store.nextId⟩ :: (store.insert schema e).1.visits schema rest := by
  rw [visits, insert_of_fits h]

theorem visits_cons_of_not_fits {e : ε} (h : ¬ schema.Fits e) (store : Store ε) (rest : List ε) :
    ∃ error, schema.check e = .error error ∧
      store.visits schema (e :: rest) = [⟨e, .error error⟩] := by
  obtain ⟨error, herror⟩ := Schema.exists_check_eq_error h
  exact ⟨error, herror, by rw [visits, insert_of_check_eq_error herror]⟩

/-- What a list hands back is what its visits gave: their identities, or the
    error of the one that was refused. -/
theorem snd_insertAll (schema : Schema ε) (store : Store ε) (offered : List ε) :
    (store.insertAll schema offered).2 =
      (store.visits schema offered).mapM Visit.outcome := by
  induction offered generalizing store with
  | nil => rfl
  | cons e rest ih =>
    by_cases he : schema.Fits e
    · rw [insertAll_cons_of_fits he, visits_cons_of_fits he, List.mapM_cons, ih]
      rfl
    · obtain ⟨error, herror, hinsert⟩ := insertAll_cons_of_not_fits he store rest
      obtain ⟨error', herror', hvisits⟩ := visits_cons_of_not_fits he store rest
      obtain rfl : error = error' := Except.error.inj (herror.symm.trans herror')
      rw [hinsert, hvisits]
      rfl

/-- The entities that are got to are the accepted ones and the next. -/
theorem map_entity_visits (schema : Schema ε) (store : Store ε) (offered : List ε) :
    (store.visits schema offered).map Visit.entity =
      offered.take ((schema.accepted offered).length + 1) := by
  induction offered generalizing store with
  | nil => rfl
  | cons e rest ih =>
    by_cases he : schema.Fits e
    · rw [visits_cons_of_fits he, List.map_cons, ih, Schema.accepted_cons_of_fits he,
        List.length_cons, List.take_succ_cons]
    · obtain ⟨error, -, hvisits⟩ := visits_cons_of_not_fits he store rest
      rw [hvisits, Schema.accepted_cons_of_not_fits he]
      rfl

/-- Of the entities that are got to, those that fit are the accepted ones. -/
theorem filter_fits_visits (schema : Schema ε) (store : Store ε) (offered : List ε) :
    ((store.visits schema offered).map Visit.entity).filter (schema.Fits ·) =
      schema.accepted offered := by
  induction offered generalizing store with
  | nil => rfl
  | cons e rest ih =>
    by_cases he : schema.Fits e
    · rw [visits_cons_of_fits he, List.map_cons, List.filter_cons_of_pos (by simpa using he), ih,
        Schema.accepted_cons_of_fits he]
    · obtain ⟨error, -, hvisits⟩ := visits_cons_of_not_fits he store rest
      rw [hvisits, Schema.accepted_cons_of_not_fits he, List.map_singleton,
        List.filter_cons_of_neg (by simpa using he), List.filter_nil]

/-- An entity that is got to is accepted just if it fits. -/
theorem accepted_iff_fits {store : Store ε} {offered : List ε} {visit : Visit ε}
    (h : visit ∈ store.visits schema offered) :
    (∃ id, visit.outcome = .ok id) ↔ schema.Fits visit.entity := by
  induction offered generalizing store with
  | nil => exact absurd h List.not_mem_nil
  | cons e rest ih =>
    by_cases he : schema.Fits e
    · rw [visits_cons_of_fits he] at h
      rcases List.mem_cons.mp h with rfl | hrest
      · exact ⟨fun _ => he, fun _ => ⟨store.nextId, rfl⟩⟩
      · exact ih hrest
    · obtain ⟨error, -, hvisits⟩ := visits_cons_of_not_fits he store rest
      rw [hvisits] at h
      obtain rfl := List.mem_singleton.mp h
      exact ⟨fun ⟨id, hid⟩ => by contradiction, fun hfits => absurd hfits he⟩

/-- Accepted entities get the identities of the places that come next. -/
theorem filterMap_entry?_visits {store : Store ε} {place : Nat}
    (h : store.nextId = EntityId.ofPlace place) (offered : List ε) :
    (store.visits schema offered).filterMap Visit.entry? =
      ((schema.accepted offered).zipIdx place).map fun (e, place) =>
        (EntityId.ofPlace place, e) := by
  induction offered generalizing store place with
  | nil => rfl
  | cons e rest ih =>
    by_cases he : schema.Fits e
    · have hnext : (store.insert schema e).1.nextId = EntityId.ofPlace (place + 1) := by
        rw [insert_of_fits he, h, EntityId.ofPlace_succ]
      have hentry : Visit.entry? ⟨e, .ok store.nextId⟩ = some (store.nextId, e) := rfl
      rw [visits_cons_of_fits he, List.filterMap_cons_some hentry, ih hnext,
        Schema.accepted_cons_of_fits he, List.zipIdx_cons, List.map_cons, h]
    · obtain ⟨error, -, hvisits⟩ := visits_cons_of_not_fits he store rest
      rw [hvisits, Schema.accepted_cons_of_not_fits he]
      rfl

theorem numbered_append (entities more : List ε) :
    numbered (entities ++ more) = numbered entities ++
      (more.zipIdx entities.length).map fun (e, place) => (EntityId.ofPlace place, e) := by
  unfold numbered
  rw [List.zipIdx_append, List.map_append, Nat.zero_add]

/-- Identities count the entities from 1 on. -/
theorem map_toNat_numbered {entities : List ε} (hbound : entities.length ≤ capacity) :
    (numbered entities).map (fun entry => (entry.2, entry.1.toNat)) = entities.zipIdx 1 := by
  have hshift : entities.zipIdx 1 =
      entities.zipIdx.map fun entry => (entry.1, entry.2 + 1) := List.zipIdx_succ
  rw [numbered, List.map_map, hshift]
  refine List.map_congr_left ?_
  rintro ⟨e, place⟩ hmem
  have hplace : place < entities.length := by
    have hlt := List.snd_lt_of_mem_zipIdx hmem
    omega
  exact congrArg (Prod.mk e) (EntityId.toNat_ofPlace (Nat.lt_of_lt_of_le hplace hbound))

/-- A store that has recorded a list answers a number with the entity in this
    place of it, counted from 1. -/
theorem Records.get?_eq {store : Store ε} {entities : List ε} (h : store.Records entities)
    (hbound : entities.length ≤ capacity) (id : EntityId) :
    store.get? id = if id = 0 then none else entities[id.toNat - 1]? := by
  rcases EntityId.eq_zero_or_ofPlace id with rfl | ⟨place, hplace, rfl⟩
  · rw [if_pos rfl, h.get?_zero hbound]
  · rw [if_neg (EntityId.ofPlace_ne_zero hplace), h.get?_ofPlace hbound hplace,
      EntityId.toNat_ofPlace hplace, Nat.add_sub_cancel]

theorem isEmpty_eq (store : Store ε) : store.isEmpty = decide (store.size = 0) := by
  rw [Bool.eq_iff_iff, ← scan_eq_nil_iff, decide_eq_true_iff, ← length_scan,
    List.length_eq_zero_iff]

end Store

/-! ### Calls -/

/-- A call that offers entities to a store. -/
inductive Store.Call (ε : Type) where
  /-- One entity. -/
  | insert (e : ε)
  /-- A list of entities. -/
  | insertAll (entities : List ε)

namespace Store

/-- The entities that a call offers. -/
def Call.offered : Call ε → List ε
  | .insert e => [e]
  | .insertAll entities => entities

/-- The store after a call, and the identities that the call hands back or its
    error. -/
def call (schema : Schema ε) (store : Store ε) :
    Call ε → Store ε × Except SchemaError (List EntityId)
  | .insert e =>
    let (next, outcome) := store.insert schema e
    (next, outcome.map fun id => [id])
  | .insertAll entities => store.insertAll schema entities

/-- One entity is offered as a list of one is. -/
theorem call_eq_insertAll (schema : Schema ε) (store : Store ε) (call : Call ε) :
    store.call schema call = store.insertAll schema call.offered := by
  cases call with
  | insertAll entities => rfl
  | insert e =>
    rw [Call.offered, Store.call]
    by_cases he : schema.Fits e
    · rw [insertAll_cons_of_fits he, insert_of_fits he]
      rfl
    · obtain ⟨error, herror, hinsert⟩ := insertAll_cons_of_not_fits he store []
      rw [hinsert, insert_of_check_eq_error herror]
      rfl

end Store

/-! ### Journals -/

/-- A store that was filled by calls, with all that these got to. -/
structure Journal (ε : Type) where
  /-- The store. -/
  store : Store ε := Store.empty
  /-- The visits of all calls, in order. -/
  visits : List (Visit ε) := []

namespace Journal

/-- The journal after one more call. -/
def enter (schema : Schema ε) (journal : Journal ε) (call : Store.Call ε) : Journal ε where
  store := (journal.store.call schema call).1
  visits := journal.visits ++ journal.store.visits schema call.offered

/-- The journal of calls on a new store. -/
def ofCalls (schema : Schema ε) (calls : List (Store.Call ε)) : Journal ε :=
  calls.foldl (enter schema) {}

/-- The entities of the journal that fit, in order. -/
def fitting (schema : Schema ε) (journal : Journal ε) : List ε :=
  (journal.visits.map Visit.entity).filter (schema.Fits ·)

variable {journal : Journal ε}

theorem fitting_enter (journal : Journal ε) (call : Store.Call ε) :
    (journal.enter schema call).fitting schema =
      journal.fitting schema ++ schema.accepted call.offered := by
  rw [fitting, enter, List.map_append, List.filter_append, Store.filter_fits_visits]
  rfl

/-- What the visits of a journal say of its store. -/
structure Sound (schema : Schema ε) (journal : Journal ε) : Prop where
  /-- The store has accepted the entities that fit, and no others. -/
  records : journal.store.Records (journal.fitting schema)
  /-- A visited entity was accepted just if it fits. -/
  accepted_iff : ∀ visit ∈ journal.visits,
    (∃ id, visit.outcome = .ok id) ↔ schema.Fits visit.entity
  /-- The accepted entities got their identities in order. -/
  entries_eq : journal.visits.filterMap Visit.entry? = Store.numbered (journal.fitting schema)

theorem sound_empty (schema : Schema ε) : Sound schema ({} : Journal ε) where
  records := Store.records_empty
  accepted_iff _ hvisit := absurd hvisit List.not_mem_nil
  entries_eq := rfl

/-- Every call keeps a journal sound, also one that fails half way. -/
theorem Sound.enter (h : journal.Sound schema) (call : Store.Call ε) :
    (journal.enter schema call).Sound schema where
  records := by
    show (journal.store.call schema call).1.Records _
    rw [fitting_enter, Store.call_eq_insertAll]
    exact h.records.insertAll call.offered
  accepted_iff visit hvisit := by
    rcases List.mem_append.mp hvisit with hold | hnew
    · exact h.accepted_iff visit hold
    · exact Store.accepted_iff_fits hnew
  entries_eq := by
    rw [fitting_enter, Store.numbered_append, ← h.entries_eq,
      ← Store.filterMap_entry?_visits h.records.nextId]
    exact List.filterMap_append

theorem sound_foldl (h : journal.Sound schema) (calls : List (Store.Call ε)) :
    (calls.foldl (enter schema) journal).Sound schema := by
  induction calls generalizing journal with
  | nil => exact h
  | cons call rest ih => exact ih (h.enter call)

theorem sound_ofCalls (schema : Schema ε) (calls : List (Store.Call ε)) :
    (ofCalls schema calls).Sound schema :=
  sound_foldl (sound_empty schema) calls

/-- Which entities a run gets to, read off the calls alone. -/
theorem map_entity_visits_foldl (journal : Journal ε) (calls : List (Store.Call ε)) :
    (calls.foldl (enter schema) journal).visits.map Visit.entity =
      journal.visits.map Visit.entity ++ calls.flatMap fun call =>
        call.offered.take ((schema.accepted call.offered).length + 1) := by
  induction calls generalizing journal with
  | nil => exact (List.append_nil _).symm
  | cons call rest ih =>
    rw [List.foldl_cons, ih, enter, List.map_append, Store.map_entity_visits, List.flatMap_cons,
      List.append_assoc]

/-! ### What a store answers -/

/-- **A store after any run.** Let a run of calls on a new store accept no more
    entities than there are identities. Of each list the run gets to the
    accepted entities and to the one after them. What it gets to is accepted
    just if every field reads a value of its type, and the accepted entities
    have the identities 1, 2, 3 and so on: what is refused uses up none. The
    store counts the accepted entities, finds each of them under its number
    and nothing under any other, and lists them in this order, as a query
    without ordering does. What a call hands back is what its visits gave. -/
theorem store_accounts (schema : Schema ε) (calls : List (Store.Call ε))
    (hcapacity : ((ofCalls schema calls).fitting schema).length ≤ Store.capacity) :
    let journal := ofCalls schema calls
    let store := journal.store
    let accepted := journal.fitting schema
    journal.visits.map Visit.entity = calls.flatMap (fun call =>
      call.offered.take ((schema.accepted call.offered).length + 1)) ∧
    (∀ visit ∈ journal.visits, (∃ id, visit.outcome = .ok id) ↔ schema.Fits visit.entity) ∧
    (journal.visits.filterMap Visit.entry?).map (fun entry => (entry.2, entry.1.toNat)) =
      accepted.zipIdx 1 ∧
    store.size = accepted.length ∧
    store.isEmpty = decide (store.size = 0) ∧
    (∀ id, store.get? id = if id = 0 then none else accepted[id.toNat - 1]?) ∧
    store.scan = accepted ∧
    (∀ (catalog : Catalog ε) (id : StoreId), catalog.store id = store →
      Query.rows { source := id } catalog = accepted) ∧
    ∀ call, (store.call schema call).2 =
      (store.visits schema call.offered).mapM Visit.outcome := by
  intro journal store accepted
  have hsound : journal.Sound schema := sound_ofCalls schema calls
  have hscan : store.scan = accepted := hsound.records.scan_eq hcapacity
  refine ⟨map_entity_visits_foldl {} calls, hsound.accepted_iff, ?_, ?_, Store.isEmpty_eq store,
    hsound.records.get?_eq hcapacity, hscan, ?_, ?_⟩
  · rw [hsound.entries_eq, Store.map_toNat_numbered hcapacity]
  · rw [← Store.length_scan, hscan]
  · intro catalog id hstore
    rw [Query.rows, hstore, Chain.sort_nil, hscan]
  · intro call
    rw [Store.call_eq_insertAll, Store.snd_insertAll]

/-- Numbers among which text and truth values are offered. -/
def mixedCalls : List (Store.Call Row) :=
  [.insert ⟨[.int 7]⟩, .insertAll [⟨[.int 5]⟩, ⟨[.text "6"]⟩, ⟨[.int 8]⟩],
    .insert ⟨[.boolean true]⟩, .insertAll [⟨[.int 4]⟩]]

/-- The number after the refused text is not got to, and the last one follows
    the second in the store. -/
theorem store_accounts_mixedCalls :
    let store := (ofCalls numberSchema mixedCalls).store
    ((ofCalls numberSchema mixedCalls).fitting numberSchema).length ≤ Store.capacity ∧
    store.scan = [⟨[.int 7]⟩, ⟨[.int 5]⟩, ⟨[.int 4]⟩] ∧
    store.size = 3 ∧
    store.get? 3 = some ⟨[.int 4]⟩ ∧
    store.get? 0 = none ∧
    store.get? 4 = none := by
  intro store
  have hfitting : (ofCalls numberSchema mixedCalls).fitting numberSchema =
      [⟨[.int 7]⟩, ⟨[.int 5]⟩, ⟨[.int 4]⟩] := by decide +kernel
  have hcapacity : ((ofCalls numberSchema mixedCalls).fitting numberSchema).length ≤
      Store.capacity := by
    rw [hfitting]
    decide
  obtain ⟨-, -, -, hsize, -, hget, hscan, -⟩ :=
    store_accounts numberSchema mixedCalls hcapacity
  rw [hfitting] at hsize hget hscan
  exact ⟨hcapacity, hscan, hsize, hget 3, hget 0, hget 4⟩

end Journal

end RowOrder
