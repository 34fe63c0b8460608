import RowOrder.Proofs.FilledStores
import RowOrder.Proofs.Text.Ends

/-! # Insertion of a whole list

    A list is stored one entity after the other until one is refused. What a
    list begins with is stored as if it were offered alone, and then the rest is
    offered (`Store.insertAll_append`). So the first entity that does not fit
    decides: those before it are stored, its error is handed back, and those
    after it are not got to.

    - `Schema.Refuses` says which error a schema refuses an entity with.
    - `Store.insertAll_until_refusal` says what a list does to a store that has
      accepted entities before, and what becomes of it when it is loaded.
-/

namespace RowOrder

variable {ε : Type} {schema : Schema ε}

/-! ### The error of an entity -/

namespace Schema

/-- The schema refuses the entity with the error. -/
inductive Refuses (schema : Schema ε) (e : ε) : SchemaError → Prop where
  /-- The first field, in the schema's order, that reads a value of another type
      than it declares is reported with both types. -/
  | mismatch {earlier later : List (Field ε)} {field : Field ε}
      (hfields : schema.fields = earlier ++ field :: later)
      (hearlier : ∀ f ∈ earlier, f.Fits e) (hfield : ¬ field.Fits e) :
      Refuses schema e (.fieldTypeMismatch field.name field.type (field.read e).columnType)

variable {e : ε} {error : SchemaError}

/-- A check fails with the error of the first field that does not fit. -/
theorem check_eq_error_iff : schema.check e = .error error ↔ schema.Refuses e error := by
  unfold check mismatch?
  constructor
  · intro h
    cases hfind : schema.fields.find? (fun f => ¬ f.Fits e) with
    | none =>
      rw [hfind] at h
      contradiction
    | some field =>
      rw [hfind] at h
      obtain rfl := Except.error.inj h
      obtain ⟨hfield, earlier, later, hfields, hearlier⟩ :=
        List.find?_eq_some_iff_append.mp hfind
      exact .mismatch hfields (by simpa using hearlier) (by simpa using hfield)
  · rintro ⟨hfields, hearlier, hfield⟩
    rw [List.find?_eq_some_iff_append.mpr
      ⟨by simpa using hfield, _, _, hfields, by simpa using hearlier⟩]
    rfl

theorem Refuses.not_fits (h : schema.Refuses e error) : ¬ schema.Fits e := by
  rw [← check_eq_ok_iff, check_eq_error_iff.mpr h]
  exact fun hok => by contradiction

/-- Of entities that do not all fit there is a first one that is refused. -/
theorem exists_first_refused {entities : List ε} (h : ¬ ∀ e ∈ entities, schema.Fits e) :
    ∃ before e after error, entities = before ++ e :: after ∧ (∀ a ∈ before, schema.Fits a) ∧
      schema.Refuses e error := by
  induction entities with
  | nil => exact absurd (List.forall_mem_nil _) h
  | cons a rest ih =>
    by_cases ha : schema.Fits a
    · have hrest : ¬ ∀ e ∈ rest, schema.Fits e := fun hall =>
        h (List.forall_mem_cons.mpr ⟨ha, hall⟩)
      obtain ⟨before, e, after, error, rfl, hbefore, herror⟩ := ih hrest
      exact ⟨a :: before, e, after, error, rfl, List.forall_mem_cons.mpr ⟨ha, hbefore⟩, herror⟩
    · obtain ⟨error, herror⟩ := exists_check_eq_error ha
      exact ⟨[], a, rest, error, rfl, List.forall_mem_nil _, check_eq_error_iff.mp herror⟩

end Schema

/-! ### A list against its entities -/

namespace Store

variable {store : Store ε} {entities before after : List ε}

/-- The store after entities are offered one at a time. -/
def insertEach (schema : Schema ε) (store : Store ε) (entities : List ε) : Store ε :=
  entities.foldl (fun store e => (store.insert schema e).1) store

/-- What a list begins with is stored under the next identities, as it would be
    one at a time, if it fits; the rest is offered to the store it leaves. -/
theorem insertAll_append {place : Nat} (hbefore : ∀ e ∈ before, schema.Fits e)
    (hplace : store.nextId = EntityId.ofPlace place) (after : List ε) :
    store.insertAll schema (before ++ after) =
      (((store.insertEach schema before).insertAll schema after).1,
        ((store.insertEach schema before).insertAll schema after).2.map
          ((List.range' place before.length).map EntityId.ofPlace ++ ·)) := by
  -- Every entity moves the store on to the next place.
  induction before generalizing store place with
  | nil => exact Prod.ext rfl (congrFun Except.map_id (store.insertAll schema after).2).symm
  | cons e rest ih =>
    obtain ⟨he, hrest⟩ := List.forall_mem_cons.mp hbefore
    have hnext : (store.insert schema e).1.nextId = EntityId.ofPlace (place + 1) := by
      rw [insert_of_fits he, hplace, EntityId.ofPlace_succ]
    have heach : store.insertEach schema (e :: rest) =
        (store.insert schema e).1.insertEach schema rest := rfl
    rw [List.cons_append, insertAll_cons_of_fits he, ih hrest hnext, heach, hplace]
    cases (insertAll schema ((store.insert schema e).1.insertEach schema rest) after).2 <;> rfl

/-- A list that fits is stored as a whole. -/
theorem insertAll_eq_of_fits {place : Nat} (hfits : ∀ e ∈ entities, schema.Fits e)
    (hplace : store.nextId = EntityId.ofPlace place) :
    store.insertAll schema entities = (store.insertEach schema entities,
      .ok ((List.range' place entities.length).map EntityId.ofPlace)) := by
  have happend := insertAll_append hfits hplace []
  rw [List.append_nil] at happend
  rw [happend, insertAll, Except.map, List.append_nil]

/-- The first entity that is refused ends the list. -/
theorem insertAll_eq_of_refuses {place : Nat} {e : ε} {error : SchemaError}
    (hbefore : ∀ a ∈ before, schema.Fits a) (hplace : store.nextId = EntityId.ofPlace place)
    (herror : schema.Refuses e error) (after : List ε) :
    store.insertAll schema (before ++ e :: after) =
      (store.insertEach schema before, .error error) := by
  have hstep : (store.insertEach schema before).insertAll schema (e :: after) =
      (store.insertEach schema before, .error error) := by
    rw [insertAll, insert_of_check_eq_error (Schema.check_eq_error_iff.mpr herror)]
  rw [insertAll_append hbefore hplace, hstep]
  rfl

theorem Records.insertEach {offered : List ε} (h : store.Records entities)
    (hfits : ∀ e ∈ offered, schema.Fits e) :
    (store.insertEach schema offered).Records (entities ++ offered) := by
  have hall : (store.insertAll schema offered).1.Records (entities ++ schema.accepted offered) :=
    h.insertAll offered
  rwa [insertAll_eq_of_fits hfits h.nextId, Schema.accepted_eq_self hfits] at hall

/-- The identities of places that follow one another follow one another. -/
theorem map_toNat_ofPlace {place count : Nat} (h : place + count ≤ capacity) :
    ((List.range' place count).map EntityId.ofPlace).map UInt64.toNat =
      List.range' (place + 1) count := by
  calc ((List.range' place count).map EntityId.ofPlace).map UInt64.toNat
      = (List.range' place count).map (1 + ·) := by
        rw [List.map_map]
        refine List.map_congr_left fun i hi => ?_
        have hlt := (List.mem_range'_1.mp hi).2
        rw [Function.comp, EntityId.toNat_ofPlace (by omega), Nat.add_comm]
    _ = List.range' (place + 1) count := by rw [List.map_add_range', Nat.add_comm]

end Store

/-! ### Lists that are loaded -/

theorem Query.load_of_refuses {before after : List ε} {e : ε} {error : SchemaError}
    (hbefore : ∀ a ∈ before, schema.Fits a) (herror : schema.Refuses e error)
    (catalog : Catalog ε) :
    load schema catalog (before ++ e :: after) = .error (.schema error) := by
  rw [load, Store.insertAll_eq_of_refuses hbefore Store.records_empty.nextId herror]

/-! ### What becomes of a list -/

namespace Store

/-- **A list is stored up to the first refusal.** Let a store have accepted some
    entities, and let it have room for as many more as a list has. If all the
    list fits, it is stored as its entities would be one at a time, under the
    identities that come next, one for each in their order; loaded, it makes a
    query without ordering that yields it. Otherwise there is a first entity
    that is refused. Those before it are stored as they would be one at a time,
    the next identity is the one after theirs, and the error of the refused one
    is handed back: also when the list is loaded, which makes no query then. -/
theorem insertAll_until_refusal (schema : Schema ε) (store : Store ε) (accepted : List ε)
    (hfilled : store.Filled schema accepted) (offered : List ε)
    (hcapacity : accepted.length + offered.length ≤ capacity) (catalog : Catalog ε) :
    ((∀ e ∈ offered, schema.Fits e) →
      (∃ ids, store.insertAll schema offered = (store.insertEach schema offered, .ok ids) ∧
        ids.map UInt64.toNat = List.range' (accepted.length + 1) offered.length) ∧
      (store.insertEach schema offered).scan = accepted ++ offered ∧
      ∃ next query, Query.load schema catalog offered = .ok (next, query) ∧
        query.state = .unordered ∧ query.rows next = offered) ∧
    ((¬ ∀ e ∈ offered, schema.Fits e) →
      ∃ before e after error, offered = before ++ e :: after ∧
        (∀ a ∈ before, schema.Fits a) ∧ schema.Refuses e error ∧
        store.insertAll schema offered = (store.insertEach schema before, .error error) ∧
        (store.insertEach schema before).scan = accepted ++ before ∧
        (store.insertEach schema before).nextId.toNat = accepted.length + before.length + 1 ∧
        Query.load schema catalog offered = .error (.schema error)) := by
  have hrecords : store.Records accepted := hfilled.records
  refine ⟨?_, ?_⟩
  · intro hfits
    have heach := hrecords.insertEach hfits
    obtain ⟨next, hload, hrows⟩ :=
      Query.exists_load_eq_ok hfits (Nat.le_trans (Nat.le_add_left _ _) hcapacity) catalog
    refine ⟨⟨_, insertAll_eq_of_fits hfits hrecords.nextId, map_toNat_ofPlace hcapacity⟩,
      heach.scan_eq (by rwa [List.length_append]), next, _, hload, rfl, ?_⟩
    rw [hrows, Chain.sort_nil]
  · intro hnot
    obtain ⟨before, e, after, error, rfl, hbefore, herror⟩ := Schema.exists_first_refused hnot
    have heach := hrecords.insertEach hbefore
    have hroom : (accepted ++ before).length < capacity := by
      rw [List.length_append, List.length_cons] at hcapacity
      rw [List.length_append]
      omega
    refine ⟨before, e, after, error, rfl, hbefore, herror,
      insertAll_eq_of_refuses hbefore hrecords.nextId herror after,
      heach.scan_eq (Nat.le_of_lt hroom), ?_, Query.load_of_refuses hbefore herror catalog⟩
    rw [heach.nextId, EntityId.toNat_ofPlace hroom, List.length_append]

/-- Numbers with a rank. -/
def rankSchema : Schema Row where
  fields := [Row.field "Id" .int 0, Row.field "Rank" .int 1]
  distinct := by
    simp only [Text.sameName_iff]
    decide

/-- Neither field of the second row fits, and the first field is the one that
    is reported. Without this row the list takes the identities 2 and 3. -/
theorem insertAll_until_refusal_ranks :
    let stored : Row := ⟨[.int 7, .int 1]⟩
    let second : Row := ⟨[.int 5, .int 2]⟩
    let wrong : Row := ⟨[.text "6", .boolean true]⟩
    let third : Row := ⟨[.int 8, .int 3]⟩
    let store := (Journal.ofCalls rankSchema [.insert stored]).store
    let error : SchemaError := .fieldTypeMismatch "Id" .int .text
    store.Filled rankSchema [stored] ∧
    [stored].length + [second, wrong, third].length ≤ capacity ∧
    store.insertAll rankSchema [second, wrong, third] =
      (store.insertEach rankSchema [second], .error error) ∧
    (store.insertEach rankSchema [second]).scan = [stored, second] ∧
    (store.insertEach rankSchema [second]).nextId.toNat = 3 ∧
    Query.load rankSchema Catalog.empty [second, wrong, third] = .error (.schema error) ∧
    ∃ ids, (store.insertAll rankSchema [second, third]).2 = .ok ids ∧
      ids.map UInt64.toNat = [2, 3] := by
  intro stored second wrong third store error
  have hfilled : store.Filled rankSchema [stored] :=
    filled_ofCalls [.insert stored] rfl (by decide +kernel)
  have hcapacity : [stored].length + [second, wrong, third].length ≤ capacity := by decide
  have hsecond : rankSchema.Fits second := by decide +kernel
  have hwrong : rankSchema.check wrong = .error error := by decide +kernel
  have hnot : ¬ ∀ row ∈ [second, wrong, third], rankSchema.Fits row := by decide +kernel
  obtain ⟨before, row, after, reported, hoffered, hbefore, hreported, hinsert, hscan, hnext, hload⟩ :=
    (insertAll_until_refusal rankSchema store _ hfilled _ hcapacity Catalog.empty).2 hnot
  -- The row that is refused is neither the first, which fits, nor behind the wrong one.
  obtain ⟨rfl, rfl⟩ : before = [second] ∧ row = wrong := by
    rcases List.cons_eq_append_iff.mp hoffered with ⟨rfl, hrow⟩ | ⟨front, rfl, hrest⟩
    · obtain ⟨rfl, -⟩ := List.cons.inj hrow
      exact absurd hsecond hreported.not_fits
    · rcases List.cons_eq_append_iff.mp hrest with ⟨rfl, hrow⟩ | ⟨more, rfl, -⟩
      · exact ⟨rfl, (List.cons.inj hrow).1⟩
      · have hfits := hbefore wrong (List.mem_cons_of_mem _ List.mem_cons_self)
        exact absurd hfits (by decide +kernel)
  obtain rfl : reported = error :=
    Except.error.inj ((Schema.check_eq_error_iff.mpr hreported).symm.trans hwrong)
  obtain ⟨⟨ids, hids, hnumbers⟩, -⟩ :=
    (insertAll_until_refusal rankSchema store _ hfilled [second, third] (by decide)
      Catalog.empty).1 (by decide +kernel)
  exact ⟨hfilled, hcapacity, hinsert, hscan, hnext, hload, ids, by rw [hids], hnumbers⟩

end Store

end RowOrder
