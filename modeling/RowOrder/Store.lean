import Std.Data.TreeMap
import RowOrder.Schema

/-! # Stores

    A store keeps entities under identities that it hands out itself, counting
    up from 1.

    - Only an entity that fits the schema is stored. A refused one uses up no
      identity and changes nothing.
    - `Store.insertAll` stores a list one by one and stops at the first
      refusal; the entities before it stay.
    - `Store.scan` lists the entities in the order of their identities.
-/

namespace RowOrder

variable {ε : Type}

/-- The identity under which an entity is stored. -/
abbrev EntityId := UInt64

/-- Entities by identity, and the identity that the next one gets. -/
structure Store (ε : Type) where
  /-- The entities. -/
  entries : Std.TreeMap EntityId ε := ∅
  /-- The next identity; after the last 64-bit number it starts again at 0. -/
  nextId : EntityId := 1

namespace Store

/-- The store without entities. -/
def empty : Store ε := {}

/-- Stores an entity that fits the schema under the next identity. -/
def insert (schema : Schema ε) (store : Store ε) (e : ε) :
    Store ε × Except SchemaError EntityId :=
  match schema.check e with
  | .error error => (store, .error error)
  | .ok () =>
    ({ entries := store.entries.insert store.nextId e, nextId := store.nextId + 1 },
      .ok store.nextId)

/-- Stores entities one by one until one is refused; the identities are those
    of the entities in order. -/
def insertAll (schema : Schema ε) (store : Store ε) :
    List ε → Store ε × Except SchemaError (List EntityId)
  | [] => (store, .ok [])
  | e :: rest =>
    match store.insert schema e with
    | (store, .error error) => (store, .error error)
    | (store, .ok id) =>
      let (store, ids) := insertAll schema store rest
      (store, ids.map (id :: ·))

/-- The entity with an identity. -/
def get? (store : Store ε) (id : EntityId) : Option ε := store.entries[id]?

/-- The number of entities. -/
def size (store : Store ε) : Nat := store.entries.size

/-- Whether there are no entities. -/
def isEmpty (store : Store ε) : Bool := store.entries.isEmpty

/-- The entities in the order of their identities. -/
def scan (store : Store ε) : List ε := store.entries.toList.map Prod.snd

/-! ### One insertion -/

theorem insert_of_check_eq_error {schema : Schema ε} {store : Store ε} {e : ε}
    {error : SchemaError} (h : schema.check e = .error error) :
    store.insert schema e = (store, .error error) := by
  simp [insert, h]

theorem insert_of_fits {schema : Schema ε} {store : Store ε} {e : ε} (h : schema.Fits e) :
    store.insert schema e =
      ({ entries := store.entries.insert store.nextId e, nextId := store.nextId + 1 },
        .ok store.nextId) := by
  simp [insert, Schema.check_eq_ok_iff.2 h]

theorem get?_insert_of_fits {schema : Schema ε} {store : Store ε} {e : ε} (h : schema.Fits e)
    (id : EntityId) :
    (store.insert schema e).1.get? id = if store.nextId = id then some e else store.get? id := by
  rw [insert_of_fits h]
  simp [get?, Std.TreeMap.getElem?_insert]

/-- A refusal leaves the store as it was. -/
theorem insert_of_not_fits {schema : Schema ε} {store : Store ε} {e : ε} (h : ¬ schema.Fits e) :
    (store.insert schema e).1 = store := by
  obtain ⟨error, herror⟩ := Schema.exists_check_eq_error h
  rw [insert_of_check_eq_error herror]

/-- Everything that an insertion can do. -/
theorem insert_cases (schema : Schema ε) (store : Store ε) (e : ε) :
    (schema.Fits e ∧ store.insert schema e =
      ({ entries := store.entries.insert store.nextId e, nextId := store.nextId + 1 },
        .ok store.nextId)) ∨
    ∃ error, schema.check e = .error error ∧ store.insert schema e = (store, .error error) := by
  by_cases he : schema.Fits e
  · exact .inl ⟨he, insert_of_fits he⟩
  · obtain ⟨error, herror⟩ := Schema.exists_check_eq_error he
    exact .inr ⟨error, herror, insert_of_check_eq_error herror⟩

/-! ### A list of entities -/

theorem insertAll_cons_of_fits {schema : Schema ε} {e : ε} (h : schema.Fits e)
    (store : Store ε) (rest : List ε) :
    store.insertAll schema (e :: rest) =
      (((store.insert schema e).1.insertAll schema rest).1,
        ((store.insert schema e).1.insertAll schema rest).2.map (store.nextId :: ·)) := by
  rw [insertAll, insert_of_fits h]

/-- The first refusal ends it. -/
theorem insertAll_cons_of_not_fits {schema : Schema ε} {e : ε} (h : ¬ schema.Fits e)
    (store : Store ε) (rest : List ε) :
    ∃ error, schema.check e = .error error ∧
      store.insertAll schema (e :: rest) = (store, .error error) := by
  obtain ⟨error, herror⟩ := Schema.exists_check_eq_error h
  exact ⟨error, herror, by rw [insertAll, insert_of_check_eq_error herror]⟩

/-- One entity is offered as a list of one is. -/
theorem fst_insert (schema : Schema ε) (store : Store ε) (e : ε) :
    (store.insert schema e).1 = (store.insertAll schema [e]).1 := by
  by_cases he : schema.Fits e
  · rw [insertAll_cons_of_fits he]
    rfl
  · obtain ⟨error, -, hinsert⟩ := insertAll_cons_of_not_fits he store []
    rw [insert_of_not_fits he, hinsert]

/-- A list is accepted as a whole if all its entities fit. -/
theorem insertAll_of_fits {schema : Schema ε} {entities : List ε}
    (h : ∀ e ∈ entities, schema.Fits e) (store : Store ε) :
    ∃ ids, (store.insertAll schema entities).2 = .ok ids := by
  induction entities generalizing store with
  | nil => exact ⟨[], rfl⟩
  | cons e rest ih =>
    obtain ⟨ids, hids⟩ :=
      ih (fun e' he' => h e' (List.mem_cons_of_mem _ he')) (store.insert schema e).1
    rw [insertAll_cons_of_fits (h e List.mem_cons_self), hids]
    exact ⟨store.nextId :: ids, rfl⟩

theorem insertAll_of_not_fits {schema : Schema ε} {entities : List ε}
    (h : ¬ ∀ e ∈ entities, schema.Fits e) (store : Store ε) :
    ∃ error, (store.insertAll schema entities).2 = .error error := by
  induction entities generalizing store with
  | nil => simp at h
  | cons e rest ih =>
    by_cases he : schema.Fits e
    · obtain ⟨error, herror⟩ :=
        ih (fun hrest => h (List.forall_mem_cons.mpr ⟨he, hrest⟩)) (store.insert schema e).1
      rw [insertAll_cons_of_fits he, herror]
      exact ⟨error, rfl⟩
    · obtain ⟨error, -, hinsert⟩ := insertAll_cons_of_not_fits he store rest
      rw [hinsert]
      exact ⟨error, rfl⟩

@[simp] theorem get?_empty (id : EntityId) : (empty : Store ε).get? id = none := by
  simp [empty, get?]

@[simp] theorem scan_empty : (empty : Store ε).scan = [] := rfl

@[simp] theorem length_scan (store : Store ε) : store.scan.length = store.size := by
  simp [scan, size]

end Store

end RowOrder
