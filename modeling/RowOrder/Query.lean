import RowOrder.Catalog
import RowOrder.Chain

/-! # Queries

    A query is a view of a store through an ordering chain. It holds no rows:
    `Query.rows` reads the store as it is when the rows are asked for, and
    arranges them by the chain. Deriving a query from another leaves the other
    as it was.

    - `Query.orderBy` starts the ordering afresh.
    - `Query.thenBy` refines the ordering there is, and is refused where there
      is none.
-/

namespace RowOrder

variable {ε : Type}

/-! ### Errors -/

/-- Why a query is refused. -/
inductive QueryError where
  /-- A secondary ordering on a field was asked of an unordered query. -/
  | notOrdered (field : String)
  /-- A name stands for no field; it is reported as given. -/
  | unknownField (name : String)
  /-- The rows of a new query do not fit the schema. -/
  | schema (error : SchemaError)
  deriving DecidableEq

/-- The wording of a refusal. Names appear as they are. -/
def QueryError.message : QueryError → String
  | .notOrdered field =>
    "cannot apply a secondary ordering on '" ++ field ++ "' to a query that is not ordered"
  | .unknownField name => "unknown field '" ++ name ++ "'"
  | .schema error => error.message

/-! ### Queries -/

/-- A view of a store. -/
structure Query (ε : Type) where
  /-- The store whose entities are viewed. -/
  source : StoreId
  /-- The ordering in which they are viewed. -/
  chain : Chain ε := []

/-- Whether a query has an ordering. -/
inductive OrderingState where
  /-- The entities come in the order in which they were stored. -/
  | unordered
  /-- The entities come in the order of a chain. -/
  | ordered
  deriving DecidableEq

/-- The name under which a state is reported. -/
def OrderingState.name : OrderingState → String
  | .unordered => "Unordered"
  | .ordered => "Ordered"

namespace Query

/-- Whether the query has an ordering: its chain has a step. -/
def state (query : Query ε) : OrderingState :=
  if query.chain.isEmpty then .unordered else .ordered

/-- Whether the query has an ordering, as a truth value. -/
def isOrdered (query : Query ε) : Bool := query.state = .ordered

/-- The steps of the ordering as they are shown. -/
def ordering (query : Query ε) : List (String × Direction) := Chain.labels query.chain

/-! ### Orderings -/

/-- The query ordered by a key alone. -/
def orderBy (query : Query ε) (key : SortKey ε) : Query ε := { query with chain := [key] }

/-- The query with its ordering refined by a key. -/
def thenBy (query : Query ε) (key : SortKey ε) : Except QueryError (Query ε) :=
  if query.isOrdered then .ok { query with chain := query.chain ++ [key] }
  else .error (.notOrdered key.name)

/-- The key on the field that a name stands for. -/
def keyOn (schema : Schema ε) (name : String) (direction : Direction) :
    Except QueryError (SortKey ε) :=
  match schema.resolve? name with
  | some field => .ok ⟨field, direction⟩
  | none => .error (.unknownField name)

/-- The query ordered by a named field alone. -/
def orderByField (schema : Schema ε) (query : Query ε) (name : String) (direction : Direction) :
    Except QueryError (Query ε) := do
  let key ← keyOn schema name direction
  return query.orderBy key

/-- The query with its ordering refined by a named field. That the name is
    unknown is noticed before that there is no ordering to refine. -/
def thenByField (schema : Schema ε) (query : Query ε) (name : String) (direction : Direction) :
    Except QueryError (Query ε) := do
  let key ← keyOn schema name direction
  query.thenBy key

/-! ### Results -/

/-- The entities of the store as it is now, in the order of the query. -/
def rows (query : Query ε) (catalog : Catalog ε) : List ε :=
  Chain.sort query.chain (catalog.store query.source).scan

/-- The first entity in the order of the query. -/
def first? (query : Query ε) (catalog : Catalog ε) : Option ε := (query.rows catalog).head?

/-- A query without ordering over a new store that holds the given entities.
    If one of them is refused there is no query and no new store. -/
def load (schema : Schema ε) (catalog : Catalog ε) (entities : List ε) :
    Except QueryError (Catalog ε × Query ε) :=
  match Store.empty.insertAll schema entities with
  | (store, .ok _) => .ok (catalog.add store, { source := catalog.nextId })
  | (_, .error error) => .error (.schema error)

/-! ### The state -/

@[simp] theorem state_eq_unordered_iff {query : Query ε} :
    query.state = .unordered ↔ query.chain = [] := by
  cases h : query.chain <;> simp [state, h]

@[simp] theorem state_eq_ordered_iff {query : Query ε} :
    query.state = .ordered ↔ query.chain ≠ [] := by
  cases h : query.chain <;> simp [state, h]

@[simp] theorem isOrdered_iff {query : Query ε} : query.isOrdered = true ↔ query.chain ≠ [] := by
  cases h : query.chain <;> simp [isOrdered, state, h]

theorem thenBy_of_ne_nil {query : Query ε} (h : query.chain ≠ []) (key : SortKey ε) :
    query.thenBy key = .ok { query with chain := query.chain ++ [key] } := by
  rw [thenBy, if_pos (isOrdered_iff.2 h)]

theorem thenBy_of_eq_nil {query : Query ε} (h : query.chain = []) (key : SortKey ε) :
    query.thenBy key = .error (.notOrdered key.name) := by
  rw [thenBy, if_neg (by simp [h])]

/-! ### New stores -/

theorem load_of_fits {schema : Schema ε} {entities : List ε} (h : ∀ e ∈ entities, schema.Fits e)
    (catalog : Catalog ε) :
    load schema catalog entities =
      .ok (catalog.add (Store.empty.insertAll schema entities).1, { source := catalog.nextId }) := by
  obtain ⟨ids, hids⟩ := Store.insertAll_of_fits h Store.empty
  have hstore : Store.empty.insertAll schema entities =
      ((Store.empty.insertAll schema entities).1, .ok ids) := Prod.ext rfl hids
  rw [load, hstore]

theorem load_of_not_fits {schema : Schema ε} {entities : List ε}
    (h : ¬ ∀ e ∈ entities, schema.Fits e) (catalog : Catalog ε) :
    ∃ error, load schema catalog entities = .error (.schema error) := by
  obtain ⟨error, herror⟩ := Store.insertAll_of_not_fits h Store.empty
  have hstore : Store.empty.insertAll schema entities =
      ((Store.empty.insertAll schema entities).1, .error error) := Prod.ext rfl herror
  exact ⟨error, by rw [load, hstore]⟩

end Query

end RowOrder
