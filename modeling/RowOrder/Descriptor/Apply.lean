import RowOrder.Descriptor.Basic
import RowOrder.Query

/-! # Descriptors applied to queries

    Applying a descriptor extends the ordering of a query by the descriptor's
    keys. Each key starts the ordering if there is none yet and refines it
    otherwise, and is reported as it is applied.
-/

namespace RowOrder

variable {ε : Type}

namespace Query

/-- The query with a key applied: as its ordering if the key is the first, as a
    refinement otherwise. -/
def extend (query : Query ε) (key : SortKey ε) (isFirst : Bool) : Except QueryError (Query ε) :=
  if isFirst then .ok (query.orderBy key) else query.thenBy key

/-- The query with keys applied one after the other, each one reported. A key
    is the first if the query it meets has no ordering. -/
def applyKeys (query : Query ε) : List (SortKey ε) → Logged (Except QueryError (Query ε))
  | [] => return .ok query
  | key :: rest => do
    let isFirst := !query.isOrdered
    Logged.report (.applyingKey key.name key.direction isFirst)
    match query.extend key isFirst with
    | .ok query => applyKeys query rest
    | .error error => return .error error

/-- A key that is taken for the first just if the query has no ordering never
    fails to extend it: the step goes to the end of the chain. -/
theorem extend_not_isOrdered (query : Query ε) (key : SortKey ε) :
    query.extend key (!query.isOrdered) = .ok { query with chain := query.chain ++ [key] } := by
  by_cases h : query.chain = []
  · have hunordered : query.isOrdered = false := by simp [isOrdered, state, h]
    rw [hunordered, h]
    rfl
  · rw [isOrdered_iff.mpr h]
    exact thenBy_of_ne_nil h key

end Query

/-- The query ordered by a descriptor, after the ordering it has. -/
def Descriptor.apply (descriptor : Descriptor ε) (query : Query ε) :
    Logged (Except QueryError (Query ε)) :=
  if descriptor.isEmpty then return .ok query else query.applyKeys descriptor.keys

/-! ### Every way to derive a query -/

/-- A way to derive a query from another; descriptors are given as a `δ`. -/
inductive Derivation (δ : Type) where
  /-- Order by a named field alone. -/
  | orderByField (field : String) (direction : Direction)
  /-- Refine the ordering by a named field. -/
  | thenByField (field : String) (direction : Direction)
  /-- Apply a descriptor. -/
  | apply (descriptor : δ)
  /-- Apply the descriptor that a text describes. -/
  | orderByText (text : String)
  /-- Apply the descriptor that a list of tokens describes. -/
  | orderByTokens (tokens : List String)

/-- The derivation with its descriptor looked up, or what could not be found. -/
def Derivation.lookUp {δ δ' : Type} (find? : δ → Option δ') : Derivation δ → Except δ (Derivation δ')
  | .orderByField field direction => .ok (.orderByField field direction)
  | .thenByField field direction => .ok (.thenByField field direction)
  | .apply descriptor =>
    match find? descriptor with
    | some found => .ok (.apply found)
    | none => .error descriptor
  | .orderByText text => .ok (.orderByText text)
  | .orderByTokens tokens => .ok (.orderByTokens tokens)

namespace Query

/-- The query ordered by a text, after the ordering it has. -/
def orderByText (schema : Schema ε) (query : Query ε) (text : String) :
    Logged (Except QueryError (Query ε)) := do
  let descriptor ← Descriptor.parse schema text
  descriptor.apply query

/-- The query ordered by a list of tokens, after the ordering it has. -/
def orderByTokens (schema : Schema ε) (query : Query ε) (tokens : List String) :
    Logged (Except QueryError (Query ε)) := do
  let descriptor ← Descriptor.fromTokens schema tokens
  descriptor.apply query

/-- The query that a derivation gives. -/
def derive (schema : Schema ε) (query : Query ε) :
    Derivation (Descriptor ε) → Logged (Except QueryError (Query ε))
  | .orderByField field direction => return query.orderByField schema field direction
  | .thenByField field direction => return query.thenByField schema field direction
  | .apply descriptor => descriptor.apply query
  | .orderByText text => query.orderByText schema text
  | .orderByTokens tokens => query.orderByTokens schema tokens

end Query

end RowOrder
