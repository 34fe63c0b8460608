import RowOrder.Descriptor.Apply
import RowOrder.Descriptor.Edit

/-! # Workspaces

    A workspace holds named stores, named queries and named descriptors, each
    kind with names of its own. A command makes a new holder of a name or puts
    entities into a store; whatever a name was given to before stays as it is
    for those who hold it.

    - A query holds the identity of its store and its own chain. A new store
      under an old name is another store; the queries over the old one go on
      seeing the old one.
    - A command that fails leaves the workspace as it was, apart from the
      entities that a list stored before the first refusal.
-/

namespace RowOrder

variable {ε : Type}

/-- A name, as a workspace uses it. -/
abbrev Name := String

/-- Things by name. -/
abbrev Names (α : Type) := Std.TreeMap Name α

/-- Named stores, queries and descriptors. -/
structure Workspace (ε : Type) where
  /-- All stores there have ever been. -/
  catalog : Catalog ε := {}
  /-- The stores that have a name. -/
  stores : Names StoreId := ∅
  /-- The queries that have a name. -/
  queries : Names (Query ε) := ∅
  /-- The descriptors that have a name. -/
  descriptors : Names (Descriptor ε) := ∅

/-! ### Commands and replies -/

/-- What a workspace can be told to do. -/
inductive Command (ε : Type) where
  /-- Make an empty store. -/
  | createStore (name : Name)
  /-- Put an entity into a store. -/
  | insert (store : Name) (entity : ε)
  /-- Put entities into a store until one is refused. -/
  | insertAll (store : Name) (entities : List ε)
  /-- Make a query over a store. -/
  | openQuery (store name : Name)
  /-- Make a query over a new store, which gets no name. -/
  | loadQuery (entities : List ε) (name : Name)
  /-- Derive a query from another. -/
  | deriveQuery (query : Name) (derivation : Derivation Name) (name : Name)
  /-- Make a descriptor. -/
  | makeDescriptor (recipe : Descriptor.Recipe) (name : Name)
  /-- Compute the text of an edited descriptor; if a name is given, also make
      the descriptor that the text describes. -/
  | editDescriptor (descriptor : Name) (edit : Edit) (name : Option Name)

/-- What a workspace answers. -/
inductive Reply (ε : Type) where
  /-- A store was made. -/
  | store (store : Store ε)
  /-- An entity was stored or refused; the store as it is now. -/
  | inserted (outcome : Except SchemaError EntityId) (store : Store ε)
  /-- Entities were stored until one was refused; the store as it is now. -/
  | insertedAll (outcome : Except SchemaError (List EntityId)) (store : Store ε)
  /-- A query was made or refused. -/
  | query (outcome : Except QueryError (Query ε))
  /-- A descriptor was made. -/
  | descriptor (descriptor : Descriptor ε)
  /-- A descriptor was edited; the text of the edit, and the descriptor it
      was made from. -/
  | edited (text : String) (source : Descriptor ε)
  /-- There is nothing of that name. -/
  | unknownName (name : Name)

namespace Workspace

/-- The workspace without anything in it. -/
def empty : Workspace ε := {}

/-- The store of a name, as it is now. -/
def store? (workspace : Workspace ε) (name : Name) : Option (Store ε) :=
  (workspace.stores[name]?).map workspace.catalog.store

/-- The query of a name. -/
def query? (workspace : Workspace ε) (name : Name) : Option (Query ε) :=
  workspace.queries[name]?

/-- The descriptor of a name. -/
def descriptor? (workspace : Workspace ε) (name : Name) : Option (Descriptor ε) :=
  workspace.descriptors[name]?

/-! ### One command -/

/-- The workspace in which a name is given to a query, if there is one. -/
def bindQuery (workspace : Workspace ε) (name : Name) (outcome : Except QueryError (Query ε)) :
    Workspace ε :=
  match outcome with
  | .ok query => { workspace with queries := workspace.queries.insert name query }
  | .error _ => workspace

/-- The workspace in which a name is given to a descriptor. -/
def bindDescriptor (workspace : Workspace ε) (name : Name) (descriptor : Descriptor ε) :
    Workspace ε :=
  { workspace with descriptors := workspace.descriptors.insert name descriptor }

/-- The workspace after a command, and its answer. -/
def run (schema : Schema ε) (workspace : Workspace ε) :
    Command ε → Logged (Workspace ε × Reply ε)
  | .createStore name =>
    return ({ workspace with
        catalog := workspace.catalog.add Store.empty
        stores := workspace.stores.insert name workspace.catalog.nextId },
      .store Store.empty)
  | .insert name entity =>
    match workspace.stores[name]? with
    | none => return (workspace, .unknownName name)
    | some id =>
      let (store, outcome) := (workspace.catalog.store id).insert schema entity
      return ({ workspace with catalog := workspace.catalog.replace id store },
        .inserted outcome store)
  | .insertAll name entities =>
    match workspace.stores[name]? with
    | none => return (workspace, .unknownName name)
    | some id =>
      let (store, outcome) := (workspace.catalog.store id).insertAll schema entities
      return ({ workspace with catalog := workspace.catalog.replace id store },
        .insertedAll outcome store)
  | .openQuery store name =>
    match workspace.stores[store]? with
    | none => return (workspace, .unknownName store)
    | some source =>
      return (workspace.bindQuery name (.ok { source }), .query (.ok { source }))
  | .loadQuery entities name =>
    match Query.load schema workspace.catalog entities with
    | .error error => return (workspace, .query (.error error))
    | .ok (catalog, query) =>
      return ({ workspace with catalog }.bindQuery name (.ok query), .query (.ok query))
  | .deriveQuery source derivation name =>
    match workspace.query? source, derivation.lookUp workspace.descriptor? with
    | none, _ => return (workspace, .unknownName source)
    | _, .error descriptor => return (workspace, .unknownName descriptor)
    | some query, .ok derivation => do
      let outcome ← query.derive schema derivation
      return (workspace.bindQuery name outcome, .query outcome)
  | .makeDescriptor recipe name => do
    let descriptor ← Descriptor.make schema recipe
    return (workspace.bindDescriptor name descriptor, .descriptor descriptor)
  | .editDescriptor source edit name =>
    match workspace.descriptor? source with
    | none => return (workspace, .unknownName source)
    | some descriptor => do
      let text ← descriptor.edited schema edit
      match name with
      | none => return (workspace, .edited text descriptor)
      | some name =>
        let next ← Descriptor.parse schema text descriptor.config
        return (workspace.bindDescriptor name next, .edited text descriptor)

/-- The workspace after a list of commands. -/
def runAll (schema : Schema ε) (workspace : Workspace ε) (commands : List (Command ε)) :
    Workspace ε :=
  commands.foldl (fun workspace command => (workspace.run schema command).value.1) workspace

end Workspace

end RowOrder
