import RowOrder.Proofs.Ledger
import RowOrder.Proofs.Reachable

/-! # Queries as live views

    A query holds the identity of its store and a chain, and no rows. What it
    yields changes with its store and with nothing else.

    - `Ledger.Feeds` says which commands put something into a store.
    - `Workspace.made_query_is_live`: a query that was made at some point of a
      run yields, at any later point, what its store has accepted by then,
      arranged by the chain it was made with.
-/

namespace RowOrder

variable {ε : Type} {schema : Schema ε}

namespace Ledger

variable {ledger : Ledger ε} {workspace : Workspace ε} {command : Command ε}

/-! ### The store of a query -/

/-- The store over which a command makes a query: the one that a name has, a
    new one, or that of the query from which it is derived. -/
def viewed? (ledger : Ledger ε) (workspace : Workspace ε) : Command ε → Option StoreId
  | .openQuery store _ => ledger.named store
  | .loadQuery _ _ => some ⟨ledger.made⟩
  | .deriveQuery source _ _ => (workspace.query? source).map Query.source
  | _ => none

theorem Describes.viewed?_eq (h : Describes ledger workspace) {name : Name} {query : Query ε}
    (hmade : workspace.Makes schema command name query) :
    ledger.viewed? workspace command = some query.source := by
  cases hmade with
  | opened hstore => exact (h.named_eq _).symm.trans hstore
  | loaded hfits => exact congrArg some h.nextId_eq.symm
  | derived hsource hfound hnext =>
    rw [viewed?, hsource, Option.map_some, Query.source_of_derive hnext]

/-! ### The commands that feed a store -/

/-- The command puts an entity that fits into a name that the store has. -/
def Feeds (schema : Schema ε) (ledger : Ledger ε) (command : Command ε) (id : StoreId) : Prop :=
  ∃ name, ledger.named name = some id ∧ ∃ e, schema.Fits e ∧
    (command = .insert name e ∨ ∃ rest, command = .insertAll name (e :: rest))

/-- A store that is not fed accepts nothing. -/
theorem gain_eq_nil_of_not_feeds {id : StoreId} (hmade : id.index < ledger.made)
    (h : ¬ ledger.Feeds schema command id) : ledger.gain schema command id = [] := by
  cases command with
  | insert name e =>
    by_cases hname : ledger.named name = some id
    · have hfits : ¬ schema.Fits e := fun he => h ⟨name, hname, e, he, .inl rfl⟩
      rw [gain, if_pos hname, Schema.accepted_cons_of_not_fits hfits]
    · exact if_neg hname
  | insertAll name entities =>
    by_cases hname : ledger.named name = some id
    · rw [gain, if_pos hname]
      cases entities with
      | nil => rfl
      | cons e rest =>
        have hfits : ¬ schema.Fits e := fun he => h ⟨name, hname, e, he, .inr ⟨rest, rfl⟩⟩
        exact Schema.accepted_cons_of_not_fits hfits rest
    · exact if_neg hname
  | loadQuery entities name =>
    -- What is loaded goes into a new store.
    refine if_neg ?_
    rintro ⟨-, rfl⟩
    exact Nat.lt_irrefl _ hmade
  | _ => rfl

/-! ### What a query yields -/

/-- A query yields what the ledger lists for its store, arranged. -/
theorem Describes.rows_eq (h : Describes ledger workspace) (query : Query ε)
    (hbound : (ledger.accepted query.source).length ≤ Store.capacity) :
    query.rows workspace.catalog = Chain.sort query.chain (ledger.accepted query.source) := by
  rw [Query.rows, (h.records query.source).scan_eq hbound]

theorem Describes.rows_run_eq (h : Describes ledger workspace) (schema : Schema ε)
    (query : Query ε) (command : Command ε)
    (hbound : (ledger.accepted query.source ++
      ledger.gain schema command query.source).length ≤ Store.capacity) :
    query.rows (workspace.run schema command).value.1.catalog =
      Chain.sort query.chain
        (ledger.accepted query.source ++ ledger.gain schema command query.source) :=
  (h.run command).rows_eq query hbound

/-! ### What lasts -/

/-- Stores are made and never lost. -/
theorem made_le_enter (ledger : Ledger ε) (command : Command ε) :
    ledger.made ≤ (ledger.enter schema command).made := by
  show ledger.made ≤ if command.makesStore schema then ledger.made + 1 else ledger.made
  split
  · exact Nat.le_succ _
  · exact Nat.le_refl _

theorem made_le_foldl (ledger : Ledger ε) (commands : List (Command ε)) :
    ledger.made ≤ (commands.foldl (enter schema) ledger).made := by
  induction commands generalizing ledger with
  | nil => exact Nat.le_refl _
  | cons command rest ih => exact Nat.le_trans (made_le_enter ledger command) (ih _)

/-- The store of a query is there from the command that makes the query on. -/
theorem Describes.source_lt_foldl (h : Describes ledger workspace) {name : Name} {query : Query ε}
    (hmade : workspace.Makes schema command name query) (commands : List (Command ε)) :
    query.source.index < (commands.foldl (enter schema) (ledger.enter schema command)).made :=
  Nat.lt_of_lt_of_le ((h.run command).source_lt hmade.query?_run) (made_le_foldl _ commands)

end Ledger

namespace Workspace

theorem runAll_append (schema : Schema ε) (workspace : Workspace ε)
    (first second : List (Command ε)) :
    workspace.runAll schema (first ++ second) =
      (workspace.runAll schema first).runAll schema second :=
  List.foldl_append

/-- A name stands for the query that was made of it, throughout a run in which
    no command makes another of this name. -/
theorem Makes.query?_runAll {workspace : Workspace ε} {maker : Command ε} {name : Name}
    {query : Query ε} (hmade : workspace.Makes schema maker name query)
    (commands : List (Command ε))
    (hkept : ∀ earlier command later other, commands = earlier ++ command :: later →
      ¬ (workspace.runAll schema (maker :: earlier)).Makes schema command name other) :
    (workspace.runAll schema (maker :: commands)).query? name = some query :=
  Workspace.query?_runAll hmade.query?_run commands hkept

/-- **Queries are live views, and they last.** Let a command of a run make a
    query, and let its store have identities enough for all that is put into
    it. At any later point of the run the query yields what its store has
    accepted by then, in the order in which it was accepted, arranged by the
    chain that the query was made with. Of the commands that may come next
    those that put an entity that fits into a name of the store add what is
    accepted, and no other changes what the query yields: no derivation, no
    insertion elsewhere, no new holder of a name, no command that fails. A name
    stands for the query until another is made of that name. -/
theorem made_query_is_live (schema : Schema ε) (before after : List (Command ε))
    (maker : Command ε) (name : Name) (query : Query ε)
    (hmade : (runAll schema empty before).Makes schema maker name query)
    (hcapacity : ((Ledger.ofRun schema (before ++ maker :: after)).accepted
      query.source).length ≤ Store.capacity) :
    let ledger := Ledger.ofRun schema (before ++ maker :: after)
    let workspace := runAll schema empty (before ++ maker :: after)
    (Ledger.ofRun schema before).viewed? (runAll schema empty before) maker =
      some query.source ∧
    query.rows workspace.catalog = Chain.sort query.chain (ledger.accepted query.source) ∧
    query.first? workspace.catalog =
      (Chain.sort query.chain (ledger.accepted query.source)).head? ∧
    (∀ command, ¬ ledger.Feeds schema command query.source →
      query.rows (workspace.run schema command).value.1.catalog =
        query.rows workspace.catalog) ∧
    (∀ command, (ledger.accepted query.source ++
        ledger.gain schema command query.source).length ≤ Store.capacity →
      query.rows (workspace.run schema command).value.1.catalog =
        Chain.sort query.chain
          (ledger.accepted query.source ++ ledger.gain schema command query.source)) ∧
    ((∀ earlier command later other, after = earlier ++ command :: later →
        ¬ (runAll schema empty (before ++ maker :: earlier)).Makes schema command name other) →
      workspace.query? name = some query) := by
  intro ledger workspace
  have hbefore := Ledger.describes_runAll schema before
  have hdescribes : ledger.Describes workspace :=
    Ledger.describes_runAll schema (before ++ maker :: after)
  have hrows := hdescribes.rows_eq query hcapacity
  -- The store of the query was there when the query was made.
  have hsource : query.source.index < ledger.made := by
    have hledger : ledger = after.foldl (Ledger.enter schema)
        ((Ledger.ofRun schema before).enter schema maker) :=
      Ledger.ofRun_append schema before (maker :: after)
    rw [hledger]
    exact hbefore.source_lt_foldl hmade after
  refine ⟨hbefore.viewed?_eq hmade, hrows, ?_, ?_, ?_, ?_⟩
  · rw [Query.first?, hrows]
  · -- Nothing is gained for the store, so the bound is the one there is.
    intro command hfeeds
    have hgain := Ledger.gain_eq_nil_of_not_feeds hsource hfeeds
    have hnext := hdescribes.rows_run_eq schema query command
      (by rw [hgain, List.append_nil]; exact hcapacity)
    rw [hnext, hgain, List.append_nil, hrows]
  · intro command hbound
    exact hdescribes.rows_run_eq schema query command hbound
  · intro hkept
    have hrun : workspace = (runAll schema empty before).runAll schema (maker :: after) :=
      runAll_append schema empty before (maker :: after)
    rw [hrun]
    refine hmade.query?_runAll after ?_
    intro earlier command later other hafter
    rw [← runAll_append]
    exact hkept earlier command later other hafter

/-- A query over a store that loses its name to another and goes on to yield
    what is put into the first. -/
theorem made_query_is_live_numbers :
    let before : List (Command Row) :=
      [.createStore "s", .insert "s" ⟨[.int 2]⟩, .openQuery "s" "q"]
    let maker : Command Row := .deriveQuery "q" (.orderByField "Id" .descending) "h"
    let after : List (Command Row) :=
      [.insertAll "s" [⟨[.int 3]⟩, ⟨[.text "4"]⟩, ⟨[.int 5]⟩], .createStore "s",
        .insert "s" ⟨[.int 9]⟩, .deriveQuery "h" (.thenByField "Age" .ascending) "q"]
    let query : Query Row := { source := ⟨0⟩, chain := [numberKey] }
    (runAll numberSchema empty before).Makes numberSchema maker "h" query ∧
    ((Ledger.ofRun numberSchema (before ++ maker :: after)).accepted query.source).length ≤
      Store.capacity ∧
    query.rows (runAll numberSchema empty (before ++ maker :: after)).catalog =
      [⟨[.int 3]⟩, ⟨[.int 2]⟩] := by
  intro before maker after query
  have hsource : (runAll numberSchema empty before).query? "q" = some { source := ⟨0⟩ } := by rfl
  have hfield : numberSchema.resolve? numberKey.field.name = some numberKey.field :=
    Schema.resolve?_name (List.mem_singleton.mpr rfl)
  have hnext : (Query.derive numberSchema { source := ⟨0⟩ }
      (.orderByField "Id" .descending)).value = .ok query :=
    Query.orderByField_eq_ok_iff.mpr ⟨numberKey.field, hfield, rfl⟩
  have hmade : (runAll numberSchema empty before).Makes numberSchema maker "h" query :=
    .derived hsource rfl hnext
  have haccepted : (Ledger.ofRun numberSchema (before ++ maker :: after)).accepted query.source =
      [⟨[.int 2]⟩, ⟨[.int 3]⟩] := by decide +kernel
  have hcapacity : ((Ledger.ofRun numberSchema (before ++ maker :: after)).accepted
      query.source).length ≤ Store.capacity := by
    rw [haccepted]
    decide
  obtain ⟨-, hrows, -⟩ :=
    made_query_is_live numberSchema before after maker "h" query hmade hcapacity
  have hle : Chain.le [numberKey] ⟨[.int 2]⟩ ⟨[.int 3]⟩ = false := by decide +kernel
  have hsort : Chain.sort [numberKey] [⟨[.int 2]⟩, ⟨[.int 3]⟩] = [⟨[.int 3]⟩, ⟨[.int 2]⟩] := by
    simp [Chain.sort, List.mergeSort, List.MergeSort.Internal.splitInTwo, hle]
  refine ⟨hmade, hcapacity, ?_⟩
  rw [hrows, haccepted]
  exact hsort

end Workspace

end RowOrder
