import RowOrder.Proofs.Commands
import RowOrder.Proofs.Records

/-! # Accounts of a run

    What a run of commands has put into which store, read off the commands
    alone.

    - A `Ledger` numbers the stores as they are made, follows which of them a
      name was given to last, and lists what each has accepted.
    - `Ledger.gain` says what one command adds for one store. It is nothing
      unless the command is an insertion into a name that the store has, or
      makes the store.
    - `Ledger.describes_runAll`: after any run the stores hold what the ledger
      lists. Each command keeps this, one lemma for each kind of command.
-/

namespace RowOrder

variable {ε : Type} {schema : Schema ε}

/-! ### Ledgers -/

/-- What is known of the stores from the commands alone. -/
structure Ledger (ε : Type) where
  /-- How many stores were made. -/
  made : Nat := 0
  /-- The store that a name was given to last. -/
  named : Name → Option StoreId := fun _ => none
  /-- What a store has accepted, in order. -/
  accepted : StoreId → List ε := fun _ => []

/-- Whether a command makes a store. -/
def Command.makesStore (schema : Schema ε) : Command ε → Bool
  | .createStore _ => true
  | .loadQuery entities _ => ∀ e ∈ entities, schema.Fits e
  | _ => false

namespace Ledger

/-- What a store accepts from a command. -/
def gain (schema : Schema ε) (ledger : Ledger ε) (command : Command ε) (id : StoreId) : List ε :=
  match command with
  | .insert name e => if ledger.named name = some id then schema.accepted [e] else []
  | .insertAll name entities =>
    if ledger.named name = some id then schema.accepted entities else []
  | .loadQuery entities _ =>
    if command.makesStore schema ∧ id = ⟨ledger.made⟩ then entities else []
  | _ => []

/-- The store that a name has after a command. -/
def naming (ledger : Ledger ε) (command : Command ε) (name : Name) : Option StoreId :=
  match command with
  | .createStore new => if new = name then some ⟨ledger.made⟩ else ledger.named name
  | _ => ledger.named name

/-- The ledger after a command. -/
def enter (schema : Schema ε) (ledger : Ledger ε) (command : Command ε) : Ledger ε where
  made := if command.makesStore schema then ledger.made + 1 else ledger.made
  named := ledger.naming command
  accepted id := ledger.accepted id ++ ledger.gain schema command id

/-- The ledger of a run that starts without stores. -/
def ofRun (schema : Schema ε) (commands : List (Command ε)) : Ledger ε :=
  commands.foldl (enter schema) {}

theorem ofRun_append (schema : Schema ε) (first second : List (Command ε)) :
    ofRun schema (first ++ second) = second.foldl (enter schema) (ofRun schema first) :=
  List.foldl_append

/-- A command that makes no store and adds nothing to any is not entered. -/
theorem enter_eq_self {ledger : Ledger ε} {command : Command ε}
    (hmakes : command.makesStore schema = false)
    (hgain : ∀ id, ledger.gain schema command id = []) : ledger.enter schema command = ledger := by
  have hnaming : ledger.naming command = ledger.named := by
    cases command with
    | createStore name => contradiction
    | _ => rfl
  simp [enter, hmakes, hnaming, hgain]

/-- One entity is entered as a list of one is. -/
theorem enter_insert (ledger : Ledger ε) (name : Name) (e : ε) :
    ledger.enter schema (.insert name e) = ledger.enter schema (.insertAll name [e]) := rfl

end Ledger

/-! ### Ledgers that describe a workspace -/

namespace Ledger

/-- The stores of the workspace are those of the ledger, each with what the
    ledger lists for it, and every query is over one of them. -/
structure Describes (ledger : Ledger ε) (workspace : Workspace ε) : Prop where
  /-- As many stores were made. -/
  nextId_eq : workspace.catalog.nextId = ⟨ledger.made⟩
  /-- Names stand for the same stores. -/
  named_eq (name : Name) : workspace.stores[name]? = ledger.named name
  /-- A name stands for a store that was made. -/
  named_lt {name : Name} {id : StoreId} (h : ledger.named name = some id) : id.index < ledger.made
  /-- A query is over a store that was made. -/
  source_lt {name : Name} {query : Query ε} (h : workspace.query? name = some query) :
    query.source.index < ledger.made
  /-- Each store has accepted what the ledger lists for it. -/
  records (id : StoreId) : (workspace.catalog.store id).Records (ledger.accepted id)
  /-- Nothing is listed for a store that was not made. -/
  accepted_eq_nil {id : StoreId} (h : ledger.made ≤ id.index) : ledger.accepted id = []

variable {ledger : Ledger ε} {workspace : Workspace ε}

theorem describes_empty : Describes ({} : Ledger ε) Workspace.empty where
  nextId_eq := rfl
  named_eq name := by simp [Workspace.empty]
  named_lt h := by contradiction
  source_lt h := by simp [Workspace.empty, Workspace.query?] at h
  records id := Store.records_empty
  accepted_eq_nil _ := rfl

namespace Describes

/-- A command that leaves the stores as they are is not entered. -/
theorem of_stores_eq (h : Describes ledger workspace) {next : Workspace ε}
    (hcatalog : next.catalog = workspace.catalog) (hstores : next.stores = workspace.stores)
    (hsource : ∀ name query, next.query? name = some query → query.source.index < ledger.made) :
    Describes ledger next where
  nextId_eq := by rw [hcatalog, h.nextId_eq]
  named_eq name := by rw [hstores, h.named_eq]
  named_lt := h.named_lt
  source_lt hquery := hsource _ _ hquery
  records id := by
    rw [hcatalog]
    exact h.records id
  accepted_eq_nil := h.accepted_eq_nil

theorem source_lt_bindQuery (h : Describes ledger workspace) {name other : Name}
    {query found : Query ε} (hquery : query.source.index < ledger.made)
    (hfound : (workspace.bindQuery name (.ok query)).query? other = some found) :
    found.source.index < ledger.made := by
  rw [Workspace.query?_bindQuery] at hfound
  split at hfound
  · obtain rfl := Option.some.inj hfound
    exact hquery
  · exact h.source_lt hfound

theorem bindQuery (h : Describes ledger workspace) {query : Query ε}
    (hquery : query.source.index < ledger.made) (name : Name) :
    Describes ledger (workspace.bindQuery name (.ok query)) :=
  h.of_stores_eq rfl rfl fun _ _ hfound => h.source_lt_bindQuery hquery hfound

theorem records_add (h : Describes ledger workspace) {store : Store ε} {entities : List ε}
    (hstore : store.Records entities) (id : StoreId) :
    ((workspace.catalog.add store).store id).Records
      (ledger.accepted id ++ if id = ⟨ledger.made⟩ then entities else []) := by
  by_cases hid : id = ⟨ledger.made⟩
  · have hnext : id = workspace.catalog.nextId := hid.trans h.nextId_eq.symm
    rw [if_pos hid, h.accepted_eq_nil (by rw [hid]), List.nil_append, hnext,
      Catalog.store_add_nextId]
    exact hstore
  · have hnext : id ≠ workspace.catalog.nextId := fun heq => hid (heq.trans h.nextId_eq)
    rw [if_neg hid, List.append_nil, Catalog.store_add_of_ne hnext]
    exact h.records id

/-! ### One command -/

theorem createStore (h : Describes ledger workspace) (name : Name) :
    Describes (ledger.enter schema (.createStore name))
      (workspace.run schema (.createStore name)).value.1 where
  nextId_eq := by
    show (workspace.catalog.add Store.empty).nextId = ⟨ledger.made + 1⟩
    rw [Catalog.nextId_add, h.nextId_eq]
  named_eq other := by
    show (workspace.stores.insert name workspace.catalog.nextId)[other]? =
      if name = other then some ⟨ledger.made⟩ else ledger.named other
    rw [Std.TreeMap.getElem?_insert, h.nextId_eq, h.named_eq]
    simp
  named_lt := by
    intro other id hnamed
    show id.index < ledger.made + 1
    change (if name = other then some ⟨ledger.made⟩ else ledger.named other) = some id at hnamed
    split at hnamed
    · obtain rfl := Option.some.inj hnamed
      exact Nat.lt_succ_self _
    · exact Nat.lt_succ_of_lt (h.named_lt hnamed)
  source_lt hquery := Nat.lt_succ_of_lt (h.source_lt hquery)
  records id := by
    have hrecords := h.records_add Store.records_empty id
    rw [ite_self] at hrecords
    exact hrecords
  accepted_eq_nil := by
    intro id hmade
    show ledger.accepted id ++ [] = []
    rw [List.append_nil, h.accepted_eq_nil (Nat.le_of_succ_le hmade)]

theorem insertAll (h : Describes ledger workspace) (name : Name) (entities : List ε) :
    Describes (ledger.enter schema (.insertAll name entities))
      (workspace.run schema (.insertAll name entities)).value.1 := by
  have haccepted : ∀ id, (ledger.enter schema (.insertAll name entities)).accepted id =
      ledger.accepted id ++ if ledger.named name = some id then schema.accepted entities else [] :=
    fun _ => rfl
  cases hname : workspace.stores[name]? with
  | none =>
    -- A name without a store: the command fails and nothing is entered.
    have hnamed : ledger.named name = none := (h.named_eq name).symm.trans hname
    have hledger : ledger.enter schema (.insertAll name entities) = ledger :=
      enter_eq_self rfl fun id => by simp [gain, hnamed]
    rw [hledger, Workspace.fst_run_insertAll_of_none hname]
    exact h
  | some target =>
    have hnamed : ledger.named name = some target := (h.named_eq name).symm.trans hname
    have hmade : target.index < ledger.made := h.named_lt hnamed
    have hholds : workspace.catalog.Holds target := by
      rw [Catalog.holds_iff, h.nextId_eq]
      exact hmade
    rw [Workspace.fst_run_insertAll_of_some hname]
    -- One store is exchanged for another, so only what is recorded changes.
    refine ⟨?_, h.named_eq, h.named_lt, h.source_lt, ?_, ?_⟩
    · rw [Catalog.nextId_replace, h.nextId_eq]
      rfl
    · intro id
      rw [haccepted, hnamed]
      by_cases hid : target = id
      · rw [← hid, if_pos rfl, Catalog.store_replace_self hholds]
        exact (h.records target).insertAll entities
      · rw [if_neg (fun heq => hid (Option.some.inj heq)), List.append_nil,
          Catalog.store_replace_of_ne hid]
        exact h.records id
    · intro id hle
      have hid : target ≠ id := by
        rintro rfl
        exact absurd hmade (Nat.not_lt.mpr hle)
      rw [haccepted, hnamed, if_neg (fun heq => hid (Option.some.inj heq)), List.append_nil]
      exact h.accepted_eq_nil hle

theorem insert (h : Describes ledger workspace) (name : Name) (e : ε) :
    Describes (ledger.enter schema (.insert name e))
      (workspace.run schema (.insert name e)).value.1 := by
  rw [enter_insert, Workspace.fst_run_insert]
  exact h.insertAll name [e]

theorem loadQuery (h : Describes ledger workspace) (entities : List ε) (name : Name) :
    Describes (ledger.enter schema (.loadQuery entities name))
      (workspace.run schema (.loadQuery entities name)).value.1 := by
  by_cases hfits : ∀ e ∈ entities, schema.Fits e
  · have hmakes : Command.makesStore schema (.loadQuery entities name) = true :=
      decide_eq_true hfits
    have hmade : (ledger.enter schema (.loadQuery entities name)).made = ledger.made + 1 :=
      if_pos hmakes
    have haccepted : ∀ id, (ledger.enter schema (.loadQuery entities name)).accepted id =
        ledger.accepted id ++ if id = ⟨ledger.made⟩ then entities else [] := by
      intro id
      simp [enter, gain, hmakes]
    have hstore : (Store.empty.insertAll schema entities).1.Records entities := by
      have hrecords : (Store.empty.insertAll schema entities).1.Records
          ([] ++ schema.accepted entities) := Store.records_empty.insertAll entities
      rw [Schema.accepted_eq_self hfits] at hrecords
      exact hrecords
    -- The new store takes the next identity, for which nothing was listed.
    rw [Workspace.fst_run_loadQuery_of_fits hfits]
    refine ⟨?_, h.named_eq, ?_, ?_, ?_, ?_⟩
    · rw [hmade]
      show (workspace.catalog.add _).nextId = _
      rw [Catalog.nextId_add, h.nextId_eq]
    · intro other id hnamed
      rw [hmade]
      exact Nat.lt_succ_of_lt (h.named_lt hnamed)
    · intro other query hquery
      rw [hmade]
      rw [Workspace.query?_bindQuery, h.nextId_eq] at hquery
      split at hquery
      · obtain rfl := Option.some.inj hquery
        exact Nat.lt_succ_self _
      · exact Nat.lt_succ_of_lt (h.source_lt hquery)
    · intro id
      rw [haccepted]
      exact h.records_add hstore id
    · intro id hle
      rw [hmade] at hle
      have hid : id ≠ ⟨ledger.made⟩ := by
        rintro rfl
        exact absurd hle (Nat.not_succ_le_self _)
      rw [haccepted, if_neg hid, List.append_nil]
      exact h.accepted_eq_nil (Nat.le_of_succ_le hle)
  · -- The store that was being filled is lost, and with it all that was accepted.
    have hmakes : Command.makesStore schema (.loadQuery entities name) = false :=
      decide_eq_false hfits
    have hledger : ledger.enter schema (.loadQuery entities name) = ledger :=
      enter_eq_self hmakes fun id => by simp [gain, hmakes]
    rw [hledger, Workspace.fst_run_loadQuery_of_not_fits hfits]
    exact h

theorem openQuery (h : Describes ledger workspace) (store name : Name) :
    Describes ledger (workspace.run schema (.openQuery store name)).value.1 := by
  obtain hidle | ⟨source, hstore, hbind⟩ :=
    Workspace.fst_run_openQuery schema workspace store name
  · rw [hidle]
    exact h
  · rw [hbind]
    exact h.bindQuery (h.named_lt ((h.named_eq store).symm.trans hstore)) name

/-- A derived query is over the store of the query it is derived from. -/
theorem deriveQuery (h : Describes ledger workspace) (source : Name) (derivation : Derivation Name)
    (name : Name) :
    Describes ledger (workspace.run schema (.deriveQuery source derivation name)).value.1 := by
  obtain hidle | ⟨query, found, next, hsource, -, hnext, hbind⟩ :=
    Workspace.fst_run_deriveQuery schema workspace source derivation name
  · rw [hidle]
    exact h
  · rw [hbind]
    refine h.bindQuery ?_ name
    rw [Query.source_of_derive hnext]
    exact h.source_lt hsource

theorem editDescriptor (h : Describes ledger workspace) (source : Name) (edit : Edit)
    (name : Option Name) :
    Describes ledger (workspace.run schema (.editDescriptor source edit name)).value.1 := by
  obtain ⟨descriptors, hedit⟩ := Workspace.fst_run_editDescriptor schema workspace source edit name
  rw [hedit]
  exact h.of_stores_eq rfl rfl fun _ _ hquery => h.source_lt hquery

/-- Every command keeps the description. -/
theorem run (h : Describes ledger workspace) (command : Command ε) :
    Describes (ledger.enter schema command) (workspace.run schema command).value.1 := by
  cases command with
  | createStore name => exact h.createStore name
  | insert name e => exact h.insert name e
  | insertAll name entities => exact h.insertAll name entities
  | openQuery store name =>
    rw [enter_eq_self rfl fun _ => rfl]
    exact h.openQuery store name
  | loadQuery entities name => exact h.loadQuery entities name
  | deriveQuery source derivation name =>
    rw [enter_eq_self rfl fun _ => rfl]
    exact h.deriveQuery source derivation name
  | makeDescriptor recipe name =>
    rw [enter_eq_self rfl fun _ => rfl]
    exact h.of_stores_eq rfl rfl fun _ _ hquery => h.source_lt hquery
  | editDescriptor source edit name =>
    rw [enter_eq_self rfl fun _ => rfl]
    exact h.editDescriptor source edit name

end Describes

/-! ### A whole run -/

theorem describes_foldl (h : Describes ledger workspace) (commands : List (Command ε)) :
    Describes (commands.foldl (enter schema) ledger) (workspace.runAll schema commands) := by
  induction commands generalizing ledger workspace with
  | nil => exact h
  | cons command rest ih => exact ih (h.run command)

theorem describes_runAll (schema : Schema ε) (commands : List (Command ε)) :
    Describes (ofRun schema commands) (Workspace.runAll schema Workspace.empty commands) :=
  describes_foldl describes_empty commands

end Ledger

end RowOrder
