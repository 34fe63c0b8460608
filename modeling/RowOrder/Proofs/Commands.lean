import RowOrder.Proofs.Derivations
import RowOrder.Workspace

/-! # What commands do

    The outcome of each kind of command that touches stores or queries, one
    statement for each way it can go.

    - An insertion exchanges one store of the catalog for another.
    - A query is given a name if it could be made, and nothing else happens
      (`Workspace.Makes`).
-/

namespace RowOrder.Workspace

variable {ε : Type} {schema : Schema ε}

/-! ### Entities -/

theorem fst_run_insertAll_of_none {workspace : Workspace ε} {name : Name}
    (h : workspace.stores[name]? = none) (entities : List ε) :
    (workspace.run schema (.insertAll name entities)).value.1 = workspace := by
  simp [run, h]

theorem fst_run_insertAll_of_some {workspace : Workspace ε} {name : Name} {id : StoreId}
    (h : workspace.stores[name]? = some id) (entities : List ε) :
    (workspace.run schema (.insertAll name entities)).value.1 =
      { workspace with
        catalog := workspace.catalog.replace id
          ((workspace.catalog.store id).insertAll schema entities).1 } := by
  simp [run, h]

/-- One entity is put into a store as a list of one is. -/
theorem fst_run_insert (workspace : Workspace ε) (name : Name) (e : ε) :
    (workspace.run schema (.insert name e)).value.1 =
      (workspace.run schema (.insertAll name [e])).value.1 := by
  cases h : workspace.stores[name]? with
  | none => simp [run, h]
  | some id =>
    rw [fst_run_insertAll_of_some h, ← Store.fst_insert]
    simp [run, h]

theorem fst_run_loadQuery_of_fits {entities : List ε} (h : ∀ e ∈ entities, schema.Fits e)
    (workspace : Workspace ε) (name : Name) :
    (workspace.run schema (.loadQuery entities name)).value.1 =
      bindQuery
        { workspace with
          catalog := workspace.catalog.add (Store.empty.insertAll schema entities).1 }
        name (.ok { source := workspace.catalog.nextId }) := by
  simp [run, Query.load_of_fits h]

theorem fst_run_loadQuery_of_not_fits {entities : List ε} (h : ¬ ∀ e ∈ entities, schema.Fits e)
    (workspace : Workspace ε) (name : Name) :
    (workspace.run schema (.loadQuery entities name)).value.1 = workspace := by
  obtain ⟨error, herror⟩ := Query.load_of_not_fits h workspace.catalog
  simp [run, herror]

/-! ### Queries -/

theorem query?_bindQuery (workspace : Workspace ε) (name other : Name) (query : Query ε) :
    (workspace.bindQuery name (.ok query)).query? other =
      if name = other then some query else workspace.query? other := by
  simp [bindQuery, query?, Std.TreeMap.getElem?_insert]

theorem fst_run_openQuery (schema : Schema ε) (workspace : Workspace ε) (store name : Name) :
    (workspace.run schema (.openQuery store name)).value.1 = workspace ∨
    ∃ source, workspace.stores[store]? = some source ∧
      (workspace.run schema (.openQuery store name)).value.1 =
        workspace.bindQuery name (.ok { source }) := by
  cases hstore : workspace.stores[store]? with
  | none =>
    left
    simp [run, hstore]
  | some source =>
    right
    exact ⟨source, rfl, by simp [run, hstore]⟩

theorem fst_run_deriveQuery (schema : Schema ε) (workspace : Workspace ε) (source : Name)
    (derivation : Derivation Name) (name : Name) :
    (workspace.run schema (.deriveQuery source derivation name)).value.1 = workspace ∨
    ∃ query found next, workspace.query? source = some query ∧
      derivation.lookUp workspace.descriptor? = .ok found ∧
      (query.derive schema found).value = .ok next ∧
      (workspace.run schema (.deriveQuery source derivation name)).value.1 =
        workspace.bindQuery name (.ok next) := by
  cases hsource : workspace.query? source with
  | none =>
    left
    simp [run, hsource]
  | some query =>
    cases hfound : derivation.lookUp workspace.descriptor? with
    | error missing =>
      left
      simp [run, hsource, hfound]
    | ok found =>
      cases hnext : (query.derive schema found).value with
      | error error =>
        left
        simp [run, hsource, hfound, hnext, bindQuery]
      | ok next =>
        right
        exact ⟨query, found, next, rfl, rfl, hnext, by simp [run, hsource, hfound, hnext]⟩

/-- An edit of a descriptor can only add another one. -/
theorem fst_run_editDescriptor (schema : Schema ε) (workspace : Workspace ε) (source : Name)
    (edit : Edit) (name : Option Name) :
    ∃ descriptors, (workspace.run schema (.editDescriptor source edit name)).value.1 =
      { workspace with descriptors } := by
  cases hsource : workspace.descriptor? source with
  | none => exact ⟨workspace.descriptors, by simp [run, hsource]⟩
  | some descriptor =>
    cases name with
    | none => exact ⟨workspace.descriptors, by simp [run, hsource]⟩
    | some name => exact ⟨_, by simp [run, hsource, bindDescriptor]; rfl⟩

/-! ### Queries that are made -/

/-- The command makes the query and gives it the name. -/
inductive Makes (schema : Schema ε) (workspace : Workspace ε) :
    Command ε → Name → Query ε → Prop where
  /-- A query is opened over the store that a name has. -/
  | opened {store name : Name} {source : StoreId}
      (hstore : workspace.stores[store]? = some source) :
      Makes schema workspace (.openQuery store name) name { source }
  /-- A query is opened over a new store, if all that is loaded fits. -/
  | loaded {entities : List ε} {name : Name} (hfits : ∀ e ∈ entities, schema.Fits e) :
      Makes schema workspace (.loadQuery entities name) name
        { source := workspace.catalog.nextId }
  /-- A query is derived from the one that a name has. -/
  | derived {source name : Name} {query next : Query ε} {derivation : Derivation Name}
      {found : Derivation (Descriptor ε)} (hsource : workspace.query? source = some query)
      (hfound : derivation.lookUp workspace.descriptor? = .ok found)
      (hnext : (query.derive schema found).value = .ok next) :
      Makes schema workspace (.deriveQuery source derivation name) name next

variable {workspace : Workspace ε} {command : Command ε} {name : Name} {query : Query ε}

/-- The name stands for the query as soon as it is made. -/
theorem Makes.query?_run (h : workspace.Makes schema command name query) :
    (workspace.run schema command).value.1.query? name = some query := by
  cases h with
  | opened hstore => simp [run, hstore, query?_bindQuery]
  | loaded hfits => simp [fst_run_loadQuery_of_fits hfits, query?_bindQuery]
  | derived hsource hfound hnext => simp [run, hsource, hfound, hnext, query?_bindQuery]

theorem query?_bindQuery_cases (workspace : Workspace ε) (name other : Name) (query : Query ε) :
    (workspace.bindQuery name (.ok query)).query? other = workspace.query? other ∨
      name = other := by
  rw [query?_bindQuery]
  by_cases hname : name = other
  · exact .inr hname
  · exact .inl (if_neg hname)

/-- A name stands for the query it stood for, unless the command makes another
    of this name. -/
theorem query?_run_cases (schema : Schema ε) (workspace : Workspace ε) (command : Command ε)
    (other : Name) :
    (workspace.run schema command).value.1.query? other = workspace.query? other ∨
      ∃ query, workspace.Makes schema command other query := by
  -- Commands about entities leave the names of queries alone.
  cases command with
  | createStore name => exact .inl rfl
  | insert name e =>
    rw [fst_run_insert]
    cases hname : workspace.stores[name]? with
    | none => exact .inl (by rw [fst_run_insertAll_of_none hname])
    | some id => exact .inl (by rw [fst_run_insertAll_of_some hname]; rfl)
  | insertAll name entities =>
    cases hname : workspace.stores[name]? with
    | none => exact .inl (by rw [fst_run_insertAll_of_none hname])
    | some id => exact .inl (by rw [fst_run_insertAll_of_some hname]; rfl)
  | openQuery store name =>
    obtain hidle | ⟨source, hstore, hbind⟩ := fst_run_openQuery schema workspace store name
    · exact .inl (by rw [hidle])
    · rw [hbind]
      refine (query?_bindQuery_cases ..).imp_right ?_
      rintro rfl
      exact ⟨_, .opened hstore⟩
  | loadQuery entities name =>
    by_cases hfits : ∀ e ∈ entities, schema.Fits e
    · rw [fst_run_loadQuery_of_fits hfits]
      refine (query?_bindQuery_cases ..).imp_right ?_
      rintro rfl
      exact ⟨_, .loaded hfits⟩
    · exact .inl (by rw [fst_run_loadQuery_of_not_fits hfits])
  | deriveQuery source derivation name =>
    obtain hidle | ⟨query, found, next, hsource, hfound, hnext, hbind⟩ :=
      fst_run_deriveQuery schema workspace source derivation name
    · exact .inl (by rw [hidle])
    · rw [hbind]
      refine (query?_bindQuery_cases ..).imp_right ?_
      rintro rfl
      exact ⟨_, .derived hsource hfound hnext⟩
  | makeDescriptor recipe name => exact .inl rfl
  | editDescriptor source edit name =>
    obtain ⟨descriptors, hedit⟩ := fst_run_editDescriptor schema workspace source edit name
    exact .inl (by rw [hedit]; rfl)

/-- A name stands for its query throughout a run in which no command makes
    another of this name. -/
theorem query?_runAll (h : workspace.query? name = some query) (commands : List (Command ε))
    (hkept : ∀ earlier command later other, commands = earlier ++ command :: later →
      ¬ (workspace.runAll schema earlier).Makes schema command name other) :
    (workspace.runAll schema commands).query? name = some query := by
  induction commands generalizing workspace with
  | nil => exact h
  | cons command rest ih =>
    have hnext : (workspace.run schema command).value.1.query? name = some query := by
      obtain hsame | ⟨other, hmakes⟩ := query?_run_cases schema workspace command name
      · rw [hsame, h]
      · exact absurd hmakes (hkept [] command rest other rfl)
    -- What comes earlier in the rest comes after the first command.
    refine ih hnext ?_
    intro earlier c later other hrest
    exact hkept (command :: earlier) c later other (by rw [hrest, List.cons_append])

end RowOrder.Workspace
