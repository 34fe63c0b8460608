import RowOrder.Descriptor.Apply
import RowOrder.Proofs.Lookup

/-! # Derived queries

    What each way to derive a query gives.

    - Applying keys is a loop that looks at the query before each of them. A
      key only ever adds its step at the end of the chain
      (`Query.applyKeys_cons`), so the loop never refuses a key and never
      discards an ordering, however long it runs.
    - `Descriptor.apply_keeps_ordering` says this of a whole descriptor, with
      what is reported on the way.
    - A derivation by name succeeds just if the name stands for a field and,
      for a refinement, there is an ordering to refine.
-/

namespace RowOrder

variable {ε : Type} {schema : Schema ε}

namespace Query

/-! ### Applying keys -/

/-- What one key adds to a chain and to the report. -/
theorem applyKeys_cons (query : Query ε) (key : SortKey ε) (rest : List (SortKey ε)) :
    query.applyKeys (key :: rest) =
      (do
        Logged.report (.applyingKey key.name key.direction (!query.isOrdered))
        applyKeys { query with chain := query.chain ++ [key] } rest) := by
  rw [applyKeys, extend_not_isOrdered]

/-- The loop puts the keys at the end of the chain. -/
theorem value_applyKeys (query : Query ε) (keys : List (SortKey ε)) :
    (query.applyKeys keys).value = .ok { query with chain := query.chain ++ keys } := by
  -- The query grows with every key, so the induction is for all queries.
  induction keys generalizing query with
  | nil =>
    rw [List.append_nil]
    rfl
  | cons key rest ih =>
    rw [applyKeys_cons, Logged.value_bind, ih]
    simp

/-- The report of the loop names the keys in order. Only a key that meets a
    query without ordering is reported as the first. -/
theorem events_applyKeys (query : Query ε) (keys : List (SortKey ε)) :
    (query.applyKeys keys).events = keys.mapIdx fun i key =>
      .applyingKey key.name key.direction (i = 0 ∧ query.state = .unordered) := by
  induction keys generalizing query with
  | nil => rfl
  | cons key rest ih =>
    have hhead : (!query.isOrdered) = decide (query.state = .unordered) := by
      unfold isOrdered
      cases query.state <;> rfl
    -- After the first key there is an ordering, whatever there was before.
    have hnext : state { query with chain := query.chain ++ [key] } ≠ .unordered := by simp
    rw [applyKeys_cons, Logged.events_bind, ih, Logged.events_report, List.mapIdx_cons, hhead]
    simp [hnext]

end Query

/-! ### Applying a descriptor -/

namespace Descriptor

/-- A descriptor without keys makes no exception: the loop does nothing then. -/
theorem apply_eq_applyKeys (descriptor : Descriptor ε) (query : Query ε) :
    descriptor.apply query = query.applyKeys descriptor.keys := by
  cases hkeys : descriptor.keys with
  | nil => simp [apply, isEmpty, hkeys, Query.applyKeys]
  | cons key rest => simp [apply, isEmpty, hkeys]

theorem value_apply (descriptor : Descriptor ε) (query : Query ε) :
    (descriptor.apply query).value =
      .ok { query with chain := query.chain ++ descriptor.keys } := by
  rw [apply_eq_applyKeys, Query.value_applyKeys]

/-- **Applying a descriptor extends an ordering.** It always gives a query, over
    the same store, whose ordering is the one there was followed by the keys of
    the descriptor, all of them and in order. The report has one event for each
    key, and only the first key of a query without ordering is reported as the
    first. -/
theorem apply_keeps_ordering (descriptor : Descriptor ε) (query : Query ε) :
    ∃ next : Query ε,
      (descriptor.apply query).value = .ok next ∧
      next.source = query.source ∧
      next.chain = query.chain ++ descriptor.keys ∧
      next.ordering =
        query.ordering ++ descriptor.keys.map (fun key => (key.name, key.direction)) ∧
      (next.state = .ordered ↔ query.state = .ordered ∨ descriptor.isEmpty = false) ∧
      (descriptor.apply query).events = descriptor.keys.mapIdx (fun i key =>
        .applyingKey key.name key.direction (i = 0 ∧ query.state = .unordered)) ∧
      ∀ event ∈ (descriptor.apply query).events, event.level = .trace := by
  have hevents : (descriptor.apply query).events = descriptor.keys.mapIdx (fun i key =>
      .applyingKey key.name key.direction (i = 0 ∧ query.state = .unordered)) := by
    rw [apply_eq_applyKeys, Query.events_applyKeys]
  refine ⟨{ query with chain := query.chain ++ descriptor.keys }, value_apply descriptor query,
    rfl, rfl, List.map_append, ?_, hevents, ?_⟩
  · -- An appended chain is empty just if both its parts are.
    rw [Query.state_eq_ordered_iff, Query.state_eq_ordered_iff, isEmpty, List.isEmpty_eq_false_iff]
    simp [Classical.or_iff_not_imp_left]
  · intro event hevent
    rw [hevents, List.mem_mapIdx] at hevent
    obtain ⟨i, hi, rfl⟩ := hevent
    rfl

end Descriptor

/-! ### The other derivations -/

namespace Query

theorem orderByField_eq_ok_iff {query next : Query ε} {name : String} {direction : Direction} :
    query.orderByField schema name direction = .ok next ↔
      ∃ field, schema.resolve? name = some field ∧ next = query.orderBy ⟨field, direction⟩ := by
  unfold orderByField keyOn
  cases hname : schema.resolve? name with
  | none => simp [bind, Except.bind]
  | some field => simp [bind, Except.bind, pure, Except.pure, eq_comm]

theorem thenByField_eq_ok_iff {query next : Query ε} {name : String} {direction : Direction} :
    query.thenByField schema name direction = .ok next ↔
      ∃ field, schema.resolve? name = some field ∧ query.chain ≠ [] ∧
        next = { query with chain := query.chain ++ [⟨field, direction⟩] } := by
  unfold thenByField keyOn
  cases hname : schema.resolve? name with
  | none => simp [bind, Except.bind]
  | some field =>
    by_cases hchain : query.chain = []
    · simp [bind, Except.bind, thenBy_of_eq_nil hchain, hchain]
    · simp [bind, Except.bind, thenBy_of_ne_nil hchain, hchain, eq_comm]

theorem value_orderByText (query : Query ε) (text : String) :
    (query.orderByText schema text).value =
      .ok { query with chain := query.chain ++ (Descriptor.parse schema text).value.keys } := by
  unfold orderByText
  rw [Logged.value_bind, Descriptor.value_apply]

theorem value_orderByTokens (query : Query ε) (tokens : List String) :
    (query.orderByTokens schema tokens).value =
      .ok { query with
        chain := query.chain ++ (Descriptor.fromTokens schema tokens).value.keys } := by
  unfold orderByTokens
  rw [Logged.value_bind, Descriptor.value_apply]

/-- However a query is derived, it is over the same store. -/
theorem source_of_derive {query next : Query ε} {derivation : Derivation (Descriptor ε)}
    (h : (query.derive schema derivation).value = .ok next) : next.source = query.source := by
  cases derivation with
  | orderByField name direction =>
    obtain ⟨field, -, rfl⟩ := orderByField_eq_ok_iff.mp h
    rfl
  | thenByField name direction =>
    obtain ⟨field, -, -, rfl⟩ := thenByField_eq_ok_iff.mp h
    rfl
  | apply descriptor =>
    obtain rfl := Except.ok.inj ((Descriptor.value_apply descriptor query).symm.trans h)
    rfl
  | orderByText text =>
    obtain rfl := Except.ok.inj ((value_orderByText query text).symm.trans h)
    rfl
  | orderByTokens tokens =>
    obtain rfl := Except.ok.inj ((value_orderByTokens query tokens).symm.trans h)
    rfl

end Query

end RowOrder
