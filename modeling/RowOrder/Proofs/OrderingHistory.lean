import RowOrder.Proofs.Derivations
import RowOrder.Proofs.Reachable

/-! # The history of an ordering

    A program that holds one query and derives the next from it, again and
    again, goes on with the query it has where a derivation fails.

    - `Query.derive_cases` says what a derivation does: it is refused for one of
      the reasons in `Derivation.Refused`, or it puts its steps at the end of
      the chain, which it may empty first.
    - A `Trail` is the query after some attempts with the derivations that
      succeeded. `Trail.Sound` is what every attempt keeps.
    - `Trail.ordering_is_issued` reads the ordering, the failures and the state
      off the derivations that succeeded.
-/

namespace RowOrder

variable {ε : Type} {schema : Schema ε}

namespace Derivation

/-! ### What a derivation contributes -/

/-- The steps that a derivation contributes where it succeeds. -/
def steps (schema : Schema ε) : Derivation (Descriptor ε) → Chain ε
  | .orderByField name direction =>
    (schema.resolve? name).toList.map fun field => ⟨field, direction⟩
  | .thenByField name direction =>
    (schema.resolve? name).toList.map fun field => ⟨field, direction⟩
  | .apply descriptor => descriptor.keys
  | .orderByText text => (Descriptor.parse schema text).value.keys
  | .orderByTokens tokens => (Descriptor.fromTokens schema tokens).value.keys

/-- Whether a derivation discards the ordering there is. -/
def restarts {δ : Type} : Derivation δ → Bool
  | .orderByField .. => true
  | _ => false

/-- Why a derivation fails. That a name is unknown comes first, whether there is
    an ordering or not; only a refinement needs one. -/
inductive Refused (schema : Schema ε) (unordered : Prop) :
    Derivation (Descriptor ε) → QueryError → Prop where
  /-- A primary ordering on a name that stands for no field. -/
  | unknownPrimary {name : String} {direction : Direction} (hname : schema.resolve? name = none) :
      Refused schema unordered (.orderByField name direction) (.unknownField name)
  /-- A refinement by a name that stands for no field. -/
  | unknownSecondary {name : String} {direction : Direction}
      (hname : schema.resolve? name = none) :
      Refused schema unordered (.thenByField name direction) (.unknownField name)
  /-- A refinement where there is nothing to refine; the name is reported in
      the casing of the schema. -/
  | notOrdered {name : String} {direction : Direction} {field : Field ε}
      (hname : schema.resolve? name = some field) (hunordered : unordered) :
      Refused schema unordered (.thenByField name direction) (.notOrdered field.name)

variable {unordered : Prop} {op : Derivation (Descriptor ε)}

/-- There is one reason to fail at a time. -/
theorem Refused.unique {error other : QueryError} (h : op.Refused schema unordered error)
    (hother : op.Refused schema unordered other) : error = other := by
  cases h with
  | unknownPrimary hname =>
    cases hother
    rfl
  | unknownSecondary hname =>
    cases hother with
    | unknownSecondary _ => rfl
    | notOrdered hname' => simp [hname] at hname'
  | notOrdered hname hunordered =>
    cases hother with
    | unknownSecondary hname' => simp [hname] at hname'
    | notOrdered hname' =>
      rw [Option.some.inj (hname.symm.trans hname')]

theorem Refused.congr {unordered' : Prop} (h : unordered ↔ unordered') {error : QueryError} :
    op.Refused schema unordered error ↔ op.Refused schema unordered' error := by
  rw [propext h]

/-- A derivation that restarts an ordering and is not refused contributes one
    step. -/
theorem steps_of_restarts (hrestarts : op.restarts = true)
    (haccepted : ∀ error, ¬ op.Refused schema unordered error) :
    ∃ name direction field, op = .orderByField name direction ∧
      schema.resolve? name = some field ∧ op.steps schema = [⟨field, direction⟩] := by
  cases op with
  | orderByField name direction =>
    cases hname : schema.resolve? name with
    | none => exact absurd (.unknownPrimary hname) (haccepted _)
    | some field => exact ⟨name, direction, field, rfl, hname, by simp [steps, hname]⟩
  | _ => contradiction

end Derivation

/-! ### What a derivation does -/

namespace Query

theorem orderByField_of_eq_none {name : String} (h : schema.resolve? name = none) (query : Query ε)
    (direction : Direction) :
    query.orderByField schema name direction = .error (.unknownField name) := by
  simp [orderByField, keyOn, h, bind, Except.bind]

theorem thenByField_of_eq_none {name : String} (h : schema.resolve? name = none) (query : Query ε)
    (direction : Direction) :
    query.thenByField schema name direction = .error (.unknownField name) := by
  simp [thenByField, keyOn, h, bind, Except.bind]

theorem thenByField_of_eq_nil {name : String} {field : Field ε}
    (h : schema.resolve? name = some field) {query : Query ε} (hchain : query.chain = [])
    (direction : Direction) :
    query.thenByField schema name direction = .error (.notOrdered field.name) := by
  simp [thenByField, keyOn, h, bind, Except.bind, thenBy_of_eq_nil hchain, SortKey.name]

/-- Everything that a derivation can do: it is refused for a reason, or it puts
    its steps at the end of the chain, or of no chain if it restarts. -/
theorem derive_cases (schema : Schema ε) (query : Query ε) (op : Derivation (Descriptor ε)) :
    (∃ error, op.Refused schema (query.chain = []) error ∧
      (query.derive schema op).value = .error error) ∨
    ((∀ error, ¬ op.Refused schema (query.chain = []) error) ∧
      (query.derive schema op).value = .ok { query with
        chain := (if op.restarts then [] else query.chain) ++ op.steps schema }) := by
  cases op with
  | orderByField name direction =>
    cases hname : schema.resolve? name with
    | none =>
      exact .inl ⟨_, .unknownPrimary hname, orderByField_of_eq_none hname query direction⟩
    | some field =>
      refine .inr ⟨?_, orderByField_eq_ok_iff.mpr ⟨field, hname, ?_⟩⟩
      · intro error hrefused
        cases hrefused with
        | unknownPrimary hunknown => simp [hname] at hunknown
      · simp [Derivation.restarts, Derivation.steps, hname, orderBy]
  | thenByField name direction =>
    cases hname : schema.resolve? name with
    | none =>
      exact .inl ⟨_, .unknownSecondary hname, thenByField_of_eq_none hname query direction⟩
    | some field =>
      by_cases hchain : query.chain = []
      · exact .inl ⟨_, .notOrdered hname hchain, thenByField_of_eq_nil hname hchain direction⟩
      · refine .inr ⟨?_, thenByField_eq_ok_iff.mpr ⟨field, hname, hchain, ?_⟩⟩
        · intro error hrefused
          cases hrefused with
          | unknownSecondary hunknown => simp [hname] at hunknown
          | notOrdered _ hunordered => exact hchain hunordered
        · simp [Derivation.restarts, Derivation.steps, hname]
  | apply descriptor =>
    exact .inr ⟨fun _ hrefused => (nomatch hrefused), Descriptor.value_apply descriptor query⟩
  | orderByText text =>
    exact .inr ⟨fun _ hrefused => (nomatch hrefused), value_orderByText query text⟩
  | orderByTokens tokens =>
    exact .inr ⟨fun _ hrefused => (nomatch hrefused), value_orderByTokens query tokens⟩

/-- A derivation fails just if there is a reason to refuse it. -/
theorem derive_eq_error_iff {query : Query ε} {op : Derivation (Descriptor ε)}
    {error : QueryError} :
    (query.derive schema op).value = .error error ↔
      op.Refused schema (query.chain = []) error := by
  obtain ⟨reason, hreason, hvalue⟩ | ⟨haccepted, hvalue⟩ := derive_cases schema query op
  · rw [hvalue]
    constructor
    · intro heq
      rw [← Except.error.inj heq]
      exact hreason
    · intro hrefused
      rw [hreason.unique hrefused]
  · rw [hvalue]
    constructor
    · intro heq
      contradiction
    · intro hrefused
      exact absurd hrefused (haccepted error)

end Query

/-! ### Trails -/

/-- The query that a program holds after some attempts, with the derivations
    that succeeded. -/
structure Trail (ε : Type) where
  /-- The query. -/
  query : Query ε
  /-- The derivations that succeeded, in order. -/
  done : List (Derivation (Descriptor ε)) := []

namespace Trail

/-- The trail after one more attempt. Where it fails the program goes on with
    the query it has. -/
def attempt (schema : Schema ε) (trail : Trail ε) (op : Derivation (Descriptor ε)) : Trail ε :=
  match (trail.query.derive schema op).value with
  | .ok next => { query := next, done := trail.done ++ [op] }
  | .error _ => trail

/-- The trail of attempts that start from a query without ordering. -/
def ofRun (schema : Schema ε) (source : StoreId) (ops : List (Derivation (Descriptor ε))) :
    Trail ε :=
  ops.foldl (attempt schema) { query := { source } }

/-- The chain that derivations issue: each adds its steps, and starts from
    nothing where it restarts. -/
def issued (schema : Schema ε) (done : List (Derivation (Descriptor ε))) : Chain ε :=
  done.foldl (fun chain op => (if op.restarts then [] else chain) ++ op.steps schema) []

variable {trail : Trail ε} {source : StoreId}

theorem attempt_of_error {op : Derivation (Descriptor ε)} {error : QueryError}
    (h : (trail.query.derive schema op).value = .error error) :
    trail.attempt schema op = trail := by
  rw [attempt, h]

theorem attempt_of_ok {op : Derivation (Descriptor ε)} {next : Query ε}
    (h : (trail.query.derive schema op).value = .ok next) :
    trail.attempt schema op = { query := next, done := trail.done ++ [op] } := by
  rw [attempt, h]

/-! ### What every attempt keeps -/

/-- What the successful derivations of a trail say of its query. -/
structure Sound (schema : Schema ε) (source : StoreId) (trail : Trail ε) : Prop where
  /-- The query is over the store it was over in the beginning. -/
  source_eq : trail.query.source = source
  /-- Its chain is the one that the derivations issue. -/
  chain_eq : trail.query.chain = issued schema trail.done
  /-- There is a step just if one of them contributed one. -/
  chain_eq_nil_iff : trail.query.chain = [] ↔ ∀ op ∈ trail.done, op.steps schema = []
  /-- What restarted the ordering contributed one step. -/
  steps_of_restarts {op : Derivation (Descriptor ε)} (hop : op ∈ trail.done)
    (hrestarts : op.restarts = true) : ∃ name direction field,
      op = .orderByField name direction ∧ schema.resolve? name = some field ∧
        op.steps schema = [⟨field, direction⟩]

theorem sound_start (schema : Schema ε) (source : StoreId) :
    Sound schema source { query := { source } } where
  source_eq := rfl
  chain_eq := rfl
  chain_eq_nil_iff := by simp
  steps_of_restarts hop := absurd hop List.not_mem_nil

theorem issued_concat (schema : Schema ε) (done : List (Derivation (Descriptor ε)))
    (op : Derivation (Descriptor ε)) :
    issued schema (done ++ [op]) =
      (if op.restarts then [] else issued schema done) ++ op.steps schema :=
  List.foldl_concat _ _ _ _

/-- Every attempt keeps a trail sound, whether it succeeds or fails. -/
theorem Sound.attempt (h : trail.Sound schema source) (op : Derivation (Descriptor ε)) :
    (trail.attempt schema op).Sound schema source := by
  obtain ⟨error, -, hvalue⟩ | ⟨haccepted, hvalue⟩ := Query.derive_cases schema trail.query op
  · rw [attempt_of_error hvalue]
    exact h
  · rw [attempt_of_ok hvalue]
    refine ⟨h.source_eq, ?_, ?_, ?_⟩
    · rw [issued_concat, ← h.chain_eq]
    · -- A restart empties the chain, but its own step takes the place of the others.
      show _ ++ op.steps schema = [] ↔ ∀ op' ∈ trail.done ++ [op], op'.steps schema = []
      rw [List.forall_mem_append, List.forall_mem_singleton, List.append_eq_nil_iff,
        ← h.chain_eq_nil_iff]
      cases hrestarts : op.restarts with
      | false => simp
      | true =>
        obtain ⟨name, direction, field, -, -, hsteps⟩ := op.steps_of_restarts hrestarts haccepted
        simp [hsteps]
    · intro op' hop' hrestarts
      rcases List.mem_append.mp hop' with hold | hnew
      · exact h.steps_of_restarts hold hrestarts
      · obtain rfl := List.mem_singleton.mp hnew
        exact op'.steps_of_restarts hrestarts haccepted

theorem sound_foldl (h : trail.Sound schema source) (ops : List (Derivation (Descriptor ε))) :
    (ops.foldl (attempt schema) trail).Sound schema source := by
  induction ops generalizing trail with
  | nil => exact h
  | cons op rest ih => exact ih (h.attempt op)

theorem sound_ofRun (schema : Schema ε) (source : StoreId)
    (ops : List (Derivation (Descriptor ε))) : (ofRun schema source ops).Sound schema source :=
  sound_foldl (sound_start schema source) ops

/-! ### Closed form of the chain -/

/-- Without a restart steps are only ever added. -/
theorem foldl_of_not_restarts {done : List (Derivation (Descriptor ε))}
    (h : ∀ op ∈ done, op.restarts = false) (chain : Chain ε) :
    done.foldl (fun chain op => (if op.restarts then [] else chain) ++ op.steps schema) chain =
      chain ++ done.flatMap (Derivation.steps schema) := by
  induction done generalizing chain with
  | nil => exact (List.append_nil chain).symm
  | cons op rest ih =>
    obtain ⟨hop, hrest⟩ := List.forall_mem_cons.mp h
    rw [List.foldl_cons, ih hrest, hop, List.flatMap_cons, ← List.append_assoc]
    rfl

/-- What came before the last restart does not show. -/
theorem issued_of_restarts {op : Derivation (Descriptor ε)} (hop : op.restarts = true)
    (earlier : List (Derivation (Descriptor ε))) {later : List (Derivation (Descriptor ε))}
    (hlater : ∀ op ∈ later, op.restarts = false) :
    issued schema (earlier ++ op :: later) =
      op.steps schema ++ later.flatMap (Derivation.steps schema) := by
  rw [issued, List.foldl_append, List.foldl_cons, foldl_of_not_restarts hlater, if_pos hop,
    List.nil_append]

namespace Sound

/-- The last ordering by a field alone gives the first step, and what succeeded
    since then the others. -/
theorem ordering_of_restarts (h : trail.Sound schema source)
    {earlier later : List (Derivation (Descriptor ε))} {name : String} {direction : Direction}
    (hdone : trail.done = earlier ++ .orderByField name direction :: later)
    (hlater : ∀ op ∈ later, op.restarts = false) :
    ∃ field, schema.resolve? name = some field ∧
      trail.query.ordering =
        (field.name, direction) :: Chain.labels (later.flatMap (Derivation.steps schema)) := by
  have hmem : .orderByField name direction ∈ trail.done := by
    rw [hdone]
    exact List.mem_append_right _ List.mem_cons_self
  obtain ⟨_, _, field, heq, hname, hsteps⟩ := h.steps_of_restarts hmem rfl
  obtain ⟨rfl, rfl⟩ := Derivation.orderByField.inj heq
  refine ⟨field, hname, ?_⟩
  rw [Query.ordering, h.chain_eq, hdone, issued_of_restarts rfl earlier hlater, hsteps]
  rfl

/-- Without an ordering by a field alone every step counts. -/
theorem ordering_of_not_restarts (h : trail.Sound schema source)
    (hdone : ∀ op ∈ trail.done, op.restarts = false) :
    trail.query.ordering = Chain.labels (trail.done.flatMap (Derivation.steps schema)) := by
  rw [Query.ordering, h.chain_eq, issued, foldl_of_not_restarts hdone, List.nil_append]

/-- There is an ordering just if a step has been contributed. -/
theorem state_eq_ordered_iff (h : trail.Sound schema source) :
    trail.query.state = .ordered ↔ ∃ op ∈ trail.done, op.steps schema ≠ [] := by
  rw [Query.state_eq_ordered_iff, ne_eq, h.chain_eq_nil_iff]
  simp

end Sound

/-! ### Growing trails -/

theorem ofRun_append (schema : Schema ε) (source : StoreId)
    (ops more : List (Derivation (Descriptor ε))) :
    ofRun schema source (ops ++ more) = more.foldl (attempt schema) (ofRun schema source ops) :=
  List.foldl_append

/-- A trail only grows. -/
theorem done_prefix_attempt (trail : Trail ε) (op : Derivation (Descriptor ε)) :
    trail.done <+: (trail.attempt schema op).done := by
  cases hvalue : (trail.query.derive schema op).value with
  | error error => exact (congrArg Trail.done (attempt_of_error hvalue)).symm ▸ List.prefix_rfl
  | ok next => exact (congrArg Trail.done (attempt_of_ok hvalue)).symm ▸ List.prefix_append _ _

theorem done_prefix_foldl (trail : Trail ε) (ops : List (Derivation (Descriptor ε))) :
    trail.done <+: (ops.foldl (attempt schema) trail).done := by
  induction ops generalizing trail with
  | nil => exact List.prefix_rfl
  | cons op rest ih => exact (done_prefix_attempt trail op).trans (ih _)

/-! ### The whole run -/

/-- **The ordering is what its history issued.** After any run of attempts that
    starts from a query without ordering, the query is over the same store. If
    an ordering by a field alone has succeeded, the last one gives the first
    step, and the steps contributed since then follow; otherwise the ordering
    is made of all steps contributed, in order. The next attempt fails just if
    its name is unknown, or if it refines and no step has been contributed;
    then nothing changes. There is an ordering just if a step has been
    contributed, and once there is one there always will be. -/
theorem ordering_is_issued (schema : Schema ε) (source : StoreId)
    (ops : List (Derivation (Descriptor ε))) :
    let trail := ofRun schema source ops
    let query := trail.query
    query.source = source ∧
    (∀ earlier name direction later,
      trail.done = earlier ++ .orderByField name direction :: later →
      (∀ op ∈ later, op.restarts = false) →
      ∃ field, schema.resolve? name = some field ∧
        query.ordering =
          (field.name, direction) :: Chain.labels (later.flatMap (Derivation.steps schema))) ∧
    ((∀ op ∈ trail.done, op.restarts = false) →
      query.ordering = Chain.labels (trail.done.flatMap (Derivation.steps schema))) ∧
    (∀ op error, (query.derive schema op).value = .error error ↔
      op.Refused schema (∀ earlier ∈ trail.done, earlier.steps schema = []) error) ∧
    (∀ op error, (query.derive schema op).value = .error error →
      ofRun schema source (ops ++ [op]) = trail) ∧
    (∀ op next, (query.derive schema op).value = .ok next →
      ofRun schema source (ops ++ [op]) = { query := next, done := trail.done ++ [op] }) ∧
    (query.state = .ordered ↔ ∃ op ∈ trail.done, op.steps schema ≠ []) ∧
    ∀ more, query.state = .ordered →
      (ofRun schema source (ops ++ more)).query.state = .ordered := by
  intro trail query
  have hsound : trail.Sound schema source := sound_ofRun schema source ops
  refine ⟨hsound.source_eq, fun _ _ _ _ => hsound.ordering_of_restarts,
    hsound.ordering_of_not_restarts, ?_, ?_, ?_, hsound.state_eq_ordered_iff, ?_⟩
  · intro op error
    rw [Query.derive_eq_error_iff]
    exact Derivation.Refused.congr hsound.chain_eq_nil_iff
  · intro op error hvalue
    rw [ofRun_append]
    exact attempt_of_error hvalue
  · intro op next hvalue
    rw [ofRun_append]
    exact attempt_of_ok hvalue
  · intro more hstate
    -- The derivation that contributed a step is still part of the longer trail.
    obtain ⟨op, hop, hsteps⟩ := hsound.state_eq_ordered_iff.mp hstate
    have hprefix : trail.done <+: (ofRun schema source (ops ++ more)).done := by
      rw [ofRun_append]
      exact done_prefix_foldl trail more
    exact (sound_ofRun schema source _).state_eq_ordered_iff.mpr
      ⟨op, hprefix.subset hop, hsteps⟩

/-- The first refinement has nothing to refine, `Age` is unknown, and the
    ordering by the text is discarded by the one that follows. -/
example : (ofRun numberSchema ⟨0⟩ [.thenByField "Id" .ascending, .orderByText "Id",
      .orderByField "Age" .ascending, .orderByField "Id" .descending,
      .thenByField "Id" .ascending]).query.ordering =
    [("Id", .descending), ("Id", .ascending)] := by decide +kernel

end Trail

end RowOrder
