import RowOrder.Proofs.FirstKeys
import RowOrder.Proofs.RoundTrip

/-! # Ways to ask for an ordering

    An ordering can be asked for field by field, as a list of tokens, or as one
    text. Names are looked up as they are in the first case, and out of trimmed
    and marked text in the others.

    - A `Request` names a field and a direction. `Request.Expressible` says when
      its token, and the text that the token is part of, mean just this.
    - `Query.ways_agree`: such requests give one chain in every way, apart from
      the repeated fields that tokens and text pass over unless told otherwise.
      The rows are the same in all cases.
-/

namespace RowOrder

variable {ε : Type} {schema : Schema ε}

/-! ### Requests -/

/-- A field asked for by name, with the direction in which it is to decide. -/
structure Request where
  /-- The name, in any ASCII casing. -/
  name : String
  /-- The direction. -/
  direction : Direction

namespace Request

/-- The request as a token: the name marked with the direction. -/
def token (request : Request) : String := request.direction.mark request.name

/-- The key that a request stands for. -/
def key? (schema : Schema ε) (request : Request) : Option (SortKey ε) :=
  (schema.resolve? request.name).map fun field => ⟨field, request.direction⟩

/-- A request for a field of the schema that means the same as a token and in
    text: its name is one that a token can hold, it is not cut at a comma, and
    it does not leave an empty segment. -/
structure Expressible (schema : Schema ε) (request : Request) : Prop where
  /-- The name stands for a field. -/
  resolves : (schema.resolve? request.name).isSome
  /-- A token can hold the name. -/
  holds : Token.Holds request.direction request.name
  /-- Text is not cut inside the name. -/
  no_comma : ',' ∉ request.name.toList
  /-- Without a mark there is a character. -/
  nonempty : request.direction = .ascending → request.name ≠ ""

variable {request : Request}

/-- The token of a request stands for its key. -/
theorem ofToken?_token (h : request.Expressible schema) :
    SortKey.ofToken? schema request.token = request.key? schema := by
  rw [SortKey.ofToken?, token, Token.name_mark h.holds, Token.direction_mark h.holds]
  rfl

theorem exists_key?_eq_some (h : (schema.resolve? request.name).isSome) :
    ∃ field, schema.resolve? request.name = some field ∧
      request.key? schema = some ⟨field, request.direction⟩ := by
  obtain ⟨field, hfield⟩ := Option.isSome_iff_exists.mp h
  exact ⟨field, hfield, by rw [key?, hfield, Option.map_some]⟩

theorem mem_fields_of_key? {key : SortKey ε} (h : request.key? schema = some key) :
    key.field ∈ schema.fields := by
  obtain ⟨field, hfield, rfl⟩ := Option.map_eq_some_iff.mp h
  exact (Schema.resolve?_eq_some_iff.mp hfield).1

/-! ### Lists of requests -/

/-- The keys that requests stand for. -/
def keys (schema : Schema ε) (requests : List Request) : Chain ε :=
  requests.filterMap (key? schema)

variable {requests : List Request}

theorem over_keys (schema : Schema ε) (requests : List Request) :
    Chain.Over schema (keys schema requests) := by
  intro key hkey
  obtain ⟨request, -, hrequest⟩ := List.mem_filterMap.mp hkey
  exact mem_fields_of_key? hrequest

/-- Each request has its key. -/
theorem map_some_keys (h : ∀ request ∈ requests, request.Expressible schema) :
    (keys schema requests).map some = requests.map (key? schema) := by
  induction requests with
  | nil => rfl
  | cons request rest ih =>
    obtain ⟨hrequest, hrest⟩ := List.forall_mem_cons.mp h
    obtain ⟨field, -, hkey⟩ := exists_key?_eq_some hrequest.resolves
    rw [keys, List.filterMap_cons_some hkey, List.map_cons, List.map_cons, hkey]
    exact congrArg _ (ih hrest)

/-- The tokens of requests stand for their keys. -/
theorem filterMap_ofToken?_map_token (h : ∀ request ∈ requests, request.Expressible schema) :
    (requests.map token).filterMap (SortKey.ofToken? schema) = keys schema requests := by
  rw [List.filterMap_map]
  exact List.filterMap_congr fun request hrequest => ofToken?_token (h request hrequest)

/-- The text of requests has their tokens for its segments. -/
theorem segments_join_map_token (h : ∀ request ∈ requests, request.Expressible schema) :
    Text.segments (Text.join (requests.map token)) = requests.map token := by
  have hcomma : ∀ part ∈ requests.map token, ',' ∉ part.toList := by
    intro part hpart
    obtain ⟨request, hrequest, rfl⟩ := List.mem_map.mp hpart
    exact fun hmem => (h request hrequest).no_comma (Direction.comma_mem_mark_iff.mp hmem)
  have hnonempty : ∀ part ∈ requests.map token, part ≠ "" := by
    intro part hpart
    obtain ⟨request, hrequest, rfl⟩ := List.mem_map.mp hpart
    intro hempty
    obtain ⟨hdirection, hname⟩ := Direction.mark_eq_empty_iff.mp hempty
    exact (h request hrequest).nonempty hdirection hname
  rw [Text.segments_join hcomma]
  exact List.filter_eq_self.mpr (by simpa using hnonempty)

end Request

/-! ### Field by field -/

namespace Query

/-- The query ordered by the first request alone and then refined by each of
    the others. -/
def orderByRequests (schema : Schema ε) (query : Query ε) (first : Request)
    (rest : List Request) : Except QueryError (Query ε) := do
  let primary ← query.orderByField schema first.name first.direction
  rest.foldlM (fun refined request =>
    refined.thenByField schema request.name request.direction) primary

/-- Requests whose names stand for fields refine an ordering one after the
    other, and none is refused. -/
theorem foldlM_thenByField {query : Query ε} (hchain : query.chain ≠ []) {requests : List Request}
    (h : ∀ request ∈ requests, (schema.resolve? request.name).isSome) :
    requests.foldlM (fun refined request =>
        refined.thenByField schema request.name request.direction) query =
      .ok { query with chain := query.chain ++ Request.keys schema requests } := by
  -- The query grows with every request, so the induction is for all queries.
  induction requests generalizing query with
  | nil =>
    rw [Request.keys, List.filterMap_nil, List.append_nil]
    rfl
  | cons request rest ih =>
    obtain ⟨hrequest, hrest⟩ := List.forall_mem_cons.mp h
    obtain ⟨field, hfield, hkey⟩ := Request.exists_key?_eq_some hrequest
    have hstep : query.thenByField schema request.name request.direction =
        .ok { query with chain := query.chain ++ [⟨field, request.direction⟩] } :=
      thenByField_eq_ok_iff.mpr ⟨field, hfield, hchain, rfl⟩
    have hordered : query.chain ++ [⟨field, request.direction⟩] ≠ [] := by simp
    rw [List.foldlM_cons, hstep]
    show rest.foldlM _ _ = _
    rw [ih hordered hrest, Request.keys, Request.keys, List.filterMap_cons_some hkey,
      List.append_assoc, List.singleton_append]

/-- Field by field, requests give the chain of their keys. -/
theorem orderByRequests_of_resolves (query : Query ε) {first : Request} {rest : List Request}
    (h : ∀ request ∈ first :: rest, (schema.resolve? request.name).isSome) :
    query.orderByRequests schema first rest =
      .ok { query with chain := Request.keys schema (first :: rest) } := by
  obtain ⟨hfirst, hrest⟩ := List.forall_mem_cons.mp h
  obtain ⟨field, hfield, hkey⟩ := Request.exists_key?_eq_some hfirst
  have hprimary : query.orderByField schema first.name first.direction =
      .ok (query.orderBy ⟨field, first.direction⟩) :=
    orderByField_eq_ok_iff.mpr ⟨field, hfield, rfl⟩
  have hordered : (query.orderBy ⟨field, first.direction⟩).chain ≠ [] := List.cons_ne_nil _ _
  rw [orderByRequests, hprimary]
  show rest.foldlM _ _ = _
  rw [foldlM_thenByField hordered hrest, Request.keys, Request.keys,
    List.filterMap_cons_some hkey]
  rfl

theorem orderByRequests_eq_ok (query : Query ε) {first : Request} {rest : List Request}
    (h : ∀ request ∈ first :: rest, request.Expressible schema) :
    query.orderByRequests schema first rest =
      .ok { query with chain := Request.keys schema (first :: rest) } :=
  orderByRequests_of_resolves query fun request hrequest => (h request hrequest).resolves

/-! ### Every way -/

/-- **The ways to ask agree.** Let requests be expressible and a query have no
    ordering. Field by field, as a list of tokens whose repeated fields are
    retained, and as a text read in the same way, the requests give one query:
    its steps are the keys of the requests, in order. As a list of tokens and
    as a text read with the usual configuration they give one query too, with
    the steps left out that are on the field of an earlier one. All of them
    have the same rows. -/
theorem ways_agree (schema : Schema ε) (query : Query ε) (hquery : query.state = .unordered)
    (first : Request) (rest : List Request)
    (hrequests : ∀ request ∈ first :: rest, request.Expressible schema) :
    let tokens := (first :: rest).map Request.token
    let text := Text.join tokens
    let retain : Config := { duplicateFields := .retain }
    ∃ full brief : Query ε,
      query.orderByRequests schema first rest = .ok full ∧
      ((Descriptor.fromTokens schema tokens retain).value.apply query).value = .ok full ∧
      ((Descriptor.parse schema text retain).value.apply query).value = .ok full ∧
      (query.orderByTokens schema tokens).value = .ok brief ∧
      (query.orderByText schema text).value = .ok brief ∧
      full.source = query.source ∧
      full.chain.map some = (first :: rest).map (Request.key? schema) ∧
      brief = { full with chain := Chain.firsts full.chain } ∧
      brief.ordering = Chain.labels (Chain.firsts full.chain) ∧
      ∀ catalog, brief.rows catalog = full.rows catalog ∧
        brief.first? catalog = full.first? catalog := by
  intro tokens text retain
  let keys : Chain ε := Request.keys schema (first :: rest)
  have hchain : query.chain = [] := state_eq_unordered_iff.mp hquery
  have hsegments : Text.segments text = tokens := Request.segments_join_map_token hrequests
  have hkeys : tokens.filterMap (SortKey.ofToken? schema) = keys :=
    Request.filterMap_ofToken?_map_token hrequests
  -- Reading a token list gives all the keys or the first on each field.
  have hall : (Descriptor.fromTokens schema tokens retain).value.keys = keys := by
    rw [Descriptor.keys_fromTokens_retain, hkeys]
  have hfirsts : (Descriptor.fromTokens schema tokens).value.keys = Chain.firsts keys := by
    rw [Descriptor.keys_fromTokens_keepFirst, hkeys]
  have hrows : ∀ catalog : Catalog ε, rows { query with chain := Chain.firsts keys } catalog =
      rows { query with chain := keys } catalog := fun catalog =>
    Chain.sort_congr ((Chain.thins_firsts keys).compare_eq (Request.over_keys schema _)) _
  refine ⟨{ query with chain := keys }, { query with chain := Chain.firsts keys },
    orderByRequests_eq_ok query hrequests, ?_, ?_, ?_, ?_, rfl,
    Request.map_some_keys hrequests, rfl, rfl, ?_⟩
  · rw [Descriptor.value_apply, hall, hchain, List.nil_append]
  · rw [Descriptor.value_apply, Descriptor.parse, hsegments, hall, hchain, List.nil_append]
  · rw [value_orderByTokens, hfirsts, hchain, List.nil_append]
  · rw [value_orderByText, Descriptor.parse, hsegments, hfirsts, hchain, List.nil_append]
  · intro catalog
    refine ⟨hrows catalog, ?_⟩
    rw [first?, first?, hrows catalog]

/-- A field, and another whose name is that of the first behind a blank. -/
def blankSchema : Schema Row where
  fields := [Row.field "Id" .int 0, Row.field " Id" .int 1]
  distinct := by
    simp only [Text.sameName_iff]
    decide

theorem resolve?_blankSchema :
    blankSchema.resolve? "id" = some (Row.field "Id" .int 0) ∧
    blankSchema.resolve? "Id" = some (Row.field "Id" .int 0) ∧
    blankSchema.resolve? " ID" = some (Row.field " Id" .int 1) := by
  refine ⟨Schema.resolve?_eq_some_iff.mpr ⟨?_, ?_⟩, Schema.resolve?_eq_some_iff.mpr ⟨?_, ?_⟩,
    Schema.resolve?_eq_some_iff.mpr ⟨?_, ?_⟩⟩
  · exact List.mem_cons_self
  · exact Text.sameName_iff.mpr (by decide)
  · exact List.mem_cons_self
  · exact Text.sameName_iff.mpr (by decide)
  · exact List.mem_cons_of_mem _ List.mem_cons_self
  · exact Text.sameName_iff.mpr (by decide)

/-- A blank behind the mark is part of the name, so text tells the two fields
    apart; the second step on `Id` is passed over in it. -/
theorem ways_agree_blank :
    let query : Query Row := { source := ⟨0⟩ }
    let first : Request := ⟨"id", .ascending⟩
    let rest : List Request := [⟨" ID", .descending⟩, ⟨"Id", .descending⟩]
    query.state = .unordered ∧
    (∀ request ∈ first :: rest, request.Expressible blankSchema) ∧
    ∃ full brief : Query Row,
      query.orderByRequests blankSchema first rest = .ok full ∧
      (query.orderByText blankSchema "id,- ID,-Id").value = .ok brief ∧
      full.ordering = [("Id", .ascending), (" Id", .descending), ("Id", .descending)] ∧
      brief.ordering = [("Id", .ascending), (" Id", .descending)] ∧
      ∀ catalog, brief.rows catalog = full.rows catalog := by
  intro query first rest
  obtain ⟨hid, hId, hblank⟩ := resolve?_blankSchema
  have hrequests : ∀ request ∈ first :: rest, request.Expressible blankSchema := by
    intro request hrequest
    simp only [first, rest, List.mem_cons, List.not_mem_nil, or_false] at hrequest
    rcases hrequest with rfl | rfl | rfl
    · exact ⟨by rw [hid]; rfl, by decide +kernel, by decide, by decide⟩
    · exact ⟨by rw [hblank]; rfl, by decide +kernel, by decide, by decide⟩
    · exact ⟨by rw [hId]; rfl, by decide +kernel, by decide, by decide⟩
  have hkeys : Request.keys blankSchema (first :: rest) =
      [⟨Row.field "Id" .int 0, .ascending⟩, ⟨Row.field " Id" .int 1, .descending⟩,
        ⟨Row.field "Id" .int 0, .descending⟩] := by
    simp [Request.keys, Request.key?, first, rest, hid, hId, hblank]
  obtain ⟨full, brief, hfull, -, -, -, hbrief, -, -, -, hordering, hrows⟩ :=
    ways_agree blankSchema query rfl first rest hrequests
  -- The fields one by one give the keys, so they are the steps of the full query.
  obtain rfl : { query with chain := Request.keys blankSchema (first :: rest) } = full :=
    Except.ok.inj ((orderByRequests_eq_ok query hrequests).symm.trans hfull)
  have htext : Text.join ((first :: rest).map Request.token) = "id,- ID,-Id" := by decide +kernel
  rw [htext] at hbrief
  refine ⟨rfl, hrequests, _, brief, hfull, hbrief, ?_, ?_, fun catalog => (hrows catalog).1⟩
  · rw [ordering, hkeys]
    decide
  · rw [hordering, hkeys]
    decide

end Query

end RowOrder
