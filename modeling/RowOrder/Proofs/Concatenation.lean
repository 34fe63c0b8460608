import RowOrder.Proofs.Text.Commas
import RowOrder.Proofs.Verdicts

/-! # One text after another

    Two texts with a comma between them are read as the one and then the other,
    whatever they hold: the segments are those of both, and so are the keys,
    apart from the fields of the second that the first has keys on already.

    - `Descriptor.parse_concatenates` says so of both configurations, and of
      the report where all keys are retained.
    - `Query.order_in_two_calls`: to order by one text and then by another is to
      order by both at once, as far as the rows are concerned. The orderings
      that are shown differ, since fields are looked for within one reading only.
-/

namespace RowOrder

variable {ε : Type} {schema : Schema ε}

namespace Descriptor

/-- The keys of two texts with a comma between them: those of the first, and
    those of the second on other fields. -/
theorem keys_parse_append_comma (schema : Schema ε) (a b : String) :
    (parse schema (a ++ "," ++ b)).value.keys =
      (parse schema a).value.keys ++
        Chain.besides (parse schema a).value.keys (parse schema b).value.keys := by
  have hread : ∀ text, (parse schema text).value.keys =
      Chain.firsts ((Text.segments text).filterMap (SortKey.ofToken? schema)) :=
    fun text => keys_fromTokens_keepFirst schema (Text.segments text)
  rw [hread, hread, hread, Text.segments_append_comma, List.filterMap_append,
    Chain.firsts_append, Chain.besides_firsts]

/-- Where all keys are retained, the keys of two texts with a comma between them
    are those of both. -/
theorem keys_parse_append_comma_of_retain (schema : Schema ε) (a b : String) :
    (parse schema (a ++ "," ++ b) { duplicateFields := .retain }).value.keys =
      (parse schema a { duplicateFields := .retain }).value.keys ++
        (parse schema b { duplicateFields := .retain }).value.keys := by
  unfold parse
  rw [keys_fromTokens_retain, keys_fromTokens_retain, keys_fromTokens_retain,
    Text.segments_append_comma, List.filterMap_append]

/-- Where all keys are retained, the report on two texts with a comma between
    them is that on both. -/
theorem events_parse_append_comma_of_retain (schema : Schema ε) (a b : String) :
    (parse schema (a ++ "," ++ b) { duplicateFields := .retain }).events =
      (parse schema a { duplicateFields := .retain }).events ++
        (parse schema b { duplicateFields := .retain }).events := by
  -- No token is reported for the sake of an earlier one, so each counts alone.
  have hreport : ∀ text, (parse schema text { duplicateFields := .retain }).events =
      ((Text.segments text).filter fun token => ¬ Token.NamesField schema token).map
        .unknownField :=
    fun text => (accounts_fromTokens schema (Text.segments text)).events_retain
  rw [hreport, hreport, hreport, Text.segments_append_comma, List.filter_append, List.map_append]

/-- **Reading goes on after a comma.** Let any two texts stand with a comma
    between them. Where all keys are retained, both the keys and the report are
    those of the first text followed by those of the second. Where only the
    first key on a field counts, the keys are those of the first text followed
    by those of the second on fields that no key of the first is on. -/
theorem parse_concatenates (schema : Schema ε) (a b : String) :
    let both := a ++ "," ++ b
    let retain : Config := { duplicateFields := .retain }
    let keepFirst : Config := { duplicateFields := .keepFirst }
    (parse schema both retain).value.keys =
      (parse schema a retain).value.keys ++ (parse schema b retain).value.keys ∧
    (parse schema both retain).events =
      (parse schema a retain).events ++ (parse schema b retain).events ∧
    (parse schema both keepFirst).value.keys =
      (parse schema a keepFirst).value.keys ++
        (parse schema b keepFirst).value.keys.filter fun key =>
          key.name ∉ (parse schema a keepFirst).value.keys.map SortKey.name :=
  ⟨keys_parse_append_comma_of_retain schema a b, events_parse_append_comma_of_retain schema a b,
    keys_parse_append_comma schema a b⟩

end Descriptor

namespace Query

/-- **Two calls order as one.** For any two texts, to order a query by the
    first and then by the second never fails, and neither does to order it by
    both with a comma between them. The ordering in the second case is that in
    the first without the steps of the second text on a field that a step of
    the first text is on. The rows are the same. -/
theorem order_in_two_calls (schema : Schema ε) (query : Query ε) (a b : String) :
    ∃ (between twice once : Query ε) (fromA fromB : Chain ε),
      (query.orderByText schema a).value = .ok between ∧
      (between.orderByText schema b).value = .ok twice ∧
      (query.orderByText schema (a ++ "," ++ b)).value = .ok once ∧
      between.chain = query.chain ++ fromA ∧
      twice.chain = query.chain ++ fromA ++ fromB ∧
      once.chain = query.chain ++ fromA ++ Chain.besides fromA fromB ∧
      twice.ordering = query.ordering ++ Chain.labels fromA ++ Chain.labels fromB ∧
      once.ordering =
        query.ordering ++ Chain.labels fromA ++ Chain.labels (Chain.besides fromA fromB) ∧
      ∀ catalog, once.rows catalog = twice.rows catalog ∧
        once.first? catalog = twice.first? catalog := by
  let fromA : Chain ε := (Descriptor.parse schema a).value.keys
  let fromB : Chain ε := (Descriptor.parse schema b).value.keys
  have hover : Chain.Over schema (fromA ++ fromB) :=
    (Descriptor.wellFormed_parse schema a {}).over.append
      (Descriptor.wellFormed_parse schema b {}).over
  have hthins : Chain.Thins (fromA ++ Chain.besides fromA fromB) (fromA ++ fromB) :=
    Chain.thins_besides fromA fromB
  have honce : (query.orderByText schema (a ++ "," ++ b)).value =
      .ok { query with chain := query.chain ++ fromA ++ Chain.besides fromA fromB } := by
    rw [value_orderByText, Descriptor.keys_parse_append_comma, List.append_assoc]
  have hlabels : ∀ steps : Chain ε, Chain.labels (query.chain ++ fromA ++ steps) =
      query.ordering ++ Chain.labels fromA ++ Chain.labels steps := by
    intro steps
    simp only [ordering, Chain.labels, List.map_append]
  -- The steps of the query come first in both chains, whatever fields they are on.
  have hcompare : ∀ x y : ε,
      Chain.compare (query.chain ++ fromA ++ Chain.besides fromA fromB) x y =
        Chain.compare (query.chain ++ fromA ++ fromB) x y := by
    intro x y
    rw [List.append_assoc, List.append_assoc, Chain.compare_append, Chain.compare_append query.chain,
      hthins.compare_eq hover]
  have hrows : ∀ catalog : Catalog ε,
      rows { query with chain := query.chain ++ fromA ++ Chain.besides fromA fromB } catalog =
        rows { query with chain := query.chain ++ fromA ++ fromB } catalog :=
    fun catalog => Chain.sort_congr hcompare _
  refine ⟨_, _, _, fromA, fromB, value_orderByText query a, value_orderByText _ b, honce, rfl, rfl,
    rfl, hlabels fromB, hlabels _, ?_⟩
  intro catalog
  refine ⟨hrows catalog, ?_⟩
  rw [first?, first?]
  exact congrArg List.head? (hrows catalog)

end Query

end RowOrder
