import RowOrder.Proofs.ChainOrder
import RowOrder.Proofs.Reachable

/-! # Repeated fields

    A step on a field that an earlier step is on never decides: it is reached
    only by entities that tie on the earlier one, so they have one value in
    this field, whatever the directions.

    - `Chain.Thins` says of a chain that it is another without some of these
      steps. Both compare alike (`Chain.Thins.compare_eq`).
    - The keys that are read where only the first on a field stands are, in
      this sense, the keys that are read where all are retained
      (`Descriptor.thins_fromTokens`).
    - `Query.repeated_fields_idle`: the rows are the same in both cases.
-/

namespace RowOrder

variable {ε : Type} {schema : Schema ε}

namespace Chain

/-! ### Chains without some repeated steps -/

/-- The first chain is the second without some of its steps, each of them on a
    field that an earlier step of the second chain is on. -/
inductive Thins : Chain ε → Chain ε → Prop where
  /-- There is nothing to leave out. -/
  | nil : Thins [] []
  /-- Any step may be kept. -/
  | keep {shorter chain : Chain ε} (h : Thins shorter chain) (key : SortKey ε) :
      Thins (shorter ++ [key]) (chain ++ [key])
  /-- A step may be left out if an earlier one is on its field. -/
  | leave {shorter chain : Chain ε} (h : Thins shorter chain) (key : SortKey ε)
      (hrepeated : ∃ earlier ∈ chain, earlier.name = key.name) : Thins shorter (chain ++ [key])

namespace Thins

variable {shorter chain : Chain ε}

theorem refl (chain : Chain ε) : Thins chain chain := by
  induction chain using List.reverseRecOn with
  | nil => exact .nil
  | append_singleton chain key ih => exact .keep ih key

theorem sublist (h : Thins shorter chain) : shorter.Sublist chain := by
  induction h with
  | nil => exact List.Sublist.refl _
  | keep h key ih => exact ih.append_right [key]
  | leave h key hrepeated ih => exact ih.trans (List.sublist_append_left _ _)

/-- Steps that come before both chains do not matter. -/
theorem prepend (front : Chain ε) (h : Thins shorter chain) :
    Thins (front ++ shorter) (front ++ chain) := by
  induction h with
  | nil => exact refl _
  | keep h key ih =>
    rw [← List.append_assoc, ← List.append_assoc]
    exact .keep ih key
  | leave h key hrepeated ih =>
    obtain ⟨earlier, hmem, hname⟩ := hrepeated
    rw [← List.append_assoc]
    exact .leave ih key ⟨earlier, List.mem_append_right _ hmem, hname⟩

/-- Where no field is repeated there is nothing to leave out. -/
theorem eq_of_nodup (h : Thins shorter chain) (hnodup : (chain.map SortKey.name).Nodup) :
    shorter = chain := by
  induction h with
  | nil => rfl
  | keep h key ih =>
    rw [List.map_append, List.nodup_append] at hnodup
    rw [ih hnodup.1]
  | leave h key hrepeated ih =>
    obtain ⟨earlier, hmem, hname⟩ := hrepeated
    rw [List.map_append, List.nodup_append] at hnodup
    exact absurd hname (hnodup.2.2 _ (List.mem_map_of_mem hmem) _ (by simp))

/-- A chain without repeated fields is shown as the one it comes from just if
    that one has none either. -/
theorem labels_eq_iff (h : Thins shorter chain)
    (hdistinct : shorter.Pairwise fun k l => k.name ≠ l.name) :
    labels shorter = labels chain ↔ (chain.map SortKey.name).Nodup := by
  constructor
  · -- The names alone are then the same, and on one side they are distinct.
    intro hlabels
    have hnames : shorter.map SortKey.name = chain.map SortKey.name := by
      have hfirst := congrArg (List.map Prod.fst) hlabels
      rw [labels, labels, List.map_map, List.map_map] at hfirst
      exact hfirst
    rw [← hnames]
    exact List.pairwise_map.mpr hdistinct
  · intro hnodup
    rw [h.eq_of_nodup hnodup]

/-- Steps on a repeated field never decide. -/
theorem compare_eq (h : Thins shorter chain) (hover : Over schema chain) (a b : ε) :
    Chain.compare shorter a b = Chain.compare chain a b := by
  induction h with
  | nil => rfl
  | keep h key ih =>
    rw [compare_append, compare_append, ih fun k hk => hover k (List.mem_append_left _ hk)]
  | @leave shorter chain h key hrepeated ih =>
    rw [ih fun k hk => hover k (List.mem_append_left _ hk), compare_append]
    by_cases htie : Chain.compare chain a b = .eq
    · -- The earlier step reads the same field, and there the entities tie.
      obtain ⟨earlier, hmem, hname⟩ := hrepeated
      have hfield : earlier.field = key.field :=
        Schema.eq_of_name_eq (hover earlier (List.mem_append_left _ hmem))
          (hover key (List.mem_append_right _ List.mem_cons_self)) hname
      have hread : key.field.read a = key.field.read b := by
        rw [← hfield]
        exact compare_eq_eq_iff.mp htie earlier hmem
      rw [htie, compare_cons, SortKey.compare_eq_eq_iff.mpr hread]
      rfl
    · cases hcompare : Chain.compare chain a b with
      | lt => rfl
      | eq => exact absurd hcompare htie
      | gt => rfl

end Thins

/-- Chains that compare alike arrange alike. -/
theorem sort_congr {first second : Chain ε}
    (h : ∀ a b, Chain.compare first a b = Chain.compare second a b) (entities : List ε) :
    sort first entities = sort second entities := by
  have hle : le first = le second := by
    funext a b
    rw [le, le, h]
  rw [sort, sort, hle]

end Chain

/-! ### Keys of repeated fields -/

namespace Descriptor

/-- One token keeps the keys of a descriptor those of another that retains all,
    without some repeated ones. -/
theorem thins_take {d all : Descriptor ε} (hall : all.config.duplicateFields = .retain)
    (h : Chain.Thins d.keys all.keys) (token : String) :
    Chain.Thins (take schema d token).value.keys (take schema all token).value.keys := by
  -- How a token is read does not depend on the keys there are.
  cases htoken : SortKey.ofToken? schema token with
  | none =>
    rw [take_of_eq_none htoken, take_of_eq_none htoken]
    exact h
  | some key =>
    have hretained : ¬ all.Repeats key := by
      intro hrepeats
      have hpolicy := hrepeats.2
      rw [hall] at hpolicy
      contradiction
    rw [take_of_eq_some htoken, take_of_eq_some htoken, push_of_not_repeats hretained]
    by_cases hrepeats : d.Repeats key
    · obtain ⟨earlier, hmem, hname⟩ : ∃ k ∈ d.keys, k.name = key.name := by
        simpa [hasField] using hrepeats.1
      rw [push_of_repeats hrepeats]
      exact .leave h key ⟨earlier, h.sublist.subset hmem, hname⟩
    · rw [push_of_not_repeats hrepeats]
      exact .keep h key

theorem thins_foldlM {d all : Descriptor ε} (hall : all.config.duplicateFields = .retain)
    (h : Chain.Thins d.keys all.keys) (tokens : List String) :
    Chain.Thins (tokens.foldlM (take schema) d).value.keys
      (tokens.foldlM (take schema) all).value.keys := by
  induction tokens generalizing d all with
  | nil => exact h
  | cons token rest ih =>
    rw [value_foldlM_cons, value_foldlM_cons]
    refine ih ?_ (thins_take hall h token)
    rw [config_take, hall]

/-- Whatever becomes of repeated fields, only repeated keys are left out. -/
theorem thins_fromTokens (schema : Schema ε) (tokens : List String) (config : Config) :
    Chain.Thins (fromTokens schema tokens config).value.keys
      (fromTokens schema tokens { duplicateFields := .retain }).value.keys :=
  thins_foldlM rfl .nil tokens

end Descriptor

/-! ### The rows -/

namespace Query

theorem rows_of_thins {query : Query ε} (hquery : query.Reachable schema) {shorter : Chain ε}
    (h : Chain.Thins shorter query.chain) (catalog : Catalog ε) :
    rows { query with chain := shorter } catalog = query.rows catalog :=
  Chain.sort_congr (h.compare_eq hquery.over) _

/-- **Repeated fields do not change the rows.** They are the same without any
    steps on a field that an earlier step is on. In particular it makes no
    difference to them whether a descriptor retains the keys on a repeated
    field or passes them over; it makes one to the ordering that is shown, just
    if there are such keys. -/
theorem repeated_fields_idle (schema : Schema ε) (query : Query ε)
    (hquery : query.Reachable schema) (catalog : Catalog ε) :
    (∀ shorter, Chain.Thins shorter query.chain →
      rows { query with chain := shorter } catalog = query.rows catalog ∧
      first? { query with chain := shorter } catalog = query.first? catalog) ∧
    ∀ tokens : List String,
      let first := (Descriptor.fromTokens schema tokens { duplicateFields := .keepFirst }).value
      let all := (Descriptor.fromTokens schema tokens { duplicateFields := .retain }).value
      ∃ byFirst byAll : Query ε,
        (first.apply query).value = .ok byFirst ∧ (all.apply query).value = .ok byAll ∧
        byFirst.rows catalog = byAll.rows catalog ∧
        byFirst.first? catalog = byAll.first? catalog ∧
        (byFirst.ordering = byAll.ordering ↔ (all.keys.map SortKey.name).Nodup) := by
  refine ⟨?_, ?_⟩
  · intro shorter hthins
    have hrows := rows_of_thins hquery hthins catalog
    refine ⟨hrows, ?_⟩
    rw [first?, first?, hrows]
  · intro tokens first all
    have hthins : Chain.Thins first.keys all.keys := Descriptor.thins_fromTokens schema tokens _
    have hfirst : first.WellFormed schema := Descriptor.wellFormed_fromTokens schema tokens _
    have hall : all.WellFormed schema := Descriptor.wellFormed_fromTokens schema tokens _
    have hconfig : first.config = { duplicateFields := .keepFirst } :=
      Descriptor.config_fromTokens schema tokens _
    have hrows : rows { query with chain := query.chain ++ first.keys } catalog =
        rows { query with chain := query.chain ++ all.keys } catalog :=
      Chain.sort_congr ((hthins.prepend query.chain).compare_eq (hquery.over.append hall.over)) _
    refine ⟨_, _, Descriptor.value_apply first query, Descriptor.value_apply all query, hrows,
      ?_, ?_⟩
    · rw [first?, first?, hrows]
    · rw [ordering, ordering, Chain.labels, Chain.labels, List.map_append, List.map_append,
        List.append_right_inj]
      exact hthins.labels_eq_iff (hfirst.distinct (congrArg Config.duplicateFields hconfig))

/-- A store of three numbers. -/
def numbers : Catalog Row :=
  Catalog.empty.add
    (Store.empty.insertAll numberSchema [⟨[.int 2]⟩, ⟨[.int 3]⟩, ⟨[.int 1]⟩]).1

/-- To order three numbers by one field in both directions is to order them in
    the first; the ordering shows the second step all the same. -/
theorem repeated_fields_idle_numbers :
    let query : Query Row := { source := ⟨0⟩, chain := [numberKey, numberKey.toggled] }
    let tokens := ["-Id", "Id"]
    let first := (Descriptor.fromTokens numberSchema tokens { duplicateFields := .keepFirst }).value
    let all := (Descriptor.fromTokens numberSchema tokens { duplicateFields := .retain }).value
    query.Reachable numberSchema ∧
    Chain.Thins [numberKey] query.chain ∧
    rows { query with chain := [numberKey] } numbers = query.rows numbers ∧
    (∃ byFirst byAll : Query Row,
      (first.apply query).value = .ok byFirst ∧ (all.apply query).value = .ok byAll ∧
      byFirst.rows numbers = byAll.rows numbers ∧ byFirst.ordering ≠ byAll.ordering) := by
  intro query tokens first all
  have hquery : query.Reachable numberSchema :=
    reachable_of_over ⟨0⟩ (over_numberKey.append over_numberKey.toggled)
  have hthins : Chain.Thins [numberKey] query.chain :=
    .leave (.keep .nil numberKey) numberKey.toggled ⟨numberKey, List.mem_singleton.mpr rfl, rfl⟩
  obtain ⟨hchain, htokens⟩ := repeated_fields_idle numberSchema query hquery numbers
  obtain ⟨byFirst, byAll, hfirst, hbyAll, hrows, -, hordering⟩ := htokens tokens
  have hretained : Descriptor.WellFormed numberSchema
      { keys := [numberKey, numberKey.toggled], config := { duplicateFields := .retain } } := by
    refine ⟨?_, fun hpolicy => absurd hpolicy (by decide)⟩
    intro key hkey
    refine ⟨hquery.over key hkey, ?_⟩
    rcases List.mem_pair.mp hkey with rfl | rfl <;> decide +kernel
  have hall : all.keys = [numberKey, numberKey.toggled] :=
    congrArg (fun read => read.value.keys) (Descriptor.fromTokens_map_render hretained)
  have hrepeated : ¬ (all.keys.map SortKey.name).Nodup := by
    rw [hall]
    decide
  exact ⟨hquery, hthins, (hchain _ hthins).1, byFirst, byAll, hfirst, hbyAll, hrows,
    fun heq => hrepeated (hordering.mp heq)⟩

end Query

end RowOrder
