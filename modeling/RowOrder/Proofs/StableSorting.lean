import RowOrder.Proofs.Arrangement

/-! # Stable arrangements

    What a stable arrangement of a list is, said without an algorithm: it is in
    the order of the chain, and the entities that tie with a given one are
    found in it as they stand in the list (`Chain.StablySorts`). A list has
    exactly one (`Chain.stablySorts_iff`).

    To arrange by the last steps of a chain and then by the first ones is to
    arrange by the whole chain: the second arrangement leaves ties as the first
    has put them (`Chain.StablySorts.append`). So a chain can be worked off in
    passes, one for each step, and the last step comes first
    (`Query.rows_in_passes`).
-/

namespace RowOrder

variable {ε : Type}

namespace Chain

variable {chain first second : Chain ε} {entities between sorted others : List ε}

/-! ### Ties -/

/-- Whether no step of the chain tells two entities apart. -/
def ties (chain : Chain ε) (a b : ε) : Bool := Chain.compare chain a b = .eq

@[simp] theorem ties_self (chain : Chain ε) (a : ε) : chain.ties a a = true :=
  decide_eq_true Std.ReflCmp.compare_self

theorem ties_append (first second : Chain ε) (a b : ε) :
    ties (first ++ second) a b = (ties first a b && ties second a b) := by
  rw [ties, compare_append, ties, ties, ← Bool.decide_and]
  exact decide_eq_decide.mpr Ordering.then_eq_eq

/-- Ties of both parts of a chain can be picked out part by part. -/
theorem filter_ties_append (first second : Chain ε) (a : ε) (entities : List ε) :
    entities.filter (ties (first ++ second) a) =
      (entities.filter (ties second a)).filter (ties first a) := by
  rw [List.filter_filter]
  exact List.filter_congr fun b _ => ties_append first second a b

theorem filter_ties_comm (first second : Chain ε) (a : ε) (entities : List ε) :
    (entities.filter (ties first a)).filter (ties second a) =
      (entities.filter (ties second a)).filter (ties first a) := by
  rw [List.filter_filter, List.filter_filter]
  exact List.filter_congr fun b _ => Bool.and_comm _ _

/-- An entity is among those that tie with it. -/
theorem mem_filter_ties_self (chain : Chain ε) {a : ε} :
    a ∈ entities.filter (chain.ties a) ↔ a ∈ entities := by
  rw [List.mem_filter, ties_self]
  exact and_iff_left rfl

/-- Entities that may stand in either order tie. -/
theorem ties_of_le {a b : ε} (hab : le chain a b = true) (hba : le chain b a = true) :
    chain.ties a b = true :=
  decide_eq_true (Std.OrientedCmp.isLE_antisymm hab hba)

/-- The entities that tie with a given one are arranged as they were. -/
theorem filter_ties_sort (chain : Chain ε) (entities : List ε) (a : ε) :
    (sort chain entities).filter (chain.ties a) = entities.filter (chain.ties a) := by
  -- Stability is known of numbered entities, and the numbers play no part in it.
  let numbered : List (Unit × ε) := entities.map fun e => ((), e)
  have hnumbered : numbered.map Prod.snd = entities := by
    rw [List.map_map]
    exact List.map_id entities
  calc (sort chain entities).filter (chain.ties a)
      = ((sortEntries chain numbered).map Prod.snd).filter (chain.ties a) := by
        rw [map_snd_sortEntries, hnumbered]
    _ = ((sortEntries chain numbered).filter (chain.ties a ∘ Prod.snd)).map Prod.snd :=
        List.filter_map
    _ = (numbered.filter (chain.ties a ∘ Prod.snd)).map Prod.snd :=
        congrArg (List.map Prod.snd) (filter_sortEntries chain numbered a)
    _ = (numbered.map Prod.snd).filter (chain.ties a) := List.filter_map.symm
    _ = entities.filter (chain.ties a) := by rw [hnumbered]

/-! ### The stable arrangement of a list -/

/-- The second list is a stable arrangement of the first by the chain. -/
structure StablySorts (chain : Chain ε) (entities sorted : List ε) : Prop where
  /-- Each entity may stand before those that come later. -/
  ordered : sorted.Pairwise fun a b => le chain a b = true
  /-- Of those that tie with any one entity, itself among them, there are the
      same in both lists, in the same order. -/
  tied (a : ε) : sorted.filter (chain.ties a) = entities.filter (chain.ties a)

theorem stablySorts_sort (chain : Chain ε) (entities : List ε) :
    StablySorts chain entities (sort chain entities) where
  ordered := List.pairwise_mergeSort (le_trans chain) (le_total chain) entities
  tied := filter_ties_sort chain entities

/-- Lists with the same ties have the same entities. -/
theorem mem_iff_of_filter_ties
    (h : ∀ a, sorted.filter (chain.ties a) = others.filter (chain.ties a)) (a : ε) :
    a ∈ sorted ↔ a ∈ others := by
  rw [← mem_filter_ties_self chain, h a, mem_filter_ties_self]

/-- What comes first in the order of the chain may stand before all others. -/
theorem le_head {a b : ε} {rest : List ε}
    (hordered : (a :: rest).Pairwise fun a b => le chain a b = true) (hb : b ∈ a :: rest) :
    le chain a b = true := by
  rcases List.mem_cons.mp hb with rfl | hrest
  · exact Std.ReflCmp.isLE_rfl
  · exact (List.pairwise_cons.mp hordered).1 b hrest

/-- Two lists in the order of the chain are equal if they have the same ties. -/
theorem eq_of_filter_ties (hsorted : sorted.Pairwise fun a b => le chain a b = true)
    (hothers : others.Pairwise fun a b => le chain a b = true)
    (h : ∀ a, sorted.filter (chain.ties a) = others.filter (chain.ties a)) : sorted = others := by
  induction sorted generalizing others with
  | nil =>
    refine (List.eq_nil_iff_forall_not_mem.mpr fun a ha => ?_).symm
    exact List.not_mem_nil ((mem_iff_of_filter_ties h a).mpr ha)
  | cons a rest ih =>
    cases others with
    | nil => exact absurd ((mem_iff_of_filter_ties h a).mp List.mem_cons_self) List.not_mem_nil
    | cons b others =>
      -- Each list has the first of the other one, so these tie.
      have hab : le chain a b = true :=
        le_head hsorted ((mem_iff_of_filter_ties h b).mpr List.mem_cons_self)
      have hba : le chain b a = true :=
        le_head hothers ((mem_iff_of_filter_ties h a).mp List.mem_cons_self)
      have hfirst := h a
      rw [List.filter_cons_of_pos (ties_self chain a),
        List.filter_cons_of_pos (ties_of_le hab hba)] at hfirst
      obtain ⟨rfl, -⟩ := List.cons.inj hfirst
      have hrest : ∀ c, rest.filter (chain.ties c) = others.filter (chain.ties c) := by
        intro c
        have hc := h c
        by_cases htie : chain.ties c a = true
        · rw [List.filter_cons_of_pos htie, List.filter_cons_of_pos htie] at hc
          exact (List.cons.inj hc).2
        · rwa [List.filter_cons_of_neg htie, List.filter_cons_of_neg htie] at hc
      rw [ih (List.pairwise_cons.mp hsorted).2 (List.pairwise_cons.mp hothers).2 hrest]

/-- The stable arrangement is the one that sorting gives, and no other. -/
theorem stablySorts_iff : StablySorts chain entities sorted ↔ sorted = sort chain entities := by
  constructor
  · intro h
    have hsort := stablySorts_sort chain entities
    exact eq_of_filter_ties h.ordered hsort.ordered fun a => (h.tied a).trans (hsort.tied a).symm
  · rintro rfl
    exact stablySorts_sort chain entities

/-- Two entities that tie stand in a stable arrangement as they did before. -/
theorem StablySorts.pair_sublist (h : StablySorts chain entities sorted) {a b : ε}
    (hties : chain.ties a b = true) (hab : [a, b].Sublist sorted) : [a, b].Sublist entities := by
  have htied := hab.filter (chain.ties a)
  rw [h.tied a, List.filter_cons_of_pos (ties_self chain a), List.filter_cons_of_pos hties,
    List.filter_nil] at htied
  exact htied.trans List.filter_sublist

/-! ### Passes -/

/-- A stable arrangement leaves entities that tie in the order that an earlier
    one gave them, so both together follow the whole chain. -/
theorem StablySorts.append (hsecond : StablySorts second entities between)
    (hfirst : StablySorts first between sorted) : StablySorts (first ++ second) entities sorted where
  ordered := by
    rw [List.pairwise_iff_forall_sublist]
    intro a b hab
    have hle : le first a b = true := List.pairwise_iff_forall_sublist.mp hfirst.ordered hab
    rw [le, compare_append]
    cases hcompare : Chain.compare first a b with
    | lt => rfl
    | gt =>
      rw [le, hcompare] at hle
      contradiction
    | eq =>
      -- The first steps leave them as the others have put them.
      have hbefore := hfirst.pair_sublist (decide_eq_true hcompare) hab
      exact List.pairwise_iff_forall_sublist.mp hsecond.ordered hbefore
  tied a :=
    calc sorted.filter (ties (first ++ second) a)
        = (sorted.filter (ties first a)).filter (ties second a) := by
          rw [filter_ties_append, filter_ties_comm]
      _ = (between.filter (ties first a)).filter (ties second a) := by rw [hfirst.tied a]
      _ = (between.filter (ties second a)).filter (ties first a) := filter_ties_comm first second a _
      _ = (entities.filter (ties second a)).filter (ties first a) := by rw [hsecond.tied a]
      _ = entities.filter (ties (first ++ second) a) := (filter_ties_append first second a _).symm

/-- Sorting by a chain is sorting by its last part and then by its first. -/
theorem sort_append (first second : Chain ε) (entities : List ε) :
    sort (first ++ second) entities = sort first (sort second entities) :=
  have hsecond := stablySorts_sort second entities
  (stablySorts_iff.mp (hsecond.append (stablySorts_sort first _))).symm

/-- The second list comes of the first in passes, one stable arrangement for
    each step of the chain. The last step has the first pass. -/
inductive SortsInPasses : Chain ε → List ε → List ε → Prop where
  /-- Without steps there is no pass. -/
  | done (entities : List ε) : SortsInPasses [] entities entities
  /-- The pass of a step comes after those of the steps behind it. -/
  | pass {key : SortKey ε} {rest : Chain ε} {entities between sorted : List ε}
      (earlier : SortsInPasses rest entities between)
      (last : StablySorts [key] between sorted) : SortsInPasses (key :: rest) entities sorted

/-- Passes give what sorting by the whole chain gives, and nothing else. -/
theorem sortsInPasses_iff : SortsInPasses chain entities sorted ↔ sorted = sort chain entities := by
  induction chain generalizing sorted with
  | nil =>
    rw [sort_nil]
    constructor
    · intro h
      cases h
      rfl
    · rintro rfl
      exact .done sorted
  | cons key rest ih =>
    have hsort : sort (key :: rest) entities = sort [key] (sort rest entities) :=
      sort_append [key] rest entities
    rw [hsort]
    constructor
    · intro h
      cases h with
      | pass earlier last =>
        rw [ih.mp earlier] at last
        exact stablySorts_iff.mp last
    · rintro rfl
      exact .pass (ih.mpr rfl) (stablySorts_sort [key] _)

end Chain

/-! ### The rows of a query -/

namespace Query

/-- **Later steps refine earlier ones.** The rows of a query are the stable
    arrangement, by any first part of its chain, of the rows that the rest of
    the chain gives. So they come of the entities as these are stored in
    passes, one stable arrangement for each step alone, from the last step to
    the first. -/
theorem rows_in_passes (source : StoreId) (primary secondary : Chain ε) (catalog : Catalog ε) :
    let query : Query ε := { source, chain := primary ++ secondary }
    (∀ sorted, Chain.StablySorts primary (rows { source, chain := secondary } catalog) sorted ↔
      sorted = query.rows catalog) ∧
    ∀ sorted, Chain.SortsInPasses query.chain (catalog.store source).scan sorted ↔
      sorted = query.rows catalog := by
  intro query
  have hrows : query.rows catalog =
      Chain.sort primary (rows { source, chain := secondary } catalog) :=
    Chain.sort_append primary secondary (catalog.store source).scan
  refine ⟨fun sorted => ?_, fun sorted => ?_⟩
  · rw [hrows]
    exact Chain.stablySorts_iff
  · exact Chain.sortsInPasses_iff

end Query

end RowOrder
