import RowOrder.Proofs.FilledStores
import RowOrder.Proofs.StableSorting

/-! # The other way round

    A chain with every step turned round compares every two entities the other
    way round, and ties the same ones. Turned round as well, a stable
    arrangement is one by that chain of the entities turned round
    (`Chain.StablySorts.reverse`).

    `Query.rows_mirrored` says so of the rows of two stores that were filled in
    opposite orders. Ties are what it hangs on: they keep the order in which
    they were stored, in descending steps as well.
-/

namespace RowOrder

variable {ε : Type} {schema : Schema ε}

/-! ### Chains turned round -/

namespace Chain

variable {chain : Chain ε} {entities sorted : List ε}

theorem compare_toggled (chain : Chain ε) (a b : ε) :
    Chain.compare chain.toggled a b = (Chain.compare chain a b).swap := by
  induction chain with
  | nil => rfl
  | cons key rest ih =>
    show (key.toggled.compare a b).then (Chain.compare (toggled rest) a b) = _
    rw [ih, SortKey.compare_toggled, compare_cons, Ordering.swap_then]

theorem le_toggled (chain : Chain ε) (a b : ε) : le chain.toggled a b = le chain b a := by
  rw [le, le, compare_toggled, ← Std.OrientedCmp.eq_swap]

theorem ties_toggled (chain : Chain ε) (a : ε) : ties chain.toggled a = ties chain a := by
  funext b
  rw [ties, ties, compare_toggled]
  exact decide_eq_decide.mpr Ordering.swap_eq_eq

/-- A stable arrangement, read from the end, is one by the chain turned round. -/
theorem StablySorts.reverse (h : StablySorts chain entities sorted) :
    StablySorts chain.toggled entities.reverse sorted.reverse where
  ordered := by
    rw [List.pairwise_reverse]
    refine h.ordered.imp fun {a b} hab => ?_
    rwa [le_toggled]
  tied a := by
    rw [ties_toggled, List.filter_reverse, List.filter_reverse, h.tied a]

theorem sort_toggled_reverse (chain : Chain ε) (entities : List ε) :
    sort chain.toggled entities.reverse = (sort chain entities).reverse :=
  (stablySorts_iff.mp (stablySorts_sort chain entities).reverse).symm

end Chain

/-! ### The rows of a query -/

namespace Query

/-- **All directions turned round.** Let one store be filled with the entities
    of a list, no more than there are identities, and another with the same in
    the opposite order. A query over the first yields the stable arrangement of
    the list by its chain. A query over the second with every step of the chain
    turned round yields the same rows in the opposite order. -/
theorem rows_mirrored (schema : Schema ε) (entities : List ε)
    (hlength : entities.length ≤ Store.capacity) (catalog : Catalog ε) (source mirror : StoreId)
    (hsource : (catalog.store source).Filled schema entities)
    (hmirror : (catalog.store mirror).Filled schema entities.reverse) (chain : Chain ε) :
    Chain.StablySorts chain entities (rows { source, chain } catalog) ∧
    rows { source := mirror, chain := chain.toggled } catalog =
      (rows { source, chain } catalog).reverse := by
  have hrows : rows { source, chain } catalog = Chain.sort chain entities := by
    rw [rows, hsource.scan_eq hlength]
  have hmirrored : rows { source := mirror, chain := chain.toggled } catalog =
      Chain.sort chain.toggled entities.reverse := by
    rw [rows, hmirror.scan_eq (by rwa [List.length_reverse])]
  refine ⟨?_, ?_⟩
  · rw [hrows]
    exact Chain.stablySorts_sort chain entities
  · rw [hmirrored, hrows, Chain.sort_toggled_reverse]

/-- Two rows with the number 1 keep the order in which they were stored, from
    the largest number to the smallest and the other way round. -/
theorem rows_mirrored_numbers :
    let one : Row := ⟨[.int 1, .text "one"]⟩
    let two : Row := ⟨[.int 2]⟩
    let uno : Row := ⟨[.int 1, .text "uno"]⟩
    let store := (Journal.ofCalls numberSchema [.insertAll [one, two, uno]]).store
    let mirror := (Journal.ofCalls numberSchema [.insert uno, .insertAll [two, one]]).store
    let catalog : Catalog Row := (Catalog.empty.add store).add mirror
    [one, two, uno].length ≤ Store.capacity ∧
    (catalog.store ⟨0⟩).Filled numberSchema [one, two, uno] ∧
    (catalog.store ⟨1⟩).Filled numberSchema [uno, two, one] ∧
    rows { source := ⟨0⟩, chain := [numberKey] } catalog = [two, one, uno] ∧
    rows { source := ⟨1⟩, chain := [numberKey.toggled] } catalog = [uno, one, two] := by
  intro one two uno store mirror catalog
  have hfits : ∀ row ∈ [one, two, uno], numberSchema.Fits row := by decide +kernel
  have hstore : (catalog.store ⟨0⟩).Filled numberSchema [one, two, uno] :=
    Store.filled_ofCalls [.insertAll [one, two, uno]] rfl hfits
  have hmirror : (catalog.store ⟨1⟩).Filled numberSchema [uno, two, one] :=
    Store.filled_ofCalls [.insert uno, .insertAll [two, one]] rfl
      fun row hrow => hfits row (List.mem_reverse.mp hrow)
  have hlength : [one, two, uno].length ≤ Store.capacity := by decide
  obtain ⟨hsorts, hmirrored⟩ :=
    rows_mirrored numberSchema _ hlength catalog ⟨0⟩ ⟨1⟩ hstore hmirror [numberKey]
  have hrows : rows { source := ⟨0⟩, chain := [numberKey] } catalog = [two, one, uno] := by
    have honeTwo : Chain.le [numberKey] one two = false := by decide +kernel
    have htwoUno : Chain.le [numberKey] two uno = true := by decide +kernel
    have honeUno : Chain.le [numberKey] one uno = true := by decide +kernel
    rw [Chain.stablySorts_iff.mp hsorts]
    simp [Chain.sort, List.mergeSort, List.MergeSort.Internal.splitInTwo,
      honeTwo, htwoUno, honeUno]
  refine ⟨hlength, hstore, hmirror, hrows, ?_⟩
  rw [hrows] at hmirrored
  exact hmirrored

end Query

end RowOrder
