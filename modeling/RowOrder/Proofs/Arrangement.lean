import RowOrder.Proofs.ChainOrder
import RowOrder.Query

/-! # The arrangement of a store

    The rows of a query carry no identities, so what their order means is said
    of the entries of the store, each an entity with its identity.

    - `Chain.Precedes` is the order of the entries: the first step of the chain
      whose values differ decides, and the identities do where there is none.
      That a chain compares in this way is `Chain.compare_eq_lt_iff`.
    - `Chain.Arranges` says of a list that it holds the entries of a store in
      this order. There is one such list, and the rows of a query are its
      entities (`Query.rows_arranged`).

    Sorting by the chain alone gives this order because it is stable: the
    entries that tie with a given one are found in the sorted list as they
    stand in the store (`Chain.filter_sortEntries`).
-/

namespace RowOrder

variable {ε ν : Type}

namespace Chain

/-! ### Sorting numbered entities -/

/-- Whether one numbered entity may stand before another by the chain alone. -/
def entryLe (chain : Chain ε) (x y : ν × ε) : Bool := le chain x.2 y.2

/-- The stable arrangement of numbered entities by a chain; the numbers play
    no part in it. -/
def sortEntries (chain : Chain ε) (entries : List (ν × ε)) : List (ν × ε) :=
  entries.mergeSort (entryLe chain)

theorem entryLe_trans (chain : Chain ε) (x y z : ν × ε) (hxy : entryLe chain x y = true)
    (hyz : entryLe chain y z = true) : entryLe chain x z = true :=
  le_trans chain x.2 y.2 z.2 hxy hyz

theorem entryLe_total (chain : Chain ε) (x y : ν × ε) :
    (entryLe chain x y || entryLe chain y x) = true :=
  le_total chain x.2 y.2

/-- Numbers do not disturb the arrangement of the entities. -/
theorem map_snd_sortEntries (chain : Chain ε) (entries : List (ν × ε)) :
    (sortEntries chain entries).map Prod.snd = sort chain (entries.map Prod.snd) :=
  List.map_mergeSort fun _ _ _ _ => rfl

theorem sortEntries_perm (chain : Chain ε) (entries : List (ν × ε)) :
    (sortEntries chain entries).Perm entries :=
  List.mergeSort_perm entries _

theorem pairwise_entryLe_sortEntries (chain : Chain ε) (entries : List (ν × ε)) :
    (sortEntries chain entries).Pairwise fun x y => entryLe chain x y = true :=
  List.pairwise_mergeSort (entryLe_trans chain) (entryLe_total chain) entries

/-- **Stability.** The entities that tie with a given one are arranged as they
    were. -/
theorem filter_sortEntries (chain : Chain ε) (entries : List (ν × ε)) (a : ε) :
    (sortEntries chain entries).filter (fun x => Chain.compare chain a x.2 = .eq) =
      entries.filter fun x => Chain.compare chain a x.2 = .eq := by
  let tied : ν × ε → Bool := fun x => Chain.compare chain a x.2 = .eq
  show (sortEntries chain entries).filter tied = entries.filter tied
  have hties : (entries.filter tied).Pairwise fun x y => entryLe chain x y = true := by
    refine List.pairwise_of_forall_mem_list ?_
    intro x hx y hy
    have hax : Chain.compare chain a x.2 = .eq := of_decide_eq_true (List.mem_filter.mp hx).2
    have hay : Chain.compare chain a y.2 = .eq := of_decide_eq_true (List.mem_filter.mp hy).2
    have hxy : Chain.compare chain x.2 y.2 = .eq :=
      Std.TransCmp.eq_trans (Std.OrientedCmp.eq_symm hax) hay
    rw [entryLe, le, hxy]
    rfl
  -- A sorted part of the list comes through sorting as it is, and there is
  -- nothing else in the outcome that ties.
  have hpart : (entries.filter tied).Sublist (sortEntries chain entries) :=
    List.sublist_mergeSort (entryLe_trans chain) (entryLe_total chain) hties List.filter_sublist
  have hsub := hpart.filter tied
  rw [List.filter_filter] at hsub
  simp only [Bool.and_self] at hsub
  have hlength := ((sortEntries_perm chain entries).filter tied).length_eq
  exact (hsub.eq_of_length hlength.symm).symm

end Chain

/-! ### The step that decides -/

/-- A step puts `a` before `b`: the value of `a` is the smaller one if the step
    is ascending, and the larger one if it is descending. -/
def SortKey.Puts (key : SortKey ε) (a b : ε) : Prop :=
  match key.direction with
  | .ascending => compare (key.field.read a) (key.field.read b) = .lt
  | .descending => compare (key.field.read a) (key.field.read b) = .gt

theorem SortKey.compare_eq_lt_iff {key : SortKey ε} {a b : ε} :
    key.compare a b = .lt ↔ key.Puts a b := by
  unfold SortKey.compare SortKey.Puts
  cases key.direction with
  | ascending => exact Iff.rfl
  | descending => exact Ordering.swap_eq_lt

namespace Chain

/-- A chain puts `a` before `b`: the first of its steps whose values differ
    does. -/
def Puts (chain : Chain ε) (a b : ε) : Prop :=
  ∃ earlier key later, chain = earlier ++ key :: later ∧
    (∀ k ∈ earlier, k.field.read a = k.field.read b) ∧ key.Puts a b

/-- A chain compares by the first step whose values differ. -/
theorem compare_eq_lt_iff {chain : Chain ε} {a b : ε} :
    Chain.compare chain a b = .lt ↔ Puts chain a b := by
  induction chain with
  | nil =>
    constructor
    · intro h
      contradiction
    · rintro ⟨earlier, key, later, hchain, -, -⟩
      exact absurd hchain.symm (by simp)
  | cons key rest ih =>
    rw [compare_cons, Ordering.then_eq_lt, SortKey.compare_eq_lt_iff, SortKey.compare_eq_eq_iff, ih]
    constructor
    · rintro (hputs | ⟨hsame, earlier, k, later, rfl, hearlier, hputs⟩)
      · exact ⟨[], key, rest, rfl, List.forall_mem_nil _, hputs⟩
      · exact ⟨key :: earlier, k, later, rfl, List.forall_mem_cons.mpr ⟨hsame, hearlier⟩, hputs⟩
    · rintro ⟨earlier, k, later, hchain, hearlier, hputs⟩
      -- The step that decides is the one in front, or the values there are the same.
      cases earlier with
      | nil =>
        obtain ⟨rfl, -⟩ := List.cons.inj hchain
        exact .inl hputs
      | cons first earlier =>
        obtain ⟨rfl, hrest⟩ := List.cons.inj hchain
        obtain ⟨hsame, hearlier⟩ := List.forall_mem_cons.mp hearlier
        exact .inr ⟨hsame, earlier, k, later, hrest, hearlier, hputs⟩

/-! ### The order of numbered entities -/

section Precedes

variable [LT ν]

/-- One numbered entity stands before another: the chain puts it there, or all
    steps read one value off both and the number is smaller. -/
def Precedes (chain : Chain ε) (x y : ν × ε) : Prop :=
  Puts chain x.2 y.2 ∨ (∀ key ∈ chain, key.field.read x.2 = key.field.read y.2) ∧ x.1 < y.1

theorem precedes_iff {chain : Chain ε} {x y : ν × ε} :
    Precedes chain x y ↔
      Chain.compare chain x.2 y.2 = .lt ∨ Chain.compare chain x.2 y.2 = .eq ∧ x.1 < y.1 := by
  rw [Precedes, compare_eq_lt_iff, compare_eq_eq_iff]

/-- Entities in the order of their numbers are arranged in the order of the
    chain and their numbers. -/
theorem pairwise_precedes_sortEntries (chain : Chain ε) {entries : List (ν × ε)}
    (h : entries.Pairwise fun x y => x.1 < y.1) :
    (sortEntries chain entries).Pairwise (Precedes chain) := by
  rw [List.pairwise_iff_forall_sublist]
  intro x y hxy
  have hle : entryLe chain x y = true :=
    List.pairwise_iff_forall_sublist.mp (pairwise_entryLe_sortEntries chain entries) hxy
  cases hcompare : Chain.compare chain x.2 y.2 with
  | lt => exact precedes_iff.mpr (.inl hcompare)
  | gt =>
    rw [entryLe, le, hcompare] at hle
    contradiction
  | eq =>
    refine precedes_iff.mpr (.inr ⟨hcompare, ?_⟩)
    -- Both tie with `x`, so they stand in the sorted list as they did before.
    have hself : Chain.compare chain x.2 x.2 = .eq := Std.ReflCmp.compare_self
    have htied := hxy.filter fun z => Chain.compare chain x.2 z.2 = .eq
    rw [filter_sortEntries] at htied
    simp only [List.filter_cons, hself, hcompare, decide_true, if_true, List.filter_nil] at htied
    exact List.pairwise_iff_forall_sublist.mp h (htied.trans List.filter_sublist)

/-- Of two numbered entities only one stands before the other. -/
theorem Precedes.asymm [Std.Asymm fun m n : ν => m < n] {chain : Chain ε} {x y : ν × ε}
    (hxy : Precedes chain x y) : ¬ Precedes chain y x := by
  intro hyx
  rw [precedes_iff] at hxy hyx
  have hswap : Chain.compare chain y.2 x.2 = (Chain.compare chain x.2 y.2).swap :=
    Std.OrientedCmp.eq_swap
  obtain hlt | ⟨heq, hnumber⟩ := hxy
  · rw [hlt] at hswap
    obtain hlt' | ⟨heq', -⟩ := hyx
    · rw [hlt'] at hswap
      contradiction
    · rw [heq'] at hswap
      contradiction
  · rw [heq] at hswap
    obtain hlt' | ⟨-, hnumber'⟩ := hyx
    · rw [hlt'] at hswap
      contradiction
    · exact Std.Asymm.asymm _ _ hnumber hnumber'

end Precedes

/-! ### The arrangement of a store -/

/-- The list holds the entries of the store in the order of the chain. -/
structure Arranges (chain : Chain ε) (store : Store ε) (entries : List (EntityId × ε)) : Prop where
  /-- It holds the entries of the store and nothing else. -/
  mem_iff (id : EntityId) (e : ε) : (id, e) ∈ entries ↔ store.get? id = some e
  /-- It holds each of them once. -/
  nodup : entries.Nodup
  /-- Each stands before those that come later. -/
  ordered : entries.Pairwise (Precedes chain)

/-- Entries in the order of their identities are distinct. -/
theorem nodup_of_pairwise_lt {entries : List (EntityId × ε)}
    (h : entries.Pairwise fun x y => x.1 < y.1) : entries.Nodup := by
  refine h.imp ?_
  intro x y hlt heq
  rw [heq] at hlt
  exact UInt64.lt_irrefl _ hlt

theorem arranges_sortEntries (chain : Chain ε) (store : Store ε) :
    Arranges chain store (sortEntries chain store.entries.toList) := by
  -- A store lists its entries by identity, which is where stability starts from.
  have hstored : store.entries.toList.Pairwise fun x y => x.1 < y.1 :=
    Std.TreeMap.ordered_keys_toList.imp Std.compare_eq_lt.mp
  have hperm := sortEntries_perm chain store.entries.toList
  refine ⟨?_, hperm.nodup_iff.mpr (nodup_of_pairwise_lt hstored),
    pairwise_precedes_sortEntries chain hstored⟩
  intro id e
  rw [hperm.mem_iff]
  exact Std.TreeMap.mem_toList_iff_getElem?_eq_some

/-- There is one way to arrange a store. -/
theorem Arranges.unique {chain : Chain ε} {store : Store ε} {entries others : List (EntityId × ε)}
    (h : Arranges chain store entries) (hothers : Arranges chain store others) :
    entries = others := by
  have hperm : entries.Perm others := by
    rw [List.perm_ext_iff_of_nodup h.nodup hothers.nodup]
    intro ⟨id, e⟩
    rw [h.mem_iff, hothers.mem_iff]
  refine hperm.eq_of_pairwise ?_ h.ordered hothers.ordered
  intro x y _ _ hxy hyx
  exact absurd hyx hxy.asymm

end Chain

/-! ### The rows of a query -/

theorem Store.scan_eq_nil_iff {store : Store ε} : store.scan = [] ↔ store.isEmpty = true := by
  rw [Store.scan, List.map_eq_nil_iff, ← List.isEmpty_iff, Std.TreeMap.isEmpty_toList]
  rfl

namespace Query

theorem rows_perm (query : Query ε) (catalog : Catalog ε) :
    (query.rows catalog).Perm (catalog.store query.source).scan :=
  Chain.sort_perm query.chain _

/-- There is no first row just if nothing is stored. -/
theorem first?_eq_none_iff {query : Query ε} {catalog : Catalog ε} :
    query.first? catalog = none ↔ (catalog.store query.source).isEmpty = true := by
  rw [first?, List.head?_eq_none_iff, ← Store.scan_eq_nil_iff]
  rw [← List.length_eq_zero_iff, (rows_perm query catalog).length_eq, List.length_eq_zero_iff]

/-- **The order of the rows.** Exactly one list holds the entries of the
    query's store, each of them once, in the order of the query's chain with
    ties in the order of the identities. The rows of the query are the
    entities of this list. The first of them is that of its head, and there is
    none just if the store is empty. -/
theorem rows_arranged (query : Query ε) (catalog : Catalog ε) :
    let store := catalog.store query.source
    ∃ entries : List (EntityId × ε),
      (∀ others, Chain.Arranges query.chain store others ↔ others = entries) ∧
      query.rows catalog = entries.map Prod.snd ∧
      query.first? catalog = entries.head?.map Prod.snd ∧
      (query.first? catalog = none ↔ store.isEmpty = true) := by
  intro store
  have harranges := Chain.arranges_sortEntries query.chain store
  -- The rows are sorted without identities, the entries with them.
  have hrows : query.rows catalog =
      (Chain.sortEntries query.chain store.entries.toList).map Prod.snd :=
    (Chain.map_snd_sortEntries query.chain store.entries.toList).symm
  refine ⟨Chain.sortEntries query.chain store.entries.toList, ?_, hrows, ?_, first?_eq_none_iff⟩
  · intro others
    constructor
    · intro hothers
      exact hothers.unique harranges
    · intro hothers
      rw [hothers]
      exact harranges
  · rw [first?, hrows, List.head?_map]

end Query

end RowOrder
