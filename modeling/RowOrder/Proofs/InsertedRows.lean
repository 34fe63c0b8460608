import RowOrder.Proofs.Mirroring

/-! # A new entity among the rows

    A query holds no rows, so an entity that is stored shows among them the
    next time they are asked for. It has one place there: behind all rows that
    are not greater than it by the chain, and before all that are. The other
    rows stay as they were.

    A new entity has the largest identity, so it is the last to be arranged.
    Read from the end it is the first, and there the place is known
    (`Chain.exists_sort_concat`).
-/

namespace RowOrder

variable {ε : Type} {schema : Schema ε}

namespace Chain

/-! ### The last entity of a list -/

/-- An arrangement is one of the list turned round, by the chain turned round. -/
theorem sort_eq_reverse (chain : Chain ε) (entities : List ε) :
    sort chain entities = (sort chain.toggled entities.reverse).reverse := by
  rw [sort_toggled_reverse, List.reverse_reverse]

/-- To arrange one more entity is to put it into the arrangement of the others,
    between those that are not greater and those that are. -/
theorem exists_sort_concat (chain : Chain ε) (entities : List ε) (e : ε) :
    ∃ before after, sort chain entities = before ++ after ∧
      sort chain (entities ++ [e]) = before ++ e :: after ∧
      (∀ a ∈ before, Chain.compare chain a e ≠ .gt) ∧
      ∀ b ∈ after, Chain.compare chain b e = .gt := by
  -- Turned round, the entity comes first and stands behind what may not follow it.
  obtain ⟨greater, others, hwith, hwithout, hgreater⟩ :=
    List.mergeSort_cons (le_trans chain.toggled) (le_total chain.toggled) e entities.reverse
  have hsort : sort chain entities = (greater ++ others).reverse := by
    rw [sort_eq_reverse]
    exact congrArg List.reverse hwithout
  have hconcat : sort chain (entities ++ [e]) = (greater ++ e :: others).reverse := by
    rw [sort_eq_reverse, List.reverse_concat]
    exact congrArg List.reverse hwith
  have hordered : (greater ++ e :: others).Pairwise fun a b => le chain b a = true := by
    rw [← List.pairwise_reverse, ← hconcat]
    exact (stablySorts_sort chain _).ordered
  refine ⟨others.reverse, greater.reverse, ?_, ?_, ?_, ?_⟩
  · rw [hsort, List.reverse_append]
  · rw [hconcat, List.reverse_append, List.reverse_cons, List.append_assoc]
    rfl
  · intro a ha
    have htail := (List.pairwise_append.mp hordered).2.1
    exact le_iff_ne_gt.mp ((List.pairwise_cons.mp htail).1 a (List.mem_reverse.mp ha))
  · intro b hb
    have hnot : ¬ le chain b e = true := by
      have hturned := hgreater b (List.mem_reverse.mp hb)
      rw [le_toggled] at hturned
      simpa using hturned
    rw [le_iff_ne_gt, not_not] at hnot
    exact hnot

end Chain

/-! ### The rows of a query -/

namespace Query

/-- **A new entity has one place among the rows.** Let a query be over a store
    that has accepted fewer entities than there are identities, and let one
    more be offered. If it is accepted, the rows are those from before with the
    entity between the ones that are not greater by the chain and the ones that
    are, so at the end if there are none of these. If it is refused, the rows
    are the same, and the store has the same size and gives the same answer for
    every identity. -/
theorem rows_absorb_insertion (schema : Schema ε) (query : Query ε) (catalog : Catalog ε)
    (hholds : catalog.Holds query.source) (accepted : List ε)
    (hfilled : (catalog.store query.source).Filled schema accepted)
    (hcapacity : accepted.length < Store.capacity) (e : ε) :
    let store := catalog.store query.source
    let next := catalog.replace query.source (store.insert schema e).1
    (∀ id, (store.insert schema e).2 = .ok id →
      ∃ before after, query.rows catalog = before ++ after ∧
        query.rows next = before ++ e :: after ∧
        (∀ a ∈ before, Chain.compare query.chain a e ≠ .gt) ∧
        ∀ b ∈ after, Chain.compare query.chain b e = .gt) ∧
    ∀ error, (store.insert schema e).2 = .error error →
      query.rows next = query.rows catalog ∧
      (next.store query.source).size = store.size ∧
      ∀ id, (next.store query.source).get? id = store.get? id := by
  intro store next
  have hnext : next.store query.source = (store.insert schema e).1 :=
    Catalog.store_replace_self hholds _
  rcases Store.insert_cases schema store e with ⟨hfits, hinsert⟩ | ⟨error, -, hinsert⟩
  · refine ⟨?_, ?_⟩
    · intro id _
      have hrecords := hfilled.records.insert_of_fits hfits
      have hscan : (store.insert schema e).1.scan = accepted ++ [e] :=
        hrecords.scan_eq (by rw [List.length_append]; exact hcapacity)
      have hrows : query.rows catalog = Chain.sort query.chain accepted := by
        rw [rows, hfilled.scan_eq (Nat.le_of_lt hcapacity)]
      have hrowsNext : query.rows next = Chain.sort query.chain (accepted ++ [e]) := by
        rw [rows, hnext, hscan]
      rw [hrows, hrowsNext]
      exact Chain.exists_sort_concat query.chain accepted e
    · intro error herror
      rw [hinsert] at herror
      contradiction
  · refine ⟨?_, ?_⟩
    · intro id hid
      rw [hinsert] at hid
      contradiction
    · intro _ _
      rw [hinsert] at hnext
      refine ⟨?_, congrArg Store.size hnext, ?_⟩
      · rw [rows, rows, hnext]
      · intro id
        rw [hnext]

/-- The second row with the number 3 stands behind the first and before the
    smaller number, from the largest to the smallest. Text is refused. -/
theorem rows_absorb_insertion_numbers :
    let one : Row := ⟨[.int 1]⟩
    let three : Row := ⟨[.int 3]⟩
    let drei : Row := ⟨[.int 3, .text "drei"]⟩
    let word : Row := ⟨[.text "3"]⟩
    let store := (Journal.ofCalls numberSchema [.insertAll [one, three]]).store
    let catalog : Catalog Row := Catalog.empty.add store
    let query : Query Row := { source := ⟨0⟩, chain := [numberKey] }
    let offered := fun row => catalog.replace ⟨0⟩ (store.insert numberSchema row).1
    catalog.Holds query.source ∧
    (catalog.store query.source).Filled numberSchema [one, three] ∧
    [one, three].length < Store.capacity ∧
    query.rows catalog = [three, one] ∧
    query.rows (offered drei) = [three, drei, one] ∧
    query.rows (offered word) = [three, one] := by
  intro one three drei word store catalog query offered
  have hholds : catalog.Holds query.source := Nat.one_pos
  have hfilled : (catalog.store query.source).Filled numberSchema [one, three] :=
    Store.filled_ofCalls [.insertAll [one, three]] rfl (by decide +kernel)
  have hcapacity : [one, three].length < Store.capacity := by decide
  have habsorb :=
    rows_absorb_insertion numberSchema query catalog hholds [one, three] hfilled hcapacity
  have hrows : query.rows catalog = [three, one] := by
    have honeThree : Chain.le [numberKey] one three = false := by decide +kernel
    rw [rows, hfilled.scan_eq (Nat.le_of_lt hcapacity)]
    simp [query, Chain.sort, List.mergeSort, List.MergeSort.Internal.splitInTwo, honeThree]
  refine ⟨hholds, hfilled, hcapacity, hrows, ?_, ?_⟩
  · have haccepted : (store.insert numberSchema drei).2 = .ok store.nextId := by
      rw [Store.insert_of_fits (by decide +kernel)]
    obtain ⟨before, after, hbefore, hafter, hnotGreater, hgreater⟩ := (habsorb drei).1 _ haccepted
    rw [hrows] at hbefore
    have hthree : Chain.compare [numberKey] three drei ≠ .gt := by decide +kernel
    have hone : Chain.compare [numberKey] one drei = .gt := by decide +kernel
    -- The first row is not greater and the second is, so the place is between them.
    rcases List.cons_eq_append_iff.mp hbefore with ⟨rfl, rfl⟩ | ⟨front, rfl, hrest⟩
    · exact absurd (hgreater three List.mem_cons_self) hthree
    · rcases List.cons_eq_append_iff.mp hrest with ⟨rfl, rfl⟩ | ⟨more, rfl, -⟩
      · exact hafter
      · exact absurd hone (hnotGreater one (List.mem_cons_of_mem _ List.mem_cons_self))
  · obtain ⟨error, herror⟩ : ∃ error, (store.insert numberSchema word).2 = .error error := by
      obtain ⟨error, hcheck⟩ : ∃ error, numberSchema.check word = .error error :=
        Schema.exists_check_eq_error (by decide +kernel)
      exact ⟨error, by rw [Store.insert_of_check_eq_error hcheck]⟩
    rw [← hrows]
    exact ((habsorb word).2 error herror).1

end Query

end RowOrder
