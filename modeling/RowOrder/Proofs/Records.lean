import Mathlib.Data.List.TakeWhile
import RowOrder.Proofs.Arrangement

/-! # What a store has accepted

    A store hands out identities from 1 on, one for each entity it accepts, so
    its state is that of a list to which accepted entities are appended.

    - `Store.Records` says that a store holds the entities of a list, under
      their places in it. An insertion appends what it accepts
      (`Store.Records.insertAll`).
    - As long as the identities have not run out, the list is what the store
      lists (`Store.Records.scan_eq`).
-/

namespace RowOrder

variable {ε : Type} {schema : Schema ε}

/-! ### Identities -/

/-- The number of identities that a store can hand out, all 64-bit numbers but
    0, before it begins to repeat itself. -/
def Store.capacity : Nat := UInt64.size - 1

namespace EntityId

/-- The identity of the entity in a place, the first place being 0. -/
def ofPlace (place : Nat) : EntityId := UInt64.ofNat (place + 1)

theorem ofPlace_succ (place : Nat) : ofPlace place + 1 = ofPlace (place + 1) :=
  (UInt64.ofNat_add (place + 1) 1).symm

theorem toNat_ofPlace {place : Nat} (h : place < Store.capacity) :
    (ofPlace place).toNat = place + 1 := by
  unfold Store.capacity at h
  exact UInt64.toNat_ofNat_of_lt' (by omega)

theorem ofPlace_ne_zero {place : Nat} (h : place < Store.capacity) : ofPlace place ≠ 0 := by
  intro hzero
  have hplace := toNat_ofPlace h
  rw [hzero] at hplace
  exact absurd hplace (Nat.succ_ne_zero place).symm

theorem ofPlace_inj {place other : Nat} (h : place < Store.capacity)
    (hother : other < Store.capacity) : ofPlace place = ofPlace other ↔ place = other := by
  rw [← UInt64.toNat_inj, toNat_ofPlace h, toNat_ofPlace hother, Nat.succ_inj]

/-- Every identity but 0 is that of a place. -/
theorem eq_zero_or_ofPlace (id : EntityId) :
    id = 0 ∨ ∃ place, place < Store.capacity ∧ id = ofPlace place := by
  by_cases hzero : id = 0
  · exact .inl hzero
  · have hpos : id.toNat ≠ 0 := fun h => hzero (UInt64.toNat_inj.mp h)
    have hplace : id.toNat - 1 < Store.capacity := by
      have hlt := id.toNat_lt_size
      unfold Store.capacity
      omega
    refine .inr ⟨id.toNat - 1, hplace, ?_⟩
    rw [← UInt64.toNat_inj, toNat_ofPlace hplace]
    omega

end EntityId

/-! ### What is accepted of a list -/

namespace Schema

/-- The entities of a list that are stored when it is offered: those before the
    first that does not fit. -/
def accepted (schema : Schema ε) (entities : List ε) : List ε :=
  entities.takeWhile fun e => schema.Fits e

theorem accepted_cons_of_fits {e : ε} (h : schema.Fits e) (rest : List ε) :
    schema.accepted (e :: rest) = e :: schema.accepted rest :=
  List.takeWhile_cons_of_pos (decide_eq_true h)

theorem accepted_cons_of_not_fits {e : ε} (h : ¬ schema.Fits e) (rest : List ε) :
    schema.accepted (e :: rest) = [] :=
  List.takeWhile_cons_of_neg (by simpa using h)

theorem accepted_eq_self {entities : List ε} (h : ∀ e ∈ entities, schema.Fits e) :
    schema.accepted entities = entities :=
  List.takeWhile_eq_self_iff.mpr fun e he => decide_eq_true (h e he)

end Schema

namespace Store

/-! ### The list behind a store -/

/-- The store has accepted the entities of the list, in this order, and no
    others. Nothing is said of what it holds once it repeats identities. -/
structure Records (store : Store ε) (entities : List ε) : Prop where
  /-- The next identity is that of the next place. -/
  nextId : store.nextId = EntityId.ofPlace entities.length
  /-- Each entity is held under the identity of its place. -/
  get?_ofPlace (hbound : entities.length ≤ capacity) {place : Nat} (hplace : place < capacity) :
    store.get? (EntityId.ofPlace place) = entities[place]?
  /-- Nothing is held under 0, which is the identity of no place. -/
  get?_zero (hbound : entities.length ≤ capacity) : store.get? 0 = none

variable {store : Store ε} {entities : List ε}

theorem records_empty : Records (empty : Store ε) [] where
  nextId := rfl
  get?_ofPlace _ _ _ := get?_empty _
  get?_zero _ := get?_empty 0

/-- An entity that fits is recorded after those there are. -/
theorem Records.insert_of_fits (h : store.Records entities) {e : ε} (he : schema.Fits e) :
    (store.insert schema e).1.Records (entities ++ [e]) where
  nextId := by
    rw [Store.insert_of_fits he, List.length_append, List.length_singleton,
      ← EntityId.ofPlace_succ, ← h.nextId]
  get?_ofPlace hbound place hplace := by
    rw [List.length_append, List.length_singleton] at hbound
    rw [get?_insert_of_fits he, h.nextId, h.get?_ofPlace (Nat.le_of_succ_le hbound) hplace]
    -- The lists differ in the last place alone.
    by_cases hlast : place = entities.length
    · rw [hlast, if_pos rfl, List.getElem?_concat_length]
    · have hother : EntityId.ofPlace entities.length ≠ EntityId.ofPlace place :=
        fun heq => hlast ((EntityId.ofPlace_inj hbound hplace).mp heq).symm
      rw [if_neg hother]
      rcases Nat.lt_or_gt_of_ne hlast with hlt | hgt
      · rw [List.getElem?_append_left hlt]
      · have hend : (entities ++ [e]).length ≤ place := by
          rw [List.length_append]
          exact hgt
        rw [List.getElem?_eq_none (Nat.le_of_lt hgt), List.getElem?_eq_none hend]
  get?_zero hbound := by
    rw [List.length_append, List.length_singleton] at hbound
    rw [get?_insert_of_fits he, h.nextId, if_neg (EntityId.ofPlace_ne_zero hbound),
      h.get?_zero (Nat.le_of_succ_le hbound)]

/-- What is accepted of a list is recorded after what there is. -/
theorem Records.insertAll (h : store.Records entities) (offered : List ε) :
    (store.insertAll schema offered).1.Records (entities ++ schema.accepted offered) := by
  -- The store that is offered the rest has recorded one entity more.
  induction offered generalizing store entities with
  | nil =>
    rw [Schema.accepted, List.takeWhile_nil, List.append_nil]
    exact h
  | cons e rest ih =>
    by_cases he : schema.Fits e
    · have hrest := ih (h.insert_of_fits he)
      rw [List.append_assoc, List.singleton_append] at hrest
      rw [insertAll_cons_of_fits he, Schema.accepted_cons_of_fits he]
      exact hrest
    · obtain ⟨error, -, hinsert⟩ := insertAll_cons_of_not_fits he store rest
      rw [hinsert, Schema.accepted_cons_of_not_fits he, List.append_nil]
      exact h

/-! ### What the store lists -/

/-- The entities with the identities of their places. -/
def numbered (entities : List ε) : List (EntityId × ε) :=
  entities.zipIdx.map fun (e, place) => (EntityId.ofPlace place, e)

theorem map_snd_numbered (entities : List ε) : (numbered entities).map Prod.snd = entities := by
  unfold numbered
  rw [List.map_map]
  exact List.zipIdx_map_fst 0 entities

theorem pairwise_numbered (hbound : entities.length ≤ capacity) :
    (numbered entities).Pairwise fun x y => x.1 < y.1 := by
  rw [List.pairwise_iff_getElem]
  intro i j hi hj hij
  have hj : j < entities.length := by simpa [numbered] using hj
  simp only [numbered, List.getElem_map, List.getElem_zipIdx, UInt64.lt_iff_toNat_lt, Nat.zero_add]
  rw [EntityId.toNat_ofPlace (by omega), EntityId.toNat_ofPlace (by omega)]
  omega

theorem Records.mem_numbered_iff (h : store.Records entities)
    (hbound : entities.length ≤ capacity) (id : EntityId) (e : ε) :
    (id, e) ∈ numbered entities ↔ store.get? id = some e := by
  simp only [numbered, List.mem_map, List.mem_zipIdx_iff_getElem?, Prod.exists, Prod.mk.injEq]
  constructor
  · rintro ⟨e, place, he, rfl, rfl⟩
    have hplace := Nat.lt_of_lt_of_le (List.getElem?_eq_some_iff.mp he).1 hbound
    rw [h.get?_ofPlace hbound hplace, he]
  · intro he
    rcases EntityId.eq_zero_or_ofPlace id with rfl | ⟨place, hplace, rfl⟩
    · rw [h.get?_zero hbound] at he
      contradiction
    · rw [h.get?_ofPlace hbound hplace] at he
      exact ⟨e, place, he, rfl, rfl⟩

/-- A store lists what it has accepted, in this order. -/
theorem Records.scan_eq (h : store.Records entities) (hbound : entities.length ≤ capacity) :
    store.scan = entities := by
  have hnumbered := pairwise_numbered hbound
  -- Identities grow with the places, and by the chain without steps all tie.
  -- Both lists hold the entries of the store by identity, and there is one such list.
  have harranges : Chain.Arranges [] store (numbered entities) :=
    ⟨h.mem_numbered_iff hbound, Chain.nodup_of_pairwise_lt hnumbered,
      hnumbered.imp fun hlt => .inr ⟨List.forall_mem_nil _, hlt⟩⟩
  have hstored : Chain.sortEntries [] store.entries.toList = numbered entities :=
    (Chain.arranges_sortEntries [] store).unique harranges
  calc store.scan
      = Chain.sort [] store.scan := (Chain.sort_nil _).symm
    _ = (Chain.sortEntries [] store.entries.toList).map Prod.snd :=
        (Chain.map_snd_sortEntries [] _).symm
    _ = entities := by rw [hstored, map_snd_numbered]

end Store

end RowOrder
