import RowOrder.Store

/-! # Catalogs of stores

    Several stores live side by side, each known by an identity that is never
    reused. A query refers to its store by this identity, so it sees every
    later insertion into that store and into no other, whatever name the
    store goes by.
-/

namespace RowOrder

variable {ε : Type}

/-- The identity of a store. -/
structure StoreId where
  /-- The number of stores that were added before. -/
  index : Nat
  deriving DecidableEq

/-- The stores there are, in the order in which they were added. -/
structure Catalog (ε : Type) where
  /-- The stores. -/
  stores : Array (Store ε) := #[]

namespace Catalog

/-- The catalog without stores. -/
def empty : Catalog ε := {}

/-- The store with an identity. An identity that was never handed out reads
    as an empty store. -/
def store (catalog : Catalog ε) (id : StoreId) : Store ε :=
  catalog.stores[id.index]?.getD Store.empty

/-- The identity that the next store will get. -/
def nextId (catalog : Catalog ε) : StoreId := ⟨catalog.stores.size⟩

/-- The catalog with one more store, known as `catalog.nextId`. -/
def add (catalog : Catalog ε) (store : Store ε) : Catalog ε := ⟨catalog.stores.push store⟩

/-- The catalog with another store under an identity. -/
def replace (catalog : Catalog ε) (id : StoreId) (store : Store ε) : Catalog ε :=
  ⟨catalog.stores.setIfInBounds id.index store⟩

/-- Whether an identity has been handed out. -/
def Holds (catalog : Catalog ε) (id : StoreId) : Prop := id.index < catalog.stores.size

/-! ### What the stores are afterwards -/

@[simp] theorem store_add_nextId (catalog : Catalog ε) (store : Store ε) :
    (catalog.add store).store catalog.nextId = store := by
  simp [add, Catalog.store, nextId]

/-- Adding a store leaves every other as it was. -/
theorem store_add_of_ne {catalog : Catalog ε} {id : StoreId} (h : id ≠ catalog.nextId)
    (store : Store ε) : (catalog.add store).store id = catalog.store id := by
  have h : id.index ≠ catalog.stores.size := fun e => h (by cases id; simp_all [nextId])
  simp [add, Catalog.store, Array.getElem?_push, h]

theorem store_replace_self {catalog : Catalog ε} {id : StoreId} (h : catalog.Holds id)
    (store : Store ε) : (catalog.replace id store).store id = store := by
  have h : id.index < catalog.stores.size := h
  simp [replace, Catalog.store, h]

/-- Replacing a store leaves every other as it was. -/
theorem store_replace_of_ne {id other : StoreId} (h : id ≠ other) (catalog : Catalog ε)
    (store : Store ε) : (catalog.replace id store).store other = catalog.store other := by
  have h : id.index ≠ other.index := fun e => h (by cases id; cases other; simp_all)
  simp [replace, Catalog.store, h]

/-! ### Which stores there are afterwards -/

theorem holds_iff {catalog : Catalog ε} {id : StoreId} :
    catalog.Holds id ↔ id.index < catalog.nextId.index := Iff.rfl

@[simp] theorem nextId_add (catalog : Catalog ε) (store : Store ε) :
    (catalog.add store).nextId = ⟨catalog.nextId.index + 1⟩ := by
  simp [add, nextId]

@[simp] theorem nextId_replace (catalog : Catalog ε) (id : StoreId) (store : Store ε) :
    (catalog.replace id store).nextId = catalog.nextId := by
  simp [replace, nextId]

end Catalog

end RowOrder
