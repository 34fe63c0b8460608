import RowOrder.SortKey

/-! # Ordering chains

    A chain of sort keys orders entities by its first key, entities that tie
    there by the second, and so on.

    - `Chain.compare` is the composite comparison: the first key that tells
      two entities apart decides.
    - `Chain.sort` arranges a list by it. The arrangement is stable: entities
      that tie on every key keep the order they had.
-/

namespace RowOrder

variable {ε : Type}

/-- An ordering: its steps, the most significant first. -/
abbrev Chain (ε : Type) := List (SortKey ε)

namespace Chain

/-- The comparison by the first key that tells two entities apart. -/
protected def compare : Chain ε → ε → ε → Ordering
  | [], _, _ => .eq
  | key :: rest, a, b => (key.compare a b).then (Chain.compare rest a b)

/-- Whether one entity may stand before another: it is not the larger. -/
def le (chain : Chain ε) (a b : ε) : Bool := (Chain.compare chain a b).isLE

/-- The stable arrangement of entities by a chain. -/
def sort (chain : Chain ε) (entities : List ε) : List ε := entities.mergeSort (le chain)

/-- The steps as they are shown: name and direction of each. -/
def labels (chain : Chain ε) : List (String × Direction) := chain.map SortKey.label

/-- Every step the other way round. -/
def toggled (chain : Chain ε) : Chain ε := chain.map SortKey.toggled

@[simp] theorem compare_nil (a b : ε) : Chain.compare [] a b = .eq := rfl

@[simp] theorem compare_cons (key : SortKey ε) (rest : Chain ε) (a b : ε) :
    Chain.compare (key :: rest) a b = (key.compare a b).then (Chain.compare rest a b) := rfl

theorem compare_append (first second : Chain ε) (a b : ε) :
    Chain.compare (first ++ second) a b =
      (Chain.compare first a b).then (Chain.compare second a b) := by
  induction first with
  | nil => rfl
  | cons key rest ih => simp [ih, Ordering.then_assoc]

/-- Nothing is lost or invented by an arrangement. -/
theorem sort_perm (chain : Chain ε) (entities : List ε) : (sort chain entities).Perm entities :=
  List.mergeSort_perm entities _

/-- Without steps the order stays as it is. -/
@[simp] theorem sort_nil (entities : List ε) : sort [] entities = entities :=
  List.mergeSort_of_pairwise (List.pairwise_of_forall fun _ _ => rfl)

end Chain

end RowOrder
