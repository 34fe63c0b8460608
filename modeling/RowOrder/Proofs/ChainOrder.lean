import RowOrder.Chain
import RowOrder.Proofs.ValueOrder

/-! # The order that a chain makes

    One step compares two entities by the order on values, read in the step's
    direction; a chain compares by its first step and falls back on the rest.
    Neither way of building loses anything: every chain gives a comparison
    that turns round and is transitive, whatever its length and directions.
    Unlike the order on values it lets different entities tie.

    `Chain.compare_total_preorder` states what an arrangement by a chain needs
    of it.
-/

namespace RowOrder

variable {ε : Type}

/-! ### One step -/

namespace SortKey

/-- Exchanging the entities turns the comparison round, in both directions. -/
theorem compare_swap (key : SortKey ε) (a b : ε) : (key.compare a b).swap = key.compare b a := by
  unfold SortKey.compare
  rw [Std.OrientedOrd.eq_swap (a := key.field.read b)]
  cases key.direction with
  | ascending => rfl
  | descending => rfl

/-- A descending step is the ascending one with the entities exchanged. -/
theorem compare_of_descending {key : SortKey ε} (h : key.direction = .descending) (a b : ε) :
    key.compare a b = Ord.compare (key.field.read b) (key.field.read a) := by
  rw [SortKey.compare, h, Std.OrientedOrd.eq_swap (a := key.field.read b)]
  rfl

theorem compare_of_ascending {key : SortKey ε} (h : key.direction = .ascending) (a b : ε) :
    key.compare a b = Ord.compare (key.field.read a) (key.field.read b) := by
  rw [SortKey.compare, h]
  rfl

instance (key : SortKey ε) : Std.TransCmp key.compare where
  eq_swap := (key.compare_swap _ _).symm
  isLE_trans := by
    intro a b c hab hbc
    cases hdirection : key.direction with
    | ascending =>
      rw [compare_of_ascending hdirection] at hab hbc ⊢
      exact Std.TransOrd.isLE_trans hab hbc
    | descending =>
      -- The values are met the other way round.
      rw [compare_of_descending hdirection] at hab hbc ⊢
      exact Std.TransOrd.isLE_trans hbc hab

/-- A step does not tell entities apart just if they have one value there. -/
theorem compare_eq_eq_iff {key : SortKey ε} {a b : ε} :
    key.compare a b = .eq ↔ key.field.read a = key.field.read b := by
  unfold SortKey.compare
  rw [Direction.orient_eq_eq, Std.LawfulEqOrd.compare_eq_iff_eq]

end SortKey

/-! ### A chain of steps -/

namespace Chain

instance (chain : Chain ε) : Std.TransCmp (Chain.compare chain) := by
  induction chain with
  | nil => exact { eq_swap := rfl, isLE_trans := fun _ _ => rfl }
  | cons key rest ih =>
    show Std.TransCmp (compareLex key.compare (Chain.compare rest))
    infer_instance

/-- A chain does not tell entities apart just if none of its steps does. -/
theorem compare_eq_eq_iff {chain : Chain ε} {a b : ε} :
    Chain.compare chain a b = .eq ↔ ∀ key ∈ chain, key.field.read a = key.field.read b := by
  induction chain with
  | nil => simp
  | cons key rest ih =>
    rw [compare_cons, Ordering.then_eq_eq, SortKey.compare_eq_eq_iff, ih, List.forall_mem_cons]

theorem le_iff_ne_gt {chain : Chain ε} {a b : ε} :
    le chain a b = true ↔ Chain.compare chain a b ≠ .gt :=
  Ordering.isLE_iff_ne_gt

theorem le_trans (chain : Chain ε) (a b c : ε) (hab : le chain a b = true)
    (hbc : le chain b c = true) : le chain a c = true :=
  Std.TransCmp.isLE_trans hab hbc

theorem le_total (chain : Chain ε) (a b : ε) : (le chain a b || le chain b a) = true := by
  have hswap : Chain.compare chain b a = (Chain.compare chain a b).swap :=
    Std.OrientedCmp.eq_swap
  unfold le
  rw [hswap]
  cases Chain.compare chain a b with
  | lt => rfl
  | eq => rfl
  | gt => rfl

/-- An entity that may stand before a second one, which may stand before a
    third, may stand before the third, and has to if one of these has to. -/
theorem compare_trans {chain : Chain ε} {a b c : ε} (hab : Chain.compare chain a b ≠ .gt)
    (hbc : Chain.compare chain b c ≠ .gt) :
    Chain.compare chain a c ≠ .gt ∧
      (Chain.compare chain a b = .lt ∨ Chain.compare chain b c = .lt →
        Chain.compare chain a c = .lt) := by
  have hab : le chain a b = true := le_iff_ne_gt.mpr hab
  have hbc : le chain b c = true := le_iff_ne_gt.mpr hbc
  refine ⟨le_iff_ne_gt.mp (le_trans chain a b c hab hbc), ?_⟩
  rintro (hlt | hlt)
  · exact Std.TransCmp.lt_of_lt_of_isLE hlt hbc
  · exact Std.TransCmp.lt_of_isLE_of_lt hab hlt

/-- **A chain is a total preorder**, whatever its steps and their directions:
    every entity ties with itself, exchanging two entities turns the comparison
    round, and it is transitive, strictly so where one of the two comparisons
    is strict. Entities tie just if every step reads one value off both. -/
theorem compare_total_preorder (chain : Chain ε) (a b c : ε) :
    Chain.compare chain a a = .eq ∧
    Chain.compare chain b a = (Chain.compare chain a b).swap ∧
    (Chain.compare chain a b ≠ .gt → Chain.compare chain b c ≠ .gt →
      Chain.compare chain a c ≠ .gt ∧
      (Chain.compare chain a b = .lt ∨ Chain.compare chain b c = .lt →
        Chain.compare chain a c = .lt)) ∧
    (Chain.compare chain a b = .eq ↔ ∀ key ∈ chain, key.field.read a = key.field.read b) :=
  ⟨Std.ReflCmp.compare_self, Std.OrientedCmp.eq_swap, compare_trans, compare_eq_eq_iff⟩

end Chain

end RowOrder
