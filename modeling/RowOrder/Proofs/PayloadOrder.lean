import RowOrder.Proofs.ValueOrder
import RowOrder.Proofs.Text.Bytes

/-! # What the order on values goes by

    Which of two values is the smaller one is settled by their types, and by
    the payloads only within a type: integers and instants are signed numbers,
    `false` is below `true`, and texts are read from the left. Reading them by
    bytes of UTF-8 or by code points makes no difference.

    `Value.compare_linear_order` states that this is a linear order.
-/

namespace RowOrder

open Text (codePoints utf8)

namespace Value

/-- What a comparison of values goes by, and in which order the types come. -/
structure ByPayload (cmp : Value → Value → Ordering) : Prop where
  /-- A value of an earlier type is the smaller one, whatever the payloads. -/
  types : [ColumnType.int, .text, .boolean, .timestamp].Pairwise fun earlier later =>
    ∀ v w : Value, v.columnType = earlier → w.columnType = later → cmp v w = .lt
  /-- Integers compare as signed numbers. -/
  integers : ∀ m n : Int64, cmp (.int m) (.int n) = compare m.toInt n.toInt
  /-- So do instants. -/
  instants : ∀ t u : Int64, cmp (.timestamp t) (.timestamp u) = compare t.toInt u.toInt
  /-- `false` is below `true`. -/
  truths : cmp (.boolean false) (.boolean true) = .lt
  /-- Texts compare by their bytes in UTF-8, the first difference deciding. -/
  bytes : ∀ s t : String, cmp (.text s) (.text t) = List.compareLex compare (utf8 s) (utf8 t)
  /-- Texts compare by their code points, the first difference deciding. -/
  points : ∀ s t : String,
    cmp (.text s) (.text t) = List.compareLex compare (codePoints s) (codePoints t)
  /-- A text is smaller than a longer one that it begins. -/
  beginnings : ∀ s t : String, t ≠ "" → cmp (.text s) (.text (s ++ t)) = .lt

/-! ### Payloads -/

/-- Signed words compare as the numbers that they are. -/
theorem compare_toInt (m n : Int64) : compare m n = compare m.toInt n.toInt := by
  show compareOfLessAndEq m n = compareOfLessAndEq m.toInt n.toInt
  simp only [compareOfLessAndEq, Int64.lt_iff_toInt_lt, Int64.toInt_inj]

theorem compare_of_rank_lt {v w : Value} (h : v.columnType.rank < w.columnType.rank) :
    compare v w = .lt := by
  have htype : v.columnType ≠ w.columnType := by
    intro heq
    rw [heq] at h
    exact Nat.lt_irrefl _ h
  rw [compare_of_columnType_ne htype]
  exact Nat.compare_eq_lt.mpr h

/-- The types are listed by rank. -/
theorem pairwise_rank :
    [ColumnType.int, .text, .boolean, .timestamp].Pairwise (fun S T => S.rank < T.rank) := by
  decide

theorem byPayload_compare : ByPayload compare where
  types := pairwise_rank.imp fun hrank v w hv hw => by
    subst hv hw
    exact compare_of_rank_lt hrank
  integers := compare_toInt
  instants := compare_toInt
  truths := rfl
  bytes s t :=
    calc compare (Value.text s) (.text t)
      _ = compare s t := rfl
      _ = compare (codePoints s) (codePoints t) := Text.compare_eq_compare_codePoints s t
      _ = compare (utf8 s) (utf8 t) := (Text.compare_utf8 s t).symm
  points := Text.compare_eq_compare_codePoints
  beginnings s _ h := Text.compare_append_eq_lt s h

/-! ### The laws of the order -/

theorem compare_total (u v : Value) : compare u v ≠ .gt ∨ compare v u ≠ .gt := by
  rw [Std.OrientedOrd.eq_swap (a := v)]
  cases compare u v <;> decide

theorem compare_antisymm {u v : Value} (huv : compare u v ≠ .gt) (hvu : compare v u ≠ .gt) :
    u = v :=
  Std.LawfulEqOrd.eq_of_compare <| Std.OrientedCmp.isLE_antisymm
    (Ordering.isLE_iff_ne_gt.mpr huv) (Ordering.isLE_iff_ne_gt.mpr hvu)

theorem compare_trans {u v w : Value} (huv : compare u v ≠ .gt) (hvw : compare v w ≠ .gt) :
    compare u w ≠ .gt :=
  Ordering.isLE_iff_ne_gt.mp <| Std.TransOrd.isLE_trans
    (Ordering.isLE_iff_ne_gt.mpr huv) (Ordering.isLE_iff_ne_gt.mpr hvw)

/-- **Values are linearly ordered, by type and payload.** Of two values one is
    not the larger; values neither of which is the larger are equal; the order
    is transitive; exchanged values compare the other way round; and only equal
    values tie. It goes by the types first and by the payloads within a type,
    where texts may be read by bytes or by code points. -/
theorem compare_linear_order (u v w : Value) :
    (compare u v ≠ .gt ∨ compare v u ≠ .gt) ∧
    (compare u v ≠ .gt → compare v u ≠ .gt → u = v) ∧
    (compare u v ≠ .gt → compare v w ≠ .gt → compare u w ≠ .gt) ∧
    compare v u = (compare u v).swap ∧
    (compare u v = .eq ↔ u = v) ∧
    ByPayload compare :=
  ⟨compare_total u v, compare_antisymm, compare_trans, Std.OrientedOrd.eq_swap,
    Std.LawfulEqOrd.compare_eq_iff_eq, byPayload_compare⟩

end Value

end RowOrder
