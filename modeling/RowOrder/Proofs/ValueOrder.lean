import RowOrder.Value

/-! # The order on values

    `Value.compare` is a linear order: turned round it answers the reverse, it
    is transitive, and only a value and itself tie. Within a type this is the
    order of the payloads; the types themselves are told apart by their rank,
    so that three values compare by payload only if they are of one type.
-/

namespace RowOrder

namespace Value

/-- A value that is not the larger has no larger type. -/
theorem rank_le_of_isLE {v w : Value} (h : (compare v w).isLE = true) :
    v.columnType.rank ≤ w.columnType.rank := by
  by_cases htype : v.columnType = w.columnType
  · exact Nat.le_of_eq (congrArg ColumnType.rank htype)
  · rw [compare_of_columnType_ne htype] at h
    exact Nat.isLE_compare.mp h

/-- Values that tie are of one type. -/
theorem columnType_eq_of_compare_eq {v w : Value} (h : compare v w = .eq) :
    v.columnType = w.columnType := by
  by_cases htype : v.columnType = w.columnType
  · exact htype
  · rw [compare_of_columnType_ne htype] at h
    exact ColumnType.rank_injective (Nat.compare_eq_eq.mp h)

instance : Std.OrientedOrd Value where
  eq_swap := by
    intro v w
    by_cases htype : v.columnType = w.columnType
    · match v, w, htype with
      | .int m, .int n, _ => exact Std.OrientedOrd.eq_swap (a := m)
      | .text s, .text t, _ => exact Std.OrientedOrd.eq_swap (a := s)
      | .boolean a, .boolean b, _ => exact Std.OrientedOrd.eq_swap (a := a)
      | .timestamp t, .timestamp u, _ => exact Std.OrientedOrd.eq_swap (a := t)
    · rw [compare_of_columnType_ne htype, compare_of_columnType_ne (Ne.symm htype)]
      exact Std.OrientedOrd.eq_swap

instance : Std.TransOrd Value where
  isLE_trans := by
    intro u v w huv hvw
    have hrank_uv := rank_le_of_isLE huv
    have hrank_vw := rank_le_of_isLE hvw
    by_cases htype : u.columnType = w.columnType
    · -- The rank of `v` is caught between two equal ones, so the payloads decide.
      rw [htype] at hrank_uv
      have hmiddle : v.columnType = w.columnType :=
        ColumnType.rank_injective (Nat.le_antisymm hrank_vw hrank_uv)
      match u, v, w, htype, hmiddle with
      | .int l, .int _, .int _, _, _ => exact Std.TransOrd.isLE_trans (a := l) huv hvw
      | .text r, .text _, .text _, _, _ => exact Std.TransOrd.isLE_trans (a := r) huv hvw
      | .boolean a, .boolean _, .boolean _, _, _ => exact Std.TransOrd.isLE_trans (a := a) huv hvw
      | .timestamp s, .timestamp _, .timestamp _, _, _ =>
        exact Std.TransOrd.isLE_trans (a := s) huv hvw
    · rw [compare_of_columnType_ne htype]
      exact Nat.isLE_compare.mpr (Nat.le_trans hrank_uv hrank_vw)

instance : Std.LawfulEqOrd Value where
  eq_of_compare := by
    intro v w h
    match v, w, columnType_eq_of_compare_eq h with
    | .int m, .int _, _ => exact congrArg _ (Std.LawfulEqOrd.eq_of_compare (a := m) h)
    | .text s, .text _, _ => exact congrArg _ (Std.LawfulEqOrd.eq_of_compare (a := s) h)
    | .boolean a, .boolean _, _ => exact congrArg _ (Std.LawfulEqOrd.eq_of_compare (a := a) h)
    | .timestamp t, .timestamp _, _ => exact congrArg _ (Std.LawfulEqOrd.eq_of_compare (a := t) h)

end Value

end RowOrder
