import Mathlib.Data.List.Forall2
import RowOrder.Proofs.Text.Ends

/-! # The case of letters

    Only the ASCII letters have two cases (`Recased.eq_of_not_isAlpha`). Texts
    have the same name just if they have the same length and each character of
    the one is the character of the other at this place, in either case
    (`sameName_iff_forall₂`).
-/

namespace RowOrder.Text

/-- The second character is the first one, in either case. -/
def Recased (c d : Char) : Prop := d = c.toLower ∨ d = c.toUpper

instance (c d : Char) : Decidable (Recased c d) := inferInstanceAs (Decidable (_ ∨ _))

/-- To make a letter a capital moves a small one 32 places down. -/
theorem toNat_toUpper (c : Char) :
    c.toUpper.toNat = if 97 ≤ c.toNat ∧ c.toNat ≤ 122 then c.toNat - 32 else c.toNat := by
  by_cases hsmall : 97 ≤ c.toNat ∧ c.toNat ≤ 122
  · have hval : 'a'.val ≤ c.val ∧ c.val ≤ 'z'.val :=
      ⟨UInt32.le_iff_toNat_le.mpr hsmall.1, UInt32.le_iff_toNat_le.mpr hsmall.2⟩
    have hupper : c.toUpper = ⟨c.val + ('A'.val - 'a'.val), _⟩ := dif_pos hval
    -- The difference of the two cases is negative, and words wrap round.
    have hshift : (c.val + ('A'.val - 'a'.val)).toNat = c.toNat - 32 := by
      have hdown : ('A'.val - 'a'.val).toNat = 2 ^ 32 - 32 := by decide
      have hword : c.val.toNat = c.toNat := rfl
      rw [UInt32.toNat_add, hdown, hword]
      omega
    rw [if_pos hsmall, hupper]
    exact hshift
  · have hval : ¬ ('a'.val ≤ c.val ∧ c.val ≤ 'z'.val) := fun h =>
      hsmall ⟨UInt32.le_iff_toNat_le.mp h.1, UInt32.le_iff_toNat_le.mp h.2⟩
    have hupper : c.toUpper = c := dif_neg hval
    rw [if_neg hsmall, hupper]

/-- A character that is no ASCII letter has one case only. -/
theorem Recased.eq_of_not_isAlpha {c d : Char} (h : Recased c d) (hc : ¬ c.isAlpha) : d = c := by
  rw [isAlpha_iff] at hc
  simp only [Recased, ← Char.toNat_inj, toNat_toLower, toNat_toUpper] at h ⊢
  grind

/-- Characters are one character in either case just if they are one when made
    small. -/
theorem toLower_eq_toLower_iff {c d : Char} : c.toLower = d.toLower ↔ Recased c d := by
  simp only [Recased, ← Char.toNat_inj, toNat_toLower, toNat_toUpper]
  grind

/-- Texts of the same name are one text, character by character, in either
    case. -/
theorem sameName_iff_forall₂ {s t : String} :
    SameName s t ↔ List.Forall₂ Recased s.toList t.toList := by
  rw [sameName_iff, ← List.forall₂_eq_eq_eq, List.forall₂_map_left_iff,
    List.forall₂_map_right_iff]
  exact ⟨fun h => h.imp fun _ _ => toLower_eq_toLower_iff.mp,
    fun h => h.imp fun _ _ => toLower_eq_toLower_iff.mpr⟩

end RowOrder.Text
