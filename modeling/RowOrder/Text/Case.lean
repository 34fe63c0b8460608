/-! # Text without regard to case

    Field names are compared without regard to the case of the ASCII letters.
    No other letter is folded: `É` and `é` are different names.
-/

namespace RowOrder.Text

/-- A text with its ASCII capitals made small. -/
def foldCase (s : String) : String := s.map Char.toLower

/-- Two texts that differ at most in the case of ASCII letters. -/
def SameName (s t : String) : Prop := foldCase s = foldCase t

instance (s t : String) : Decidable (SameName s t) :=
  inferInstanceAs (Decidable (foldCase s = foldCase t))

namespace SameName

theorem refl (s : String) : SameName s s := rfl

theorem symm {s t : String} (h : SameName s t) : SameName t s := Eq.symm h

theorem trans {s t u : String} (h : SameName s t) (k : SameName t u) : SameName s u :=
  Eq.trans h k

end SameName

end RowOrder.Text
