/-! # Directions

    The direction of one ordering step. A descending step reads every
    comparison backwards; in text it is marked by a leading `-`.
-/

namespace RowOrder

/-- Whether a step orders from small to large or from large to small. -/
inductive Direction where
  /-- Small values first. -/
  | ascending
  /-- Large values first. -/
  | descending
  deriving DecidableEq

namespace Direction

/-- A step is ascending unless it says otherwise. -/
instance : Inhabited Direction := ⟨.ascending⟩

/-- The other direction. -/
def toggled : Direction → Direction
  | .ascending => .descending
  | .descending => .ascending

/-- Whether large values come first. -/
def isDescending : Direction → Bool
  | .ascending => false
  | .descending => true

/-- The outcome of a comparison as this direction sees it. -/
def orient : Direction → Ordering → Ordering
  | .ascending, o => o
  | .descending, o => o.swap

/-- The name under which a direction is reported. -/
def name : Direction → String
  | .ascending => "Ascending"
  | .descending => "Descending"

/-- A field name marked with this direction: a leading `-` for a descending
    one, nothing for an ascending one. -/
def mark : Direction → String → String
  | .ascending, field => field
  | .descending, field => "-" ++ field

@[simp] theorem toggled_toggled (d : Direction) : d.toggled.toggled = d := by
  cases d <;> rfl

@[simp] theorem toggled_ne (d : Direction) : d.toggled ≠ d := by
  cases d <;> decide

theorem orient_toggled (d : Direction) (o : Ordering) :
    d.toggled.orient o = (d.orient o).swap := by
  cases d <;> cases o <;> rfl

@[simp] theorem orient_eq_eq {d : Direction} {o : Ordering} :
    d.orient o = .eq ↔ o = .eq := by
  cases d <;> cases o <;> decide

end Direction

end RowOrder
