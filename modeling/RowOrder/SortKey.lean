import RowOrder.Direction
import RowOrder.Schema

/-! # Sort keys

    A sort key names a field and a direction. It is one step of an ordering:
    it compares two entities by the values of its field, read in its
    direction. In text it is the field's name, with a leading `-` if it is
    descending.
-/

namespace RowOrder

variable {ε : Type}

/-- One step of an ordering. -/
structure SortKey (ε : Type) where
  /-- The field whose values decide. -/
  field : Field ε
  /-- The direction in which they decide. -/
  direction : Direction

namespace SortKey

/-- The name of the field, in the schema's casing. -/
def name (key : SortKey ε) : String := key.field.name

/-- What a key shows of itself: the field's name and the direction. -/
def label (key : SortKey ε) : String × Direction := (key.name, key.direction)

/-- The key in text. -/
def render (key : SortKey ε) : String := key.direction.mark key.name

/-- The key on the same field in the other direction. -/
def toggled (key : SortKey ε) : SortKey ε := { key with direction := key.direction.toggled }

/-- The comparison of two entities by this key. -/
protected def compare (key : SortKey ε) (a b : ε) : Ordering :=
  key.direction.orient (Ord.compare (key.field.read a) (key.field.read b))

/-- The description of a key. -/
def outline (key : SortKey ε) : Text.Outline :=
  .record "SortKey"
    [.part "field_name" (.quoted key.name), .part "direction" (.word key.direction.name)]

@[simp] theorem name_toggled (key : SortKey ε) : key.toggled.name = key.name := rfl

@[simp] theorem direction_toggled (key : SortKey ε) :
    key.toggled.direction = key.direction.toggled := rfl

@[simp] theorem toggled_toggled (key : SortKey ε) : key.toggled.toggled = key := by
  simp [toggled]

/-- The other direction reads every comparison backwards. -/
theorem compare_toggled (key : SortKey ε) (a b : ε) :
    key.toggled.compare a b = (key.compare a b).swap :=
  Direction.orient_toggled key.direction _

end SortKey

end RowOrder
