import RowOrder.Schema

/-! # Rows

    The plain kind of entity: a list of values, its columns numbered from 0.
    A field of a row reads one column.
-/

namespace RowOrder

/-- An entity with numbered columns. -/
structure Row where
  /-- The values, column by column. -/
  values : List Value
  deriving DecidableEq

namespace Row

/-- The value in a column. A column past the last one reads as zero. -/
def column (index : Nat) (row : Row) : Value := row.values.getD index (.int 0)

/-- The field of the given name and type that reads a column. -/
def field (name : String) (type : ColumnType) (index : Nat) : Field Row :=
  ⟨name, type, column index⟩

end Row

end RowOrder
