import RowOrder.Text.Outline

/-! # Column values

    The values a row may hold in one of its columns, their types, and the
    order on them.

    - Every value has a `columnType`; a column is declared with one.
    - `Value.compare` is a linear order on all values. Values of one type
      compare by payload: integers and instants as signed numbers, text by
      code point, `false` below `true`. Values of different types compare by
      the rank of their types.
-/

namespace RowOrder

/-! ### Types -/

/-- The type of the values in a column. -/
inductive ColumnType where
  /-- Signed 64-bit integers. -/
  | int
  /-- Unicode text. -/
  | text
  /-- Truth values. -/
  | boolean
  /-- Instants, counted as a signed 64-bit number of ticks. -/
  | timestamp
  deriving DecidableEq

namespace ColumnType

/-- The name under which a type is declared and reported. -/
def name : ColumnType → String
  | .int => "Int"
  | .text => "Text"
  | .boolean => "Boolean"
  | .timestamp => "Timestamp"

/-- The place of a type in the order of values of different types. -/
def rank : ColumnType → Nat
  | .int => 0
  | .text => 1
  | .boolean => 2
  | .timestamp => 3

theorem rank_injective {s t : ColumnType} (h : s.rank = t.rank) : s = t := by
  cases s <;> cases t <;> simp_all [rank]

end ColumnType

/-! ### Values -/

/-- The content of one column of one row. -/
inductive Value where
  /-- A signed integer. -/
  | int (n : Int64)
  /-- A text. -/
  | text (s : String)
  /-- A truth value. -/
  | boolean (b : Bool)
  /-- An instant. -/
  | timestamp (t : Int64)
  deriving DecidableEq

namespace Value

/-- The type a value belongs to. -/
def columnType : Value → ColumnType
  | .int _ => .int
  | .text _ => .text
  | .boolean _ => .boolean
  | .timestamp _ => .timestamp

/-- The integer a value holds; an instant is not an integer. -/
def int? : Value → Option Int64
  | .int n => some n
  | _ => none

/-- The text a value holds. -/
def text? : Value → Option String
  | .text s => some s
  | _ => none

/-- A narrow signed number as a value; its sign is kept. -/
def ofInt32 (n : Int32) : Value := .int n.toInt64

/-- A narrow unsigned number as a value; it is never negative. -/
def ofUInt32 (n : UInt32) : Value := .int n.toUInt64.toInt64

/-- The description of a value: the name of its type with the payload. -/
def outline : Value → Text.Outline
  | .int n => .tagged "Int" (.word n.toInt.repr)
  | .text s => .tagged "Text" (.quoted s)
  | .boolean true => .tagged "Boolean" (.word "true")
  | .boolean false => .tagged "Boolean" (.word "false")
  | .timestamp t => .tagged "Timestamp" (.word t.toInt.repr)

/-! ### Order -/

/-- The linear order on values: by payload within a type, by the rank of the
    types across types. -/
protected def compare : Value → Value → Ordering
  | .int m, .int n => Ord.compare m n
  | .text s, .text t => Ord.compare s t
  | .boolean a, .boolean b => Ord.compare a b
  | .timestamp t, .timestamp u => Ord.compare t u
  | v, w => Ord.compare v.columnType.rank w.columnType.rank

instance : Ord Value := ⟨Value.compare⟩

theorem compare_def (v w : Value) : compare v w = Value.compare v w := rfl

/-- Across types only the types count. -/
theorem compare_of_columnType_ne {v w : Value} (h : v.columnType ≠ w.columnType) :
    compare v w = compare v.columnType.rank w.columnType.rank := by
  cases v <;> cases w <;> simp_all [compare_def, Value.compare, columnType]

end Value

end RowOrder
