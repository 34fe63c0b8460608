import RowOrder.Json.Units

/-! # JSON values

    A JSON value as its text gives it. Members of an object are kept in the
    order in which they are written, repeated names included. Numbers are
    kept exactly, as the decimal figures that write them.
-/

namespace RowOrder

namespace Json

/-- A number: `-whole.fraction` times ten to the `exponent`. -/
structure Numeral where
  /-- Whether there is a minus sign. -/
  negative : Bool
  /-- The digits before the point. -/
  whole : Nat
  /-- The digits after the point; none if there is no point. -/
  fraction : List (Fin 10)
  /-- The power of ten, if one is written. -/
  exponent : Option Int
  deriving DecidableEq

end Json

/-- A JSON value. -/
inductive Json where
  /-- The value `null`. -/
  | null
  /-- A truth value. -/
  | bool (b : Bool)
  /-- A number. -/
  | number (n : Json.Numeral)
  /-- A string. -/
  | string (s : List Json.StringUnit)
  /-- An array. -/
  | array (elements : List Json)
  /-- An object. -/
  | object (members : List (List Json.StringUnit × Json))

end RowOrder
