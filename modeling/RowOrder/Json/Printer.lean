import RowOrder.Json.Basic

/-! # Printing JSON

    JSON values in their compact form: no blanks between tokens, and inside
    strings an escape only where the text needs one.
-/

namespace RowOrder.Json

/-! ### Strings and numbers -/

/-- Four hexadecimal digits. -/
def hex4 (n : Nat) : List Char :=
  [Nat.digitChar (n / 0x1000 % 16), Nat.digitChar (n / 0x100 % 16),
   Nat.digitChar (n / 0x10 % 16), Nat.digitChar (n % 16)]

/-- One unit inside quotes. -/
def StringUnit.render : StringUnit → List Char
  | .char '"' => ['\\', '"']
  | .char '\\' => ['\\', '\\']
  | .char '\x08' => ['\\', 'b']
  | .char '\x0c' => ['\\', 'f']
  | .char '\n' => ['\\', 'n']
  | .char '\r' => ['\\', 'r']
  | .char '\t' => ['\\', 't']
  | .char c => if c.toNat < 0x20 then '\\' :: 'u' :: hex4 c.toNat else [c]
  | .half h => '\\' :: 'u' :: hex4 (0xd800 + h.val)

/-- A string with its quotes. -/
def renderUnits (units : List StringUnit) : List Char :=
  '"' :: units.flatMap StringUnit.render ++ ['"']

/-- A number. -/
def Numeral.render (n : Numeral) : List Char :=
  (if n.negative then ['-'] else []) ++ Nat.toDigits 10 n.whole ++
    (if n.fraction = [] then [] else '.' :: n.fraction.map fun d => Nat.digitChar d.val) ++
    match n.exponent with
    | none => []
    | some (.ofNat k) => 'e' :: Nat.toDigits 10 k
    | some (.negSucc k) => 'e' :: '-' :: Nat.toDigits 10 (k + 1)

/-! ### Values -/

mutual

/-- A value. -/
def renderValue : Json → List Char
  | .null => ['n', 'u', 'l', 'l']
  | .bool true => ['t', 'r', 'u', 'e']
  | .bool false => ['f', 'a', 'l', 's', 'e']
  | .number n => n.render
  | .string s => renderUnits s
  | .array [] => ['[', ']']
  | .array (e :: rest) => '[' :: renderValue e ++ renderElements rest
  | .object [] => ['\x7b', '\x7d']
  | .object ((key, value) :: rest) =>
    '\x7b' :: renderUnits key ++ ':' :: renderValue value ++ renderMembers rest

/-- The elements of an array after the first, and its end. -/
def renderElements : List Json → List Char
  | [] => [']']
  | e :: rest => ',' :: renderValue e ++ renderElements rest

/-- The members of an object after the first, and its end. -/
def renderMembers : List (List StringUnit × Json) → List Char
  | [] => ['\x7d']
  | (key, value) :: rest =>
    ',' :: renderUnits key ++ ':' :: renderValue value ++ renderMembers rest

end

/-- The compact text of a value. -/
def render (j : Json) : String := String.ofList (renderValue j)

end RowOrder.Json
