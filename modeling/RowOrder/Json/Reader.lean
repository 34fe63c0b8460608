import RowOrder.Json.Basic

/-! # Reading JSON

    `Json.parse?` reads a text that holds one JSON value, with blanks allowed
    between tokens and around the value and nothing else beside it. It accepts
    every text of the JSON grammar and no other. The readers below take the
    characters that are left and give a result with the characters after it.

    The readers for values, elements and members call each other; the first
    argument bounds how often. `Json.parse?` gives a bound that no text
    exceeds: at most two calls for each character.
-/

namespace RowOrder.Json

/-! ### Blanks, strings and numbers -/

/-- The blanks between tokens. -/
def isSpace (c : Char) : Bool := c = ' ' || c = '\t' || c = '\n' || c = '\r'

/-- The characters from the first one that is no blank. -/
def skipSpace (cs : List Char) : List Char := cs.dropWhile isSpace

/-- The number that a hexadecimal digit stands for. -/
def hexDigit? (c : Char) : Option Nat :=
  if '0' ≤ c ∧ c ≤ '9' then some (c.toNat - '0'.toNat)
  else if 'a' ≤ c ∧ c ≤ 'f' then some (c.toNat - 'a'.toNat + 10)
  else if 'A' ≤ c ∧ c ≤ 'F' then some (c.toNat - 'A'.toNat + 10)
  else none

/-- The number that four hexadecimal digits stand for. -/
def hex4? (a b c d : Char) : Option Nat := do
  return (← hexDigit? a) * 0x1000 + (← hexDigit? b) * 0x100 + (← hexDigit? c) * 0x10 +
    (← hexDigit? d)

/-- The character that a letter stands for after a backslash. -/
def escape? : Char → Option Char
  | '"' => some '"'
  | '\\' => some '\\'
  | '/' => some '/'
  | 'b' => some '\x08'
  | 'f' => some '\x0c'
  | 'n' => some '\n'
  | 'r' => some '\r'
  | 't' => some '\t'
  | _ => none

/-- A string after its opening quote, up to and with its closing quote. -/
def readUnits : List Char → Option (List StringUnit × List Char)
  | [] => none
  | '"' :: rest => some ([], rest)
  | '\\' :: 'u' :: a :: b :: c :: d :: rest => do
    let n ← hex4? a b c d
    let (units, rest) ← readUnits rest
    return (.ofNat n :: units, rest)
  | '\\' :: letter :: rest => do
    let c ← escape? letter
    let (units, rest) ← readUnits rest
    return (.char c :: units, rest)
  | c :: rest => do
    guard (c ≠ '\\' ∧ 0x20 ≤ c.toNat)
    let (units, rest) ← readUnits rest
    return (.char c :: units, rest)

/-- A run of decimal digits, as long as possible but not empty. -/
def readDigits (cs : List Char) : Option (List Char × List Char) :=
  match cs.takeWhile Char.isDigit with
  | [] => none
  | digits => some (digits, cs.dropWhile Char.isDigit)

/-- The digits before the point: no zero stands before another digit. -/
def readWhole (cs : List Char) : Option (Nat × List Char) := do
  match ← readDigits cs with
  | ('0' :: _ :: _, _) => none
  | (digits, rest) => return (Nat.ofDigitChars 10 digits 0, rest)

/-- The point and the digits after it, if there is a point. -/
def readFraction : List Char → Option (List (Fin 10) × List Char)
  | '.' :: rest => do
    let (digits, rest) ← readDigits rest
    return (digits.map fun c => Fin.ofNat 10 (c.toNat - '0'.toNat), rest)
  | rest => some ([], rest)

/-- The sign of an exponent: whether it is negative. -/
def readSign : List Char → Bool × List Char
  | '-' :: rest => (true, rest)
  | '+' :: rest => (false, rest)
  | rest => (false, rest)

/-- The mark and the digits of an exponent. -/
def readPower (cs : List Char) : Option (Option Int × List Char) := do
  let (negative, cs) := readSign cs
  let (digits, rest) ← readDigits cs
  let power : Int := Nat.ofDigitChars 10 digits 0
  return (some (if negative then -power else power), rest)

/-- An exponent, if there is one. -/
def readExponent : List Char → Option (Option Int × List Char)
  | 'e' :: rest => readPower rest
  | 'E' :: rest => readPower rest
  | rest => some (none, rest)

/-- The minus sign of a number, if there is one. -/
def readMinus : List Char → Bool × List Char
  | '-' :: rest => (true, rest)
  | rest => (false, rest)

/-- A number. -/
def readNumeral (cs : List Char) : Option (Numeral × List Char) := do
  let (negative, cs) := readMinus cs
  let (whole, cs) ← readWhole cs
  let (fraction, cs) ← readFraction cs
  let (exponent, cs) ← readExponent cs
  return ({ negative, whole, fraction, exponent }, cs)

/-! ### Values -/

mutual

/-- A value, with the blanks before it. -/
def readValue : Nat → List Char → Option (Json × List Char)
  | 0, _ => none
  | bound + 1, cs =>
    match skipSpace cs with
    | 'n' :: 'u' :: 'l' :: 'l' :: rest => some (.null, rest)
    | 't' :: 'r' :: 'u' :: 'e' :: rest => some (.bool true, rest)
    | 'f' :: 'a' :: 'l' :: 's' :: 'e' :: rest => some (.bool false, rest)
    | '"' :: rest => do
      let (units, rest) ← readUnits rest
      return (.string units, rest)
    | '[' :: rest =>
      match skipSpace rest with
      | ']' :: rest => some (.array [], rest)
      | rest => do
        let (elements, rest) ← readElements bound rest
        return (.array elements, rest)
    | '\x7b' :: rest =>
      match skipSpace rest with
      | '\x7d' :: rest => some (.object [], rest)
      | rest => do
        let (members, rest) ← readMembers bound rest
        return (.object members, rest)
    | rest => do
      let (n, rest) ← readNumeral rest
      return (.number n, rest)

/-- The elements of an array, at least one, up to and with its end. -/
def readElements : Nat → List Char → Option (List Json × List Char)
  | 0, _ => none
  | bound + 1, cs => do
    let (e, rest) ← readValue bound cs
    match skipSpace rest with
    | ']' :: rest => return ([e], rest)
    | ',' :: rest =>
      let (elements, rest) ← readElements bound rest
      return (e :: elements, rest)
    | _ => none

/-- The members of an object, at least one, up to and with its end. -/
def readMembers : Nat → List Char → Option (List (List StringUnit × Json) × List Char)
  | 0, _ => none
  | bound + 1, cs =>
    match skipSpace cs with
    | '"' :: rest => do
      let (key, rest) ← readUnits rest
      match skipSpace rest with
      | ':' :: rest =>
        let (value, rest) ← readValue bound rest
        match skipSpace rest with
        | '\x7d' :: rest => return ([(key, value)], rest)
        | ',' :: rest =>
          let (members, rest) ← readMembers bound rest
          return ((key, value) :: members, rest)
        | _ => none
      | _ => none
    | _ => none

end

/-- The value that a text holds, if it is one JSON value. -/
def parse? (s : String) : Option Json := do
  let (j, rest) ← readValue (2 * s.length + 1) s.toList
  guard (skipSpace rest = [])
  return j

end RowOrder.Json
