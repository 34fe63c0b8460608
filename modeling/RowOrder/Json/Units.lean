/-! # The text of a JSON string

    A JSON string is a list of units: characters, and halves of surrogate
    pairs, which only an escape can write. A string has a text if its halves
    come in pairs, a high half directly before a low one; each pair stands
    for one character.
-/

namespace RowOrder.Json

/-- One unit of a JSON string. -/
inductive StringUnit where
  /-- A character. -/
  | char (c : Char)
  /-- Half of a surrogate pair, counted from the first of the 2048 halves;
      the first 1024 are the high ones. -/
  | half (h : Fin 0x800)
  deriving DecidableEq

namespace StringUnit

/-- The unit that an escape with the given number writes. -/
def ofNat (n : Nat) : StringUnit :=
  if h : 0xd800 ≤ n ∧ n < 0xe000 then .half ⟨n - 0xd800, by omega⟩ else .char (Char.ofNat n)

/-- The character that two halves stand for. -/
def paired (high low : Fin 0x800) : Char :=
  Char.ofNat (0x10000 + high.val * 0x400 + (low.val - 0x400))

/-- The characters of a string whose halves come in pairs. -/
def chars? : List StringUnit → Option (List Char)
  | [] => some []
  | .char c :: rest => (chars? rest).map (c :: ·)
  | .half high :: .half low :: rest =>
    if high.val < 0x400 ∧ 0x400 ≤ low.val then (chars? rest).map (paired high low :: ·) else none
  | .half _ :: _ => none

/-- The text of a string whose halves come in pairs. -/
def text? (units : List StringUnit) : Option String := (chars? units).map String.ofList

/-- A text as a string. -/
def ofText (s : String) : List StringUnit := s.toList.map .char

@[simp] theorem chars?_map_char (cs : List Char) : chars? (cs.map .char) = some cs := by
  induction cs with
  | nil => rfl
  | cons c rest ih => simp [chars?, ih]

/-- A text written as a string is the text of that string. -/
@[simp] theorem text?_ofText (s : String) : text? (ofText s) = some s := by
  simp [text?, ofText]

end StringUnit

end RowOrder.Json
