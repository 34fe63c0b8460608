import RowOrder.Text.Printable

/-! # Quoted text

    A text as a description shows it: between double quotes, with the quote
    and the backslash escaped, the usual short escapes for tabulator, line
    feed, carriage return and NUL, and every other character that is not
    printed given by its code point.
-/

namespace RowOrder.Text

/-- One character inside quotes. -/
def quotedChar (c : Char) : List Char :=
  match c with
  | '"' => ['\\', '"']
  | '\\' => ['\\', '\\']
  | '\t' => ['\\', 't']
  | '\n' => ['\\', 'n']
  | '\r' => ['\\', 'r']
  | '\x00' => ['\\', '0']
  | c =>
    if isPrinted c then [c]
    else '\\' :: 'u' :: '\x7b' :: Nat.toDigits 16 c.toNat ++ ['\x7d']

/-- A text between double quotes. -/
def quoted (s : String) : String :=
  String.ofList ('"' :: s.toList.flatMap quotedChar ++ ['"'])

@[simp] theorem toList_quoted (s : String) :
    (quoted s).toList = '"' :: s.toList.flatMap quotedChar ++ ['"'] := by
  simp [quoted]

end RowOrder.Text
