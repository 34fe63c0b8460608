import RowOrder.SortKey
import RowOrder.Text.Blank

/-! # Tokens

    A token is the text of one sort key: a field name, in any ASCII casing,
    with a `-` before it for a descending key. Blanks around the whole are
    ignored; a blank after the `-` is part of the name. Only one `-` is a
    mark, so a name may begin with `-` itself.
-/

namespace RowOrder

variable {ε : Type}

namespace Token

/-- The direction that trimmed characters ask for, and the name they ask it
    for. -/
def split : List Char → Direction × List Char
  | '-' :: name => (.descending, name)
  | name => (.ascending, name)

@[simp] theorem split_dash (name : List Char) : split ('-' :: name) = (.descending, name) := rfl

/-- Without a dash in front the whole is the name. -/
theorem split_of_head?_ne {cs : List Char} (h : cs.head? ≠ some '-') :
    split cs = (.ascending, cs) := by
  unfold split
  split
  · exact absurd rfl h
  · rfl

/-- The direction a token asks for. -/
def direction (token : String) : Direction := (split (Text.trimmed token.toList)).1

/-- The name a token holds. -/
def name (token : String) : String := String.ofList (split (Text.trimmed token.toList)).2

end Token

/-- The key a token stands for, if its name is that of a field. -/
def SortKey.ofToken? (schema : Schema ε) (token : String) : Option (SortKey ε) :=
  (schema.resolve? (Token.name token)).map fun field => ⟨field, Token.direction token⟩

end RowOrder
