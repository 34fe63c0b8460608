import RowOrder.Text.Quoted

/-! # Outlines

    An outline is the shape of a value as a description shows it on one line:
    bare words, quoted texts, a name applied to a payload, a name with named
    parts, and lists.
-/

namespace RowOrder.Text

/-- The shape of a described value. -/
inductive Outline where
  /-- A bare word. -/
  | word (w : String)
  /-- A text, shown between quotes. -/
  | quoted (s : String)
  /-- A name with one payload in parentheses. -/
  | tagged (name : String) (payload : Outline)
  /-- One named part of a record. -/
  | part (name : String) (value : Outline)
  /-- A name with its parts in braces. -/
  | record (name : String) (parts : List Outline)
  /-- A list in brackets. -/
  | items (elements : List Outline)

namespace Outline

mutual

/-- The description itself. -/
def render : Outline → String
  | .word w => w
  | .quoted s => Text.quoted s
  | .tagged name payload => name ++ "(" ++ render payload ++ ")"
  | .part name value => name ++ ": " ++ render value
  | .record name parts => name ++ " \x7b " ++ ", ".intercalate (renderAll parts) ++ " \x7d"
  | .items elements => "[" ++ ", ".intercalate (renderAll elements) ++ "]"

/-- The descriptions of several shapes, in order. -/
def renderAll : List Outline → List String
  | [] => []
  | o :: rest => render o :: renderAll rest

end

end Outline

end RowOrder.Text
