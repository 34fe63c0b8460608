/-! # Comma-separated text

    A list of tokens is written as one text with a comma between
    neighbours, and read back by cutting at every comma. Empty segments name
    nothing and are passed over.
-/

namespace RowOrder.Text

/-- The non-empty pieces of a text between its commas, in order. -/
def segments (s : String) : List String :=
  ((s.toList.splitOn ',').filter (· ≠ [])).map String.ofList

/-- Texts written one after the other with a comma between neighbours. -/
def join (parts : List String) : String := ",".intercalate parts

@[simp] theorem segments_empty : segments "" = [] := by
  simp [segments]

@[simp] theorem join_nil : join [] = "" := by
  simp [join]

@[simp] theorem join_singleton (part : String) : join [part] = part :=
  String.intercalate_singleton

theorem join_cons_cons (part next : String) (rest : List String) :
    join (part :: next :: rest) = part ++ "," ++ join (next :: rest) :=
  String.intercalate_cons_cons

theorem toList_join (parts : List String) :
    (join parts).toList = [','].intercalate (parts.map String.toList) := by
  simp [join, String.toList_intercalate]

end RowOrder.Text
