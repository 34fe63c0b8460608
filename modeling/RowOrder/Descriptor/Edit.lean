import RowOrder.Descriptor.Basic

/-! # Edits

    An edit computes, from a descriptor and the token a user chose, the text
    of the next descriptor: the field's key turned round or added, or taken
    away. The descriptor itself stays as it is.

    An edit works on the descriptor as its own text reads back. Where a name
    does not survive the trip through text, the edit sees what the text says.
-/

namespace RowOrder

variable {ε : Type}

/-- What a user asks of a descriptor. -/
inductive Edit where
  /-- Turn round the key on the token's field, or add the token's key. -/
  | toggle (token : String)
  /-- Take away the key on the token's field. -/
  | remove (token : String)

namespace Edit

/-- The token the user chose. -/
def token : Edit → String
  | .toggle token => token
  | .remove token => token

/-- Keys with the first one on the field of `candidate` turned round, or with
    `candidate` appended if none is on its field. -/
def toggleOrAppend (candidate : SortKey ε) : List (SortKey ε) → List (SortKey ε)
  | [] => [candidate]
  | key :: rest =>
    if key.name = candidate.name then key.toggled :: rest
    else key :: toggleOrAppend candidate rest

/-- Keys without the first one on the field of the given name. -/
def withoutFirst (name : String) (keys : List (SortKey ε)) : List (SortKey ε) :=
  keys.eraseP fun key => key.name = name

/-- What the edit makes of a list of keys, given the key of its token. -/
def onKeys (edit : Edit) (candidate : SortKey ε) (keys : List (SortKey ε)) : List (SortKey ε) :=
  match edit with
  | .toggle _ => toggleOrAppend candidate keys
  | .remove _ => withoutFirst candidate.name keys

end Edit

namespace Descriptor

/-- The text of the next descriptor. A token that names no field changes
    nothing. -/
def edited (schema : Schema ε) (descriptor : Descriptor ε) (edit : Edit) : Logged String := do
  match ← SortKey.read schema edit.token with
  | none => return descriptor.text
  | some candidate =>
    let copy ← parse schema descriptor.text descriptor.config
    return textOf (edit.onKeys candidate copy.keys)

/-- The next descriptor: the text of the edit, read under the same
    configuration. -/
def follow (schema : Schema ε) (descriptor : Descriptor ε) (edit : Edit) :
    Logged (Descriptor ε) := do
  let text ← descriptor.edited schema edit
  parse schema text descriptor.config

/-- The descriptor after a list of edits, each one made of the descriptor that
    the one before gave. -/
def followAll (schema : Schema ε) (descriptor : Descriptor ε) (edits : List Edit) :
    Logged (Descriptor ε) :=
  edits.foldlM (follow schema) descriptor

end Descriptor

end RowOrder
