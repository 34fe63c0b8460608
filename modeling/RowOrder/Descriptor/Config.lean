import RowOrder.Text.Outline

/-! # Configurations

    What a descriptor does with a token that names a field it already has a
    key on.
-/

namespace RowOrder

/-- What becomes of a repeated field. -/
inductive DuplicatePolicy where
  /-- The first key on a field stands, later ones are passed over. -/
  | keepFirst
  /-- Every key is kept. -/
  | retain
  deriving DecidableEq

/-- The name of a policy in a description. -/
def DuplicatePolicy.name : DuplicatePolicy → String
  | .keepFirst => "KeepFirst"
  | .retain => "Retain"

/-- The settings of a descriptor. -/
structure Config where
  /-- What becomes of a repeated field. -/
  duplicateFields : DuplicatePolicy := .keepFirst
  deriving DecidableEq

/-- The description of a configuration. -/
def Config.outline (config : Config) : Text.Outline :=
  .record "SortConfig" [.part "duplicate_fields" (.word config.duplicateFields.name)]

end RowOrder
