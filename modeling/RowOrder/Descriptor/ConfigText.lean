import RowOrder.Descriptor.Config
import RowOrder.Json.Printer
import RowOrder.Json.Reader

/-! # Configurations in text

    A configuration is written as a JSON object with the one member
    `duplicate_fields`, which names the policy.

    - Read from an object, other members are passed over, whatever they hold;
      without the member the policy is that of a fresh configuration, and the
      member may not be given twice.
    - A configuration may also be an array of at most one policy.
    - A policy is its name, or an object whose only member has its name and
      the value `null`.
-/

namespace RowOrder

/-! ### Policies -/

namespace DuplicatePolicy

/-- The name of a policy in text. -/
def text : DuplicatePolicy → String
  | .keepFirst => "keep_first"
  | .retain => "retain"

/-- The policy of a name. -/
def ofText? (name : String) : Option DuplicatePolicy :=
  if name = "keep_first" then some .keepFirst
  else if name = "retain" then some .retain
  else none

/-- The policy that a JSON value gives. -/
def ofJson? : Json → Option DuplicatePolicy
  | .string units => (Json.StringUnit.text? units).bind ofText?
  | .object [(key, .null)] => (Json.StringUnit.text? key).bind ofText?
  | _ => none

/-- A name is read back as the policy it names, and no other is read. -/
theorem ofText?_eq_some_iff {name : String} {policy : DuplicatePolicy} :
    ofText? name = some policy ↔ name = policy.text := by
  cases policy <;> simp only [ofText?, text] <;> grind

end DuplicatePolicy

/-! ### Configurations -/

namespace Config

/-- The name of the member that gives the policy. -/
def memberName : String := "duplicate_fields"

/-- The members of an object with their names as texts, if all have one. -/
def namedMembers? : List (List Json.StringUnit × Json) → Option (List (String × Json))
  | [] => some []
  | (key, value) :: rest => do
    let name ← Json.StringUnit.text? key
    let named ← namedMembers? rest
    return (name, value) :: named

/-- The configuration that named members give. -/
def ofMembers? (members : List (String × Json)) : Option Config :=
  match members.filter fun m => m.1 = memberName with
  | [] => some {}
  | [(_, value)] => (DuplicatePolicy.ofJson? value).map Config.mk
  | _ => none

/-- The configuration that a JSON value gives. -/
def ofJson? : Json → Option Config
  | .object members => (namedMembers? members).bind ofMembers?
  | .array [] => some {}
  | .array [value] => (DuplicatePolicy.ofJson? value).map Config.mk
  | _ => none

/-- The configuration that a text gives. -/
def parse? (text : String) : Option Config := (Json.parse? text).bind ofJson?

/-- A configuration as a JSON value. -/
def toJson (config : Config) : Json :=
  .object [(Json.StringUnit.ofText memberName,
    .string (Json.StringUnit.ofText config.duplicateFields.text))]

/-- A configuration in text. -/
def text (config : Config) : String := config.toJson.render

/-- The JSON value of a configuration gives that configuration. -/
@[simp] theorem ofJson?_toJson (config : Config) : ofJson? config.toJson = some config := by
  have h : DuplicatePolicy.ofText? config.duplicateFields.text = some config.duplicateFields :=
    DuplicatePolicy.ofText?_eq_some_iff.2 rfl
  simp [toJson, ofJson?, namedMembers?, ofMembers?, DuplicatePolicy.ofJson?, h]

end Config

end RowOrder
