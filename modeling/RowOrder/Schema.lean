import RowOrder.Value
import RowOrder.Text.Case

/-! # Schemas

    A schema lists the fields of an entity: for each a name, the type its
    values are declared to have, and how the value is read off an entity.

    - Names are looked up without regard to ASCII case, and no two fields of
      a schema have names that agree in this sense (`Schema.distinct`).
    - An entity fits a schema if every field reads a value of its declared
      type. `Schema.check` reports the first field that does not.
-/

namespace RowOrder

variable {ε : Type}

/-! ### Fields -/

/-- One field of an entity. -/
structure Field (ε : Type) where
  /-- The name, in the schema's own casing. -/
  name : String
  /-- The type the field's values are declared to have. -/
  type : ColumnType
  /-- How the field's value is read off an entity. -/
  read : ε → Value

/-- Whether the value read off an entity has the declared type. -/
def Field.Fits (f : Field ε) (e : ε) : Prop := (f.read e).columnType = f.type

instance (f : Field ε) (e : ε) : Decidable (f.Fits e) :=
  inferInstanceAs (Decidable (_ = _))

/-- The description of a field: its name and declared type. -/
def Field.outline (f : Field ε) : Text.Outline :=
  .record "Field" [.part "name" (.quoted f.name), .part "column_type" (.word f.type.name)]

/-! ### Errors -/

/-- Why a schema refuses a field or an entity. -/
inductive SchemaError where
  /-- The name is taken, up to ASCII case; it is reported as given. -/
  | duplicateFieldName (name : String)
  /-- A field read a value of another type than it declares. -/
  | fieldTypeMismatch (field : String) (expected actual : ColumnType)
  deriving DecidableEq

/-- The wording of a refusal. Names appear as they are. -/
def SchemaError.message : SchemaError → String
  | .duplicateFieldName name => "field '" ++ name ++ "' is already defined"
  | .fieldTypeMismatch field expected actual =>
    "field '" ++ field ++ "' expected " ++ expected.name ++
      " but accessor produced " ++ actual.name

/-! ### Schemas -/

/-- The first field whose name agrees with the given one up to ASCII case. -/
def Field.find? (fields : List (Field ε)) (name : String) : Option (Field ε) :=
  fields.find? fun f => Text.SameName f.name name

/-- The fields of an entity, no two of them with the same name. -/
structure Schema (ε : Type) where
  /-- The fields, in the order in which they were declared. -/
  fields : List (Field ε) := []
  /-- No two names agree up to ASCII case. -/
  distinct : fields.Pairwise fun f g => ¬ Text.SameName f.name g.name := by simp

namespace Schema

/-- The schema without fields. -/
def empty : Schema ε := {}

/-- The field a name stands for, in any ASCII casing. -/
def resolve? (schema : Schema ε) (name : String) : Option (Field ε) :=
  Field.find? schema.fields name

theorem not_sameName_of_resolve?_eq_none {schema : Schema ε} {name : String}
    (h : schema.resolve? name = none) {f : Field ε} (hf : f ∈ schema.fields) :
    ¬ Text.SameName f.name name := by
  simpa using List.find?_eq_none.1 h f hf

/-- The schema with one more field, unless its name is taken. -/
def add (schema : Schema ε) (field : Field ε) : Except SchemaError (Schema ε) :=
  if h : schema.resolve? field.name = none then
    .ok {
      fields := schema.fields ++ [field]
      distinct := by
        refine List.pairwise_append.2 ⟨schema.distinct, by simp, ?_⟩
        intro f hf g hg
        obtain rfl := List.mem_singleton.1 hg
        exact not_sameName_of_resolve?_eq_none h hf }
  else .error (.duplicateFieldName field.name)

/-- The schema of a list of declarations, added in order. -/
def ofFields (fields : List (Field ε)) : Except SchemaError (Schema ε) :=
  fields.foldlM add empty

/-- The names of the fields, in order. -/
def fieldNames (schema : Schema ε) : List String := schema.fields.map Field.name

/-! ### Entities that fit -/

/-- An entity fits a schema if every field reads a value of its type. -/
def Fits (schema : Schema ε) (e : ε) : Prop := ∀ f ∈ schema.fields, f.Fits e

instance (schema : Schema ε) (e : ε) : Decidable (schema.Fits e) :=
  inferInstanceAs (Decidable (∀ f ∈ schema.fields, f.Fits e))

/-- The refusal of an entity: the first field, in the schema's order, that
    reads a value of another type than it declares. -/
def mismatch? (schema : Schema ε) (e : ε) : Option SchemaError :=
  (schema.fields.find? fun f => ¬ f.Fits e).map fun f =>
    .fieldTypeMismatch f.name f.type (f.read e).columnType

/-- Whether an entity may be stored under a schema. -/
def check (schema : Schema ε) (e : ε) : Except SchemaError Unit :=
  match schema.mismatch? e with
  | none => .ok ()
  | some error => .error error

theorem mismatch?_eq_none_iff {schema : Schema ε} {e : ε} :
    schema.mismatch? e = none ↔ schema.Fits e := by
  simp [mismatch?, Fits]

/-- An entity that does not fit is refused with an error. -/
theorem exists_check_eq_error {schema : Schema ε} {e : ε} (h : ¬ schema.Fits e) :
    ∃ error, schema.check e = .error error := by
  obtain ⟨error, herror⟩ := Option.ne_none_iff_exists'.mp (mt mismatch?_eq_none_iff.mp h)
  exact ⟨error, by rw [check, herror]⟩

theorem check_eq_ok_iff {schema : Schema ε} {e : ε} :
    schema.check e = .ok () ↔ schema.Fits e := by
  rw [← mismatch?_eq_none_iff, check]
  cases schema.mismatch? e <;> simp

end Schema

end RowOrder
