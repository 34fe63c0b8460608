import Mathlib.Data.List.Pairwise
import RowOrder.Schema

/-! # Looking up names

    A name stands for at most one field of a schema, whatever the order in
    which the fields were declared: `resolve?` finds exactly the field whose
    name agrees with it up to ASCII case.
-/

namespace RowOrder.Schema

variable {ε : Type} {schema : Schema ε} {f g : Field ε} {name : String}

/-- Fields of a schema with names that agree are one field. -/
theorem eq_of_sameName (hf : f ∈ schema.fields) (hg : g ∈ schema.fields)
    (h : Text.SameName f.name g.name) : f = g := by
  by_contra hne
  have : Std.Symm fun f g : Field ε => ¬ Text.SameName f.name g.name :=
    ⟨fun _ _ hfg hgf => hfg hgf.symm⟩
  exact schema.distinct.forall hf hg hne h

/-- Names in the schema's own casing tell its fields apart. -/
theorem eq_of_name_eq (hf : f ∈ schema.fields) (hg : g ∈ schema.fields)
    (h : f.name = g.name) : f = g :=
  eq_of_sameName hf hg (h ▸ Text.SameName.refl f.name)

/-- A name stands for the field of the schema whose name agrees with it. -/
theorem resolve?_eq_some_iff :
    schema.resolve? name = some f ↔ f ∈ schema.fields ∧ Text.SameName f.name name := by
  unfold resolve? Field.find?
  constructor
  · intro h
    exact ⟨List.mem_of_find?_eq_some h, by simpa using List.find?_some h⟩
  · rintro ⟨hf, hname⟩
    have hfound : (schema.fields.find? fun f => Text.SameName f.name name).isSome := by
      rw [List.find?_isSome]
      exact ⟨f, hf, by simpa using hname⟩
    obtain ⟨g, hg⟩ := Option.isSome_iff_exists.mp hfound
    have hgname : Text.SameName g.name name := by simpa using List.find?_some hg
    -- The field that is found may stand before `f`, but its name agrees with that of `f`.
    rw [hg, eq_of_sameName (List.mem_of_find?_eq_some hg) hf (hgname.trans hname.symm)]

theorem resolve?_name (hf : f ∈ schema.fields) : schema.resolve? f.name = some f :=
  resolve?_eq_some_iff.mpr ⟨hf, Text.SameName.refl f.name⟩

end RowOrder.Schema
