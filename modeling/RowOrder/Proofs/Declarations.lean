import Mathlib.Data.List.Induction
import RowOrder.Proofs.Lookup
import RowOrder.Proofs.Text.Letters

/-! # Declared fields

    A schema is built from a list of declarations, one at a time. It comes out
    with just these fields (`Schema.ofFields_eq_ok_iff`), unless two of the
    names agree up to ASCII case. Then the first declaration whose name is
    taken ends it (`Schema.ofFields_of_firstRepeated`).

    `Schema.built_or_reported` states both, with what a schema that was built
    is to whoever looks a name up in it (`Schema.LooksUp`).
-/

namespace RowOrder

variable {ε : Type} {schema next : Schema ε} {field : Field ε} {fields : List (Field ε)}

/-! ### Lists of declarations -/

namespace Field

/-- No two of the names agree up to ASCII case. -/
def Distinct (fields : List (Field ε)) : Prop :=
  fields.Pairwise fun f g => ¬ Text.SameName f.name g.name

/-- The field is the first one that is declared under a name that an earlier
    declaration has taken. -/
def FirstRepeated (fields : List (Field ε)) (field : Field ε) : Prop :=
  ∃ before after, fields = before ++ field :: after ∧ Distinct before ∧
    ∃ earlier ∈ before, Text.SameName earlier.name field.name

theorem distinct_concat_iff :
    Distinct (fields ++ [field]) ↔
      Distinct fields ∧ ∀ f ∈ fields, ¬ Text.SameName f.name field.name := by
  unfold Distinct
  rw [List.pairwise_append]
  simp

theorem Distinct.perm {other : List (Field ε)} (h : Distinct fields) (hperm : other.Perm fields) :
    Distinct other :=
  hperm.symm.pairwise h fun hfg hgf => hfg hgf.symm

/-- Where names are repeated there is a first one. -/
theorem exists_firstRepeated (h : ¬ Distinct fields) : ∃ field, FirstRepeated fields field := by
  induction fields using List.reverseRecOn with
  | nil => exact absurd List.Pairwise.nil h
  | append_singleton fields last ih =>
    by_cases hdistinct : Distinct fields
    · have htaken : ¬ ∀ f ∈ fields, ¬ Text.SameName f.name last.name :=
        fun hnew => h (distinct_concat_iff.mpr ⟨hdistinct, hnew⟩)
      push Not at htaken
      exact ⟨last, fields, [], rfl, hdistinct, htaken⟩
    · obtain ⟨field, before, after, rfl, hbefore, htaken⟩ := ih hdistinct
      exact ⟨field, before, after ++ [last], by simp, hbefore, htaken⟩

end Field

namespace Schema

/-! ### One declaration -/

/-- A schema is its fields. -/
theorem eq_of_fields_eq (h : schema.fields = next.fields) : schema = next := by
  cases schema
  cases next
  subst h
  rfl

theorem resolve?_eq_none_iff {name : String} :
    schema.resolve? name = none ↔ ∀ f ∈ schema.fields, ¬ Text.SameName f.name name := by
  simp [resolve?, Field.find?]

/-- A declaration is accepted just if there is a schema with one more field. -/
theorem add_eq_ok_iff : schema.add field = .ok next ↔ next.fields = schema.fields ++ [field] := by
  unfold add
  constructor
  · intro h
    split at h
    · obtain rfl := Except.ok.inj h
      rfl
    · contradiction
  · intro h
    have hdistinct : Field.Distinct (schema.fields ++ [field]) := h ▸ next.distinct
    rw [dif_pos (resolve?_eq_none_iff.mpr (Field.distinct_concat_iff.mp hdistinct).2)]
    exact congrArg Except.ok (eq_of_fields_eq h.symm)

/-- A declaration under a name that is taken is refused, and the name is
    reported as it is given. -/
theorem add_of_taken (h : ∃ f ∈ schema.fields, Text.SameName f.name field.name) :
    schema.add field = .error (.duplicateFieldName field.name) := by
  obtain ⟨f, hf, hname⟩ := h
  have htaken : schema.resolve? field.name ≠ none :=
    fun hnone => resolve?_eq_none_iff.mp hnone f hf hname
  exact dif_neg htaken

/-- A further field takes no name away from the fields there are. -/
theorem resolve?_of_add {name : String} {f : Field ε} (h : schema.add field = .ok next)
    (hname : schema.resolve? name = some f) : next.resolve? name = some f := by
  obtain ⟨hmem, hsame⟩ := resolve?_eq_some_iff.mp hname
  refine resolve?_eq_some_iff.mpr ⟨?_, hsame⟩
  rw [add_eq_ok_iff.mp h]
  exact List.mem_append_left _ hmem

/-! ### A list of declarations -/

theorem ofFields_concat (fields : List (Field ε)) (field : Field ε) :
    ofFields (fields ++ [field]) = ofFields fields >>= fun schema => schema.add field := by
  simp [ofFields, List.foldlM_append]

/-- The schema of a list of declarations has these fields, and every schema is
    that of its fields. -/
theorem ofFields_eq_ok_iff : ofFields fields = .ok schema ↔ schema.fields = fields := by
  induction fields using List.reverseRecOn generalizing schema with
  | nil =>
    constructor
    · intro h
      obtain rfl := Except.ok.inj h
      rfl
    · intro h
      exact congrArg Except.ok (eq_of_fields_eq h.symm)
  | append_singleton fields field ih =>
    rw [ofFields_concat]
    constructor
    · intro h
      cases hbefore : ofFields fields with
      | error error =>
        rw [hbefore] at h
        contradiction
      | ok before =>
        rw [hbefore] at h
        rw [add_eq_ok_iff.mp h, ih.mp hbefore]
    · intro h
      -- The fields before the last one make a schema, since those of `schema` do.
      have hdistinct : Field.Distinct (fields ++ [field]) := h ▸ schema.distinct
      have hbefore : ofFields fields = .ok ⟨fields, (Field.distinct_concat_iff.mp hdistinct).1⟩ :=
        ih.mpr rfl
      rw [hbefore]
      exact add_eq_ok_iff.mpr h

theorem exists_ofFields_eq_ok_iff :
    (∃ schema, ofFields fields = .ok schema) ↔ Field.Distinct fields := by
  constructor
  · rintro ⟨schema, h⟩
    obtain rfl := ofFields_eq_ok_iff.mp h
    exact schema.distinct
  · intro h
    exact ⟨⟨fields, h⟩, ofFields_eq_ok_iff.mpr rfl⟩

/-- The first repeated name ends it, whatever is declared after it. -/
theorem ofFields_of_firstRepeated (h : Field.FirstRepeated fields field) :
    ofFields fields = .error (.duplicateFieldName field.name) := by
  obtain ⟨before, after, rfl, hdistinct, htaken⟩ := h
  have hbefore : ofFields before = .ok ⟨before, hdistinct⟩ := ofFields_eq_ok_iff.mpr rfl
  have hfield : add ⟨before, hdistinct⟩ field = .error (.duplicateFieldName field.name) :=
    add_of_taken htaken
  unfold ofFields at hbefore ⊢
  rw [List.foldlM_append, hbefore]
  show (add ⟨before, hdistinct⟩ field >>= fun schema => after.foldlM add schema) = _
  rw [hfield]
  rfl

/-! ### Looking up declared names -/

/-- Fields at different places have names that do not agree. -/
theorem place_unique {name : String} {i j : Fin schema.fields.length}
    (hi : Text.SameName schema.fields[i].name name)
    (hj : Text.SameName schema.fields[j].name name) : i = j := by
  have hdistinct := List.pairwise_iff_getElem.mp schema.distinct
  rcases Nat.lt_trichotomy i j with hlt | heq | hgt
  · exact absurd (hi.trans hj.symm) (hdistinct i j i.isLt j.isLt hlt)
  · exact Fin.ext heq
  · exact absurd (hj.trans hi.symm) (hdistinct j i j.isLt i.isLt hgt)

/-- Schemas with the same fields in any order look names up alike. -/
theorem resolve?_eq_of_perm {other : Schema ε} (h : other.fields.Perm schema.fields)
    (name : String) : other.resolve? name = schema.resolve? name := by
  apply Option.ext
  intro f
  rw [resolve?_eq_some_iff, resolve?_eq_some_iff, h.mem_iff]

/-- What a schema of declared fields is to whoever looks a name up in it. -/
structure LooksUp (schema : Schema ε) (fields : List (Field ε)) : Prop where
  /-- It lists the names as they were declared. -/
  names : schema.fieldNames = fields.map Field.name
  /-- A text stands for the field at a place just if it is the name of that
      field up to ASCII case, -/
  resolves : ∀ (text : String) (i : Fin fields.length),
    schema.resolve? text = some fields[i] ↔ Text.SameName fields[i].name text
  /-- and for none if it is the name of none. -/
  unresolved : ∀ text : String,
    schema.resolve? text = none ↔ ∀ i : Fin fields.length, ¬ Text.SameName fields[i].name text
  /-- No text is the name of fields at two places. -/
  unique : ∀ (text : String) (i j : Fin fields.length),
    Text.SameName fields[i].name text → Text.SameName fields[j].name text → i = j
  /-- The same declarations in another order make a schema that looks names up
      in the same way. -/
  any_order : ∀ others : List (Field ε), others.Perm fields →
    ∃ other, ofFields others = .ok other ∧ ∀ text, other.resolve? text = schema.resolve? text
  /-- A further field changes nothing for the texts that stand for a field. -/
  further : ∀ (field : Field ε) (next : Schema ε), schema.add field = .ok next →
    ∀ text f, schema.resolve? text = some f → next.resolve? text = some f

theorem looksUp_fields (schema : Schema ε) : schema.LooksUp schema.fields where
  names := rfl
  resolves := by
    intro text i
    rw [resolve?_eq_some_iff]
    exact and_iff_right (List.getElem_mem i.isLt)
  unresolved := by
    intro text
    rw [resolve?_eq_none_iff, List.forall_mem_iff_getElem]
    exact ⟨fun h i => h i i.isLt, fun h i hi => h ⟨i, hi⟩⟩
  unique := fun _ _ _ => place_unique
  any_order := by
    intro others hperm
    have hdistinct : Field.Distinct others := Field.Distinct.perm schema.distinct hperm
    exact ⟨⟨others, hdistinct⟩, ofFields_eq_ok_iff.mpr rfl, resolve?_eq_of_perm hperm⟩
  further := fun _ _ hnext _ _ => resolve?_of_add hnext

/-- **Declarations make a schema or the first repeated name is reported.** Names
    agree if they are one text in which letters of ASCII may be in either case.
    If no two declared names agree there is a schema, which looks names up as
    they were declared. Otherwise the name that is reported, as it was given, is
    the first that agrees with an earlier one. -/
theorem built_or_reported (fields : List (Field ε)) :
    (∀ s t : String, Text.SameName s t ↔ List.Forall₂ Text.Recased s.toList t.toList) ∧
    ((∃ schema, ofFields fields = .ok schema) ↔ Field.Distinct fields) ∧
    (¬ Field.Distinct fields → ∃ field, Field.FirstRepeated fields field ∧
      ofFields fields = .error (.duplicateFieldName field.name)) ∧
    ∀ schema, ofFields fields = .ok schema → schema.LooksUp fields := by
  refine ⟨fun s t => Text.sameName_iff_forall₂, exists_ofFields_eq_ok_iff, ?_, ?_⟩
  · intro hrepeated
    obtain ⟨field, hfirst⟩ := Field.exists_firstRepeated hrepeated
    exact ⟨field, hfirst, ofFields_of_firstRepeated hfirst⟩
  · intro schema h
    obtain rfl := ofFields_eq_ok_iff.mp h
    exact looksUp_fields schema

end Schema

end RowOrder
