import RowOrder.Proofs.Removal

/-! # Plain names

    A plain name is one that text holds whatever the direction of its key. In
    a schema of plain names nothing is lost in text, so an edit followed by
    reading its text again acts on the keys themselves (`Edit.after`), and a
    whole run of edits is a fold of such steps.
-/

namespace RowOrder

variable {ε : Type} {schema : Schema ε}

open Text

/-! ### Names that text holds -/

/-- A name that is not empty, has no comma, no blank at either end and no dash
    in front. -/
structure Text.PlainName (name : String) : Prop where
  /-- There is a character. -/
  nonempty : name ≠ ""
  /-- Text is not cut inside the name. -/
  no_comma : ',' ∉ name.toList
  /-- Nothing is trimmed in front. -/
  no_leading_blank : NoLeadingBlank name.toList
  /-- Nothing is trimmed at the back. -/
  no_trailing_blank : NoTrailingBlank name.toList
  /-- The first character is not taken for a mark. -/
  no_dash : name.toList.head? ≠ some '-'

instance (name : String) : Decidable (PlainName name) :=
  decidable_of_iff
    (name ≠ "" ∧ ',' ∉ name.toList ∧ NoLeadingBlank name.toList ∧
      NoTrailingBlank name.toList ∧ name.toList.head? ≠ some '-')
    ⟨fun ⟨h₁, h₂, h₃, h₄, h₅⟩ => ⟨h₁, h₂, h₃, h₄, h₅⟩,
      fun ⟨h₁, h₂, h₃, h₄, h₅⟩ => ⟨h₁, h₂, h₃, h₄, h₅⟩⟩

/-- A schema all of whose names are plain. -/
def Schema.Plain (schema : Schema ε) : Prop := ∀ f ∈ schema.fields, PlainName f.name

instance (schema : Schema ε) : Decidable schema.Plain :=
  inferInstanceAs (Decidable (∀ f ∈ schema.fields, PlainName f.name))

theorem SortKey.readable_of_plain (hplain : schema.Plain) {key : SortKey ε}
    (h : key.field ∈ schema.fields) : key.Readable schema := by
  have hname : PlainName key.name := hplain key.field h
  refine ⟨h, ?_⟩
  cases key.direction with
  | ascending => exact ⟨hname.no_leading_blank, hname.no_trailing_blank, hname.no_dash⟩
  | descending => exact hname.no_trailing_blank

theorem SortKey.survivesText_of_plain (hplain : schema.Plain) {key : SortKey ε}
    (h : key.field ∈ schema.fields) : key.SurvivesText := by
  have hname : PlainName key.name := hplain key.field h
  exact ⟨hname.no_comma, fun hempty => hname.nonempty hempty.2⟩

/-! ### One edit -/

/-- What an edit makes of keys when nothing is lost in text. -/
def Edit.after (schema : Schema ε) (edit : Edit) (keys : List (SortKey ε)) : List (SortKey ε) :=
  match SortKey.ofToken? schema edit.token with
  | none => keys
  | some candidate => edit.onKeys candidate keys

theorem Edit.after_of_eq_none {edit : Edit} {keys : List (SortKey ε)}
    (h : SortKey.ofToken? schema edit.token = none) : edit.after schema keys = keys := by
  unfold after
  rw [h]

theorem Edit.after_of_eq_some {edit : Edit} {keys : List (SortKey ε)} {candidate : SortKey ε}
    (h : SortKey.ofToken? schema edit.token = some candidate) :
    edit.after schema keys = edit.onKeys candidate keys := by
  unfold after
  rw [h]

namespace Descriptor

theorem wellFormed_toggleOrAppend (hplain : schema.Plain) {d : Descriptor ε}
    (h : d.WellFormed schema) {candidate : SortKey ε} (hcandidate : candidate.Readable schema) :
    WellFormed schema { d with keys := Edit.toggleOrAppend candidate d.keys } := by
  obtain ⟨changed, htoggles⟩ := Toggles.exists_toggleOrAppend candidate d.keys
  have hchanged : changed.field ∈ schema.fields :=
    htoggles.field_changed (P := (· ∈ schema.fields))
      (fun key hkey => (h.readable key hkey).mem_fields) hcandidate.mem_fields
  refine ⟨?_, fun hpolicy => htoggles.pairwise_next (h.distinct hpolicy)⟩
  intro key hkey
  obtain rfl | hold := htoggles.mem_next hkey
  · exact SortKey.readable_of_plain hplain hchanged
  · exact h.readable key hold

/-- An edit in a schema of plain names keeps the invariant of reading. -/
theorem wellFormed_after (hplain : schema.Plain) {d : Descriptor ε} (h : d.WellFormed schema)
    (edit : Edit) : WellFormed schema { d with keys := edit.after schema d.keys } := by
  cases htoken : SortKey.ofToken? schema edit.token with
  | none =>
    rw [Edit.after_of_eq_none htoken]
    exact h
  | some candidate =>
    rw [Edit.after_of_eq_some htoken]
    cases edit with
    | toggle token =>
      exact wellFormed_toggleOrAppend hplain h (SortKey.readable_of_ofToken? htoken)
    | remove token => exact h.sublist (Drops.withoutFirst candidate.name d.keys).sublist

/-- In a schema of plain names every descriptor reads back from its text. -/
theorem parse_textOf_of_plain (hplain : schema.Plain) {d : Descriptor ε}
    (h : d.WellFormed schema) : parse schema (textOf d.keys) d.config = pure d :=
  parse_textOf h fun key hkey =>
    SortKey.survivesText_of_plain hplain (h.readable key hkey).mem_fields

/-- In a schema of plain names an edit gives the text of the keys that it
    leaves. -/
theorem value_edited (hplain : schema.Plain) {d : Descriptor ε} (h : d.WellFormed schema)
    (edit : Edit) : (d.edited schema edit).value = textOf (edit.after schema d.keys) := by
  cases htoken : SortKey.ofToken? schema edit.token with
  | none =>
    rw [edited_of_eq_none htoken, Edit.after_of_eq_none htoken]
    rfl
  | some candidate =>
    rw [edited_of_eq_some (parse_textOf_of_plain hplain h) htoken, Edit.after_of_eq_some htoken]
    rfl

/-- In a schema of plain names an edit acts on the keys themselves. -/
theorem value_follow (hplain : schema.Plain) {d : Descriptor ε} (h : d.WellFormed schema)
    (edit : Edit) :
    (d.follow schema edit).value = { d with keys := edit.after schema d.keys } := by
  -- The text of the outcome is read back, and nothing is lost in that either.
  have hread := parse_textOf_of_plain hplain (wellFormed_after hplain h edit)
  unfold follow
  rw [Logged.value_bind, value_edited hplain h edit, hread]
  rfl

/-! ### A run of edits -/

/-- In a schema of plain names a run of edits acts on the keys themselves, one
    edit after the other. -/
theorem value_followAll (hplain : schema.Plain) {d : Descriptor ε} (h : d.WellFormed schema)
    (edits : List Edit) :
    (d.followAll schema edits).value =
      { d with keys := edits.foldl (fun keys edit => edit.after schema keys) d.keys } := by
  induction edits generalizing d with
  | nil => rfl
  | cons edit rest ih =>
    show (followAll schema (follow schema d edit).value rest).value = _
    rw [value_follow hplain h edit, ih (wellFormed_after hplain h edit)]
    rfl

end Descriptor

end RowOrder
