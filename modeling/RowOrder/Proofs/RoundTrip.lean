import RowOrder.Chain
import RowOrder.Proofs.Reading
import RowOrder.Proofs.Text.Commas

/-! # Through text and back

    Which descriptors read back from their own text.

    - `Descriptor.labels_parse_textOf_iff`: keys come back from the text that
      joins them just if the descriptor that holds them is one that reading
      can give, no name has a comma, and no key has an empty text.
    - `Descriptor.reread_make_iff`: of a descriptor that was made, only
      the last two can fail: a name with a comma is cut in pieces, and the
      ascending key on the empty name leaves a segment that is passed over.
-/

namespace RowOrder

variable {ε : Type} {schema : Schema ε}

/-! ### Marked names -/

namespace Direction

/-- Only the empty name without a mark gives an empty text. -/
theorem mark_eq_empty_iff {d : Direction} {name : String} :
    d.mark name = "" ↔ d = .ascending ∧ name = "" := by
  cases d <;> simp [mark]

theorem comma_mem_mark_iff {d : Direction} {name : String} :
    ',' ∈ (d.mark name).toList ↔ ',' ∈ name.toList := by
  cases d <;> simp [mark]

end Direction

/-! ### Keys in text -/

namespace SortKey

/-- A key survives in text if the text is not cut inside the key's name, and
    the key leaves a trace in it. -/
def SurvivesText (key : SortKey ε) : Prop :=
  ',' ∉ key.name.toList ∧ ¬ (key.direction = .ascending ∧ key.name = "")

instance (key : SortKey ε) : Decidable key.SurvivesText :=
  inferInstanceAs (Decidable (_ ∧ _))

/-- Only the ascending key on the empty name has an empty text. -/
theorem render_eq_empty_iff {key : SortKey ε} :
    key.render = "" ↔ key.direction = .ascending ∧ key.name = "" :=
  Direction.mark_eq_empty_iff

theorem comma_mem_render_iff {key : SortKey ε} :
    ',' ∈ key.render.toList ↔ ',' ∈ key.name.toList :=
  Direction.comma_mem_mark_iff

/-- Keys of a schema are told apart by what they show. -/
theorem eq_of_label_eq {k l : SortKey ε} (hk : k.field ∈ schema.fields)
    (hl : l.field ∈ schema.fields) (h : k.label = l.label) : k = l := by
  obtain ⟨hname, hdirection⟩ := Prod.mk.inj h
  have hfield := Schema.eq_of_name_eq hk hl hname
  cases k
  cases l
  subst hfield
  subst hdirection
  rfl

end SortKey

theorem Chain.eq_of_labels_eq {keys others : Chain ε} (hkeys : ∀ k ∈ keys, k.field ∈ schema.fields)
    (hothers : ∀ k ∈ others, k.field ∈ schema.fields)
    (h : Chain.labels keys = Chain.labels others) : keys = others := by
  induction keys generalizing others with
  | nil =>
    cases others with
    | nil => rfl
    | cons l rest => exact absurd h (by simp [Chain.labels])
  | cons k keys ih =>
    cases others with
    | nil => exact absurd h (by simp [Chain.labels])
    | cons l rest =>
      obtain ⟨hlabel, hrest⟩ := List.cons.inj h
      rw [SortKey.eq_of_label_eq (hkeys k List.mem_cons_self) (hothers l List.mem_cons_self) hlabel,
        ih (fun k hk => hkeys k (List.mem_cons_of_mem _ hk))
          (fun l hl => hothers l (List.mem_cons_of_mem _ hl)) hrest]

namespace Descriptor

/-! ### The text of a list of keys -/

theorem eq_of_keys_eq {d e : Descriptor ε} (hkeys : d.keys = e.keys)
    (hconfig : d.config = e.config) : d = e := by
  cases d
  cases e
  subst hkeys
  subst hconfig
  rfl

theorem segments_textOf {keys : List (SortKey ε)} (h : ∀ key ∈ keys, ',' ∉ key.name.toList) :
    Text.segments (textOf keys) = (keys.map SortKey.render).filter (· ≠ "") := by
  unfold textOf
  apply Text.segments_join
  intro part hpart
  obtain ⟨key, hkey, rfl⟩ := List.mem_map.mp hpart
  exact fun hcomma => h key hkey (SortKey.comma_mem_render_iff.mp hcomma)

/-- Keys that reading can give and that survive in text come back from it
    without an event. -/
theorem parse_textOf {d : Descriptor ε} (h : d.WellFormed schema)
    (hsurvive : ∀ key ∈ d.keys, key.SurvivesText) :
    parse schema (textOf d.keys) d.config = pure d := by
  have hnonempty : ∀ part ∈ d.keys.map SortKey.render, part ≠ "" := by
    intro part hpart
    obtain ⟨key, hkey, rfl⟩ := List.mem_map.mp hpart
    exact fun hempty => (hsurvive key hkey).2 (SortKey.render_eq_empty_iff.mp hempty)
  unfold parse
  rw [segments_textOf fun key hkey => (hsurvive key hkey).1,
    List.filter_eq_self.mpr (by simpa using hnonempty), fromTokens_map_render h]

/-- No key that was read from a text has a comma in its name. -/
theorem comma_not_mem_of_mem_parse {text : String} {config : Config} {key : SortKey ε}
    (h : key ∈ (parse schema text config).value.keys) : ',' ∉ key.name.toList := by
  rcases mem_keys_foldlM h with hmem | ⟨token, htoken, hkey⟩
  · exact absurd hmem List.not_mem_nil
  · exact SortKey.comma_not_mem_name hkey (Text.comma_not_mem_of_mem_segments htoken)

theorem length_keys_parse_le (schema : Schema ε) (text : String) (config : Config) :
    (parse schema text config).value.keys.length ≤ (Text.segments text).length := by
  have h : (parse schema text config).value.keys.length ≤ 0 + (Text.segments text).length :=
    length_keys_foldlM_le schema { config } (Text.segments text)
  omega

/-- If as many keys come back as went into the text, no key left an empty
    segment. -/
theorem render_ne_empty_of_length_le {keys : List (SortKey ε)} {config : Config}
    (hcomma : ∀ key ∈ keys, ',' ∉ key.name.toList)
    (h : keys.length ≤ (parse schema (textOf keys) config).value.keys.length) :
    ∀ key ∈ keys, key.render ≠ "" := by
  intro key hkey hempty
  have hlost : ((keys.map SortKey.render).filter (· ≠ "")).length <
      (keys.map SortKey.render).length := by
    rw [List.length_filter_lt_length_iff_exists]
    exact ⟨key.render, List.mem_map_of_mem hkey, by simp [hempty]⟩
  -- Fewer segments than keys are read, and no segment gives two keys.
  have hread := length_keys_parse_le schema (textOf keys) config
  rw [segments_textOf hcomma] at hread
  rw [List.length_map] at hlost
  omega

/-- Keys on fields of the schema come back from their text just if reading can
    give them and each survives in text. -/
theorem labels_parse_textOf_iff {d : Descriptor ε}
    (hfields : ∀ key ∈ d.keys, key.field ∈ schema.fields) :
    Chain.labels (parse schema (textOf d.keys) d.config).value.keys = Chain.labels d.keys ↔
      d.WellFormed schema ∧ ∀ key ∈ d.keys, key.SurvivesText := by
  constructor
  · intro h
    have hread := wellFormed_parse schema (textOf d.keys) d.config
    have hkeys : (parse schema (textOf d.keys) d.config).value.keys = d.keys :=
      Chain.eq_of_labels_eq (fun key hkey => (hread.readable key hkey).mem_fields) hfields h
    have hvalue : (parse schema (textOf d.keys) d.config).value = d :=
      eq_of_keys_eq hkeys (config_parse schema _ d.config)
    -- The keys are keys that were read from a text, so no name has a comma.
    have hcomma : ∀ key ∈ d.keys, ',' ∉ key.name.toList := by
      intro key hkey
      rw [← hkeys] at hkey
      exact comma_not_mem_of_mem_parse hkey
    -- As many came back as were written, so none was written as an empty segment.
    rw [hvalue] at hread
    refine ⟨hread, fun key hkey => ⟨hcomma key hkey, ?_⟩⟩
    have hlength : d.keys.length ≤
        (parse schema (textOf d.keys) d.config).value.keys.length := by rw [hkeys]
    intro hempty
    exact render_ne_empty_of_length_le hcomma hlength key hkey
      (SortKey.render_eq_empty_iff.mpr hempty)
  · rintro ⟨hwf, hsurvive⟩
    rw [parse_textOf hwf hsurvive]
    rfl

/-! ### Descriptors that were made -/

/-- The descriptor as its own text reads back. -/
def reread (schema : Schema ε) (d : Descriptor ε) : Logged (Descriptor ε) :=
  parse schema d.text d.config

theorem labels_reread_iff {d : Descriptor ε} (h : d.WellFormed schema) :
    Chain.labels (reread schema d).value.keys = Chain.labels d.keys ↔
      ∀ key ∈ d.keys, key.SurvivesText := by
  have hfields : ∀ key ∈ d.keys, key.field ∈ schema.fields :=
    fun key hkey => (h.readable key hkey).mem_fields
  have hiff := labels_parse_textOf_iff hfields
  exact hiff.trans ⟨fun hboth => hboth.2, fun hsurvive => ⟨h, hsurvive⟩⟩

theorem reread_eq_pure_iff {d : Descriptor ε} (h : d.WellFormed schema) :
    reread schema d = pure d ↔ ∀ key ∈ d.keys, key.SurvivesText := by
  constructor
  · intro hreread
    apply (labels_reread_iff h).mp
    rw [hreread]
    rfl
  · exact parse_textOf h

/-- **Round trip.** A descriptor that was made shows the same keys after a trip
    through text just if every key survives in text: no name has a comma, and
    no ascending key has the empty name. Just then the descriptor comes back
    as it was, and nothing is reported on the way. -/
theorem reread_make_iff (schema : Schema ε) (recipe : Recipe) :
    let d := (make schema recipe).value
    (Chain.labels (reread schema d).value.keys = Chain.labels d.keys ↔
      ∀ key ∈ d.keys, key.SurvivesText) ∧
    (reread schema d = pure d ↔ ∀ key ∈ d.keys, key.SurvivesText) := by
  intro d
  have hwf : d.WellFormed schema := wellFormed_make schema recipe
  exact ⟨labels_reread_iff hwf, reread_eq_pure_iff hwf⟩

end Descriptor

end RowOrder
