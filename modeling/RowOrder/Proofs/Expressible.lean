import RowOrder.Proofs.Reachable
import RowOrder.Proofs.RoundTrip

/-! # Orderings that tokens and text can express

    Which orderings, given by the names and directions they show, can be read
    at all.

    - `Expressible` says what is required of the names, and that none is
      repeated where only the first key on a field counts.
    - `Descriptor.made_iff_read_back`: a descriptor can be made just if the
      texts of its own keys, taken as tokens, describe it again.
    - `Descriptor.expressible_iff`: a list of tokens describes an ordering just
      if it is expressible, and a text does just if there is also no comma in a
      name. A text can express the ascending key on the empty name, though the
      key's own text is empty: a blank segment stands for it.
-/

namespace RowOrder

variable {ε : Type} {schema : Schema ε}

/-! ### Expressible orderings -/

/-- The orderings that a list of tokens can express. -/
structure Expressible (schema : Schema ε) (config : Config)
    (ordering : List (String × Direction)) : Prop where
  /-- Every name is one of the schema's, in the schema's casing. -/
  declared : ∀ step ∈ ordering, step.1 ∈ schema.fieldNames
  /-- A token can hold each name beside its direction. -/
  holds : ∀ step ∈ ordering, Token.Holds step.2 step.1
  /-- Where only the first key on a field counts, no name occurs twice. -/
  distinct : config.duplicateFields = .keepFirst → (ordering.map Prod.fst).Nodup

/-- Declared names with directions are what some keys on fields of the schema show. -/
theorem Chain.exists_labels_eq {ordering : List (String × Direction)}
    (h : ∀ step ∈ ordering, step.1 ∈ schema.fieldNames) :
    ∃ keys, Chain.Over schema keys ∧ Chain.labels keys = ordering := by
  induction ordering with
  | nil => exact ⟨[], List.forall_mem_nil _, rfl⟩
  | cons step rest ih =>
    obtain ⟨hname, hrest⟩ := List.forall_mem_cons.mp h
    obtain ⟨field, hfield, heq⟩ := List.mem_map.mp hname
    obtain ⟨keys, hkeys, hlabels⟩ := ih hrest
    refine ⟨⟨field, step.2⟩ :: keys, List.forall_mem_cons.mpr ⟨hfield, hkeys⟩, ?_⟩
    show (field.name, step.2) :: Chain.labels keys = step :: rest
    rw [hlabels, heq]

/-- A descriptor with keys on fields of the schema is one that reading can give
    just if the ordering it shows is expressible. -/
theorem Descriptor.expressible_labels_iff {d : Descriptor ε} (hover : Chain.Over schema d.keys) :
    Expressible schema d.config (Chain.labels d.keys) ↔ d.WellFormed schema := by
  have hnames : (Chain.labels d.keys).map Prod.fst = d.keys.map SortKey.name := by
    rw [Chain.labels, List.map_map]
    rfl
  constructor
  · intro h
    refine ⟨fun key hkey => ⟨hover key hkey, ?_⟩, fun hpolicy => ?_⟩
    · exact h.holds key.label (List.mem_map_of_mem hkey)
    · have hnodup := h.distinct hpolicy
      rw [hnames] at hnodup
      exact List.pairwise_map.mp hnodup
  · intro h
    refine ⟨?_, ?_, fun hpolicy => ?_⟩
    · intro step hstep
      obtain ⟨key, hkey, rfl⟩ := List.mem_map.mp hstep
      exact List.mem_map_of_mem (hover key hkey)
    · intro step hstep
      obtain ⟨key, hkey, rfl⟩ := List.mem_map.mp hstep
      exact (h.readable key hkey).holds
    · rw [hnames]
      exact List.pairwise_map.mpr (h.distinct hpolicy)

/-! ### Keys as segments -/

namespace SortKey

/-- The key in text, or a blank where that would be empty. -/
def segment (key : SortKey ε) : String := if key.render = "" then " " else key.render

theorem segment_ne_empty (key : SortKey ε) : key.segment ≠ "" := by
  unfold segment
  split
  · decide
  · assumption

theorem comma_mem_segment_iff {key : SortKey ε} :
    ',' ∈ key.segment.toList ↔ ',' ∈ key.name.toList := by
  unfold segment
  split
  · rename_i hempty
    rw [(render_eq_empty_iff.mp hempty).2]
    decide
  · exact comma_mem_render_iff

/-- A blank names the empty field, in ascending direction, as the empty token does. -/
theorem ofToken?_segment {key : SortKey ε} (h : key.Readable schema) :
    ofToken? schema key.segment = some key := by
  rw [← ofToken?_render h]
  unfold segment
  split
  · rename_i hempty
    have hname : Token.name " " = Token.name "" := by decide +kernel
    have hdirection : Token.direction " " = Token.direction "" := by decide +kernel
    rw [hempty, ofToken?, ofToken?, hname, hdirection]
  · rfl

end SortKey

namespace Descriptor

/-- Keys that reading can give and whose names have no comma come back from
    their segments. -/
theorem parse_join_segments {d : Descriptor ε} (h : d.WellFormed schema)
    (hcomma : ∀ key ∈ d.keys, ',' ∉ key.name.toList) :
    parse schema (Text.join (d.keys.map SortKey.segment)) d.config = pure d := by
  have hparts : ∀ part ∈ d.keys.map SortKey.segment, ',' ∉ part.toList ∧ part ≠ "" := by
    intro part hpart
    obtain ⟨key, hkey, rfl⟩ := List.mem_map.mp hpart
    exact ⟨fun hmem => hcomma key hkey (SortKey.comma_mem_segment_iff.mp hmem),
      key.segment_ne_empty⟩
  unfold parse
  rw [Text.segments_join fun part hpart => (hparts part hpart).1,
    List.filter_eq_self.mpr fun part hpart => by simpa using (hparts part hpart).2]
  exact fromTokens_map_of_ofToken?
    (fun key hkey => SortKey.ofToken?_segment (h.readable key hkey)) h

/-! ### What can be read -/

/-- **Tokens give back what was made.** A descriptor can be made, in whatever
    way, just if the texts of its keys, taken as tokens under its own
    configuration, describe it again and nothing is reported. No name is
    excepted: a token is not cut at a comma, and an empty one is not passed
    over. -/
theorem made_iff_read_back (schema : Schema ε) (d : Descriptor ε) :
    (∃ recipe, (make schema recipe).value = d) ↔
      fromTokens schema (d.keys.map SortKey.render) d.config = pure d := by
  rw [← wellFormed_iff_exists_recipe]
  constructor
  · exact fromTokens_map_render
  · intro hread
    have hwf := wellFormed_fromTokens schema (d.keys.map SortKey.render) d.config
    rw [hread] at hwf
    exact hwf

/-- What tokens describe is expressible. -/
theorem expressible_fromTokens (schema : Schema ε) (tokens : List String) (config : Config) :
    Expressible schema config (Chain.labels (fromTokens schema tokens config).value.keys) := by
  have hwf := wellFormed_fromTokens schema tokens config
  have h := (expressible_labels_iff hwf.over).mpr hwf
  rw [config_fromTokens] at h
  exact h

/-- An expressible ordering is shown by a descriptor that reading can give. -/
theorem exists_wellFormed_of_expressible {config : Config}
    {ordering : List (String × Direction)} (h : Expressible schema config ordering) :
    ∃ d : Descriptor ε, d.WellFormed schema ∧ d.config = config ∧
      Chain.labels d.keys = ordering := by
  obtain ⟨keys, hover, rfl⟩ := Chain.exists_labels_eq h.declared
  exact ⟨{ keys, config }, (expressible_labels_iff hover).mp h, rfl, rfl⟩

/-- **What can be expressed.** A list of tokens describes an ordering, under a
    configuration, just if the ordering is expressible; a text does just if it
    is and no name has a comma. -/
theorem expressible_iff (schema : Schema ε) (config : Config)
    (ordering : List (String × Direction)) :
    ((∃ tokens, Chain.labels (fromTokens schema tokens config).value.keys = ordering) ↔
      Expressible schema config ordering) ∧
    ((∃ text, Chain.labels (parse schema text config).value.keys = ordering) ↔
      Expressible schema config ordering ∧ ∀ step ∈ ordering, ',' ∉ step.1.toList) := by
  refine ⟨⟨?_, ?_⟩, ?_, ?_⟩
  · rintro ⟨tokens, rfl⟩
    exact expressible_fromTokens schema tokens config
  · intro h
    obtain ⟨d, hwf, rfl, rfl⟩ := exists_wellFormed_of_expressible h
    exact ⟨d.keys.map SortKey.render, by rw [fromTokens_map_render hwf]; rfl⟩
  · rintro ⟨text, rfl⟩
    refine ⟨expressible_fromTokens schema (Text.segments text) config, fun step hstep => ?_⟩
    obtain ⟨key, hkey, rfl⟩ := List.mem_map.mp hstep
    exact comma_not_mem_of_mem_parse hkey
  · intro ⟨h, hcomma⟩
    obtain ⟨d, hwf, rfl, rfl⟩ := exists_wellFormed_of_expressible h
    have hnames : ∀ key ∈ d.keys, ',' ∉ key.name.toList :=
      fun key hkey => hcomma key.label (List.mem_map_of_mem hkey)
    exact ⟨Text.join (d.keys.map SortKey.segment), by rw [parse_join_segments hwf hnames]; rfl⟩

/-- The ascending key on the empty name has an empty text, and yet there is a
    text that describes it. -/
example :
    let schema : Schema Row := { fields := [Row.field "" .int 0] }
    Chain.labels (parse schema " ").value.keys = [("", .ascending)] := by
  decide +kernel

end Descriptor

end RowOrder
