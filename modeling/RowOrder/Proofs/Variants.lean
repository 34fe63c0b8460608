import Mathlib.Data.List.Dedup
import RowOrder.Proofs.FirstKeys
import RowOrder.Proofs.RoundTrip
import RowOrder.Proofs.Text.Variants

/-! # Reading variants of a text

    Casing and spacing make no difference to what a text asks for: the gist of
    a token decides which key it stands for (`SortKey.ofToken?_gist`), and
    variants of a text have the same gists.

    - `Descriptor.parse_of_variants`: variants are read as one descriptor, under
      either configuration, and so are written as one text.
    - `Descriptor.variants_iff_labels_parse_eq`: nothing else is ignored. Texts
      that are read alike in every schema are variants.
-/

namespace RowOrder

variable {ε : Type} {schema : Schema ε}

open Text

/-! ### The gist of a token -/

/-- A name stands for one field in either case. -/
theorem Schema.resolve?_eq_of_sameName {s t : String} (h : SameName s t) :
    schema.resolve? s = schema.resolve? t := by
  apply Option.ext
  intro f
  rw [resolve?_eq_some_iff, resolve?_eq_some_iff]
  exact and_congr_right fun _ => ⟨fun hs => hs.trans h, fun ht => ht.trans h.symm⟩

namespace Token

/-- The gist of a token is the name it holds in small letters, marked with the
    direction it asks for. -/
theorem gist_eq_mark (token : String) :
    gist token = (direction token).mark (foldCase (name token)) := by
  apply String.toList_injective
  have hgist : (gist token).toList = (trimmed token.toList).map Char.toLower := by
    rw [gist, foldCase, String.toList_map, toList_trim]
  unfold direction name
  rw [hgist]
  obtain ⟨rest, htrimmed, hsplit⟩ | ⟨-, hsplit⟩ := split_cases (trimmed token.toList)
  · rw [hsplit, htrimmed]
    simp [Direction.mark, foldCase]
  · rw [hsplit]
    simp [Direction.mark, foldCase]

theorem holds_gist (token : String) : Holds (direction token) (foldCase (name token)) :=
  holds_of_sameName (foldCase_foldCase _) (holds_name token)

@[simp] theorem direction_gist (token : String) : direction (gist token) = direction token := by
  rw [gist_eq_mark, direction_mark (holds_gist token)]

@[simp] theorem name_gist (token : String) : name (gist token) = foldCase (name token) := by
  rw [gist_eq_mark, name_mark (holds_gist token)]

end Token

/-- A token stands for the same key as its gist. -/
theorem SortKey.ofToken?_gist (schema : Schema ε) (token : String) :
    ofToken? schema (gist token) = ofToken? schema token := by
  have hname : SameName (foldCase (Token.name token)) (Token.name token) := foldCase_foldCase _
  unfold ofToken?
  rw [Token.name_gist, Token.direction_gist, Schema.resolve?_eq_of_sameName hname]

/-- The keys that a text's segments stand for are those of their gists. -/
theorem SortKey.filterMap_ofToken?_gists (schema : Schema ε) (s : String) :
    (gists s).filterMap (ofToken? schema) = (segments s).filterMap (ofToken? schema) := by
  unfold gists
  rw [List.filterMap_map]
  exact List.filterMap_congr fun token _ => ofToken?_gist schema token

namespace Descriptor

/-! ### Variants are read alike -/

theorem keys_parse_eq_of_variants {s t : String} (h : Variants s t) (schema : Schema ε)
    (config : Config) :
    (parse schema t config).value.keys = (parse schema s config).value.keys := by
  have hkeys : (segments t).filterMap (SortKey.ofToken? schema) =
      (segments s).filterMap (SortKey.ofToken? schema) := by
    rw [← SortKey.filterMap_ofToken?_gists, ← SortKey.filterMap_ofToken?_gists, h.gists_eq]
  obtain ⟨policy⟩ := config
  unfold parse
  cases policy with
  | keepFirst => rw [keys_fromTokens_keepFirst, keys_fromTokens_keepFirst, hkeys]
  | retain => rw [keys_fromTokens_retain, keys_fromTokens_retain, hkeys]

/-- **Reading ignores casing and spacing.** Let a text come of another by any
    number of changes to the case of ASCII letters, to the blanks at the ends of
    segments that are not empty, before or after, and to the number of empty
    segments. Both are read as the same descriptor, so its text is the same as
    well, and that has the names as the schema has them. -/
theorem parse_of_variants (schema : Schema ε) (config : Config) {s t : String}
    (h : Variants s t) :
    (parse schema t config).value = (parse schema s config).value ∧
    (parse schema t config).value.text = (parse schema s config).value.text ∧
    ∀ key ∈ (parse schema t config).value.keys, key.name ∈ schema.fieldNames := by
  have hvalue : (parse schema t config).value = (parse schema s config).value :=
    eq_of_keys_eq (keys_parse_eq_of_variants h schema config) (by simp)
  refine ⟨hvalue, congrArg text hvalue, ?_⟩
  intro key hkey
  exact List.mem_map_of_mem ((wellFormed_parse schema t config).readable key hkey).mem_fields

/-- A comma, a blank and a capital make no difference. -/
theorem parse_of_variants_numbers :
    Variants "-Id" ", -ID" ∧
    Chain.labels (parse numberSchema ", -ID").value.keys = [("Id", .descending)] ∧
    (parse numberSchema ", -ID").value.text = "-Id" := by
  have hcase : Variants "-Id" "-ID" := .rel _ _ (.recase (by decide))
  have hblank : Variants "-ID" " -ID" := by
    have hleft : ∀ c ∈ " ".toList, isBlank c := by
      intro c hc
      obtain rfl : c = ' ' := by simpa using hc
      decide
    have hpad : Varies (join ([] ++ ["-ID"])) (join ([] ++ [" " ++ "-ID" ++ ""])) :=
      .pad [] [] (by decide) (by decide) hleft (by simp)
    have hpadded : " " ++ "-ID" ++ "" = " -ID" := by decide +kernel
    rw [List.nil_append, List.nil_append, join_singleton, join_singleton, hpadded] at hpad
    exact .rel _ _ hpad
  have hcomma : Variants " -ID" ", -ID" := by
    have hspace := Varies.space [] [" -ID"]
    have hjoin : join ["", " -ID"] = ", -ID" := by decide +kernel
    rw [List.nil_append, List.nil_append, join_singleton, hjoin] at hspace
    exact .rel _ _ hspace
  have h : Variants "-Id" ", -ID" := .trans _ _ _ hcase (.trans _ _ _ hblank hcomma)
  have hread : parse numberSchema "-Id" = pure { keys := [numberKey] } := by
    have hwf : WellFormed numberSchema { keys := [numberKey] } := by
      refine ⟨?_, fun _ => List.pairwise_singleton _ _⟩
      intro key hkey
      obtain rfl := List.mem_singleton.mp hkey
      exact ⟨List.mem_singleton.mpr rfl, by decide +kernel⟩
    have htext : textOf [numberKey] = "-Id" := by decide +kernel
    have hback := parse_textOf hwf (by decide +kernel)
    rw [htext] at hback
    exact hback
  obtain ⟨hvalue, htext, -⟩ := parse_of_variants numberSchema {} h
  rw [hread] at hvalue htext
  refine ⟨h, ?_, htext⟩
  rw [hvalue]
  rfl

end Descriptor

/-! ### Nothing else is ignored -/

/-- A schema with a field for each name that one of the tokens holds. -/
def Schema.naming (tokens : List String) : Schema Row where
  fields := (tokens.map fun token => foldCase (Token.name token)).dedup.map fun name =>
    Row.field name .int 0
  distinct := by
    refine List.pairwise_map.mpr ((List.nodup_dedup _).imp_of_mem ?_)
    intro m n hm hn hne
    -- The names are in small letters, so they are different in any case.
    obtain ⟨a, -, rfl⟩ := List.mem_map.mp (List.mem_dedup.mp hm)
    obtain ⟨b, -, rfl⟩ := List.mem_map.mp (List.mem_dedup.mp hn)
    show foldCase (foldCase _) ≠ foldCase (foldCase _)
    rw [foldCase_foldCase, foldCase_foldCase]
    exact hne

/-- There each of the tokens stands for a key of its own name and direction. -/
theorem SortKey.ofToken?_naming {tokens : List String} {token : String} (h : token ∈ tokens) :
    ofToken? (Schema.naming tokens) token =
      some ⟨Row.field (foldCase (Token.name token)) .int 0, Token.direction token⟩ := by
  refine ofToken?_eq_some_iff.mpr ⟨?_, foldCase_foldCase _, rfl⟩
  exact List.mem_map_of_mem (List.mem_dedup.mpr (List.mem_map_of_mem h))

namespace Descriptor

/-- From what is read there the gists can be told. -/
theorem gists_eq_map_labels {tokens : List String} {s : String}
    (h : ∀ token ∈ segments s, token ∈ tokens) :
    let read := parse (Schema.naming tokens) s { duplicateFields := .retain }
    gists s = (Chain.labels read.value.keys).map fun label => label.2.mark label.1 := by
  intro read
  have hkeys : (segments s).filterMap (SortKey.ofToken? (Schema.naming tokens)) =
      (segments s).map fun token =>
        ⟨Row.field (foldCase (Token.name token)) .int 0, Token.direction token⟩ := by
    rw [← List.filterMap_eq_map]
    exact List.filterMap_congr fun token htoken => SortKey.ofToken?_naming (h token htoken)
  have hread : read.value.keys = (segments s).filterMap _ := keys_fromTokens_retain _ _
  unfold gists Chain.labels
  rw [hread, hkeys, List.map_map, List.map_map]
  exact List.map_congr_left fun token _ => Token.gist_eq_mark token

/-- **Reading ignores nothing else.** Texts that give the same names and
    directions in every schema, under both configurations, are variants. -/
theorem variants_iff_labels_parse_eq {s t : String} :
    Variants s t ↔ ∀ (schema : Schema Row) (config : Config),
      Chain.labels (parse schema t config).value.keys =
        Chain.labels (parse schema s config).value.keys := by
  constructor
  · intro h schema config
    rw [keys_parse_eq_of_variants h]
  · intro h
    let tokens := segments s ++ segments t
    have hs : ∀ token ∈ segments s, token ∈ tokens := fun _ => List.mem_append_left _
    have ht : ∀ token ∈ segments t, token ∈ tokens := fun _ => List.mem_append_right _
    rw [variants_iff, gists_eq_map_labels hs, gists_eq_map_labels ht, h]

end Descriptor

end RowOrder
