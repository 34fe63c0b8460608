import RowOrder.Text.Segments

/-! # Cutting at commas and joining with them

    `segments` undoes `join` as far as text can tell: parts without a comma
    come back in order, apart from the empty ones. A part with a comma never
    comes back, since no segment holds one. So the segments of a text are the
    non-empty pieces between its commas (`cutsInto_iff`).
-/

namespace RowOrder.Text

/-! ### What a segment holds -/

theorem not_mem_of_mem_splitOn {cs piece : List Char} {d : Char} (h : piece ∈ cs.splitOn d) :
    d ∉ piece := by
  induction cs generalizing piece with
  | nil =>
    obtain rfl : piece = [] := by simpa using h
    exact List.not_mem_nil
  | cons c rest ih =>
    rw [List.splitOn_cons_eq_if_modifyHead] at h
    obtain ⟨first, more, hrest⟩ := List.exists_cons_of_ne_nil (List.splitOn_ne_nil d rest)
    rw [hrest] at h ih
    split at h
    · rcases List.mem_cons.mp h with rfl | hmem
      · exact List.not_mem_nil
      · exact ih hmem
    · rename_i hne
      -- The character joins the first piece, and it is not the one cut at.
      rcases List.mem_cons.mp h with rfl | hmem
      · intro hd
        rcases List.mem_cons.mp hd with rfl | hd
        · exact hne (beq_self_eq_true d)
        · exact ih List.mem_cons_self hd
      · exact ih (List.mem_cons_of_mem _ hmem)

/-- No segment holds a comma. -/
theorem comma_not_mem_of_mem_segments {s part : String} (h : part ∈ segments s) :
    ',' ∉ part.toList := by
  obtain ⟨piece, hpiece, rfl⟩ := List.mem_map.mp h
  rw [String.toList_ofList]
  exact not_mem_of_mem_splitOn (List.mem_filter.mp hpiece).1

/-- A comma between two texts keeps their segments apart. -/
theorem segments_append_comma (s t : String) :
    segments (s ++ "," ++ t) = segments s ++ segments t := by
  have hchars : (s ++ "," ++ t).toList = s.toList ++ ',' :: t.toList := by simp
  unfold segments
  rw [hchars, List.splitOn_append_cons_self, List.filter_append, List.map_append]

/-! ### Joined parts read back -/

theorem ofList_filter_toList (parts : List String) :
    ((parts.map String.toList).filter (· ≠ [])).map String.ofList = parts.filter (· ≠ "") := by
  induction parts with
  | nil => rfl
  | cons part rest ih =>
    by_cases hempty : part = ""
    · subst hempty
      simpa using ih
    · have hchars : part.toList ≠ [] := fun h => hempty (String.toList_eq_nil_iff.mp h)
      simp only [List.map_cons, List.filter_cons, hchars, hempty, ne_eq, not_false_eq_true,
        decide_true, if_true, String.ofList_toList]
      simpa using ih

/-- Parts without a comma come back from the text that joins them, apart from
    the empty ones. -/
theorem segments_join {parts : List String} (h : ∀ part ∈ parts, ',' ∉ part.toList) :
    segments (join parts) = parts.filter (· ≠ "") := by
  by_cases hnil : parts = []
  · subst hnil
    simp
  · have hpieces : ∀ piece ∈ parts.map String.toList, ',' ∉ piece := by
      intro piece hpiece
      obtain ⟨part, hpart, rfl⟩ := List.mem_map.mp hpiece
      exact h part hpart
    have hne : parts.map String.toList ≠ [] := by simpa using hnil
    unfold segments
    rw [toList_join, List.splitOn_intercalate ',' hpieces hne, ofList_filter_toList]

/-- A text without a comma is its own only segment, if it is not empty. -/
theorem segments_eq_singleton {s : String} (hcomma : ',' ∉ s.toList) (hne : s ≠ "") :
    segments s = [s] := by
  have hjoin : segments (join [s]) = [s].filter (· ≠ "") := segments_join (by simpa using hcomma)
  simpa [join, hne] using hjoin

/-- The segments of joined parts, which may hold commas themselves, are those of
    the parts. -/
theorem segments_join_eq_flatMap (parts : List String) :
    segments (join parts) = parts.flatMap segments := by
  induction parts with
  | nil => simp
  | cons part rest ih =>
    cases rest with
    | nil => simp [join]
    | cons next rest =>
      rw [join_cons_cons, segments_append_comma, ih, ← List.flatMap_cons]

/-- Every text is parts without a comma, joined. -/
theorem exists_parts (s : String) :
    ∃ parts, join parts = s ∧ ∀ part ∈ parts, ',' ∉ part.toList := by
  refine ⟨(s.toList.splitOn ',').map String.ofList, ?_, ?_⟩
  · apply String.toList_injective
    rw [toList_join, List.map_map]
    simp [Function.comp_def, List.intercalate_splitOn]
  · intro part hpart
    obtain ⟨piece, hpiece, rfl⟩ := List.mem_map.mp hpart
    rw [String.toList_ofList]
    exact not_mem_of_mem_splitOn hpiece

/-- `CutsInto s parts` says that `parts` are the non-empty pieces of `s` between
    its commas. -/
def CutsInto (s : String) (parts : List String) : Prop :=
  ∃ pieces : List String, ",".intercalate pieces = s ∧ (∀ piece ∈ pieces, ',' ∉ piece.toList) ∧
    parts = pieces.filter (· ≠ "")

/-- A text is cut in one way, into its segments. -/
theorem cutsInto_iff {s : String} {parts : List String} :
    CutsInto s parts ↔ parts = segments s := by
  constructor
  · rintro ⟨pieces, rfl, hcomma, rfl⟩
    exact (segments_join hcomma).symm
  · rintro rfl
    obtain ⟨pieces, hjoin, hcomma⟩ := exists_parts s
    refine ⟨pieces, hjoin, hcomma, ?_⟩
    rw [← hjoin, segments_join hcomma]

end RowOrder.Text
