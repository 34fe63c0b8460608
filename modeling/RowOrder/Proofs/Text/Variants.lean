import Mathlib.Logic.Relation
import RowOrder.Proofs.Text.Commas
import RowOrder.Proofs.Text.Letters

/-! # Variants of a text

    Two texts may be written differently and hold the same tokens: letters may
    be in either case, blanks may stand around a token, and commas may be
    repeated. `Varies` is one such difference, `Variants` any number of them.

    What is left of a token when these are set aside is its gist: the token
    without the blanks at its ends, in small letters. `variants_iff` says that
    nothing else is left of a text: it is a variant of another just if their
    segments have the same gists, in the same order.
-/

namespace RowOrder.Text

/-! ### The differences -/

/-- One way to write a text differently, read as a text with commas between
    its parts. -/
inductive Varies : String → String → Prop where
  /-- Letters may be in either case. -/
  | recase {s t : String} (h : List.Forall₂ Recased s.toList t.toList) : Varies s t
  /-- A segment with a character in it may be given blanks at its ends. -/
  | pad (before after : List String) {segment left right : String}
      (hcomma : ',' ∉ segment.toList) (hne : segment ≠ "")
      (hleft : ∀ c ∈ left.toList, isBlank c) (hright : ∀ c ∈ right.toList, isBlank c) :
      Varies (join (before ++ segment :: after))
        (join (before ++ (left ++ segment ++ right) :: after))
  /-- An empty segment may be put anywhere. -/
  | space (before after : List String) :
      Varies (join (before ++ after)) (join (before ++ "" :: after))

/-- Texts that come of each other by any number of differences, made or undone. -/
def Variants : String → String → Prop := Relation.EqvGen Varies

/-! ### Case, commas and blanks -/

theorem foldCase_append (s t : String) : foldCase (s ++ t) = foldCase s ++ foldCase t := by
  apply String.toList_injective
  simp [foldCase]

@[simp] theorem foldCase_foldCase (s : String) : foldCase (foldCase s) = foldCase s := by
  have hlower : ∀ c : Char, c.toLower.toLower = c.toLower := fun c =>
    (toLower_eq_toLower_iff.mpr (.inl rfl)).symm
  apply String.toList_injective
  simp [foldCase, hlower]

@[simp] theorem foldCase_eq_empty_iff {s : String} : foldCase s = "" ↔ s = "" := by
  rw [← String.toList_eq_nil_iff, foldCase, String.toList_map, List.map_eq_nil_iff,
    String.toList_eq_nil_iff]

/-- Parts are joined by a comma, which has no case. -/
theorem foldCase_join (parts : List String) : foldCase (join parts) = join (parts.map foldCase) := by
  induction parts with
  | nil => simp
  | cons part rest ih =>
    cases rest with
    | nil => simp [join]
    | cons next rest =>
      have hcomma : foldCase "," = "," := by
        apply String.toList_injective
        simp [foldCase]
      rw [join_cons_cons, foldCase_append, foldCase_append, ih, hcomma]
      exact (join_cons_cons _ _ _).symm

theorem comma_mem_foldCase_iff {s : String} : ',' ∈ (foldCase s).toList ↔ ',' ∈ s.toList :=
  SameName.mem_iff (s := foldCase s) (t := s) (foldCase_foldCase s) (by decide)

/-- A text is cut at the same places in either case. -/
theorem segments_foldCase (s : String) : segments (foldCase s) = (segments s).map foldCase := by
  obtain ⟨parts, rfl, hcomma⟩ := exists_parts s
  have hfolded : ∀ part ∈ parts.map foldCase, ',' ∉ part.toList := by
    intro part hpart
    obtain ⟨p, hp, rfl⟩ := List.mem_map.mp hpart
    exact fun hmem => hcomma p hp (comma_mem_foldCase_iff.mp hmem)
  rw [foldCase_join, segments_join hfolded, segments_join hcomma, List.filter_map]
  refine congrArg (List.map foldCase) (List.filter_congr fun part _ => ?_)
  simp

theorem trimmed_map_toLower (cs : List Char) :
    trimmed (cs.map Char.toLower) = (trimmed cs).map Char.toLower := by
  have hblank : isBlank ∘ Char.toLower = isBlank := funext caseless_isBlank
  unfold trimmed
  rw [List.dropWhile_map, hblank, ← List.map_reverse, List.dropWhile_map, hblank,
    ← List.map_reverse]

/-- Blanks have no case either. -/
theorem trim_foldCase (s : String) : trim (foldCase s) = foldCase (trim s) := by
  apply String.toList_injective
  rw [toList_trim, foldCase, foldCase, String.toList_map, String.toList_map, toList_trim,
    trimmed_map_toLower]

/-! ### What is left of a token -/

/-- A token without the blanks at its ends, in small letters. -/
def gist (token : String) : String := foldCase (trim token)

/-- The gists of a text's segments. -/
def gists (s : String) : List String := (segments s).map gist

theorem gists_foldCase (s : String) : gists (foldCase s) = gists s := by
  unfold gists
  rw [segments_foldCase, List.map_map]
  refine List.map_congr_left fun segment _ => ?_
  simp [gist, trim_foldCase]

theorem gists_join (parts : List String) : gists (join parts) = parts.flatMap gists := by
  unfold gists
  rw [segments_join_eq_flatMap, List.map_flatMap]

theorem gists_eq_singleton {s : String} (hcomma : ',' ∉ s.toList) (hne : s ≠ "") :
    gists s = [gist s] := by
  unfold gists
  rw [segments_eq_singleton hcomma hne]
  rfl

/-- No blank is a comma. -/
theorem comma_not_mem_of_blank {s : String} (h : ∀ c ∈ s.toList, isBlank c) : ',' ∉ s.toList :=
  fun hmem => absurd (h ',' hmem) (by decide)

/-- A difference leaves the gists as they are. -/
theorem Varies.gists_eq {s t : String} (h : Varies s t) : gists s = gists t := by
  cases h with
  | recase h =>
    have hname : foldCase s = foldCase t := sameName_iff_forall₂.mpr h
    rw [← gists_foldCase s, hname, gists_foldCase]
  | pad before after hcomma hne hleft hright =>
    rename_i segment left right
    have hpadded : ',' ∉ (left ++ segment ++ right).toList := by
      simp [comma_not_mem_of_blank hleft, comma_not_mem_of_blank hright, hcomma]
    have hpaddedne : left ++ segment ++ right ≠ "" := by simp [hne]
    have hgist : gist (left ++ segment ++ right) = gist segment :=
      congrArg foldCase (trim_pad hleft hright)
    rw [gists_join, gists_join, List.flatMap_append, List.flatMap_append, List.flatMap_cons,
      List.flatMap_cons, gists_eq_singleton hcomma hne, gists_eq_singleton hpadded hpaddedne, hgist]
  | space before after =>
    have hnone : gists "" = [] := by simp [gists]
    rw [gists_join, gists_join, List.flatMap_append, List.flatMap_append, List.flatMap_cons, hnone,
      List.nil_append]

/-- Variants have the same gists. -/
theorem Variants.gists_eq {s t : String} (h : Variants s t) : gists s = gists t := by
  induction h with
  | rel s t h => exact h.gists_eq
  | refl s => rfl
  | symm s t h ih => exact ih.symm
  | trans s t u hst htu ihst ihtu => exact ihst.trans ihtu

/-! ### Nothing else is left -/

/-- Empty parts may be dropped. -/
theorem variants_filter (before parts : List String) :
    Variants (join (before ++ parts)) (join (before ++ parts.filter (· ≠ ""))) := by
  induction parts generalizing before with
  | nil => exact .refl _
  | cons part rest ih =>
    by_cases hempty : part = ""
    · subst hempty
      rw [List.filter_cons_of_neg (by simp)]
      exact .trans _ _ _ (.symm _ _ (.rel _ _ (.space before rest))) (ih before)
    · rw [List.filter_cons_of_pos (by simpa using hempty), List.append_cons before part rest,
        List.append_cons before part (rest.filter _)]
      exact ih (before ++ [part])

/-- Every text is a variant of its own segments with commas between them. -/
theorem variants_join_segments (s : String) : Variants s (join (segments s)) := by
  obtain ⟨parts, rfl, hcomma⟩ := exists_parts s
  rw [segments_join hcomma]
  exact variants_filter [] parts

/-- Only blanks are trimmed away altogether. -/
theorem isBlank_of_trim_eq_empty {s : String} (h : trim s = "") : ∀ c ∈ s.toList, isBlank c := by
  obtain ⟨left, right, hs, hleft, hright⟩ := exists_eq_pad_trim s
  rw [h, String.append_empty] at hs
  rw [hs, String.toList_append]
  intro c hc
  exact (List.mem_append.mp hc).elim (hleft c) (hright c)

/-- A segment may be replaced by what is left of it when it is trimmed, if that
    is anything. -/
theorem variants_trim {s : String} (hcomma : ',' ∉ s.toList) (hne : trim s ≠ "")
    (before after : List String) :
    Variants (join (before ++ trim s :: after)) (join (before ++ s :: after)) := by
  obtain ⟨left, right, hs, hleft, hright⟩ := exists_eq_pad_trim s
  have htrim : ',' ∉ (trim s).toList := by
    intro hmem
    apply hcomma
    rw [hs, String.toList_append, String.toList_append]
    exact List.mem_append_left _ (List.mem_append_right _ hmem)
  have hpad := Varies.pad before after htrim hne hleft hright
  rw [← hs] at hpad
  exact .rel _ _ hpad

/-- Segments of the same gist may be exchanged. -/
theorem variants_of_gist_eq {s t : String} (hs : ',' ∉ s.toList ∧ s ≠ "")
    (ht : ',' ∉ t.toList ∧ t ≠ "") (h : gist s = gist t) (before after : List String) :
    Variants (join (before ++ s :: after)) (join (before ++ t :: after)) := by
  have hempty : trim s = "" ↔ trim t = "" := by
    rw [← foldCase_eq_empty_iff, ← foldCase_eq_empty_iff (s := trim t)]
    exact Eq.congr_left h
  by_cases hblank : trim s = ""
  · -- Two blank segments are both made of a longer one by taking blanks away.
    have hs' := isBlank_of_trim_eq_empty hblank
    have ht' := isBlank_of_trim_eq_empty (hempty.mp hblank)
    have hboth : Varies (join (before ++ s :: after)) (join (before ++ ("" ++ s ++ t) :: after)) :=
      .pad before after hs.1 hs.2 (by simp) ht'
    have hboth' : Varies (join (before ++ t :: after)) (join (before ++ (s ++ t ++ "") :: after)) :=
      .pad before after ht.1 ht.2 hs' (by simp)
    rw [String.empty_append] at hboth
    rw [String.append_empty] at hboth'
    exact .trans _ _ _ (.rel _ _ hboth) (.symm _ _ (.rel _ _ hboth'))
  · have hcase : SameName (join (before ++ trim s :: after)) (join (before ++ trim t :: after)) := by
      have hgist : foldCase (trim s) = foldCase (trim t) := h
      unfold SameName
      rw [foldCase_join, foldCase_join, List.map_append, List.map_append, List.map_cons,
        List.map_cons, hgist]
    exact .trans _ _ _ (.symm _ _ (variants_trim hs.1 hblank before after))
      (.trans _ _ _ (.rel _ _ (.recase (sameName_iff_forall₂.mp hcase)))
        (variants_trim ht.1 (mt hempty.mpr hblank) before after))

theorem variants_join_of_gists {ss ts : List String} (hss : ∀ s ∈ ss, ',' ∉ s.toList ∧ s ≠ "")
    (hts : ∀ t ∈ ts, ',' ∉ t.toList ∧ t ≠ "") (h : ss.map gist = ts.map gist)
    (before : List String) : Variants (join (before ++ ss)) (join (before ++ ts)) := by
  induction ss generalizing ts before with
  | nil =>
    obtain rfl : ts = [] := List.map_eq_nil_iff.mp h.symm
    exact .refl _
  | cons s ss ih =>
    obtain ⟨t, ts, rfl, hgist, hgists⟩ := List.map_eq_cons_iff.mp h.symm
    obtain ⟨hs, hss⟩ := List.forall_mem_cons.mp hss
    obtain ⟨ht, hts⟩ := List.forall_mem_cons.mp hts
    -- First the one segment is exchanged, then the rest behind it.
    have hrest := ih hss hts hgists.symm (before ++ [t])
    rw [← List.append_cons, ← List.append_cons] at hrest
    exact .trans _ _ _ (variants_of_gist_eq hs ht hgist.symm before ss) hrest

theorem mem_segments {s segment : String} (h : segment ∈ segments s) :
    ',' ∉ segment.toList ∧ segment ≠ "" := by
  refine ⟨comma_not_mem_of_mem_segments h, ?_⟩
  obtain ⟨parts, rfl, hcomma⟩ := exists_parts s
  rw [segments_join hcomma] at h
  simpa using (List.mem_filter.mp h).2

/-- **The gists are all that variants share.** A text is a variant of another
    just if the gists of their segments are the same, in the same order. -/
theorem variants_iff {s t : String} : Variants s t ↔ gists s = gists t := by
  constructor
  · exact Variants.gists_eq
  · intro h
    exact .trans _ _ _ (variants_join_segments s)
      (.trans _ _ _
        (variants_join_of_gists (fun _ => mem_segments) (fun _ => mem_segments) h [])
        (.symm _ _ (variants_join_segments t)))

end RowOrder.Text
