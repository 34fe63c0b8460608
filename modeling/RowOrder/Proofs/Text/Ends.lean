import Mathlib.Data.List.DropRight
import RowOrder.Text.Blank
import RowOrder.Text.Case

/-! # The ends of a text

    What can stand at the front and at the back of a text that was trimmed,
    and what a text shares with every other text of the same name.

    - `trimmed_eq_self_iff`: the texts that trimming leaves as they are are
      those without a blank at either end, and every trimmed text is one.
    - `trimsTo_iff`: what trimming leaves of a text is the one part without a
      blank at either end that has nothing but blanks around it.
    - `SameName` texts agree in every test that does not look at the case of
      ASCII letters: in their ends, their commas and their dashes.
-/

namespace RowOrder.Text

/-! ### Blanks at the ends -/

/-- No blank stands at the front. -/
def NoLeadingBlank (cs : List Char) : Prop := ∀ c ∈ cs.head?, isBlank c = false

/-- No blank stands at the back. -/
def NoTrailingBlank (cs : List Char) : Prop := ∀ c ∈ cs.getLast?, isBlank c = false

instance (cs : List Char) : Decidable (NoLeadingBlank cs) :=
  Option.decidableForallMem cs.head?

instance (cs : List Char) : Decidable (NoTrailingBlank cs) :=
  Option.decidableForallMem cs.getLast?

theorem noLeadingBlank_dropWhile (cs : List Char) : NoLeadingBlank (cs.dropWhile isBlank) := by
  intro c hc
  have h := List.head?_dropWhile_not isBlank cs
  rw [Option.mem_def.mp hc] at h
  exact h

theorem noTrailingBlank_reverse {cs : List Char} :
    NoTrailingBlank cs.reverse ↔ NoLeadingBlank cs := by
  unfold NoTrailingBlank NoLeadingBlank
  rw [List.getLast?_reverse]

theorem noTrailingBlank_trimmed (cs : List Char) : NoTrailingBlank (trimmed cs) :=
  noTrailingBlank_reverse.mpr (noLeadingBlank_dropWhile _)

theorem noLeadingBlank_trimmed (cs : List Char) : NoLeadingBlank (trimmed cs) := by
  intro c hc
  -- Trimming the back keeps a front part of what trimming the front left.
  have hprefix : trimmed cs <+: cs.dropWhile isBlank :=
    List.rdropWhile_prefix isBlank _
  obtain ⟨rest, hrest⟩ := hprefix
  apply noLeadingBlank_dropWhile cs
  rw [← hrest, List.head?_append, Option.mem_def.mp hc]
  rfl

theorem dropWhile_isBlank_eq_self {cs : List Char} (h : NoLeadingBlank cs) :
    cs.dropWhile isBlank = cs := by
  cases cs with
  | nil => rfl
  | cons c rest =>
    have hc : isBlank c = false := h c rfl
    exact List.dropWhile_cons_of_neg (by simp [hc])

/-- Trimming leaves a text as it is just if no blank stands at either end. -/
theorem trimmed_eq_self_iff {cs : List Char} :
    trimmed cs = cs ↔ NoLeadingBlank cs ∧ NoTrailingBlank cs := by
  constructor
  · intro h
    rw [← h]
    exact ⟨noLeadingBlank_trimmed cs, noTrailingBlank_trimmed cs⟩
  · rintro ⟨hfront, hback⟩
    have hreverse : NoLeadingBlank cs.reverse := by
      rw [← noTrailingBlank_reverse, List.reverse_reverse]
      exact hback
    unfold trimmed
    rw [dropWhile_isBlank_eq_self hfront, dropWhile_isBlank_eq_self hreverse,
      List.reverse_reverse]

/-! ### What trimming takes off -/

/-- `TrimsTo s t` says that `t` is what is left of `s` without the blanks at
    its ends. -/
def TrimsTo (s t : String) : Prop :=
  ∃ left right, s = left ++ t ++ right ∧ (∀ c ∈ left.toList, isBlank c) ∧
    (∀ c ∈ right.toList, isBlank c) ∧ NoLeadingBlank t.toList ∧ NoTrailingBlank t.toList

/-- Blanks in front are removed, whatever follows them. -/
theorem trimmed_append_of_blank {left cs : List Char} (h : ∀ c ∈ left, isBlank c) :
    trimmed (left ++ cs) = trimmed cs := by
  unfold trimmed
  rw [List.dropWhile_append_of_pos h]

/-- Blanks at the back are removed, whatever stands before them. -/
theorem trimmed_append_blank {cs right : List Char} (h : ∀ c ∈ right, isBlank c) :
    trimmed (cs ++ right) = trimmed cs := by
  have hreverse : ∀ c ∈ right.reverse, isBlank c := fun c hc => h c (List.mem_reverse.mp hc)
  unfold trimmed
  rw [List.dropWhile_append]
  split
  · -- All is blank, and nothing is left of it in either case.
    rename_i hempty
    rw [List.isEmpty_iff.mp hempty, List.dropWhile_eq_nil_iff.mpr h]
  · rw [List.reverse_append, List.dropWhile_append_of_pos hreverse]

theorem trim_pad {left segment right : String} (hleft : ∀ c ∈ left.toList, isBlank c)
    (hright : ∀ c ∈ right.toList, isBlank c) : trim (left ++ segment ++ right) = trim segment := by
  apply String.toList_injective
  rw [toList_trim, toList_trim, String.toList_append, String.toList_append,
    trimmed_append_blank hright, trimmed_append_of_blank hleft]

/-- What is trimmed off a text is blank. -/
theorem exists_eq_pad_trim (s : String) :
    ∃ left right, s = left ++ trim s ++ right ∧ (∀ c ∈ left.toList, isBlank c) ∧
      ∀ c ∈ right.toList, isBlank c := by
  let rest := s.toList.dropWhile isBlank
  refine ⟨String.ofList (s.toList.takeWhile isBlank),
    String.ofList (rest.reverse.takeWhile isBlank).reverse, ?_, ?_, ?_⟩
  · apply String.toList_injective
    have hback : (rest.reverse.dropWhile isBlank).reverse ++
        (rest.reverse.takeWhile isBlank).reverse = rest := by
      rw [← List.reverse_append, List.takeWhile_append_dropWhile, List.reverse_reverse]
    simp only [String.toList_append, String.toList_ofList, toList_trim, trimmed]
    rw [List.append_assoc, hback, List.takeWhile_append_dropWhile]
  · intro c hc
    rw [String.toList_ofList] at hc
    exact List.mem_takeWhile_imp hc
  · intro c hc
    rw [String.toList_ofList, List.mem_reverse] at hc
    exact List.mem_takeWhile_imp hc

/-- Trimming leaves one text, the one between the blanks at the ends. -/
theorem trimsTo_iff {s t : String} : TrimsTo s t ↔ t = trim s := by
  constructor
  · rintro ⟨left, right, rfl, hleft, hright, hfront, hback⟩
    rw [trim_pad hleft hright, trim, trimmed_eq_self_iff.mpr ⟨hfront, hback⟩, String.ofList_toList]
  · rintro rfl
    obtain ⟨left, right, hs, hleft, hright⟩ := exists_eq_pad_trim s
    refine ⟨left, right, hs, hleft, hright, ?_, ?_⟩
    · rw [toList_trim]
      exact noLeadingBlank_trimmed s.toList
    · rw [toList_trim]
      exact noTrailingBlank_trimmed s.toList

/-! ### Tests that do not look at case -/

/-- A test that gives a capital and its small letter the same answer. -/
def Caseless (p : Char → Bool) : Prop := ∀ c : Char, p c.toLower = p c

/-- The ASCII letters by their code points. -/
theorem isAlpha_iff {c : Char} :
    c.isAlpha ↔ 65 ≤ c.toNat ∧ c.toNat ≤ 90 ∨ 97 ≤ c.toNat ∧ c.toNat ≤ 122 := by
  show (decide (c.val ≥ 'A'.val ∧ c.val ≤ 'Z'.val) ||
    (decide (c.val ≥ 'a'.val) && decide (c.val ≤ 'z'.val))) = true ↔ _
  simp only [Bool.or_eq_true, Bool.and_eq_true, decide_eq_true_eq, ge_iff_le,
    UInt32.le_iff_toNat_le]
  rfl

/-- To make a letter small moves a capital 32 places up. -/
theorem toNat_toLower (c : Char) :
    c.toLower.toNat = if 65 ≤ c.toNat ∧ c.toNat ≤ 90 then c.toNat + 32 else c.toNat := by
  by_cases hcapital : 65 ≤ c.toNat ∧ c.toNat ≤ 90
  · have hval : c.val ≥ 'A'.val ∧ c.val ≤ 'Z'.val :=
      ⟨UInt32.le_iff_toNat_le.mpr hcapital.1, UInt32.le_iff_toNat_le.mpr hcapital.2⟩
    have hlower : c.toLower = ⟨c.val + ('a'.val - 'A'.val), _⟩ := dif_pos hval
    rw [if_pos hcapital, hlower]
    show (c.toNat + 32) % 2 ^ 32 = c.toNat + 32
    omega
  · have hval : ¬ (c.val ≥ 'A'.val ∧ c.val ≤ 'Z'.val) := fun h =>
      hcapital ⟨UInt32.le_iff_toNat_le.mp h.1, UInt32.le_iff_toNat_le.mp h.2⟩
    have hlower : c.toLower = c := dif_neg hval
    rw [if_neg hcapital, hlower]

theorem toLower_eq_or_isAlpha (c : Char) : c.toLower = c ∨ c.isAlpha ∧ c.toLower.isAlpha := by
  simp only [← Char.toNat_inj, isAlpha_iff, toNat_toLower]
  grind

/-- A test that no ASCII letter passes does not look at case. -/
theorem caseless_of_not_isAlpha {p : Char → Bool} (h : ∀ c : Char, c.isAlpha → p c = false) :
    Caseless p := by
  intro c
  rcases toLower_eq_or_isAlpha c with heq | ⟨hc, hlower⟩
  · rw [heq]
  · rw [h c hc, h c.toLower hlower]

theorem isBlank_eq_false_of_isAlpha {c : Char} (h : c.isAlpha) : isBlank c = false := by
  have hletter := isAlpha_iff.mp h
  simp [isBlank, blankRanges]
  omega

theorem caseless_isBlank : Caseless isBlank :=
  caseless_of_not_isAlpha fun _ => isBlank_eq_false_of_isAlpha

/-- To be one character that is no letter is a test that does not look at case. -/
theorem caseless_beq {d : Char} (h : d.isAlpha = false) : Caseless (· == d) := by
  apply caseless_of_not_isAlpha
  intro c hc
  rw [beq_eq_false_iff_ne]
  rintro rfl
  rw [h] at hc
  exact Bool.false_ne_true hc

/-! ### Texts of the same name -/

/-- Texts of the same name agree character by character, apart from case. -/
theorem sameName_iff {s t : String} :
    SameName s t ↔ s.toList.map Char.toLower = t.toList.map Char.toLower := by
  unfold SameName foldCase
  rw [← String.toList_map, ← String.toList_map, String.toList_inj]

namespace SameName

variable {s t : String} {p : Char → Bool}

/-- The outcomes of a test that does not look at case, character by character. -/
theorem map_caseless (h : SameName s t) (hp : Caseless p) : s.toList.map p = t.toList.map p := by
  have hlower : ∀ u : String, u.toList.map p = (u.toList.map Char.toLower).map p := by
    intro u
    rw [List.map_map]
    exact List.map_congr_left fun c _ => (hp c).symm
  rw [hlower s, hlower t, sameName_iff.mp h]

theorem any_caseless (h : SameName s t) (hp : Caseless p) : s.toList.any p = t.toList.any p := by
  have hmap := congrArg (fun l : List Bool => l.any id) (h.map_caseless hp)
  simpa [List.any_map] using hmap

theorem head?_caseless (h : SameName s t) (hp : Caseless p) :
    s.toList.head?.map p = t.toList.head?.map p := by
  rw [← List.head?_map, ← List.head?_map, h.map_caseless hp]

theorem getLast?_caseless (h : SameName s t) (hp : Caseless p) :
    s.toList.getLast?.map p = t.toList.getLast?.map p := by
  rw [← List.getLast?_map, ← List.getLast?_map, h.map_caseless hp]

theorem noLeadingBlank_iff (h : SameName s t) :
    NoLeadingBlank s.toList ↔ NoLeadingBlank t.toList := by
  have hhead := h.head?_caseless caseless_isBlank
  unfold NoLeadingBlank
  cases hs : s.toList.head? <;> cases ht : t.toList.head? <;> simp_all

theorem noTrailingBlank_iff (h : SameName s t) :
    NoTrailingBlank s.toList ↔ NoTrailingBlank t.toList := by
  have hlast := h.getLast?_caseless caseless_isBlank
  unfold NoTrailingBlank
  cases hs : s.toList.getLast? <;> cases ht : t.toList.getLast? <;> simp_all

theorem head?_eq_iff (h : SameName s t) {d : Char} (hd : d.isAlpha = false) :
    s.toList.head? = some d ↔ t.toList.head? = some d := by
  have hhead := h.head?_caseless (caseless_beq hd)
  cases hs : s.toList.head? <;> cases ht : t.toList.head? <;> simp_all

theorem mem_iff (h : SameName s t) {d : Char} (hd : d.isAlpha = false) :
    d ∈ s.toList ↔ d ∈ t.toList := by
  have hmem : ∀ u : String, d ∈ u.toList ↔ u.toList.any (· == d) = true := by
    intro u
    simp
  rw [hmem s, hmem t, h.any_caseless (caseless_beq hd)]

end SameName

end RowOrder.Text
