import Mathlib.Data.Option.Basic
import RowOrder.Json.Printer
import RowOrder.Json.Reader

/-! # JSON strings, written and read

    A string that was written is read back unit by unit, whatever its
    characters: what stands in it for a quote, a backslash or a control is no
    quote, backslash or control itself, so the string ends where it was made to
    end.
-/

namespace RowOrder.Json

/-! ### Hexadecimal digits -/

theorem hexDigit?_digitChar {d : Nat} (h : d < 16) : hexDigit? (Nat.digitChar d) = some d := by
  have hall : ∀ d : Fin 16, hexDigit? (Nat.digitChar d.val) = some d.val := by decide
  exact hall ⟨d, h⟩

/-- Four digits are enough for the numbers that an escape can write. -/
theorem readUnits_hex4 {n : Nat} (h : n < 0x10000) (cs : List Char) :
    readUnits ('\\' :: 'u' :: hex4 n ++ cs) =
      (readUnits cs).map fun read => (.ofNat n :: read.1, read.2) := by
  have hdigits : hex4? (Nat.digitChar (n / 0x1000 % 16)) (Nat.digitChar (n / 0x100 % 16))
      (Nat.digitChar (n / 0x10 % 16)) (Nat.digitChar (n % 16)) = some n := by
    have hpos : n / 0x1000 % 16 * 0x1000 + n / 0x100 % 16 * 0x100 + n / 0x10 % 16 * 0x10 + n % 16 =
        n := by omega
    simp only [hex4?, hexDigit?_digitChar (Nat.mod_lt _ (by decide : 0 < 16))]
    exact congrArg some hpos
  simp only [hex4, List.cons_append, List.nil_append, readUnits, hdigits]
  cases readUnits cs <;> rfl

/-! ### Units -/

namespace StringUnit

theorem ofNat_toNat (c : Char) : ofNat c.toNat = .char c := by
  have hvalid : ¬ (0xd800 ≤ c.toNat ∧ c.toNat < 0xe000) := by
    have h := c.valid
    unfold UInt32.isValidChar Nat.isValidChar at h
    show ¬ (0xd800 ≤ c.val.toNat ∧ c.val.toNat < 0xe000)
    omega
  rw [ofNat, dif_neg hvalid, Char.ofNat_toNat]

theorem ofNat_half (h : Fin 0x800) : ofNat (0xd800 + h.val) = .half h := by
  have hrange : 0xd800 ≤ 0xd800 + h.val ∧ 0xd800 + h.val < 0xe000 := by omega
  rw [ofNat, dif_pos hrange]
  simp

end StringUnit

/-- Everything that may stand for a character in a string. -/
theorem render_char_cases (c : Char) :
    (∃ letter, letter ≠ 'u' ∧ escape? letter = some c ∧
      StringUnit.render (.char c) = ['\\', letter]) ∨
    (c.toNat < 0x20 ∧ StringUnit.render (.char c) = '\\' :: 'u' :: hex4 c.toNat) ∨
    (c ≠ '"' ∧ c ≠ '\\' ∧ 0x20 ≤ c.toNat ∧ StringUnit.render (.char c) = [c]) := by
  unfold StringUnit.render
  split
  case h_8 hchar =>
    -- No short escape stands for the character.
    obtain rfl := StringUnit.char.inj hchar
    by_cases hcontrol : c.toNat < 0x20
    · exact .inr (.inl ⟨hcontrol, if_pos hcontrol⟩)
    · refine .inr (.inr ⟨?_, ?_, Nat.le_of_not_lt hcontrol, if_neg hcontrol⟩) <;> grind
  case h_9 => contradiction
  all_goals
    rename_i hchar
    obtain rfl := StringUnit.char.inj hchar
    exact .inl ⟨_, by decide, rfl, rfl⟩

theorem readUnits_escape {letter c : Char} (hletter : letter ≠ 'u')
    (hescape : escape? letter = some c) (cs : List Char) :
    readUnits ('\\' :: letter :: cs) =
      (readUnits cs).map fun read => (.char c :: read.1, read.2) := by
  rw [readUnits]
  · rw [hescape]
    cases readUnits cs <;> rfl
  · simp [hletter]

theorem readUnits_plain {c : Char} (hquote : c ≠ '"') (hbackslash : c ≠ '\\')
    (hcontrol : 0x20 ≤ c.toNat) (cs : List Char) :
    readUnits (c :: cs) = (readUnits cs).map fun read => (.char c :: read.1, read.2) := by
  have hplain : (guard (c ≠ '\\' ∧ 0x20 ≤ c.toNat) : Option Unit) = some () :=
    if_pos ⟨hbackslash, hcontrol⟩
  rw [readUnits]
  · rw [hplain]
    cases readUnits cs <;> rfl
  all_goals grind

/-- One unit is read back, whatever follows it. -/
theorem readUnits_render (u : StringUnit) (cs : List Char) :
    readUnits (u.render ++ cs) = (readUnits cs).map fun read => (u :: read.1, read.2) := by
  cases u with
  | half h => rw [StringUnit.render, readUnits_hex4 (by omega), StringUnit.ofNat_half]
  | char c =>
    obtain ⟨letter, hletter, hescape, hrender⟩ | ⟨hcontrol, hrender⟩ |
      ⟨hquote, hbackslash, hcontrol, hrender⟩ := render_char_cases c
    · rw [hrender]
      exact readUnits_escape hletter hescape cs
    · rw [hrender, readUnits_hex4 (by omega), StringUnit.ofNat_toNat]
    · rw [hrender]
      exact readUnits_plain hquote hbackslash hcontrol cs

/-! ### Strings -/

/-- A string is read back up to and with its closing quote. -/
theorem readUnits_flatMap_render (units : List StringUnit) (cs : List Char) :
    readUnits (units.flatMap StringUnit.render ++ '"' :: cs) = some (units, cs) := by
  induction units with
  | nil => rfl
  | cons u rest ih => rw [List.flatMap_cons, List.append_assoc, readUnits_render, ih, Option.map_some]

/-! ### The text of a string -/

namespace StringUnit

theorem le_toNat_paired {high low : Fin 0x800} (h : high.val < 0x400 ∧ 0x400 ≤ low.val) :
    0x10000 ≤ (paired high low).toNat := by
  have hvalid : (0x10000 + high.val * 0x400 + (low.val - 0x400)).isValidChar :=
    .inr ⟨by omega, by omega⟩
  have hpaired : (paired high low).toNat = 0x10000 + high.val * 0x400 + (low.val - 0x400) := by
    rw [paired, Char.ofNat, dif_pos hvalid]
    rfl
  omega

/-- Halves stand only for characters from 0x10000 on. -/
theorem eq_map_char_of_chars?_eq_some {units : List StringUnit} {cs : List Char}
    (h : chars? units = some cs) (hcs : ∀ c ∈ cs, c.toNat < 0x10000) : units = cs.map .char := by
  induction units using chars?.induct generalizing cs with
  | case1 =>
    obtain rfl := Option.some.inj h
    rfl
  | case2 c rest ih =>
    rw [chars?, Option.map_eq_some_iff] at h
    obtain ⟨others, hrest, rfl⟩ := h
    rw [List.map_cons, ← ih hrest fun d hd => hcs d (List.mem_cons_of_mem _ hd)]
  | case3 high low rest hpair ih =>
    rw [chars?, if_pos hpair, Option.map_eq_some_iff] at h
    obtain ⟨others, -, rfl⟩ := h
    exact absurd (hcs _ List.mem_cons_self) (Nat.not_lt.mpr (le_toNat_paired hpair))
  | case4 high low rest hpair =>
    rw [chars?, if_neg hpair] at h
    contradiction
  | case5 high rest hlow =>
    rw [chars?] at h
    · contradiction
    · exact hlow

/-- A text whose characters each take one unit is the text of one string. -/
theorem text?_eq_some_iff {units : List StringUnit} {s : String}
    (hs : ∀ c ∈ s.toList, c.toNat < 0x10000) : text? units = some s ↔ units = ofText s := by
  refine ⟨fun h => ?_, fun h => h ▸ text?_ofText s⟩
  rw [text?, Option.map_eq_some_iff] at h
  obtain ⟨cs, hchars, rfl⟩ := h
  rw [String.toList_ofList] at hs
  rw [ofText, String.toList_ofList]
  exact eq_map_char_of_chars?_eq_some hchars hs

end StringUnit

end RowOrder.Json
