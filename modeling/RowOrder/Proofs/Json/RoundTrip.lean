import Mathlib.Data.List.TakeWhile
import RowOrder.Proofs.Json.Numerals
import RowOrder.Proofs.Json.Strings

/-! # JSON values, written and read

    The compact text of a value is read back as that value, whatever it holds
    and however deep it is nested, and nothing of what follows the value is
    read with it.

    The induction is on the value. What it needs of a list of elements or
    members is that each value in the list is read back wherever it stands
    (`ReadsBack`). Two calls for each character are enough, because of two
    calls of which one makes the other, one reads a character first.
-/

namespace RowOrder.Json

variable {cs : List Char}

/-! ### The first character -/

theorem skipSpace_cons {c : Char} (h : isSpace c = false) (cs : List Char) :
    skipSpace (c :: cs) = c :: cs := by
  rw [skipSpace, List.dropWhile_cons_of_neg (by simp [h])]

theorem isSpace_eq_false_of_starts_numeral {c : Char} (h : c = '-' ∨ c.isDigit) :
    isSpace c = false ∧ c ≠ ']' := by
  constructor
  · cases hspace : isSpace c with
    | false => rfl
    | true =>
      simp only [isSpace, Bool.or_eq_true, decide_eq_true_eq] at hspace
      obtain ((rfl | rfl) | rfl) | rfl := hspace <;> exact absurd h (by decide)
  · rintro rfl
    exact absurd h (by decide)

/-- A value starts with no blank, and not as an array ends. -/
theorem exists_renderValue_cons (j : Json) :
    ∃ c rest, renderValue j = c :: rest ∧ isSpace c = false ∧ c ≠ ']' := by
  match j with
  | .number n =>
    obtain ⟨c, rest, hn, hc⟩ := n.exists_render_cons
    exact ⟨c, rest, by rw [renderValue, hn], isSpace_eq_false_of_starts_numeral hc⟩
  | .null => exact ⟨_, _, rfl, by decide⟩
  | .bool true => exact ⟨_, _, rfl, by decide⟩
  | .bool false => exact ⟨_, _, rfl, by decide⟩
  | .string _ => exact ⟨_, _, rfl, by decide⟩
  | .array [] => exact ⟨_, _, rfl, by decide⟩
  | .array (_ :: _) => exact ⟨_, _, rfl, by decide⟩
  | .object [] => exact ⟨_, _, rfl, by decide⟩
  | .object (_ :: _) => exact ⟨_, _, rfl, by decide⟩

/-! ### What a reader does, once its first character is known -/

theorem readValue_number (bound : Nat) (n : Numeral) (hcs : EndsNumeral cs) :
    readValue (bound + 1) (n.render ++ cs) = some (.number n, cs) := by
  obtain ⟨c, rest, hn, hc⟩ := n.exists_render_cons
  have hread := readNumeral_render n hcs
  rw [hn, List.cons_append] at hread ⊢
  rw [readValue, skipSpace_cons (isSpace_eq_false_of_starts_numeral hc).1]
  split
  case h_7 =>
    rw [hread]
    rfl
  all_goals
    -- No other value starts as a number does.
    rename_i h
    obtain rfl := (List.cons.inj h).1
    exact absurd hc (by decide)

theorem readValue_string (bound : Nat) (units : List StringUnit) (cs : List Char) :
    readValue (bound + 1) (renderUnits units ++ cs) = some (.string units, cs) := by
  have hread := readUnits_flatMap_render units cs
  simp (disch := decide) only [renderUnits, List.cons_append, List.append_assoc, List.nil_append,
    readValue, skipSpace_cons, hread]
  rfl

theorem readValue_array (bound : Nat) {c : Char} (hspace : isSpace c = false) (hend : c ≠ ']')
    (rest : List Char) :
    readValue (bound + 1) ('[' :: c :: rest) =
      (readElements bound (c :: rest)).map fun read => (.array read.1, read.2) := by
  simp (disch := decide) only [readValue, skipSpace_cons, skipSpace_cons hspace]
  split
  case h_1 h => exact absurd (List.cons.inj h).1 hend
  case h_2 => cases readElements bound (c :: rest) <;> rfl

theorem readValue_object (bound : Nat) (rest : List Char) :
    readValue (bound + 1) ('\x7b' :: '"' :: rest) =
      (readMembers bound ('"' :: rest)).map fun read => (.object read.1, read.2) := by
  simp (disch := decide) only [readValue, skipSpace_cons]
  split
  case h_1 h => exact absurd (List.cons.inj h).1 (by decide)
  case h_2 => cases readMembers bound ('"' :: rest) <;> rfl

theorem readElements_last {bound : Nat} {text cs : List Char} {e : Json}
    (h : readValue bound text = some (e, ']' :: cs)) :
    readElements (bound + 1) text = some ([e], cs) := by
  simp (disch := decide) only [readElements, h, skipSpace_cons, Option.bind_eq_bind,
    Option.bind_some, Option.pure_def]

theorem readElements_more {bound : Nat} {text next cs : List Char} {e : Json} {rest : List Json}
    (h : readValue bound text = some (e, ',' :: next))
    (hnext : readElements bound next = some (rest, cs)) :
    readElements (bound + 1) text = some (e :: rest, cs) := by
  simp (disch := decide) only [readElements, h, hnext, skipSpace_cons, Option.bind_eq_bind,
    Option.bind_some, Option.pure_def]

theorem readMembers_last {bound : Nat} {text cs : List Char} {value : Json}
    (key : List StringUnit) (h : readValue bound text = some (value, '\x7d' :: cs)) :
    readMembers (bound + 1) (renderUnits key ++ ':' :: text) = some ([(key, value)], cs) := by
  have hkey := readUnits_flatMap_render key (':' :: text)
  simp (disch := decide) only [renderUnits, List.cons_append, List.append_assoc, List.nil_append,
    readMembers, hkey, h, skipSpace_cons, Option.bind_eq_bind, Option.bind_some, Option.pure_def]

theorem readMembers_more {bound : Nat} {text next cs : List Char} {value : Json}
    {rest : List (List StringUnit × Json)} (key : List StringUnit)
    (h : readValue bound text = some (value, ',' :: next))
    (hnext : readMembers bound next = some (rest, cs)) :
    readMembers (bound + 1) (renderUnits key ++ ':' :: text) =
      some ((key, value) :: rest, cs) := by
  have hkey := readUnits_flatMap_render key (':' :: text)
  simp (disch := decide) only [renderUnits, List.cons_append, List.append_assoc, List.nil_append,
    readMembers, hkey, h, hnext, skipSpace_cons, Option.bind_eq_bind, Option.bind_some,
    Option.pure_def]

/-! ### Elements and members -/

/-- Whether a value is read back wherever its text stands, as long as nothing
    follows that a number would go on with. -/
def ReadsBack (j : Json) : Prop :=
  ∀ bound cs, 2 * (renderValue j).length ≤ bound → (∀ n, j = .number n → EndsNumeral cs) →
    readValue bound (renderValue j ++ cs) = some (j, cs)

theorem endsNumeral_renderElements_append (rest : List Json) (cs : List Char) :
    EndsNumeral (renderElements rest ++ cs) := by
  cases rest with
  | nil => exact endsNumeral_cons (by decide) (by decide) (by decide) _
  | cons e rest => exact endsNumeral_cons (by decide) (by decide) (by decide) _

theorem endsNumeral_renderMembers_append (rest : List (List StringUnit × Json)) (cs : List Char) :
    EndsNumeral (renderMembers rest ++ cs) := by
  cases rest with
  | nil => exact endsNumeral_cons (by decide) (by decide) (by decide) _
  | cons m rest => exact endsNumeral_cons (by decide) (by decide) (by decide) _

/-- Elements that are read back one by one are read back in a list. -/
theorem readElements_render (e : Json) (rest : List Json) (h : ∀ j ∈ e :: rest, ReadsBack j)
    (bound : Nat) (cs : List Char)
    (hbound : 2 * ((renderValue e).length + (renderElements rest).length) < bound) :
    readElements bound (renderValue e ++ (renderElements rest ++ cs)) = some (e :: rest, cs) := by
  induction rest generalizing e bound with
  | nil =>
    obtain ⟨b, rfl⟩ := Nat.exists_eq_add_one.mpr (Nat.zero_lt_of_lt hbound)
    exact readElements_last (h e List.mem_cons_self b _ (by omega)
      fun _ _ => endsNumeral_renderElements_append [] cs)
  | cons next rest ih =>
    obtain ⟨b, rfl⟩ := Nat.exists_eq_add_one.mpr (Nat.zero_lt_of_lt hbound)
    simp only [renderElements, List.length_cons, List.length_append] at hbound
    have hread := h e List.mem_cons_self b (renderElements (next :: rest) ++ cs) (by omega)
      fun _ _ => endsNumeral_renderElements_append _ cs
    have hrest := ih next (fun j hj => h j (List.mem_cons_of_mem _ hj)) b (by omega)
    simp only [renderElements, List.cons_append, List.append_assoc] at hread ⊢
    exact readElements_more hread hrest

/-- Members whose values are read back one by one are read back in a list. -/
theorem readMembers_render (key : List StringUnit) (value : Json)
    (rest : List (List StringUnit × Json)) (h : ∀ m ∈ (key, value) :: rest, ReadsBack m.2)
    (bound : Nat) (cs : List Char)
    (hbound : 2 * ((renderValue value).length + (renderMembers rest).length) < bound) :
    readMembers bound (renderUnits key ++ ':' :: (renderValue value ++
      (renderMembers rest ++ cs))) = some ((key, value) :: rest, cs) := by
  induction rest generalizing key value bound with
  | nil =>
    obtain ⟨b, rfl⟩ := Nat.exists_eq_add_one.mpr (Nat.zero_lt_of_lt hbound)
    exact readMembers_last key (h (key, value) List.mem_cons_self b _ (by dsimp only; omega)
      fun _ _ => endsNumeral_renderMembers_append [] cs)
  | cons next rest ih =>
    obtain ⟨b, rfl⟩ := Nat.exists_eq_add_one.mpr (Nat.zero_lt_of_lt hbound)
    obtain ⟨nextKey, nextValue⟩ := next
    simp only [renderMembers, List.length_cons, List.length_append] at hbound
    have hread := h (key, value) List.mem_cons_self b
      (renderMembers ((nextKey, nextValue) :: rest) ++ cs) (by dsimp only; omega)
      fun _ _ => endsNumeral_renderMembers_append _ cs
    have hrest := ih nextKey nextValue (fun m hm => h m (List.mem_cons_of_mem _ hm)) b (by omega)
    simp only [renderMembers, List.cons_append, List.append_assoc] at hread ⊢
    exact readMembers_more key hread hrest

/-! ### Values -/

/-- No text of a value is empty, so one call may always be made. -/
theorem readsBack_of_succ {j : Json} (h : ∀ b cs, 2 * (renderValue j).length ≤ b + 1 →
    (∀ n, j = .number n → EndsNumeral cs) →
    readValue (b + 1) (renderValue j ++ cs) = some (j, cs)) : ReadsBack j := by
  intro bound cs hbound hcs
  obtain ⟨c, rest, htext, -⟩ := exists_renderValue_cons j
  have hpos : 0 < (renderValue j).length := by
    rw [htext]
    exact Nat.succ_pos _
  obtain ⟨b, rfl⟩ : ∃ b, bound = b + 1 := Nat.exists_eq_add_one.mpr (by omega)
  exact h b cs hbound hcs

theorem readsBack_array (e : Json) (rest : List Json) (h : ∀ j ∈ e :: rest, ReadsBack j) :
    ReadsBack (.array (e :: rest)) := by
  refine readsBack_of_succ fun b cs hbound _ => ?_
  obtain ⟨c, text, htext, hspace, hend⟩ := exists_renderValue_cons e
  simp only [renderValue, List.cons_append, List.length_cons, List.length_append] at hbound
  have hread := readElements_render e rest h b cs (by omega)
  rw [htext, List.cons_append] at hread
  rw [renderValue, List.cons_append, List.cons_append, List.append_assoc, htext, List.cons_append,
    readValue_array b hspace hend, hread, Option.map_some]

theorem readsBack_object (key : List StringUnit) (value : Json)
    (rest : List (List StringUnit × Json)) (h : ∀ m ∈ (key, value) :: rest, ReadsBack m.2) :
    ReadsBack (.object ((key, value) :: rest)) := by
  refine readsBack_of_succ fun b cs hbound _ => ?_
  simp only [renderValue, List.cons_append, List.length_cons, List.length_append] at hbound
  have hread := readMembers_render key value rest h b cs (by omega)
  simp only [renderUnits, List.cons_append, List.append_assoc] at hread
  simp only [renderValue, renderUnits, List.cons_append, List.append_assoc, readValue_object, hread,
    Option.map_some]

/-- Every value is read back. -/
theorem readsBack : ∀ j : Json, ReadsBack j
  | .null => readsBack_of_succ fun _ _ _ _ => rfl
  | .bool true => readsBack_of_succ fun _ _ _ _ => rfl
  | .bool false => readsBack_of_succ fun _ _ _ _ => rfl
  | .number n => readsBack_of_succ fun b _ _ hcs => readValue_number b n (hcs n rfl)
  | .string units => readsBack_of_succ fun b cs _ _ => readValue_string b units cs
  | .array [] => readsBack_of_succ fun _ _ _ _ => rfl
  | .array (e :: rest) => readsBack_array e rest fun j _ => readsBack j
  | .object [] => readsBack_of_succ fun _ _ _ _ => rfl
  | .object ((key, value) :: rest) => readsBack_object key value rest fun m _ => readsBack m.2
termination_by j => sizeOf j
decreasing_by
  · have hlt := List.sizeOf_lt_of_mem ‹j ∈ e :: rest›
    simp only [array.sizeOf_spec]
    omega
  · have hlt := List.sizeOf_lt_of_mem ‹m ∈ (key, value) :: rest›
    obtain ⟨memberKey, member⟩ := m
    simp only [object.sizeOf_spec, Prod.mk.sizeOf_spec] at hlt ⊢
    omega

/-! ### Texts -/

theorem skipSpace_eq_nil_iff : skipSpace cs = [] ↔ cs.all isSpace := by
  rw [skipSpace, List.dropWhile_eq_nil_iff, List.all_eq_true]

/-- After the text of a value nothing but blanks may follow. -/
theorem parse?_render_append (j : Json) (suffix : String)
    (h : ∀ n, j = .number n → EndsNumeral suffix.toList) :
    parse? (j.render ++ suffix) = if suffix.toList.all isSpace then some j else none := by
  have hread := readsBack j (2 * (j.render ++ suffix).length + 1) suffix.toList (by
    rw [String.length_append, render, String.length_ofList]
    omega) h
  have htext : (j.render ++ suffix).toList = renderValue j ++ suffix.toList := by
    rw [String.toList_append, render, String.toList_ofList]
  have hend : (guard (skipSpace suffix.toList = []) : Option Unit) =
      if suffix.toList.all isSpace then some () else none :=
    if_congr skipSpace_eq_nil_iff rfl rfl
  rw [parse?, htext, hread]
  show Option.bind (guard (skipSpace suffix.toList = [])) (fun _ => some j) = _
  rw [hend]
  cases suffix.toList.all isSpace <;> rfl

/-- The compact text of a value is read back as that value. -/
theorem parse?_render (j : Json) : parse? j.render = some j := by
  have hread := parse?_render_append j "" fun _ _ => by simp [EndsNumeral]
  simpa using hread

end RowOrder.Json
