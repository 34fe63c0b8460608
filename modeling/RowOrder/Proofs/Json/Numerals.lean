import RowOrder.Json.Printer
import RowOrder.Json.Reader

/-! # JSON numbers, written and read

    A number has no mark at its end: it goes on as long as it can. So it is read
    back if what follows it is nothing that could be part of it
    (`EndsNumeral`), and in a JSON text nothing else ever follows a number.
-/

namespace RowOrder.Json

/-! ### What may follow -/

/-- Whether no digit follows. -/
def EndsDigits (cs : List Char) : Prop := ∀ c ∈ cs.head?, ¬ c.isDigit

/-- Whether nothing follows that could be part of a number. -/
def EndsNumeral (cs : List Char) : Prop :=
  ∀ c ∈ cs.head?, ¬ c.isDigit ∧ c ≠ '.' ∧ c ≠ 'e' ∧ c ≠ 'E'

variable {cs : List Char}

theorem EndsNumeral.endsDigits (h : EndsNumeral cs) : EndsDigits cs := fun c hc => (h c hc).1

theorem endsNumeral_cons {c : Char} (hdigit : ¬ c.isDigit) (hpoint : c ≠ '.')
    (hmark : c ≠ 'e' ∧ c ≠ 'E') (cs : List Char) : EndsNumeral (c :: cs) := by
  intro d hd
  obtain rfl : c = d := by simpa using hd
  exact ⟨hdigit, hpoint, hmark⟩

/-! ### Digits -/

/-- Digits are read as far as they go. -/
theorem readDigits_append {digits : List Char} (hne : digits ≠ [])
    (hdigits : ∀ c ∈ digits, c.isDigit) (hcs : EndsDigits cs) :
    readDigits (digits ++ cs) = some (digits, cs) := by
  have hnone : cs.takeWhile Char.isDigit = [] ∧ cs.dropWhile Char.isDigit = cs := by
    cases cs with
    | nil => exact ⟨rfl, rfl⟩
    | cons c rest =>
      have hc : ¬ c.isDigit := hcs c rfl
      exact ⟨List.takeWhile_cons_of_neg hc, List.dropWhile_cons_of_neg hc⟩
  unfold readDigits
  rw [List.takeWhile_append_of_pos hdigits, List.dropWhile_append_of_pos hdigits, hnone.1, hnone.2,
    List.append_nil]
  split
  · contradiction
  · rfl

theorem isDigit_toDigits (n : Nat) : ∀ c ∈ Nat.toDigits 10 n, c.isDigit :=
  fun _ hc => Nat.isDigit_of_mem_toDigits (by decide) (by decide) hc

theorem readDigits_toDigits (n : Nat) (hcs : EndsDigits cs) :
    readDigits (Nat.toDigits 10 n ++ cs) = some (Nat.toDigits 10 n, cs) :=
  readDigits_append Nat.toDigits_ne_nil (isDigit_toDigits n) hcs

/-- Digits are written for every number, and the first one is a zero for the
    number zero only. -/
theorem exists_toDigits_cons (n : Nat) :
    ∃ d rest, Nat.toDigits 10 n = d :: rest ∧ d.isDigit ∧ (0 < n → d ≠ '0') := by
  induction n using Nat.strongRecOn with
  | _ n ih =>
    rw [Nat.toDigits_eq_if (by decide : 1 < 10)]
    by_cases hn : n < 10
    · have hall : ∀ d : Fin 10, (Nat.digitChar d.val).isDigit ∧
          (0 < d.val → Nat.digitChar d.val ≠ '0') := by decide
      rw [if_pos hn]
      exact ⟨_, _, rfl, hall ⟨n, hn⟩⟩
    · obtain ⟨d, rest, hd, hdigit, hzero⟩ := ih (n / 10) (by omega)
      rw [if_neg hn, hd]
      exact ⟨d, _, rfl, hdigit, fun _ => hzero (by omega)⟩

theorem head?_toDigits_append_ne (n : Nat) (cs : List Char) {c : Char} (hc : ¬ c.isDigit) :
    (Nat.toDigits 10 n ++ cs).head? ≠ some c := by
  obtain ⟨d, rest, hn, hdigit, -⟩ := exists_toDigits_cons n
  rw [hn, List.cons_append, List.head?_cons]
  exact fun h => hc (Option.some.inj h ▸ hdigit)

theorem toDigits_ne_zero_cons (n : Nat) (d : Char) (rest : List Char) :
    Nat.toDigits 10 n ≠ '0' :: d :: rest := by
  intro h
  obtain ⟨first, others, hn, -, hzero⟩ := exists_toDigits_cons n
  by_cases hpos : 0 < n
  · exact hzero hpos (List.cons.inj (hn.symm.trans h)).1
  · obtain rfl : n = 0 := by omega
    exact absurd h (by simp)

theorem readWhole_toDigits (n : Nat) (hcs : EndsDigits cs) :
    readWhole (Nat.toDigits 10 n ++ cs) = some (n, cs) := by
  simp only [readWhole, readDigits_toDigits n hcs, Option.bind_eq_bind, Option.bind_some]
  split
  case h_1 h => exact absurd (Prod.mk.inj h).1 (toDigits_ne_zero_cons n _ _)
  case h_2 h =>
    obtain ⟨rfl, rfl⟩ := Prod.mk.inj h
    rw [Nat.ofDigitChars_ten_toDigits]
    rfl

/-! ### The parts of a number -/

/-- The point and the digits after it, as they are written. -/
def pointed (fraction : List (Fin 10)) : List Char :=
  if fraction = [] then [] else '.' :: fraction.map fun d => Nat.digitChar d.val

/-- The exponent, as it is written. -/
def powered : Option Int → List Char
  | none => []
  | some (.ofNat k) => 'e' :: Nat.toDigits 10 k
  | some (.negSucc k) => 'e' :: '-' :: Nat.toDigits 10 (k + 1)

theorem Numeral.render_eq (n : Numeral) :
    n.render = (if n.negative then ['-'] else []) ++
      (Nat.toDigits 10 n.whole ++ (pointed n.fraction ++ powered n.exponent)) := by
  simp only [Numeral.render, List.append_assoc]
  rfl

theorem readFraction_eq_of_head?_ne (h : cs.head? ≠ some '.') : readFraction cs = some ([], cs) := by
  unfold readFraction
  split
  · exact absurd rfl h
  · rfl

theorem isDigit_digitChar (d : Fin 10) :
    (Nat.digitChar d.val).isDigit ∧ Fin.ofNat 10 ((Nat.digitChar d.val).toNat - '0'.toNat) = d := by
  decide +revert

/-- The digits after the point are read back if what follows goes on neither
    with a digit nor with a point. -/
theorem readFraction_pointed (fraction : List (Fin 10)) (hdigits : EndsDigits cs)
    (hpoint : cs.head? ≠ some '.') : readFraction (pointed fraction ++ cs) = some (fraction, cs) := by
  by_cases hempty : fraction = []
  · subst hempty
    exact readFraction_eq_of_head?_ne hpoint
  · have hread : readDigits (fraction.map (fun d => Nat.digitChar d.val) ++ cs) =
        some (fraction.map fun d => Nat.digitChar d.val, cs) := by
      refine readDigits_append (by simpa using hempty) ?_ hdigits
      intro c hc
      obtain ⟨d, -, rfl⟩ := List.mem_map.mp hc
      exact (isDigit_digitChar d).1
    have hback : (fraction.map fun d => Nat.digitChar d.val).map
        (fun c => Fin.ofNat 10 (c.toNat - '0'.toNat)) = fraction := by
      rw [List.map_map]
      exact (List.map_congr_left fun d _ => (isDigit_digitChar d).2).trans (List.map_id fraction)
    rw [pointed, if_neg hempty, List.cons_append, readFraction, hread]
    exact congrArg (fun f => some (f, cs)) hback

theorem readExponent_eq_of_ends (h : EndsNumeral cs) : readExponent cs = some (none, cs) := by
  unfold readExponent
  split
  · exact absurd rfl (h _ rfl).2.2.1
  · exact absurd rfl (h _ rfl).2.2.2
  · rfl

theorem readSign_eq_of_head?_ne (hminus : cs.head? ≠ some '-') (hplus : cs.head? ≠ some '+') :
    readSign cs = (false, cs) := by
  unfold readSign
  split
  · exact absurd rfl hminus
  · exact absurd rfl hplus
  · rfl

theorem readPower_toDigits (n : Nat) (hcs : EndsDigits cs) :
    readPower (Nat.toDigits 10 n ++ cs) = some (some (n : Int), cs) := by
  have hsign := readSign_eq_of_head?_ne (head?_toDigits_append_ne n cs (by decide : ¬ '-'.isDigit))
    (head?_toDigits_append_ne n cs (by decide : ¬ '+'.isDigit))
  simp only [readPower, hsign, readDigits_toDigits n hcs]
  show some (some ((Nat.ofDigitChars 10 (Nat.toDigits 10 n) 0 : Nat) : Int), cs) = _
  rw [Nat.ofDigitChars_ten_toDigits]

theorem readPower_minus_toDigits (n : Nat) (hcs : EndsDigits cs) :
    readPower ('-' :: (Nat.toDigits 10 n ++ cs)) = some (some (-(n : Int)), cs) := by
  simp only [readPower, readSign, readDigits_toDigits n hcs]
  show some (some (-((Nat.ofDigitChars 10 (Nat.toDigits 10 n) 0 : Nat) : Int)), cs) = _
  rw [Nat.ofDigitChars_ten_toDigits]

/-- The exponent is read back if what follows is no part of a number. -/
theorem readExponent_powered (exponent : Option Int) (hcs : EndsNumeral cs) :
    readExponent (powered exponent ++ cs) = some (exponent, cs) := by
  match exponent with
  | none => exact readExponent_eq_of_ends hcs
  | some (.ofNat k) => exact readPower_toDigits k hcs.endsDigits
  | some (.negSucc k) => exact readPower_minus_toDigits (k + 1) hcs.endsDigits

theorem endsDigits_powered_append (exponent : Option Int) (hcs : EndsNumeral cs) :
    EndsDigits (powered exponent ++ cs) ∧ (powered exponent ++ cs).head? ≠ some '.' := by
  match exponent with
  | none => exact ⟨hcs.endsDigits, fun h => (hcs _ h).2.1 rfl⟩
  | some (.ofNat k) => simp [powered, EndsDigits]
  | some (.negSucc k) => simp [powered, EndsDigits]

theorem endsDigits_pointed_append (fraction : List (Fin 10)) (hcs : EndsDigits cs) :
    EndsDigits (pointed fraction ++ cs) := by
  by_cases hempty : fraction = []
  · subst hempty
    exact hcs
  · simp [pointed, hempty, EndsDigits]

/-! ### Numbers -/

theorem readMinus_eq_of_head?_ne (h : cs.head? ≠ some '-') : readMinus cs = (false, cs) := by
  unfold readMinus
  split
  · exact absurd rfl h
  · rfl

/-- A number starts with its sign or with a digit. -/
theorem Numeral.exists_render_cons (n : Numeral) :
    ∃ c rest, n.render = c :: rest ∧ (c = '-' ∨ c.isDigit) := by
  rw [Numeral.render_eq]
  cases n.negative with
  | false =>
    obtain ⟨d, rest, hwhole, hdigit, -⟩ := exists_toDigits_cons n.whole
    rw [hwhole]
    exact ⟨d, _, rfl, .inr hdigit⟩
  | true => exact ⟨'-', _, rfl, .inl rfl⟩

/-- A number is read back if what follows is no part of a number. -/
theorem readNumeral_render (n : Numeral) (hcs : EndsNumeral cs) :
    readNumeral (n.render ++ cs) = some (n, cs) := by
  obtain ⟨negative, whole, fraction, exponent⟩ := n
  obtain ⟨hdigits, hpoint⟩ := endsDigits_powered_append exponent hcs
  have hminus : readMinus ((if negative then ['-'] else []) ++ (Nat.toDigits 10 whole ++
      (pointed fraction ++ (powered exponent ++ cs)))) =
      (negative, Nat.toDigits 10 whole ++ (pointed fraction ++ (powered exponent ++ cs))) := by
    cases negative with
    | false => exact readMinus_eq_of_head?_ne (head?_toDigits_append_ne whole _ (by decide))
    | true => rfl
  simp only [Numeral.render_eq, List.append_assoc, readNumeral, hminus,
    readWhole_toDigits whole (endsDigits_pointed_append fraction hdigits),
    readFraction_pointed fraction hdigits hpoint, readExponent_powered exponent hcs,
    Option.bind_eq_bind, Option.bind_some, Option.pure_def]

end RowOrder.Json
