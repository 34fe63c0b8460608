import Mathlib.Algebra.Group.Nat.Defs

/-! # The bytes of a text

    The order on texts is the one by code points
    (`compare_eq_compare_codePoints`). UTF-8 keeps it: texts compare by their
    bytes as they do by their code points (`compare_utf8`).

    A code point is written as a leading byte and up to three trailing ones.
    Where one code point takes more trailing bytes than another, it is the
    larger one and has the larger leading byte. Where both take equally many,
    the bytes are their digits in base 64, the most significant first.
-/

namespace RowOrder.Text

/-! ### Two readings of a text -/

/-- The code points of a text. -/
def codePoints (s : String) : List Nat := s.toList.map Char.toNat

/-- The bytes of a text in UTF-8. -/
def utf8 (s : String) : List Nat := s.toUTF8.data.toList.map UInt8.toNat

theorem codePoints_append (s t : String) : codePoints (s ++ t) = codePoints s ++ codePoints t := by
  rw [codePoints, String.toList_append, List.map_append]
  rfl

theorem codePoints_eq_nil_iff {s : String} : codePoints s = [] ↔ s = "" := by
  rw [codePoints, List.map_eq_nil_iff, String.toList_eq_nil_iff]

/-! ### Comparing numbers and lists -/

theorem compare_add_left (k m n : Nat) : compare (k + m) (k + n) = compare m n := by
  simp only [Nat.compare_eq_ite_lt, Nat.add_lt_add_iff_left]

/-- Numbers compare by their quotients, and by the remainders if these tie. -/
theorem compare_div_mod (base m n : Nat) :
    (compare (m / base) (n / base)).then (compare (m % base) (n % base)) = compare m n := by
  rcases Nat.lt_trichotomy (m / base) (n / base) with h | h | h
  · rw [Nat.compare_eq_lt.mpr h, Nat.compare_eq_lt.mpr (Nat.lt_of_div_lt_div h)]
    rfl
  · rw [Nat.compare_eq_eq.mpr h]
    calc compare (m % base) (n % base)
      _ = compare (base * (m / base) + m % base) (base * (m / base) + n % base) :=
        (compare_add_left ..).symm
      _ = compare m n := by rw [Nat.div_add_mod, h, Nat.div_add_mod]
  · rw [Nat.compare_eq_gt.mpr h, Nat.compare_eq_gt.mpr (Nat.lt_of_div_lt_div h)]
    rfl

/-- Lists that begin with equally long ones compare by these, and by what
    follows if these tie. -/
theorem compare_append_of_length_eq {xs ys : List Nat} (h : xs.length = ys.length)
    (us vs : List Nat) : compare (xs ++ us) (ys ++ vs) = (compare xs ys).then (compare us vs) := by
  induction xs generalizing ys with
  | nil =>
    obtain rfl := List.eq_nil_of_length_eq_zero h.symm
    rfl
  | cons x xs ih =>
    cases ys with
    | nil => contradiction
    | cons y ys =>
      rw [List.cons_append, List.cons_append, List.compare_cons_cons, List.compare_cons_cons,
        ih (Nat.succ.inj h), Ordering.then_assoc]

/-- A list is smaller than a longer one that it begins. -/
theorem compare_append_self {ys : List Nat} (h : ys ≠ []) (xs : List Nat) :
    compare xs (xs ++ ys) = .lt := by
  induction xs with
  | nil =>
    obtain ⟨y, rest, rfl⟩ := List.exists_cons_of_ne_nil h
    rfl
  | cons x xs ih =>
    rw [List.cons_append, List.compare_cons_cons, Nat.compare_eq_eq.mpr rfl, ih]
    rfl

/-! ### Trailing bytes -/

/-- The last digits of a number in base 64, each marked as a trailing byte. -/
def sextets : Nat → Nat → List Nat
  | 0, _ => []
  | k + 1, n => (0x80 + n / 64 ^ k % 64) :: sextets k n

@[simp] theorem length_sextets (k n : Nat) : (sextets k n).length = k := by
  induction k with
  | zero => rfl
  | succ k ih => rw [sextets, List.length_cons, ih]

/-- Equally many trailing bytes compare as the numbers that they write. -/
theorem compare_sextets (k m n : Nat) :
    compare (sextets k m) (sextets k n) = compare (m % 64 ^ k) (n % 64 ^ k) := by
  induction k with
  | zero => simp [sextets, Nat.mod_one]
  | succ k ih =>
    -- The first byte is the quotient of what is written by the place of the others.
    have hdvd : 64 ^ k ∣ 64 ^ (k + 1) := Nat.pow_dvd_pow 64 (Nat.le_succ k)
    rw [sextets, sextets, List.compare_cons_cons, compare_add_left, ih,
      ← compare_div_mod (64 ^ k) (m % 64 ^ (k + 1)), Nat.mod_mod_of_dvd m hdvd,
      Nat.mod_mod_of_dvd n hdvd, Nat.pow_succ, Nat.mod_mul_right_div_self,
      Nat.mod_mul_right_div_self]

/-! ### One code point -/

/-- The number of trailing bytes that a code point takes. -/
def trailing (n : Nat) : Nat :=
  if n ≤ 0x7f then 0 else if n ≤ 0x7ff then 1 else if n ≤ 0xffff then 2 else 3

/-- The mark of a leading byte, by which it tells how many bytes trail it. -/
def mark : Nat → Nat
  | 0 => 0
  | 1 => 0xc0
  | 2 => 0xe0
  | _ => 0xf0

/-- The leading byte of a code point. -/
def leading (n : Nat) : Nat := mark (trailing n) + n / 64 ^ trailing n

/-- The bytes of a code point. -/
def encoded (n : Nat) : List Nat := leading n :: sextets (trailing n) n

/-- A character is written as its code point. -/
theorem map_toNat_utf8EncodeChar (c : Char) :
    (String.utf8EncodeChar c).map UInt8.toNat = encoded c.toNat := by
  have hvalid : c.val.toNat < 0x110000 := by
    have h := c.valid
    unfold UInt32.isValidChar Nat.isValidChar at h
    omega
  show _ = encoded c.val.toNat
  unfold String.utf8EncodeChar encoded leading trailing
  generalize c.val.toNat = n at hvalid
  dsimp only
  -- The same bounds decide on both sides; below them no number outgrows a byte.
  repeat' split
  all_goals
    simp only [List.map_cons, List.map_nil, UInt8.toNat_ofNat', sextets, mark,
      List.cons.injEq, and_true]
    omega

/-- The four lengths and the code points that they are for. -/
theorem trailing_cases (n : Nat) :
    (trailing n = 0 ∧ n ≤ 0x7f) ∨ (trailing n = 1 ∧ 0x7f < n ∧ n ≤ 0x7ff) ∨
    (trailing n = 2 ∧ 0x7ff < n ∧ n ≤ 0xffff) ∨ (trailing n = 3 ∧ 0xffff < n) := by
  unfold trailing
  grind

theorem lt_of_trailing_lt {m n : Nat} (h : trailing m < trailing n) : m < n := by
  have hm := trailing_cases m
  have hn := trailing_cases n
  omega

theorem mark_le_mark {j k : Nat} (h : j ≤ k) : mark j ≤ mark k := by
  unfold mark
  grind

/-- Between two marks there is room for all code points of one length. -/
theorem leading_lt_mark {n : Nat} (h : trailing n < 3) : leading n < mark (trailing n + 1) := by
  unfold leading
  rcases trailing_cases n with ⟨hk, hn⟩ | ⟨hk, -, hn⟩ | ⟨hk, -, hn⟩ | ⟨hk, -⟩
  · simp only [hk, mark]
    omega
  · simp only [hk, mark]
    omega
  · simp only [hk, mark]
    omega
  · omega

theorem leading_lt_of_trailing_lt {m n : Nat} (h : trailing m < trailing n) :
    leading m < leading n := by
  have hshort : trailing m < 3 := by
    have hn := trailing_cases n
    omega
  calc leading m
    _ < mark (trailing m + 1) := leading_lt_mark hshort
    _ ≤ mark (trailing n) := mark_le_mark h
    _ ≤ leading n := Nat.le_add_right ..

/-- The leading bytes decide between code points that take different numbers
    of trailing bytes. -/
theorem compare_encoded_append_of_trailing_lt {m n : Nat} (h : trailing m < trailing n)
    (us vs : List Nat) : compare (encoded m ++ us) (encoded n ++ vs) = .lt := by
  rw [encoded, encoded, List.cons_append, List.cons_append, List.compare_cons_cons,
    Nat.compare_eq_lt.mpr (leading_lt_of_trailing_lt h)]
  rfl

/-- Bytes that begin with those of a code point compare by these as the code
    points do: none of them ends inside those of another. -/
theorem compare_encoded_append (m n : Nat) (us vs : List Nat) :
    compare (encoded m ++ us) (encoded n ++ vs) = (compare m n).then (compare us vs) := by
  rcases Nat.lt_trichotomy (trailing m) (trailing n) with h | h | h
  · rw [compare_encoded_append_of_trailing_lt h, Nat.compare_eq_lt.mpr (lt_of_trailing_lt h)]
    rfl
  · -- Under one mark the leading byte is the quotient and the trailing ones the remainder.
    have hlength : (encoded m).length = (encoded n).length := by simp [encoded, h]
    have hdigits : compare (encoded m) (encoded n) = compare m n := by
      rw [encoded, encoded, leading, leading, h, List.compare_cons_cons, compare_add_left,
        compare_sextets, compare_div_mod]
    rw [compare_append_of_length_eq hlength, hdigits]
  · rw [Std.OrientedOrd.eq_swap, compare_encoded_append_of_trailing_lt h,
      Nat.compare_eq_gt.mpr (lt_of_trailing_lt h)]
    rfl

/-! ### Texts -/

theorem utf8_eq_flatMap (s : String) : utf8 s = (codePoints s).flatMap encoded := by
  have hbytes : s.toUTF8.data.toList = s.toList.flatMap String.utf8EncodeChar := by
    rw [String.toUTF8_eq_toByteArray, ← String.ofList_toList (s := s), String.toByteArray_ofList,
      String.toList_ofList, List.utf8Encode, List.toList_data_toByteArray]
  rw [utf8, hbytes, codePoints, List.map_flatMap, List.flatMap_map]
  simp only [map_toNat_utf8EncodeChar]

/-- Lists of code points compare as their bytes. -/
theorem compare_flatMap_encoded (ms ns : List Nat) :
    compare (ms.flatMap encoded) (ns.flatMap encoded) = compare ms ns := by
  induction ms generalizing ns with
  | nil =>
    cases ns with
    | nil => rfl
    | cons n ns => rfl
  | cons m ms ih =>
    cases ns with
    | nil => rfl
    | cons n ns =>
      rw [List.flatMap_cons, List.flatMap_cons, compare_encoded_append, ih,
        List.compare_cons_cons]

/-- UTF-8 keeps the order: texts compare by their bytes as by their code
    points. -/
theorem compare_utf8 (s t : String) :
    compare (utf8 s) (utf8 t) = compare (codePoints s) (codePoints t) := by
  rw [utf8_eq_flatMap, utf8_eq_flatMap, compare_flatMap_encoded]

-- The last code point of three bytes and the first one of four.
example : compare (utf8 "\uffff") (utf8 (String.singleton (Char.ofNat 0x10000))) = .lt := by decide

/-- Lists of characters are ordered by their code points. -/
theorem compare_map_toNat_eq_lt_iff {cs ds : List Char} :
    compare (cs.map Char.toNat) (ds.map Char.toNat) = .lt ↔ cs < ds := by
  induction cs generalizing ds with
  | nil =>
    cases ds with
    | nil => simp
    | cons d ds => simp
  | cons c cs ih =>
    cases ds with
    | nil => simp
    | cons d ds =>
      rw [List.map_cons, List.map_cons, List.compare_cons_cons, Ordering.then_eq_lt,
        Nat.compare_eq_lt, Nat.compare_eq_eq, Char.toNat_inj, ih, List.cons_lt_cons_iff]
      exact Iff.rfl

theorem compare_eq_lt_iff {s t : String} :
    compare s t = .lt ↔ compare (codePoints s) (codePoints t) = .lt := by
  rw [codePoints, codePoints, compare_map_toNat_eq_lt_iff, ← String.lt_iff]
  exact compareOfLessAndEq_eq_lt

/-- The order on texts is the one by code points. -/
theorem compare_eq_compare_codePoints (s t : String) :
    compare s t = compare (codePoints s) (codePoints t) := by
  cases h : compare s t with
  | lt => exact (compare_eq_lt_iff.mp h).symm
  | eq =>
    obtain rfl := Std.LawfulEqOrd.eq_of_compare h
    exact Std.ReflOrd.compare_self.symm
  | gt =>
    have hlt : compare t s = .lt := Std.OrientedCmp.gt_iff_lt.mp h
    exact (Std.OrientedCmp.gt_iff_lt.mpr (compare_eq_lt_iff.mp hlt)).symm

/-- A text is smaller than a longer one that it begins. -/
theorem compare_append_eq_lt (s : String) {t : String} (h : t ≠ "") :
    compare s (s ++ t) = .lt := by
  rw [compare_eq_compare_codePoints, codePoints_append]
  exact compare_append_self (mt codePoints_eq_nil_iff.mp h) (codePoints s)

end RowOrder.Text
