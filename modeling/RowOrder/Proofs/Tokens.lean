import RowOrder.Proofs.Lookup
import RowOrder.Proofs.Text.Ends
import RowOrder.Token

/-! # Tokens and the keys they stand for

    What a token says, which keys it can stand for, and that each of them is the
    key of its own text.

    - `Token.Reads` says of a direction and a name that they are what is left of
      the token without the blanks at its ends and one dash. A token holds one
      such pair (`Token.reads_iff`).
    - `Token.Holds` says which names a token can hold beside a direction: the
      blanks at its ends and a first dash are taken off before the name is
      looked up, so some names are out of reach.
    - `SortKey.Readable` says which keys tokens can stand for: those on a field
      of the schema whose name a token can hold. A token stands for no other key
      (`SortKey.readable_of_ofToken?`), and for such a key its own text does
      (`SortKey.ofToken?_render`).
-/

namespace RowOrder

variable {ε : Type}

open Text

/-! ### What a token holds -/

namespace Token

/-- One dash in front is taken off, and without it nothing is. -/
theorem split_cases (cs : List Char) :
    (∃ name, cs = '-' :: name ∧ split cs = (.descending, name)) ∨
      cs.head? ≠ some '-' ∧ split cs = (.ascending, cs) := by
  by_cases hdash : cs.head? = some '-'
  · obtain ⟨name, rfl⟩ := List.head?_eq_some_iff.mp hdash
    exact .inl ⟨name, rfl, split_dash name⟩
  · exact .inr ⟨hdash, split_of_head?_ne hdash⟩

theorem split_eq_descending_iff {cs name : List Char} :
    split cs = (.descending, name) ↔ cs = '-' :: name := by
  constructor
  · intro h
    obtain ⟨rest, rfl, hsplit⟩ | ⟨-, hsplit⟩ := split_cases cs
    · rw [hsplit] at h
      rw [(Prod.mk.inj h).2]
    · rw [hsplit] at h
      exact absurd (Prod.mk.inj h).1 (by decide)
  · rintro rfl
    exact split_dash name

theorem split_eq_ascending_iff {cs name : List Char} :
    split cs = (.ascending, name) ↔ cs = name ∧ name.head? ≠ some '-' := by
  constructor
  · intro h
    obtain ⟨rest, rfl, hsplit⟩ | ⟨hdash, hsplit⟩ := split_cases cs
    · rw [hsplit] at h
      exact absurd (Prod.mk.inj h).1 (by decide)
    · rw [hsplit] at h
      rw [← (Prod.mk.inj h).2]
      exact ⟨rfl, hdash⟩
  · rintro ⟨rfl, hdash⟩
    exact split_of_head?_ne hdash

/-- `Reads token direction name` says that the token without the blanks at its
    ends is the name, with one dash before it if the direction is descending.
    Where it is ascending there is none, so the name does not begin with one. -/
def Reads (token : String) : Direction → String → Prop
  | .ascending, name => TrimsTo token name ∧ name.toList.head? ≠ some '-'
  | .descending, name => TrimsTo token ("-" ++ name)

theorem reads_iff_split {token name : String} {direction : Direction} :
    Reads token direction name ↔ split (trimmed token.toList) = (direction, name.toList) := by
  cases direction with
  | ascending =>
    rw [split_eq_ascending_iff, Reads, trimsTo_iff, ← String.toList_inj, toList_trim, eq_comm]
  | descending =>
    rw [split_eq_descending_iff, Reads, trimsTo_iff, ← String.toList_inj, toList_trim,
      String.toList_append, eq_comm]
    rfl

/-- A token holds one direction and one name. -/
theorem reads_iff {token name : String} {direction : Direction} :
    Reads token direction name ↔
      direction = Token.direction token ∧ name = Token.name token := by
  rw [reads_iff_split, Prod.ext_iff, Token.direction, Token.name, ← String.toList_inj,
    String.toList_ofList]
  exact and_congr eq_comm eq_comm

/-! ### The names a token can hold -/

/-- The names a token can hold beside a direction. No name ends in a blank,
    and without a dash before it none begins with a blank or a dash. -/
def Holds : Direction → String → Prop
  | .ascending, name =>
    NoLeadingBlank name.toList ∧ NoTrailingBlank name.toList ∧ name.toList.head? ≠ some '-'
  | .descending, name => NoTrailingBlank name.toList

instance (d : Direction) (name : String) : Decidable (Holds d name) :=
  match d with
  | .ascending => inferInstanceAs (Decidable (_ ∧ _ ∧ _))
  | .descending => inferInstanceAs (Decidable (NoTrailingBlank _))

theorem Holds.noTrailingBlank {d : Direction} {name : String} (h : Holds d name) :
    NoTrailingBlank name.toList := by
  cases d with
  | ascending => exact h.2.1
  | descending => exact h

theorem noTrailingBlank_of_cons {c : Char} {cs : List Char} (h : NoTrailingBlank (c :: cs)) :
    NoTrailingBlank cs := by
  intro d hd
  apply h
  rw [List.getLast?_cons, Option.mem_def.mp hd]
  rfl

/-- What a token holds is a name that it can hold. -/
theorem holds_name (token : String) : Holds (direction token) (name token) := by
  have hfront := noLeadingBlank_trimmed token.toList
  have hback := noTrailingBlank_trimmed token.toList
  unfold direction name
  obtain ⟨rest, htrimmed, hsplit⟩ | ⟨hdash, hsplit⟩ := split_cases (trimmed token.toList)
  · -- What follows the dash may begin with a blank: it is not trimmed again.
    rw [htrimmed] at hback
    rw [hsplit, Holds, String.toList_ofList]
    exact noTrailingBlank_of_cons hback
  · rw [hsplit, Holds, String.toList_ofList]
    exact ⟨hfront, hback, hdash⟩

/-- A name that a token can hold is held by its own marked text. -/
theorem split_trimmed_mark {d : Direction} {name : String} (h : Holds d name) :
    split (trimmed (d.mark name).toList) = (d, name.toList) := by
  cases d with
  | ascending =>
    obtain ⟨hfront, hback, hdash⟩ := h
    rw [Direction.mark, trimmed_eq_self_iff.mpr ⟨hfront, hback⟩, split_of_head?_ne hdash]
  | descending =>
    have hmark : (Direction.descending.mark name).toList = '-' :: name.toList := by
      simp [Direction.mark]
    have hfront : NoLeadingBlank ('-' :: name.toList) := by
      intro c hc
      obtain rfl : '-' = c := by simpa using hc
      decide
    -- The text ends as the name does, or in the dash if the name is empty.
    have hback : NoTrailingBlank ('-' :: name.toList) := by
      intro c hc
      cases hlast : name.toList.getLast? with
      | none =>
        rw [List.getLast?_cons, hlast] at hc
        obtain rfl : '-' = c := by simpa using hc
        decide
      | some d =>
        rw [List.getLast?_cons, hlast] at hc
        obtain rfl : d = c := by simpa using hc
        exact h d hlast
    rw [hmark, trimmed_eq_self_iff.mpr ⟨hfront, hback⟩, split_dash]

theorem direction_mark {d : Direction} {name : String} (h : Holds d name) :
    direction (d.mark name) = d := by
  rw [direction, split_trimmed_mark h]

theorem name_mark {d : Direction} {name : String} (h : Holds d name) :
    Token.name (d.mark name) = name := by
  rw [Token.name, split_trimmed_mark h, String.ofList_toList]

/-- Which names a token can hold does not depend on their case. -/
theorem holds_of_sameName {d : Direction} {s t : String} (hname : SameName s t)
    (h : Holds d t) : Holds d s := by
  cases d with
  | ascending =>
    obtain ⟨hfront, hback, hdash⟩ := h
    exact ⟨hname.noLeadingBlank_iff.mpr hfront, hname.noTrailingBlank_iff.mpr hback,
      fun hs => hdash ((hname.head?_eq_iff (by decide)).mp hs)⟩
  | descending => exact hname.noTrailingBlank_iff.mpr h

/-- A token holds no character in its name that it does not hold itself. -/
theorem mem_of_mem_name {token : String} {c : Char} (h : c ∈ (name token).toList) :
    c ∈ token.toList := by
  have htrimmed : c ∈ trimmed token.toList := by
    unfold name at h
    rw [String.toList_ofList] at h
    obtain ⟨rest, hcs, hsplit⟩ | ⟨-, hsplit⟩ := split_cases (trimmed token.toList)
    · rw [hsplit] at h
      rw [hcs]
      exact List.mem_cons_of_mem _ h
    · rw [hsplit] at h
      exact h
  have hdrop : c ∈ token.toList.dropWhile isBlank :=
    List.mem_reverse.mp (List.dropWhile_subset _ (List.mem_reverse.mp htrimmed))
  exact List.dropWhile_subset _ hdrop

end Token

/-! ### The keys of tokens -/

namespace SortKey

variable {schema : Schema ε} {key : SortKey ε} {token : String}

/-- A token stands for the key on the field of its name, in its direction. -/
theorem ofToken?_eq_some_iff :
    ofToken? schema token = some key ↔
      key.field ∈ schema.fields ∧ SameName key.name (Token.name token) ∧
        key.direction = Token.direction token := by
  unfold ofToken?
  rw [Option.map_eq_some_iff]
  constructor
  · rintro ⟨f, hf, rfl⟩
    obtain ⟨hmem, hname⟩ := Schema.resolve?_eq_some_iff.mp hf
    exact ⟨hmem, hname, rfl⟩
  · rintro ⟨hmem, hname, hdirection⟩
    exact ⟨key.field, Schema.resolve?_eq_some_iff.mpr ⟨hmem, hname⟩, by rw [← hdirection]⟩

theorem ofToken?_of_resolve? {field : Field ε}
    (h : schema.resolve? (Token.name token) = some field) :
    ofToken? schema token = some ⟨field, Token.direction token⟩ := by
  rw [ofToken?, h]
  rfl

/-- The keys a token can stand for: on a field of the schema, with a name that
    a token can hold in the key's direction. -/
structure Readable (schema : Schema ε) (key : SortKey ε) : Prop where
  /-- The field is one of the schema's. -/
  mem_fields : key.field ∈ schema.fields
  /-- A token can hold the name. -/
  holds : Token.Holds key.direction key.name

theorem readable_of_ofToken? (h : ofToken? schema token = some key) : key.Readable schema := by
  obtain ⟨hmem, hname, hdirection⟩ := ofToken?_eq_some_iff.mp h
  refine ⟨hmem, ?_⟩
  rw [hdirection]
  exact Token.holds_of_sameName hname (Token.holds_name token)

/-- The text of a key that a token can stand for is such a token. -/
theorem ofToken?_render (h : key.Readable schema) : ofToken? schema key.render = some key := by
  refine ofToken?_eq_some_iff.mpr ⟨h.mem_fields, ?_, ?_⟩
  · rw [render, Token.name_mark h.holds]
    exact SameName.refl key.name
  · rw [render, Token.direction_mark h.holds]

/-- A token without a comma names no field with one. -/
theorem comma_not_mem_name (h : ofToken? schema token = some key) (hcomma : ',' ∉ token.toList) :
    ',' ∉ key.name.toList := by
  obtain ⟨-, hname, -⟩ := ofToken?_eq_some_iff.mp h
  intro hmem
  exact hcomma (Token.mem_of_mem_name ((hname.mem_iff (by decide)).mp hmem))

end SortKey

end RowOrder
