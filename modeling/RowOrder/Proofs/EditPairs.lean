import RowOrder.Proofs.EditRuns

/-! # One edit after another

    An edit changes keys in one place: it passes over those on other fields
    (`Edit.onKeys_cons_of_ne`) up to the first on its own, or to the end if
    there is none (`Edit.onKeys_of_absent`).

    - Edits of different fields act in different places, so their order does
      not matter, unless both add a key: then the one that is made first has
      its key before the other's (`Descriptor.edits_commute`).
    - Edits of one field act in the same place, also where keys on it are
      repeated. So a second toggle takes back the first, and a removal takes
      back a toggle that added a key (`Descriptor.edits_undone`).
-/

namespace RowOrder

variable {ε : Type} {schema : Schema ε}

open Text
open History (plainSchema)

/-! ### The place of an edit -/

namespace Edit

variable {edit : Edit} {candidate key : SortKey ε} {front keys rest : List (SortKey ε)}

/-- What the edit makes of the first key on its field. -/
def changed : Edit → SortKey ε → List (SortKey ε)
  | .toggle _, key => [key.toggled]
  | .remove _, _ => []

/-- What the edit puts at the end if no key is on its field. -/
def added : Edit → SortKey ε → List (SortKey ε)
  | .toggle _, candidate => [candidate]
  | .remove _, _ => []

theorem name_of_mem_changed {k : SortKey ε} (h : k ∈ edit.changed key) : k.name = key.name := by
  cases edit with
  | toggle token =>
    rw [List.mem_singleton.mp h]
    rfl
  | remove token => exact absurd h List.not_mem_nil

theorem name_of_mem_added {k : SortKey ε} (h : k ∈ edit.added candidate) :
    k.name = candidate.name := by
  cases edit with
  | toggle token => rw [List.mem_singleton.mp h]
  | remove token => exact absurd h List.not_mem_nil

theorem onKeys_nil (edit : Edit) (candidate : SortKey ε) :
    edit.onKeys candidate [] = edit.added candidate := by
  cases edit <;> rfl

theorem onKeys_cons_of_eq (h : key.name = candidate.name) :
    edit.onKeys candidate (key :: rest) = edit.changed key ++ rest := by
  cases edit with
  | toggle token => exact if_pos h
  | remove token =>
    exact List.eraseP_cons_of_pos (p := fun k : SortKey ε => k.name = candidate.name)
      (decide_eq_true h)

/-- A key on another field is passed over. -/
theorem onKeys_cons_of_ne (h : key.name ≠ candidate.name) :
    edit.onKeys candidate (key :: rest) = key :: edit.onKeys candidate rest := by
  cases edit with
  | toggle token => exact if_neg h
  | remove token =>
    exact List.eraseP_cons_of_neg (p := fun k : SortKey ε => k.name = candidate.name)
      (by simpa using h)

theorem onKeys_append_of_ne (h : ∀ k ∈ front, k.name ≠ candidate.name) :
    edit.onKeys candidate (front ++ keys) = front ++ edit.onKeys candidate keys := by
  induction front with
  | nil => rfl
  | cons k front ih =>
    obtain ⟨hk, hfront⟩ := List.forall_mem_cons.mp h
    rw [List.cons_append, onKeys_cons_of_ne hk, ih hfront, List.cons_append]

/-- Without a key on the field the keys stay, and something may come behind. -/
theorem onKeys_of_absent (h : ∀ k ∈ keys, k.name ≠ candidate.name) :
    edit.onKeys candidate keys = keys ++ edit.added candidate := by
  have hend : edit.onKeys candidate (keys ++ []) = keys ++ edit.onKeys candidate [] :=
    onKeys_append_of_ne h
  rwa [List.append_nil, onKeys_nil] at hend

end Edit

/-! ### Edits of different fields -/

namespace Edit

variable {first second : Edit} {k l : SortKey ε} {keys : List (SortKey ε)}

/-- The tokens of the edits do not name the same field; either may name none. -/
def Apart (schema : Schema ε) (first second : Edit) : Prop :=
  ∀ field, schema.resolve? (Token.name first.token) = some field →
    schema.resolve? (Token.name second.token) ≠ some field

/-- The edit adds the key of its token to the keys. -/
structure Adds (schema : Schema ε) (keys : List (SortKey ε)) (edit : Edit)
    (candidate : SortKey ε) : Prop where
  /-- It is a toggle. -/
  toggle : ∃ token, edit = .toggle token
  /-- Its token stands for this key. -/
  named : SortKey.ofToken? schema edit.token = some candidate
  /-- No key is on the field of its token. -/
  absent : ∀ key ∈ keys, key.name ≠ candidate.name

theorem Apart.symm (h : first.Apart schema second) : second.Apart schema first :=
  fun field hsecond hfirst => h field hfirst hsecond

theorem Apart.name_ne (h : first.Apart schema second)
    (hk : SortKey.ofToken? schema first.token = some k)
    (hl : SortKey.ofToken? schema second.token = some l) : k.name ≠ l.name := by
  obtain ⟨hkfield, hkname, -⟩ := SortKey.ofToken?_eq_some_iff.mp hk
  obtain ⟨hlfield, hlname, -⟩ := SortKey.ofToken?_eq_some_iff.mp hl
  intro hname
  have hsame : k.field = l.field := Schema.eq_of_name_eq hkfield hlfield hname
  refine h k.field (Schema.resolve?_eq_some_iff.mpr ⟨hkfield, hkname⟩) ?_
  rw [hsame]
  exact Schema.resolve?_eq_some_iff.mpr ⟨hlfield, hlname⟩

/-- An edit that meets its key at the front leaves the rest to the other one. -/
theorem onKeys_onKeys_cons (first second : Edit) {key : SortKey ε} (hkey : key.name = k.name)
    (hne : k.name ≠ l.name) (rest : List (SortKey ε)) :
    second.onKeys l (first.onKeys k (key :: rest)) = first.changed key ++ second.onKeys l rest ∧
    first.onKeys k (second.onKeys l (key :: rest)) = first.changed key ++ second.onKeys l rest := by
  have hother : key.name ≠ l.name := by rwa [hkey]
  have hchanged : ∀ c ∈ first.changed key, c.name ≠ l.name := by
    intro c hc
    rwa [name_of_mem_changed hc]
  constructor
  · rw [onKeys_cons_of_eq hkey, onKeys_append_of_ne hchanged]
  · rw [onKeys_cons_of_ne hother, onKeys_cons_of_eq hkey]

/-- Edits on different fields can change places, unless both find no key and
    put something at the end. -/
theorem onKeys_comm (hne : k.name ≠ l.name)
    (h : (∃ key ∈ keys, key.name = k.name ∨ key.name = l.name) ∨
      first.added k = [] ∨ second.added l = []) :
    second.onKeys l (first.onKeys k keys) = first.onKeys k (second.onKeys l keys) := by
  -- Down the keys, to the first that is on either field.
  induction keys with
  | nil =>
    have hk : ∀ c ∈ first.added k, c.name ≠ l.name := by
      intro c hc
      rwa [name_of_mem_added hc]
    have hl : ∀ c ∈ second.added l, c.name ≠ k.name := by
      intro c hc
      rw [name_of_mem_added hc]
      exact hne.symm
    rw [onKeys_nil, onKeys_nil, onKeys_of_absent hk, onKeys_of_absent hl]
    rcases h with ⟨key, hkey, -⟩ | hnothing | hnothing
    · exact absurd hkey List.not_mem_nil
    · rw [hnothing, List.append_nil, List.nil_append]
    · rw [hnothing, List.append_nil, List.nil_append]
  | cons key rest ih =>
    by_cases hk : key.name = k.name
    · obtain ⟨hfirst, hsecond⟩ := onKeys_onKeys_cons first second hk hne rest
      rw [hfirst, hsecond]
    · by_cases hl : key.name = l.name
      · obtain ⟨hsecond, hfirst⟩ := onKeys_onKeys_cons second first hl hne.symm rest
        rw [hfirst, hsecond]
      · have hrest : (∃ c ∈ rest, c.name = k.name ∨ c.name = l.name) ∨
            first.added k = [] ∨ second.added l = [] :=
          h.imp_left fun hmet =>
            ((List.exists_mem_cons_iff _ _ _).mp hmet).resolve_left (not_or.mpr ⟨hk, hl⟩)
        rw [onKeys_cons_of_ne hk, onKeys_cons_of_ne hl, onKeys_cons_of_ne hl, onKeys_cons_of_ne hk,
          ih hrest]

/-- Something is put at the end by a toggle only. -/
theorem exists_toggle_of_added_ne_nil (h : first.added k ≠ []) : ∃ token, first = .toggle token := by
  cases first with
  | toggle token => exact ⟨token, rfl⟩
  | remove token => exact absurd rfl h

theorem Adds.after_eq (h : first.Adds schema keys k) : first.after schema keys = keys ++ [k] := by
  obtain ⟨⟨token, rfl⟩, hnamed, habsent⟩ := h
  rw [after_of_eq_some hnamed, onKeys_of_absent habsent]
  rfl

/-- A key that was added by an edit of another field is not in the way. -/
theorem Adds.concat (hl : second.Adds schema keys l) (hne : k.name ≠ l.name) :
    second.Adds schema (keys ++ [k]) l where
  toggle := hl.toggle
  named := hl.named
  absent := by
    intro key hkey
    rcases List.mem_append.mp hkey with hold | hnew
    · exact hl.absent key hold
    · rwa [List.mem_singleton.mp hnew]

/-- Two keys that are added stand in the order of the edits. -/
theorem Adds.after_after (hk : first.Adds schema keys k) (hl : second.Adds schema keys l)
    (hapart : first.Apart schema second) :
    second.after schema (first.after schema keys) = keys ++ [k, l] := by
  have hne : k.name ≠ l.name := hapart.name_ne hk.named hl.named
  rw [hk.after_eq, (hl.concat hne).after_eq, List.append_assoc]
  rfl

/-- Edits of different fields can change places unless both add a key. -/
theorem after_comm (hapart : first.Apart schema second)
    (h : ¬ ((∃ k, first.Adds schema keys k) ∧ ∃ l, second.Adds schema keys l)) :
    second.after schema (first.after schema keys) =
      first.after schema (second.after schema keys) := by
  cases hk : SortKey.ofToken? schema first.token with
  | none => rw [after_of_eq_none hk, after_of_eq_none hk]
  | some k =>
    cases hl : SortKey.ofToken? schema second.token with
    | none => rw [after_of_eq_none hl, after_of_eq_none hl]
    | some l =>
      rw [after_of_eq_some hk, after_of_eq_some hl, after_of_eq_some hl, after_of_eq_some hk]
      apply onKeys_comm (hapart.name_ne hk hl)
      -- If no key is met and both put something at the end, both add a key.
      by_contra hboth
      obtain ⟨hnone, hadded⟩ := not_or.mp hboth
      obtain ⟨hfirst, hsecond⟩ := not_or.mp hadded
      have habsent : ∀ key ∈ keys, ¬ (key.name = k.name ∨ key.name = l.name) :=
        fun key hkey hname => hnone ⟨key, hkey, hname⟩
      exact h ⟨⟨k, exists_toggle_of_added_ne_nil hfirst, hk,
          fun key hkey hname => habsent key hkey (.inl hname)⟩,
        ⟨l, exists_toggle_of_added_ne_nil hsecond, hl,
          fun key hkey hname => habsent key hkey (.inr hname)⟩⟩

end Edit

namespace Descriptor

theorem resolve?_plainSchema_id (token : String) (h : SameName "Id" (Token.name token)) :
    plainSchema.resolve? (Token.name token) = some (Row.field "Id" .int 0) :=
  Schema.resolve?_eq_some_iff.mpr ⟨List.mem_cons_self, h⟩

theorem resolve?_plainSchema_name (token : String) (h : SameName "Name" (Token.name token)) :
    plainSchema.resolve? (Token.name token) = some (Row.field "Name" .text 1) :=
  Schema.resolve?_eq_some_iff.mpr ⟨List.mem_cons_of_mem _ (List.mem_singleton_self _), h⟩

/-- The text after two edits in a schema of plain names. -/
theorem value_edited_follow (hplain : schema.Plain) {d : Descriptor ε} (h : d.WellFormed schema)
    (first second : Edit) :
    ((d.follow schema first).value.edited schema second).value =
      textOf (second.after schema (first.after schema d.keys)) := by
  rw [value_follow hplain h first, value_edited hplain (wellFormed_after hplain h first) second]

/-- The keys that this text gives. -/
theorem keys_parse_edited_follow (hplain : schema.Plain) {d : Descriptor ε}
    (h : d.WellFormed schema) (first second : Edit) :
    (parse schema ((d.follow schema first).value.edited schema second).value d.config).value.keys =
      second.after schema (first.after schema d.keys) := by
  have hfirst := wellFormed_after hplain h first
  have hread := parse_textOf_of_plain hplain (wellFormed_after hplain hfirst second)
  rw [value_edited_follow hplain h, hread]
  rfl

/-- **Edits of different fields are independent.** In a schema of plain names,
    let a descriptor that was made be edited twice, and let the tokens of the
    edits not name the same field. Then the final text does not depend on the
    order of the edits, just if not both of them add a key. If both do, each
    order gives the keys that there were with the two keys behind them, the
    earlier edit's key first. -/
theorem edits_commute (schema : Schema ε) (hplain : schema.Plain) (recipe : Recipe)
    (first second : Edit) (hapart : first.Apart schema second) :
    let d := (make schema recipe).value
    let final := fun one other : Edit =>
      ((d.follow schema one).value.edited schema other).value
    (final first second = final second first ↔
      ¬ ((∃ k, first.Adds schema d.keys k) ∧ ∃ l, second.Adds schema d.keys l)) ∧
    ∀ k l, first.Adds schema d.keys k → second.Adds schema d.keys l →
      (parse schema (final first second) d.config).value.keys = d.keys ++ [k, l] ∧
      (parse schema (final second first) d.config).value.keys = d.keys ++ [l, k] := by
  intro d final
  have hwf : d.WellFormed schema := wellFormed_make schema recipe
  have htext : ∀ one other, final one other =
      textOf (other.after schema (one.after schema d.keys)) := value_edited_follow hplain hwf
  have hkeys : ∀ one other, (parse schema (final one other) d.config).value.keys =
      other.after schema (one.after schema d.keys) := keys_parse_edited_follow hplain hwf
  have hboth : ∀ k l, first.Adds schema d.keys k → second.Adds schema d.keys l →
      (parse schema (final first second) d.config).value.keys = d.keys ++ [k, l] ∧
      (parse schema (final second first) d.config).value.keys = d.keys ++ [l, k] := by
    intro k l hk hl
    rw [hkeys, hkeys]
    exact ⟨hk.after_after hl hapart, hl.after_after hk hapart.symm⟩
  refine ⟨⟨?_, ?_⟩, hboth⟩
  · -- One text would give the two keys in both orders.
    rintro hsame ⟨⟨k, hk⟩, l, hl⟩
    obtain ⟨hfirst, hsecond⟩ := hboth k l hk hl
    rw [hsame, hsecond] at hfirst
    obtain ⟨hlk, -⟩ := List.cons.inj (List.append_cancel_left hfirst)
    exact hapart.name_ne hk.named hl.named (congrArg SortKey.name hlk.symm)
  · intro hnot
    rw [htext, htext, Edit.after_comm hapart hnot]

/-- Of three keys on two fields, `Id` loses the first of its two and `Name` is
    turned round, in either order. Without any keys the order shows. -/
theorem edits_commute_plainSchema :
    let recipe : Recipe := .text "Id,Name,-Id" { duplicateFields := .retain }
    let d := (make plainSchema recipe).value
    let removed := (d.follow plainSchema (.remove "Id")).value
    let turned := (d.follow plainSchema (.toggle "Name")).value
    let none := (make plainSchema (.empty {})).value
    plainSchema.Plain ∧
    (Edit.remove "Id").Apart plainSchema (.toggle "Name") ∧
    (removed.edited plainSchema (.toggle "Name")).value = "-Name,-Id" ∧
    (removed.edited plainSchema (.toggle "Name")).value =
      (turned.edited plainSchema (.remove "Id")).value ∧
    ((none.follow plainSchema (.toggle "Id")).value.edited plainSchema (.toggle "Name")).value ≠
      ((none.follow plainSchema (.toggle "Name")).value.edited plainSchema (.toggle "Id")).value := by
  intro recipe d removed turned none
  have hplain : plainSchema.Plain := by decide +kernel
  have hid := resolve?_plainSchema_id "Id" (.refl _)
  have hname := resolve?_plainSchema_name "Name" (.refl _)
  have hother : ∀ field, plainSchema.resolve? (Token.name "Id") = some field →
      plainSchema.resolve? (Token.name "Name") ≠ some field := by
    intro field hfirst hsecond
    have hsame : Row.field "Id" .int 0 = Row.field "Name" .text 1 :=
      Option.some.inj ((hid.symm.trans hfirst).trans (hsecond.symm.trans hname))
    exact absurd (congrArg Field.name hsame) (by decide)
  have hremove : (Edit.remove "Id").Apart plainSchema (.toggle "Name") := hother
  have htoggle : (Edit.toggle "Id").Apart plainSchema (.toggle "Name") := hother
  obtain ⟨hcommute, -⟩ := edits_commute plainSchema hplain recipe _ _ hremove
  obtain ⟨hexchange, -⟩ := edits_commute plainSchema hplain (.empty {}) _ _ htoggle
  refine ⟨hplain, hremove, by decide +kernel, ?_, ?_⟩
  · refine hcommute.mpr ?_
    rintro ⟨⟨k, ⟨token, htoken⟩, -, -⟩, -⟩
    contradiction
  · intro hsame
    exact hexchange.mp hsame
      ⟨⟨_, ⟨_, rfl⟩, SortKey.ofToken?_of_resolve? hid, List.forall_mem_nil _⟩,
        _, ⟨_, rfl⟩, SortKey.ofToken?_of_resolve? hname, List.forall_mem_nil _⟩

end Descriptor

/-! ### Edits of one field -/

namespace Edit

variable {k l : SortKey ε} {keys : List (SortKey ε)}

/-- A second toggle of a field turns the same key back. -/
theorem toggle_toggle (hname : l.name = k.name) (h : ∃ key ∈ keys, key.name = k.name)
    (t u : String) : (toggle u).onKeys l ((toggle t).onKeys k keys) = keys := by
  -- Down the keys, to the first that is on the field.
  induction keys with
  | nil =>
    obtain ⟨key, hkey, -⟩ := h
    exact absurd hkey List.not_mem_nil
  | cons key rest ih =>
    by_cases hkey : key.name = k.name
    · have hturned : key.toggled.name = l.name := hkey.trans hname.symm
      rw [onKeys_cons_of_eq hkey]
      show (toggle u).onKeys l (key.toggled :: rest) = key :: rest
      rw [onKeys_cons_of_eq hturned]
      show key.toggled.toggled :: rest = key :: rest
      rw [SortKey.toggled_toggled]
    · have hother : key.name ≠ l.name := by rwa [hname]
      have hrest : ∃ c ∈ rest, c.name = k.name :=
        ((List.exists_mem_cons_iff _ _ _).mp h).resolve_left hkey
      rw [onKeys_cons_of_ne hkey, onKeys_cons_of_ne hother, ih hrest]

/-- A removal takes away the key that a toggle has added. -/
theorem remove_toggle (hname : l.name = k.name) (h : ∀ key ∈ keys, key.name ≠ k.name)
    (t u : String) : (remove u).onKeys l ((toggle t).onKeys k keys) = keys := by
  have hkeys : ∀ c ∈ keys, c.name ≠ l.name := by rwa [hname]
  rw [onKeys_of_absent h, onKeys_append_of_ne hkeys]
  show keys ++ (remove u).onKeys l [k] = keys
  rw [onKeys_cons_of_eq hname.symm]
  exact List.append_nil keys

/-- Two more toggles of a field come to nothing. -/
theorem toggle_toggle_toggle (hname : l.name = k.name) (h : ∀ key ∈ keys, key.name ≠ k.name)
    (t u : String) :
    (toggle u).onKeys l ((toggle u).onKeys l ((toggle t).onKeys k keys)) =
      (toggle t).onKeys k keys := by
  apply toggle_toggle rfl
  rw [onKeys_of_absent h]
  exact ⟨k, List.mem_append_right _ List.mem_cons_self, hname.symm⟩

end Edit

namespace Descriptor

/-- **Edits can be undone.** In a schema of plain names, let two tokens name
    the same field. Of a descriptor that was made, a toggle by the one and then
    a toggle by the other gives the text of the descriptor back, if it has a
    key on the field, and repeated ones make no difference. If it has none, a
    removal takes the toggle back, and two more toggles give the text that
    the first one gave. -/
theorem edits_undone (schema : Schema ε) (hplain : schema.Plain) (recipe : Recipe) (t u : String)
    (field : Field ε) (ht : schema.resolve? (Token.name t) = some field)
    (hu : schema.resolve? (Token.name u) = some field) :
    let d := (make schema recipe).value
    let toggled := (d.follow schema (.toggle t)).value
    ((∃ key ∈ d.keys, key.name = field.name) →
      (toggled.edited schema (.toggle u)).value = d.text) ∧
    ((∀ key ∈ d.keys, key.name ≠ field.name) →
      (toggled.edited schema (.remove u)).value = d.text ∧
      ((toggled.follow schema (.toggle u)).value.edited schema (.toggle u)).value =
        (d.edited schema (.toggle t)).value) := by
  intro d toggled
  have hwf : d.WellFormed schema := wellFormed_make schema recipe
  let k : SortKey ε := ⟨field, Token.direction t⟩
  let l : SortKey ε := ⟨field, Token.direction u⟩
  have hname : l.name = k.name := rfl
  have hk : ∀ keys, (Edit.toggle t).after schema keys = (Edit.toggle t).onKeys k keys :=
    fun keys => Edit.after_of_eq_some (SortKey.ofToken?_of_resolve? ht)
  have hl : ∀ keys, (Edit.toggle u).after schema keys = (Edit.toggle u).onKeys l keys :=
    fun keys => Edit.after_of_eq_some (SortKey.ofToken?_of_resolve? hu)
  have hr : ∀ keys, (Edit.remove u).after schema keys = (Edit.remove u).onKeys l keys :=
    fun keys => Edit.after_of_eq_some (SortKey.ofToken?_of_resolve? hu)
  refine ⟨?_, ?_⟩
  · intro hpresent
    rw [value_edited_follow hplain hwf, hk, hl, Edit.toggle_toggle hname hpresent]
    rfl
  · intro habsent
    refine ⟨?_, ?_⟩
    · rw [value_edited_follow hplain hwf, hk, hr, Edit.remove_toggle hname habsent]
      rfl
    · have htoggled : toggled = { d with keys := (Edit.toggle t).after schema d.keys } :=
        value_follow hplain hwf (.toggle t)
      rw [htoggled, value_edited_follow hplain (wellFormed_after hplain hwf _), hl, hl, hk,
        Edit.toggle_toggle_toggle hname habsent, value_edited hplain hwf, hk]

/-- The first of two retained keys on `Id` is turned round and back, and a key
    on `Name` is added and taken away again. -/
theorem edits_undone_plainSchema :
    let d := (make plainSchema (.text "Id,-Id" { duplicateFields := .retain })).value
    let turned := (d.follow plainSchema (.toggle "Id")).value
    let added := (d.follow plainSchema (.toggle "-Name")).value
    plainSchema.Plain ∧
    turned.text = "-Id,-Id" ∧ added.text = "Id,-Id,-Name" ∧
    (turned.edited plainSchema (.toggle " -iD")).value = d.text ∧
    (added.edited plainSchema (.remove "Name ")).value = d.text ∧
    ((added.follow plainSchema (.toggle "Name ")).value.edited plainSchema (.toggle "Name ")).value =
      (d.edited plainSchema (.toggle "-Name")).value := by
  intro d turned added
  have hplain : plainSchema.Plain := by decide +kernel
  obtain ⟨hpresent, -⟩ := edits_undone plainSchema hplain
    (.text "Id,-Id" { duplicateFields := .retain }) "Id" " -iD" _
    (resolve?_plainSchema_id _ (.refl _))
    (resolve?_plainSchema_id _ (sameName_iff.mpr (by decide +kernel)))
  obtain ⟨-, habsent⟩ := edits_undone plainSchema hplain
    (.text "Id,-Id" { duplicateFields := .retain }) "-Name" "Name " _
    (resolve?_plainSchema_name _ (by decide +kernel))
    (resolve?_plainSchema_name _ (by decide +kernel))
  have hnames : d.keys.map SortKey.name = ["Id", "Id"] := by decide +kernel
  have hkeys : ∀ key ∈ d.keys, key.name = "Id" := by
    intro key hkey
    have hmem : key.name ∈ d.keys.map SortKey.name := List.mem_map_of_mem hkey
    rw [hnames] at hmem
    simpa using hmem
  have hexists : ∃ key ∈ d.keys, key.name = "Id" := by
    have hmem : "Id" ∈ d.keys.map SortKey.name := by
      rw [hnames]
      exact List.mem_cons_self
    exact List.mem_map.mp hmem
  have hnone : ∀ key ∈ d.keys, key.name ≠ "Name" := by
    intro key hkey
    rw [hkeys key hkey]
    decide
  obtain ⟨hremove, htoggle⟩ := habsent hnone
  exact ⟨hplain, by decide +kernel, by decide +kernel, hpresent hexists, hremove, htoggle⟩

end Descriptor

end RowOrder
