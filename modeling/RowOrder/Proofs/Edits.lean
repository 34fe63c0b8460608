import RowOrder.Descriptor.Edit
import RowOrder.Proofs.RoundTrip
import RowOrder.Row

/-! # What an edit makes of a descriptor

    An edit of a descriptor that reads back from its own text works on the
    descriptor's keys themselves (`Descriptor.edited_of_eq_some`). The text it
    gives need not read back as the keys it was written for:
    `Descriptor.edited_toggle` says exactly when it does. A key that is turned
    from descending to ascending loses the dash before its name, and with it
    the protection of a blank or a dash that the name begins with.
-/

namespace RowOrder

variable {ε : Type} {schema : Schema ε}

open Text

/-- A relation between the names of keys depends on their names alone. -/
theorem SortKey.pairwise_of_names_eq (R : String → String → Prop) {keys next : List (SortKey ε)}
    (hnames : next.map SortKey.name = keys.map SortKey.name)
    (hkeys : keys.Pairwise fun k l => R k.name l.name) :
    next.Pairwise fun k l => R k.name l.name := by
  have hpairwise : (keys.map SortKey.name).Pairwise R := List.pairwise_map.mpr hkeys
  rw [← hnames] at hpairwise
  exact List.pairwise_map.mp hpairwise

/-! ### Turning round or adding a key -/

/-- `key.Turned other` says that `other` is the key on the same field in the
    other direction. -/
structure SortKey.Turned (key other : SortKey ε) : Prop where
  /-- The field stays. -/
  field : other.field = key.field
  /-- The direction does not, and there are only two. -/
  direction : other.direction ≠ key.direction

namespace SortKey.Turned

variable {key other : SortKey ε}

theorem toggled (key : SortKey ε) : key.Turned key.toggled where
  field := rfl
  direction := Direction.toggled_ne key.direction

theorem name_eq (h : key.Turned other) : other.name = key.name :=
  congrArg Field.name h.field

theorem direction_eq (h : key.Turned other) : other.direction = key.direction.toggled := by
  have hne := h.direction
  revert hne
  cases other.direction <;> cases key.direction <;> decide

theorem eq_toggled (h : key.Turned other) : other = key.toggled := by
  cases other
  obtain rfl := h.field
  obtain rfl := h.direction_eq
  rfl

end SortKey.Turned

/-- `Toggles candidate keys changed next` says that `next` is `keys` with the
    first key on the field of `candidate` turned round, or with `candidate` at
    the end if no key is on its field. The key that was turned round or added
    is `changed`, as it is now. -/
inductive Toggles (candidate : SortKey ε) :
    List (SortKey ε) → SortKey ε → List (SortKey ε) → Prop where
  /-- The first key on the field is turned round. -/
  | turned {before after : List (SortKey ε)} {key other : SortKey ε}
      (first : ∀ k ∈ before, k.name ≠ candidate.name) (same : key.name = candidate.name)
      (turn : key.Turned other) :
      Toggles candidate (before ++ key :: after) other (before ++ other :: after)
  /-- No key is on the field, and the candidate is added. -/
  | added {keys : List (SortKey ε)} (absent : ∀ k ∈ keys, k.name ≠ candidate.name) :
      Toggles candidate keys candidate (keys ++ [candidate])

namespace Toggles

variable {candidate changed : SortKey ε} {keys next : List (SortKey ε)}

theorem cons {key : SortKey ε} (hname : key.name ≠ candidate.name)
    (h : Toggles candidate keys changed next) :
    Toggles candidate (key :: keys) changed (key :: next) := by
  cases h with
  | turned first same turn =>
    rename_i before after k
    have hfirst : ∀ l ∈ key :: before, l.name ≠ candidate.name :=
      List.forall_mem_cons.mpr ⟨hname, first⟩
    exact @turned _ candidate (key :: before) after k changed hfirst same turn
  | added absent =>
    have habsent : ∀ l ∈ key :: keys, l.name ≠ candidate.name :=
      List.forall_mem_cons.mpr ⟨hname, absent⟩
    exact added habsent

theorem exists_toggleOrAppend (candidate : SortKey ε) (keys : List (SortKey ε)) :
    ∃ changed, Toggles candidate keys changed (Edit.toggleOrAppend candidate keys) := by
  induction keys with
  | nil => exact ⟨candidate, @added _ candidate [] (by simp)⟩
  | cons key rest ih =>
    unfold Edit.toggleOrAppend
    by_cases hname : key.name = candidate.name
    · rw [if_pos hname]
      exact ⟨key.toggled, @turned _ candidate [] rest key _ (by simp) hname (.toggled key)⟩
    · rw [if_neg hname]
      obtain ⟨changed, h⟩ := ih
      exact ⟨changed, h.cons hname⟩

/-- There is one way to turn round or add a key. -/
theorem next_eq (h : Toggles candidate keys changed next) :
    next = Edit.toggleOrAppend candidate keys := by
  cases h with
  | turned first same turn =>
    rename_i before after key
    induction before with
    | nil =>
      obtain rfl := turn.eq_toggled
      exact (if_pos same).symm
    | cons k before ih =>
      obtain ⟨hname, first⟩ := List.forall_mem_cons.mp first
      rw [List.cons_append, List.cons_append, ih first]
      exact (if_neg hname).symm
  | added absent =>
    induction keys with
    | nil => rfl
    | cons key rest ih =>
      obtain ⟨hname, absent⟩ := List.forall_mem_cons.mp absent
      rw [List.cons_append, ih absent]
      exact (if_neg hname).symm

/-- The changed key is a turned one that was there before, or the candidate
    where no key was on its field. -/
theorem changed_cases (h : Toggles candidate keys changed next) :
    (∃ key ∈ keys, key.name = candidate.name ∧ key.Turned changed) ∨
      (∀ k ∈ keys, k.name ≠ candidate.name) ∧ changed = candidate := by
  cases h with
  | turned first same turn => exact .inl ⟨_, by simp, same, turn⟩
  | added absent => exact .inr ⟨absent, rfl⟩

/-- The changed key is on the candidate's field, as far as names tell. -/
theorem name_changed (h : Toggles candidate keys changed next) :
    changed.name = candidate.name := by
  obtain ⟨key, -, hname, turn⟩ | ⟨-, rfl⟩ := h.changed_cases
  · exact turn.name_eq.trans hname
  · rfl

/-- What is true of the fields of all keys and of the candidate's is true of
    the field of the changed key. -/
theorem field_changed {P : Field ε → Prop} (h : Toggles candidate keys changed next)
    (hkeys : ∀ key ∈ keys, P key.field) (hcandidate : P candidate.field) : P changed.field := by
  obtain ⟨key, hkey, -, turn⟩ | ⟨-, rfl⟩ := h.changed_cases
  · rw [turn.field]
    exact hkeys key hkey
  · exact hcandidate

/-- A key of the outcome is the changed one or was there before. -/
theorem mem_next (h : Toggles candidate keys changed next) {key : SortKey ε} (hkey : key ∈ next) :
    key = changed ∨ key ∈ keys := by
  cases h with
  | turned first same turn =>
    simp only [List.mem_append, List.mem_cons] at hkey ⊢
    tauto
  | added absent =>
    simp only [List.mem_append, List.mem_singleton] at hkey
    exact hkey.symm

theorem changed_mem_next (h : Toggles candidate keys changed next) : changed ∈ next := by
  cases h with
  | turned first same turn => simp
  | added absent => simp

/-- The names stay as they are, or the candidate's is added at the end. -/
theorem names_next (h : Toggles candidate keys changed next) :
    next.map SortKey.name = keys.map SortKey.name ∨
      (∀ k ∈ keys, k.name ≠ candidate.name) ∧ changed = candidate ∧ next = keys ++ [candidate] := by
  cases h with
  | turned first same turn => exact .inl (by simp [turn.name_eq])
  | added absent => exact .inr ⟨absent, rfl, rfl⟩

/-- Turning round or adding a key puts no second key on a field. -/
theorem pairwise_next (h : Toggles candidate keys changed next)
    (hkeys : keys.Pairwise fun k l => k.name ≠ l.name) :
    next.Pairwise fun k l => k.name ≠ l.name := by
  obtain hnames | ⟨habsent, -, rfl⟩ := h.names_next
  · exact SortKey.pairwise_of_names_eq (· ≠ ·) hnames hkeys
  · refine List.pairwise_append.mpr ⟨hkeys, List.pairwise_singleton _ _, ?_⟩
    intro k hk l hl
    rw [List.mem_singleton.mp hl]
    exact habsent k hk

/-- Where no two keys are on one field, only the key on the candidate's field
    differs. -/
theorem mem_next_iff (h : Toggles candidate keys changed next)
    (hkeys : keys.Pairwise fun k l => k.name ≠ l.name) {key : SortKey ε} :
    key ∈ next ↔ key = changed ∨ key ∈ keys ∧ key.name ≠ candidate.name := by
  cases h with
  | turned first same turn =>
    rename_i before after k
    -- No key behind the turned one is on its field, so it is the only one there.
    have hafter : ∀ l ∈ after, l.name ≠ candidate.name := by
      intro l hl hname
      have hrest := (List.pairwise_append.mp hkeys).2.1
      exact (List.pairwise_cons.mp hrest).1 l hl (same.trans hname.symm)
    simp only [List.mem_append, List.mem_cons]
    constructor
    · intro hkey
      rcases hkey with hkey | rfl | hkey
      · exact .inr ⟨.inl hkey, first key hkey⟩
      · exact .inl rfl
      · exact .inr ⟨.inr (.inr hkey), hafter key hkey⟩
    · intro hkey
      rcases hkey with rfl | ⟨hkey | rfl | hkey, hname⟩
      · exact .inr (.inl rfl)
      · exact .inl hkey
      · exact absurd same hname
      · exact .inr (.inr hkey)
  | added absent =>
    simp only [List.mem_append, List.mem_singleton]
    constructor
    · intro hkey
      rcases hkey with hkey | rfl
      · exact .inr ⟨hkey, absent key hkey⟩
      · exact .inl rfl
    · intro hkey
      rcases hkey with rfl | ⟨hkey, -⟩
      · exact .inr rfl
      · exact .inl hkey

end Toggles

namespace Descriptor

/-! ### One edit -/

/-- A token that names no field leaves the text as it is, and is reported. -/
theorem edited_of_eq_none {d : Descriptor ε} {edit : Edit}
    (h : SortKey.ofToken? schema edit.token = none) :
    d.edited schema edit = ⟨d.text, [.unknownField edit.token]⟩ := by
  simp only [edited, SortKey.read, h]
  rfl

/-- An edit of a descriptor that reads back works on its keys, and reports
    nothing. -/
theorem edited_of_eq_some {d : Descriptor ε} (hreread : reread schema d = pure d) {edit : Edit}
    {candidate : SortKey ε} (h : SortKey.ofToken? schema edit.token = some candidate) :
    d.edited schema edit = pure (textOf (edit.onKeys candidate d.keys)) := by
  have hparse : parse schema d.text d.config = pure d := hreread
  simp only [edited, SortKey.read, h, hparse, pure_bind]

/-- Of the keys after a toggle only the changed one can fail to come back from
    their text: if a comma is in its name, or if it is ascending and its name
    is empty or begins with a blank or a dash. -/
theorem labels_parse_toggles_iff {d : Descriptor ε} (hwf : d.WellFormed schema)
    (hsurvive : ∀ key ∈ d.keys, key.SurvivesText) {candidate changed : SortKey ε}
    {next : List (SortKey ε)} (hcandidate : candidate.Readable schema)
    (h : Toggles candidate d.keys changed next) :
    Chain.labels (parse schema (textOf next) d.config).value.keys = Chain.labels next ↔
      ',' ∉ changed.name.toList ∧ (changed.direction = .ascending → changed.name ≠ "" ∧
        NoLeadingBlank changed.name.toList ∧ changed.name.toList.head? ≠ some '-') := by
  -- The changed key stands on a field of the schema, and its name ends in no blank.
  have hchanged : changed.field ∈ schema.fields ∧ NoTrailingBlank changed.name.toList :=
    h.field_changed (P := fun f => f ∈ schema.fields ∧ NoTrailingBlank f.name.toList)
      (fun key hkey => ⟨(hwf.readable key hkey).mem_fields,
        (hwf.readable key hkey).holds.noTrailingBlank⟩)
      ⟨hcandidate.mem_fields, hcandidate.holds.noTrailingBlank⟩
  have hfields : ∀ key ∈ next, key.field ∈ schema.fields := by
    intro key hkey
    obtain rfl | hold := h.mem_next hkey
    · exact hchanged.1
    · exact (hwf.readable key hold).mem_fields
  have hiff := labels_parse_textOf_iff (d := { d with keys := next }) hfields
  refine hiff.trans ⟨?_, ?_⟩
  · -- What text can hold of the changed key is read off its own token.
    intro ⟨hnext, hall⟩
    obtain ⟨hcomma, hempty⟩ := hall changed h.changed_mem_next
    refine ⟨hcomma, fun hascending => ⟨fun hname => hempty ⟨hascending, hname⟩, ?_⟩⟩
    have hholds := (hnext.readable changed h.changed_mem_next).holds
    rw [hascending] at hholds
    exact ⟨hholds.1, hholds.2.2⟩
  · -- Every other key was there before, and came back then.
    intro ⟨hcomma, hascending⟩
    have hreadable : changed.Readable schema := by
      refine ⟨hchanged.1, ?_⟩
      cases hdirection : changed.direction with
      | ascending =>
        obtain ⟨-, hfront, hdash⟩ := hascending hdirection
        exact ⟨hfront, hchanged.2, hdash⟩
      | descending => exact hchanged.2
    refine ⟨⟨?_, fun hpolicy => h.pairwise_next (hwf.distinct hpolicy)⟩, ?_⟩
    · intro key hkey
      obtain rfl | hold := h.mem_next hkey
      · exact hreadable
      · exact hwf.readable key hold
    · intro key hkey
      obtain rfl | hold := h.mem_next hkey
      · exact ⟨hcomma, fun ⟨hdirection, hname⟩ => (hascending hdirection).1 hname⟩
      · exact hsurvive key hold

/-- **Turning round or adding a key.** Of a descriptor that was made and that
    reads back from its own text, a toggle gives the text of its keys with the
    first key on the token's field turned round, or with the token's key added
    where there is none, and reports nothing. That text reads back as these
    keys just if the changed key has no comma in its name and, where it is
    ascending now, a name that is not empty and begins with neither a blank
    nor a dash. A token that names no field leaves the text as it is. -/
theorem edited_toggle (schema : Schema ε) (recipe : Recipe) (token : String)
    (hreread : Chain.labels (reread schema (make schema recipe).value).value.keys =
      Chain.labels (make schema recipe).value.keys) :
    let d := (make schema recipe).value
    match SortKey.ofToken? schema token with
    | none => (d.edited schema (.toggle token)).value = d.text
    | some candidate => ∃ changed next, Toggles candidate d.keys changed next ∧
        d.edited schema (.toggle token) = pure (textOf next) ∧
        (Chain.labels (parse schema (textOf next) d.config).value.keys = Chain.labels next ↔
          ',' ∉ changed.name.toList ∧ (changed.direction = .ascending → changed.name ≠ "" ∧
            NoLeadingBlank changed.name.toList ∧ changed.name.toList.head? ≠ some '-')) := by
  intro d
  have hwf : d.WellFormed schema := wellFormed_make schema recipe
  have hsurvive : ∀ key ∈ d.keys, key.SurvivesText := (labels_reread_iff hwf).mp hreread
  have hsame : reread schema d = pure d := (reread_eq_pure_iff hwf).mpr hsurvive
  cases htoken : SortKey.ofToken? schema token with
  | none =>
    show (d.edited schema (.toggle token)).value = d.text
    have hnone : SortKey.ofToken? schema (Edit.toggle token).token = none := htoken
    rw [edited_of_eq_none hnone]
  | some candidate =>
    obtain ⟨changed, htoggles⟩ := Toggles.exists_toggleOrAppend candidate d.keys
    refine ⟨changed, _, htoggles, edited_of_eq_some hsame htoken, ?_⟩
    exact labels_parse_toggles_iff hwf hsurvive
      (SortKey.readable_of_ofToken? htoken) htoggles

/-- A field, and another whose name is that of the first behind a dash. -/
def dashedSchema : Schema Row where
  fields := [Row.field "Id" .int 0, Row.field "-Id" .int 1]
  distinct := by decide +kernel

/-- Of two keys on `-Id` that are both retained, the first is turned round. It
    loses the dash before its name, so the text reads back as a key on `Id`. -/
theorem edited_toggle_dashed :
    let d := (make dashedSchema
      (.tokens ["--Id", "Id", "--Id"] { duplicateFields := .retain })).value
    Chain.labels (reread dashedSchema d).value.keys = Chain.labels d.keys ∧
      d.text = "--Id,Id,--Id" ∧
      ∃ changed next, Toggles ⟨Row.field "-Id" .int 1, .descending⟩ d.keys changed next ∧
        changed.label = ("-Id", .ascending) ∧
        Chain.labels next = [("-Id", .ascending), ("Id", .ascending), ("-Id", .descending)] ∧
        d.edited dashedSchema (.toggle "--Id") = pure "-Id,Id,--Id" ∧
        Chain.labels (parse dashedSchema "-Id,Id,--Id" d.config).value.keys =
          [("Id", .descending), ("Id", .ascending), ("-Id", .descending)] ∧
        Chain.labels (parse dashedSchema "-Id,Id,--Id" d.config).value.keys ≠
          Chain.labels next := by
  intro d
  have hreread : Chain.labels (reread dashedSchema d).value.keys = Chain.labels d.keys := by
    decide +kernel
  have htoken : SortKey.ofToken? dashedSchema "--Id" =
      some ⟨Row.field "-Id" .int 1, .descending⟩ := by
    refine SortKey.ofToken?_eq_some_iff.mpr ⟨?_, ?_, ?_⟩
    · exact List.mem_cons_of_mem _ (List.mem_singleton_self _)
    · decide +kernel
    · decide +kernel
  have htoggle := edited_toggle dashedSchema
    (.tokens ["--Id", "Id", "--Id"] { duplicateFields := .retain }) "--Id" hreread
  simp only [htoken] at htoggle
  obtain ⟨changed, next, htoggles, hedited, hiff⟩ := htoggle
  have hnext : Chain.labels next =
      [("-Id", .ascending), ("Id", .ascending), ("-Id", .descending)] := by
    rw [htoggles.next_eq]
    decide +kernel
  have htext : textOf next = "-Id,Id,--Id" := by
    rw [htoggles.next_eq]
    decide +kernel
  have hname : changed.name = "-Id" := htoggles.name_changed
  -- There are keys on `-Id`, all of them descending, and one was turned round.
  have hdirection : changed.direction = .ascending := by
    have hkeys : ∀ key ∈ d.keys, key.name = "-Id" → key.direction = .descending := by
      decide +kernel
    have hsome : ¬ ∀ key ∈ d.keys, key.name ≠ "-Id" := by decide +kernel
    obtain ⟨key, hkey, hsame, turn⟩ | ⟨habsent, -⟩ := htoggles.changed_cases
    · rw [turn.direction_eq, hkeys key hkey hsame]
      rfl
    · exact absurd habsent hsome
  rw [htext] at hedited hiff
  refine ⟨hreread, by decide +kernel, changed, next, htoggles, Prod.ext hname hdirection, hnext,
    hedited, by decide +kernel, ?_⟩
  intro hread
  have hdash := ((hiff.mp hread).2 hdirection).2.2
  rw [hname] at hdash
  exact hdash rfl

end Descriptor

end RowOrder
