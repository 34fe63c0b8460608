import RowOrder.Proofs.Edits

/-! # Taking a key away

    A removal takes away the first key on the token's field and leaves all
    others where they are. Unlike a toggle it makes no key that was not there
    before, so nothing new can be lost in text: what is left of keys that read
    back reads back (`Descriptor.edited_remove`), whatever the names.

    Where only the first key on a field counts, the field is gone after that.
    Where all are retained, the next key on it becomes the first.
-/

namespace RowOrder

variable {ε : Type} {schema : Schema ε}

/-! ### Keys without the first one on a field -/

theorem SortKey.count_names_eq_zero {name : String} {keys : List (SortKey ε)}
    (h : ∀ k ∈ keys, k.name ≠ name) : (keys.map SortKey.name).count name = 0 := by
  rw [List.count_eq_zero]
  intro hmem
  obtain ⟨k, hk, hname⟩ := List.mem_map.mp hmem
  exact h k hk hname

/-- `Drops name keys next` says that `next` is `keys` without the first key on
    the field of that name, or all of `keys` if no key is on it. -/
inductive Drops (name : String) : List (SortKey ε) → List (SortKey ε) → Prop where
  /-- The first key on the field is taken away. -/
  | dropped {before after : List (SortKey ε)} {key : SortKey ε}
      (first : ∀ k ∈ before, k.name ≠ name) (same : key.name = name) :
      Drops name (before ++ key :: after) (before ++ after)
  /-- No key is on the field. -/
  | absent {keys : List (SortKey ε)} (none : ∀ k ∈ keys, k.name ≠ name) : Drops name keys keys

namespace Drops

variable {name : String} {keys next : List (SortKey ε)}

theorem withoutFirst (name : String) (keys : List (SortKey ε)) :
    Drops name keys (Edit.withoutFirst name keys) := by
  unfold Edit.withoutFirst
  by_cases hpresent : ∃ k ∈ keys, k.name = name
  · obtain ⟨k, hk, hname⟩ := hpresent
    obtain ⟨key, before, after, hfirst, hsame, hkeys, hnext⟩ :=
      List.exists_of_eraseP hk (p := fun key : SortKey ε => key.name = name) (by simpa using hname)
    rw [hnext, hkeys]
    exact dropped (fun l hl => by simpa using hfirst l hl) (by simpa using hsame)
  · have habsent : ∀ k ∈ keys, k.name ≠ name := fun k hk hname => hpresent ⟨k, hk, hname⟩
    rw [List.eraseP_of_forall_not (by simpa using habsent)]
    exact absent habsent

theorem eq_of_absent (h : Drops name keys next) (habsent : ∀ k ∈ keys, k.name ≠ name) :
    next = keys := by
  cases h with
  | dropped first same => exact absurd same (habsent _ (by simp))
  | absent none => rfl

theorem sublist (h : Drops name keys next) : next.Sublist keys := by
  cases h with
  | dropped first same => exact (List.sublist_cons_self _ _).append_left _
  | absent none => exact List.Sublist.refl _

/-- The field has one key less, if it had any. -/
theorem count_names (h : Drops name keys next) :
    (next.map SortKey.name).count name = (keys.map SortKey.name).count name - 1 := by
  cases h with
  | dropped first same => simp [SortKey.count_names_eq_zero first, same]
  | absent none => rw [SortKey.count_names_eq_zero none]

/-- Where no two keys are on one field, what is left are the keys on others. -/
theorem eq_filter (h : Drops name keys next)
    (hkeys : keys.Pairwise fun k l => k.name ≠ l.name) :
    next = keys.filter fun key => key.name ≠ name := by
  cases h with
  | dropped first same =>
    rename_i before after key
    -- No key behind the one that is taken away is on its field.
    obtain ⟨-, hrest, -⟩ := List.pairwise_append.mp hkeys
    have hafter : ∀ k ∈ after, k.name ≠ name :=
      fun k hk hname => (List.pairwise_cons.mp hrest).1 k hk (same.trans hname.symm)
    rw [List.filter_append, List.filter_cons_of_neg (by simpa using same),
      List.filter_eq_self.mpr (by simpa using first),
      List.filter_eq_self.mpr (by simpa using hafter)]
  | absent none => exact (List.filter_eq_self.mpr (by simpa using none)).symm

/-- Where no two keys were on one field, none is left on this one. -/
theorem name_ne (h : Drops name keys next) (hkeys : keys.Pairwise fun k l => k.name ≠ l.name)
    {key : SortKey ε} (hkey : key ∈ next) : key.name ≠ name := by
  rw [h.eq_filter hkeys] at hkey
  simpa using (List.mem_filter.mp hkey).2

end Drops

namespace Descriptor

/-! ### Removals -/

/-- Taking keys away keeps the invariant of reading. -/
theorem WellFormed.sublist {d : Descriptor ε} (h : d.WellFormed schema)
    {next : List (SortKey ε)} (hnext : next.Sublist d.keys) :
    WellFormed schema { d with keys := next } where
  readable key hkey := h.readable key (hnext.subset hkey)
  distinct hpolicy := (h.distinct hpolicy).sublist hnext

/-- **Taking a key away.** Of a descriptor that was made and that reads back
    from its own text, a removal gives the text of its keys without the first
    one on the token's field, and reports nothing; where there is no such key
    the text stays as it is. A token that names no field leaves it as it is
    too. The text always reads back as these keys, without an event, so the
    field has one key less then, and none where only the first counts. -/
theorem edited_remove (schema : Schema ε) (recipe : Recipe) (token : String)
    (hreread : Chain.labels (reread schema (make schema recipe).value).value.keys =
      Chain.labels (make schema recipe).value.keys) :
    let d := (make schema recipe).value
    let edited := d.edited schema (.remove token)
    ∃ next : Descriptor ε, parse schema edited.value d.config = pure next ∧
      match SortKey.ofToken? schema token with
      | none => edited = ⟨d.text, [.unknownField token]⟩ ∧ next = d
      | some candidate =>
        edited = pure next.text ∧ next.config = d.config ∧
        Drops candidate.name d.keys next.keys ∧
        ((∀ key ∈ d.keys, key.name ≠ candidate.name) → next = d ∧ edited.value = d.text) ∧
        (d.config.duplicateFields = .keepFirst → ∀ key ∈ next.keys, key.name ≠ candidate.name) ∧
        (next.keys.map SortKey.name).count candidate.name =
          (d.keys.map SortKey.name).count candidate.name - 1 := by
  intro d edited
  have hwf : d.WellFormed schema := wellFormed_make schema recipe
  have hsurvive : ∀ key ∈ d.keys, key.SurvivesText := (labels_reread_iff hwf).mp hreread
  have hsame : reread schema d = pure d := (reread_eq_pure_iff hwf).mpr hsurvive
  cases htoken : SortKey.ofToken? schema token with
  | none =>
    have hnone : SortKey.ofToken? schema (Edit.remove token).token = none := htoken
    have hedited : edited = ⟨d.text, [.unknownField token]⟩ := edited_of_eq_none hnone
    refine ⟨d, ?_, hedited, rfl⟩
    rw [hedited]
    exact hsame
  | some candidate =>
    let next : Descriptor ε := { d with keys := Edit.withoutFirst candidate.name d.keys }
    have hdrops : Drops candidate.name d.keys next.keys := Drops.withoutFirst candidate.name d.keys
    have hedited : edited = pure next.text := edited_of_eq_some hsame htoken
    -- Every key that is left was there before, and came back then.
    have hread : parse schema next.text next.config = pure next :=
      parse_textOf (hwf.sublist hdrops.sublist) fun key hkey =>
        hsurvive key (hdrops.sublist.subset hkey)
    refine ⟨next, ?_, hedited, rfl, hdrops, ?_, ?_, hdrops.count_names⟩
    · rw [hedited]
      exact hread
    · intro habsent
      have hnext : next = d := eq_of_keys_eq (hdrops.eq_of_absent habsent) rfl
      rw [hedited, hnext]
      exact ⟨rfl, rfl⟩
    · intro hpolicy key hkey
      exact hdrops.name_ne (hwf.distinct hpolicy) hkey

/-- Of two keys on a field that are both retained, the first is taken away: the
    text of what is left has the other one, in its place. -/
theorem edited_remove_retained :
    let d := (make dashedSchema
      (.tokens ["--Id", "Id", "--Id"] { duplicateFields := .retain })).value
    let edited := d.edited dashedSchema (.remove "--Id")
    d.text = "--Id,Id,--Id" ∧ edited.value = "Id,--Id" ∧
      ∃ next : Descriptor Row, parse dashedSchema edited.value d.config = pure next ∧
        edited = pure next.text ∧ Drops "-Id" d.keys next.keys ∧
        (next.keys.map SortKey.name).count "-Id" = 1 := by
  intro d edited
  have hreread : Chain.labels (reread dashedSchema d).value.keys = Chain.labels d.keys := by
    decide +kernel
  have htoken : SortKey.ofToken? dashedSchema "--Id" =
      some ⟨Row.field "-Id" .int 1, .descending⟩ := by
    refine SortKey.ofToken?_eq_some_iff.mpr ⟨?_, ?_, ?_⟩
    · exact List.mem_cons_of_mem _ (List.mem_singleton_self _)
    · decide +kernel
    · decide +kernel
  obtain ⟨next, hparse, hnext⟩ := edited_remove dashedSchema
    (.tokens ["--Id", "Id", "--Id"] { duplicateFields := .retain }) "--Id" hreread
  simp only [htoken] at hnext
  obtain ⟨hedited, -, hdrops, -, -, hcount⟩ := hnext
  have hbefore : (d.keys.map SortKey.name).count "-Id" = 2 := by decide +kernel
  refine ⟨by decide +kernel, by decide +kernel, next, hparse, hedited, hdrops, ?_⟩
  calc (next.keys.map SortKey.name).count "-Id"
      = (d.keys.map SortKey.name).count "-Id" - 1 := hcount
    _ = 1 := by rw [hbefore]

end Descriptor

end RowOrder
