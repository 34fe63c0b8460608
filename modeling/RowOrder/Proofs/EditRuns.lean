import Mathlib.Data.List.DropRight
import RowOrder.Proofs.PlainNames
import RowOrder.Row

/-! # Runs of edits and their history

    What a run of edits leaves of a descriptor without keys, read off the list
    of edits alone. A field is looked at by itself: only the edits count for it
    that came after the last one that took it away (`History.sinceRemoval`).

    - The first of them that toggles the field gives its key a place and a
      direction, and each later one turns the key round.
    - `History.Accounts` says this of a list of keys, and
      `History.accounts_followAll` that it is true of the keys after a run of
      edits in a schema of plain names, and of no other list.
-/

namespace RowOrder

variable {ε : Type} {schema : Schema ε}

/-! ### What an edit does to one field -/

namespace Edit

/-- Whether the token of the edit names the field of this name. -/
def names (schema : Schema ε) (name : String) (edit : Edit) : Bool :=
  (SortKey.ofToken? schema edit.token).any fun key => key.name = name

/-- Whether the edit takes the field of this name away. -/
def removes (schema : Schema ε) (name : String) (edit : Edit) : Bool :=
  match edit with
  | .toggle _ => false
  | .remove _ => edit.names schema name

/-- The direction that the edit's token carries, if the edit toggles the field
    of this name. -/
def turn? (schema : Schema ε) (name : String) (edit : Edit) : Option Direction :=
  match edit with
  | .toggle token => if edit.names schema name then some (Token.direction token) else none
  | .remove _ => none

theorem names_of_eq_none {edit : Edit} (h : SortKey.ofToken? schema edit.token = none)
    (name : String) : edit.names schema name = false := by
  unfold names
  rw [h]
  rfl

theorem names_of_eq_some {edit : Edit} {candidate : SortKey ε}
    (h : SortKey.ofToken? schema edit.token = some candidate) (name : String) :
    edit.names schema name = decide (candidate.name = name) := by
  unfold names
  rw [h]
  rfl

theorem removes_of_names_eq_false {edit : Edit} {name : String}
    (h : edit.names schema name = false) : edit.removes schema name = false := by
  cases edit with
  | toggle token => rfl
  | remove token => exact h

theorem turn?_of_names_eq_false {edit : Edit} {name : String}
    (h : edit.names schema name = false) : edit.turn? schema name = none := by
  cases edit with
  | toggle token => simp [turn?, h]
  | remove token => rfl

theorem turn?_of_eq_some {token : String} {candidate : SortKey ε}
    (h : SortKey.ofToken? schema (toggle token).token = some candidate) :
    (toggle token).turn? schema candidate.name = some candidate.direction := by
  have hnames : (toggle token).names schema candidate.name = true := by
    rw [names_of_eq_some h]
    exact decide_eq_true rfl
  obtain ⟨-, -, hdirection⟩ := SortKey.ofToken?_eq_some_iff.mp h
  rw [turn?, if_pos hnames, hdirection]
  rfl

end Edit

/-! ### The history of one field -/

namespace History

/-- The edits after the last one that takes the field of this name away; all
    of them if none does. -/
def sinceRemoval (schema : Schema ε) (name : String) (edits : List Edit) : List Edit :=
  edits.rtakeWhile fun edit => !edit.removes schema name

/-- The directions that the tokens carry which toggle the field since then. -/
def turns (schema : Schema ε) (name : String) (edits : List Edit) : List Direction :=
  (sinceRemoval schema name edits).filterMap (Edit.turn? schema name)

/-- The first direction turned round once for each later one. -/
def settle : List Direction → Option Direction
  | [] => none
  | first :: later => some (later.foldl (fun direction _ => direction.toggled) first)

/-- The direction of the field's key after the edits, if there is such a key. -/
def direction? (schema : Schema ε) (name : String) (edits : List Edit) : Option Direction :=
  settle (turns schema name edits)

/-- The place in the run of the first edit that toggles the field since it was
    last taken away. -/
def start (schema : Schema ε) (name : String) (edits : List Edit) : Nat :=
  edits.length - (sinceRemoval schema name edits).length +
    (sinceRemoval schema name edits).findIdx fun edit => (edit.turn? schema name).isSome

/-- What the history of a run says of the keys after it: which fields have a
    key, in which direction, and in which order. -/
structure Accounts (schema : Schema ε) (edits : List Edit) (keys : List (SortKey ε)) : Prop where
  /-- The keys are those on a field of the schema that was toggled since it was
      last taken away, in the direction of the first such toggle turned round
      by each later one. -/
  mem_iff (key : SortKey ε) :
    key ∈ keys ↔ key.field ∈ schema.fields ∧ direction? schema key.name edits = some key.direction
  /-- They stand in the order of these first toggles. -/
  ordered : keys.Pairwise fun k l => start schema k.name edits < start schema l.name edits

/-! ### One more edit, for one field -/

theorem settle_concat (directions : List Direction) (d : Direction) :
    settle (directions ++ [d]) = some ((settle directions).elim d Direction.toggled) := by
  cases directions with
  | nil => rfl
  | cons first later => simp [settle]

theorem settle_eq_none_iff {directions : List Direction} :
    settle directions = none ↔ directions = [] := by
  cases directions <;> simp [settle]

section Concat
variable {edits : List Edit} {edit : Edit} {name : String}

theorem sinceRemoval_concat_of_removes (h : edit.removes schema name = true) :
    sinceRemoval schema name (edits ++ [edit]) = [] := by
  unfold sinceRemoval
  exact List.rtakeWhile_concat_neg _ _ _ (by simp [h])

theorem sinceRemoval_concat (h : edit.removes schema name = false) :
    sinceRemoval schema name (edits ++ [edit]) = sinceRemoval schema name edits ++ [edit] := by
  unfold sinceRemoval
  exact List.rtakeWhile_concat_pos _ _ _ (by simp [h])

theorem direction?_concat_of_removes (h : edit.removes schema name = true) :
    direction? schema name (edits ++ [edit]) = none := by
  unfold direction? turns
  rw [sinceRemoval_concat_of_removes h]
  rfl

theorem turns_concat (h : edit.removes schema name = false) :
    turns schema name (edits ++ [edit]) =
      turns schema name edits ++ (edit.turn? schema name).toList := by
  unfold turns
  rw [sinceRemoval_concat h, List.filterMap_append]
  cases hturn : edit.turn? schema name <;> simp [hturn]

/-- An edit that does not name a field leaves its direction. -/
theorem direction?_concat_of_not_names (h : edit.names schema name = false) :
    direction? schema name (edits ++ [edit]) = direction? schema name edits := by
  unfold direction?
  rw [turns_concat (Edit.removes_of_names_eq_false h), Edit.turn?_of_names_eq_false h,
    Option.toList_none, List.append_nil]

/-- An edit whose token names one field leaves the direction of every other. -/
theorem direction?_concat_of_name_ne {candidate : SortKey ε}
    (hsome : SortKey.ofToken? schema edit.token = some candidate)
    (hname : name ≠ candidate.name) :
    direction? schema name (edits ++ [edit]) = direction? schema name edits := by
  apply direction?_concat_of_not_names
  rw [Edit.names_of_eq_some hsome]
  exact decide_eq_false hname.symm

/-- A toggle of a field without a key gives it the direction of the token, and
    a toggle of one with a key turns that round. -/
theorem direction?_concat_of_turn {d : Direction} (hremoves : edit.removes schema name = false)
    (hturn : edit.turn? schema name = some d) :
    direction? schema name (edits ++ [edit]) =
      some ((direction? schema name edits).elim d Direction.toggled) := by
  unfold direction?
  rw [turns_concat hremoves, hturn]
  exact settle_concat _ d

theorem length_sinceRemoval_le (schema : Schema ε) (name : String) (edits : List Edit) :
    (sinceRemoval schema name edits).length ≤ edits.length :=
  (List.rtakeWhile_suffix _ _).length_le

/-- A field has a key just if some edit since its last removal toggles it. -/
theorem direction?_ne_none_iff :
    direction? schema name edits ≠ none ↔
      (sinceRemoval schema name edits).findIdx (fun edit => (edit.turn? schema name).isSome) <
        (sinceRemoval schema name edits).length := by
  unfold direction? turns
  rw [ne_eq, settle_eq_none_iff, List.filterMap_eq_nil_iff, List.findIdx_lt_length]
  simp [Option.isSome_iff_ne_none]

/-- The place of a key lies within the run. -/
theorem start_lt_length (h : direction? schema name edits ≠ none) :
    start schema name edits < edits.length := by
  have hfound := direction?_ne_none_iff.mp h
  have hle := length_sinceRemoval_le schema name edits
  unfold start
  omega

/-- Unless the field is taken away, its key keeps its place. -/
theorem start_concat (h : direction? schema name edits ≠ none)
    (hremoves : edit.removes schema name = false) :
    start schema name (edits ++ [edit]) = start schema name edits := by
  have hfound := direction?_ne_none_iff.mp h
  have hle := length_sinceRemoval_le schema name edits
  unfold start
  rw [sinceRemoval_concat hremoves, List.findIdx_append, if_pos hfound, List.length_append,
    List.length_append, List.length_singleton]
  omega

/-- A key that is added stands where the run ended before. -/
theorem start_concat_of_turn (h : direction? schema name edits = none)
    (hremoves : edit.removes schema name = false) (hturn : (edit.turn? schema name).isSome) :
    start schema name (edits ++ [edit]) = edits.length := by
  have habsent : ¬ (sinceRemoval schema name edits).findIdx
      (fun edit => (edit.turn? schema name).isSome) < (sinceRemoval schema name edits).length :=
    fun hfound => direction?_ne_none_iff.mpr hfound h
  have hle := length_sinceRemoval_le schema name edits
  unfold start
  rw [sinceRemoval_concat hremoves, List.findIdx_append, if_neg habsent, List.length_append,
    List.length_append, List.length_singleton]
  simp only [List.findIdx_singleton, hturn, if_true]
  omega

end Concat

/-! ### One more edit, for all keys -/

namespace Accounts

variable {edits : List Edit} {keys : List (SortKey ε)}

theorem nil (schema : Schema ε) : Accounts schema [] ([] : List (SortKey ε)) where
  mem_iff := by simp [direction?, turns, sinceRemoval, settle]
  ordered := List.Pairwise.nil

theorem direction?_ne_none (h : Accounts schema edits keys) {key : SortKey ε} (hkey : key ∈ keys) :
    direction? schema key.name edits ≠ none := by
  rw [((h.mem_iff key).mp hkey).2]
  exact Option.some_ne_none _

/-- A field without a key has no direction. -/
theorem direction?_eq_none (h : Accounts schema edits keys) {candidate : SortKey ε}
    (hfield : candidate.field ∈ schema.fields)
    (habsent : ∀ key ∈ keys, key.name ≠ candidate.name) :
    direction? schema candidate.name edits = none := by
  by_contra hne
  obtain ⟨d, hd⟩ := Option.ne_none_iff_exists'.mp hne
  have hmem : ⟨candidate.field, d⟩ ∈ keys := (h.mem_iff ⟨candidate.field, d⟩).mpr ⟨hfield, hd⟩
  exact habsent _ hmem rfl

/-- No two keys are on one field, since they have different places. -/
theorem distinct (h : Accounts schema edits keys) : keys.Pairwise fun k l => k.name ≠ l.name := by
  refine h.ordered.imp ?_
  intro k l hlt hname
  rw [hname] at hlt
  exact Nat.lt_irrefl _ hlt

/-- Keys that an edit does not take away stay in the order of their places. -/
theorem pairwise_concat (h : Accounts schema edits keys) {edit : Edit} {kept : List (SortKey ε)}
    (hkept : kept.Sublist keys) (hremoves : ∀ key ∈ kept, edit.removes schema key.name = false) :
    kept.Pairwise fun k l =>
      start schema k.name (edits ++ [edit]) < start schema l.name (edits ++ [edit]) := by
  -- A key that stays keeps its place, since its field is live and not taken away.
  have hstart : ∀ key ∈ kept,
      start schema key.name (edits ++ [edit]) = start schema key.name edits :=
    fun key hkey => start_concat (h.direction?_ne_none (hkept.subset hkey)) (hremoves key hkey)
  refine (h.ordered.sublist hkept).imp_of_mem ?_
  intro k l hk hl hlt
  rw [hstart k hk, hstart l hl]
  exact hlt

theorem concat_of_unknown (h : Accounts schema edits keys) {edit : Edit}
    (hnone : SortKey.ofToken? schema edit.token = none) :
    Accounts schema (edits ++ [edit]) keys where
  mem_iff key := by
    rw [direction?_concat_of_not_names (Edit.names_of_eq_none hnone key.name)]
    exact h.mem_iff key
  ordered := h.pairwise_concat (List.Sublist.refl keys) fun key _ =>
    Edit.removes_of_names_eq_false (Edit.names_of_eq_none hnone key.name)

/-- After a toggle the history gives the changed key its direction. -/
theorem direction?_changed (h : Accounts schema edits keys) {token : String}
    {candidate changed : SortKey ε} {next : List (SortKey ε)}
    (hsome : SortKey.ofToken? schema (Edit.toggle token).token = some candidate)
    (htoggles : Toggles candidate keys changed next) :
    direction? schema candidate.name (edits ++ [.toggle token]) = some changed.direction := by
  rw [direction?_concat_of_turn rfl (Edit.turn?_of_eq_some hsome)]
  -- A key that is turned round had a direction before; an added one had none.
  cases htoggles with
  | turned first same turn =>
    rename_i before after key
    have hkey := ((h.mem_iff key).mp (by simp)).2
    rw [same] at hkey
    rw [hkey, turn.direction_eq]
    rfl
  | added absent =>
    have hfield := (SortKey.ofToken?_eq_some_iff.mp hsome).1
    rw [h.direction?_eq_none hfield absent]
    rfl

/-- After a toggle the history accounts for the changed key, and for the
    others as before. -/
theorem mem_iff_of_toggle (h : Accounts schema edits keys) {token : String}
    {candidate changed : SortKey ε} {next : List (SortKey ε)}
    (hsome : SortKey.ofToken? schema (Edit.toggle token).token = some candidate)
    (htoggles : Toggles candidate keys changed next) (key : SortKey ε) :
    key ∈ next ↔ key.field ∈ schema.fields ∧
      direction? schema key.name (edits ++ [.toggle token]) = some key.direction := by
  have hfield : changed.field ∈ schema.fields :=
    htoggles.field_changed (P := (· ∈ schema.fields)) (fun k hk => ((h.mem_iff k).mp hk).1)
      (SortKey.ofToken?_eq_some_iff.mp hsome).1
  have hdirection : direction? schema changed.name (edits ++ [.toggle token]) =
      some changed.direction := by
    rw [htoggles.name_changed]
    exact h.direction?_changed hsome htoggles
  rw [htoggles.mem_next_iff h.distinct]
  by_cases hname : key.name = candidate.name
  · -- On the toggled field the history leaves room for one key, the changed one.
    have hchanged : key.name = changed.name := hname.trans htoggles.name_changed.symm
    constructor
    · intro hkey
      obtain rfl : key = changed := hkey.resolve_right fun hother => hother.2 hname
      exact ⟨hfield, hdirection⟩
    · intro ⟨hmem, hkey⟩
      rw [hchanged, hdirection] at hkey
      have hlabel : key.label = changed.label :=
        Prod.ext hchanged (Option.some.inj hkey).symm
      exact .inl (SortKey.eq_of_label_eq hmem hfield hlabel)
  · rw [direction?_concat_of_name_ne hsome hname, ← h.mem_iff key]
    constructor
    · intro hkey
      obtain rfl | ⟨hold, -⟩ := hkey
      · exact absurd htoggles.name_changed hname
      · exact hold
    · intro hold
      exact .inr ⟨hold, hname⟩

/-- A toggle leaves the keys in the order of their places. -/
theorem ordered_of_toggle (h : Accounts schema edits keys) {token : String}
    {candidate changed : SortKey ε} {next : List (SortKey ε)}
    (hsome : SortKey.ofToken? schema (Edit.toggle token).token = some candidate)
    (htoggles : Toggles candidate keys changed next) :
    next.Pairwise fun k l =>
      start schema k.name (edits ++ [.toggle token]) <
        start schema l.name (edits ++ [.toggle token]) := by
  have hkeys : keys.Pairwise fun k l =>
      start schema k.name (edits ++ [.toggle token]) <
        start schema l.name (edits ++ [.toggle token]) :=
    h.pairwise_concat (List.Sublist.refl keys) fun _ _ => rfl
  obtain hnames | ⟨habsent, rfl, rfl⟩ := htoggles.names_next
  · exact SortKey.pairwise_of_names_eq
      (fun s t => start schema s (edits ++ [.toggle token]) <
        start schema t (edits ++ [.toggle token])) hnames hkeys
  · -- The added key has its place after all the others, at the end of the run.
    have hnone := h.direction?_eq_none (SortKey.ofToken?_eq_some_iff.mp hsome).1 habsent
    have hturn : ((Edit.toggle token).turn? schema changed.name).isSome := by
      rw [Edit.turn?_of_eq_some hsome]
      rfl
    refine List.pairwise_append.mpr ⟨hkeys, List.pairwise_singleton _ _, ?_⟩
    intro k hk l hl
    obtain rfl := List.mem_singleton.mp hl
    have hlive := h.direction?_ne_none hk
    rw [start_concat hlive rfl, start_concat_of_turn hnone rfl hturn]
    exact start_lt_length hlive

theorem concat_toggle (h : Accounts schema edits keys) {token : String}
    {candidate changed : SortKey ε} {next : List (SortKey ε)}
    (hsome : SortKey.ofToken? schema (Edit.toggle token).token = some candidate)
    (htoggles : Toggles candidate keys changed next) :
    Accounts schema (edits ++ [.toggle token]) next where
  mem_iff := h.mem_iff_of_toggle hsome htoggles
  ordered := h.ordered_of_toggle hsome htoggles

theorem concat_remove (h : Accounts schema edits keys) {token : String} {candidate : SortKey ε}
    (hsome : SortKey.ofToken? schema (Edit.remove token).token = some candidate) :
    Accounts schema (edits ++ [.remove token]) (Edit.withoutFirst candidate.name keys) := by
  have hremoves : ∀ name,
      (Edit.remove token).removes schema name = decide (candidate.name = name) :=
    Edit.names_of_eq_some hsome
  rw [(Drops.withoutFirst candidate.name keys).eq_filter h.distinct]
  constructor
  · intro key
    rw [List.mem_filter]
    by_cases hname : key.name = candidate.name
    · have hgone : (Edit.remove token).removes schema key.name = true := by
        rw [hremoves]
        exact decide_eq_true hname.symm
      rw [direction?_concat_of_removes hgone]
      simp [hname]
    · rw [direction?_concat_of_name_ne hsome hname, h.mem_iff key]
      simp [hname]
  · -- The keys that are left are on fields that the edit does not take away.
    apply h.pairwise_concat List.filter_sublist
    intro key hkey
    have hname : key.name ≠ candidate.name := by simpa using (List.mem_filter.mp hkey).2
    rw [hremoves]
    exact decide_eq_false hname.symm

/-- One more edit of the keys is one more edit of the history. -/
theorem concat (h : Accounts schema edits keys) (edit : Edit) :
    Accounts schema (edits ++ [edit]) (edit.after schema keys) := by
  cases hsome : SortKey.ofToken? schema edit.token with
  | none =>
    rw [Edit.after_of_eq_none hsome]
    exact h.concat_of_unknown hsome
  | some candidate =>
    rw [Edit.after_of_eq_some hsome]
    cases edit with
    | toggle token =>
      obtain ⟨changed, htoggles⟩ := Toggles.exists_toggleOrAppend candidate keys
      exact h.concat_toggle hsome htoggles
    | remove token => exact h.concat_remove hsome

/-- The history leaves no choice of the keys. -/
theorem unique {others : List (SortKey ε)} (h : Accounts schema edits keys)
    (hothers : Accounts schema edits others) : keys = others := by
  have hnodup : ∀ {l : List (SortKey ε)}, Accounts schema edits l → l.Nodup :=
    fun hl => hl.distinct.imp fun hname heq => hname (congrArg SortKey.name heq)
  have hperm : keys.Perm others := by
    rw [List.perm_ext_iff_of_nodup (hnodup h) (hnodup hothers)]
    intro key
    rw [h.mem_iff key, hothers.mem_iff key]
  refine hperm.eq_of_pairwise ?_ h.ordered hothers.ordered
  intro k l _ _ hkl hlk
  omega

end Accounts

/-! ### A whole run -/

/-- The keys after a run are those that its history accounts for. -/
theorem accounts_foldl (schema : Schema ε) (edits : List Edit) :
    Accounts schema edits (edits.foldl (fun keys edit => edit.after schema keys) []) := by
  -- The history looks back from the end of the run, so the run is taken apart there.
  induction edits using List.reverseRecOn with
  | nil => exact Accounts.nil schema
  | append_singleton edits edit ih =>
    rw [List.foldl_append]
    exact ih.concat edit

/-- Edits whose token names no field can be left out of a run. -/
theorem foldl_after_filter (schema : Schema ε) (edits : List Edit) (keys : List (SortKey ε)) :
    (edits.filter fun edit => (SortKey.ofToken? schema edit.token).isSome).foldl
        (fun keys edit => edit.after schema keys) keys =
      edits.foldl (fun keys edit => edit.after schema keys) keys := by
  induction edits generalizing keys with
  | nil => rfl
  | cons edit rest ih =>
    cases hsome : SortKey.ofToken? schema edit.token with
    | none =>
      rw [List.filter_cons_of_neg (by simp [hsome]), List.foldl_cons,
        Edit.after_of_eq_none hsome]
      exact ih keys
    | some candidate =>
      rw [List.filter_cons_of_pos (by simp [hsome])]
      exact ih (edit.after schema keys)

/-- **Closed form of a run.** In a schema of plain names, a run of edits that
    starts without keys ends in exactly the keys that its history accounts
    for, and edits whose token names no field have no part in it. -/
theorem accounts_followAll (schema : Schema ε) (hplain : schema.Plain) (edits : List Edit) :
    let final := (Descriptor.followAll schema {} edits).value
    final.config = {} ∧
    (∀ keys, Accounts schema edits keys ↔ keys = final.keys) ∧
    (Descriptor.followAll schema {}
      (edits.filter fun edit => (SortKey.ofToken? schema edit.token).isSome)).value = final := by
  intro final
  have hrun : ∀ run : List Edit, (Descriptor.followAll schema {} run).value =
      { keys := run.foldl (fun keys edit => edit.after schema keys) [] } :=
    Descriptor.value_followAll hplain (Descriptor.wellFormed_empty schema {})
  have hfinal : final.keys = edits.foldl (fun keys edit => edit.after schema keys) [] :=
    congrArg Descriptor.keys (hrun edits)
  have haccounts : Accounts schema edits final.keys := by
    rw [hfinal]
    exact accounts_foldl schema edits
  refine ⟨congrArg Descriptor.config (hrun edits), fun keys => ⟨?_, ?_⟩, ?_⟩
  · intro h
    exact h.unique haccounts
  · intro h
    rw [h]
    exact haccounts
  · show _ = (Descriptor.followAll schema {} edits).value
    rw [hrun, hrun, foldl_after_filter]

/-- Two fields with plain names. -/
def plainSchema : Schema Row where
  fields := [Row.field "Id" .int 0, Row.field "Name" .text 1]
  distinct := by decide +kernel

/-- A run in which `Id` is taken away and toggled again. -/
def exampleRun : List Edit :=
  [.toggle "-Id", .toggle "Name", .toggle "Id", .remove " Id ", .toggle "Age", .toggle "Id",
    .toggle "-Name"]

/-- After this run `Name` stands first, turned round once, and `Id` behind it
    as it was toggled last. -/
theorem accounts_followAll_exampleRun :
    let final := (Descriptor.followAll plainSchema {} exampleRun).value
    Chain.labels final.keys = [("Name", .descending), ("Id", .ascending)] ∧
    plainSchema.Plain ∧
    final.config = {} ∧
    (∀ keys, Accounts plainSchema exampleRun keys ↔ keys = final.keys) ∧
    (Descriptor.followAll plainSchema {}
      (exampleRun.filter fun edit =>
        (SortKey.ofToken? plainSchema edit.token).isSome)).value = final := by
  intro final
  have hplain : plainSchema.Plain := by decide +kernel
  have hlabels : Chain.labels final.keys = [("Name", .descending), ("Id", .ascending)] := by
    decide +kernel
  refine ⟨hlabels, hplain, ?_⟩
  exact accounts_followAll plainSchema hplain exampleRun

end History

end RowOrder
