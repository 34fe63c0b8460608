import RowOrder.Proofs.FirstKeys
import RowOrder.Proofs.Text.Commas

/-! # What becomes of each token

    A reading accounts for every token. The token names no field and is
    reported as given, or it repeats the field of an earlier token, where only
    the first counts, and the field is reported, or it gives a key.

    - `Verdict.Of` says which of these it is, from the token and those before
      it alone: what became of the earlier tokens does not matter. What the
      token holds is `Token.Reads`, and the tokens of a text are what
      `Text.CutsInto` says.
    - `Descriptor.exists_verdicts`: the keys of a reading and its events are
      read off the verdicts on its tokens, each in the order of the tokens.
    - `Descriptor.readings_account`: so keys and events together are as many as
      the tokens, and under the two policies the keys differ by the repeated
      ones, the events by those that report them.
-/

namespace RowOrder

variable {ε : Type} {schema : Schema ε}

/-! ### What a token says -/

namespace Token

/-- A token names the field whose name is what is left of the token without
    blanks and a mark, up to ASCII case. -/
def Names (schema : Schema ε) (token : String) (field : Field ε) : Prop :=
  field ∈ schema.fields ∧ Text.SameName field.name (Token.name token)

/-- Whether a token names some field. -/
def NamesField (schema : Schema ε) (token : String) : Prop := ∃ field, Names schema token field

instance (schema : Schema ε) (token : String) : Decidable (NamesField schema token) :=
  inferInstanceAs
    (Decidable (∃ field ∈ schema.fields, Text.SameName field.name (Token.name token)))

/-- A token stands for the key on the field it names, in its direction. -/
def StandsFor (schema : Schema ε) (token : String) (key : SortKey ε) : Prop :=
  Names schema token key.field ∧ key.direction = Token.direction token

variable {token : String} {key : SortKey ε}

theorem standsFor_iff : StandsFor schema token key ↔ SortKey.ofToken? schema token = some key := by
  rw [SortKey.ofToken?_eq_some_iff, StandsFor, Names, and_assoc]
  rfl

theorem namesField_iff :
    NamesField schema token ↔ ∃ key, SortKey.ofToken? schema token = some key := by
  constructor
  · rintro ⟨field, hnames⟩
    exact ⟨⟨field, direction token⟩, standsFor_iff.mp ⟨hnames, rfl⟩⟩
  · rintro ⟨key, hkey⟩
    exact ⟨key.field, (standsFor_iff.mpr hkey).1⟩

theorem namesField_of_eq_some (h : SortKey.ofToken? schema token = some key) :
    NamesField schema token :=
  namesField_iff.mpr ⟨key, h⟩

theorem not_namesField_of_eq_none (h : SortKey.ofToken? schema token = none) :
    ¬ NamesField schema token := by
  intro hnames
  obtain ⟨key, hkey⟩ := namesField_iff.mp hnames
  rw [h] at hkey
  contradiction

/-- The keys that tokens stand for, one for each token that names a field. -/
theorem forall₂_standsFor (schema : Schema ε) (tokens : List String) :
    List.Forall₂ (StandsFor schema) (tokens.filter fun token => NamesField schema token)
      (tokens.filterMap (SortKey.ofToken? schema)) := by
  induction tokens with
  | nil => exact .nil
  | cons token rest ih =>
    cases hkey : SortKey.ofToken? schema token with
    | none =>
      rw [List.filterMap_cons_none hkey,
        List.filter_cons_of_neg (by simpa using not_namesField_of_eq_none hkey)]
      exact ih
    | some key =>
      rw [List.filterMap_cons_some hkey,
        List.filter_cons_of_pos (by simpa using namesField_of_eq_some hkey)]
      exact .cons (standsFor_iff.mpr hkey) ih

end Token

/-! ### Verdicts -/

/-- What becomes of a token. -/
inductive Verdict (ε : Type) where
  /-- The token names no field and is passed over. -/
  | unknown (token : String)
  /-- The token repeats a field and its key is passed over. -/
  | repeated (key : SortKey ε)
  /-- The token's key is kept. -/
  | kept (key : SortKey ε)

namespace Verdict

/-- The key that is kept. -/
def key? : Verdict ε → Option (SortKey ε)
  | .unknown _ => none
  | .repeated _ => none
  | .kept key => some key

/-- The event that is reported. -/
def event? : Verdict ε → Option Event
  | .unknown token => some (.unknownField token)
  | .repeated key => some (.repeatedField key.name)
  | .kept _ => none

/-- The verdict on a token that comes after others. -/
inductive Of (schema : Schema ε) (policy : DuplicatePolicy) (earlier : List String)
    (token : String) : Verdict ε → Prop where
  /-- The token names no field. -/
  | unknown (hunknown : ¬ Token.NamesField schema token) :
      Of schema policy earlier token (.unknown token)
  /-- Only the first key on a field counts, and an earlier token names this one. -/
  | repeated {key : SortKey ε} (hkey : Token.StandsFor schema token key)
      (hpolicy : policy = .keepFirst) (hearlier : ∃ t ∈ earlier, Token.Names schema t key.field) :
      Of schema policy earlier token (.repeated key)
  /-- The field is new, or all keys are retained. -/
  | kept {key : SortKey ε} (hkey : Token.StandsFor schema token key)
      (hnew : policy = .keepFirst → ¬ ∃ t ∈ earlier, Token.Names schema t key.field) :
      Of schema policy earlier token (.kept key)

/-- `All schema policy tokens verdicts` says that `verdicts` are those on the
    tokens, in their order. -/
inductive All (schema : Schema ε) (policy : DuplicatePolicy) :
    List String → List (Verdict ε) → Prop where
  /-- Without tokens there are none. -/
  | nil : All schema policy [] []
  /-- The last token is judged in view of all before it. -/
  | concat {tokens : List String} {verdicts : List (Verdict ε)} {token : String}
      {verdict : Verdict ε} (h : All schema policy tokens verdicts)
      (hverdict : Of schema policy tokens token verdict) :
      All schema policy (tokens ++ [token]) (verdicts ++ [verdict])

variable {policy : DuplicatePolicy} {tokens : List String} {verdicts : List (Verdict ε)}

theorem All.length_eq (h : All schema policy tokens verdicts) :
    verdicts.length = tokens.length := by
  induction h with
  | nil => rfl
  | concat h hverdict ih => simp [ih]

/-- A verdict leaves a key or an event, and not both. -/
theorem length_keys_add_length_events (verdicts : List (Verdict ε)) :
    (verdicts.filterMap key?).length + (verdicts.filterMap event?).length = verdicts.length := by
  induction verdicts with
  | nil => rfl
  | cons verdict rest ih =>
    cases verdict <;> simp only [List.filterMap_cons, key?, event?, List.length_cons] <;> omega

/-- Where all keys are retained, only tokens that name no field are reported. -/
theorem All.events_of_retain (h : All schema .retain tokens verdicts) :
    verdicts.filterMap event? =
      (tokens.filter fun token => ¬ Token.NamesField schema token).map .unknownField := by
  induction h with
  | nil => rfl
  | concat h hverdict ih =>
    rw [List.filterMap_append, ih, List.filter_append, List.map_append]
    cases hverdict with
    | unknown hunknown => simp [event?, hunknown]
    | repeated hkey hpolicy hearlier => contradiction
    | kept hkey hnew => simp [event?, Token.namesField_of_eq_some (Token.standsFor_iff.mp hkey)]

end Verdict

namespace Descriptor

/-! ### The step and the run -/

/-- There is a key on a field just if some token names the field. -/
theorem hasField_fromTokens_iff {tokens : List String} {config : Config} {field : Field ε}
    (hfield : field ∈ schema.fields) :
    (fromTokens schema tokens config).value.hasField field.name ↔
      ∃ token ∈ tokens, Token.Names schema token field := by
  have hhas : (fromTokens schema tokens config).value.hasField field.name ↔
      field.name ∈ (fromTokens schema tokens config).value.keys.map SortKey.name := by
    simp [hasField]
  rw [hhas, mem_names_fromTokens_iff]
  constructor
  · intro hmem
    obtain ⟨key, hkey, hname⟩ := List.mem_map.mp hmem
    obtain ⟨token, htoken, hof⟩ := List.mem_filterMap.mp hkey
    obtain ⟨hstands, -⟩ := Token.standsFor_iff.mpr hof
    -- Names in the schema's casing tell fields apart, so the key is on this one.
    have heq : key.field = field := Schema.eq_of_name_eq hstands.1 hfield hname
    rw [heq] at hstands
    exact ⟨token, htoken, hstands⟩
  · rintro ⟨token, htoken, hstands⟩
    have hof : SortKey.ofToken? schema token = some ⟨field, Token.direction token⟩ :=
      Token.standsFor_iff.mp ⟨hstands, rfl⟩
    exact List.mem_map.mpr ⟨_, List.mem_filterMap.mpr ⟨token, htoken, hof⟩, rfl⟩

/-- One more token leaves what its verdict says. -/
theorem exists_verdict (schema : Schema ε) (earlier : List String) (token : String)
    (config : Config) :
    let d := (fromTokens schema earlier config).value
    ∃ verdict, Verdict.Of schema config.duplicateFields earlier token verdict ∧
      (take schema d token).value.keys = d.keys ++ verdict.key?.toList ∧
      (take schema d token).events = verdict.event?.toList := by
  intro d
  have hpolicy : d.config.duplicateFields = config.duplicateFields := by
    rw [config_fromTokens]
  -- The step looks at the keys that were kept, the verdict at the earlier tokens.
  have hrepeats : ∀ key : SortKey ε, key.field ∈ schema.fields →
      (d.Repeats key ↔ (∃ t ∈ earlier, Token.Names schema t key.field) ∧
        config.duplicateFields = .keepFirst) := by
    intro key hfield
    rw [Repeats, hpolicy]
    exact and_congr_left' (hasField_fromTokens_iff hfield)
  obtain ⟨hnone, htake⟩ | ⟨key, hkey, ⟨hrep, htake⟩ | ⟨hrep, htake⟩⟩ := take_cases schema d token
  · refine ⟨.unknown token, .unknown (Token.not_namesField_of_eq_none hnone), ?_⟩
    rw [htake]
    exact ⟨(List.append_nil d.keys).symm, rfl⟩
  · have hstands := Token.standsFor_iff.mpr hkey
    obtain ⟨hearlier, hfirst⟩ := (hrepeats key hstands.1.1).mp hrep
    refine ⟨.repeated key, .repeated hstands hfirst hearlier, ?_⟩
    rw [htake]
    exact ⟨(List.append_nil d.keys).symm, rfl⟩
  · have hstands := Token.standsFor_iff.mpr hkey
    have hnew : config.duplicateFields = .keepFirst →
        ¬ ∃ t ∈ earlier, Token.Names schema t key.field :=
      fun hfirst hearlier => hrep ((hrepeats key hstands.1.1).mpr ⟨hearlier, hfirst⟩)
    refine ⟨.kept key, .kept hstands hnew, ?_⟩
    rw [htake]
    exact ⟨rfl, rfl⟩

theorem fromTokens_concat (schema : Schema ε) (tokens : List String) (token : String)
    (config : Config) :
    fromTokens schema (tokens ++ [token]) config =
      fromTokens schema tokens config >>= fun d => take schema d token := by
  simp [fromTokens, List.foldlM_append]

/-- The keys and the events of a reading are read off the verdicts on its
    tokens. -/
theorem exists_verdicts (schema : Schema ε) (tokens : List String) (config : Config) :
    ∃ verdicts, Verdict.All schema config.duplicateFields tokens verdicts ∧
      (fromTokens schema tokens config).value.keys = verdicts.filterMap Verdict.key? ∧
      (fromTokens schema tokens config).events = verdicts.filterMap Verdict.event? := by
  induction tokens using List.reverseRecOn with
  | nil => exact ⟨[], .nil, rfl, rfl⟩
  | append_singleton tokens token ih =>
    obtain ⟨verdicts, hall, hkeys, hevents⟩ := ih
    obtain ⟨verdict, hverdict, hkey, hevent⟩ := exists_verdict schema tokens token config
    refine ⟨verdicts ++ [verdict], hall.concat hverdict, ?_, ?_⟩
    · rw [fromTokens_concat, Logged.value_bind, hkey, hkeys, List.filterMap_append]
      cases verdict <;> rfl
    · rw [fromTokens_concat, Logged.events_bind, hevent, hevents, List.filterMap_append]
      cases verdict <;> rfl

/-! ### The account of a reading -/

/-- What is true of the readings of a list of tokens, one for each
    configuration. -/
structure Accounts (schema : Schema ε) (tokens : List String)
    (read : Config → Logged (Descriptor ε)) : Prop where
  /-- The keys and the events are what the verdicts on the tokens leave, in
      the order of the tokens. -/
  verdicts : ∀ config, ∃ verdicts, Verdict.All schema config.duplicateFields tokens verdicts ∧
    (read config).value.keys = verdicts.filterMap Verdict.key? ∧
    (read config).events = verdicts.filterMap Verdict.event?
  /-- Every token leaves one of them. -/
  total : ∀ config, (read config).value.keys.length + (read config).events.length = tokens.length
  /-- Where all keys are retained, there is one for each token that names a field. -/
  keys_retain : List.Forall₂ (Token.StandsFor schema)
    (tokens.filter fun token => Token.NamesField schema token)
    (read { duplicateFields := .retain }).value.keys
  /-- Then only the other tokens are reported. -/
  events_retain : (read { duplicateFields := .retain }).events =
    (tokens.filter fun token => ¬ Token.NamesField schema token).map .unknownField
  /-- Where only the first key on a field counts, those on a field that an
      earlier key is on are left out. -/
  keys_keepFirst : (read { duplicateFields := .keepFirst }).value.keys =
    Chain.firsts (read { duplicateFields := .retain }).value.keys
  /-- Then no two keys are on one field. -/
  distinct : (read { duplicateFields := .keepFirst }).value.keys.Pairwise
    fun k l => k.name ≠ l.name

theorem accounts_fromTokens (schema : Schema ε) (tokens : List String) :
    Accounts schema tokens (fun config => fromTokens schema tokens config) where
  verdicts := exists_verdicts schema tokens
  total := by
    intro config
    obtain ⟨verdicts, hall, hkeys, hevents⟩ := exists_verdicts schema tokens config
    rw [hkeys, hevents, Verdict.length_keys_add_length_events, hall.length_eq]
  keys_retain := by
    rw [keys_fromTokens_retain]
    exact Token.forall₂_standsFor schema tokens
  events_retain := by
    obtain ⟨verdicts, hall, -, hevents⟩ :=
      exists_verdicts schema tokens { duplicateFields := .retain }
    rw [hevents]
    exact hall.events_of_retain
  keys_keepFirst := by rw [keys_fromTokens_keepFirst, keys_fromTokens_retain]
  distinct := by
    have hwf := wellFormed_fromTokens schema tokens { duplicateFields := .keepFirst }
    exact hwf.distinct (by rw [config_fromTokens])

/-- **Every token is accounted for**, in a list of tokens and in a text alike.
    A token holds the direction and the name that are left of it without the
    blanks at its ends and one dash, and the tokens of a text are the non-empty
    pieces between its commas. -/
theorem readings_account (schema : Schema ε) :
    (∀ token direction name, Token.Reads token direction name ↔
      direction = Token.direction token ∧ name = Token.name token) ∧
    (∀ text tokens, Text.CutsInto text tokens ↔ tokens = Text.segments text) ∧
    (∀ tokens, Accounts schema tokens fun config => fromTokens schema tokens config) ∧
    ∀ text, Accounts schema (Text.segments text) fun config => parse schema text config :=
  ⟨fun _ _ _ => Token.reads_iff, fun _ _ => Text.cutsInto_iff, accounts_fromTokens schema,
    fun text => accounts_fromTokens schema (Text.segments text)⟩

/-- The events stand in the order of the tokens, whatever they report. -/
example :
    let read := fromTokens numberSchema ["Id", " x", "-Id", "y"]
    Chain.labels read.value.keys = [("Id", .ascending)] ∧
      read.events = [.unknownField " x", .repeatedField "Id", .unknownField "y"] := by
  decide +kernel

end Descriptor

end RowOrder
