import RowOrder.Descriptor.Basic
import RowOrder.Proofs.Tokens

/-! # Reading descriptors

    What one token does to a descriptor, and from it what a whole list of
    tokens does.

    - `Descriptor.WellFormed` is the invariant of reading: every key is one
      that a token can stand for, and where repeated fields are passed over no
      two keys are on one field.
    - `Descriptor.wellFormed_iff_exists_recipe`: the descriptors with this
      property are exactly those that can be made, since each of them is read
      back from the texts of its own keys.
-/

namespace RowOrder

variable {ε : Type} {schema : Schema ε}

namespace Descriptor

/-! ### One token -/

/-- A key repeats a field if there is a key on it and only the first counts. -/
def Repeats (d : Descriptor ε) (key : SortKey ε) : Prop :=
  d.hasField key.name ∧ d.config.duplicateFields = .keepFirst

theorem push_of_repeats {d : Descriptor ε} {key : SortKey ε} (h : d.Repeats key) :
    d.push key = ⟨d, [.repeatedField key.name]⟩ := by
  unfold push
  exact if_pos h

theorem push_of_not_repeats {d : Descriptor ε} {key : SortKey ε} (h : ¬ d.Repeats key) :
    d.push key = pure { d with keys := d.keys ++ [key] } := by
  unfold push
  exact if_neg h

theorem take_of_eq_none {d : Descriptor ε} {token : String}
    (h : SortKey.ofToken? schema token = none) :
    take schema d token = ⟨d, [.unknownField token]⟩ := by
  simp only [take, SortKey.read, h]
  rfl

theorem take_of_eq_some {d : Descriptor ε} {token : String} {key : SortKey ε}
    (h : SortKey.ofToken? schema token = some key) : take schema d token = d.push key := by
  simp only [take, SortKey.read, h]
  rw [pure_bind]

/-- Everything that a token can do to a descriptor. -/
theorem take_cases (schema : Schema ε) (d : Descriptor ε) (token : String) :
    (SortKey.ofToken? schema token = none ∧ take schema d token = ⟨d, [.unknownField token]⟩) ∨
    ∃ key, SortKey.ofToken? schema token = some key ∧
      (d.Repeats key ∧ take schema d token = ⟨d, [.repeatedField key.name]⟩ ∨
        ¬ d.Repeats key ∧ take schema d token = pure { d with keys := d.keys ++ [key] }) := by
  cases h : SortKey.ofToken? schema token with
  | none => exact .inl ⟨rfl, take_of_eq_none h⟩
  | some key =>
    refine .inr ⟨key, rfl, ?_⟩
    rw [take_of_eq_some h]
    by_cases hrepeats : d.Repeats key
    · exact .inl ⟨hrepeats, push_of_repeats hrepeats⟩
    · exact .inr ⟨hrepeats, push_of_not_repeats hrepeats⟩

/-! ### The invariant of reading -/

/-- What every descriptor satisfies that was read under a schema. -/
structure WellFormed (schema : Schema ε) (d : Descriptor ε) : Prop where
  /-- Some token stands for each key. -/
  readable : ∀ key ∈ d.keys, key.Readable schema
  /-- Where repeated fields are passed over, no two keys are on one field. -/
  distinct : d.config.duplicateFields = .keepFirst →
    d.keys.Pairwise fun k l => k.name ≠ l.name

theorem wellFormed_empty (schema : Schema ε) (config : Config) :
    WellFormed schema { config } where
  readable := by simp
  distinct := by simp

theorem name_ne_of_not_repeats {d : Descriptor ε} {key : SortKey ε} (h : ¬ d.Repeats key)
    (hpolicy : d.config.duplicateFields = .keepFirst) : ∀ k ∈ d.keys, k.name ≠ key.name := by
  intro k hk hname
  apply h
  refine ⟨?_, hpolicy⟩
  simp only [hasField, List.any_eq_true, decide_eq_true_eq]
  exact ⟨k, hk, hname⟩

theorem wellFormed_push {d : Descriptor ε} (h : d.WellFormed schema) {key : SortKey ε}
    (hkey : key.Readable schema) (hrepeats : ¬ d.Repeats key) :
    WellFormed schema { d with keys := d.keys ++ [key] } where
  readable := by
    intro k hk
    rcases List.mem_append.mp hk with hk | hk
    · exact h.readable k hk
    · obtain rfl := List.mem_singleton.mp hk
      exact hkey
  distinct := by
    intro hpolicy
    refine List.pairwise_append.mpr ⟨h.distinct hpolicy, List.pairwise_singleton _ _, ?_⟩
    intro k hk l hl
    obtain rfl := List.mem_singleton.mp hl
    exact name_ne_of_not_repeats hrepeats hpolicy k hk

/-- One token keeps the invariant. -/
theorem wellFormed_take {d : Descriptor ε} (h : d.WellFormed schema) (token : String) :
    (take schema d token).value.WellFormed schema := by
  obtain ⟨-, htake⟩ | ⟨key, hkey, ⟨-, htake⟩ | ⟨hrepeats, htake⟩⟩ := take_cases schema d token
  · rw [htake]
    exact h
  · rw [htake]
    exact h
  · rw [htake]
    exact wellFormed_push h (SortKey.readable_of_ofToken? hkey) hrepeats

/-! ### A list of tokens -/

theorem value_foldlM_cons (d : Descriptor ε) (token : String) (rest : List String) :
    ((token :: rest).foldlM (take schema) d).value =
      (rest.foldlM (take schema) (take schema d token).value).value := rfl

theorem wellFormed_foldlM {d : Descriptor ε} (h : d.WellFormed schema) (tokens : List String) :
    (tokens.foldlM (take schema) d).value.WellFormed schema := by
  induction tokens generalizing d with
  | nil => exact h
  | cons token rest ih => exact ih (wellFormed_take h token)

theorem config_foldlM (d : Descriptor ε) (tokens : List String) :
    (tokens.foldlM (take schema) d).value.config = d.config := by
  induction tokens generalizing d with
  | nil => rfl
  | cons token rest ih => rw [value_foldlM_cons, ih, config_take]

/-- Every key that was read is the key of one of the tokens. -/
theorem mem_keys_foldlM {d : Descriptor ε} {tokens : List String} {key : SortKey ε}
    (h : key ∈ (tokens.foldlM (take schema) d).value.keys) :
    key ∈ d.keys ∨ ∃ token ∈ tokens, SortKey.ofToken? schema token = some key := by
  induction tokens generalizing d with
  | nil => exact .inl h
  | cons token rest ih =>
    -- The key was there after the first token, or one of the others gave it.
    rcases ih h with hmem | ⟨t, ht, hkey⟩
    · obtain ⟨-, htake⟩ | ⟨k, hk, ⟨-, htake⟩ | ⟨-, htake⟩⟩ := take_cases schema d token
      · rw [htake] at hmem
        exact .inl hmem
      · rw [htake] at hmem
        exact .inl hmem
      · rw [htake] at hmem
        rcases List.mem_append.mp hmem with hmem | hmem
        · exact .inl hmem
        · obtain rfl := List.mem_singleton.mp hmem
          exact .inr ⟨token, List.mem_cons_self, hk⟩
    · exact .inr ⟨t, List.mem_cons_of_mem _ ht, hkey⟩

/-- No token gives more than one key. -/
theorem length_keys_foldlM_le (schema : Schema ε) (d : Descriptor ε) (tokens : List String) :
    (tokens.foldlM (take schema) d).value.keys.length ≤ d.keys.length + tokens.length := by
  induction tokens generalizing d with
  | nil => simp
  | cons token rest ih =>
    have hrest := ih (take schema d token).value
    have htoken : (take schema d token).value.keys.length ≤ d.keys.length + 1 := by
      obtain ⟨-, htake⟩ | ⟨k, -, ⟨-, htake⟩ | ⟨-, htake⟩⟩ := take_cases schema d token <;>
        simp [htake]
    rw [value_foldlM_cons, List.length_cons]
    omega

/-- Tokens for keys that may follow those of a descriptor add these keys, and
    nothing is passed over. -/
theorem foldlM_map_of_ofToken? {write : SortKey ε → String} {d : Descriptor ε}
    {keys : List (SortKey ε)}
    (hwrite : ∀ key ∈ keys, SortKey.ofToken? schema (write key) = some key)
    (h : WellFormed schema { d with keys := d.keys ++ keys }) :
    (keys.map write).foldlM (take schema) d = pure { d with keys := d.keys ++ keys } := by
  induction keys generalizing d with
  | nil => simp
  | cons key rest ih =>
    obtain ⟨hkey, hrest⟩ := List.forall_mem_cons.mp hwrite
    -- If a key on its field stood before it, `h` would have two keys on that field.
    have hrepeats : ¬ d.Repeats key := by
      rintro ⟨hfield, hpolicy⟩
      simp only [hasField, List.any_eq_true, decide_eq_true_eq] at hfield
      obtain ⟨k, hk, hname⟩ := hfield
      have hcross := (List.pairwise_append.mp (h.distinct hpolicy)).2.2
      exact hcross k hk key List.mem_cons_self hname
    have hassoc : d.keys ++ key :: rest = (d.keys ++ [key]) ++ rest := by simp
    rw [hassoc] at h ⊢
    rw [List.map_cons, List.foldlM_cons, take_of_eq_some hkey, push_of_not_repeats hrepeats,
      pure_bind]
    exact ih hrest h

/-! ### Descriptors that can be made -/

/-- A descriptor is read from tokens that stand for its keys, without an event. -/
theorem fromTokens_map_of_ofToken? {write : SortKey ε → String} {d : Descriptor ε}
    (hwrite : ∀ key ∈ d.keys, SortKey.ofToken? schema (write key) = some key)
    (h : d.WellFormed schema) : fromTokens schema (d.keys.map write) d.config = pure d := by
  have hempty : WellFormed schema { config := d.config, keys := [] ++ d.keys } := by
    rw [List.nil_append]
    exact h
  exact foldlM_map_of_ofToken? hwrite hempty

/-- A descriptor is read back from the texts of its own keys. -/
theorem fromTokens_map_render {d : Descriptor ε} (h : d.WellFormed schema) :
    fromTokens schema (d.keys.map SortKey.render) d.config = pure d :=
  fromTokens_map_of_ofToken? (fun key hkey => SortKey.ofToken?_render (h.readable key hkey)) h

theorem wellFormed_fromTokens (schema : Schema ε) (tokens : List String) (config : Config) :
    (fromTokens schema tokens config).value.WellFormed schema :=
  wellFormed_foldlM (wellFormed_empty schema config) tokens

@[simp] theorem config_fromTokens (schema : Schema ε) (tokens : List String) (config : Config) :
    (fromTokens schema tokens config).value.config = config :=
  config_foldlM _ tokens

theorem wellFormed_parse (schema : Schema ε) (text : String) (config : Config) :
    (parse schema text config).value.WellFormed schema :=
  wellFormed_fromTokens schema _ config

@[simp] theorem config_parse (schema : Schema ε) (text : String) (config : Config) :
    (parse schema text config).value.config = config :=
  config_fromTokens schema _ config

/-- Whatever way a descriptor is made, it satisfies the invariant of reading. -/
theorem wellFormed_make (schema : Schema ε) (recipe : Recipe) :
    (make schema recipe).value.WellFormed schema := by
  cases recipe with
  | empty config => exact wellFormed_empty schema config
  | text text config => exact wellFormed_parse schema text config
  | optionalText text =>
    cases text with
    | none => exact wellFormed_empty schema {}
    | some text => exact wellFormed_parse schema text {}
  | tokens tokens config => exact wellFormed_fromTokens schema tokens config

theorem wellFormed_iff_exists_recipe {d : Descriptor ε} :
    d.WellFormed schema ↔ ∃ recipe, (make schema recipe).value = d := by
  constructor
  · intro h
    refine ⟨.tokens (d.keys.map SortKey.render) d.config, ?_⟩
    show (fromTokens schema _ _).value = d
    rw [fromTokens_map_render h]
    rfl
  · rintro ⟨recipe, rfl⟩
    exact wellFormed_make schema recipe

end Descriptor

end RowOrder
