import RowOrder.Proofs.RepeatedFields

/-! # The first key on each field

    Which keys a list of tokens gives, without the loop that reads it.

    - `Chain.firsts` leaves out of a chain every step on a field that an earlier
      step is on. It is the only chain without repeated fields that comes of
      another by leaving repeated steps out (`Chain.Thins.eq_firsts`).
    - `Descriptor.keys_fromTokens_retain` and
      `Descriptor.keys_fromTokens_keepFirst`: the keys are those that the tokens
      stand for, all of them or the first on each field.
-/

namespace RowOrder

variable {ε : Type} {schema : Schema ε}

namespace Chain

/-! ### Leaving steps out -/

/-- The steps of the second chain on fields that no step of the first is on. -/
def besides (first second : Chain ε) : Chain ε :=
  second.filter fun key => key.name ∉ first.map SortKey.name

/-- The chain without the steps on a field that an earlier step is on. -/
def firsts : Chain ε → Chain ε
  | [] => []
  | key :: rest => key :: besides [key] (firsts rest)

@[simp] theorem besides_nil (second : Chain ε) : besides [] second = second :=
  List.filter_eq_self.mpr fun _ _ => rfl

theorem besides_cons (key : SortKey ε) (first second : Chain ε) :
    besides (key :: first) second = besides [key] (besides first second) := by
  unfold besides
  rw [List.filter_filter]
  refine List.filter_congr fun later _ => ?_
  simp [Bool.decide_and]

theorem besides_append (first second third : Chain ε) :
    besides first (second ++ third) = besides first second ++ besides first third :=
  List.filter_append second third

theorem besides_singleton_of_mem {first : Chain ε} {key : SortKey ε}
    (h : key.name ∈ first.map SortKey.name) : besides first [key] = [] :=
  List.filter_eq_nil_iff.mpr (by simpa using h)

theorem besides_singleton_of_not_mem {first : Chain ε} {key : SortKey ε}
    (h : key.name ∉ first.map SortKey.name) : besides first [key] = [key] :=
  List.filter_eq_self.mpr (by simpa using h)

theorem mem_besides_iff {first second : Chain ε} {key : SortKey ε} :
    key ∈ besides first second ↔ key ∈ second ∧ key.name ∉ first.map SortKey.name := by
  rw [besides, List.mem_filter, decide_eq_true_iff]

/-! ### The first step on each field -/

@[simp] theorem firsts_singleton (key : SortKey ε) : firsts [key] = [key] := rfl

/-- What is appended adds its first steps on fields that are new. -/
theorem firsts_append (first second : Chain ε) :
    firsts (first ++ second) = firsts first ++ besides first (firsts second) := by
  induction first with
  | nil => rw [List.nil_append, besides_nil, firsts, List.nil_append]
  | cons key rest ih =>
    rw [List.cons_append, firsts, ih, besides_append, firsts, List.cons_append,
      ← besides_cons key rest]

theorem firsts_concat_of_mem {chain : Chain ε} {key : SortKey ε}
    (h : key.name ∈ chain.map SortKey.name) : firsts (chain ++ [key]) = firsts chain := by
  rw [firsts_append, firsts_singleton, besides_singleton_of_mem h, List.append_nil]

theorem firsts_concat_of_not_mem {chain : Chain ε} {key : SortKey ε}
    (h : key.name ∉ chain.map SortKey.name) :
    firsts (chain ++ [key]) = firsts chain ++ [key] := by
  rw [firsts_append, firsts_singleton, besides_singleton_of_not_mem h]

/-- No field is lost. -/
theorem mem_names_firsts_iff {chain : Chain ε} {name : String} :
    name ∈ (firsts chain).map SortKey.name ↔ name ∈ chain.map SortKey.name := by
  induction chain with
  | nil => rfl
  | cons key rest ih =>
    by_cases hname : name = key.name
    · simp [firsts, hname]
    · -- A step on another field is not left out for the sake of this one.
      rw [firsts, List.map_cons, List.map_cons, List.mem_cons, List.mem_cons, ← ih]
      simp only [List.mem_map, mem_besides_iff, hname, false_or]
      constructor
      · intro ⟨later, hlater, heq⟩
        exact ⟨later, hlater.1, heq⟩
      · intro ⟨later, hlater, heq⟩
        exact ⟨later, ⟨hlater, by simpa [heq, eq_comm] using hname⟩, heq⟩

/-- It does not matter whether fields are repeated in the first chain. -/
theorem besides_firsts (first second : Chain ε) :
    besides (firsts first) second = besides first second := by
  unfold besides
  refine List.filter_congr fun later _ => ?_
  rw [decide_eq_decide, mem_names_firsts_iff]

/-! ### First steps and thinned chains -/

/-- Steps on fields of the first chain may be left out of the second. -/
theorem thins_besides (first second : Chain ε) :
    Thins (first ++ besides first second) (first ++ second) := by
  induction second using List.reverseRecOn with
  | nil => exact Thins.refl _
  | append_singleton second key ih =>
    rw [← List.append_assoc first second]
    by_cases hname : key.name ∈ first.map SortKey.name
    · obtain ⟨earlier, hmem, hearlier⟩ := List.mem_map.mp hname
      rw [besides_append, besides_singleton_of_mem hname, List.append_nil]
      exact .leave ih key ⟨earlier, List.mem_append_left _ hmem, hearlier⟩
    · rw [besides_append, besides_singleton_of_not_mem hname, ← List.append_assoc]
      exact .keep ih key

/-- The first steps are a thinned chain. -/
theorem thins_firsts (chain : Chain ε) : Thins (firsts chain) chain := by
  induction chain using List.reverseRecOn with
  | nil => exact .nil
  | append_singleton chain key ih =>
    by_cases hname : key.name ∈ chain.map SortKey.name
    · rw [firsts_concat_of_mem hname]
      exact .leave ih key (List.mem_map.mp hname)
    · rw [firsts_concat_of_not_mem hname]
      exact .keep ih key

/-- A thinned chain without repeated fields has the first steps, and no others. -/
theorem Thins.eq_firsts {shorter chain : Chain ε} (h : Thins shorter chain)
    (hdistinct : shorter.Pairwise fun k l => k.name ≠ l.name) : shorter = firsts chain := by
  induction h with
  | nil => rfl
  | @keep shorter chain h key ih =>
    obtain ⟨hshorter, -, hlast⟩ := List.pairwise_append.mp hdistinct
    have hfirsts := ih hshorter
    have hnew : key.name ∉ chain.map SortKey.name := by
      rw [← mem_names_firsts_iff, ← hfirsts, List.mem_map]
      intro ⟨earlier, hmem, hname⟩
      exact hlast earlier hmem key List.mem_cons_self hname
    rw [firsts_concat_of_not_mem hnew, ← hfirsts]
  | leave h key hrepeated ih =>
    rw [firsts_concat_of_mem (List.mem_map.mpr hrepeated)]
    exact ih hdistinct

end Chain

/-! ### The keys of a list of tokens -/

namespace Descriptor

theorem keys_foldlM_of_retain {d : Descriptor ε} (h : d.config.duplicateFields = .retain)
    (tokens : List String) :
    (tokens.foldlM (take schema) d).value.keys =
      d.keys ++ tokens.filterMap (SortKey.ofToken? schema) := by
  induction tokens generalizing d with
  | nil => exact (List.append_nil d.keys).symm
  | cons token rest ih =>
    have hrest := ih (d := (take schema d token).value) (by rw [config_take, h])
    have hretained : ∀ key, ¬ d.Repeats key := by
      intro key hrepeats
      rw [Repeats, h] at hrepeats
      exact absurd hrepeats.2 (by decide)
    rw [value_foldlM_cons, hrest]
    cases hkey : SortKey.ofToken? schema token with
    | none => rw [take_of_eq_none hkey, List.filterMap_cons_none hkey]
    | some key =>
      rw [take_of_eq_some hkey, push_of_not_repeats (hretained key),
        List.filterMap_cons_some hkey]
      exact List.append_assoc d.keys [key] _

/-- Where all keys are retained, a list of tokens gives the keys that the
    tokens stand for. -/
theorem keys_fromTokens_retain (schema : Schema ε) (tokens : List String) :
    (fromTokens schema tokens { duplicateFields := .retain }).value.keys =
      tokens.filterMap (SortKey.ofToken? schema) :=
  keys_foldlM_of_retain rfl tokens

/-- Where only the first key on a field stands, a list of tokens gives the
    first on each field of the keys that the tokens stand for. -/
theorem keys_fromTokens_keepFirst (schema : Schema ε) (tokens : List String) :
    (fromTokens schema tokens { duplicateFields := .keepFirst }).value.keys =
      Chain.firsts (tokens.filterMap (SortKey.ofToken? schema)) := by
  have hconfig := config_fromTokens schema tokens { duplicateFields := .keepFirst }
  have hdistinct := (wellFormed_fromTokens schema tokens { duplicateFields := .keepFirst }).distinct
    (by rw [hconfig])
  rw [← keys_fromTokens_retain]
  exact (thins_fromTokens schema tokens _).eq_firsts hdistinct

/-- The fields there are keys on are those of the keys that the tokens stand
    for, whatever becomes of repeated ones. -/
theorem mem_names_fromTokens_iff {tokens : List String} {config : Config} {name : String} :
    name ∈ (fromTokens schema tokens config).value.keys.map SortKey.name ↔
      name ∈ (tokens.filterMap (SortKey.ofToken? schema)).map SortKey.name := by
  obtain ⟨policy⟩ := config
  cases policy with
  | keepFirst => rw [keys_fromTokens_keepFirst, Chain.mem_names_firsts_iff]
  | retain => rw [keys_fromTokens_retain]

end Descriptor

end RowOrder
