import RowOrder.Descriptor.ConfigText
import RowOrder.Proofs.Json.RoundTrip

/-! # Configurations in the midst of other members

    The policy of a configuration is found in an object's text whatever stands
    around it: other members at any place, with any names and values, values
    that themselves hold the member's name, braces and quotes, nested to any
    depth. What is nested in another member's value is not taken for the policy,
    and the object's text ends where its last brace is.
-/

namespace RowOrder

open Json (StringUnit)

/-! ### Policies -/

namespace DuplicatePolicy

/-- Whether a value gives a policy: by its name, or as an object whose one
    member has that name and holds `null`. -/
def Spelled (policy : DuplicatePolicy) (value : Json) : Prop :=
  value = .string (StringUnit.ofText policy.text) ∨
    value = .object [(StringUnit.ofText policy.text, .null)]

/-- Only the string of a policy's name has that name as its text. -/
theorem bind_ofText?_eq_some_iff {units : List StringUnit} {policy : DuplicatePolicy} :
    (StringUnit.text? units).bind ofText? = some policy ↔ units = StringUnit.ofText policy.text := by
  have hplain : ∀ c ∈ policy.text.toList, c.toNat < 0x10000 := by
    intro c hc
    have hall : policy.text.toList.all fun c => c.toNat < 0x10000 := by cases policy <;> decide
    exact of_decide_eq_true (List.all_eq_true.mp hall c hc)
  simp only [Option.bind_eq_some_iff, ofText?_eq_some_iff, exists_eq_right,
    StringUnit.text?_eq_some_iff hplain]

/-- A value gives the policy it spells and no other. -/
theorem ofJson?_eq_some_iff {value : Json} {policy : DuplicatePolicy} :
    ofJson? value = some policy ↔ policy.Spelled value := by
  unfold ofJson? Spelled
  split
  · simp [bind_ofText?_eq_some_iff]
  · simp [bind_ofText?_eq_some_iff]
  · rename_i hstring hobject
    constructor
    · intro h
      contradiction
    · rintro (rfl | rfl)
      · exact absurd rfl (hstring _)
      · exact absurd rfl (hobject _)

end DuplicatePolicy

/-! ### Members -/

namespace Config

/-- The text of an object with the given members. -/
def objectText (members : List (String × Json)) : String :=
  Json.render (.object (members.map fun m => (StringUnit.ofText m.1, m.2)))

/-- The values of the members that give a policy, in order. -/
def policyValues (members : List (String × Json)) : List Json :=
  (members.filter fun m => m.1 = memberName).map Prod.snd

@[simp] theorem namedMembers?_map_ofText (members : List (String × Json)) :
    namedMembers? (members.map fun m => (StringUnit.ofText m.1, m.2)) = some members := by
  induction members with
  | nil => rfl
  | cons m rest ih => simp [namedMembers?, ih]

variable {members : List (String × Json)}

theorem ofMembers?_of_policyValues_nil (h : policyValues members = []) :
    ofMembers? members = some {} := by
  rw [ofMembers?, List.map_eq_nil_iff.mp h]

theorem ofMembers?_of_policyValues_singleton {value : Json} (h : policyValues members = [value]) :
    ofMembers? members = (DuplicatePolicy.ofJson? value).map Config.mk := by
  obtain ⟨⟨name, value⟩, hfilter, rfl⟩ := List.map_eq_singleton_iff.mp h
  rw [ofMembers?, hfilter]

theorem ofMembers?_of_two_le_policyValues (h : 2 ≤ (policyValues members).length) :
    ofMembers? members = none := by
  rw [policyValues, List.length_map] at h
  rw [ofMembers?]
  split
  case h_1 hnil => simp [hnil] at h
  case h_2 hone => simp [hone] at h
  case h_3 => rfl

/-! ### Texts -/

/-- The text of an object is read to its last brace and no further. -/
theorem parse?_objectText_append (members : List (String × Json)) (suffix : String) :
    parse? (objectText members ++ suffix) =
      if suffix.toList.all Json.isSpace then ofMembers? members else none := by
  rw [parse?, objectText, Json.parse?_render_append _ _ fun n h => by contradiction]
  split
  · rw [Option.bind_some, ofJson?, namedMembers?_map_ofText, Option.bind_some]
  · rfl

theorem parse?_objectText (members : List (String × Json)) :
    parse? (objectText members) = ofMembers? members := by
  have h := parse?_objectText_append members ""
  simpa using h

/-- A member of the name that is nested in another member's value is passed over. -/
example : parse? (objectText [("other", .object [(StringUnit.ofText memberName,
    .string (StringUnit.ofText "retain"))])]) = some {} := by
  rw [parse?_objectText]
  rfl

/-- A configuration is read back from its own text. -/
theorem parse?_text (config : Config) : parse? config.text = some config := by
  rw [parse?, text, Json.parse?_render, Option.bind_some, ofJson?_toJson]

/-- **A configuration is read through any surroundings.** If no member of an
    object has the policy's name, its text gives a fresh configuration. If one
    has it, wherever it stands, the text gives the policy that its value spells,
    and nothing if the value spells none. If more than one has it, the text gives
    nothing. What else is in the object makes no difference, and after the object
    there may be blanks and nothing else. -/
theorem reads_through_surroundings (members : List (String × Json)) :
    (policyValues members = [] →
      parse? (objectText members) = some { duplicateFields := .keepFirst }) ∧
    (∀ value, policyValues members = [value] →
      (∀ policy : DuplicatePolicy, policy.Spelled value →
        parse? (objectText members) = some { duplicateFields := policy }) ∧
      ((∀ policy : DuplicatePolicy, ¬ policy.Spelled value) →
        parse? (objectText members) = none)) ∧
    (2 ≤ (policyValues members).length → parse? (objectText members) = none) ∧
    ∀ suffix : String, parse? (objectText members ++ suffix) =
      if suffix.toList.all Json.isSpace then parse? (objectText members) else none := by
  rw [parse?_objectText]
  refine ⟨ofMembers?_of_policyValues_nil, ?_, ofMembers?_of_two_le_policyValues,
    parse?_objectText_append members⟩
  intro value hone
  rw [ofMembers?_of_policyValues_singleton hone]
  constructor
  · intro policy hspelled
    rw [DuplicatePolicy.ofJson?_eq_some_iff.mpr hspelled, Option.map_some]
  · intro hother
    rw [Option.map_eq_none_iff, Option.eq_none_iff_forall_not_mem]
    exact fun policy hpolicy => hother policy (DuplicatePolicy.ofJson?_eq_some_iff.mp hpolicy)

end Config

end RowOrder
