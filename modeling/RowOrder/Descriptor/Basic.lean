import RowOrder.Descriptor.Config
import RowOrder.Event
import RowOrder.Text.Segments
import RowOrder.Token

/-! # Descriptors

    A descriptor is a list of sort keys together with the configuration under
    which it was read. It is read from a list of tokens or from one text with
    commas between the tokens, and `Descriptor.text` writes it again.

    - A token that names no field is passed over and reported.
    - A token that names a field for the second time is passed over and
      reported where the configuration keeps the first key only, and gives
      another key where it retains all of them.
-/

namespace RowOrder

variable {ε : Type}

/-- Sort keys in order, and the configuration they were read under. -/
structure Descriptor (ε : Type) where
  /-- The keys, the most significant first. -/
  keys : List (SortKey ε) := []
  /-- The configuration. -/
  config : Config := {}

/-- The key a token stands for; a token that names no field is reported. -/
def SortKey.read (schema : Schema ε) (token : String) : Logged (Option (SortKey ε)) :=
  match SortKey.ofToken? schema token with
  | some key => pure (some key)
  | none => do
    Logged.report (.unknownField token)
    return none

namespace Descriptor

/-! ### Reading -/

/-- Whether some key is on the field of the given name. -/
def hasField (descriptor : Descriptor ε) (name : String) : Bool :=
  descriptor.keys.any fun key => key.name = name

/-- The descriptor with a key appended, unless the key repeats a field and
    the configuration passes such keys over. -/
def push (descriptor : Descriptor ε) (key : SortKey ε) : Logged (Descriptor ε) :=
  if descriptor.hasField key.name ∧ descriptor.config.duplicateFields = .keepFirst then do
    Logged.report (.repeatedField key.name)
    return descriptor
  else
    return { descriptor with keys := descriptor.keys ++ [key] }

/-- The descriptor after one more token. -/
def take (schema : Schema ε) (descriptor : Descriptor ε) (token : String) :
    Logged (Descriptor ε) := do
  match ← SortKey.read schema token with
  | some key => descriptor.push key
  | none => return descriptor

/-- The descriptor that a list of tokens describes. -/
def fromTokens (schema : Schema ε) (tokens : List String) (config : Config := {}) :
    Logged (Descriptor ε) :=
  tokens.foldlM (take schema) { config }

/-- The descriptor that a text describes, a token for each of its non-empty
    segments. -/
def parse (schema : Schema ε) (text : String) (config : Config := {}) : Logged (Descriptor ε) :=
  fromTokens schema (Text.segments text) config

/-- The descriptor of a text that may be missing; without it there are no
    keys. -/
def parseOptional (schema : Schema ε) : Option String → Logged (Descriptor ε)
  | some text => parse schema text
  | none => return {}

/-! ### Writing -/

/-- The number of keys. -/
def size (descriptor : Descriptor ε) : Nat := descriptor.keys.length

/-- Whether there are no keys. -/
def isEmpty (descriptor : Descriptor ε) : Bool := descriptor.keys.isEmpty

/-- The keys in text. -/
def textOf (keys : List (SortKey ε)) : String := Text.join (keys.map SortKey.render)

/-- The descriptor in text: its keys with commas between them. -/
def text (descriptor : Descriptor ε) : String := textOf descriptor.keys

/-- The description of a descriptor. -/
def outline (descriptor : Descriptor ε) : Text.Outline :=
  .record "SortDescriptor"
    [.part "keys" (.items (descriptor.keys.map SortKey.outline)),
     .part "config" descriptor.config.outline]

/-! ### Every way to make one -/

/-- A way to make a descriptor. -/
inductive Recipe where
  /-- No keys. -/
  | empty (config : Config := {})
  /-- The keys that a text describes. -/
  | text (text : String) (config : Config := {})
  /-- The keys that a text describes if there is one. -/
  | optionalText (text : Option String)
  /-- The keys that a list of tokens describes. -/
  | tokens (tokens : List String) (config : Config := {})

/-- The descriptor that a recipe makes. -/
def make (schema : Schema ε) : Recipe → Logged (Descriptor ε)
  | .empty config => return { config }
  | .text text config => parse schema text config
  | .optionalText text => parseOptional schema text
  | .tokens tokens config => fromTokens schema tokens config

/-! ### One token at a time -/

@[simp] theorem fromTokens_nil (schema : Schema ε) (config : Config) :
    fromTokens schema [] config = pure { config } := rfl

/-- Reading a token keeps the configuration. -/
@[simp] theorem config_take (schema : Schema ε) (descriptor : Descriptor ε) (token : String) :
    (take schema descriptor token).value.config = descriptor.config := by
  cases h : SortKey.ofToken? schema token with
  | none => simp [take, SortKey.read, h]
  | some key =>
    by_cases repeated :
        descriptor.hasField key.name ∧ descriptor.config.duplicateFields = .keepFirst
    · simp [take, SortKey.read, h, push, if_pos repeated]
    · simp [take, SortKey.read, h, push, if_neg repeated]

end Descriptor

end RowOrder
