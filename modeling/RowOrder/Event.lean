import RowOrder.Direction

/-! # Events

    What is reported along the way: tokens that are passed over, because they
    name no field or repeat one, and sort keys as they are applied to a query.
    A computation that reports events carries them beside its value
    (`Logged`), in the order in which they arose.
-/

namespace RowOrder

/-! ### Events -/

/-- One thing worth reporting. -/
inductive Event where
  /-- A token names no field of the schema; it is reported as given. -/
  | unknownField (token : String)
  /-- A field that already has a key was named again. -/
  | repeatedField (field : String)
  /-- A key extends the ordering of a query; `primary` if it is the first. -/
  | applyingKey (field : String) (direction : Direction) (primary : Bool)
  deriving DecidableEq

/-- How much attention an event asks for. -/
inductive Level where
  /-- Of interest when results surprise. -/
  | debug
  /-- Of interest only when following every step. -/
  | trace
  deriving DecidableEq

/-- The name under which a level is reported. -/
def Level.name : Level → String
  | .debug => "DEBUG"
  | .trace => "TRACE"

namespace Event

/-- The level at which an event is reported. -/
def level : Event → Level
  | .unknownField _ => .debug
  | .repeatedField _ => .debug
  | .applyingKey .. => .trace

/-- The wording of an event. -/
def message : Event → String
  | .unknownField _ => "dropping sort token naming an unknown field"
  | .repeatedField _ => "dropping repeated sort field"
  | .applyingKey .. => "applying sort key"

end Event

/-! ### Computations that report events -/

/-- A value and the events reported while it was computed. -/
@[ext]
structure Logged (α : Type) where
  /-- The value. -/
  value : α
  /-- The events, the earliest first. -/
  events : List Event := []

namespace Logged

variable {α β : Type}

/-- One event and no value of interest. -/
def report (event : Event) : Logged Unit := ⟨(), [event]⟩

instance : Monad Logged where
  pure a := ⟨a, []⟩
  bind m f :=
    let next := f m.value
    ⟨next.value, m.events ++ next.events⟩

@[simp] theorem value_pure (a : α) : (pure a : Logged α).value = a := rfl

@[simp] theorem events_pure (a : α) : (pure a : Logged α).events = [] := rfl

@[simp] theorem value_bind (m : Logged α) (f : α → Logged β) :
    (m >>= f).value = (f m.value).value := rfl

@[simp] theorem events_bind (m : Logged α) (f : α → Logged β) :
    (m >>= f).events = m.events ++ (f m.value).events := rfl

@[simp] theorem value_map (f : α → β) (m : Logged α) : (f <$> m).value = f m.value := rfl

@[simp] theorem events_map (f : α → β) (m : Logged α) : (f <$> m).events = m.events := by
  simp [Functor.map]

@[simp] theorem value_report (event : Event) : (report event).value = () := rfl

@[simp] theorem events_report (event : Event) : (report event).events = [event] := rfl

instance : LawfulMonad Logged := by
  refine LawfulMonad.mk' Logged ?_ ?_ ?_
  · intro α m
    exact Logged.ext rfl (by simp [Functor.map])
  · intro α β a f
    exact Logged.ext rfl (by simp)
  · intro α β γ m f g
    exact Logged.ext rfl (by simp)

end Logged

end RowOrder
