/-
# Statechart.Guard -- conditions on transitions

A guard looks at the context and the event and answers yes or no, or fails. Transitions name their
guards; a registry holds the guards by name. Asking for a name that is not registered is a failure
too, never a silent no.
-/

import Statechart.Event

namespace Statechart

/-- Why a guard gave no answer. -/
inductive GuardError where
  | unregistered (name : String)
  | raised (message : String)
  deriving DecidableEq

/-- The text of a guard failure. -/
def GuardError.message : GuardError → String
  | .unregistered name => "guard '" ++ name ++ "' is not registered"
  | .raised message => message

/-- A condition on a context of type `γ` and an event. -/
structure Guard (γ : Type) where
  check : γ → Event → Except GuardError Bool

namespace Guard

variable {γ : Type}

/-- The guard that holds when another one does not; a failure stays a failure. -/
def negate (g : Guard γ) : Guard γ := ⟨fun context event => (g.check context event).map (!·)⟩

end Guard

/-- The guards of a machine by name. -/
abbrev Guards (γ : Type) := SortedMap String (Guard γ)

namespace Guards

variable {γ : Type}

/-- The answer of the guard with a name. -/
def evaluate (guards : Guards γ) (name : String) (context : γ) (event : Event) :
    Except GuardError Bool :=
  match guards.get? name with
  | some g => g.check context event
  | none => .error (.unregistered name)

end Guards

end Statechart
