/-
# Statechart.Active.Basic -- the states that are active, by number

While a machine runs, its active states are a set of numbers that holds with each state every state
above it, together with what the history states have recorded. Reading the set in ascending order
is reading it in document order. From outside it is seen as a configuration, which names only the
leaves, or as a nested value.
-/

import Statechart.Chart.Basic
import Statechart.Configuration
import Statechart.StateValue

namespace Statechart

/-- The active states and the records of history states. -/
structure Active where
  states : SortedSet Nat
  history : SortedMap Nat (SortedSet Nat)
  deriving DecidableEq

namespace Active

/-- Nothing active and nothing recorded. -/
def empty : Active := ⟨.empty, .empty⟩

instance : Membership Nat Active := ⟨fun a n => n ∈ a.states⟩

instance (n : Nat) (a : Active) : Decidable (n ∈ a) := inferInstanceAs (Decidable (n ∈ a.states))

theorem mem_iff {n : Nat} {a : Active} : n ∈ a ↔ n ∈ a.states := Iff.rfl

/-- Makes one more state active. -/
def insert (a : Active) (n : Nat) : Active := { a with states := a.states.insert n }

/-- Lets some states be active no longer. -/
def without (a : Active) (gone : SortedSet Nat) : Active :=
  { a with states := a.states.filter (fun n => decide (¬ n ∈ gone)) }

/-- Records states for a history state, in place of what it had. -/
def record (a : Active) (history : Nat) (states : SortedSet Nat) : Active :=
  { a with history := a.history.insert history states }

/-- What a history state has recorded. -/
def recorded? (a : Active) (history : Nat) : Option (SortedSet Nat) := a.history.get? history

/-! ## Leaves and completion -/

/-- The active states with no active child, in document order. -/
def leaves (a : Active) (t : Tree) : List Nat :=
  a.states.toList.filter (fun n => (t.children n).all (fun c => decide (¬ c ∈ a)))

/-- Whether a state has completed, looking down a number of levels: a compound state by an active
final child, a parallel state by all of its regions. -/
def isCompleteWithin (a : Active) (t : Tree) : Nat → Nat → Bool
  | 0, _ => false
  | levels + 1, n =>
    match t.kind n with
    | .compound => (t.regions n).any (fun c => decide (c ∈ a) && t.kind c = .final)
    | .parallel => (t.regions n).all (fun c => a.isCompleteWithin t levels c)
    | .atomic | .final | .history _ => false

/-- Whether a state has completed. There are never more levels than states. -/
def isComplete (a : Active) (t : Tree) (n : Nat) : Bool := a.isCompleteWithin t t.size n

/-! ## From outside -/

/-- The ids of a set of states. -/
def idsOf (t : Tree) (states : SortedSet Nat) : SortedSet String :=
  .ofList (states.toList.map t.id)

/-- The active leaves and the records by id. -/
def configuration (a : Active) (t : Tree) : Configuration where
  leaves := .ofList ((a.leaves t).map t.id)
  history := .ofList (a.history.toList.map (fun e => (t.id e.1, idsOf t e.2)))

/-- The active leaves as a nested value. -/
def value (a : Active) (t : Tree) : StateValue := .ofPaths ((a.leaves t).map t.relativePath)

end Active

end Statechart
