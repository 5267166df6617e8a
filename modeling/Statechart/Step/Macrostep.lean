/-
# Statechart.Step.Macrostep -- from one stable configuration to the next

An event from outside fires transitions in one microstep; the done events raised by it are then
handled in the order they were raised, each in a microstep of its own, with the events these raise
put behind those that wait. Events that fire nothing do not count. The machine has settled when no
event waits. A call that would take more microsteps than allowed fails.

Everything here is a function of its arguments: the machine, the configuration, the context and the
event.
-/

import Statechart.Step.Microstep
import Statechart.Step.Selection

namespace Statechart

/-- Where a call has led. -/
structure Arrival where
  configuration : Configuration
  value : StateValue
  /-- The actions to carry out, in order. -/
  actions : List Action
  /-- Whether the root has completed. -/
  isDone : Bool
  /-- Microsteps taken, with the one for the event from outside. -/
  microsteps : Nat

/-- What became of an event. -/
inductive Outcome where
  | transitioned (arrival : Arrival)
  | unchanged

/-- How far a call has come. -/
structure Progress where
  active : Active
  actions : List Action
  microsteps : Nat
  deriving DecidableEq

namespace Machine

variable {γ : Type}

/-- The first of some waiting events that fires transitions, with these and the events behind. -/
def firstHandled (m : Machine γ) (a : Active) (context : γ) :
    List Event → Except Failure (Option (List Transition × List Event))
  | [] => .ok none
  | event :: rest =>
    match m.select a context event with
    | .error e => .error e
    | .ok [] => m.firstHandled a context rest
    | .ok (r :: rs) => .ok (some (r :: rs, rest))

/-- The call after one more microstep. -/
def advance (m : Machine γ) (p : Progress) (transitions : List Transition) :
    Progress × List Event :=
  let s := m.microstep p.active transitions
  (⟨s.active, p.actions ++ s.actions, p.microsteps + 1⟩, s.raised)

/-- Handles the waiting events, with so many microsteps still allowed. -/
def settle (m : Machine γ) (context : γ) : Nat → Progress → List Event → Except Failure Progress
  | 0, p, waiting =>
    match m.firstHandled p.active context waiting with
    | .error e => .error e
    | .ok none => .ok p
    | .ok (some _) => .error (.microstepLimit m.options.maxMicrosteps)
  | allowed + 1, p, waiting =>
    match m.firstHandled p.active context waiting with
    | .error e => .error e
    | .ok none => .ok p
    | .ok (some (transitions, rest)) =>
      let (q, raised) := m.advance p transitions
      m.settle context allowed q (rest ++ raised)

/-- Where a settled call has led. -/
def arrival (m : Machine γ) (p : Progress) : Arrival where
  configuration := p.active.configuration m.toTree
  value := p.active.value m.toTree
  actions := p.actions
  isDone := p.active.isComplete m.toTree Tree.root
  microsteps := p.microsteps

/-- The call that enters what the machine begins with. The first microstep is never over the
limit. -/
def begin (m : Machine γ) (context : γ) : Except Failure Progress :=
  let s := m.initialStep
  m.settle context (m.options.maxMicrosteps - 1) ⟨s.active, s.actions, 1⟩ s.raised

/-- Enters what the machine begins with. -/
def initialState (m : Machine γ) (context : γ) : Except Failure Arrival :=
  (m.begin context).map m.arrival

/-- The active states of a configuration that is passed in. -/
def resolve (m : Machine γ) (c : Configuration) : Except Failure Active :=
  match Active.resolve m.toTree m.options.validates c with
  | .ok a => .ok a
  | .error e => .error (.invalidConfiguration e)

/-- The call that handles an event from outside, unless it fires nothing. -/
def react (m : Machine γ) (a : Active) (context : γ) (event : Event) :
    Except Failure (Option Progress) :=
  match m.select a context event with
  | .error e => .error e
  | .ok [] => .ok none
  | .ok (r :: rs) =>
    match m.options.maxMicrosteps with
    | 0 => .error (.microstepLimit 0)
    | allowed + 1 =>
      let (p, raised) := m.advance ⟨a, [], 0⟩ (r :: rs)
      (m.settle context allowed p raised).map some

/-- Delivers an event to the machine in a configuration. -/
def transition (m : Machine γ) (c : Configuration) (context : γ) (event : Event) :
    Except Failure Outcome := do
  let a ← m.resolve c
  match ← m.react a context event with
  | none => return .unchanged
  | some p => return .transitioned (m.arrival p)

/-! ## Questions about a configuration -/

/-- The names of events that an active state has candidates for, done events left out. -/
def nextEvents (m : Machine γ) (c : Configuration) : Except Failure (List String) := do
  let a ← m.resolve c
  let names := (a.states.toList.flatMap m.events).filter (fun e => !Event.isDoneName e)
  return (SortedSet.ofList names).toList

/-- Whether the state at a dotted path is active. -/
def isActiveAt (m : Machine γ) (c : Configuration) (path : String) : Except Failure Bool := do
  let a ← m.resolve c
  return (m.findPath? path).any (fun n => decide (n ∈ a))

/-- Whether the root has completed. -/
def isDone (m : Machine γ) (c : Configuration) : Except Failure Bool := do
  let a ← m.resolve c
  return a.isComplete m.toTree Tree.root

/-- The active states as a nested value. -/
def stateValue (m : Machine γ) (c : Configuration) : Except Failure StateValue := do
  let a ← m.resolve c
  return a.value m.toTree

end Machine

namespace Arrival

/-- Reads an arrival. -/
def ofJson? (j : Json) : Option Arrival := do
  let r ← j.record? ["configuration", "value", "actions", "done", "microsteps"]
  return {
    configuration := ← r.required? "configuration" Configuration.ofJson?
    value := ← r.required? "value" StateValue.ofJson?
    actions := ← r.required? "actions" (Json.listOf? Action.ofJson?)
    isDone := ← r.required? "done" Json.asBool?
    microsteps := ← r.required? "microsteps" Json.asCount? }

/-- An arrival as a document. -/
def toJson (r : Arrival) : Json :=
  .object [("configuration", r.configuration.toJson), ("value", r.value.toJson),
    ("actions", .array (r.actions.map Action.toJson)), ("done", .bool r.isDone),
    ("microsteps", Json.ofNat r.microsteps)]

end Arrival

end Statechart
