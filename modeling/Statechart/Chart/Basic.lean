/-
# Statechart.Chart.Basic -- machines with everything resolved

A chart is a tree of states in which every written reference has become a number: where a compound
state begins, what a history state falls back to, and which transitions a state tries for an event.
A machine is a chart with the guards its transitions name and the options it runs under.
-/

import Statechart.Chart.Tree
import Statechart.Guard

namespace Statechart

/-- A candidate transition. -/
structure Transition where
  /-- The state it is declared on. -/
  source : Nat
  event : String
  /-- Its place among the candidates of its source for its event. -/
  position : Nat
  targets : List Nat
  /-- The name of the guard that must hold. -/
  guard : Option String
  /-- The state that must be active. -/
  inState : Option Nat
  actions : List Action
  isInternal : Bool
  deriving DecidableEq

/-- Whether two transitions are the same declaration. -/
def Transition.isSame (a b : Transition) : Bool :=
  a.source = b.source && a.event = b.event && a.position = b.position

/-- What a state does. -/
structure Behaviour where
  /-- The child that is entered by default. -/
  initial : Option Nat
  /-- What a history state with nothing recorded stands for. -/
  historyDefault : Option Nat
  /-- The candidates for each event, in the order they are tried. -/
  on : SortedMap String (List Transition)
  entry : List Action
  exit : List Action
  deriving DecidableEq

/-- The states of a machine, where they stand and what they do. -/
structure Chart extends Tree where
  behaviours : Array Behaviour
  deriving DecidableEq

namespace Chart

/-- What the state with a number does; nothing if there is none. -/
def behaviour (c : Chart) (n : Nat) : Behaviour :=
  (c.behaviours[n]?).getD ⟨none, none, .empty, [], []⟩

def initial? (c : Chart) (n : Nat) : Option Nat := (c.behaviour n).initial

def historyDefault? (c : Chart) (n : Nat) : Option Nat := (c.behaviour n).historyDefault

/-- The candidates of a state for an event, in the order they are tried. -/
def candidates (c : Chart) (n : Nat) (event : String) : List Transition :=
  ((c.behaviour n).on.get? event).getD []

/-- The events that a state has candidates for, in their order. -/
def events (c : Chart) (n : Nat) : List String := (c.behaviour n).on.keys

def entryActions (c : Chart) (n : Nat) : List Action := (c.behaviour n).entry

def exitActions (c : Chart) (n : Nat) : List Action := (c.behaviour n).exit

/-- The id of the machine: that of its root. -/
def machineId (c : Chart) : String := c.id Tree.root

end Chart

/-- What a machine runs under. -/
structure Options where
  /-- How many microsteps one call may take. -/
  maxMicrosteps : Nat
  /-- Whether configurations that are passed in are checked. -/
  validates : Bool
  deriving DecidableEq

namespace Options

/-- At most 64 microsteps, with checking. -/
def standard : Options := ⟨64, true⟩

/-- Reads options; what is missing is as in the standard ones. -/
def ofJson? (j : Json) : Option Options := do
  let r ← j.record? ["max_microsteps", "validate_configuration"]
  return ⟨← r.orElse? "max_microsteps" Json.asCount? standard.maxMicrosteps,
    ← r.orElse? "validate_configuration" Json.asBool? standard.validates⟩

def toJson (o : Options) : Json :=
  .object [("max_microsteps", Json.ofNat o.maxMicrosteps),
    ("validate_configuration", .bool o.validates)]

end Options

/-- A chart that is ready to run in contexts of type `γ`. -/
structure Machine (γ : Type) extends Chart where
  guards : Guards γ
  options : Options

end Statechart
