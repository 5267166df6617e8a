/-
# Statechart.Step.Domain -- how far a transition reaches

A transition with targets has a domain: the state below which everything active is left and the
targets are entered. It is the innermost compound state around the source that has all targets
below it, or else the root. An internal transition of a compound state to states below it has its
source as domain; an internal transition whose only targets are its source has none, and neither
has a transition without targets, so that those only run actions.
-/

import Statechart.Active.Basic

namespace Statechart.Transition

/-- Whether all targets lie below a state. -/
def allBelow (t : Tree) (r : Transition) (above : Nat) : Bool :=
  r.targets.all (fun target => t.isBelow target above)

/-- The innermost state around the source that can be left and entered below. -/
def enclosing (t : Tree) (r : Transition) : Nat :=
  ((t.ancestors r.source).find? (fun n =>
    (t.kind n = .compound || n = Tree.root) && r.allBelow t n)).getD Tree.root

/-- The domain of a transition. -/
def domain? (t : Tree) (r : Transition) : Option Nat :=
  if r.targets.isEmpty then none
  else if r.isInternal && r.targets.all (fun target => target = r.source) then none
  else if r.isInternal && t.kind r.source = .compound && r.allBelow t r.source then some r.source
  else some (r.enclosing t)

/-- The active states that a transition leaves: all below its domain. -/
def exitSet (t : Tree) (a : Active) (r : Transition) : SortedSet Nat :=
  match r.domain? t with
  | some d => a.states.filter (fun n => t.isBelow n d)
  | none => .empty

end Statechart.Transition
