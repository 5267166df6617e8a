/-
# Statechart.Step.Entry -- the states a microstep enters

Entering a target means entering the states between the domain and the target, the target, and what
the target begins with by default: the initial child of a compound state, all regions of a parallel
one. Every region of a parallel state on the way is entered too, by default where no target lies in
it. A history target stands for what it has recorded, else for its default target, else for what
its parent begins with.

All transitions of a microstep add to one set of states, so that a region entered by one of them is
not entered by default for another.
-/

import Statechart.Step.Domain

namespace Statechart.Chart

/-- The states to enter, gathered so far. -/
abbrev Entering := SortedSet Nat

/-- Whether something in a region is to be entered. -/
def isCovered (c : Chart) (s : Entering) (region : Nat) : Bool :=
  s.toList.any (fun n => c.isWithin n region)

/-- Adds a state and what it begins with, going down a number of levels. A history state adds
nothing; a compound state never begins in one. -/
def addDefaultWithin (c : Chart) : Nat → Nat → Entering → Entering
  | 0, _, s => s
  | levels + 1, n, s =>
    match c.kind n with
    | .atomic | .final => s.insert n
    | .compound =>
      match c.initial? n with
      | some i => c.addDefaultWithin levels i (s.insert n)
      | none => s.insert n
    | .parallel =>
      (c.regions n).foldl
        (fun s r => if c.isCovered s r then s else c.addDefaultWithin levels r s) (s.insert n)
    | .history _ => s

/-- Adds a state and what it begins with. There are never more levels than states. -/
def addDefault (c : Chart) (n : Nat) (s : Entering) : Entering := c.addDefaultWithin c.size n s

/-- Adds the regions of a parallel state in which nothing is to be entered yet. -/
def addUncovered (c : Chart) (n : Nat) (s : Entering) : Entering :=
  (c.regions n).foldl (fun s r => if c.isCovered s r then s else c.addDefault r s) s

/-- Adds a state on the way to a target. -/
def addPassed (c : Chart) (s : Entering) (n : Nat) : Entering :=
  if c.kind n = .parallel then c.addUncovered n (s.insert n) else s.insert n

/-- Adds the states between a state and one above it, from the inside outwards. -/
def addAncestors (c : Chart) (above : Nat) (s : Entering) (n : Nat) : Entering :=
  ((c.ancestors n).takeWhile (fun m => m ≠ above)).foldl c.addPassed s

/-- What a history state stands for. -/
def restored (c : Chart) (a : Active) (history : Nat) : List Nat :=
  match a.recorded? history with
  | some states => states.toList
  | none =>
    match c.historyDefault? history with
    | some n => [n]
    | none =>
      match c.parent? history with
      | none => []
      | some parent =>
        match c.kind parent with
        | .parallel => c.regions parent
        | _ => (c.initial? parent).toList

/-- Adds a target and what it begins with, following history states at most so many times. -/
def addTargetWithin (c : Chart) (a : Active) : Nat → Entering → Nat → Entering
  | 0, s, _ => s
  | follows + 1, s, n =>
    match c.kind n, c.parent? n with
    | .history _, some parent =>
      let targets := c.restored a n
      let s := targets.foldl (c.addTargetWithin a follows) s
      targets.foldl (c.addAncestors parent) s
    | _, _ => c.addDefault n s

/-- Adds a target and what it begins with. Following history states without a circle comes upon
each state at most once. -/
def addTarget (c : Chart) (a : Active) (s : Entering) (n : Nat) : Entering :=
  c.addTargetWithin a (c.size + 1) s n

/-- The targets of a transition, with history states replaced by what they stand for. -/
def effectiveTargets (c : Chart) (a : Active) (r : Transition) : List Nat :=
  r.targets.flatMap (fun n => if (c.kind n).isHistory then c.restored a n else [n])

/-- Adds what a transition enters. -/
def addTransition (c : Chart) (a : Active) (s : Entering) (r : Transition) : Entering :=
  match r.domain? c.toTree with
  | none => s
  | some d =>
    (c.effectiveTargets a r).foldl (c.addAncestors d) (r.targets.foldl (c.addTarget a) s)

/-- The states that some transitions enter, given what remains active. -/
def entrySet (c : Chart) (a : Active) (transitions : List Transition) : Entering :=
  transitions.foldl (c.addTransition a) .empty

/-- The states that a machine begins with. -/
def initialEntrySet (c : Chart) : Entering := c.addDefault Tree.root .empty

end Statechart.Chart
