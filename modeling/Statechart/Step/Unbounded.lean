/-
# Statechart.Step.Unbounded -- calls that may never return

What a target adds is defined with a bound on how often history states are followed, and a call that
handles events is given the number of microsteps that it may still take. Both bounds let them be
functions. Here the same is done without: whatever calls itself goes on doing so until it is done,
and the limit is looked at before each microstep. A history state may have itself among what it
stands for, and then entering it goes on for ever; such a call has no result, and is `none`.
-/

import Statechart.Step.Macrostep

namespace Statechart

namespace Chart

/-! ## Entering -/

mutual

/-- Adds a target and what it begins with. -/
def addTarget? (c : Chart) (a : Active) (s : Entering) (n : Nat) : Option Entering :=
  match c.kind n with
  | .history _ =>
    match c.parent? n with
    | none => some s
    | some parent => do
      let targets := c.restored a n
      let s ← targets.foldlM (fun s x => c |>.addTarget? a s x) s
      targets.foldlM (fun s x => c |>.addAncestors? a parent s x) s
  | .compound =>
    match c.initial? n with
    | some i => c |>.addTarget? a (s.insert n) i
    | none => some (s.insert n)
  | .parallel => c |>.addUncovered? a (s.insert n) n
  | .atomic | .final => some (s.insert n)
partial_fixpoint

/-- Adds the states between a state and one above it, from the inside outwards. -/
def addAncestors? (c : Chart) (a : Active) (above : Nat) (s : Entering) (n : Nat) :
    Option Entering :=
  ((c.ancestors n).takeWhile (fun m => m ≠ above)).foldlM
    (fun s m => if c.kind m = .parallel then c |>.addUncovered? a (s.insert m) m
      else some (s.insert m)) s
partial_fixpoint

/-- Adds the regions of a parallel state in which nothing is to be entered yet. -/
def addUncovered? (c : Chart) (a : Active) (s : Entering) (n : Nat) : Option Entering :=
  (c.regions n).foldlM (fun s r => if c.isCovered s r then some s else c |>.addTarget? a s r) s
partial_fixpoint

end

/-- Adds what a transition enters. -/
def addTransition? (c : Chart) (a : Active) (s : Entering) (r : Transition) : Option Entering :=
  match r.domain? c.toTree with
  | none => some s
  | some d => do
    let s ← r.targets.foldlM (c.addTarget? a) s
    (c.effectiveTargets a r).foldlM (c.addAncestors? a d) s

/-- The states that some transitions enter, given what remains active. -/
def entrySet? (c : Chart) (a : Active) (transitions : List Transition) : Option Entering :=
  transitions.foldlM (c.addTransition? a) .empty

/-- Fires some transitions together. -/
def microstep? (c : Chart) (a : Active) (transitions : List Transition) : Option Stepped := do
  let exits := c.exits a transitions
  let left := (c.recordHistory a exits).without exits
  let actions := exits.toList.reverse.flatMap c.exitActions ++
    transitions.flatMap Transition.actions
  return c.enterAll left actions (← c.entrySet? left transitions)

/-- Enters what the machine begins with. -/
def initialStep? (c : Chart) : Option Stepped :=
  (c.addTarget? .empty .empty Tree.root).map (c.enterAll .empty [])

end Chart

/-! ## Calls -/

namespace Machine

variable {γ : Type}

/-- Handles the waiting events in the order they were raised. -/
def handle? (m : Machine γ) (context : γ) (p : Progress) (waiting : List Event) :
    Option (Except Failure Progress) :=
  match waiting with
  | [] => some (.ok p)
  | event :: rest =>
    match m.select p.active context event with
    | .error e => some (.error e)
    | .ok [] => m |>.handle? context p rest
    | .ok (r :: rs) =>
      if m.options.maxMicrosteps < p.microsteps + 1 then
        some (.error (.microstepLimit m.options.maxMicrosteps))
      else do
        let s ← m.microstep? p.active (r :: rs)
        m |>.handle? context ⟨s.active, p.actions ++ s.actions, p.microsteps + 1⟩
          (rest ++ s.raised)
partial_fixpoint

/-- Enters what the machine begins with. -/
def initialState? (m : Machine γ) (context : γ) : Option (Except Failure Arrival) := do
  let s ← m.initialStep?
  (m.handle? context ⟨s.active, s.actions, 1⟩ s.raised).map (fun result => result.map m.arrival)

/-- The call that handles an event from outside, unless it fires nothing. -/
def react? (m : Machine γ) (a : Active) (context : γ) (event : Event) :
    Option (Except Failure (Option Progress)) :=
  match m.select a context event with
  | .error e => some (.error e)
  | .ok [] => some (.ok none)
  | .ok (r :: rs) =>
    if m.options.maxMicrosteps < 1 then some (.error (.microstepLimit m.options.maxMicrosteps))
    else do
      let s ← m.microstep? a (r :: rs)
      (m.handle? context ⟨s.active, s.actions, 1⟩ s.raised).map (fun result => result.map some)

/-- Delivers an event to the machine in a configuration. -/
def transition? (m : Machine γ) (c : Configuration) (context : γ) (event : Event) :
    Option (Except Failure Outcome) :=
  match m.resolve c with
  | .error e => some (.error e)
  | .ok a => (m.react? a context event).map fun result => do
    match ← result with
    | none => return .unchanged
    | some p => return .transitioned (m.arrival p)

end Machine

end Statechart
