/-
# Statechart.Step.Microstep -- firing transitions together

A microstep leaves the states below the domains of its transitions, innermost first, runs the
transitions, and enters states, outermost first; the actions come in that order. History states
record what their parent leaves before it is left. Entering a final state raises the done event of
its parent, and of a parallel state around it when that has completed by then.
-/

import Statechart.Step.Entry

namespace Statechart

/-- What a microstep leads to. -/
structure Stepped where
  active : Active
  actions : List Action
  raised : List Event
  deriving DecidableEq

namespace Chart

/-! ## Leaving -/

/-- What a history state records when its parent is left. -/
def snapshot (c : Chart) (a : Active) (parent : Nat) : HistoryDepth → SortedSet Nat
  | .deep => .ofList ((a.leaves c.toTree).filter (fun n => c.isBelow n parent))
  | .shallow => .ofList ((c.regions parent).filter (fun n => decide (n ∈ a)))

/-- The records taken when a state is left, one for each history child. -/
def recordsAt (c : Chart) (a : Active) (n : Nat) : List (Nat × SortedSet Nat) :=
  (c.children n).filterMap (fun h =>
    match c.kind h with
    | .history depth => some (h, c.snapshot a n depth)
    | _ => none)

/-- Takes the records for all states that are left. -/
def recordHistory (c : Chart) (a : Active) (exits : SortedSet Nat) : Active :=
  (exits.toList.flatMap (c.recordsAt a)).foldl (fun b e => b.record e.1 e.2) a

/-- The states that some transitions leave. -/
def exits (c : Chart) (a : Active) (transitions : List Transition) : SortedSet Nat :=
  transitions.foldl (fun s r => s.union (r.exitSet c.toTree a)) .empty

/-! ## Entering -/

/-- The done events raised by entering a state. -/
def doneEvents (c : Chart) (a : Active) (n : Nat) : List Event :=
  match c.kind n, c.ancestors n with
  | .final, [parent] => [.named (Event.doneName (c.id parent))]
  | .final, parent :: grandparent :: _ =>
    .named (Event.doneName (c.id parent)) ::
      (if c.kind grandparent = .parallel &&
          (c.regions grandparent).all (fun r => a.isComplete c.toTree r) then
        [.named (Event.doneName (c.id grandparent))]
      else [])
  | _, _ => []

/-- Enters a state that is not active yet. -/
def enter (c : Chart) (s : Stepped) (n : Nat) : Stepped :=
  if n ∈ s.active then s
  else
    let active := s.active.insert n
    ⟨active, s.actions ++ c.entryActions n, s.raised ++ c.doneEvents active n⟩

/-- Enters a set of states in document order. -/
def enterAll (c : Chart) (a : Active) (actions : List Action) (states : Entering) : Stepped :=
  states.toList.foldl c.enter ⟨a, actions, []⟩

/-! ## Both -/

/-- Fires some transitions together. -/
def microstep (c : Chart) (a : Active) (transitions : List Transition) : Stepped :=
  let exits := c.exits a transitions
  let left := (c.recordHistory a exits).without exits
  let actions := exits.toList.reverse.flatMap c.exitActions ++
    transitions.flatMap Transition.actions
  c.enterAll left actions (c.entrySet left transitions)

/-- Enters what the machine begins with. -/
def initialStep (c : Chart) : Stepped := c.enterAll .empty [] c.initialEntrySet

end Chart

end Statechart
