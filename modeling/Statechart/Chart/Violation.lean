/-
# Statechart.Chart.Violation -- what can be wrong with a description

Each rule that a description can break is one cause here, with the names it concerns. A description
is rejected with the list of all rules it breaks, never only the first.
-/

import Statechart.Text.Quoted

namespace Statechart

/-- What a final state must not have. -/
inductive FinalFault where
  | children
  | transitions
  deriving DecidableEq

/-- What can be wrong with a history state. -/
inductive HistoryFault where
  | isRoot
  | children
  | transitions
  | outsideParent
  deriving DecidableEq

def FinalFault.reason : FinalFault → String
  | .children => "declares child states"
  | .transitions => "declares transitions"

def HistoryFault.reason : HistoryFault → String
  | .isRoot => "cannot be the root state"
  | .children => "declares child states"
  | .transitions => "declares transitions"
  | .outsideParent => "has a default target outside its parent state"

/-- A broken rule. -/
inductive Violation where
  | missingMachineId
  | missingInitial (state : String)
  | unknownInitial (state initial : String)
  | unresolvedTarget (state event target : String)
  | unknownGuard (state event guard : String)
  | unresolvedInState (state event reference : String)
  | duplicateId (id : String)
  | invalidKey (parent key : String)
  | invalidFinal (state : String) (fault : FinalFault)
  | invalidHistory (state : String) (fault : HistoryFault)
  | unexpectedChildren (state : String)
  | emptyParallel (state : String)
  | conflictingTargets (state event : String) (targets : List String)
  deriving DecidableEq

namespace Violation

/-- What stands for the event when the default target of a history state does not resolve. -/
def historyDefaultEvent : String := "history default"

/-- The text of a broken rule. -/
def message : Violation → String
  | missingMachineId => "Machine id must not be empty"
  | missingInitial state =>
    "Compound state '" ++ state ++ "' does not declare an initial state"
  | unknownInitial state initial =>
    "Initial state '" ++ initial ++ "' of '" ++ state ++ "' is not a child state"
  | unresolvedTarget state event target =>
    "Target '" ++ target ++ "' of '" ++ event ++ "' on '" ++ state ++
      "' does not resolve to a state"
  | unknownGuard state event guard =>
    "Guard '" ++ guard ++ "' of '" ++ event ++ "' on '" ++ state ++ "' is not registered"
  | unresolvedInState state event reference =>
    "In-state condition '" ++ reference ++ "' of '" ++ event ++ "' on '" ++ state ++
      "' does not resolve to a state"
  | duplicateId id => "State id '" ++ id ++ "' is declared more than once"
  | invalidKey parent key =>
    "Invalid state key '" ++ key ++ "' under '" ++ parent ++
      "': keys must be non-empty and contain no '.' or '#'"
  | invalidFinal state fault => "Final state '" ++ state ++ "' " ++ fault.reason
  | invalidHistory state fault => "History state '" ++ state ++ "' " ++ fault.reason
  | unexpectedChildren state => "Atomic state '" ++ state ++ "' declares child states"
  | emptyParallel state => "Parallel state '" ++ state ++ "' has no regions"
  | conflictingTargets state event targets =>
    "Targets " ++ Text.quotedList targets ++ " of '" ++ event ++ "' on '" ++ state ++
      "' are not in distinct parallel regions"

/-- The text for all broken rules of a description. -/
def summary (violations : List Violation) : String :=
  "Invalid machine definition: " ++ String.intercalate "; " (violations.map message)

end Violation

end Statechart
