/-
# Statechart.Active.Resolution -- configurations and values mapped onto a machine

A configuration that is passed in names states. Resolving it finds their numbers and adds the
states above; names the machine does not know are always refused. With checking on, the result must
also be a set the machine could be in: only leaves are listed, no compound state has two active
children, every region of an active parallel state is active, and records stay inside the parent of
their history state.

A nested value is mapped back to a configuration by walking the tree along it.
-/

import Statechart.Active.Basic

namespace Statechart

/-- Why a nested value does not fit a state. -/
inductive ValueFault where
  | noChild (key : String)
  | childrenOfAtomic
  | noActiveChild
  | severalActiveChildren
  | noRegion (key : String)
  | missingRegion (key : String)
  | unlistedRegions
  | historyState
  deriving DecidableEq

def ValueFault.reason : ValueFault → String
  | noChild key => "no child state '" ++ key ++ "'"
  | childrenOfAtomic => "atomic states have no children"
  | noActiveChild => "no active child"
  | severalActiveChildren => "more than one active child"
  | noRegion key => "no region '" ++ key ++ "'"
  | missingRegion key => "region '" ++ key ++ "' is missing"
  | unlistedRegions => "every region must be listed"
  | historyState => "history states are never active"

/-- Why a configuration or a value is refused. -/
inductive ConfigurationError where
  | empty
  | unknownState (id : String)
  | notALeaf (id : String)
  | conflictingChildren (state : String)
  | missingRegion (state region : String)
  | notAHistory (id : String)
  | invalidHistoryRecord (history recorded : String)
  | invalidValue (state : String) (fault : ValueFault)
  deriving DecidableEq

/-- The text of a refusal. -/
def ConfigurationError.message : ConfigurationError → String
  | empty => "Configuration has no active states"
  | unknownState id => "Unknown state '" ++ id ++ "'"
  | notALeaf id => "State '" ++ id ++ "' is not an atomic or final state"
  | conflictingChildren state =>
    "Compound state '" ++ state ++ "' has more than one active child"
  | missingRegion state region =>
    "Region '" ++ region ++ "' of parallel state '" ++ state ++ "' is not active"
  | notAHistory id => "'" ++ id ++ "' is not a history state"
  | invalidHistoryRecord history recorded =>
    "History '" ++ history ++ "' records '" ++ recorded ++ "', which is not inside its parent"
  | invalidValue state fault =>
    "State value does not fit '" ++ state ++ "': " ++ fault.reason

namespace Active

/-! ## Resolving configurations -/

/-- The state that answers to an id. -/
def find (t : Tree) (id : String) : Except ConfigurationError Nat :=
  match t.lookup? id with
  | some n => .ok n
  | none => .error (.unknownState id)

/-- The state that a listed leaf names. -/
def resolveLeaf (t : Tree) (checks : Bool) (id : String) : Except ConfigurationError Nat := do
  let n ← find t id
  if checks && !(t.kind n).isLeaf then .error (.notALeaf id) else .ok n

/-- The state that an id recorded for a history state below a parent names. -/
def resolveRecorded (t : Tree) (checks : Bool) (history : String) (parent : Nat) (id : String) :
    Except ConfigurationError Nat := do
  let n ← find t id
  if checks && !t.isBelow n parent then .error (.invalidHistoryRecord history id) else .ok n

/-- The record of one history state. -/
def resolveRecord (t : Tree) (checks : Bool) (entry : String × SortedSet String) :
    Except ConfigurationError (Nat × SortedSet Nat) := do
  let h ← find t entry.1
  match t.kind h, t.parent? h with
  | .history _, some parent =>
    let states ← entry.2.toList.mapM (resolveRecorded t checks entry.1 parent)
    return (h, .ofList states)
  | _, _ => .error (.notAHistory entry.1)

/-- What is wrong with the active states below one of them. -/
def faultAt? (a : Active) (t : Tree) (n : Nat) : Option ConfigurationError :=
  match t.kind n with
  | .compound =>
    if 1 < ((t.regions n).filter (fun c => decide (c ∈ a))).length then
      some (.conflictingChildren (t.id n))
    else none
  | .parallel =>
    ((t.regions n).find? (fun c => decide (¬ c ∈ a))).map (fun c =>
      .missingRegion (t.id n) (t.key c))
  | .atomic | .final | .history _ => none

/-- The first fault among the active states in document order. -/
def fault? (a : Active) (t : Tree) : Option ConfigurationError :=
  a.states.toList.findSome? (a.faultAt? t)

/-- The active states that a configuration describes. -/
def resolve (t : Tree) (checks : Bool) (c : Configuration) : Except ConfigurationError Active := do
  if c.leaves.isEmpty then
    .error .empty
  else
    let leaves ← c.leaves.toList.mapM (resolveLeaf t checks)
    let records ← c.history.toList.mapM (resolveRecord t checks)
    let a : Active := ⟨.ofList (leaves.flatMap t.lineage), .ofList records⟩
    match a.fault? t with
    | some e => if checks then .error e else .ok a
    | none => .ok a

end Active

/-! ## Resolving values -/

namespace StateValue

/-- A child that can be active. -/
def childFor (t : Tree) (n : Nat) (key : String) : Except ConfigurationError Nat :=
  match (t.childByKey? n key).filter (fun c => !(t.kind c).isHistory) with
  | some c => .ok c
  | none => .error (.invalidValue (t.id n) (.noChild key))

/-- The leaves of a state with nothing said about what is below it. -/
def bareLeaves (t : Tree) (n : Nat) : Except ConfigurationError (List Nat) :=
  match t.kind n with
  | .atomic | .final => .ok [n]
  | .compound => .error (.invalidValue (t.id n) .noActiveChild)
  | .parallel =>
    match t.regions n with
    | [] => .ok []
    | r :: _ => .error (.invalidValue (t.id n) (.missingRegion (t.key r)))
  | .history _ => .error (.invalidValue (t.id n) .historyState)

/-- The first key of a nested value under a parallel state that is not a region. -/
def strayKey? (t : Tree) (n : Nat) (children : List (String × StateValue)) : Option String :=
  (children.map Prod.fst).find? (fun key => (childFor t n key).toOption.isNone)

mutual

/-- The leaves that a value describes below a state. -/
def leavesUnder (t : Tree) (n : Nat) : StateValue → Except ConfigurationError (List Nat)
  | .leaf key =>
    match t.kind n with
    | .atomic | .final => .error (.invalidValue (t.id n) .childrenOfAtomic)
    | .compound => do bareLeaves t (← childFor t n key)
    | .parallel => do
      let region ← childFor t n key
      if (t.regions n).length = 1 then bareLeaves t region
      else .error (.invalidValue (t.id n) .unlistedRegions)
    | .history _ => .error (.invalidValue (t.id n) .historyState)
  | .nested children =>
    match t.kind n with
    | .atomic | .final =>
      if children.isEmpty then .ok [n] else .error (.invalidValue (t.id n) .childrenOfAtomic)
    | .compound => leavesOfOnly t n children
    | .parallel =>
      match strayKey? t n children with
      | some key => .error (.invalidValue (t.id n) (.noRegion key))
      | none => do
        let parts ← (t.regions n).mapM (fun r => leavesOfRegion t n r children)
        return parts.flatten
    | .history _ => .error (.invalidValue (t.id n) .historyState)

/-- The leaves below a compound state, of whose children exactly one must be given. -/
def leavesOfOnly (t : Tree) (n : Nat) :
    List (String × StateValue) → Except ConfigurationError (List Nat)
  | [] => .error (.invalidValue (t.id n) .noActiveChild)
  | [(key, v)] => do leavesUnder t (← childFor t n key) v
  | _ :: _ :: _ => .error (.invalidValue (t.id n) .severalActiveChildren)

/-- The leaves below a region of a parallel state, whose value must be given. -/
def leavesOfRegion (t : Tree) (n region : Nat) :
    List (String × StateValue) → Except ConfigurationError (List Nat)
  | [] => .error (.invalidValue (t.id n) (.missingRegion (t.key region)))
  | (key, v) :: rest =>
    if key = t.key region then leavesUnder t region v else leavesOfRegion t n region rest

end

/-- The configuration that a value describes. It has no history. -/
def configuration (t : Tree) (v : StateValue) : Except ConfigurationError Configuration := do
  let leaves ← leavesUnder t Tree.root v
  return .ofLeaves (leaves.map t.id)

end StateValue

end Statechart
