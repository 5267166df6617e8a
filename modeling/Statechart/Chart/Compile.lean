/-
# Statechart.Chart.Compile -- from descriptions to machines

A description becomes a machine when it breaks no rule. The rules are checked in three passes over
the states in document order: the names of states, the structure each kind of state must have, and
the transitions. Every broken rule is reported (`Description.violations`); the machine itself is
what the same resolutions yield (`Description.chart`).
-/

import Statechart.Chart.Basic
import Statechart.Chart.Violation

namespace Statechart

/-! ## Names -/

/-- Whether a text can be the key of a state. -/
def isValidKey (key : String) : Bool :=
  key ≠ "" && !key.toList.contains '.' && !key.toList.contains '#'

namespace Tree

/-- The key of a state below the root must be valid. -/
def keyViolations (t : Tree) (p : Place) : List Violation :=
  match p.parent with
  | none => []
  | some parent => if isValidKey p.key then [] else [.invalidKey (t.id parent) p.key]

end Tree

/-- Names that repeat one that is taken, or one another. -/
def repeatedNames (taken : List String) : List String → List Violation
  | [] => []
  | name :: rest =>
    (if taken.contains name then [.duplicateId name] else []) ++
      repeatedNames (name :: taken) rest

namespace Tree

/-- What is wrong with the names of places in a row, after some names are taken. -/
def nameViolations (t : Tree) : List String → List Place → List Violation
  | _, [] => []
  | taken, p :: rest =>
    t.keyViolations p ++ repeatedNames taken p.names ++ t.nameViolations (p.names ++ taken) rest

end Tree

/-! ## Structure -/

namespace State

/-- Whether a state declares transitions of any kind. -/
def declaresTransitions (s : State) : Bool := !s.on.isEmpty || s.onDone.isSome

end State

namespace Tree

/-- The child that a compound state begins in: the first with the declared key, unless that is a
history state. -/
def initialChild? (t : Tree) (n : Nat) (initial : String) : Option Nat :=
  (t.childByKey? n initial).filter (fun c => !(t.kind c).isHistory)

/-- Only states that choose among children may name an initial one. -/
def strayInitial (t : Tree) (n : Nat) (s : State) : List Violation :=
  match t.kind n, s.initial with
  | .compound, _ | .parallel, _ => []
  | _, some initial => [.unknownInitial (t.id n) initial]
  | _, none => []

/-- What is wrong with the beginning of a compound state. -/
def initialViolations (t : Tree) (n : Nat) (s : State) : List Violation :=
  match s.initial with
  | none => [.missingInitial (t.id n)]
  | some initial =>
    if (t.initialChild? n initial).isSome then [] else [.unknownInitial (t.id n) initial]

/-- What is wrong with a final state. -/
def finalViolations (t : Tree) (n : Nat) (s : State) : List Violation :=
  (if s.states.isEmpty then [] else [.invalidFinal (t.id n) .children]) ++
    (if s.declaresTransitions then [.invalidFinal (t.id n) .transitions] else [])

/-- What is wrong with the default target of a history state below a parent. -/
def defaultViolations (t : Tree) (n parent : Nat) (s : State) : List Violation :=
  match s.target with
  | none => []
  | some target =>
    match t.resolveTarget? n target with
    | none => [.unresolvedTarget (t.id n) Violation.historyDefaultEvent target]
    | some m => if t.isBelow m parent then [] else [.invalidHistory (t.id n) .outsideParent]

/-- What is wrong with a history state. -/
def historyViolations (t : Tree) (n : Nat) (s : State) : List Violation :=
  match t.parent? n with
  | none => [.invalidHistory (t.id n) .isRoot]
  | some parent =>
    (if s.states.isEmpty then [] else [.invalidHistory (t.id n) .children]) ++
      (if s.declaresTransitions then [.invalidHistory (t.id n) .transitions] else []) ++
      t.defaultViolations n parent s

/-- What is wrong with the structure of a state. -/
def structureViolations (t : Tree) (n : Nat) (s : State) : List Violation :=
  t.strayInitial n s ++
    match t.kind n with
    | .compound => t.initialViolations n s
    | .parallel => if (t.regions n).isEmpty then [.emptyParallel (t.id n)] else []
    | .atomic => if s.states.isEmpty then [] else [.unexpectedChildren (t.id n)]
    | .final => t.finalViolations n s
    | .history _ => t.historyViolations n s

end Tree

/-! ## Transitions -/

namespace State

/-- The declared transitions by event, in the order of events, those for completion last. -/
def declared (s : State) (id : String) : List (String × List TransitionForm) :=
  s.on.toList ++ (s.onDone.map (fun forms => (Event.doneName id, forms))).toList

end State

namespace Tree

/-- Whether two states lie in different regions of one parallel state. -/
def areApart (t : Tree) (a b : Nat) : Bool :=
  let shared := t.commonAncestor a b
  shared ≠ a && shared ≠ b && t.kind shared = .parallel

/-- Whether every two of some states lie in different regions of one parallel state. -/
def areAllApart (t : Tree) : List Nat → Bool
  | [] => true
  | a :: rest => rest.all (fun b => t.areApart a b) && t.areAllApart rest

/-- The targets of a transition that resolve. -/
def resolvedTargets (t : Tree) (n : Nat) (spec : TransitionSpec) : List Nat :=
  spec.targets.filterMap (t.resolveTarget? n)

/-- What is wrong with a transition of a state for an event, given which guards there are. -/
def transitionViolations (t : Tree) (hasGuard : String → Bool) (n : Nat) (event : String)
    (spec : TransitionSpec) : List Violation :=
  let unresolved := spec.targets.filter (fun target => (t.resolveTarget? n target).isNone)
  unresolved.map (.unresolvedTarget (t.id n) event) ++
    (if t.areAllApart (t.resolvedTargets n spec) then []
      else [.conflictingTargets (t.id n) event spec.targets]) ++
    (match spec.guard with
      | some guard => if hasGuard guard then [] else [.unknownGuard (t.id n) event guard]
      | none => []) ++
    (match spec.inState with
      | some reference =>
        if (t.resolveInState? reference).isSome then []
        else [.unresolvedInState (t.id n) event reference]
      | none => [])

/-- What is wrong with the transitions of a state. -/
def allTransitionViolations (t : Tree) (hasGuard : String → Bool) (n : Nat) (s : State) :
    List Violation :=
  (s.declared (t.id n)).flatMap (fun e =>
    e.2.flatMap (fun form => t.transitionViolations hasGuard n e.1 form.spec))

/-- A declared transition as a candidate. -/
def candidate (t : Tree) (n : Nat) (event : String) (position : Nat) (spec : TransitionSpec) :
    Transition where
  source := n
  event := event
  position := position
  targets := t.resolvedTargets n spec
  guard := spec.guard
  inState := spec.inState.bind t.resolveInState?
  actions := spec.actions.map ActionForm.action
  isInternal := spec.isInternal

/-- Appends the candidates for one more declaration of an event. -/
def addCandidates (t : Tree) (n : Nat) (on : SortedMap String (List Transition))
    (event : String) (forms : List TransitionForm) : SortedMap String (List Transition) :=
  if forms.isEmpty then on
  else
    on.modify event (fun earlier =>
      let before := earlier.getD []
      before ++ forms.mapIdx (fun i form => t.candidate n event (before.length + i) form.spec))

/-- The candidates of a state by event; an event without any has no entry. -/
def candidatesOf (t : Tree) (n : Nat) (s : State) : SortedMap String (List Transition) :=
  (s.declared (t.id n)).foldl (fun on e => t.addCandidates n on e.1 e.2) .empty

/-! ## Machines -/

/-- What a state does. -/
def behaviourOf (t : Tree) (n : Nat) (s : State) : Behaviour where
  initial :=
    match t.kind n with
    | .compound => s.initial.bind (t.initialChild? n)
    | _ => none
  historyDefault :=
    match t.kind n, t.parent? n with
    | .history _, some parent =>
      (s.target.bind (t.resolveTarget? n)).filter (fun m => t.isBelow m parent)
    | _, _ => none
  on := t.candidatesOf n s
  entry := s.entry.map ActionForm.action
  exit := s.exit.map ActionForm.action

end Tree

namespace Description

/-- The declarations of all states in document order. -/
def states (d : Description) : List State := d.layOut.map Prod.snd

/-- All rules a description breaks, given which guards there are. -/
def violations (d : Description) (hasGuard : String → Bool) : List Violation :=
  let t := d.tree
  (if d.id = "" then [.missingMachineId] else []) ++
    t.nameViolations [] t.places.toList ++
    (d.states.mapIdx (fun n s => t.structureViolations n s)).flatten ++
    (d.states.mapIdx (fun n s => t.allTransitionViolations hasGuard n s)).flatten

/-- The chart of a description. -/
def chart (d : Description) : Chart :=
  let t := d.tree
  { t with behaviours := (d.states.mapIdx (fun n s => t.behaviourOf n s)).toArray }

/-- The machine of a description with guards and options, or all the rules it breaks. -/
def compile {γ : Type} (d : Description) (guards : Guards γ) (options : Options) :
    Except (List Violation) (Machine γ) :=
  match d.violations guards.contains with
  | [] => .ok { d.chart with guards, options }
  | broken => .error broken

end Description

end Statechart
