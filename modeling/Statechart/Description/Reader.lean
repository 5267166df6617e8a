/-
# Statechart.Description.Reader -- reading descriptions

A description is read from a document. Where several things may be written, one of them may be
written without a list; states, transitions and actions may be arrays of their parts in order; null
stands for an absent optional part, but not for absent children, transitions or actions. Parts that
are not known are ignored, except in transitions.

The machine itself must be an object. Its `id` names the machine, so the root state has no label.
-/

import Statechart.Description.Basic
import Statechart.Json.Parser

namespace Statechart

/-- How a choice may be spelled besides by its name and by an object holding null under its name:
inside a machine the object may also hold an empty object. -/
inductive ChoiceSpelling where
  | plain
  | insideMachine
  deriving DecidableEq

namespace ChoiceSpelling

/-- Whether a value may stand under the name of a choice. -/
def admits : ChoiceSpelling → Json → Bool
  | _, .null => true
  | .insideMachine, .object [] => true
  | _, _ => false

/-- The name of the choice that a document makes. -/
def name? (spelling : ChoiceSpelling) : Json → Option String
  | .string s => some s
  | .object [(name, j)] => if spelling.admits j then some name else none
  | _ => none

end ChoiceSpelling

/-- The kind with a name. -/
def DeclaredKind.ofName? : String → Option DeclaredKind
  | "atomic" => some .atomic
  | "compound" => some .compound
  | "parallel" => some .parallel
  | "final" => some .final
  | "history" => some .history
  | _ => none

/-- The depth with a name. -/
def HistoryDepth.ofName? : String → Option HistoryDepth
  | "shallow" => some .shallow
  | "deep" => some .deep
  | _ => none

/-- Reads an action: a string, or a record with parameters. -/
def ActionForm.ofJson? : Json → Option ActionForm
  | .string kind => some (.named kind)
  | j => (Action.ofJson? j).map .detailed

/-- Reads the parts of a transition; a part that is not known is an error. -/
def TransitionSpec.ofJson? (j : Json) : Option TransitionSpec := do
  let r ← j.closedRecord? ["target", "cond", "in", "actions", "internal"]
  return {
    targets := ← r.orElse? "target" (Json.oneOrMany? Json.asString?) []
    guard := ← r.optional? "cond" Json.asString?
    inState := ← r.optional? "in" Json.asString?
    actions := ← r.orElse? "actions" (Json.oneOrMany? ActionForm.ofJson?) []
    isInternal := ← r.orElse? "internal" Json.asBool? false }

/-- Reads a transition: a string is its target. -/
def TransitionForm.ofJson? : Json → Option TransitionForm
  | .string t => some (.target t)
  | j => (TransitionSpec.ofJson? j).map .detailed

/-- Reads one transition or a list of them. -/
def readTransitions? : Json → Option (List TransitionForm) := Json.oneOrMany? TransitionForm.ofJson?

/-- Reads one action or a list of them. -/
def readActions? : Json → Option (List ActionForm) := Json.oneOrMany? ActionForm.ofJson?

namespace State

/-- The fields of a state, in the order in which an array gives them. -/
def fieldNames : List String :=
  ["id", "type", "initial", "states", "on", "onDone", "entry", "exit", "history", "target"]

/-- The place of the children among the fields. -/
def statesPlace : Nat := 3

/-- The state made of a record and of the children that its field `states` holds. -/
def ofRecord? (spelling : ChoiceSpelling) (r : Json.Record) (states : List (String × State)) :
    Option State := do
  return {
    label := ← r.optional? "id" Json.asString?
    kind := ← r.optional? "type" (fun j => (spelling.name? j).bind DeclaredKind.ofName?)
    initial := ← r.optional? "initial" Json.asString?
    states
    on := ← r.orElse? "on" (Json.mapOf? readTransitions?) .empty
    onDone := ← r.optional? "onDone" readTransitions?
    entry := ← r.orElse? "entry" readActions? []
    exit := ← r.orElse? "exit" readActions? []
    history := ← r.optional? "history" (fun j => (spelling.name? j).bind HistoryDepth.ofName?)
    target := ← r.optional? "target" Json.asString? }

mutual

/-- Reads a state with the states below it. -/
def ofJson? (spelling : ChoiceSpelling) : Json → Option State
  | .object members => do
    let r ← (Json.object members).record? fieldNames
    ofRecord? spelling r (← statesAmong? spelling members)
  | .array items => do
    let r ← (Json.array items).record? fieldNames
    ofRecord? spelling r (← statesAt? spelling statesPlace items)
  | _ => none

/-- The children that the first member with the name `states` holds; none without such a member. -/
def statesAmong? (spelling : ChoiceSpelling) : List (String × Json) → Option (List (String × State))
  | [] => some []
  | (name, j) :: rest =>
    if name = "states" then childrenOfJson? spelling j else statesAmong? spelling rest

/-- The children that the item at a place holds; none if the items end before it. -/
def statesAt? (spelling : ChoiceSpelling) : Nat → List Json → Option (List (String × State))
  | _, [] => some []
  | 0, j :: _ => childrenOfJson? spelling j
  | place + 1, _ :: rest => statesAt? spelling place rest

/-- Reads an object of states. -/
def childrenOfJson? (spelling : ChoiceSpelling) : Json → Option (List (String × State))
  | .object members => childrenOfMembers? spelling members
  | _ => none

/-- Reads the members of an object as states, in their order. -/
def childrenOfMembers? (spelling : ChoiceSpelling) :
    List (String × Json) → Option (List (String × State))
  | [] => some []
  | (key, j) :: rest =>
    match ofJson? spelling j, childrenOfMembers? spelling rest with
    | some s, some states => some ((key, s) :: states)
    | _, _ => none

end

end State

namespace Description

/-- Reads a machine. A state key that is given several times is kept each time; an event given
several times has its last value, and so has a key inside free parameters. -/
def ofJson? : Json → Option Description
  | .object members => do
    let ids := members.filter (fun m => m.1 = "id")
    let id ← match ids with
      | [m] => m.2.asString?
      | _ => none
    let root ← State.ofJson? .insideMachine (.object (members.filter (fun m => m.1 ≠ "id")))
    return ⟨id, root⟩
  | _ => none

/-- Reads a machine from text. -/
def ofText? (text : String) : Option Description := (Json.parse? .strict text).bind ofJson?

end Description

end Statechart
