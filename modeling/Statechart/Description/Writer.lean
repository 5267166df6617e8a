/-
# Statechart.Description.Writer -- writing descriptions

A description is written with its parts in one order, the events sorted, every list as an array,
and nothing written for what is absent, empty or false. Transitions and actions keep the short or
the long form they were given in.
-/

import Statechart.Description.Basic
import Statechart.Json.Printer

namespace Statechart

/-- The name of a kind. -/
def DeclaredKind.name : DeclaredKind → String
  | .atomic => "atomic"
  | .compound => "compound"
  | .parallel => "parallel"
  | .final => "final"
  | .history => "history"

/-- The name of a depth. -/
def HistoryDepth.name : HistoryDepth → String
  | .shallow => "shallow"
  | .deep => "deep"

/-- An action as a document. -/
def ActionForm.toJson : ActionForm → Json
  | .named kind => .string kind
  | .detailed a => a.toJson

/-- A member for an optional part. -/
def optionalMember {α : Type} (name : String) (write : α → Json) (part : Option α) :
    List (String × Json) :=
  (part.map (fun a => (name, write a))).toList

/-- A member for a list, unless it is empty. -/
def listMember {α : Type} (name : String) (write : α → Json) (items : List α) :
    List (String × Json) :=
  if items.isEmpty then [] else [(name, .array (items.map write))]

/-- A transition as a document. -/
def TransitionForm.toJson : TransitionForm → Json
  | .target t => .string t
  | .detailed spec =>
    .object (listMember "target" .string spec.targets ++
      optionalMember "cond" .string spec.guard ++
      optionalMember "in" .string spec.inState ++
      listMember "actions" ActionForm.toJson spec.actions ++
      (if spec.isInternal then [("internal", .bool true)] else []))

/-- Several transitions as a document. -/
def transitionsToJson (transitions : List TransitionForm) : Json :=
  .array (transitions.map TransitionForm.toJson)

namespace State

mutual

/-- A state with the states below it as the members of an object. -/
def members : State → List (String × Json)
  | { label, kind, initial, states, on, onDone, entry, exit, history, target } =>
    optionalMember "id" .string label ++
    optionalMember "type" (fun k => .string k.name) kind ++
    optionalMember "initial" .string initial ++
    (if states.isEmpty then [] else [("states", .object (membersAll states))]) ++
    (if on.isEmpty then [] else [("on", Json.ofMap transitionsToJson on)]) ++
    optionalMember "onDone" transitionsToJson onDone ++
    listMember "entry" ActionForm.toJson entry ++
    listMember "exit" ActionForm.toJson exit ++
    optionalMember "history" (fun d => .string d.name) history ++
    optionalMember "target" .string target

/-- The children of a state as members, in their order. -/
def membersAll : List (String × State) → List (String × Json)
  | [] => []
  | (key, s) :: rest => (key, .object (members s)) :: membersAll rest
termination_by structural l => l

end

/-- A state as a document. -/
def toJson (s : State) : Json := .object s.members

end State

namespace Description

/-- A machine as a document. -/
def toJson (d : Description) : Json := .object (("id", .string d.id) :: d.root.members)

/-- A machine as text without blanks. -/
def text (d : Description) : String := d.toJson.compact

end Description

end Statechart
