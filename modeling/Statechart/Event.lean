/-
# Statechart.Event -- what a machine reacts to

An event has a name and may carry a payload. When a state completes, the machine itself raises a
done event, whose name is made from the id of that state.
-/

import Statechart.Json.Record

namespace Statechart

/-- A named occurrence. -/
structure Event where
  name : String
  payload : Option Json
  deriving DecidableEq

namespace Event

/-- What the names of done events begin with. -/
def donePrefix : String := "done.state."

/-- The name of the event that reports the completion of a state. -/
def doneName (id : String) : String := donePrefix ++ id

/-- An event without a payload. -/
def named (name : String) : Event := ⟨name, none⟩

/-- Whether a name is that of a done event. -/
def isDoneName (name : String) : Bool := donePrefix.toList.isPrefixOf name.toList

/-- Reads an event; a null payload is none. -/
def ofJson? (j : Json) : Option Event := do
  let r ← j.record? ["name", "payload"]
  return ⟨← r.required? "name" Json.asString?, ← r.optional? "payload" Json.free?⟩

/-- An event as a document, without the payload if there is none. -/
def toJson (e : Event) : Json :=
  .object (("name", .string e.name) :: (e.payload.map (fun p => ("payload", p))).toList)

end Event

end Statechart
