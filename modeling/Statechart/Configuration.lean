/-
# Statechart.Configuration -- what is active, by name

A configuration is what an owner keeps between calls: the ids of the active leaf states, and for
each history state that has something recorded the ids recorded there. It names states only, so it
can be stored and read back without the machine.

Two configurations agree when their leaves are the same; recorded history plays no part in that.
-/

import Statechart.Json.Record

namespace Statechart

/-- The ids of the active leaf states, and what history states have recorded. -/
structure Configuration where
  leaves : SortedSet String
  history : SortedMap String (SortedSet String)
  deriving DecidableEq

namespace Configuration

/-- Nothing active and nothing recorded. -/
def empty : Configuration := ⟨.empty, .empty⟩

/-- The configuration with given leaves and no history. -/
def ofLeaves (leaves : List String) : Configuration := ⟨.ofList leaves, .empty⟩

/-- The configuration with other history. -/
def withHistory (c : Configuration) (history : SortedMap String (SortedSet String)) :
    Configuration :=
  { c with history := history }

/-- Whether two configurations have the same leaves. -/
def agrees (c d : Configuration) : Bool := decide (c.leaves = d.leaves)

/-- What a history state has recorded. -/
def recorded? (c : Configuration) (id : String) : Option (SortedSet String) := c.history.get? id

/-- Reads a configuration; the history may be missing. -/
def ofJson? (j : Json) : Option Configuration := do
  let r ← j.record? ["leaves", "history"]
  return ⟨← r.required? "leaves" Json.stringSet?,
    ← r.orElse? "history" (Json.mapOf? Json.stringSet?) .empty⟩

/-- A configuration as a document. -/
def toJson (c : Configuration) : Json :=
  .object [("leaves", Json.ofStringSet c.leaves),
    ("history", Json.ofMap Json.ofStringSet c.history)]

end Configuration

end Statechart
