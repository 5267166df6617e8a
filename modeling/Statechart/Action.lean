/-
# Statechart.Action -- what a machine asks to be done

A machine runs nothing itself. It reports named actions with their parameters, in order, and
leaves it to its owner to carry them out.
-/

import Statechart.Json.Record

namespace Statechart

/-- A named instruction. -/
structure Action where
  kind : String
  params : Option Json
  deriving DecidableEq

namespace Action

/-- An action without parameters. -/
def named (kind : String) : Action := ⟨kind, none⟩

/-- Reads an action; null parameters are none. -/
def ofJson? (j : Json) : Option Action := do
  let r ← j.record? ["type", "params"]
  return ⟨← r.required? "type" Json.asString?, ← r.optional? "params" Json.free?⟩

/-- An action as a document, without parameters if there are none. -/
def toJson (a : Action) : Json :=
  .object (("type", .string a.kind) :: (a.params.map (fun p => ("params", p))).toList)

end Action

end Statechart
