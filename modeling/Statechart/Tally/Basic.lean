/-
# Statechart.Tally.Basic -- a context of named integers

A ready-made context for machines: integer variables by name, zero when unset, and a log of texts.
Variables hold 64-bit integers. The context is kept as a document or in binary form
(`Tally.format`).
-/

import Statechart.Checkpoint

namespace Statechart

/-- Named integers and a log. -/
structure Tally where
  vars : SortedMap String Int
  log : List String
  deriving DecidableEq

namespace Tally

/-- No variable set and nothing logged. -/
def empty : Tally := ⟨.empty, []⟩

/-- The value of a variable. -/
def value (t : Tally) (name : String) : Int := (t.vars.get? name).getD 0

/-- Sets a variable. -/
def set (t : Tally) (name : String) (value : Int) : Tally :=
  { t with vars := t.vars.insert name value }

/-- Adds a line to the log. -/
def write (t : Tally) (line : String) : Tally := { t with log := t.log ++ [line] }

def ofJson? (j : Json) : Option Tally := do
  let r ← j.record? ["vars", "log"]
  return ⟨← r.orElse? "vars" (Json.mapOf? Json.asInt64?) .empty,
    ← r.orElse? "log" (Json.listOf? Json.asString?) []⟩

def toJson (t : Tally) : Json :=
  .object [("vars", Json.ofMap .int t.vars), ("log", .array (t.log.map .string))]

/-- How the context is kept. -/
def format : ContextFormat Tally where
  toJson := toJson
  ofJson? := ofJson?
  toBytes := fun t => Bytes.ofMap Bytes.ofInt t.vars ++ Bytes.ofList Bytes.ofString t.log
  read := do
    let vars ← Bytes.readMap Bytes.readInt
    let log ← Bytes.readList Bytes.readString
    return ⟨vars, log⟩

end Tally

end Statechart
