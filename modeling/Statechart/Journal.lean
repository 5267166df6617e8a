/-
# Statechart.Journal -- the moves a machine has made

A move leads from one configuration to another because of one external event. A journal is the
list of moves, oldest first, and only ever grows at its end.
-/

import Statechart.Configuration
import Statechart.Instant

namespace Statechart

/-- One move between configurations. -/
structure Move where
  before : Configuration
  after : Configuration
  event : String
  instant : Instant
  /-- Microsteps taken, with those for done events. -/
  microsteps : Nat
  deriving DecidableEq

namespace Move

/-- Reads a move. -/
def ofJson? (j : Json) : Option Move := do
  let r ← j.record? ["from", "to", "event", "timestamp", "microsteps"]
  return {
    before := ← r.required? "from" Configuration.ofJson?
    after := ← r.required? "to" Configuration.ofJson?
    event := ← r.required? "event" Json.asString?
    instant := ← r.required? "timestamp" Instant.ofJson?
    microsteps := ← r.required? "microsteps" Json.asCount? }

/-- A move as a document. -/
def toJson (m : Move) : Json :=
  .object [("from", m.before.toJson), ("to", m.after.toJson), ("event", .string m.event),
    ("timestamp", m.instant.toJson), ("microsteps", Json.ofNat m.microsteps)]

end Move

/-- The moves made so far, oldest first. -/
structure Journal where
  moves : List Move
  deriving DecidableEq

namespace Journal

/-- The journal without moves. -/
def empty : Journal := ⟨[]⟩

/-- The journal with one more move at its end. -/
def push (j : Journal) (m : Move) : Journal := ⟨j.moves ++ [m]⟩

/-- The configurations passed through: the first one before any move, then the one after each. -/
def path (j : Journal) : List Configuration :=
  match j.moves with
  | [] => []
  | m :: _ => m.before :: j.moves.map Move.after

/-- The time from the first move to the last; none without moves or if it runs backwards. -/
def duration? (j : Journal) : Option Instant.Span :=
  match j.moves.head?, j.moves.getLast? with
  | some first, some last => first.instant.spanTo? last.instant
  | _, _ => none

/-- The microsteps of all moves together. -/
def microsteps (j : Journal) : Nat := (j.moves.map Move.microsteps).foldr (· + ·) 0

/-- How many moves each event has caused. -/
def eventCounts (j : Journal) : SortedMap String Nat :=
  j.moves.foldl (fun counts m => counts.modify m.event (fun n => n.getD 0 + 1)) .empty

/-- Reads a journal. -/
def ofJson? (j : Json) : Option Journal := do
  let r ← j.record? ["records"]
  return ⟨← r.required? "records" (Json.listOf? Move.ofJson?)⟩

/-- A journal as a document. -/
def toJson (j : Journal) : Json := .object [("records", .array (j.moves.map Move.toJson))]

end Journal

end Statechart
