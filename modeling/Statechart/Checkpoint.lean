/-
# Statechart.Checkpoint -- services kept for later

A checkpoint holds what a service needs to go on: the configuration with its history, the context
and the journal, next to a version, an id, a time and a summary. Executors are functions and have
to be registered again. A checkpoint is kept as a document or in binary form, and is accepted only
in the version that is written here, by the machine it was taken from, and if the machine accepts
its configuration.
-/

import Statechart.Bytes
import Statechart.Json.Parser
import Statechart.Json.Printer
import Statechart.Service

namespace Statechart

/-- How contexts are kept. -/
structure ContextFormat (γ : Type) where
  toJson : γ → Json
  ofJson? : Json → Option γ
  toBytes : γ → List UInt8
  read : Bytes.Reader γ

/-- What a journal amounts to. -/
structure Summary where
  /-- The time of the first move, or of the checkpoint without any. -/
  startedAt : Instant
  /-- The time of the last move, or of the checkpoint without any. -/
  updatedAt : Instant
  microsteps : Nat
  /-- The number of moves for each event. -/
  events : SortedMap String Nat
  deriving DecidableEq

namespace Summary

/-- The summary of a journal at a time. -/
def ofJournal (j : Journal) (now : Instant) : Summary where
  startedAt := (j.moves.head?.map Move.instant).getD now
  updatedAt := (j.moves.getLast?.map Move.instant).getD now
  microsteps := j.microsteps
  events := j.eventCounts

def ofJson? (j : Json) : Option Summary := do
  let r ← j.record? ["started_at", "updated_at", "microsteps", "events"]
  return {
    startedAt := ← r.required? "started_at" Instant.ofJson?
    updatedAt := ← r.required? "updated_at" Instant.ofJson?
    microsteps := ← r.required? "microsteps" Json.asCount?
    events := ← r.required? "events" (Json.mapOf? Json.asCount?) }

def toJson (s : Summary) : Json :=
  .object [("started_at", s.startedAt.toJson), ("updated_at", s.updatedAt.toJson),
    ("microsteps", Json.ofNat s.microsteps), ("events", Json.ofMap Json.ofNat s.events)]

def toBytes (s : Summary) : List UInt8 :=
  Bytes.ofInstant s.startedAt ++ Bytes.ofInstant s.updatedAt ++ Bytes.ofCount s.microsteps ++
    Bytes.ofMap Bytes.ofCount s.events

def read : Bytes.Reader Summary := do
  let startedAt ← Bytes.readInstant
  let updatedAt ← Bytes.readInstant
  let microsteps ← Bytes.readCount
  let events ← Bytes.readMap Bytes.readCount
  return { startedAt, updatedAt, microsteps, events }

end Summary

/-- A service as it is kept. -/
structure Checkpoint (γ : Type) where
  version : Nat
  id : String
  instant : Instant
  machineId : String
  configuration : Configuration
  context : γ
  journal : Journal
  summary : Summary

/-- Why a checkpoint cannot be read or resumed. -/
inductive CheckpointError where
  | unreadable
  | unsupportedVersion (found : Nat)
  | machineMismatch (expected found : String)
  | validationFailed (cause : Failure)
  deriving DecidableEq

namespace Checkpoint

/-- The version that is written and read. -/
def currentVersion : Nat := 1

end Checkpoint

/-- The text of a refusal. -/
def CheckpointError.message : CheckpointError → String
  | unreadable => "Deserialization failed"
  | unsupportedVersion found =>
    "Unsupported checkpoint version " ++ Nat.repr found ++ ", supported: " ++
      Nat.repr Checkpoint.currentVersion
  | machineMismatch expected found =>
    "Checkpoint belongs to machine '" ++ found ++ "', expected '" ++ expected ++ "'"
  | validationFailed cause => "Checkpoint validation failed: " ++ cause.message

namespace Checkpoint

variable {γ ε : Type}

/-- Refuses other versions. -/
def checkVersion (c : Checkpoint γ) : Except CheckpointError (Checkpoint γ) :=
  if c.version = currentVersion then .ok c else .error (.unsupportedVersion c.version)

/-! ## As documents -/

def toJson (format : ContextFormat γ) (c : Checkpoint γ) : Json :=
  .object [("version", Json.ofNat c.version), ("id", .string c.id),
    ("timestamp", c.instant.toJson), ("machine_id", .string c.machineId),
    ("configuration", c.configuration.toJson), ("context", format.toJson c.context),
    ("history", c.journal.toJson), ("metadata", c.summary.toJson)]

def ofJson? (format : ContextFormat γ) (j : Json) : Option (Checkpoint γ) := do
  let r ← j.record? ["version", "id", "timestamp", "machine_id", "configuration", "context",
    "history", "metadata"]
  return {
    version := ← r.required? "version" (Json.asNatBelow? (Nat.pow 2 32))
    id := ← r.required? "id" Json.asString?
    instant := ← r.required? "timestamp" Instant.ofJson?
    machineId := ← r.required? "machine_id" Json.asString?
    configuration := ← r.required? "configuration" Configuration.ofJson?
    context := ← r.required? "context" format.ofJson?
    journal := ← r.required? "history" Journal.ofJson?
    summary := ← r.required? "metadata" Summary.ofJson? }

/-- A checkpoint as text over lines. -/
def text (format : ContextFormat γ) (c : Checkpoint γ) : String := (c.toJson format).pretty

/-- Reads a checkpoint from text. The reader is tolerant, since parts that are not known may hold
anything; no part that is known accepts null. -/
def ofText (format : ContextFormat γ) (text : String) : Except CheckpointError (Checkpoint γ) :=
  match (Json.parse? .tolerant text).bind (ofJson? format) with
  | some c => c.checkVersion
  | none => .error .unreadable

/-! ## In binary form -/

def toBytes (format : ContextFormat γ) (c : Checkpoint γ) : List UInt8 :=
  Bytes.ofNat 4 c.version ++ Bytes.ofString c.id ++ Bytes.ofInstant c.instant ++
    Bytes.ofString c.machineId ++ Bytes.ofConfiguration c.configuration ++
    format.toBytes c.context ++ Bytes.ofJournal c.journal ++ c.summary.toBytes

def read (format : ContextFormat γ) : Bytes.Reader (Checkpoint γ) := do
  let version ← Bytes.readNat 4
  let id ← Bytes.readString
  let instant ← Bytes.readInstant
  let machineId ← Bytes.readString
  let configuration ← Bytes.readConfiguration
  let context ← format.read
  let journal ← Bytes.readJournal
  let summary ← Summary.read
  return { version, id, instant, machineId, configuration, context, journal, summary }

/-- Reads a checkpoint from bytes; bytes behind it do not matter. -/
def ofBytes (format : ContextFormat γ) (bytes : List UInt8) :
    Except CheckpointError (Checkpoint γ) :=
  match (read format).run bytes with
  | some (c, _) => c.checkVersion
  | none => .error .unreadable

end Checkpoint

namespace Service

variable {γ ε : Type}

/-- What is kept of a service, at a time and under an id. -/
def checkpoint (s : Service γ ε) (id : String) (now : Instant) : Checkpoint γ where
  version := Checkpoint.currentVersion
  id := id
  instant := now
  machineId := s.machine.machineId
  configuration := s.configuration
  context := s.context
  journal := s.journal
  summary := .ofJournal s.journal now

/-- The service that goes on from a checkpoint. -/
def ofCheckpoint (m : Machine γ) (c : Checkpoint γ) : Except CheckpointError (Service γ ε) := do
  let c ← c.checkVersion
  if c.machineId = m.machineId then
    match Service.resume m c.configuration c.context c.journal with
    | .ok s => .ok s
    | .error e => .error (.validationFailed e)
  else
    .error (.machineMismatch m.machineId c.machineId)

end Service

end Statechart
