/-
# Statechart.Tally.Condition -- guards written as data

Guards for machines on named integers, as data: constants, failures, negations, tests of the
event's name or payload, and comparisons of a variable with a number. A condition is read from a
document and gives a guard.
-/

import Statechart.Tally.Basic

namespace Statechart.Tally

/-- How a variable is compared with a number. -/
inductive Comparison where
  | less
  | atMost
  | equal
  | atLeast
  | greater
  deriving DecidableEq

namespace Comparison

def holds : Comparison → Int → Int → Bool
  | .less, a, b => a < b
  | .atMost, a, b => a ≤ b
  | .equal, a, b => a = b
  | .atLeast, a, b => b ≤ a
  | .greater, a, b => b < a

def ofName? : String → Option Comparison
  | "lt" => some .less
  | "le" => some .atMost
  | "eq" => some .equal
  | "ge" => some .atLeast
  | "gt" => some .greater
  | _ => none

end Comparison

/-- A guard as data. -/
inductive Condition where
  | const (b : Bool)
  | fails (message : String)
  | negation (c : Condition)
  | eventIs (name : String)
  | payloadAtMost (key : String) (max : Int)
  | compare (var : String) (comparison : Comparison) (value : Int)

namespace Condition

/-- An integer under a key of the payload. -/
def payloadInt? (event : Event) (key : String) : Option Int := do
  let members ← (← event.payload).asObject?
  (← Json.member? key members).asInt64?

/-- The guard that a condition stands for. -/
def guard : Condition → Guard Tally
  | .const b => ⟨fun _ _ => .ok b⟩
  | .fails message => ⟨fun _ _ => .error (.raised message)⟩
  | .negation c => c.guard.negate
  | .eventIs name => ⟨fun _ event => .ok (event.name = name)⟩
  | .payloadAtMost key max => ⟨fun _ event =>
      match payloadInt? event key with
      | some n => .ok (n ≤ max)
      | none => .error (.raised ("payload has no " ++ key))⟩
  | .compare var comparison value =>
    ⟨fun context _ => .ok (comparison.holds (context.value var) value)⟩

/-- Reads a condition that is no negation. -/
def plain? (members : List (String × Json)) : Option Condition :=
  match Json.member? "event" members, Json.member? "payload" members with
  | some name, _ => name.asString?.map .eventIs
  | none, some key => do
    return .payloadAtMost (← key.asString?) (← (← Json.member? "max" members).asInt64?)
  | none, none => do
    return .compare (← (← Json.member? "var" members).asString?)
      (← Comparison.ofName? (← (← Json.member? "cmp" members).asString?))
      (← (← Json.member? "value" members).asInt64?)

mutual

/-- Reads a condition; the first form that fits decides. -/
def ofJson? : Json → Option Condition
  | .object members =>
    match Json.member? "const" members, Json.member? "err" members with
    | some b, _ => b.asBool?.map .const
    | none, some message => message.asString?.map .fails
    | none, none =>
      match negated? members with
      | some c => c.map .negation
      | none => plain? members
  | _ => none

/-- What stands under the name of a negation, if there is one. -/
def negated? : List (String × Json) → Option (Option Condition)
  | [] => none
  | (name, j) :: rest => if name = "not" then some (ofJson? j) else negated? rest

end

end Condition

end Statechart.Tally
