/-
# Statechart.Tally.Effect -- executors written as data

Executors for machines on named integers, as data: logging, adding to a variable, setting one,
asking the environment, and failing. Additions that leave the 64-bit integers fail.
-/

import Statechart.Tally.Basic

namespace Statechart.Tally

/-- What executors can ask: whether to go on, and with which number. -/
structure Environment where
  accepts : Bool
  bonus : Int
  deriving DecidableEq

namespace Environment

/-- Declines. -/
def standard : Environment := ⟨false, 0⟩

def ofJson? (j : Json) : Option Environment := do
  let r ← j.record? ["accept", "bonus"]
  return ⟨← r.orElse? "accept" Json.asBool? standard.accepts,
    ← r.orElse? "bonus" Json.asInt64? standard.bonus⟩

end Environment

/-- An executor as data. -/
inductive Effect where
  | log
  | add (var : String)
  | set (var : String) (value : Int)
  | ask (var : String)
  | fail (reason : String)
  deriving DecidableEq

namespace Effect

/-- An optional document in a line of the log. -/
def logged (j : Option Json) : String := (j.map Json.compact).getD "-"

/-- The line that an action is logged with. -/
def line (a : Action) (event : Event) : String :=
  a.kind ++ "|" ++ logged a.params ++ "|" ++ event.name ++ "|" ++ logged event.payload

/-- What the parameters of an action add: one without any. -/
def amount? (a : Action) : Option Int :=
  match a.params with
  | none => some 1
  | some j => j.asInt64?

/-- The executor that an effect stands for. -/
def executor : Effect → Executor Tally Environment
  | .log, a, context, event, _ => .ok (context.write (line a event))
  | .add var, a, context, _, _ =>
    match amount? a with
    | none => .error (.invalidParams a.kind "not an integer")
    | some n =>
      let sum := context.value var + n
      if -(Nat.pow 2 63 : Int) ≤ sum ∧ sum < Nat.pow 2 63 then .ok (context.set var sum)
      else .error (.failed a.kind "overflow")
  | .set var value, _, context, _, _ => .ok (context.set var value)
  | .ask var, a, context, _, env =>
    if env.accepts then .ok (context.set var env.bonus)
    else .error (.failed a.kind "declined by env")
  | .fail reason, a, _, _, _ => .error (.failed a.kind reason)

/-- Reads an effect. -/
def ofJson? (j : Json) : Option Effect := do
  let r ← j.record? ["do", "var", "value", "reason"]
  let var ← r.orElse? "var" Json.asString? "x"
  let value ← r.orElse? "value" Json.asInt64? 0
  let reason ← r.orElse? "reason" Json.asString? "no reason"
  match ← r.required? "do" Json.asString? with
  | "log" => some .log
  | "add" => some (.add var)
  | "set" => some (.set var value)
  | "env" => some (.ask var)
  | "fail" => some (.fail reason)
  | _ => none

end Effect

end Statechart.Tally
