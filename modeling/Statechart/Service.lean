/-
# Statechart.Service -- a running machine and its owner's context

The interpreter only reports actions. A service keeps the current configuration and a context, and
carries the reported actions out by executors: functions from an action, the context as the action
before left it, the event, and an environment to a new context or an error. Actions without an
executor are skipped.

A step is computed first and committed afterwards, so that nothing changes unless every action has
succeeded. Each committed move is written into the journal with the time it is given.
-/

import Statechart.Journal
import Statechart.Step.Macrostep

namespace Statechart

/-- Why an action could not be carried out. -/
inductive ActionError where
  | failed (action reason : String)
  | invalidParams (action reason : String)
  deriving DecidableEq

/-- The text of an action's failure. -/
def ActionError.message : ActionError → String
  | failed action reason => "Action '" ++ action ++ "' failed: " ++ reason
  | invalidParams action reason => "Action '" ++ action ++ "' rejected its params: " ++ reason

/-- Why a step could not be made. -/
inductive ServiceError where
  | interpreter (cause : Failure)
  | action (cause : ActionError)
  deriving DecidableEq

def ServiceError.message : ServiceError → String
  | interpreter cause => cause.message
  | action cause => cause.message

/-- What carries out one kind of action on contexts of type `γ` in environments of type `ε`. -/
abbrev Executor (γ ε : Type) := Action → γ → Event → ε → Except ActionError γ

/-- What a step has led to, before it is committed. -/
inductive StepResult (γ : Type) where
  | transitioned (event : Event) (arrival : Arrival) (context : γ)
  | unchanged (event : Event)

/-- A running machine. -/
structure Service (γ ε : Type) where
  machine : Machine γ
  configuration : Configuration
  value : StateValue
  /-- Whether the root has completed. -/
  isDone : Bool
  context : γ
  journal : Journal
  executors : SortedMap String (Executor γ ε)

namespace Service

variable {γ ε : Type}

/-- A service in the initial configuration of a machine. No action is carried out. -/
def start? (m : Machine γ) (context : γ) : Except Failure (Service γ ε) := do
  let r ← m.initialState context
  return ⟨m, r.configuration, r.value, r.isDone, context, .empty, .empty⟩

/-- A service with what was kept of one before. -/
def resume (m : Machine γ) (configuration : Configuration) (context : γ) (journal : Journal) :
    Except Failure (Service γ ε) := do
  let value ← m.stateValue configuration
  let isDone ← m.isDone configuration
  return ⟨m, configuration, value, isDone, context, journal, .empty⟩

/-- Registers what carries out one kind of action. -/
def onAction (s : Service γ ε) (kind : String) (executor : Executor γ ε) : Service γ ε :=
  { s with executors := s.executors.insert kind executor }

/-- Whether a dotted path leads to an active state or to one above an active state. -/
def hasPath (s : Service γ ε) (path : String) : Bool := s.value.hasPath path

/-! ## Steps -/

/-- Carries out actions one after the other, beginning with a context; stops at the first that
fails. -/
def runActions (s : Service γ ε) (event : Event) (env : ε) :
    List Action → γ → Except ActionError γ
  | [], context => .ok context
  | a :: rest, context =>
    match s.executors.get? a.kind with
    | none => s.runActions event env rest context
    | some executor =>
      match executor a context event env with
      | .error e => .error e
      | .ok context => s.runActions event env rest context

/-- Carries out the actions of an arrival. -/
def run (s : Service γ ε) (event : Event) (env : ε) (r : Arrival) :
    Except ServiceError (StepResult γ) :=
  match s.runActions event env r.actions s.context with
  | .ok context => .ok (.transitioned event r context)
  | .error e => .error (.action e)

/-- What delivering an event leads to. -/
def step (s : Service γ ε) (event : Event) (env : ε) : Except ServiceError (StepResult γ) :=
  match s.machine.transition s.configuration s.context event with
  | .error e => .error (.interpreter e)
  | .ok .unchanged => .ok (.unchanged event)
  | .ok (.transitioned r) => s.run event env r

/-- The event that the initial configuration is entered under. -/
def initEvent : Event := .named "init"

/-- What entering the initial configuration again leads to, with its actions carried out. -/
def restart (s : Service γ ε) (env : ε) : Except ServiceError (StepResult γ) :=
  match s.machine.initialState s.context with
  | .error e => .error (.interpreter e)
  | .ok r => s.run initEvent env r

/-- Commits what a step has led to. -/
def commit (s : Service γ ε) (now : Instant) : StepResult γ → Service γ ε
  | .unchanged _ => s
  | .transitioned event r context =>
    { s with
      configuration := r.configuration
      value := r.value
      isDone := r.isDone
      context := context
      journal := s.journal.push {
        before := s.configuration
        after := r.configuration
        event := event.name
        instant := now
        microsteps := r.microsteps } }

/-- Delivers an event and commits what it leads to; also says whether it moved the machine. -/
def send (s : Service γ ε) (now : Instant) (event : Event) (env : ε) :
    Except ServiceError (Bool × Service γ ε) :=
  match s.step event env with
  | .error e => .error e
  | .ok (.unchanged e) => .ok (false, s.commit now (.unchanged e))
  | .ok (.transitioned e r context) => .ok (true, s.commit now (.transitioned e r context))

end Service

end Statechart
