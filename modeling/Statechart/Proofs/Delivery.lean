/-
# Statechart.Proofs.Delivery -- deliveries are made as a whole or not at all

Carrying out the actions that a call reports folds their executors over the context, from the left:
each sees the context that the one before has left, and actions without an executor leave it as it
is (`Service.runActions_eq_foldlM`). The fold stops at the first executor that fails.

A delivery that cannot be made as a whole -- because the call fails, because nothing is moved, or
because an executor that is reached fails -- leaves the service as it is, whatever has been carried
out by then. One that is made takes over where the call has led and the context at the end of the
fold (`Service.delivered_whole_or_not`).
-/

import Statechart.Proofs.Session
import Statechart.Tally.Effect

namespace Statechart

namespace Service

variable {γ ε : Type} {s : Service γ ε} {context context' : γ} {event : Event} {env : ε}
  {actions : List Action} {now : Instant} {cause : ActionError} {arrival : Arrival}

/-! ## Carrying out actions -/

/-- What carrying out an action makes of the context. -/
def carryOut (s : Service γ ε) (event : Event) (env : ε) (context : γ) (a : Action) :
    Except ActionError γ :=
  match s.executors.get? a.kind with
  | none => .ok context
  | some executor => executor a context event env

/-- Carrying out actions goes through them from the left. -/
theorem runActions_eq_foldlM :
    s.runActions event env actions context = actions.foldlM (s.carryOut event env) context := by
  induction actions generalizing context with
  | nil => rfl
  | cons a actions ih =>
    rw [runActions, List.foldlM_cons, carryOut]
    cases s.executors.get? a.kind with
    | none => exact ih
    | some executor =>
      cases hx : executor a context event env with
      | error e =>
        simp only [hx]
        rfl
      | ok context' =>
        simp only [hx]
        exact ih

/-- Carrying out actions comes to a stop: an executor is reached, with the context that those before
it have left, and fails. -/
def Stops (s : Service γ ε) (event : Event) (env : ε) (context : γ) (actions : List Action)
    (cause : ActionError) : Prop :=
  ∃ before a after reached executor, actions = before ++ a :: after ∧
    before.foldlM (s.carryOut event env) context = .ok reached ∧
    s.executors.get? a.kind = some executor ∧ executor a reached event env = .error cause

theorem carryOut_eq_error {a : Action} : s.carryOut event env context a = .error cause ↔
    ∃ executor, s.executors.get? a.kind = some executor ∧
      executor a context event env = .error cause := by
  unfold carryOut
  cases s.executors.get? a.kind <;> simp

theorem stops_iff : s.Stops event env context actions cause ↔
    actions.foldlM (s.carryOut event env) context = .error cause := by
  simp only [Stops, foldlM_eq_error_iff, carryOut_eq_error]
  grind

/-! ## Steps -/

theorem run_eq_error {e : ServiceError} : s.run event env arrival = .error e ↔
    ∃ cause, s.Stops event env s.context arrival.actions cause ∧ e = .action cause := by
  simp only [stops_iff, ← runActions_eq_foldlM, run]
  cases s.runActions event env arrival.actions s.context with
  | error cause => simp [eq_comm]
  | ok context => simp

/-- A step fails as the call does, or as the first executor that fails. -/
theorem step_eq_error {e : ServiceError} : s.step event env = .error e ↔
    (∃ f, s.machine.transition s.configuration s.context event = .error f ∧ e = .interpreter f) ∨
      ∃ arrival cause, s.machine.transition s.configuration s.context event =
          .ok (.transitioned arrival) ∧
        s.Stops event env s.context arrival.actions cause ∧ e = .action cause := by
  unfold step
  rcases s.machine.transition s.configuration s.context event with f | arrival | _
  · simp [eq_comm]
  · simp [run_eq_error]
  · simp

/-- A step moves the machine where the call has led, if all its actions can be carried out. -/
theorem step_eq_transitioned {e : Event} :
    s.step event env = .ok (.transitioned e arrival context) ↔ e = event ∧
      s.machine.transition s.configuration s.context event = .ok (.transitioned arrival) ∧
      arrival.actions.foldlM (s.carryOut event env) s.context = .ok context := by
  simp only [step_eq_ok, run_eq_ok, runActions_eq_foldlM]
  grind

/-! ## Deliveries -/

/-- The service after a delivery that has been made. -/
def moved (s : Service γ ε) (now : Instant) (event : Event) (arrival : Arrival) (context : γ) :
    Service γ ε :=
  { s with
    configuration := arrival.configuration
    value := arrival.value
    isDone := arrival.isDone
    context := context
    journal := s.journal.push
      ⟨s.configuration, arrival.configuration, event.name, now, arrival.microsteps⟩ }

theorem send_eq_error {e : ServiceError} :
    s.send now event env = .error e ↔ s.step event env = .error e := by
  unfold send
  rcases s.step event env with e | _ | _ <;> simp

theorem send_eq_unmoved {t : Service γ ε} : s.send now event env = .ok (false, t) ↔
    (∃ e, s.step event env = .ok (.unchanged e)) ∧ t = s := by
  unfold send
  rcases s.step event env with e | _ | _ <;> simp [commit, eq_comm]

theorem send_eq_moved {t : Service γ ε} : s.send now event env = .ok (true, t) ↔
    ∃ e arrival context, s.step event env = .ok (.transitioned e arrival context) ∧
      t = s.moved now e arrival context := by
  unfold send
  rcases s.step event env with e | _ | _
  · simp
  · simp only [commit, moved, Except.ok.injEq, Prod.mk.injEq, true_and,
      StepResult.transitioned.injEq]
    grind
  · simp

/-- A delivery is made as a whole or not at all. It fails as the call does; or else, where the call
has led somewhere, as the first executor that is reached and fails; it moves nothing exactly if the
call does not. In all these cases the service is as before, with its configuration, value,
completion, context and journal. Otherwise all actions have been carried out in the order in which
they are reported, each with the context that those before it have left, and the service takes over
where the call has led and the context in the end. -/
theorem delivered_whole_or_not (s : Service γ ε) (now : Instant) (event : Event) (env : ε) :
    (∀ f, s.send now event env = .error (.interpreter f) ↔
        s.machine.transition s.configuration s.context event = .error f) ∧
      (∀ cause, s.send now event env = .error (.action cause) ↔ ∃ arrival,
        s.machine.transition s.configuration s.context event = .ok (.transitioned arrival) ∧
          s.Stops event env s.context arrival.actions cause) ∧
      (∀ t, s.send now event env = .ok (false, t) ↔
        s.machine.transition s.configuration s.context event = .ok .unchanged ∧ t = s) ∧
      (∀ t, s.send now event env = .ok (true, t) ↔ ∃ arrival context,
        s.machine.transition s.configuration s.context event = .ok (.transitioned arrival) ∧
          arrival.actions.foldlM (s.carryOut event env) s.context = .ok context ∧
          t = s.moved now event arrival context) ∧
      ∀ x : Session γ ε, x.service = s →
        (∀ t, s.send now event env = .ok (true, t) →
          x.after now (.send event env) = { x with service := t }) ∧
        ((∀ t, s.send now event env ≠ .ok (true, t)) → x.after now (.send event env) = x) := by
  refine ⟨fun f => ?_, fun cause => ?_, fun t => ?_, fun t => ?_, ?_⟩
  · simp [send_eq_error, step_eq_error]
  · simp [send_eq_error, step_eq_error]
  · rw [send_eq_unmoved]
    refine and_congr_left fun _ => ?_
    simp [step_eq_ok, run_eq_ok]
  · simp only [send_eq_moved, step_eq_transitioned]
    grind
  · rintro x rfl
    refine ⟨fun t ht => ?_, fun hnot => ?_⟩
    · simp only [Session.after, ht]
    · cases hsend : x.service.send now event env with
      | error e => simp only [Session.after, hsend]
      | ok answer =>
        obtain ⟨moved, t⟩ := answer
        cases moved with
        | true => exact absurd hsend (hnot t)
        | false =>
          obtain ⟨-, rfl⟩ := send_eq_unmoved.mp hsend
          simp only [Session.after, hsend]

end Service

/-! ### A till

Paying charges the price, prints a slip, asks for approval and charges the fee; nothing prints
here. -/

/-- A till that takes one payment. -/
def Description.till : Description where
  id := "till"
  root := { State.empty with
    initial := some "open"
    states := [
      ("open", { State.empty with
        on := .ofList [("PAY", [.detailed { TransitionSpec.empty with
          targets := ["paid"]
          actions := [.detailed ⟨"charge", some (.int 5)⟩, .named "print",
            .named "approve"] }])] }),
      ("paid", { State.empty with entry := [.named "charge"] })] }

namespace Machine

open Tally (Effect Environment)

def till : Machine Tally :=
  { Description.till.chart with guards := .empty, options := .standard }

def till.opened : Active := ⟨.ofList [0, 1], .empty⟩

/-- Where paying leads, before anything is carried out. -/
def till.payment : Arrival :=
  till.arrival ⟨⟨.ofList [0, 2], .empty⟩,
    [⟨"charge", some (.int 5)⟩, .named "print", .named "approve", .named "charge"], 1⟩

/-- The open till. Charging adds to what is due, and approval asks whoever is there. -/
def till.service : Service Tally Environment :=
  { machine := till
    configuration := till.opened.configuration till.toTree
    value := till.opened.value till.toTree
    isDone := false
    context := .empty
    journal := .empty
    executors := .ofList [("charge", Effect.executor (.add "due")),
      ("approve", Effect.executor (.ask "bonus"))] }

/-- Where the payment is not approved, nothing has been charged; where it is, all has been. -/
theorem till_pays_or_not (now : Instant) :
    till.service.send now (.named "PAY") ⟨false, 0⟩ =
        .error (.action (.failed "approve" "declined by env")) ∧
      till.service.send now (.named "PAY") ⟨true, 2⟩ =
        .ok (true, till.service.moved now (.named "PAY") till.payment
          ⟨.ofList [("bonus", 2), ("due", 6)], []⟩) := by
  have hcall : till.service.machine.transition till.service.configuration till.service.context
      (.named "PAY") = .ok (.transitioned till.payment) :=
    transition_eq_ok.mpr ⟨till.opened, _, by decide +kernel, by decide +kernel, rfl⟩
  obtain ⟨-, hfails, -⟩ :=
    till.service.delivered_whole_or_not now (.named "PAY") ⟨false, 0⟩
  obtain ⟨-, -, -, hmoves, -⟩ :=
    till.service.delivered_whole_or_not now (.named "PAY") ⟨true, 2⟩
  constructor
  · exact (hfails _).mpr ⟨_, hcall, [⟨"charge", some (.int 5)⟩, .named "print"], .named "approve",
      [.named "charge"], _, _, rfl, rfl, rfl, rfl⟩
  · exact (hmoves _).mpr ⟨_, _, hcall, by decide +kernel, rfl⟩

end Machine

end Statechart
