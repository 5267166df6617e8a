/-
# Statechart.Step.Selection -- the transitions an event fires

Each active leaf looks for its transition from itself outwards, trying the candidates of each state
in the order they are declared; the first that is enabled is its choice. A leaf whose search comes
upon a transition chosen before adds nothing. Among the choices, two that would leave a state in
common cannot both fire: the one declared on the deeper state stays, or else the earlier one.
-/

import Statechart.Step.Domain
import Statechart.Step.Failure

namespace Statechart

namespace Machine

variable {γ : Type}

/-- Whether a transition may fire: the state it requires is active and its guard holds. -/
def isEnabled (m : Machine γ) (a : Active) (context : γ) (event : Event) (r : Transition) :
    Except Failure Bool :=
  if r.inState.any (fun n => decide (¬ n ∈ a)) then .ok false
  else
    match r.guard with
    | none => .ok true
    | some name =>
      match m.guards.evaluate name context event with
      | .ok b => .ok b
      | .error e => .error (.guardEvaluation name (m.id r.source) event.name e)

/-- The candidates that a leaf tries, in order. -/
def candidatesFrom (m : Machine γ) (leaf : Nat) (event : String) : List Transition :=
  (m.lineage leaf).flatMap (fun n => m.candidates n event)

/-- The first enabled one of some candidates, unless one chosen before comes first. -/
def choose (m : Machine γ) (a : Active) (context : γ) (event : Event) (chosen : List Transition) :
    List Transition → Except Failure (Option Transition)
  | [] => .ok none
  | r :: rest =>
    if chosen.any (fun s => s.isSame r) then .ok none
    else
      match m.isEnabled a context event r with
      | .error e => .error e
      | .ok true => .ok (some r)
      | .ok false => m.choose a context event chosen rest

/-- The choices of some leaves, each added to those chosen before. -/
def chooseAll (m : Machine γ) (a : Active) (context : γ) (event : Event) :
    List Nat → List Transition → Except Failure (List Transition)
  | [], chosen => .ok chosen
  | leaf :: rest, chosen =>
    match m.choose a context event chosen (m.candidatesFrom leaf event.name) with
    | .error e => .error e
    | .ok found => m.chooseAll a context event rest (chosen ++ found.toList)

end Machine

/-- A choice with the states that it would leave. -/
structure Contender where
  transition : Transition
  exits : SortedSet Nat
  deriving DecidableEq

namespace Contender

/-- A choice among those that an event makes. -/
def of (t : Tree) (a : Active) (r : Transition) : Contender := ⟨r, r.exitSet t a⟩

/-- Whether two choices would leave a state in common. -/
def conflicts (r s : Contender) : Bool := r.exits.toList.any (fun n => decide (n ∈ s.exits))

/-- Whether a choice overrides another: it is declared on a deeper state. -/
def overrides (t : Tree) (r s : Contender) : Bool :=
  t.isBelow r.transition.source s.transition.source

/-- Takes one more choice in. It stays if it overrides all that conflict with it, and these go
then; otherwise it is dropped. -/
def contend (t : Tree) (kept : List Contender) (r : Contender) : List Contender :=
  if (kept.filter r.conflicts).all (r.overrides t) then
    kept.filter (fun s => !r.conflicts s) ++ [r]
  else kept

end Contender

/-- The choices without those that others override. -/
def Transition.withoutConflicts (t : Tree) (a : Active) (chosen : List Transition) :
    List Transition :=
  ((chosen.map (Contender.of t a)).foldl (Contender.contend t) []).map Contender.transition

namespace Machine

variable {γ : Type}

/-- The transitions that an event fires. -/
def select (m : Machine γ) (a : Active) (context : γ) (event : Event) :
    Except Failure (List Transition) :=
  (m.chooseAll a context event (a.leaves m.toTree) []).map
    (Transition.withoutConflicts m.toTree a)

end Machine

end Statechart
