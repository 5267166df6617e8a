/-
# Statechart.Description.Basic -- machines as they are written down

A description is the tree of states a machine is declared with: for each state its children in
document order, its transitions by event, and its actions. Nothing is resolved yet; targets and
guards are texts. Short spellings are kept apart from long ones (`ActionForm`, `TransitionForm`),
so that a description can be written back the way it came.
-/

import Statechart.Action

namespace Statechart

/-- The kinds a state can be declared to have. -/
inductive DeclaredKind where
  | atomic
  | compound
  | parallel
  | final
  | history
  deriving DecidableEq

/-- How much a history state records: the children of its parent, or the leaves below it. -/
inductive HistoryDepth where
  | shallow
  | deep
  deriving DecidableEq

/-- An action as written: its name alone, or with its parameters. -/
inductive ActionForm where
  | named (kind : String)
  | detailed (action : Action)
  deriving DecidableEq

/-- The action that a form stands for. -/
def ActionForm.action : ActionForm → Action
  | .named kind => .named kind
  | .detailed a => a

/-- The parts of a transition. Without targets it only runs actions. -/
structure TransitionSpec where
  targets : List String
  /-- The name of the guard that must hold. -/
  guard : Option String
  /-- A reference to the state that must be active. -/
  inState : Option String
  actions : List ActionForm
  /-- Whether the source is not left when all targets lie below it. -/
  isInternal : Bool
  deriving DecidableEq

/-- The transition without any part. -/
def TransitionSpec.empty : TransitionSpec := ⟨[], none, none, [], false⟩

/-- A transition as written: a target alone, or with all its parts. -/
inductive TransitionForm where
  | target (target : String)
  | detailed (spec : TransitionSpec)
  deriving DecidableEq

/-- The parts of the transition that a form stands for. -/
def TransitionForm.spec : TransitionForm → TransitionSpec
  | .target t => { TransitionSpec.empty with targets := [t] }
  | .detailed spec => spec

/-- A state as written, with the states below it. -/
structure State where
  /-- A name by which the state can be addressed from anywhere. -/
  label : Option String
  kind : Option DeclaredKind
  /-- The key of the child that is entered by default. -/
  initial : Option String
  /-- The children by their keys, in document order; a key may come twice. -/
  states : List (String × State)
  /-- The candidate transitions for each event, in the order they are tried. -/
  on : SortedMap String (List TransitionForm)
  /-- The candidate transitions for the completion of this state. -/
  onDone : Option (List TransitionForm)
  entry : List ActionForm
  exit : List ActionForm
  history : Option HistoryDepth
  /-- The target of a history state that has nothing recorded. -/
  target : Option String

/-- A machine as written: an id and the root state. -/
structure Description where
  id : String
  root : State

namespace State

/-- The state with no declarations at all. -/
def empty : State := ⟨none, none, none, [], .empty, none, [], [], none, none⟩

instance : Inhabited State := ⟨empty⟩

/-- The first child with a key. -/
def child? (s : State) (key : String) : Option State :=
  (s.states.find? (fun c => c.1 = key)).map Prod.snd

/-! ## Size -/

mutual

/-- The number of states of a tree, with its top. -/
def size : State → Nat
  | { states, .. } => sizeAll states + 1

/-- The number of states of several trees. -/
def sizeAll : List (String × State) → Nat
  | [] => 0
  | (_, s) :: rest => size s + sizeAll rest
termination_by structural l => l

end

/-! ## Equality -/

mutual

private def decEqState (s t : State) : Decidable (s = t) :=
  match s, t with
  | ⟨a₁, k₁, i₁, ss, o₁, d₁, e₁, x₁, h₁, t₁⟩, ⟨a₂, k₂, i₂, ts, o₂, d₂, e₂, x₂, h₂, t₂⟩ =>
    match decEqStates ss ts with
    | isFalse h => isFalse (fun e => h (by injection e))
    | isTrue h =>
      if g : a₁ = a₂ ∧ k₁ = k₂ ∧ i₁ = i₂ ∧ o₁ = o₂ ∧ d₁ = d₂ ∧ e₁ = e₂ ∧ x₁ = x₂ ∧ h₁ = h₂ ∧ t₁ = t₂
      then isTrue (by
        obtain ⟨rfl, rfl, rfl, rfl, rfl, rfl, rfl, rfl, rfl⟩ := g
        rw [h])
      else isFalse (fun e => g (by
        injection e with p₁ p₂ p₃ p₄ p₅ p₆ p₇ p₈ p₉ p₁₀
        exact ⟨p₁, p₂, p₃, p₅, p₆, p₇, p₈, p₉, p₁₀⟩))

private def decEqStates : (ss ts : List (String × State)) → Decidable (ss = ts)
  | [], [] => isTrue rfl
  | [], _ :: _ => isFalse nofun
  | _ :: _, [] => isFalse nofun
  | (j, s) :: ss, (k, t) :: ts =>
    if hk : j = k then
      match decEqState s t with
      | isFalse h => isFalse (fun e => h (by injection e with e; injection e))
      | isTrue h => match decEqStates ss ts with
        | isTrue g => isTrue (hk ▸ h ▸ g ▸ rfl)
        | isFalse g => isFalse (fun e => g (by injection e))
    else
      isFalse (fun e => hk (by injection e with e; injection e))
termination_by structural l => l

end

instance : DecidableEq State := decEqState

end State

deriving instance DecidableEq for Description

end Statechart
