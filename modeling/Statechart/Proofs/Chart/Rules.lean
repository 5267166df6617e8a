/-
# Statechart.Proofs.Chart.Rules -- the rules that descriptions must keep

Each rule is stated by itself, on declarations and on what texts resolve to, apart from the passes
that check it: on keys (`Tree.KeyBreach`), on names (`Description.surplusClaims`), on what each kind
of state may declare (`Tree.StructureBreach`), and on transitions (`Chart.transitionBreaches`). A
list of errors that has each breach of a rule once `Reports` them.
-/

import Statechart.Proofs.Entry.Coherent
import Statechart.Proofs.Tree.Declared

namespace Statechart

/-! ## States -/

namespace Tree

/-- The key of a state below the root is empty or holds a dot or a hash sign. -/
def KeyBreach (t : Tree) (n : Nat) (v : Violation) : Prop :=
  ∃ p, n ∈ t.children p ∧
    (t.key n = "" ∨ '.' ∈ (t.key n).toList ∨ '#' ∈ (t.key n).toList) ∧
    v = .invalidKey (t.id p) (t.key n)

/-- A text is the full id of a state, or a label of it that is another text. -/
def Claims (t : Tree) (n : Nat) (s : State) (name : String) : Prop :=
  t.id n = name ∨ s.label = some name ∧ name ≠ t.id n

/-- What the declaration of a state does that its kind forbids. An event without candidates is
declared like any other. -/
inductive StructureBreach (t : Tree) (n : Nat) (s : State) : Violation → Prop
  | missingInitial (kind : s.effectiveKind = .compound) (initial : s.initial = none) :
      StructureBreach t n s (.missingInitial (t.id n))
  | unknownInitial {key : String} (kind : s.effectiveKind = .compound)
      (initial : s.initial = some key)
      (history : ∀ c, s.child? key = some c → c.effectiveKind.isHistory = true) :
      StructureBreach t n s (.unknownInitial (t.id n) key)
  | strayInitial {key : String} (compound : s.effectiveKind ≠ .compound)
      (parallel : s.effectiveKind ≠ .parallel) (initial : s.initial = some key) :
      StructureBreach t n s (.unknownInitial (t.id n) key)
  | emptyParallel (kind : s.effectiveKind = .parallel)
      (regions : ∀ e ∈ s.states, e.2.effectiveKind.isHistory = true) :
      StructureBreach t n s (.emptyParallel (t.id n))
  | unexpectedChildren (kind : s.effectiveKind = .atomic) (children : s.states ≠ []) :
      StructureBreach t n s (.unexpectedChildren (t.id n))
  | finalChildren (kind : s.effectiveKind = .final) (children : s.states ≠ []) :
      StructureBreach t n s (.invalidFinal (t.id n) .children)
  | finalTransitions (kind : s.effectiveKind = .final)
      (transitions : s.on ≠ .empty ∨ s.onDone ≠ none) :
      StructureBreach t n s (.invalidFinal (t.id n) .transitions)
  | historyChildren (kind : s.effectiveKind.isHistory = true) (children : s.states ≠ []) :
      StructureBreach t n s (.invalidHistory (t.id n) .children)
  | historyTransitions (kind : s.effectiveKind.isHistory = true)
      (transitions : s.on ≠ .empty ∨ s.onDone ≠ none) :
      StructureBreach t n s (.invalidHistory (t.id n) .transitions)
  | unresolvedDefault {target : String} (kind : s.effectiveKind.isHistory = true)
      (declared : s.target = some target) (unresolved : t.resolveTarget? n target = none) :
      StructureBreach t n s (.unresolvedTarget (t.id n) Violation.historyDefaultEvent target)
  | outsideParent {target : String} {m p : Nat} (kind : s.effectiveKind.isHistory = true)
      (declared : s.target = some target) (resolved : t.resolveTarget? n target = some m)
      (parent : n ∈ t.children p) (outside : ¬ t.Below m p) :
      StructureBreach t n s (.invalidHistory (t.id n) .outsideParent)

end Tree

/-! ## Transitions -/

namespace Chart

open Classical in
/-- How often a transition breaks a rule: once for each of its targets that does not resolve, and
once if those that do are in conflict, if its guard is not known, or if the state it asks for does
not resolve. -/
noncomputable def transitionBreaches (c : Chart) (hasGuard : String → Bool) (n : Nat)
    (event : String) (spec : TransitionSpec) (v : Violation) : Nat :=
  spec.targets.countP (fun target =>
      c.resolveTarget? n target = none ∧ v = .unresolvedTarget (c.id n) event target) +
    (if ¬ (spec.targets.filterMap (c.resolveTarget? n)).Pairwise c.Parted ∧
        v = .conflictingTargets (c.id n) event spec.targets then 1 else 0) +
    (if ∃ guard, spec.guard = some guard ∧ hasGuard guard = false ∧
        v = .unknownGuard (c.id n) event guard then 1 else 0) +
    (if ∃ reference, spec.inState = some reference ∧ c.resolveInState? reference = none ∧
        v = .unresolvedInState (c.id n) event reference then 1 else 0)

end Chart

/-! ## Descriptions -/

namespace Description

/-- The transitions that are declared: with the number of their state, by event in the order of
events, those for completion last, and in the order of their declarations for each event. -/
def transitions (d : Description) : List (Nat × String × TransitionSpec) :=
  (List.range d.tree.size).flatMap (fun n =>
    ((d.declaration n).declared (d.tree.id n)).flatMap (fun e =>
      e.2.map (fun form => (n, e.1, form.spec))))

open Classical in
/-- How many states a rule on the declaration of a state is broken by. -/
noncomputable def countStates (d : Description) (broken : Nat → State → Prop) : Nat :=
  (List.range d.tree.size).countP (fun n => broken n (d.declaration n))

/-- How often a text is claimed as a name beyond the first time. -/
noncomputable def surplusClaims (d : Description) : Violation → Nat
  | .duplicateId name => d.countStates (fun n s => d.tree.Claims n s name) - 1
  | _ => 0

open Classical in
/-- How often a rule is broken apart from the transitions. -/
noncomputable def stateBreaches (d : Description) (v : Violation) : Nat :=
  (if d.id = "" ∧ v = .missingMachineId then 1 else 0) +
    d.countStates (fun n _ => d.tree.KeyBreach n v) + d.surplusClaims v +
    d.countStates (fun n s => d.tree.StructureBreach n s v)

/-- A list of errors that reports each breach of a rule once, and nothing else: first those of the
states, then for each transition in order its own. -/
def Reports (d : Description) (hasGuard : String → Bool) (errors : List Violation) : Prop :=
  ∃ earlier blocks, errors = earlier ++ blocks.flatten ∧
    (∀ v, earlier.count v = d.stateBreaches v) ∧
    List.Forall₂ (fun e block => ∀ v,
      block.count v = d.chart.transitionBreaches hasGuard e.1 e.2.1 e.2.2 v) d.transitions blocks

/-- A description that breaks no rule. -/
def Sound (d : Description) (hasGuard : String → Bool) : Prop :=
  ∀ v, d.stateBreaches v = 0 ∧
    ∀ e ∈ d.transitions, d.chart.transitionBreaches hasGuard e.1 e.2.1 e.2.2 v = 0

end Description

end Statechart
