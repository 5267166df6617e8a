/-
# Statechart.Proofs.Draft.Calls -- what calls say

The calls that put a machine together say what it is, apart from how a draft collects it: what can
be said once is as it was said last, and everything else stands in the order of the calls
(`TransitionCall.written`, `StateCall.written`, `MachineCall.written`). Where a state stands, and
with it the calls for it, is given by an address in the calls (`StateCall.reach?`), as it is in what
is written (`StateCall.reach?_written`).

The draft that is made by some calls collects what they say, and so stands for what they say
(`StateDraft.unchecked_ofCalls`, `MachineDraft.unchecked_ofCalls`).
-/

import Statechart.Proofs.Draft.Building

namespace Statechart

@[simp] theorem ActionForm.action_ofAction (a : Action) : (ActionForm.ofAction a).action = a := by
  obtain ⟨kind, params⟩ := a
  cases params <;> rfl

/-! ## Transitions -/

namespace TransitionCall

def target? : TransitionCall → Option String
  | .toward target => some target
  | _ => none

def guard? : TransitionCall → Option String
  | .guardedBy guard => some guard
  | _ => none

def inState? : TransitionCall → Option String
  | .whileIn reference => some reference
  | _ => none

def action? : TransitionCall → Option Action
  | .running a => some a
  | _ => none

def saysInternal : TransitionCall → Bool
  | .internally => true
  | _ => false

/-- The transition that some calls say. -/
def written (calls : List TransitionCall) : TransitionSpec where
  targets := calls.filterMap target?
  guard := (calls.filterMap guard?).getLast?
  inState := (calls.filterMap inState?).getLast?
  actions := (calls.filterMap action?).map .ofAction
  isInternal := calls.any saysInternal

end TransitionCall

/-- The draft of a transition collects what the calls say. -/
theorem TransitionDraft.ofCalls_eq (calls : List TransitionCall) :
    TransitionDraft.ofCalls calls = ⟨TransitionCall.written calls⟩ := by
  induction calls using List.reverseRecOn with
  | nil => rfl
  | append_singleton calls c ih =>
    rw [ofCalls] at ih
    rw [ofCalls, List.foldl_concat, ih]
    cases c <;> simp [call, toward, guardedBy, whileIn, running, internally, TransitionCall.written,
      TransitionCall.target?, TransitionCall.guard?, TransitionCall.inState?,
      TransitionCall.action?, TransitionCall.saysInternal]

/-! ## States -/

namespace StateStart

def kind? : StateStart → Option DeclaredKind
  | .plain => none
  | .atomic => some .atomic
  | .compound _ => some .compound
  | .parallel => some .parallel
  | .final => some .final
  | .history _ => some .history

def initial? : StateStart → Option String
  | .compound initial => some initial
  | _ => none

def depth? : StateStart → Option HistoryDepth
  | .history depth => some depth
  | _ => none

end StateStart

namespace StateCall

def label? : StateCall → Option String
  | .withLabel label => some label
  | _ => none

def initial? : StateCall → Option String
  | .withInitial key => some key
  | _ => none

def target? : StateCall → Option String
  | .withTarget target => some target
  | _ => none

/-- The child that a call adds: its key and what puts it together. -/
def child? : StateCall → Option (String × StateStart × List StateCall)
  | .addState key start calls => some (key, start, calls)
  | _ => none

/-- The candidate that a call adds: its event and the calls for it. -/
def candidate? : StateCall → Option (String × List TransitionCall)
  | .addTransition event calls => some (event, calls)
  | _ => none

def completion? : StateCall → Option (List TransitionCall)
  | .addCompletion calls => some calls
  | _ => none

def entry? : StateCall → Option Action
  | .addEntry a => some a
  | _ => none

def exit? : StateCall → Option Action
  | .addExit a => some a
  | _ => none

/-- The drafts of candidates that hold what the calls for them say. -/
def candidates (calls : List StateCall) : List (String × TransitionDraft) :=
  (calls.filterMap candidate?).map (fun t => (t.1, ⟨TransitionCall.written t.2⟩))

/-- The drafts of candidates for completion that hold what the calls for them say. -/
def completions (calls : List StateCall) : List TransitionDraft :=
  (calls.filterMap completion?).map (fun t => ⟨TransitionCall.written t⟩)

/-- The state that some calls say, over given children. -/
def writtenOver (start : StateStart) (calls : List StateCall) (states : List (String × State)) :
    State where
  label := (calls.filterMap label?).getLast?
  kind := start.kind?
  initial := (calls.filterMap initial?).getLast?.or start.initial?
  states
  on := StateDraft.uncheckedOn (candidates calls)
  onDone := StateDraft.uncheckedOnDone (completions calls)
  entry := (calls.filterMap entry?).map .ofAction
  exit := (calls.filterMap exit?).map .ofAction
  history := start.depth?
  target := (calls.filterMap target?).getLast?

mutual

/-- The child that a call says. -/
def writtenChild? : StateCall → Option (String × State)
  | .addState key start calls => some (key, writtenOver start calls (writtenChildren calls))
  | _ => none
termination_by structural c => c

/-- The children that some calls say, in the order of the calls. -/
def writtenChildren : List StateCall → List (String × State)
  | [] => []
  | c :: rest => (writtenChild? c).toList ++ writtenChildren rest
termination_by structural l => l

end

/-- The state that some calls say. -/
def written (start : StateStart) (calls : List StateCall) : State :=
  writtenOver start calls (writtenChildren calls)

theorem writtenChild?_eq (c : StateCall) :
    c.writtenChild? = c.child?.map (fun c => (c.1, written c.2.1 c.2.2)) := by
  cases c <;> rfl

theorem writtenChildren_eq (calls : List StateCall) :
    writtenChildren calls =
      (calls.filterMap child?).map (fun c => (c.1, written c.2.1 c.2.2)) := by
  induction calls with
  | nil => rfl
  | cons c rest ih =>
    rw [writtenChildren, ih, writtenChild?_eq]
    cases h : c.child? <;> simp [h]

/-- The keys on the way to the state with an address, and what puts this state together. -/
def reach? (start : StateStart) (calls : List StateCall) :
    List Nat → Option (List String × StateStart × List StateCall)
  | [] => some ([], start, calls)
  | i :: address => ((calls.filterMap child?)[i]?).bind fun c =>
    (reach? c.2.1 c.2.2 address).map fun found => (c.1 :: found.1, found.2)

variable {start : StateStart} {calls : List StateCall}

/-- What calls say at an address is what the calls there say. -/
theorem reach?_written (start : StateStart) (calls : List StateCall) (address : List Nat) :
    (written start calls).reach? address =
      (reach? start calls address).map (fun found => (found.1, written found.2.1 found.2.2)) := by
  induction address generalizing start calls with
  | nil => rfl
  | cons i address ih =>
    have hstates : (written start calls).states[i]? =
        ((calls.filterMap child?)[i]?).map (fun c => (c.1, written c.2.1 c.2.2)) := by
      rw [← List.getElem?_map, ← writtenChildren_eq]
      rfl
    rw [State.reach?, reach?, hstates]
    cases (calls.filterMap child?)[i]? with
    | none => rfl
    | some c => simp [ih, Function.comp_def]

end StateCall

namespace StateDraft

open StateCall (child? reach? written)

/-- The draft of a child that a call adds. -/
def ofChild (c : String × StateStart × List StateCall) : String × StateDraft :=
  (c.1, ofCalls c.2.1 c.2.2)

theorem callAll_eq (d : StateDraft) (calls : List StateCall) :
    d.callAll calls = calls.foldl call d := by
  induction calls generalizing d with
  | nil => rfl
  | cons c rest ih => exact ih (d.call c)

theorem ofCalls_concat (start : StateStart) (calls : List StateCall) (c : StateCall) :
    ofCalls start (calls ++ [c]) = (ofCalls start calls).call c := by
  rw [ofCalls, ofCalls, callAll_eq, callAll_eq, List.foldl_concat]

/-- The draft of a state collects what the calls say. -/
theorem ofCalls_eq (start : StateStart) (calls : List StateCall) : ofCalls start calls =
    { label := (calls.filterMap StateCall.label?).getLast?
      kind := start.kind?
      initial := (calls.filterMap StateCall.initial?).getLast?.or start.initial?
      states := (calls.filterMap child?).map ofChild
      transitions := StateCall.candidates calls
      completions := StateCall.completions calls
      entry := (calls.filterMap StateCall.entry?).map .ofAction
      exit := (calls.filterMap StateCall.exit?).map .ofAction
      history := start.depth?
      target := (calls.filterMap StateCall.target?).getLast? } := by
  induction calls using List.reverseRecOn with
  | nil => cases start <;> rfl
  | append_singleton calls c ih =>
    rw [ofCalls_concat, ih]
    cases c <;> simp [call, withLabel, withInitial, withTarget, addState, addTransition,
      addCompletion, addEntry, addExit, TransitionDraft.ofCalls_eq, StateCall.candidates,
      StateCall.completions, StateCall.label?, StateCall.initial?, StateCall.target?, child?,
      StateCall.candidate?, StateCall.completion?, StateCall.entry?, StateCall.exit?, ofChild,
      ofCalls]

mutual

theorem unchecked_ofChild : ∀ c : StateCall,
    (c.child?.map ofChild).map (fun d => (d.1, d.2.unchecked)) = c.writtenChild?
  | .addState key start calls => by
    have h : (ofCalls start calls).unchecked = written start calls := by
      rw [unchecked_eq, ofCalls_eq]
      dsimp only
      rw [uncheckedAll_ofChild calls]
      rfl
    rw [child?, Option.map_some, Option.map_some, ofChild, h]
    rfl
  | .withLabel _ | .withInitial _ | .withTarget _ | .addTransition _ _ | .addCompletion _
  | .addEntry _ | .addExit _ => rfl
termination_by structural c => c

theorem uncheckedAll_ofChild : ∀ calls : List StateCall,
    ((calls.filterMap child?).map ofChild).map (fun d => (d.1, d.2.unchecked)) =
      StateCall.writtenChildren calls
  | [] => rfl
  | c :: rest => by
    rw [StateCall.writtenChildren, ← unchecked_ofChild c, ← uncheckedAll_ofChild rest]
    cases h : c.child? <;> simp [h]
termination_by structural l => l

end

variable {start : StateStart} {calls : List StateCall}

/-- No calls declare a compound state without saying where it begins. -/
theorem exists_initial (h : (ofCalls start calls).kind = some .compound) :
    ∃ initial, (ofCalls start calls).initial = some initial := by
  rw [ofCalls_eq] at h ⊢
  cases start with
  | compound initial =>
    cases (calls.filterMap StateCall.initial?).getLast? <;> simp [StateStart.initial?]
  | _ => exact nomatch h

end StateDraft

/-! ## Machines -/

namespace MachineCall

variable {γ : Type}

/-- The call on the root state that a call on the machine is. -/
def onRoot? : MachineCall γ → Option StateCall
  | .withInitial key => some (.withInitial key)
  | .addState key start calls => some (.addState key start calls)
  | .addTransition event calls => some (.addTransition event calls)
  | .addCompletion calls => some (.addCompletion calls)
  | .addEntry a => some (.addEntry a)
  | .addExit a => some (.addExit a)
  | .parallel | .addGuard _ _ | .withOptions _ => none

def saysParallel : MachineCall γ → Bool
  | .parallel => true
  | _ => false

/-- What the root state is put together from, whenever it is said to be parallel. -/
def rootStart (calls : List (MachineCall γ)) : StateStart :=
  if calls.any saysParallel then .parallel else .plain

/-- The calls for the root state. -/
def rootCalls (calls : List (MachineCall γ)) : List StateCall := calls.filterMap onRoot?

/-- The machine with an id that some calls say. -/
def written (id : String) (calls : List (MachineCall γ)) : Description :=
  ⟨id, StateCall.written (rootStart calls) (rootCalls calls)⟩

variable (calls : List (MachineCall γ)) (c : MachineCall γ)

theorem rootStart_concat : rootStart (calls ++ [c]) =
    if c.saysParallel then .parallel else rootStart calls := by
  cases h : c.saysParallel <;> simp [rootStart, h]

theorem rootCalls_concat : rootCalls (calls ++ [c]) = rootCalls calls ++ c.onRoot?.toList := by
  cases h : c.onRoot? <;> simp [rootCalls, h]

/-- The root that is made parallel later is the same as one that begins so. -/
theorem kind_parallel :
    { StateDraft.ofCalls (rootStart calls) (rootCalls calls) with kind := some .parallel } =
      StateDraft.ofCalls .parallel (rootCalls calls ++ []) := by
  rw [List.append_nil, StateDraft.ofCalls_eq, StateDraft.ofCalls_eq, rootStart]
  split <;> rfl

/-- The keys on the way to the state with an address, and what puts this state together. -/
def reach? (calls : List (MachineCall γ)) (address : List Nat) :
    Option (List String × StateStart × List StateCall) :=
  StateCall.reach? (rootStart calls) (rootCalls calls) address

/-- A state of the machine is what the calls at its address say. -/
theorem exists_reach {id : String} {calls : List (MachineCall γ)} {address : List Nat}
    {keys : List String} {s : State}
    (h : (written id calls).root.reach? address = some (keys, s)) :
    ∃ start made, reach? calls address = some (keys, start, made) ∧
      s = StateCall.written start made := by
  obtain ⟨⟨keys', start, made⟩, hreach, heq⟩ :=
    Option.map_eq_some_iff.mp ((StateCall.reach?_written _ _ _).symm.trans h)
  obtain ⟨rfl, rfl⟩ := Prod.mk.inj heq
  exact ⟨start, made, hreach, rfl⟩

end MachineCall

namespace MachineDraft

open MachineCall (rootStart rootCalls rootStart_concat rootCalls_concat)

variable {γ : Type}

theorem root_call (d : MachineDraft γ) (c : MachineCall γ) : (d.call c).root =
    match c.onRoot? with
    | some c => d.root.call c
    | none => if c.saysParallel then { d.root with kind := some .parallel } else d.root := by
  cases c <;> rfl

/-- The root of the draft of a machine is put together by the calls for it. -/
theorem root_ofCalls (id : String) (calls : List (MachineCall γ)) :
    (ofCalls id calls).root = StateDraft.ofCalls (rootStart calls) (rootCalls calls) := by
  induction calls using List.reverseRecOn with
  | nil => rfl
  | append_singleton calls c ih =>
    rw [ofCalls] at ih
    rw [ofCalls, List.foldl_concat, root_call, ih, rootStart_concat, rootCalls_concat]
    cases c with
    | parallel => exact MachineCall.kind_parallel calls
    | addGuard | withOptions => simp [MachineCall.saysParallel, MachineCall.onRoot?]
    | _ => exact (StateDraft.ofCalls_concat _ _ _).symm

end MachineDraft

end Statechart
