/-
# Statechart.Draft -- machines put together by calls

Instead of being written down, a machine can be put together by calls, one after the other: a draft
collects states, transitions and actions in the order they are added, and a state that is added has
been put together by calls of its own. Building a draft gives a description, with the candidates of
each event in the order of the calls, in the shortest spelling. Some slips are caught while
building, the first one found being reported; everything else is left to compilation.
-/

import Statechart.Chart.Compile

namespace Statechart

/-- Why a draft cannot be built. -/
inductive DraftError where
  | missingMachineId
  | missingInitialState (state : String)
  | duplicateState (parent key : String)
  | missingTarget (event : String)
  | rejected (violations : List Violation)
  deriving DecidableEq

/-- The text of a slip. -/
def DraftError.message : DraftError → String
  | missingMachineId => "Machine id not specified. Pass a non-empty id to MachineBuilder::new"
  | missingInitialState state =>
    "Initial state of '" ++ state ++ "' not specified. Call .initial(key) before .build()"
  | duplicateState parent key => "State '" ++ key ++ "' added twice under '" ++ parent ++ "'"
  | missingTarget event =>
    "Internal transition on '" ++ event ++ "' has no target. Call .to(target)"
  | rejected violations => Violation.summary violations

/-- The form of an action: its name alone if it has no parameters. -/
def ActionForm.ofAction (a : Action) : ActionForm :=
  match a.params with
  | some _ => .detailed a
  | none => .named a.kind

/-! ## Transitions -/

/-- A call on a transition that is being put together. -/
inductive TransitionCall where
  | toward (target : String)
  | guardedBy (guard : String)
  | whileIn (reference : String)
  | running (a : Action)
  | internally

namespace TransitionCall

/-- The calls for a transition to one target. -/
def simple (target : String) : List TransitionCall := [.toward target]

/-- The calls for a transition to one target under a guard. -/
def guarded (target guard : String) : List TransitionCall := [.toward target, .guardedBy guard]

end TransitionCall

/-- A transition that is being put together. -/
structure TransitionDraft where
  spec : TransitionSpec

namespace TransitionDraft

def empty : TransitionDraft := ⟨.empty⟩

/-- Adds a target. -/
def toward (d : TransitionDraft) (target : String) : TransitionDraft :=
  ⟨{ d.spec with targets := d.spec.targets ++ [target] }⟩

/-- Sets the guard. -/
def guardedBy (d : TransitionDraft) (guard : String) : TransitionDraft :=
  ⟨{ d.spec with guard := some guard }⟩

/-- Sets the state that must be active. -/
def whileIn (d : TransitionDraft) (reference : String) : TransitionDraft :=
  ⟨{ d.spec with inState := some reference }⟩

/-- Adds an action. -/
def running (d : TransitionDraft) (a : Action) : TransitionDraft :=
  ⟨{ d.spec with actions := d.spec.actions ++ [.ofAction a] }⟩

/-- Makes the transition internal. -/
def internally (d : TransitionDraft) : TransitionDraft := ⟨{ d.spec with isInternal := true }⟩

/-- The transition after a call. -/
def call (d : TransitionDraft) : TransitionCall → TransitionDraft
  | .toward target => d.toward target
  | .guardedBy guard => d.guardedBy guard
  | .whileIn reference => d.whileIn reference
  | .running a => d.running a
  | .internally => d.internally

/-- The transition that some calls put together. -/
def ofCalls (calls : List TransitionCall) : TransitionDraft := calls.foldl call empty

/-- The form of a transition: its target alone if it has nothing else. -/
def form (d : TransitionDraft) : TransitionForm :=
  match d.spec with
  | ⟨[target], none, none, [], false⟩ => .target target
  | spec => .detailed spec

/-- The form of a transition for an event. An internal one must have a target. -/
def build (event : String) (d : TransitionDraft) : Except DraftError TransitionForm :=
  if d.spec.isInternal && d.spec.targets.isEmpty then .error (.missingTarget event)
  else .ok d.form

end TransitionDraft

/-! ## States -/

/-- What a state is put together from. -/
inductive StateStart where
  | plain
  | atomic
  | compound (initial : String)
  | parallel
  | final
  | history (depth : HistoryDepth)

/-- A call on a state that is being put together. A child that is added has been put together by
calls of its own. -/
inductive StateCall where
  | withLabel (label : String)
  | withInitial (key : String)
  | withTarget (target : String)
  | addState (key : String) (start : StateStart) (calls : List StateCall)
  | addTransition (event : String) (calls : List TransitionCall)
  | addCompletion (calls : List TransitionCall)
  | addEntry (a : Action)
  | addExit (a : Action)

/-- A state that is being put together, with the states below it. -/
structure StateDraft where
  label : Option String
  kind : Option DeclaredKind
  initial : Option String
  states : List (String × StateDraft)
  /-- Transitions with their events, in the order of the calls. -/
  transitions : List (String × TransitionDraft)
  completions : List TransitionDraft
  entry : List ActionForm
  exit : List ActionForm
  history : Option HistoryDepth
  target : Option String

namespace StateDraft

/-- A state about which nothing is said yet. -/
def empty : StateDraft := ⟨none, none, none, [], [], [], [], [], none, none⟩

instance : Inhabited StateDraft := ⟨empty⟩

def atomic : StateDraft := { empty with kind := some .atomic }

def compound (initial : String) : StateDraft :=
  { empty with kind := some .compound, initial := some initial }

def parallel : StateDraft := { empty with kind := some .parallel }

def final : StateDraft := { empty with kind := some .final }

def historyState (depth : HistoryDepth) : StateDraft :=
  { empty with kind := some .history, history := some depth }

def withLabel (d : StateDraft) (label : String) : StateDraft := { d with label := some label }

def withInitial (d : StateDraft) (key : String) : StateDraft := { d with initial := some key }

def withTarget (d : StateDraft) (target : String) : StateDraft := { d with target := some target }

/-- Adds a child. -/
def addState (d : StateDraft) (key : String) (child : StateDraft) : StateDraft :=
  { d with states := d.states ++ [(key, child)] }

/-- Adds a candidate for an event. -/
def addTransition (d : StateDraft) (event : String) (t : TransitionDraft) : StateDraft :=
  { d with transitions := d.transitions ++ [(event, t)] }

/-- Adds a candidate for the completion of the state. -/
def addCompletion (d : StateDraft) (t : TransitionDraft) : StateDraft :=
  { d with completions := d.completions ++ [t] }

def addEntry (d : StateDraft) (a : Action) : StateDraft :=
  { d with entry := d.entry ++ [.ofAction a] }

def addExit (d : StateDraft) (a : Action) : StateDraft :=
  { d with exit := d.exit ++ [.ofAction a] }

/-- The state that is there before any call. -/
def ofStart : StateStart → StateDraft
  | .plain => empty
  | .atomic => atomic
  | .compound initial => compound initial
  | .parallel => parallel
  | .final => final
  | .history depth => historyState depth

mutual

/-- The state after a call. -/
def call (d : StateDraft) : StateCall → StateDraft
  | .withLabel label => d.withLabel label
  | .withInitial key => d.withInitial key
  | .withTarget target => d.withTarget target
  | .addState key start calls => d.addState key (callAll (ofStart start) calls)
  | .addTransition event calls => d.addTransition event (.ofCalls calls)
  | .addCompletion calls => d.addCompletion (.ofCalls calls)
  | .addEntry a => d.addEntry a
  | .addExit a => d.addExit a
termination_by structural c => c

/-- The state after some calls, the first one first. -/
def callAll (d : StateDraft) : List StateCall → StateDraft
  | [] => d
  | c :: rest => callAll (call d c) rest
termination_by structural l => l

end

/-- The state that some calls put together. -/
def ofCalls (start : StateStart) (calls : List StateCall) : StateDraft :=
  (ofStart start).callAll calls

/-- Whether a child to begin with has yet to be named: states with children need one, unless they
are declared parallel. -/
def lacksInitial (d : StateDraft) : Bool :=
  !d.states.isEmpty && d.initial.isNone && d.kind ≠ some .parallel

/-- The transitions of a state by event, those for one event in the order of the calls. -/
def buildTransitions : List (String × TransitionDraft) → SortedMap String (List TransitionForm) →
    Except DraftError (SortedMap String (List TransitionForm))
  | [], on => .ok on
  | (event, t) :: rest, on => do
    let form ← t.build event
    buildTransitions rest (on.modify event (fun forms => forms.getD [] ++ [form]))

/-- The candidates for completion; without any, none are written. -/
def buildCompletions (path : String) (completions : List TransitionDraft) :
    Except DraftError (Option (List TransitionForm)) := do
  if completions.isEmpty then return none
  else return some (← completions.mapM (TransitionDraft.build (Event.doneName path)))

mutual

/-- Builds the state at a dotted path. -/
def build (path : String) (d : StateDraft) : Except DraftError State :=
  match d with
  | { states, .. } => do
    if d.lacksInitial then throw (.missingInitialState path)
    let states ← buildAll path [] states
    let on ← buildTransitions d.transitions .empty
    let onDone ← buildCompletions path d.completions
    return {
      label := d.label
      kind := d.kind
      initial := d.initial
      states
      on
      onDone
      entry := d.entry
      exit := d.exit
      history := d.history
      target := d.target }

/-- Builds the children of the state at a path, given the keys that came before. -/
def buildAll (path : String) (earlier : List String) :
    List (String × StateDraft) → Except DraftError (List (String × State))
  | [] => .ok []
  | (key, d) :: rest => do
    if earlier.contains key then throw (.duplicateState path key)
    let s ← build (path ++ "." ++ key) d
    let others ← buildAll path (key :: earlier) rest
    return (key, s) :: others
termination_by structural l => l

end

end StateDraft

/-! ## Machines -/

/-- A call on a machine that is being put together. -/
inductive MachineCall (γ : Type) where
  | parallel
  | withInitial (key : String)
  | addState (key : String) (start : StateStart) (calls : List StateCall)
  | addTransition (event : String) (calls : List TransitionCall)
  | addCompletion (calls : List TransitionCall)
  | addEntry (a : Action)
  | addExit (a : Action)
  | addGuard (name : String) (g : Guard γ)
  | withOptions (options : Options)

/-- A machine that is being put together. -/
structure MachineDraft (γ : Type) where
  id : String
  root : StateDraft
  guards : Guards γ
  options : Options

namespace MachineDraft

variable {γ : Type}

/-- A machine with an id and nothing else. -/
def ofId (id : String) : MachineDraft γ := ⟨id, .empty, .empty, .standard⟩

/-- Changes the root state. -/
def withRoot (d : MachineDraft γ) (change : StateDraft → StateDraft) : MachineDraft γ :=
  { d with root := change d.root }

/-- Makes the root a parallel state. -/
def parallel (d : MachineDraft γ) : MachineDraft γ :=
  d.withRoot (fun root => { root with kind := some .parallel })

/-- Registers a guard. -/
def addGuard (d : MachineDraft γ) (name : String) (g : Guard γ) : MachineDraft γ :=
  { d with guards := d.guards.insert name g }

/-- Sets the options. -/
def withOptions (d : MachineDraft γ) (options : Options) : MachineDraft γ := { d with options }

/-- The machine after a call. -/
def call (d : MachineDraft γ) : MachineCall γ → MachineDraft γ
  | .parallel => d.parallel
  | .withInitial key => d.withRoot (fun root => root.withInitial key)
  | .addState key start calls => d.withRoot (fun root => root.addState key (.ofCalls start calls))
  | .addTransition event calls => d.withRoot (fun root => root.addTransition event (.ofCalls calls))
  | .addCompletion calls => d.withRoot (fun root => root.addCompletion (.ofCalls calls))
  | .addEntry a => d.withRoot (fun root => root.addEntry a)
  | .addExit a => d.withRoot (fun root => root.addExit a)
  | .addGuard name g => d.addGuard name g
  | .withOptions options => d.withOptions options

/-- The machine that some calls put together. -/
def ofCalls (id : String) (calls : List (MachineCall γ)) : MachineDraft γ :=
  calls.foldl call (ofId id)

/-- The description of a draft. -/
def description (d : MachineDraft γ) : Except DraftError Description :=
  if d.id = "" then .error .missingMachineId
  else (d.root.build d.id).map (fun root => ⟨d.id, root⟩)

/-- The machine of a draft. -/
def machine (d : MachineDraft γ) : Except DraftError (Machine γ) := do
  let description ← d.description
  match description.compile d.guards d.options with
  | .ok m => return m
  | .error violations => .error (.rejected violations)

end MachineDraft

end Statechart
