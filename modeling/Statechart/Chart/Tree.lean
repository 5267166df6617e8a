/-
# Statechart.Chart.Tree -- states numbered in document order

The states of a description are numbered in document order, each before the states below it and
these before the next state beside it, so the states below one follow it without a gap. A tree
holds for each number the state's place: its key and full id, its kind, its parent and its depth,
the states above it from its parent to the root, and its children. The root has number 0.

A full id is the keys from the machine's id down, joined by dots. A state answers to its full id
and to its label (`Tree.lookup?`).
-/

import Statechart.Description.Basic
import Statechart.Path

namespace Statechart

/-- What a state is once its declaration has been understood. -/
inductive Kind where
  | atomic
  | compound
  | parallel
  | final
  | history (depth : HistoryDepth)
  deriving DecidableEq

namespace Kind

/-- Whether states of a kind can be active without anything below them. -/
def isLeaf : Kind → Bool
  | .atomic | .final => true
  | .compound | .parallel | .history _ => false

def isHistory : Kind → Bool
  | .history _ => true
  | .atomic | .compound | .parallel | .final => false

end Kind

/-- The kind of a declared state. Without a declared kind, a depth makes a history state and
children make a compound one. -/
def State.effectiveKind (s : State) : Kind :=
  match s.kind with
  | some .atomic => .atomic
  | some .compound => .compound
  | some .parallel => .parallel
  | some .final => .final
  | some .history => .history (s.history.getD .shallow)
  | none =>
    match s.history with
    | some depth => .history depth
    | none => if s.states.isEmpty then .atomic else .compound

/-- Where a state stands in a machine. -/
structure Place where
  key : String
  /-- The keys from the machine's id down, joined by dots. -/
  id : String
  label : Option String
  kind : Kind
  /-- The state right above; the root has none. -/
  parent : Option Nat
  /-- How far below the root the state stands. -/
  depth : Nat
  /-- The states above, from the parent to the root. -/
  ancestors : List Nat
  children : List Nat
  deriving DecidableEq

namespace Place

/-- The texts a state answers to: its full id, and its label if that is another text. -/
def names (p : Place) : List String :=
  match p.label with
  | some a => if a = p.id then [p.id] else [p.id, a]
  | none => [p.id]

end Place

/-- The states of a machine by their numbers. -/
structure Tree where
  places : Array Place
  deriving DecidableEq

/-! ## Numbering -/

/-- The numbers of sibling states, the first one being given. -/
def childNumbers (first : Nat) : List (String × State) → List Nat
  | [] => []
  | (_, s) :: rest => first :: childNumbers (first + s.size) rest

mutual

/-- The places of a state and of those below it, in document order, with their declarations. -/
def layOut (key id : String) (parent : Option Nat) (depth : Nat) (ancestors : List Nat)
    (number : Nat) (s : State) : List (Place × State) :=
  match s with
  | { states, .. } =>
    (⟨key, id, s.label, s.effectiveKind, parent, depth, ancestors,
      childNumbers (number + 1) states⟩, s) ::
      layOutAll id (some number) (depth + 1) (number :: ancestors) (number + 1) states

/-- The places of sibling states and of those below them. -/
def layOutAll (parentId : String) (parent : Option Nat) (depth : Nat) (ancestors : List Nat)
    (number : Nat) : List (String × State) → List (Place × State)
  | [] => []
  | (key, s) :: rest =>
    layOut key (parentId ++ "." ++ key) parent depth ancestors number s ++
      layOutAll parentId parent depth ancestors (number + s.size) rest
termination_by structural l => l

end

namespace Description

/-- The places of all states of a machine with their declarations. -/
def layOut (d : Description) : List (Place × State) :=
  Statechart.layOut d.id d.id none 0 [] 0 d.root

/-- The states of a machine by their numbers. -/
def tree (d : Description) : Tree := ⟨(d.layOut.map Prod.fst).toArray⟩

end Description

namespace Tree

/-! ## Places -/

/-- The number of states. -/
def size (t : Tree) : Nat := t.places.size

/-- The number of the root. -/
def root : Nat := 0

def place? (t : Tree) (n : Nat) : Option Place := t.places[n]?

/-- The place with a number; an atomic state standing alone if there is none. -/
def place (t : Tree) (n : Nat) : Place :=
  (t.place? n).getD ⟨"", "", none, .atomic, none, 0, [], []⟩

def key (t : Tree) (n : Nat) : String := (t.place n).key

def id (t : Tree) (n : Nat) : String := (t.place n).id

def kind (t : Tree) (n : Nat) : Kind := (t.place n).kind

/-- The states above one, from its parent to the root. -/
def ancestors (t : Tree) (n : Nat) : List Nat := (t.place n).ancestors

/-- The state right above one. -/
def parent? (t : Tree) (n : Nat) : Option Nat := (t.place n).parent

/-- How far below the root a state stands. -/
def depth (t : Tree) (n : Nat) : Nat := (t.place n).depth

def children (t : Tree) (n : Nat) : List Nat := (t.place n).children

/-- The children that can be active: all but history states. -/
def regions (t : Tree) (n : Nat) : List Nat :=
  (t.children n).filter (fun c => !(t.kind c).isHistory)

/-- The states on the way from one to the root, with both ends. -/
def lineage (t : Tree) (n : Nat) : List Nat := n :: t.ancestors n

/-- Whether one state lies below another. -/
def isBelow (t : Tree) (n above : Nat) : Bool := (t.ancestors n).contains above

/-- Whether one state is another or lies below it. -/
def isWithin (t : Tree) (n top : Nat) : Bool := (t.lineage n).contains top

/-- The innermost state that two states lie in. -/
def commonAncestor (t : Tree) (a b : Nat) : Nat :=
  ((t.lineage a).find? (fun n => (t.lineage b).contains n)).getD root

/-! ## Climbing

Each state records its parent and its depth, and what lies around what is found by going from parent
to parent. There is an answer where this ends at the root. -/

/-- The states from one upwards. -/
def upwards? (t : Tree) (next : Option Nat) : Option (List Nat) :=
  match next with
  | none => some []
  | some n => return n :: (← t |>.upwards? (t.parent? n))
partial_fixpoint

/-- Whether one state lies below another. Only from a deeper state is there anything to climb. -/
def isDescendant? (t : Tree) (n above : Nat) : Option Bool :=
  if t.depth above < t.depth n then
    (t.upwards? (t.parent? n)).map (fun states => states.contains above)
  else some false

/-- The state that is reached by climbing until it is no deeper than some depth. -/
def rise? (t : Tree) (depth n : Nat) : Option Nat :=
  if depth < t.depth n then t |>.rise? depth ((t.parent? n).getD n) else some n
partial_fixpoint

/-- The state where two meet that climb in step; the root if one of them comes to an end before. -/
def meet? (t : Tree) (a b : Nat) : Option Nat :=
  if a = b then some a
  else
    match t.parent? a, t.parent? b with
    | some p, some q => t |>.meet? p q
    | _, _ => some root
partial_fixpoint

/-- The innermost state that two states lie in: the deeper one climbs to the depth of the other, and
from there they climb in step. -/
def commonAncestor? (t : Tree) (a b : Nat) : Option Nat := do
  let a ← t.rise? (t.depth b) a
  let b ← t.rise? (t.depth a) b
  t.meet? a b

/-! ## Names -/

/-- The state that answers to a text; the first in document order if there are several. -/
def lookup? (t : Tree) (name : String) : Option Nat :=
  t.places.findIdx? (fun p => p.names.contains name)

/-- The first child with a key. -/
def childByKey? (t : Tree) (n : Nat) (key : String) : Option Nat :=
  (t.children n).find? (fun c => t.key c = key)

/-- The state reached by a list of keys. -/
def descend? (t : Tree) (n : Nat) (keys : List String) : Option Nat :=
  keys.foldlM t.childByKey? n

/-- The state at a dotted path below the root. -/
def findPath? (t : Tree) (path : String) : Option Nat := t.descend? root (Path.segments path)

/-- The keys on the way from the root to a state, without the root's. -/
def keyPath (t : Tree) (n : Nat) : List String :=
  (((t.lineage n).filter (fun m => m ≠ root)).map t.key).reverse

/-- The dotted path from the root to a state. -/
def relativePath (t : Tree) (n : Nat) : String := Path.join (t.keyPath n)

/-! ## References

A target is a reference after `#`, a path below its source after a dot, or else a path below the
parent of its source, which is the root itself for the root. A reference is a text some state
answers to, or such a text and a path below that state. An `in` condition is a reference after `#`
or else a path below the root. -/

/-- The state a reference means: what answers to the whole, else the path after the first dot below
what answers to the text before it. -/
def resolveReference? (t : Tree) (reference : List Char) : Option Nat :=
  match t.lookup? (String.ofList reference) with
  | some n => some n
  | none => do
    let (name, rest) ← Path.splitFirst reference
    let n ← t.lookup? (String.ofList name)
    t.descend? n (Path.segments (String.ofList rest))

/-- The state a target written on a state means. -/
def resolveTarget? (t : Tree) (source : Nat) (target : String) : Option Nat :=
  match target.toList with
  | '#' :: reference => t.resolveReference? reference
  | '.' :: path => t.descend? source (Path.segments (String.ofList path))
  | _ => t.descend? ((t.parent? source).getD source) (Path.segments target)

/-- The state an `in` condition means. -/
def resolveInState? (t : Tree) (reference : String) : Option Nat :=
  match reference.toList with
  | '#' :: reference => t.resolveReference? reference
  | _ => t.findPath? reference

end Tree

end Statechart
