/-
# Statechart.StateValue -- the active states as a nested value

The active states below the root, seen from outside: a key when one atomic child is active, an
object of values when several levels or several regions are. An atomic region of a parallel state
is an empty object. A value is made from the dotted paths to the active leaves by way of a tree of
keys, and gives the paths back.
-/

import Statechart.Json.Record
import Statechart.Path

namespace Statechart

/-- The active states relative to the root. The entries of a nested value are listed by ascending
key. -/
inductive StateValue where
  | leaf (key : String)
  | nested (children : List (String × StateValue))
  deriving Inhabited

/-- A tree of keys, with the children listed by ascending key. -/
inductive KeyTree where
  | node (children : List (String × KeyTree))

namespace KeyTree

def empty : KeyTree := .node []

/-- The children of a tree's root. -/
def children : KeyTree → List (String × KeyTree)
  | .node cs => cs

/-- The tree with one more path. -/
def insert : List String → KeyTree → KeyTree
  | [], t => t
  | k :: rest, t =>
    let below := (SortedMap.valueOf k t.children).getD empty
    .node (SortedMap.place k (insert rest below) t.children)

/-- The tree of a list of paths. -/
def ofPaths (paths : List (List String)) : KeyTree :=
  paths.foldl (fun t p => t.insert p) empty

mutual

/-- The value of a tree: a key alone with nothing below it is a leaf. -/
def value : KeyTree → StateValue
  | .node [(k, .node [])] => .leaf k
  | .node cs => .nested (values cs)

/-- The values of the children of a tree. -/
def values : List (String × KeyTree) → List (String × StateValue)
  | [] => []
  | (k, t) :: rest => (k, t.value) :: values rest

end

end KeyTree

namespace StateValue

/-- The value of an atomic region. -/
def empty : StateValue := .nested []

/-- Whether a value is that of an atomic region. -/
def isEmpty : StateValue → Bool
  | .nested [] => true
  | _ => false

/-- The value of the states at the ends of dotted paths; empty segments do not count. -/
def ofPaths (paths : List String) : StateValue := (KeyTree.ofPaths (paths.map Path.keys)).value

mutual

/-- The dotted paths to the active leaves, by ascending keys. -/
def paths : StateValue → List String
  | .leaf key => [key]
  | .nested children => pathsBelow children

/-- The dotted paths to the leaves of children, each beginning with the key of its child. -/
def pathsBelow : List (String × StateValue) → List String
  | [] => []
  | (key, child) :: rest =>
    (match child.paths with
      | [] => [key]
      | below => below.map (fun path => key ++ "." ++ path)) ++ pathsBelow rest

end

/-- Whether a dotted path, its empty segments left out, leads to an active state or to one above an
active state. -/
def hasPath (v : StateValue) (path : String) : Bool :=
  let wanted := Path.keys path
  !wanted.isEmpty && v.paths.any (fun active => wanted.isPrefixOf (Path.segments active))

/-- The paths to the active leaves in one line. -/
def text (v : StateValue) : String := String.intercalate ", " v.paths

/-! ## As documents -/

mutual

/-- A value as a document: a string or an object. -/
def toJson : StateValue → Json
  | .leaf key => .string key
  | .nested children => .object (membersOf children)

/-- The entries of a nested value as members. -/
def membersOf : List (String × StateValue) → List (String × Json)
  | [] => []
  | (key, child) :: rest => (key, child.toJson) :: membersOf rest

end

/-- Entries listed by ascending key; of a key given twice the last value counts. -/
def sortEntries (entries : List (String × StateValue)) : List (String × StateValue) :=
  (SortedMap.ofList entries).toList

mutual

/-- Reads a value. -/
def ofJson? : Json → Option StateValue
  | .string key => some (.leaf key)
  | .object members => (entriesOf? members).map (fun entries => .nested (sortEntries entries))
  | _ => none

/-- Reads the members of an object as entries. -/
def entriesOf? : List (String × Json) → Option (List (String × StateValue))
  | [] => some []
  | (key, j) :: rest =>
    match ofJson? j, entriesOf? rest with
    | some v, some entries => some ((key, v) :: entries)
    | _, _ => none

end

end StateValue

end Statechart
