/-
# Statechart.Json.Record -- reading records with named fields

A record is written as an object, or as an array with the values of its fields in their fixed
order, where fields at the end may be left out. In an object a field must not come twice, and
members that are no fields are ignored, or refused by `closedRecord?`. Besides records this module
reads lists, sets and maps of values.
-/

import Statechart.Json.Basic
import Statechart.Sorted.Map

namespace Statechart.Json

/-- The fields of a record that are given, each at most once. -/
abbrev Record := List (String × Json)

/-- The value of a field, if it is given. -/
def Record.field? (r : Record) (name : String) : Option Json := member? name r

/-- Whether no key comes twice. -/
def hasDistinctKeys : List (String × Json) → Bool
  | [] => true
  | (k, _) :: rest => (rest.all (fun m => m.1 ≠ k)) && hasDistinctKeys rest

/-- The record with given field names that a document holds. -/
def record? (names : List String) : Json → Option Record
  | .object members =>
    let known := members.filter (fun m => names.contains m.1)
    if hasDistinctKeys known then some known else none
  | .array items => if items.length ≤ names.length then some (names.zip items) else none
  | _ => none

/-- The record that a document holds, if it has no members besides its fields. -/
def closedRecord? (names : List String) (j : Json) : Option Record :=
  match j with
  | .object members => if members.all (fun m => names.contains m.1) then record? names j else none
  | _ => record? names j

/-- A field that must be given. -/
def Record.required? {α : Type} (r : Record) (name : String) (read : Json → Option α) :
    Option α :=
  (r.field? name).bind read

/-- A field that may be left out, with the value it then has. -/
def Record.orElse? {α : Type} (r : Record) (name : String) (read : Json → Option α)
    (absent : α) : Option α :=
  match r.field? name with
  | none => some absent
  | some j => read j

/-- A field that may be left out or null. -/
def Record.optional? {α : Type} (r : Record) (name : String) (read : Json → Option α) :
    Option (Option α) :=
  match (r.field? name).bind present? with
  | none => some none
  | some j => (read j).map some

/-- Reads a value of any shape; objects inside it have every key once. -/
def free? (j : Json) : Option Json := some j.distinct

/-! ## Collections -/

/-- A list of values. -/
def listOf? {α : Type} (read : Json → Option α) (j : Json) : Option (List α) :=
  j.asArray?.bind (fun items => items.mapM read)

/-- One value or a list of them; what reads as a list is one. -/
def oneOrMany? {α : Type} (read : Json → Option α) (j : Json) : Option (List α) :=
  match listOf? read j with
  | some items => some items
  | none => (read j).map (fun item => [item])

/-- A set of strings. -/
def stringSet? (j : Json) : Option (SortedSet String) :=
  (listOf? asString? j).map SortedSet.ofList

/-- The members of an object with their values read. -/
def membersOf? {α : Type} (read : Json → Option α) (j : Json) : Option (List (String × α)) :=
  j.asObject?.bind (fun members => members.mapM (fun m => (read m.2).map (fun v => (m.1, v))))

/-- A map by strings; of a key given twice the last value counts. -/
def mapOf? {α : Type} (read : Json → Option α) (j : Json) : Option (SortedMap String α) :=
  (membersOf? read j).map SortedMap.ofList

/-- A set of strings as a document. -/
def ofStringSet (s : SortedSet String) : Json := .array (s.toList.map .string)

/-- A map by strings as a document. -/
def ofMap {α : Type} (write : α → Json) (m : SortedMap String α) : Json :=
  .object (m.toList.map (fun e => (e.1, write e.2)))

/-- A number of things as a document. -/
def ofNat (n : Nat) : Json := .int n

/-- An optional value as a document, null if there is none. -/
def ofOption {α : Type} (write : α → Json) : Option α → Json
  | none => .null
  | some a => write a

end Statechart.Json
