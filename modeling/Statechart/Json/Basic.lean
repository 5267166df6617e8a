/-
# Statechart.Json.Basic -- documents as ordered trees

Machine descriptions, payloads and parameters are JSON documents. An object is the list of its
members as written: the order matters, and a key may come twice (`Json.distinct` keeps the last
value of each key in the place of its first). Integers of 64 bits are kept as integers; every
other number stands for a binary64 number and is kept as the shortest decimal that reads back, so
that equal numbers are equal values.
-/

import Statechart.Json.Binary64

namespace Statechart

/-- A number that is not a 64-bit integer: a sign, digits, and a power of ten. -/
structure Decimal where
  negative : Bool
  magnitude : Json.Scaled
  deriving DecidableEq

/-- A JSON document. -/
inductive Json where
  | null
  | bool (b : Bool)
  | int (i : Int)
  | decimal (d : Decimal)
  | string (s : String)
  | array (items : List Json)
  | object (members : List (String × Json))
  deriving Inhabited

namespace Json

/-! ## Equality -/

mutual

private def decEqJson : (a b : Json) → Decidable (a = b)
  | .null, b => match b with
    | .null => isTrue rfl
    | .bool _ | .int _ | .decimal _ | .string _ | .array _ | .object _ => isFalse nofun
  | .bool x, b => match b with
    | .bool y => if h : x = y then isTrue (h ▸ rfl) else isFalse (fun e => h (by injection e))
    | .null | .int _ | .decimal _ | .string _ | .array _ | .object _ => isFalse nofun
  | .int x, b => match b with
    | .int y => if h : x = y then isTrue (h ▸ rfl) else isFalse (fun e => h (by injection e))
    | .null | .bool _ | .decimal _ | .string _ | .array _ | .object _ => isFalse nofun
  | .decimal x, b => match b with
    | .decimal y => if h : x = y then isTrue (h ▸ rfl) else isFalse (fun e => h (by injection e))
    | .null | .bool _ | .int _ | .string _ | .array _ | .object _ => isFalse nofun
  | .string x, b => match b with
    | .string y => if h : x = y then isTrue (h ▸ rfl) else isFalse (fun e => h (by injection e))
    | .null | .bool _ | .int _ | .decimal _ | .array _ | .object _ => isFalse nofun
  | .array x, b => match b with
    | .array y => match decEqItems x y with
      | isTrue h => isTrue (h ▸ rfl)
      | isFalse h => isFalse (fun e => h (by injection e))
    | .null | .bool _ | .int _ | .decimal _ | .string _ | .object _ => isFalse nofun
  | .object x, b => match b with
    | .object y => match decEqMembers x y with
      | isTrue h => isTrue (h ▸ rfl)
      | isFalse h => isFalse (fun e => h (by injection e))
    | .null | .bool _ | .int _ | .decimal _ | .string _ | .array _ => isFalse nofun

private def decEqItems : (a b : List Json) → Decidable (a = b)
  | [], [] => isTrue rfl
  | [], _ :: _ => isFalse nofun
  | _ :: _, [] => isFalse nofun
  | x :: xs, y :: ys => match decEqJson x y with
    | isFalse h => isFalse (fun e => h (by injection e))
    | isTrue h => match decEqItems xs ys with
      | isTrue t => isTrue (h ▸ t ▸ rfl)
      | isFalse t => isFalse (fun e => t (by injection e))

private def decEqMembers : (a b : List (String × Json)) → Decidable (a = b)
  | [], [] => isTrue rfl
  | [], _ :: _ => isFalse nofun
  | _ :: _, [] => isFalse nofun
  | (j, x) :: xs, (k, y) :: ys =>
    if hk : j = k then
      match decEqJson x y with
      | isFalse h => isFalse (fun e => h (by injection e with e; injection e))
      | isTrue h => match decEqMembers xs ys with
        | isTrue t => isTrue (hk ▸ h ▸ t ▸ rfl)
        | isFalse t => isFalse (fun e => t (by injection e))
    else
      isFalse (fun e => hk (by injection e with e; injection e))

end

instance : DecidableEq Json := decEqJson

/-! ## Repeated keys -/

/-- Puts a member into an object: in the place of the first member with its key, else last. -/
def putMember (k : String) (v : Json) : List (String × Json) → List (String × Json)
  | [] => [(k, v)]
  | (j, w) :: rest => if j = k then (j, v) :: rest else (j, w) :: putMember k v rest

mutual

/-- The document in which each object has every key once, with its last value and in the place
where it came first. -/
def distinct : Json → Json
  | .array items => .array (distinctItems items)
  | .object members =>
    .object ((distinctMembers members).foldl (fun acc m => putMember m.1 m.2 acc) [])
  | .null => .null
  | .bool b => .bool b
  | .int i => .int i
  | .decimal d => .decimal d
  | .string s => .string s

/-- The items of an array, each with distinct keys. -/
def distinctItems : List Json → List Json
  | [] => []
  | v :: rest => distinct v :: distinctItems rest

/-- The members of an object, each value with distinct keys. -/
def distinctMembers : List (String × Json) → List (String × Json)
  | [] => []
  | (k, v) :: rest => (k, distinct v) :: distinctMembers rest

end

/-! ## Parts of a document -/

/-- The value of the first member with a key. -/
def member? (k : String) : List (String × Json) → Option Json
  | [] => none
  | (j, v) :: rest => if j = k then some v else member? k rest

/-- The members of an object. -/
def asObject? : Json → Option (List (String × Json))
  | .object members => some members
  | _ => none

/-- The items of an array. -/
def asArray? : Json → Option (List Json)
  | .array items => some items
  | _ => none

/-- The text of a string. -/
def asString? : Json → Option String
  | .string s => some s
  | _ => none

/-- The value of a truth value. -/
def asBool? : Json → Option Bool
  | .bool b => some b
  | _ => none

/-- An integer that fits 64 bits with sign. -/
def asInt64? : Json → Option Int
  | .int i => if -(Nat.pow 2 63 : Int) ≤ i ∧ i < Nat.pow 2 63 then some i else none
  | _ => none

/-- An integer from 0 to below a bound. -/
def asNatBelow? (bound : Nat) : Json → Option Nat
  | .int i => if 0 ≤ i ∧ i < bound then some i.toNat else none
  | _ => none

/-- A count: an integer that fits 64 bits without sign. -/
def asCount? (j : Json) : Option Nat := j.asNatBelow? (Nat.pow 2 64)

/-- The value, with null read as an absent one. -/
def present? : Json → Option Json
  | .null => none
  | j => some j

end Json

end Statechart
