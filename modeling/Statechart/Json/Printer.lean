/-
# Statechart.Json.Printer -- writing documents as text

Two layouts: compact, without any blank, and laid out over lines with two blanks for each level of
nesting, empty containers staying on one line. Inside strings only quotes, backslashes and control
characters are escaped.
-/

import Statechart.Digits
import Statechart.Json.Basic

namespace Statechart.Json

/-! ## Numbers -/

/-- The largest number of digits that stand before the point of a number written in full. -/
def longestWhole : Int := 16

/-- The largest number of zeros that stand after the point before the first digit. -/
def longestZeros : Int := 4

/-- A power of ten: its exponent with a sign. -/
def powerText (exponent : Int) : String :=
  "e" ++ (if 0 ≤ exponent then "+" else "-") ++ Nat.repr exponent.natAbs

/-- A positive decimal: in full if the point falls not too far from the digits, else with a power
of ten after one digit. -/
def Scaled.text (d : Scaled) : String :=
  let digits := Nat.repr d.digits
  let count : Int := digits.length
  let point := count + d.exponent
  if 0 ≤ d.exponent ∧ point ≤ longestWhole then
    digits ++ "".pushn '0' d.exponent.toNat ++ ".0"
  else if 0 < point ∧ point ≤ longestWhole then
    String.ofList (digits.toList.take point.toNat) ++ "." ++
      String.ofList (digits.toList.drop point.toNat)
  else if -longestZeros - 1 < point ∧ point ≤ 0 then
    "0." ++ "".pushn '0' (-point).toNat ++ digits
  else
    let power := powerText (point - 1)
    match digits.toList with
    | [] => power
    | [c] => String.ofList [c] ++ power
    | c :: rest => String.ofList [c] ++ "." ++ String.ofList rest ++ power

/-- The text of a number that is not an integer; zero is written `0.0`. -/
def decimalText (d : Decimal) : String :=
  (if d.negative then "-" else "") ++
    (if d.magnitude.digits = 0 then "0.0" else d.magnitude.text)

/-! ## Strings -/

/-- A character inside a string literal. -/
def charText (c : Char) : List Char :=
  match c with
  | '"' => ['\\', '"']
  | '\\' => ['\\', '\\']
  | '\x08' => ['\\', 'b']
  | '\x0c' => ['\\', 'f']
  | '\n' => ['\\', 'n']
  | '\r' => ['\\', 'r']
  | '\t' => ['\\', 't']
  | c =>
    if c.toNat < 0x20 then
      ['\\', 'u', '0', '0', Digits.hex (c.toNat / 16), Digits.hex (c.toNat % 16)]
    else
      [c]

/-- A string literal with its quotes. -/
def stringText (s : String) : String :=
  "\"" ++ String.ofList (s.toList.flatMap charText) ++ "\""

/-! ## Documents -/

/-- The text of a value without parts. -/
def scalarText : Json → String
  | .null => "null"
  | .bool b => if b then "true" else "false"
  | .int i => Int.repr i
  | .decimal d => decimalText d
  | .string s => stringText s
  | .array _ => "[]"
  | .object _ => "\x7b\x7d"

mutual

/-- The text of a document without blanks. -/
def compact : Json → String
  | .array items => "[" ++ String.intercalate "," (compactItems items) ++ "]"
  | .object members => "\x7b" ++ String.intercalate "," (compactMembers members) ++ "\x7d"
  | .null => scalarText .null
  | .bool b => scalarText (.bool b)
  | .int i => scalarText (.int i)
  | .decimal d => scalarText (.decimal d)
  | .string s => scalarText (.string s)

/-- The texts of the items of an array. -/
def compactItems : List Json → List String
  | [] => []
  | v :: rest => compact v :: compactItems rest

/-- The texts of the members of an object. -/
def compactMembers : List (String × Json) → List String
  | [] => []
  | (k, v) :: rest => (stringText k ++ ":" ++ compact v) :: compactMembers rest

end

/-- A line break and the blanks of a level. -/
def newLine (level : Nat) : String := "\n" ++ "".pushn ' ' (2 * level)

mutual

/-- The text of a document over lines, its first line standing at a level. -/
def laidOut (level : Nat) : Json → String
  | .array items =>
    if items.isEmpty then scalarText (.array [])
    else
      "[" ++ newLine (level + 1) ++
        String.intercalate ("," ++ newLine (level + 1)) (laidOutItems (level + 1) items) ++
        newLine level ++ "]"
  | .object members =>
    if members.isEmpty then scalarText (.object [])
    else
      "\x7b" ++ newLine (level + 1) ++
        String.intercalate ("," ++ newLine (level + 1)) (laidOutMembers (level + 1) members) ++
        newLine level ++ "\x7d"
  | .null => scalarText .null
  | .bool b => scalarText (.bool b)
  | .int i => scalarText (.int i)
  | .decimal d => scalarText (.decimal d)
  | .string s => scalarText (.string s)

/-- The texts of the items of an array over lines. -/
def laidOutItems (level : Nat) : List Json → List String
  | [] => []
  | v :: rest => laidOut level v :: laidOutItems level rest

/-- The texts of the members of an object over lines. -/
def laidOutMembers (level : Nat) : List (String × Json) → List String
  | [] => []
  | (k, v) :: rest => (stringText k ++ ": " ++ laidOut level v) :: laidOutMembers level rest

end

/-- The text of a document over lines with two blanks for each level. -/
def pretty (j : Json) : String := laidOut 0 j

end Statechart.Json
