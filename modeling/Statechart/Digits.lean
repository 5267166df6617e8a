/-
# Statechart.Digits -- decimal and hexadecimal digits

The digits of numbers in documents, in points in time and in bytes written as text. Decimal digits
are the ASCII ones; hexadecimal digits are read in either case and written in lower case.
-/

namespace Statechart.Digits

/-- Whether a character is a decimal digit. -/
def isDecimal (c : Char) : Bool := '0' ≤ c && c ≤ '9'

/-- The value of a decimal digit. -/
def valueOf (c : Char) : Nat := c.toNat - '0'.toNat

/-- The number that decimal digits spell. -/
def number (cs : List Char) : Nat := cs.foldl (fun n c => n * 10 + valueOf c) 0

/-- The value of a hexadecimal digit of either case. -/
def hexValue? (c : Char) : Option Nat :=
  if isDecimal c then some (valueOf c)
  else if 'a' ≤ c && c ≤ 'f' then some (c.toNat - 'a'.toNat + 10)
  else if 'A' ≤ c && c ≤ 'F' then some (c.toNat - 'A'.toNat + 10)
  else none

/-- The hexadecimal digit of a value below sixteen. -/
def hex (n : Nat) : Char :=
  if n < 10 then Char.ofNat ('0'.toNat + n) else Char.ofNat ('a'.toNat + (n - 10))

end Statechart.Digits
