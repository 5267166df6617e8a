/-
# Statechart.Text.Quoted -- texts and lists of texts in quotes

Error messages quote lists of texts. Inside quotes the quote and the backslash are escaped, line
breaks, tabs and NUL have short escapes, and a character that is not shown as it is has its number
in hexadecimal between braces.
-/

import Statechart.Text.Visible

namespace Statechart.Text

/-- A number in hexadecimal without leading zeros. -/
def hexText (n : Nat) : String := String.ofList (Nat.toDigits 16 n)

/-- A character inside quotes. -/
def quotedChar : Char → String
  | '\x00' => "\\0"
  | '\t' => "\\t"
  | '\r' => "\\r"
  | '\n' => "\\n"
  | '"' => "\\\""
  | '\\' => "\\\\"
  | c =>
    if isVisible c then String.singleton c else "\\u\x7b" ++ hexText c.toNat ++ "\x7d"

/-- A text in quotes. -/
def quoted (s : String) : String := "\"" ++ String.join (s.toList.map quotedChar) ++ "\""

/-- A list of texts in quotes between brackets. -/
def quotedList (items : List String) : String :=
  "[" ++ String.intercalate ", " (items.map quoted) ++ "]"

end Statechart.Text
