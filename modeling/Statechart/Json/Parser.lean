/-
# Statechart.Json.Parser -- reading documents from text

The grammar is that of RFC 8259, without any leniency: no trailing commas, no leading zeros, no
raw control characters, no byte order mark. A text is read with one of two attitudes
(`Json.Attitude`). A strict reader also refuses a text that nests deeper than 127 containers, a
string with half a surrogate pair, and a number beyond the largest binary64 number. A tolerant
reader keeps going: it puts null in the place of such a string or number (and of an object with
such a key), and leaves it to the caller whether that place matters.
-/

import Statechart.Digits
import Statechart.Json.Basic

namespace Statechart.Json

/-- How a reader treats literals that have no value, and deep nesting. -/
inductive Attitude where
  | strict
  | tolerant
  deriving DecidableEq

/-! ## Characters -/

def isBlank (c : Char) : Bool := c = ' ' || c = '\n' || c = '\t' || c = '\r'

def skipBlanks (cs : List Char) : List Char := cs.dropWhile isBlank

/-- The value of four hexadecimal digits. -/
def hexQuad? (a b c d : Char) : Option Nat := do
  let high := (← Digits.hexValue? a) * 16 + (← Digits.hexValue? b)
  let low := (← Digits.hexValue? c) * 16 + (← Digits.hexValue? d)
  return high * 256 + low

/-! ## Strings -/

/-- A part of a string literal: a character, or a code unit given by its number. -/
inductive Piece where
  | char (c : Char)
  | unit (n : Nat)

/-- The character a one-letter escape stands for. -/
def escaped? : Char → Option Char
  | '"' => some '"'
  | '\\' => some '\\'
  | '/' => some '/'
  | 'b' => some '\x08'
  | 'f' => some '\x0c'
  | 'n' => some '\n'
  | 'r' => some '\r'
  | 't' => some '\t'
  | _ => none

/-- The character of a surrogate pair. -/
def joinSurrogates (high low : Nat) : Char :=
  Char.ofNat (0x10000 + (high - 0xD800) * 0x400 + (low - 0xDC00))

def isHighSurrogate (n : Nat) : Bool := 0xD800 ≤ n && n < 0xDC00

def isLowSurrogate (n : Nat) : Bool := 0xDC00 ≤ n && n < 0xE000

/-- The characters of the parts of a literal, put in front of those before it, last one first;
`none` if half a surrogate pair stands alone. -/
def joinPieces : List Piece → List Char → Option (List Char)
  | [], acc => some acc
  | .char c :: rest, acc => joinPieces rest (c :: acc)
  | .unit n :: .unit m :: rest, acc =>
    if isHighSurrogate n then
      if isLowSurrogate m then joinPieces rest (joinSurrogates n m :: acc) else none
    else if isLowSurrogate n then none
    else joinPieces (.unit m :: rest) (Char.ofNat n :: acc)
  | .unit n :: rest, acc =>
    if isHighSurrogate n ∨ isLowSurrogate n then none
    else joinPieces rest (Char.ofNat n :: acc)

/-- The text of the parts of a literal, which come last one first. -/
def textOfPieces (pieces : List Piece) : Option String :=
  (joinPieces pieces.reverse []).map (fun cs => String.ofList cs.reverse)

/-- Reads a string literal after its opening quote, up to and with the closing one, in front of the
parts read before. -/
def readString : List Char → List Piece → Option (Option String × List Char)
  | [], _ => none
  | '"' :: rest, acc => some (textOfPieces acc, rest)
  | '\\' :: 'u' :: a :: b :: c :: d :: rest, acc =>
    match hexQuad? a b c d with
    | some n => readString rest (.unit n :: acc)
    | none => none
  | '\\' :: e :: rest, acc =>
    match escaped? e with
    | some c => readString rest (.char c :: acc)
    | none => none
  | c :: rest, acc =>
    if c.toNat < 0x20 ∨ c = '\\' then none else readString rest (.char c :: acc)

/-! ## Numbers -/

/-- The largest integer that the digits of a fraction are gathered into. -/
def largestWord : Nat := Nat.pow 2 64 - 1

/-- Appends digits to a number as long as the result fits 64 bits; also says how many fitted. -/
def absorbDigits : Nat → Nat → List Char → Nat × Nat
  | n, taken, [] => (n, taken)
  | n, taken, c :: rest =>
    let m := n * 10 + Digits.valueOf c
    if m ≤ largestWord then absorbDigits m (taken + 1) rest else (n, taken)

/-- The parts of a number literal. -/
structure NumberLiteral where
  negative : Bool
  /-- The digits before the point. -/
  whole : List Char
  /-- The digits after the point; none without a point. -/
  fraction : List Char
  /-- The power of ten that is written out, if one is. -/
  exponent : Option Int

namespace NumberLiteral

/-- The decimal meant by a literal with a point, an exponent, or more digits than fit 64 bits: as
many digits as fit, the rest counting only for the power of ten. -/
def scaled (l : NumberLiteral) : Scaled :=
  let (n, taken) := absorbDigits 0 0 l.whole
  let (m, places) := absorbDigits n 0 l.fraction
  ⟨m, (l.whole.length - taken : Nat) - (places : Int) + l.exponent.getD 0⟩

/-- The number a literal stands for; `none` if it lies beyond the largest binary64 number. A whole
number that fits 64 bits is an integer, except that minus zero is not. -/
def value? (l : NumberLiteral) : Option Json :=
  let n := Digits.number l.whole
  let isWhole := l.fraction.isEmpty && l.exponent.isNone
  if isWhole && !l.negative && n ≤ largestWord then some (.int n)
  else if isWhole && l.negative && 0 < n && n ≤ Nat.pow 2 63 then some (.int (-(n : Int)))
  else (Binary64.ofScaled l.scaled).map (fun b => .decimal ⟨l.negative, b.shortest⟩)

end NumberLiteral

/-- The digits of a power of ten after its letter and an optional sign. -/
def readExponent (cs : List Char) : Option (Int × List Char) :=
  let (negative, cs) := match cs with
    | '-' :: rest => (true, rest)
    | '+' :: rest => (false, rest)
    | _ => (false, cs)
  let digits := cs.takeWhile Digits.isDecimal
  let n := Digits.number digits
  if digits.isEmpty then none
  else some (if negative then -(n : Int) else n, cs.dropWhile Digits.isDecimal)

/-- Reads a number literal. -/
def readNumber (cs : List Char) : Option (NumberLiteral × List Char) := do
  let (negative, cs) := match cs with
    | '-' :: rest => (true, rest)
    | _ => (false, cs)
  let whole := cs.takeWhile Digits.isDecimal
  let cs := cs.dropWhile Digits.isDecimal
  if whole.isEmpty ∨ (whole.head? = some '0' ∧ 1 < whole.length) then none
  else
    let (fraction, cs) ← match cs with
      | '.' :: rest =>
        let digits := rest.takeWhile Digits.isDecimal
        if digits.isEmpty then none else some (digits, rest.dropWhile Digits.isDecimal)
      | _ => some ([], cs)
    match cs with
    | c :: rest =>
      if c = 'e' ∨ c = 'E' then
        let (e, rest) ← readExponent rest
        return (⟨negative, whole, fraction, some e⟩, rest)
      else
        return (⟨negative, whole, fraction, none⟩, cs)
    | [] => return (⟨negative, whole, fraction, none⟩, cs)

/-! ## Values -/

/-- A literal's value, or what stands for one that has none. -/
def Attitude.accept : Attitude → Option Json → Option Json
  | _, some v => some v
  | .strict, none => none
  | .tolerant, none => some .null

mutual

/-- Reads a value. The first number bounds the calls, the second is the nesting still allowed. -/
def readValue (how : Attitude) : Nat → Nat → List Char → Option (Json × List Char)
  | 0, _, _ => none
  | calls + 1, room, cs =>
    match skipBlanks cs with
    | 'n' :: 'u' :: 'l' :: 'l' :: rest => some (.null, rest)
    | 't' :: 'r' :: 'u' :: 'e' :: rest => some (.bool true, rest)
    | 'f' :: 'a' :: 'l' :: 's' :: 'e' :: rest => some (.bool false, rest)
    | '"' :: rest => do
      let (s, rest) ← readString rest []
      return (← how.accept (s.map .string), rest)
    | '[' :: rest =>
      match room with
      | 0 => none
      | room + 1 =>
        match skipBlanks rest with
        | ']' :: rest => some (.array [], rest)
        | rest => readItems how calls room rest []
    | '\x7b' :: rest =>
      match room with
      | 0 => none
      | room + 1 =>
        match skipBlanks rest with
        | '\x7d' :: rest => some (.object [], rest)
        | rest => readMembers how calls room rest (some [])
    | rest => do
      let (l, rest) ← readNumber rest
      return (← how.accept l.value?, rest)

/-- Reads the items of an array up to its end, in front of those read before. -/
def readItems (how : Attitude) : Nat → Nat → List Char → List Json → Option (Json × List Char)
  | 0, _, _, _ => none
  | calls + 1, room, cs, acc =>
    match readValue how calls room cs with
    | none => none
    | some (v, rest) =>
      match skipBlanks rest with
      | ',' :: rest => readItems how calls room rest (v :: acc)
      | ']' :: rest => some (.array (v :: acc).reverse, rest)
      | _ => none

/-- Reads the members of an object up to its end, in front of those read before; without a list if
some key could not be read. -/
def readMembers (how : Attitude) :
    Nat → Nat → List Char → Option (List (String × Json)) → Option (Json × List Char)
  | 0, _, _, _ => none
  | calls + 1, room, cs, acc =>
    match skipBlanks cs with
    | '"' :: rest =>
      match readString rest [] with
      | none => none
      | some (k, rest) =>
        match skipBlanks rest with
        | ':' :: rest =>
          match readValue how calls room rest with
          | none => none
          | some (v, rest) =>
            let acc := match k, acc with
              | some k, some ms => some ((k, v) :: ms)
              | _, _ => none
            match skipBlanks rest with
            | ',' :: rest => readMembers how calls room rest acc
            | '\x7d' :: rest =>
              (how.accept (acc.map (fun ms => .object ms.reverse))).map (fun v => (v, rest))
            | _ => none
        | _ => none
    | _ => none

end

/-- The nesting a reader allows in a text: 127 containers, or as many as it has characters. -/
def Attitude.room : Attitude → List Char → Nat
  | .strict, _ => 127
  | .tolerant, cs => cs.length

/-- The document a text holds. Each call consumes a character or follows one that did, so twice the
length of the text bounds the calls. -/
def parse? (how : Attitude) (text : String) : Option Json :=
  let cs := text.toList
  match readValue how (2 * cs.length + 2) (how.room cs) cs with
  | some (v, rest) => if (skipBlanks rest).isEmpty then some v else none
  | none => none

end Statechart.Json
