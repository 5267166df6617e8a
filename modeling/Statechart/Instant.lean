/-
# Statechart.Instant -- points in time and their text

A point in time is a number of seconds since the start of 1970 in UTC, with a fraction in
nanoseconds. Its text is that of RFC 3339: written in UTC with as few groups of three fraction
digits as lose nothing; read with any offset, and with blanks between the parts.

The seconds of a leap second are those of the second before it, with a fraction of one second or
more.
-/

import Statechart.Digits
import Statechart.Json.Record

namespace Statechart

/-- A point in time. -/
structure Instant where
  /-- Whole seconds since 1970-01-01T00:00:00Z. -/
  seconds : Int
  /-- The fraction in nanoseconds; a second or more inside a leap second. -/
  nanos : Nat
  deriving DecidableEq

namespace Instant

/-! ## Calendar -/

/-- A day of the calendar. -/
structure Date where
  year : Int
  month : Nat
  day : Nat
  deriving DecidableEq

namespace Date

def isLeapYear (year : Int) : Bool := (year % 4 = 0 && year % 100 ≠ 0) || year % 400 = 0

def monthLength (year : Int) (month : Nat) : Nat :=
  if month = 2 then (if isLeapYear year then 29 else 28)
  else if month = 4 || month = 6 || month = 9 || month = 11 then 30
  else 31

/-- The first and the last year that dates are kept for. -/
def yearRange : Int × Int := (-262143, 262142)

/-- Whether there is such a day. -/
def exists? (d : Date) : Bool :=
  yearRange.1 ≤ d.year && d.year ≤ yearRange.2 && 1 ≤ d.month && d.month ≤ 12 &&
    1 ≤ d.day && d.day ≤ monthLength d.year d.month

/-- Days since 1970-01-01. Years are counted from March, so that a leap day is the last day of its
year, and gathered into spans of 400 years of equal length. -/
def toDays (d : Date) : Int :=
  let year := if d.month ≤ 2 then d.year - 1 else d.year
  let span := year / 400
  let yearOfSpan := year % 400
  let month : Int := if d.month ≤ 2 then d.month + 9 else d.month - 3
  let dayOfYear := (153 * month + 2) / 5 + d.day - 1
  span * 146097 + yearOfSpan * 365 + yearOfSpan / 4 - yearOfSpan / 100 + dayOfYear - 719468

/-- The day with a number of days since 1970-01-01. -/
def ofDays (days : Int) : Date :=
  let z := days + 719468
  let span := z / 146097
  let dayOfSpan := z % 146097
  let yearOfSpan :=
    (dayOfSpan - dayOfSpan / 1460 + dayOfSpan / 36524 - dayOfSpan / 146096) / 365
  let dayOfYear := dayOfSpan - (365 * yearOfSpan + yearOfSpan / 4 - yearOfSpan / 100)
  let month := (5 * dayOfYear + 2) / 153
  let day := dayOfYear - (153 * month + 2) / 5 + 1
  let shifted := month < 10
  let year := yearOfSpan + span * 400
  ⟨if shifted then year else year + 1,
    (if shifted then month + 3 else month - 9).toNat, day.toNat⟩

end Date

/-- The day that a point in time falls on in UTC. -/
def date (i : Instant) : Date := Date.ofDays (i.seconds / 86400)

/-! ## Writing -/

/-- A number with at least a given count of digits. -/
def padded (width n : Nat) : String :=
  let digits := Nat.repr n
  "".pushn '0' (width - digits.length) ++ digits

/-- The fraction of a second, in the fewest groups of three digits. -/
def fractionText (nanos : Nat) : String :=
  if nanos = 0 then ""
  else if nanos % 1000000 = 0 then "." ++ padded 3 (nanos / 1000000)
  else if nanos % 1000 = 0 then "." ++ padded 6 (nanos / 1000)
  else "." ++ padded 9 nanos

/-- A year: four digits, or a sign and at least four digits outside of them. -/
def yearText (year : Int) : String :=
  if 0 ≤ year ∧ year ≤ 9999 then padded 4 year.toNat
  else (if year < 0 then "-" else "+") ++ padded 4 year.natAbs

/-- The text of a point in time. -/
def text (i : Instant) : String :=
  let date := i.date
  let ofDay := (i.seconds % 86400).toNat
  let leap := 1000000000 ≤ i.nanos
  let second := ofDay % 60 + (if leap then 1 else 0)
  let nanos := if leap then i.nanos - 1000000000 else i.nanos
  yearText date.year ++ "-" ++ padded 2 date.month ++ "-" ++ padded 2 date.day ++ "T" ++
    padded 2 (ofDay / 3600) ++ ":" ++ padded 2 (ofDay / 60 % 60) ++ ":" ++ padded 2 second ++
    fractionText nanos ++ "Z"

/-! ## Reading -/

/-- The characters that count as blanks between the parts of a point in time. -/
def isBlank (c : Char) : Bool :=
  let n := c.toNat
  (9 ≤ n && n ≤ 13) || n = 0x20 || n = 0x85 || n = 0xA0 || n = 0x1680 ||
    (0x2000 ≤ n && n ≤ 0x200A) || n = 0x2028 || n = 0x2029 || n = 0x202F || n = 0x205F ||
    n = 0x3000

def skipBlanks (cs : List Char) : List Char := cs.dropWhile isBlank

/-- A number of at least one digit and at most so many. -/
def readDigits (most : Nat) (cs : List Char) : Option (Nat × List Char) :=
  let digits := (cs.take most).takeWhile Digits.isDecimal
  if digits.isEmpty then none else some (Digits.number digits, cs.drop digits.length)

/-- A number within bounds after any blanks. -/
def readPart (low high : Nat) (cs : List Char) : Option (Nat × List Char) := do
  let (n, rest) ← readDigits 2 (skipBlanks cs)
  if low ≤ n ∧ n ≤ high then some (n, rest) else none

/-- A year after any blanks: up to four digits, or a sign and any number of digits. -/
def readYear (cs : List Char) : Option (Int × List Char) :=
  match skipBlanks cs with
  | '-' :: rest => (readDigits rest.length rest).map (fun p => (-(p.1 : Int), p.2))
  | '+' :: rest => (readDigits rest.length rest).map (fun p => ((p.1 : Int), p.2))
  | rest => (readDigits 4 rest).map (fun p => ((p.1 : Int), p.2))

/-- A mark after any blanks. -/
def readMark (mark : Char) (cs : List Char) : Option (List Char) :=
  match skipBlanks cs with
  | c :: rest => if c = mark then some rest else none
  | [] => none

/-- A fraction of a second, if there is a point: nine digits count, more are passed over. -/
def readFraction (cs : List Char) : Option (Nat × List Char) :=
  match cs with
  | '.' :: rest =>
    let digits := (rest.takeWhile Digits.isDecimal).take 9
    if digits.isEmpty then none
    else
      some (Digits.number digits * Nat.pow 10 (9 - digits.length),
        rest.dropWhile Digits.isDecimal)
  | _ => some (0, cs)

/-- The hours and minutes of an offset after its sign, in seconds. -/
def readClock (cs : List Char) : Option (Nat × List Char) :=
  match cs with
  | a :: b :: rest =>
    match rest.dropWhile (fun c => c = ':' || isBlank c) with
    | c :: d :: rest =>
      if [a, b, c, d].all Digits.isDecimal && c ≤ '5' then
        some (Digits.number [a, b] * 3600 + Digits.number [c, d] * 60, rest)
      else none
    | _ => none
  | _ => none

/-- The offset from UTC in seconds; less than a day. -/
def readOffset (cs : List Char) : Option (Int × List Char) :=
  let signed (negative : Bool) (cs : List Char) : Option (Int × List Char) := do
    let (n, rest) ← readClock cs
    if n < 86400 then some (if negative then -(n : Int) else n, rest) else none
  match cs with
  | c :: rest =>
    if c = 'Z' ∨ c = 'z' then some (0, rest)
    else if c = '+' then signed false rest
    else if c = '-' ∨ c = '\u2212' then signed true rest
    else
      match cs with
      | u :: t :: c :: rest =>
        if u.toUpper = 'U' ∧ t.toUpper = 'T' ∧ c.toUpper = 'C' then some (0, rest) else none
      | _ => none
  | [] => none

/-- Whether a character may stand between day and time. -/
def isDayEnd (c : Char) : Bool := c = 'T' || c = 't' || c = ' '

/-- Reads a point in time. There must be such a day both where the text was written and in UTC. -/
def ofText? (s : String) : Option Instant := do
  let (year, cs) ← readYear s.toList
  let cs ← readMark '-' cs
  let (month, cs) ← readPart 1 12 cs
  let cs ← readMark '-' cs
  let (day, cs) ← readPart 1 31 cs
  match cs with
  | c :: cs =>
    if isDayEnd c then
      let (hour, cs) ← readPart 0 23 cs
      let cs ← readMark ':' cs
      let (minute, cs) ← readPart 0 59 cs
      let cs ← readMark ':' cs
      let (second, cs) ← readPart 0 60 cs
      let (fraction, cs) ← readFraction cs
      let (offset, cs) ← readOffset (skipBlanks cs)
      let date : Date := ⟨year, month, day⟩
      if (skipBlanks cs).isEmpty && date.exists? then
        let clock := hour * 3600 + minute * 60 + min second 59
        let instant : Instant :=
          ⟨date.toDays * 86400 + clock - offset,
            fraction + (if second = 60 then 1000000000 else 0)⟩
        if instant.date.exists? then some instant else none
      else none
    else none
  | [] => none

/-- Reads a point in time from a document. -/
def ofJson? (j : Json) : Option Instant := j.asString?.bind ofText?

/-- A point in time as a document. -/
def toJson (i : Instant) : Json := .string i.text

/-! ## Durations -/

/-- A length of time in seconds and nanoseconds, the nanoseconds below one second. -/
structure Span where
  seconds : Nat
  nanos : Nat
  deriving DecidableEq

/-- Nanoseconds from one point in time to another. A leap second that lies between the times of day
is counted. -/
def nanosBetween (first last : Instant) : Int :=
  let a := first.seconds % 86400
  let b := last.seconds % 86400
  let leap : Int :=
    if a < b then (if 1000000000 ≤ first.nanos then 1 else 0)
    else if b < a then (if 1000000000 ≤ last.nanos then -1 else 0)
    else 0
  (last.seconds - first.seconds + leap) * 1000000000 + (last.nanos : Int) - first.nanos

/-- The time from one point to another; none if the other lies before it. -/
def spanTo? (first last : Instant) : Option Span :=
  let n := nanosBetween first last
  if n < 0 then none else some ⟨n.toNat / 1000000000, n.toNat % 1000000000⟩

end Instant

end Statechart
