/-
# Statechart.Json.Binary64 -- binary64 numbers in exact arithmetic

A fraction in a document stands for a binary64 number. This module has those numbers as exact
dyadic values `significand * 2 ^ exponent`, rounding of a ratio to the nearest of them (a tie goes
to the even significand), products and quotients rounded the same way, and the fewest decimal
digits that read back as a given number. Everything is done on natural numbers; no machine
arithmetic is involved.
-/

namespace Statechart.Json

/-- A finite binary64 number without its sign, `significand * 2 ^ exponent`. -/
structure Binary64 where
  /-- Below `2 ^ 53`; at least `2 ^ 52` unless the exponent is the least one. -/
  significand : Nat
  /-- From -1074 to 971. -/
  exponent : Int
  deriving DecidableEq

/-- A positive or zero decimal `digits * 10 ^ exponent`. -/
structure Scaled where
  digits : Nat
  exponent : Int
  deriving DecidableEq

/-- A ratio rounded to the nearest natural number; a half goes to the even neighbour. -/
def roundRatio (num den : Nat) : Nat :=
  let low := num / den
  let rest := num % den
  if 2 * rest < den then low
  else if den < 2 * rest then low + 1
  else if low % 2 = 0 then low else low + 1

namespace Binary64

def zero : Binary64 := ⟨0, -1074⟩

/-- The ratio times `2 ^ -e`, as a ratio. -/
def shiftedRatio (num den : Nat) (e : Int) : Nat × Nat :=
  if e < 0 then (num * Nat.pow 2 (-e).toNat, den) else (num, den * Nat.pow 2 e.toNat)

/-- The exponent at which a positive ratio has a significand of 53 bits, or the least exponent if
that one is larger. -/
def exponentOf (num den : Nat) : Int :=
  let e : Int := (Nat.log2 num : Int) - Nat.log2 den - 53
  let (n, d) := shiftedRatio num den e
  max (if d * Nat.pow 2 53 ≤ n then e + 1 else e) (-1074)

/-- The binary64 number nearest to a ratio; `none` if it lies beyond the largest one. -/
def ofRatio (num den : Nat) : Option Binary64 :=
  if num = 0 then some zero
  else
    let e := exponentOf num den
    let (n, d) := shiftedRatio num den e
    let s := roundRatio n d
    let b : Binary64 := if s = Nat.pow 2 53 then ⟨Nat.pow 2 52, e + 1⟩ else ⟨s, e⟩
    if 971 < b.exponent then none else some b

/-- A number as a ratio. -/
def toRatio (b : Binary64) : Nat × Nat := shiftedRatio b.significand 1 (-b.exponent)

/-- The product, rounded; `none` beyond the largest number. -/
def mul? (a b : Binary64) : Option Binary64 :=
  ofRatio (a.toRatio.1 * b.toRatio.1) (a.toRatio.2 * b.toRatio.2)

/-- The quotient by a positive number, rounded; `none` beyond the largest number. -/
def div? (a b : Binary64) : Option Binary64 :=
  ofRatio (a.toRatio.1 * b.toRatio.2) (a.toRatio.2 * b.toRatio.1)

/-- The power of ten with an exponent up to 308, rounded. -/
def powerOfTen (n : Nat) : Binary64 := (ofRatio (Nat.pow 10 n) 1).getD zero

/-- The number meant by a decimal: its digits rounded as an integer, then multiplied or divided by
a rounded power of ten, with a second rounding. Below the range of the powers of ten the division
is done in two steps, and what is smaller still is zero. -/
def ofScaled (d : Scaled) : Option Binary64 := do
  let s ← ofRatio d.digits 1
  if d.digits = 0 then
    return zero
  else if 0 ≤ d.exponent then
    if 308 < d.exponent then none else s.mul? (powerOfTen d.exponent.toNat)
  else
    let n := (-d.exponent).toNat
    if n ≤ 308 then
      s.div? (powerOfTen n)
    else if n ≤ 616 then
      let t ← s.div? (powerOfTen 308)
      t.div? (powerOfTen (n - 308))
    else
      return zero

/-! ## The fewest digits that read back -/

/-- The numbers of a grid `10 ^ k` next to the ratio `num / den`, of those within `low / den` and
`high / den` the nearer one. The bounds count as inside if `closed` is set. -/
def gridPoint (closed : Bool) (low num high den : Nat) (k : Int) : Option Nat :=
  let up := Nat.pow 10 (-k).toNat
  let unit := den * Nat.pow 10 k.toNat
  let inside (c : Nat) : Bool :=
    if closed then low * up ≤ c * unit && c * unit ≤ high * up
    else low * up < c * unit && c * unit < high * up
  let below := num * up / unit
  let above := below + 1
  match inside below, inside above with
  | true, true =>
    let down := num * up - below * unit
    let rise := above * unit - num * up
    if down < rise then some below
    else if rise < down then some above
    else if below % 2 = 0 then some below else some above
  | true, false => some below
  | false, true => some above
  | false, false => none

/-- Tries ever finer grids, starting from `10 ^ k`, until one has a point in the interval. -/
def finestNeeded (closed : Bool) (low num high den : Nat) : Nat → Int → Scaled
  | 0, _ => ⟨0, 0⟩
  | steps + 1, k =>
    match gridPoint closed low num high den k with
    | some c => ⟨c, k⟩
    | none => finestNeeded closed low num high den steps (k - 1)

/-- The decimal with the fewest digits that reads back as a number, of those the nearest. The
interval searched reaches half way to both neighbours, with its ends if the significand is even.
Twenty grids are enough: the first is coarser than the number, and seventeen digits tell any two
numbers apart. -/
def shortest (b : Binary64) : Scaled :=
  if b.significand = 0 then ⟨0, 0⟩
  else
    let tight := b.significand = Nat.pow 2 52 ∧ b.exponent ≠ -1074
    let num := 4 * b.significand
    let low := if tight then num - 1 else num - 2
    let high := num + 2
    let e := b.exponent - 2
    let up := Nat.pow 2 e.toNat
    let den := Nat.pow 2 (-e).toNat
    let bits : Int := b.exponent + Nat.log2 b.significand
    let start : Int := if 0 ≤ bits then bits * 30103 / 100000 + 1 else bits * 30102 / 100000 + 2
    finestNeeded (b.significand % 2 = 0) (low * up) (num * up) (high * up) den 20 start

end Binary64

end Statechart.Json
