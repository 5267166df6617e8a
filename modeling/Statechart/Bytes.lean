/-
# Statechart.Bytes -- a compact binary form

Numbers have a fixed width with the least byte first. A text, a list or a map is its length in
eight bytes followed by its contents, texts in UTF-8. A value is its fields one after the other,
without names. Reading takes bytes from the front and leaves the rest.
-/

import Statechart.Digits
import Statechart.Journal

namespace Statechart.Bytes

/-! ## Writing -/

/-- A number in a fixed count of bytes, the least one first. -/
def ofNat : Nat → Nat → List UInt8
  | 0, _ => []
  | width + 1, n => UInt8.ofNat (n % 256) :: ofNat width (n / 256)

/-- A count in eight bytes. -/
def ofCount (n : Nat) : List UInt8 := ofNat 8 n

/-- An integer of 64 bits in two's complement. -/
def ofInt (i : Int) : List UInt8 := ofNat 8 (i % Nat.pow 2 64).toNat

/-- A text in UTF-8 after its length in bytes. -/
def ofString (s : String) : List UInt8 :=
  let bytes := s.toUTF8.toList
  ofCount bytes.length ++ bytes

/-- A list after its length. -/
def ofList {α : Type} (write : α → List UInt8) (items : List α) : List UInt8 :=
  ofCount items.length ++ items.flatMap write

/-- A map as the list of its entries. -/
def ofMap {α : Type} (write : α → List UInt8) (m : SortedMap String α) : List UInt8 :=
  ofList (fun e => ofString e.1 ++ write e.2) m.toList

/-! ## Reading -/

/-- A reader of a value at the front of some bytes, which also leaves the rest. -/
abbrev Reader (α : Type) := StateT (List UInt8) Option α

/-- A number in a fixed count of bytes, the least one first. -/
def readNat : Nat → Reader Nat
  | 0 => pure 0
  | width + 1 => fun bytes =>
    match bytes with
    | [] => none
    | b :: rest => (readNat width rest).map (fun p => (b.toNat + 256 * p.1, p.2))

/-- A count in eight bytes. -/
def readCount : Reader Nat := readNat 8

/-- An integer of 64 bits in two's complement. -/
def readInt : Reader Int := do
  let n ← readNat 8
  return if n < Nat.pow 2 63 then (n : Int) else (n : Int) - Nat.pow 2 64

/-- A text in UTF-8 after its length in bytes. -/
def readString : Reader String := do
  let n ← readCount
  let bytes ← get
  let taken := bytes.take n
  if taken.length = n then
    set (bytes.drop n)
    match String.fromUTF8? ⟨taken.toArray⟩ with
    | some s => return s
    | none => failure
  else failure

/-- So many values; each takes at least a byte, so no more than the bytes at hand are tried. -/
def readItems {α : Type} (read : Reader α) : Nat → Reader (List α)
  | 0 => pure []
  | n + 1 => do
    let a ← read
    let rest ← readItems read n
    return a :: rest

/-- A list after its length, of values that take at least a byte each. -/
def readList {α : Type} (read : Reader α) : Reader (List α) := do
  let n ← readCount
  let bytes ← get
  if n ≤ bytes.length then readItems read n else failure

/-- A map given as a list of entries. -/
def readMap {α : Type} (read : Reader α) : Reader (SortedMap String α) := do
  let entries ← readList (do
    let k ← readString
    let v ← read
    return (k, v))
  return SortedMap.ofList entries

/-! ## Configurations and journals -/

def ofStringSet (s : SortedSet String) : List UInt8 := ofList ofString s.toList

def readStringSet : Reader (SortedSet String) := do
  return SortedSet.ofList (← readList readString)

def ofConfiguration (c : Configuration) : List UInt8 :=
  ofStringSet c.leaves ++ ofMap ofStringSet c.history

def readConfiguration : Reader Configuration := do
  let leaves ← readStringSet
  let history ← readMap readStringSet
  return ⟨leaves, history⟩

def ofInstant (i : Instant) : List UInt8 := ofString i.text

def readInstant : Reader Instant := do
  match Instant.ofText? (← readString) with
  | some i => return i
  | none => failure

def ofMove (m : Move) : List UInt8 :=
  ofConfiguration m.before ++ ofConfiguration m.after ++ ofString m.event ++
    ofInstant m.instant ++ ofCount m.microsteps

def readMove : Reader Move := do
  let before ← readConfiguration
  let after ← readConfiguration
  let event ← readString
  let instant ← readInstant
  let microsteps ← readCount
  return { before, after, event, instant, microsteps }

def ofJournal (j : Journal) : List UInt8 := ofList ofMove j.moves

def readJournal : Reader Journal := do
  return ⟨← readList readMove⟩

/-! ## As text -/

/-- Two hexadecimal digits for each byte. -/
def toHex (bytes : List UInt8) : String :=
  String.ofList (bytes.flatMap (fun b => [Digits.hex (b.toNat / 16), Digits.hex (b.toNat % 16)]))

/-- The bytes given by pairs of hexadecimal digits. -/
def ofHex? : List Char → Option (List UInt8)
  | [] => some []
  | [_] => none
  | a :: b :: rest => do
    let high ← Digits.hexValue? a
    let low ← Digits.hexValue? b
    let bytes ← ofHex? rest
    return UInt8.ofNat (high * 16 + low) :: bytes

end Statechart.Bytes
