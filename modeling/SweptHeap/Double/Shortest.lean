import SweptHeap.Double.Basic

/-!
# The shortest decimal of a double

The fewest digits that read back as the number, and of those the nearest to it, the larger of two
that are equally near. They are written positionally, however many zeros that takes.
-/

namespace SweptHeap.Double

/-- The numbers that round to a double, as ratios of one denominator, and the double itself. -/
structure Neighbourhood where
  low : Nat
  value : Nat
  high : Nat
  den : Nat
  /-- Whether the ends belong to it. -/
  closed : Bool

/-- Half way to the next number on both sides; the next lower power of two is closer. -/
def neighbourhood (x : Double) : Neighbourhood :=
  let m := x.significand
  let below := if x.fraction = 0 ∧ 1 < x.field then 1 else 2
  let exponent := x.exponent - 2
  let up := if 0 ≤ exponent then Nat.pow 2 exponent.toNat else 1
  let den := if 0 ≤ exponent then 1 else Nat.pow 2 (-exponent).toNat
  ⟨(4 * m - below) * up, 4 * m * up, (4 * m + 2) * up, den, m % 2 = 0⟩

namespace Neighbourhood

/-- A decimal with the unit 10^`place` as a ratio to the denominator 10^`-place`, or to one. -/
def decimal (digits : Nat) (place : Int) : Nat × Nat :=
  if 0 ≤ place then (digits * Nat.pow 10 place.toNat, 1) else (digits, Nat.pow 10 (-place).toNat)

def contains (b : Neighbourhood) (digits : Nat) (place : Int) : Bool :=
  let (n, d) := decimal digits place
  let x := n * b.den
  if b.closed then b.low * d ≤ x && x ≤ b.high * d else b.low * d < x && x < b.high * d

/-- The greatest multiple of 10^`place` up to the value, in that unit. -/
def floor (b : Neighbourhood) (place : Int) : Nat :=
  if 0 ≤ place then b.value / (b.den * Nat.pow 10 place.toNat)
  else b.value * Nat.pow 10 (-place).toNat / b.den

/-- Whether the value is at least as near to `digits + 1` as to `digits`. -/
def nearerAbove (b : Neighbourhood) (digits : Nat) (place : Int) : Bool :=
  let (n, d) := decimal (2 * digits + 1) place
  n * b.den ≤ 2 * b.value * d

/-- The decimal in the unit 10^`place` that reads back, if there is one. -/
def candidate? (b : Neighbourhood) (place : Int) : Option Nat :=
  let digits := b.floor place
  match b.contains digits place, b.contains (digits + 1) place with
  | true, true => some (if b.nearerAbove digits place then digits + 1 else digits)
  | true, false => some digits
  | false, true => some (digits + 1)
  | false, false => none

/-- Number of digits in front of the point; not positive if the number begins behind it. -/
def magnitude (b : Neighbourhood) : Int :=
  if b.den ≤ b.value then (Nat.toDigits 10 (b.value / b.den)).length
  else leading b.value 330
where
  leading (value : Nat) : Nat → Int
    | 0 => 0
    | fuel + 1 => if b.den ≤ value * 10 then 0 else leading (value * 10) fuel - 1

/-- The first unit, from 10^`place` down, in which a decimal reads back. -/
def search (b : Neighbourhood) : (left : Nat) → (place : Int) → Nat × Int
  | 0, place => (b.floor place, place)
  | left + 1, place =>
    match b.candidate? place with
    | some digits => (digits, place)
    | none => b.search left (place - 1)

end Neighbourhood

/-- Digits and their unit without up to `left` zeros at the end. -/
def trimZeros : (left digits : Nat) → (place : Int) → Nat × Int
  | 0, digits, place => (digits, place)
  | left + 1, digits, place =>
    if digits % 10 = 0 then trimZeros left (digits / 10) (place + 1) else (digits, place)

/-- Digits and the power of ten of the last one. -/
def shortest (x : Double) : Nat × Int :=
  let b := x.neighbourhood
  let (digits, place) := b.search 17 (b.magnitude - 1)
  trimZeros 17 digits place

/-- Digits with the point in its place. -/
def positional (digits : Nat) (place : Int) : String :=
  let text := (Nat.toDigits 10 digits)
  if 0 ≤ place then String.ofList (text ++ List.replicate place.toNat '0')
  else
    let places := (-place).toNat
    let text := List.replicate (places + 1 - text.length) '0' ++ text
    let whole := text.length - places
    String.ofList (text.take whole ++ '.' :: text.drop whole)

def toText (x : Double) : String :=
  if x.isNaN then "NaN"
  else
    let sign := if x.isNegative then "-" else ""
    if !x.isFinite then sign ++ "inf"
    else if x.magnitude = 0 then sign ++ "0"
    else
      let (digits, place) := x.shortest
      sign ++ positional digits place

end SweptHeap.Double
