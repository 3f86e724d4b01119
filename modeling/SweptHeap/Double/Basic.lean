import SweptHeap.Layout

/-!
# Doubles

Binary floating point numbers of 64 bits, by their bit patterns. A finite number is a significand
below 2^53 times a power of two. Every operation computes the exact result in natural numbers and
rounds once, to the nearest number and to the even one of two.
-/

namespace SweptHeap

structure Double where
  bits : UInt64
  deriving DecidableEq

namespace Double

/-- The smallest power of two that is a number. -/
def leastExponent : Int := -1074

/-- The bit of the sign. -/
def signBit : Nat := 9223372036854775808

/-- The bit that is left out of the significand of most numbers. -/
def hiddenBit : Nat := 4503599627370496

def isNegative (x : Double) : Bool := signBit ≤ x.bits.toNat

/-- The bits without the sign. -/
def magnitude (x : Double) : Nat := x.bits.toNat % signBit

def field (x : Double) : Nat := x.magnitude / hiddenBit

def fraction (x : Double) : Nat := x.magnitude % hiddenBit

def isFinite (x : Double) : Bool := x.field < 2047

def isNaN (x : Double) : Bool := x.field = 2047 && x.fraction ≠ 0

/-- The significand of a finite number. -/
def significand (x : Double) : Nat := if x.field = 0 then x.fraction else hiddenBit + x.fraction

/-- The power of two of a finite number. -/
def exponent (x : Double) : Int :=
  if x.field = 0 then leastExponent else leastExponent + (x.field - 1)

def withSign (negative : Bool) (magnitude : Nat) : Double :=
  ⟨(if negative then signBit + magnitude else magnitude).toUInt64⟩

def zero (negative : Bool) : Double := withSign negative 0

def infinity (negative : Bool) : Double := withSign negative (2047 * hiddenBit)

def nan : Double := withSign false (2047 * hiddenBit + hiddenBit / 2)

/-- The quotient rounded to the nearest whole number, half way to the even one. -/
def roundDiv (num den : Nat) : Nat :=
  let floor := num / den
  let rest := 2 * (num % den)
  if rest < den then floor
  else if den < rest then floor + 1
  else floor + floor % 2

/-- A ratio with the denominator or the numerator multiplied by a power of two, so that it is
divided by that power. -/
def scale (num den : Nat) (exponent : Int) : Nat × Nat :=
  if 0 ≤ exponent then (num, den * Nat.pow 2 exponent.toNat)
  else (num * Nat.pow 2 (-exponent).toNat, den)

/-- The power of two at which a positive ratio has a whole part of at most 53 bits, and of 53 bits
unless the number is too small for that. -/
def exponentOf (num den : Nat) : Int :=
  let guess : Int := (Nat.log2 num : Int) - Nat.log2 den - 53
  let (n, d) := scale num den guess
  let exact := if n / d < 2 * hiddenBit then guess else guess + 1
  max exact leastExponent

/-- The number nearest to a ratio. -/
def ofRatio (negative : Bool) (num den : Nat) : Double :=
  if num = 0 then zero negative
  else
    let exponent := exponentOf num den
    let (n, d) := scale num den exponent
    let magnitude := (exponent - leastExponent).toNat * hiddenBit + roundDiv n d
    if 2047 * hiddenBit ≤ magnitude then infinity negative else withSign negative magnitude

/-- The number nearest to a natural number. -/
def ofNat (n : Nat) : Double := ofRatio false n 1

def neg (x : Double) : Double := withSign (!x.isNegative) x.magnitude

/-- A finite number without its sign, as a ratio. -/
def ratio (x : Double) : Nat × Nat :=
  if 0 ≤ x.exponent then (x.significand * Nat.pow 2 x.exponent.toNat, 1)
  else (x.significand, Nat.pow 2 (-x.exponent).toNat)

def mul (x y : Double) : Double :=
  let negative := x.isNegative != y.isNegative
  if x.isNaN || y.isNaN then nan
  else if x.isFinite && y.isFinite then
    let (n, d) := x.ratio
    let (n', d') := y.ratio
    ofRatio negative (n * n') (d * d')
  else if x.magnitude = 0 || y.magnitude = 0 then nan
  else infinity negative

def div (x y : Double) : Double :=
  let negative := x.isNegative != y.isNegative
  if x.isNaN || y.isNaN then nan
  else if !x.isFinite then if y.isFinite then infinity negative else nan
  else if !y.isFinite then zero negative
  else if y.magnitude = 0 then if x.magnitude = 0 then nan else infinity negative
  else
    let (n, d) := x.ratio
    let (n', d') := y.ratio
    ofRatio negative (n * d') (d * n')

/-- A key in the order of the numbers that are no NaN. -/
def orderKey (x : Double) : Int := if x.isNegative then -x.magnitude else x.magnitude

def lt (x y : Double) : Bool := !x.isNaN && !y.isNaN && x.orderKey < y.orderKey

def one : Double := ofNat 1

/-- The whole part, as a machine word that stops at zero and at the greatest word. -/
def toWord (x : Double) : Nat :=
  if x.isNaN || x.isNegative then 0
  else if x.isFinite then
    let (n, d) := x.ratio
    min (n / d) (wordLimit - 1)
  else wordLimit - 1

end Double

end SweptHeap
