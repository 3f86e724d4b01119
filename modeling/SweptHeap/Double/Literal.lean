import SweptHeap.Double.Basic

/-!
# Reading doubles

A decimal text is read as the number nearest to it. A literal of a data format is read in two steps:
its digits, as far as they fit a machine word, become a number, which is then multiplied or divided
by a power of ten; each step rounds. A literal too large for a double has no value, whereas a text
is then read as infinity.
-/

namespace SweptHeap.Double

/-- A decimal text taken apart. -/
structure Decimal where
  negative : Bool
  whole : List Char
  /-- The digits behind the point, if there is a point. -/
  part : Option (List Char)
  exponent : Option Int

private def valueOf (digits : List Char) : Nat :=
  digits.foldl (fun n c => 10 * n + (c.toNat - '0'.toNat)) 0

/-- An exponent: a sign or none, then digits up to the end. -/
private def exponent? (text : List Char) : Option Int :=
  let (negative, digits) := match text with
    | '-' :: rest => (true, rest)
    | '+' :: rest => (false, rest)
    | rest => (false, rest)
  if digits.isEmpty || !digits.all Char.isDigit then none
  else some (if negative then -(valueOf digits : Int) else valueOf digits)

/-- Takes a text apart into a sign, digits, a point with digits, and an exponent. -/
def Decimal.parse? (text : String) : Option Decimal := do
  let (negative, rest) := match text.toList with
    | '-' :: rest => (true, rest)
    | '+' :: rest => (false, rest)
    | rest => (false, rest)
  let whole := rest.takeWhile Char.isDigit
  let rest := rest.dropWhile Char.isDigit
  let (part, rest) := match rest with
    | '.' :: rest => (some (rest.takeWhile Char.isDigit), rest.dropWhile Char.isDigit)
    | rest => (none, rest)
  if whole.isEmpty && (part.getD []).isEmpty then none
  match rest with
  | [] => some ⟨negative, whole, part, none⟩
  | c :: rest =>
    if c = 'e' || c = 'E' then some ⟨negative, whole, part, some (← exponent? rest)⟩ else none

/-- The number nearest to `digits` times 10^`place`. Far outside the range of the numbers the result
does not depend on the digits. -/
def ofDecimal (negative : Bool) (digits : Nat) (place : Int) : Double :=
  let count : Int := (Nat.toDigits 10 digits).length
  if digits = 0 then zero negative
  else if 400 < count + place then infinity negative
  else if count + place < -400 then zero negative
  else if 0 ≤ place then ofRatio negative (digits * Nat.pow 10 place.toNat) 1
  else ofRatio negative digits (Nat.pow 10 (-place).toNat)

/-- Reads a text as the nearest number; words for infinity and for no number are read too. -/
def ofText? (text : String) : Option Double :=
  let lower := text.toLower
  let (negative, word) := match lower.toList with
    | '-' :: rest => (true, rest)
    | '+' :: rest => (false, rest)
    | rest => (false, rest)
  let word := String.ofList word
  if word = "inf" || word = "infinity" then some (infinity negative)
  else if word = "nan" then some (if negative then nan.neg else nan)
  else
    (Decimal.parse? text).map fun d =>
      let part := d.part.getD []
      ofDecimal d.negative (valueOf (d.whole ++ part)) (d.exponent.getD 0 - part.length)

/-- Digits taken in as long as they make a machine word, and how many were taken and left. -/
structure Intake where
  value : Nat := 0
  taken : Nat := 0
  left : Nat := 0

def Intake.push (t : Intake) (c : Char) : Intake :=
  let next := 10 * t.value + (c.toNat - '0'.toNat)
  if t.left = 0 ∧ next < wordLimit then { t with value := next, taken := t.taken + 1 }
  else { t with left := t.left + 1 }

/-- Divides or multiplies by a power of ten, by steps of 10^308, as long as the result is finite. -/
def shift? (x : Double) (place : Int) : (steps : Nat) → Option Double
  | 0 => some x
  | steps + 1 =>
    if x.magnitude = 0 then some x
    else if 308 < place then none
    else if 0 ≤ place then some (x.mul (ofNat (Nat.pow 10 place.toNat))) |>.filter isFinite
    else if -308 ≤ place then some (x.div (ofNat (Nat.pow 10 (-place).toNat)))
    else shift? (x.div (ofNat (Nat.pow 10 308))) (place + 308) steps

/-- Reads a literal in two steps. -/
def ofLiteral? (text : String) : Option Double := do
  let d ← Decimal.parse? text
  let whole := d.whole.foldl Intake.push {}
  let all := (d.part.getD []).foldl Intake.push { value := whole.value }
  let digits := all.value
  let place : Int := (whole.left : Int) - all.taken + d.exponent.getD 0
  let x ← shift? (ofNat digits) (max place (-5000)) 20
  return if d.negative then x.neg else x

end SweptHeap.Double
