/-!
# Hexadecimal text

Bytes are written with two digits each, the higher one first. Letters are written small and read in
either case, and a byte of one digit may be read with a plus sign in front of it; so reading gives
back what was written.
-/

namespace SweptHeap.Hex

def digit (n : Nat) : Char := Char.ofNat (if n < 10 then 48 + n else 87 + n)

def value? (c : Char) : Option Nat :=
  let n := c.toNat
  if 48 ≤ n ∧ n ≤ 57 then some (n - 48)
  else if 97 ≤ n ∧ n ≤ 102 then some (n - 87)
  else if 65 ≤ n ∧ n ≤ 70 then some (n - 55)
  else none

def encode : List UInt8 → List Char
  | [] => []
  | b :: rest => digit (b.toNat / 16) :: digit (b.toNat % 16) :: encode rest

/-- The value of the first of two digits, or of the sign in its place. -/
def lead? (c : Char) : Option Nat := if c = '+' then some 0 else value? c

/-- Refuses an odd number of characters and anything that is neither a digit nor a sign in front of
one. -/
def decode : List Char → Option (List UInt8)
  | [] => some []
  | [_] => none
  | a :: b :: rest => do
    let high ← lead? a
    let low ← value? b
    return (high * 16 + low).toUInt8 :: (← decode rest)

/-- The last `count` digits of a number. -/
def digits (n : Nat) : (count : Nat) → List Char
  | 0 => []
  | count + 1 => digits (n / 16) count ++ [digit (n % 16)]

theorem value?_digit {n : Nat} (h : n < 16) : value? (digit n) = some n := by
  revert n
  decide

theorem lead?_digit {n : Nat} (h : n < 16) : lead? (digit n) = some n := by
  revert n
  decide

theorem decode_encode (bytes : List UInt8) : decode (encode bytes) = some bytes := by
  induction bytes with
  | nil => rfl
  | cons b rest ih =>
    have high : b.toNat / 16 < 16 := by have := b.toNat_lt; omega
    have low : b.toNat % 16 < 16 := by omega
    have whole : (b.toNat / 16 * 16 + b.toNat % 16).toUInt8 = b := by
      rw [show b.toNat / 16 * 16 + b.toNat % 16 = b.toNat by omega]
      exact UInt8.ofNat_toNat
    rw [encode, decode, lead?_digit high, value?_digit low, ih]
    exact congrArg (fun b => some (b :: rest)) whole

end SweptHeap.Hex
