import SweptHeap.Layout

/-!
# The meter

Counts the bytes in use and says when an addition takes the count across the target.
-/

namespace SweptHeap

structure Meter where
  allocated : Nat := 0
  target : Nat := wordLimit - 1
  deriving DecidableEq

namespace Meter

/-- Adds `bytes` to the count, which wraps around like a machine word, and says whether this took it
from below the target to the target or beyond. -/
def add (m : Meter) (bytes : Nat) : Bool × Meter :=
  (0 < bytes && m.allocated < m.target && m.target ≤ min (m.allocated + bytes) (wordLimit - 1),
    { m with allocated := (m.allocated + bytes) % wordLimit })

def reset (m : Meter) : Meter := { m with allocated := 0 }

def setTarget (m : Meter) (bytes : Nat) : Meter := { m with target := bytes }

end Meter

end SweptHeap
