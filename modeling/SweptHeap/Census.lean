import SweptHeap.Fault

/-!
# Census

How many pages stand in each of the four lists of a shelf, how many bytes they hold, and the report
on a whole heap.
-/

namespace SweptHeap

/-- Lengths of the lists of a shelf. -/
structure PageCount where
  empty : Nat := 0
  ready : Nat := 0
  used : Nat := 0
  unswept : Nat := 0
  deriving DecidableEq

namespace PageCount

def add (a b : PageCount) : PageCount :=
  ⟨a.empty + b.empty, a.ready + b.ready, a.used + b.used, a.unswept + b.unswept⟩

def total (a : PageCount) : Nat := a.empty + a.ready + a.used + a.unswept

/-- Sum in machine words. -/
def addWithin (a b : PageCount) : Except Fault PageCount := do
  return ⟨← addWords a.empty b.empty, ← addWords a.ready b.ready, ← addWords a.used b.used,
    ← addWords a.unswept b.unswept⟩

/-- Total in machine words. -/
def totalWithin (a : PageCount) : Except Fault Nat := do
  let swept ← addWords a.empty a.ready
  let owned ← addWords swept a.used
  addWords owned a.unswept

end PageCount

/-- Bytes that pages can hold, and bytes that they do hold. -/
structure Occupancy where
  capacity : Nat := 0
  allocated : Nat := 0
  deriving DecidableEq

namespace Occupancy

def add (a b : Occupancy) : Occupancy := ⟨a.capacity + b.capacity, a.allocated + b.allocated⟩

/-- Sum in machine words. -/
def addWithin (a b : Occupancy) : Except Fault Occupancy := do
  return ⟨← addWords a.capacity b.capacity, ← addWords a.allocated b.allocated⟩

end Occupancy

structure Census where
  uniform : PageCount := {}
  tiled : PageCount := {}
  large : PageCount := {}
  records : PageCount := {}
  objects : Occupancy := {}
  recordBytes : Occupancy := {}
  deriving DecidableEq

namespace Census

/-- The number, right-aligned in five columns. -/
private def column (n : Nat) : String :=
  let digits := toString n
  "".pushn ' ' (5 - digits.length) ++ digits

/-- The name, left-aligned in fourteen columns. -/
private def heading (name : String) : String := name.pushn ' ' (14 - name.length)

private def row (kind : PageKind) (c : PageCount) : String :=
  "  " ++ heading kind.phrase ++ " ready " ++ column c.ready ++ "  empty " ++ column c.empty ++
    "  used " ++ column c.used ++ "  unswept " ++ column c.unswept

/-- The lines of the report. -/
def lines (c : Census) : List String :=
  ["heap census:", row .uniform c.uniform, row .tiled c.tiled, row .large c.large,
    row .records c.records,
    s!"  objects {c.objects.allocated} / {c.objects.capacity} bytes, " ++
      s!"extra objects {c.recordBytes.allocated} / {c.recordBytes.capacity} bytes"]

def text (c : Census) : String := "\n".intercalate c.lines

end Census

end SweptHeap
