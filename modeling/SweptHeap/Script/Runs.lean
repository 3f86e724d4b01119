/-!
# Runs

Long lists of numbers are written as runs of equal steps, taken greedily from the left; lists of
places as one group for each stretch on the same page.
-/

namespace SweptHeap.Script

/-- The numbers `first`, `first + step`, and so on, `count` of them. -/
structure Run where
  first : Int
  step : Int
  count : Nat
  deriving DecidableEq

namespace Run

def last (r : Run) : Int := r.first + r.step * (r.count - 1)

/-- The run with one more number, if the number continues it. -/
def extend? (r : Run) (x : Int) : Option Run :=
  if r.count = 1 then some ⟨r.first, x - r.first, 2⟩
  else if x - r.last = r.step then some { r with count := r.count + 1 }
  else none

/-- The numbers of a run. -/
def toList (r : Run) : List Int := (List.range r.count).map fun (i : Nat) => r.first + r.step * i

end Run

/-- Finished runs and the one under way. -/
structure RunBuilder where
  runs : Array Run := #[]
  current : Option Run := none

namespace RunBuilder

def push (b : RunBuilder) (x : Int) : RunBuilder :=
  match b.current with
  | none => { b with current := some ⟨x, 0, 1⟩ }
  | some r =>
    match r.extend? x with
    | some r => { b with current := some r }
    | none => ⟨b.runs.push r, some ⟨x, 0, 1⟩⟩

def finish (b : RunBuilder) : Array Run :=
  match b.current with
  | none => b.runs
  | some r => b.runs.push r

end RunBuilder

def runs (xs : Array Int) : Array Run := (xs.foldl RunBuilder.push {}).finish

/-- Finished groups and the one under way. -/
structure GroupBuilder where
  groups : Array (Nat × Array Run) := #[]
  current : Option (Nat × RunBuilder) := none

namespace GroupBuilder

def push (b : GroupBuilder) (place : Nat × Nat) : GroupBuilder :=
  match b.current with
  | none => { b with current := some (place.1, RunBuilder.push {} place.2) }
  | some (page, r) =>
    if page = place.1 then { b with current := some (page, r.push place.2) }
    else ⟨b.groups.push (page, r.finish), some (place.1, RunBuilder.push {} place.2)⟩

def finish (b : GroupBuilder) : Array (Nat × Array Run) :=
  match b.current with
  | none => b.groups
  | some (page, r) => b.groups.push (page, r.finish)

end GroupBuilder

/-- Groups of places, each a page and an offset. -/
def groups (places : Array (Nat × Nat)) : Array (Nat × Array Run) :=
  (places.foldl GroupBuilder.push {}).finish

end SweptHeap.Script
