import SweptHeap.Layout

/-!
# Faults

A call that breaks a rule of the heap ends in a fault. What the call had done up to there stays
done, so an operation that can fail gives back its state in either case.
-/

namespace SweptHeap

/-- The counters of the collection protocol that bound one another. -/
inductive Milestone where
  | scheduled
  | started
  | finished
  deriving DecidableEq

def Milestone.name : Milestone → String
  | scheduled => "scheduled"
  | started => "started"
  | finished => "finished"

inductive Fault where
  /-- A sum left the range of a machine word. -/
  | overflow
  /-- A uniform page of blocks that are empty or too large. -/
  | blockSize
  /-- A request for a uniform page of blocks that are empty or too large. -/
  | uniformRequest
  /-- A page of its own for a block that a tiled page can hold. -/
  | fitsTiled (cells : Nat)
  | objectSize
  | arraySize
  /-- A collection begins while the last one still has pages to sweep. -/
  | unswept
  | noPart (part : Nat)
  /-- An epoch reaches a milestone before the one in front of it. -/
  | ahead (of : Milestone)
  /-- A sweep passed the free block that holds the next free range. -/
  | strayLink (cell link : Nat)
  /-- A cell or slot beyond the end of its page. -/
  | outside (index : Nat)
  /-- A page that was just created has no room. -/
  | noRoom
  /-- An access to a page that is not mapped. -/
  | unmapped (page : Nat)
  /-- A collection while a thread uses the heap. -/
  | restless
  deriving DecidableEq

namespace Fault

def message : Fault → String
  | overflow => "attempt to add with overflow"
  | blockSize => "assertion failed: block_size > 0 && block_size as usize <= MAX_BLOCK_SIZE"
  | uniformRequest => "assertion failed: cells > 0 && cells as usize <= MAX_BLOCK_SIZE"
  | fitsTiled cells => s!"{cells} cells fit a next fit page"
  | objectSize => "object size overflows usize"
  | arraySize => "array size overflows usize"
  | unswept => "previous cycle left unswept pages"
  | noPart part => s!"no fixed page part {part}"
  | ahead m => "assertion failed: epoch <= epochs." ++ m.name
  | strayLink cell link =>
    s!"assertion `left == right` failed\n  left: {cell}\n right: {link}"
  | outside index => s!"no cell {index} in the page"
  | noRoom => "fresh page has no room"
  | unmapped page => s!"page {page} is not mapped"
  | restless => "the world does not stop"

end Fault

/-- An operation on a state. A fault keeps the state that it left behind. -/
abbrev Act (σ α : Type) := ExceptT Fault (StateM σ) α

/-- Runs an operation from `s`. -/
def Act.apply {σ α : Type} (act : Act σ α) (s : σ) : Except Fault α × σ := act.run s

/-- Sum of two words, which has to be a word. -/
def addWords (a b : Nat) : Except Fault Nat :=
  if a + b < wordLimit then .ok (a + b) else .error .overflow

end SweptHeap
