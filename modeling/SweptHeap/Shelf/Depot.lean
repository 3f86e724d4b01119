import SweptHeap.Arena
import SweptHeap.Shelf.Basic

/-!
# Pages for allocators

A depot is a shelf at work in its arena. An allocator that needs a page gets a ready one with room,
else it sweeps unswept pages until one has room, else it gets an empty page, else a new one. A
collection sweeps whatever is left unswept.
-/

namespace SweptHeap

structure Depot (ρ : Type) where
  shelf : Shelf := {}
  arena : Arena ρ

namespace Depot

variable {ρ : Type}

@[inline] def onShelf {α : Type} (f : Shelf → α × Shelf) : Act (Depot ρ) α := fun d =>
  match d with
  | ⟨shelf, arena⟩ =>
    let (r, shelf) := f shelf
    (.ok r, ⟨shelf, arena⟩)

@[inline] def onArena {α : Type} (f : Arena ρ → α × Arena ρ) : Act (Depot ρ) α := fun d =>
  match d with
  | ⟨shelf, arena⟩ =>
    let (r, arena) := f arena
    (.ok r, ⟨shelf, arena⟩)

@[inline] def modifyShelf (f : Shelf → Shelf) : Act (Depot ρ) Unit :=
  onShelf fun s => ((), f s)

@[inline] def modifyArena (f : Arena ρ → Arena ρ) : Act (Depot ρ) Unit :=
  onArena fun a => ((), f a)

def takeReady (r : Request) : Act (Depot ρ) (Option PageId) := fun d =>
  match d with
  | ⟨shelf, arena⟩ =>
    let (id, shelf) := shelf.takeReady fun id => arena.memory.hasRoom id r.cells
    (id, ⟨shelf, arena⟩)

/-- Takes the last unswept page and counts a sweep under way. -/
def takeUnswept : Act (Depot ρ) (Option PageId) := fun d =>
  match d with
  | ⟨shelf, arena⟩ =>
    match shelf.takeUnswept with
    | (none, shelf) => (.ok none, ⟨shelf, arena⟩)
    | (some id, shelf) => (.ok (some id), ⟨shelf, { arena with sweepers := arena.sweepers + 1 }⟩)

/-- Counts a sweep as over. -/
def endSweep : Act (Depot ρ) Unit :=
  modifyArena fun a => { a with sweepers := a.sweepers - 1 }

def sweepPage (policy : Policy ρ) (id : PageId) : Act (Depot ρ) (Bool × Tally) := fun d =>
  match d with
  | ⟨shelf, arena⟩ =>
    let (r, arena) := arena.sweepPage policy id
    (r, ⟨shelf, arena⟩)

def allocatedBytes (id : PageId) : Act (Depot ρ) Nat := do
  return (← get).arena.memory.allocatedBytes id

/-- Sweeps at most `left` unswept pages until one has room. -/
def sweepForRoom (policy : Policy ρ) (r : Request) (epoch : Int) :
    (left : Nat) → Act (Depot ρ) (Option PageId)
  | 0 => return none
  | left + 1 => do
    let some id ← takeUnswept | return none
    let (_, tally) ← sweepPage policy id
    match (← get).arena.memory.hasRoom id r.cells with
    | .error e =>
      modifyArena (·.reportSweep epoch .inline tally)
      throw e
    | .ok room =>
      let bytes ← allocatedBytes id
      let _ ← onArena (·.addBytes bytes)
      modifyArena (·.reportSweep epoch .inline tally)
      modifyShelf (·.addUsed id)
      endSweep
      if room then return some id
      else sweepForRoom policy r epoch left

/-- Maps a new page, which is used at once. -/
def newPage (r : Request) : Act (Depot ρ) PageId := fun d =>
  match d with
  | ⟨shelf, arena⟩ =>
    match arena.onMemory (Memory.map r) with
    | (.ok id, arena) => (.ok id, ⟨shelf.addUsed id, arena⟩)
    | (.error e, arena) => (.error e, ⟨shelf, arena⟩)

/-- Gives a used page with room for the request. -/
def getPage (policy : Policy ρ) (r : Request) (epoch : Int) : Act (Depot ρ) PageId := do
  if let some id ← takeReady r then return id
  let waiting := (← get).shelf.unswept.size
  if let some id ← sweepForRoom policy r epoch waiting then return id
  if let some id ← onShelf (·.takeEmpty) then return id
  newPage r

def prepare : Act (Depot ρ) Unit := fun d =>
  match d with
  | ⟨shelf, arena⟩ =>
    let (r, shelf) := shelf.prepare
    (r, ⟨shelf, arena⟩)

/-- Sweeps at most `left` unswept pages. -/
def sweepLeft (policy : Policy ρ) : (left : Nat) → Tally → Act (Depot ρ) Tally
  | 0, tally => return tally
  | left + 1, tally => do
    let some id ← takeUnswept | return tally
    let (empty, swept) ← sweepPage policy id
    let bytes ← allocatedBytes id
    if empty then modifyShelf (·.addEmpty id) else modifyShelf (·.addReady id)
    endSweep
    sweepLeft policy left ((tally.add swept).addLive bytes)

/-- Sweeps every unswept page; the pages without a block become empty, the others ready. -/
def sweep (policy : Policy ρ) (tally : Tally) : Act (Depot ρ) Tally := do
  sweepLeft policy (← get).shelf.unswept.size tally

/-- Sweeps at most `left` unswept pages, unmaps those without a block and counts them. -/
def sweepFreeing (policy : Policy ρ) : (left freed : Nat) → Tally → Act (Depot ρ) (Tally × Nat)
  | 0, freed, tally => return (tally, freed)
  | left + 1, freed, tally => do
    let some id ← takeUnswept | return (tally, freed)
    let (empty, swept) ← sweepPage policy id
    let tally := tally.add swept
    if empty then
      modifyArena (·.modifyMemory (·.unmap id))
      endSweep
      sweepFreeing policy left (freed + 1) tally
    else
      let bytes ← allocatedBytes id
      modifyShelf (·.addReady id)
      endSweep
      sweepFreeing policy left freed (tally.addLive bytes)

/-- Like `sweep`, but unmaps the pages without a block. -/
def sweepAndFree (policy : Policy ρ) (kind : PageKind) (tally : Tally) :
    Act (Depot ρ) Tally := do
  let (tally, freed) ← sweepFreeing policy (← get).shelf.unswept.size 0 tally
  if 0 < freed then modifyArena (·.report (.freed kind freed))
  return tally

def unmapAll (pages : Array PageId) : Act (Depot ρ) Unit :=
  modifyArena fun a => pages.foldl (fun a id => a.modifyMemory (·.unmap id)) a

/-- Unmaps the empty pages beyond the first `keep`, and says how many went. -/
def releaseEmpty (keep : Nat) : Act (Depot ρ) Nat := do
  let surplus ← onShelf (·.takeSurplus keep)
  unmapAll surplus
  return surplus.size

/-- Unmaps every page. -/
def clear : Act (Depot ρ) Unit := do
  let pages ← onShelf fun s => (s.pages, {})
  unmapAll pages

end Depot

end SweptHeap
