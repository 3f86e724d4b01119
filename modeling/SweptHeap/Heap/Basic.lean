import SweptHeap.Shelf.Depot

/-!
# The heap

A heap has a shelf for every block size of uniform pages and one shelf for each other kind. Its
epoch counts the collections that began; a page given to an allocator before that is no longer the
allocator's.
-/

namespace SweptHeap

structure Heap (ρ : Type) where
  arena : Arena ρ
  /-- By block size; there are no blocks of size zero. -/
  uniform : Array Shelf := Array.replicate (largestUniform + 1) {}
  tiled : Shelf := {}
  large : Shelf := {}
  records : Shelf := {}
  /-- Blocks whose finalizers are due. -/
  pending : Handoff BlockRef := {}
  epoch : Nat := 0

namespace Heap

variable {ρ : Type}

def new (memo : ρ) : Heap ρ := { arena := { memo := memo } }

def allocatedBytes (h : Heap ρ) : Nat := h.arena.meter.allocated

/-- The shelf that a request is served from. -/
def shelf (h : Heap ρ) (r : Request) : Shelf :=
  match r.kind with
  | .uniform => h.uniform.getD r.cells {}
  | .tiled => h.tiled
  | .large => h.large
  | .records => h.records

/-- The shelves of uniform pages, by ascending block size. -/
def uniformRequests : List Request := (List.range (largestUniform + 1)).map (⟨.uniform, ·⟩)

/-- All shelves, in the order in which a collection takes them. -/
def allRequests : List Request := uniformRequests ++ [⟨.tiled, 0⟩, ⟨.large, 0⟩, ⟨.records, 0⟩]

/-- Lets an operation work on the shelf of a request. -/
@[inline] def atShelf {α : Type} (r : Request) (act : Act (Depot ρ) α) : Act (Heap ρ) α := fun h =>
  match h with
  | ⟨arena, uniform, tiled, large, records, pending, epoch⟩ =>
    match r.kind with
    | .uniform =>
      match act.apply ⟨uniform.getD r.cells {}, arena⟩ with
      | (result, ⟨shelf, arena⟩) =>
        (result,
          ⟨arena, uniform.setIfInBounds r.cells shelf, tiled, large, records, pending, epoch⟩)
    | .tiled =>
      match act.apply ⟨tiled, arena⟩ with
      | (result, ⟨tiled, arena⟩) =>
        (result, ⟨arena, uniform, tiled, large, records, pending, epoch⟩)
    | .large =>
      match act.apply ⟨large, arena⟩ with
      | (result, ⟨large, arena⟩) =>
        (result, ⟨arena, uniform, tiled, large, records, pending, epoch⟩)
    | .records =>
      match act.apply ⟨records, arena⟩ with
      | (result, ⟨records, arena⟩) =>
        (result, ⟨arena, uniform, tiled, large, records, pending, epoch⟩)

@[inline] def onArena {α : Type} (f : Arena ρ → α × Arena ρ) : Act (Heap ρ) α := fun h =>
  match h with
  | ⟨arena, uniform, tiled, large, records, pending, epoch⟩ =>
    let (r, arena) := f arena
    (.ok r, ⟨arena, uniform, tiled, large, records, pending, epoch⟩)

@[inline] def modifyArena (f : Arena ρ → Arena ρ) : Act (Heap ρ) Unit :=
  onArena fun a => ((), f a)

@[inline] def onMemory {α : Type} (f : Memory → α × Memory) : Act (Heap ρ) α :=
  onArena (·.onMemory f)

@[inline] def modifyMemory (f : Memory → Memory) : Act (Heap ρ) Unit :=
  modifyArena (·.modifyMemory f)

/-- Adds a handoff to the finalizers due. -/
def submit (q : Handoff BlockRef) : Act (Heap ρ) Unit :=
  modify fun h => if q.isEmpty then h else { h with pending := h.pending.merge q }

/-- Takes all the finalizers due. -/
def extract : Act (Heap ρ) (Handoff BlockRef) :=
  modifyGet fun h => (h.pending, { h with pending := {} })

/-- Takes what sweeps have set aside. -/
def takeFound : Act (Heap ρ) (Handoff BlockRef) := onArena (·.takeFound)

/-- Gives a page with room for `cells` in a block of a uniform or tiled page, or a page with a free
slot. -/
def getPage (policy : Policy ρ) (r : Request) : Act (Heap ρ) PageId := do
  if r.kind = .uniform ∧ ¬(0 < r.cells ∧ r.cells ≤ largestUniform) then throw .uniformRequest
  let epoch := (← get).epoch
  atShelf r (Depot.getPage policy r epoch)

/-- Maps a page for one large block. -/
def newLarge (cells : Nat) : Act (Heap ρ) PageId :=
  atShelf ⟨.large, cells⟩ (Depot.newPage ⟨.large, cells⟩)

end Heap

end SweptHeap
