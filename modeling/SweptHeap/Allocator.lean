import SweptHeap.Heap.Basic

/-!
# Allocators

An allocator keeps one page of each block size, one tiled page and one page of records, and takes
blocks from them as long as the heap is in the same epoch. It counts the bytes it hands out and adds
them to the heap's meter when it needs another page; that addition may ask for a collection.
-/

namespace SweptHeap

structure Allocator where
  epoch : Nat
  /-- The cached uniform pages by block size. -/
  uniform : Array (Option PageId) := Array.replicate (largestUniform + 1) none
  tiled : Option PageId := none
  records : Option PageId := none
  /-- Bytes handed out since the last addition to the meter. -/
  localBytes : Nat := 0
  /-- Whether an addition crossed the target since someone last looked. -/
  requested : Bool := false

/-- An allocator at work on its heap. -/
structure Desk (ρ : Type) where
  heap : Heap ρ
  allocator : Allocator

namespace Allocator

variable {ρ : Type}

def new (h : Heap ρ) : Allocator := { epoch := h.epoch }

@[inline] def onHeap {α : Type} (act : Act (Heap ρ) α) : Act (Desk ρ) α := fun d =>
  match d with
  | ⟨heap, allocator⟩ =>
    let (r, heap) := act.apply heap
    (r, ⟨heap, allocator⟩)

@[inline] def modifySelf (f : Allocator → Allocator) : Act (Desk ρ) Unit := fun d =>
  match d with
  | ⟨heap, allocator⟩ => (.ok (), ⟨heap, f allocator⟩)

@[inline] def onMemory {α : Type} (f : Memory → Except Fault α × Memory) :
    Act (Desk ρ) α := fun d =>
  match d with
  | ⟨⟨⟨memory, memo, meter, sweepers, found⟩, uniform, tiled, large, records, pending, epoch⟩,
      allocator⟩ =>
    let (r, memory) := f memory
    (r, ⟨⟨⟨memory, memo, meter, sweepers, found⟩, uniform, tiled, large, records, pending, epoch⟩,
      allocator⟩)

/-- Passes on what the allocator's own sweeps found. -/
def flush : Act (Desk ρ) Unit := do
  let found ← onHeap Heap.takeFound
  onHeap (Heap.submit found)

/-- Adds the bytes handed out to the meter. -/
def commit : Act (Desk ρ) Unit := do
  let bytes := (← get).allocator.localBytes
  modifySelf fun a => { a with localBytes := 0 }
  let crossed ← onHeap (Heap.onArena (·.addBytes bytes))
  if crossed then modifySelf fun a => { a with requested := true }

/-- Gives up the cached pages if a cycle has begun. What was handed out from them is counted again
by the sweep if it survives. -/
def sync : Act (Desk ρ) Unit := do
  let epoch := (← get).heap.epoch
  if (← get).allocator.epoch ≠ epoch then
    modifySelf fun a => { epoch := epoch, requested := a.requested }
    flush

def addLocal (bytes : Nat) : Act (Desk ρ) Unit :=
  modifySelf fun a => { a with localBytes := a.localBytes + bytes }

/-- The cached page for a request. -/
def cached (r : Request) (a : Allocator) : Option PageId :=
  match r.kind with
  | .uniform => a.uniform.getD r.cells none
  | .tiled => a.tiled
  | .records => a.records
  | .large => none

def cache (r : Request) (id : PageId) (a : Allocator) : Allocator :=
  match r.kind with
  | .uniform => { a with uniform := a.uniform.setIfInBounds r.cells (some id) }
  | .tiled => { a with tiled := some id }
  | .records => { a with records := some id }
  | .large => a

/-- Gets a page for the request and takes what `take` takes from it, at most `attempts` times. -/
def refill (policy : Policy ρ) (r : Request)
    (take : PageId → Memory → Except Fault (Option BlockRef) × Memory) :
    (attempts : Nat) → Act (Desk ρ) BlockRef
  | 0 => throw .noRoom
  | attempts + 1 => do
    let id ← onHeap (Heap.getPage policy r)
    flush
    modifySelf (cache r id)
    match ← onMemory (take id) with
    | some b => return b
    | none => refill policy r take attempts

/-- Takes what `take` takes from the cached page for the request, if it has room. -/
def fromCache (r : Request) (take : PageId → Memory → Except Fault (Option BlockRef) × Memory) :
    Act (Desk ρ) (Option BlockRef) := do
  match cached r (← get).allocator with
  | none => return none
  | some id => onMemory (take id)

/-- A page that can be tried for every page there is, and one more. -/
def attempts : Act (Desk ρ) Nat := do return (← get).heap.arena.memory.pages.size + 2

/-- Takes a block of `cells` from a uniform or tiled page, which holds `bytes` with its header. -/
def allocateShared (policy : Policy ρ) (r : Request) (bytes : Nat) : Act (Desk ρ) BlockRef := do
  let take := fun id => Memory.allocate id r.cells
  match ← fromCache r take with
  | some b =>
    addLocal bytes
    return b
  | none =>
    commit
    let b ← refill policy r take (← attempts)
    addLocal bytes
    return b

/-- Maps a page for a block of `cells` and takes the block. -/
def allocateLarge (cells : Nat) : Act (Desk ρ) BlockRef := do
  let id ← onHeap (Heap.newLarge cells)
  match ← onMemory (Memory.allocate id cells) with
  | none => throw .noRoom
  | some b =>
    addLocal (cells * cellBytes)
    commit
    return b

/-- Allocates `bytes` of zeroed memory. -/
def allocate (policy : Policy ρ) (bytes : Nat) : Act (Desk ρ) BlockRef := do
  sync
  match SizeClass.ofBytes bytes with
  | .uniform cells => allocateShared policy ⟨.uniform, cells⟩ (cells * cellBytes)
  | .tiled cells => allocateShared policy ⟨.tiled, cells⟩ ((cells + 1) * cellBytes)
  | .large cells => allocateLarge cells

/-- Allocates an object with `payload` bytes of zeroed payload. -/
def createObject (policy : Policy ρ) (payload : Nat) : Act (Desk ρ) BlockRef := do
  let bytes ← objectBytes payload
  allocate policy bytes

/-- Allocates an array of `count` elements of `element` bytes each. -/
def createArray (policy : Policy ρ) (element count : Nat) : Act (Desk ρ) BlockRef := do
  let payload ← arrayPayload element count
  let array ← createObject policy payload
  onMemory fun m => (.ok (), m.setLength array count)
  return array

/-- Takes a record for `object`. -/
def allocateRecord (policy : Policy ρ) (object : BlockRef) (flags : Flags) :
    Act (Desk ρ) BlockRef := do
  let take := fun id => Memory.enroll id ⟨some object, flags⟩
  match ← fromCache .records take with
  | some r => return r
  | none => refill policy .records take (← attempts)

/-- Publishes a new record of `object`, unless another record was linked meanwhile: then the new one
is left to the sweep, and the other one gets its flags. -/
def publish (object record : BlockRef) (flags : Flags) (m : Memory) : BlockRef × Memory :=
  match m.link object record with
  | (none, m) => (record, m)
  | (some installed, m) => (installed, (m.modifyRecord record Record.detach).raise installed flags)

/-- Attaches a record to an object, or raises the flags of the one it has. -/
def createRecord (policy : Policy ρ) (object : BlockRef) (withFinalizer : Bool) :
    Act (Desk ρ) BlockRef := do
  let flags := Flags.initial withFinalizer
  match (← get).heap.arena.memory.recordOf object with
  | some record =>
    onMemory fun m => (.ok (), m.raise record flags)
    return record
  | none =>
    sync
    let record ← allocateRecord policy object flags
    onMemory fun m =>
      let (record, m) := publish object record flags m
      (.ok record, m)

/-- Whether the allocator's bytes crossed the target since the last time. -/
def takeRequest : Act (Desk ρ) Bool :=
  modifyGet fun d =>
    (d.allocator.requested, { d with allocator := { d.allocator with requested := false } })

/-- Ends the allocator. Its bytes count only if its pages are still its own. -/
def close : Act (Desk ρ) Unit := do
  if (← get).heap.epoch = (← get).allocator.epoch then commit
  flush

end Allocator

end SweptHeap
