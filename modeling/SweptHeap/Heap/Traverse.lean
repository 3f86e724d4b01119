import SweptHeap.Heap.Basic

/-!
# Traversals

What a heap holds, in the order of its shelves and of their lists.
-/

namespace SweptHeap.Heap

variable {ρ : Type}

/-- The pages of a shelf with their names. -/
def pagesOn (h : Heap ρ) (r : Request) : List (PageId × Page) :=
  (h.shelf r).pages.toList.filterMap fun id => (h.arena.memory.page? id).map (id, ·)

/-- The shelves with blocks. -/
def blockRequests : List Request := uniformRequests ++ [⟨.tiled, 0⟩, ⟨.large, 0⟩]

/-- The allocated blocks. -/
def blocks (h : Heap ρ) : Array BlockRef :=
  blockRequests.foldl (fun found r =>
    (h.pagesOn r).foldl (fun found (id, p) =>
      p.blocks.foldl (fun found index => found.push ⟨id, index⟩) found) found) #[]

/-- The allocated records. -/
def recordRefs (h : Heap ρ) : Array BlockRef :=
  (h.pagesOn .records).foldl (fun found (id, p) =>
    p.blocks.foldl (fun found slot => found.push ⟨id, slot⟩) found) #[]

/-- The uniform shelves are dumped in this many parts. -/
def partCount : Nat := 3

/-- First block size of each part, and the end of the last one. -/
def partBounds : List Nat :=
  let count := largestUniform + 1
  [0, count / 5, count * 9 / 20, count]

/-- The uniform pages of one part. -/
def pagesOfPart (h : Heap ρ) (part : Nat) : Except Fault (List (PageId × Page)) :=
  if part < partCount then
    let first := partBounds.getD part 0
    let stop := partBounds.getD (part + 1) 0
    .ok ((uniformRequests.drop first).take (stop - first) |>.flatMap h.pagesOn)
  else .error (.noPart part)

/-- All pages. -/
def pages (h : Heap ρ) : List (PageId × Page) := allRequests.flatMap h.pagesOn

private def occupancyOn (h : Heap ρ) (requests : List Request) : Occupancy :=
  requests.foldl (fun total r =>
    (h.pagesOn r).foldl (fun total (_, p) => total.add p.occupancy) total) {}

/-- Page counts of all the uniform shelves together. -/
def uniformCount (h : Heap ρ) : PageCount := h.uniform.foldl (fun total s => total.add s.count) {}

def census (h : Heap ρ) : Census where
  uniform := h.uniformCount
  tiled := h.tiled.count
  large := h.large.count
  records := h.records.count
  objects := h.occupancyOn blockRequests
  recordBytes := h.occupancyOn [.records]

/-- Page counts of the four kinds. -/
def counts (h : Heap ρ) : List PageCount :=
  [h.uniformCount, h.tiled.count, h.large.count, h.records.count]

/-- A line about the heap. -/
def summary (h : Heap ρ) : String :=
  s!"Heap \x7b allocated_bytes: {h.allocatedBytes}, page_epoch: {h.epoch}, .. \x7d"

end SweptHeap.Heap
