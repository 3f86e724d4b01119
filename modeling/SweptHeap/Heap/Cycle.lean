import SweptHeap.Heap.Basic

/-!
# Collection cycles

A cycle begins by handing every page to the sweep. Allocators may sweep pages for themselves from
then on. The sweep proper takes what they leave, first the objects, then the records.
-/

namespace SweptHeap.Heap

variable {ρ : Type}

/-- Begins a cycle. No page may be left over from the last one. -/
def prepare : Act (Heap ρ) Unit := do
  modify fun h => { h with epoch := h.epoch + 1 }
  allRequests.forM fun r => atShelf r Depot.prepare
  modifyArena fun a => { a with meter := a.meter.reset }
  let epoch := (← get).epoch
  modifyArena (·.report (.prepared epoch))

/-- Sweeps the shelves of the requests one after the other. -/
def sweepShelves (policy : Policy ρ) : List Request → Tally → Act (Heap ρ) Tally
  | [], tally => return tally
  | r :: rest, tally => do
    let tally ← atShelf r (Depot.sweep policy tally)
    sweepShelves policy rest tally

/-- Sweeps all pages that are left, and gives the blocks to finalize. -/
def sweep (policy : Policy ρ) (epoch : Int) : Act (Heap ρ) (Handoff BlockRef) := do
  let tally ← sweepShelves policy (uniformRequests ++ [⟨.tiled, 0⟩]) {}
  let tally ← atShelf ⟨.large, 0⟩ (Depot.sweepAndFree policy .large tally)
  let _ ← onArena (·.addBytes tally.liveBytes)
  modifyArena (·.reportSweep epoch .objects tally)
  let tally ← atShelf ⟨.records, 0⟩ (Depot.sweep policy {})
  modifyArena (·.reportSweep epoch .records tally)
  takeFound

/-- Helps a sweep with the uniform pages, the largest blocks first. -/
def assist (policy : Policy ρ) (epoch : Int) : Act (Heap ρ) (Handoff BlockRef) := do
  let tally ← sweepShelves policy uniformRequests.reverse {}
  let _ ← onArena (·.addBytes tally.liveBytes)
  modifyArena (·.reportSweep epoch .assist tally)
  takeFound

/-- The shelves that keep empty pages. -/
def retainingRequests : List Request := uniformRequests ++ [⟨.tiled, 0⟩, ⟨.records, 0⟩]

/-- Unmaps the empty pages of each shelf beyond the first `keep`. -/
def release (keep : Nat) : Act (Heap ρ) Nat := do
  let counts ← retainingRequests.mapM fun r => atShelf r (Depot.releaseEmpty keep)
  let released := counts.foldl (· + ·) 0
  if 0 < released then modifyArena (·.report (.released released))
  return released

/-- Unmaps every page and forgets the finalizers due. -/
def clear : Act (Heap ρ) Unit := do
  allRequests.forM fun r => atShelf r Depot.clear
  modify fun h => { h with pending := {} }
  modifyArena fun a => { a with meter := a.meter.reset }

end SweptHeap.Heap
