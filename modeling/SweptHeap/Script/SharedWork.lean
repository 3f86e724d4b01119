import Std.Data.HashSet
import SweptHeap.Script.CollectorScript
import SweptHeap.Script.ShelfScript

/-!
# Shared work

Work that several threads do on one shelf, heap or collector, and the totals that come out of it.
The totals are the same however the threads share the work, so here each thread does all of its work
at a stretch.
-/

namespace SweptHeap.Script

structure SharedWork where
  threads : Nat
  /-- Size of the blocks. -/
  bytes : Nat
  /-- Number of blocks, for each thread or for all. -/
  count : Nat

namespace SharedWork

/-- The work within the limits that it is done in. -/
def clamp (w : SharedWork) : SharedWork :=
  ⟨max 1 (min w.threads 8), max 16 (min w.bytes 1024), min w.count 20000⟩

def sorted (xs : Array Int) : Array Int := (xs.toList.mergeSort (· ≤ ·)).toArray

/-- The object that fills a block of the given size. -/
def order (w : SharedWork) : Order := .object (w.bytes - objectHeaderBytes)

/-! ## A shelf -/

structure ShelfTotals where
  seen : Array Int
  queued : Array Int
  tally : Tally
  counts : PageCount
  sweepers : Nat

/-- Takes `count` blocks from as many pages as it needs, at least one from each. -/
def fillShelf (cells : Nat) : (pages count : Nat) → ShelfScript → ShelfScript
  | 0, _, s => s
  | pages + 1, count, s =>
    if count = 0 then s
    else match s.step (.get cells (some ⟨.ok count, .ok (.block cells)⟩) 0) with
      | (.ok (.page _ _ (some t)), s) => fillShelf cells pages (count - t.places.size) s
      | (_, s) => s

/-- Fills a shelf of uniform pages and sweeps it. -/
def sweepShelf (fates : FateTable) (w : SharedWork) : ShelfTotals :=
  let s := fillShelf (cellsFor w.bytes) w.count w.count (.start .uniform (some fates) none)
  let s := (s.step .prepare).2
  let (r, s) := s.step (.sweep 0)
  let tally := match r with
    | .ok (.swept tally) => tally
    | _ => {}
  let log := (s.report true).1.log
  ⟨sorted log.visited, sorted log.queued, tally, s.counts, s.sweepers⟩

/-! ## A heap -/

private def perform (t : HeapScript.Step) (s : HeapScript) : HeapScript := (s.step t).2

/-- The numbers of the allocated blocks. -/
private def names (s : HeapScript) : Array Int :=
  sorted (s.heap.blocks.map fun b => (s.heap.arena.memo.name? b).getD 0)

structure ReuseTotals where
  fresh : Nat
  live : Nat
  /-- Whether the blocks are exactly the fresh ones. -/
  same : Bool
  unswept : Nat
  objectBytes : Nat
  pending : Nat

/-- As many objects as the work has, from one allocator. -/
private def orderFrom (w : SharedWork) (a : Nat) : HeapScript.Step :=
  .order (.ok a) w.order (.ok w.count)

/-- Fills a heap with objects, none of which is marked, and lets every thread allocate as many again
while the heap is swept. -/
def reuse (w : SharedWork) : ReuseTotals :=
  let s := (HeapScript.start true |> perform (w.orderFrom 0)) |> perform .prepare
  let s := (List.range w.threads).foldl (fun s thread =>
    (s |> perform .newAllocator) |> perform (w.orderFrom (thread + 1))) s
  let s := s |> perform (.sweep 0 false)
  let live := names s
  let fresh := (List.range (w.threads * w.count)).map fun i => ((w.count + i : Nat) : Int)
  let unswept := s.heap.counts.foldl (fun n c => n + c.unswept) 0
  ⟨fresh.length, live.size, live.toList = fresh, unswept, s.heap.census.objects.allocated,
    s.heap.pending.size⟩

structure RecordTotals where
  /-- Whether all threads got the same records. -/
  agree : Bool
  /-- Records with a finalizer and nothing else, attached to their owners. -/
  good : Nat
  records : Nat
  queued : Nat
  distinct : Nat

/-- The places of the records that a thread attaches to the first `count` objects. -/
private def attachAll (count thread : Nat) (s : HeapScript) : Array (Nat × Nat) × HeapScript :=
  match s.step (.attach (.ok thread) [.range 0 count 1] (thread = 1)) with
  | (.ok (.attached t), s) => (t.places, s)
  | (_, s) => (#[], s)

/-- Lets every thread attach records to the same objects, the first one with finalizers, and runs a
collection that keeps the objects. -/
def attachRecords (w : SharedWork) : RecordTotals :=
  let s := HeapScript.start true |> perform (w.orderFrom 0)
  let (places, s) := (List.range w.threads).foldl (fun (places, s) thread =>
    let (found, s) := attachAll w.count (thread + 1) (s |> perform .newAllocator)
    (places ++ [found], s)) ([], s)
  let s := (s |> perform (.mark [.range 0 w.count 1])) |> perform .prepare
  let s := s |> perform (.sweep 0 false)
  let views := s.heap.recordRefs.filterMap (viewRecord s.heap.arena)
  let first := places.headD #[]
  let isGood := fun (v : RecordView) => v.flags = .hasFinalizer && v.base = some v.owner
  ⟨places.all (· = first), (views.filter isGood).size, views.size, s.heap.pending.size,
    (Std.HashSet.ofArray first).size⟩

/-! ## A collector -/

structure CollectorTotals where
  roots : Nat
  live : Nat
  /-- Whether the blocks are exactly the roots. -/
  same : Bool
  finalizers : Nat
  records : Nat
  bytes : Nat
  /-- Uniform pages after the shutdown. -/
  after : Nat

/-- Which of a thread's objects are roots, and which have finalizers: every so many. -/
structure Spacing where
  roots : Nat
  finalizers : Nat

/-- A spacing of zero counts as one. -/
def Spacing.clamp (s : Spacing) : Spacing := ⟨max 1 s.roots, max 1 s.finalizers⟩

private def act (t : CollectorScript.Step) (s : CollectorScript) : CollectorScript := (s.step t).2

/-- Creates the `k`-th object of a thread. The thread reaches no safepoint before the object has its
record, so a collection that is due waits until then. -/
private def createOne (spacing : Spacing) (thread k : Nat) (s : CollectorScript) :
    CollectorScript :=
  match s.fillOne thread (.object (8 + k % 37 * 8)) (k % spacing.roots = 0) {} with
  | (.ok ⟨some id, _, _⟩, s) =>
    if k % spacing.finalizers = 0 then
      (s |> act (.attachRecords (.ok thread) [.one id] true)).serveIfOpen
    else s.serveIfOpen
  | (_, s) => s

private def createAll (spacing : Spacing) (thread : Nat) :
    (count k : Nat) → CollectorScript → CollectorScript
  | 0, _, s => s
  | count + 1, k, s => createAll spacing thread count (k + 1) (createOne spacing thread k s)

/-- One thread from its attachment to its end. -/
private def runThread (spacing : Spacing) (count thread : Nat) (s : CollectorScript) :
    CollectorScript :=
  createAll spacing thread count 0 (s |> act .attach) |> act (.detach thread)

/-- Lets every thread allocate with a running collector, and runs three more collections. -/
def collect (info : SettingsInfo) (spacing : Spacing) (w : SharedWork) :
    Except CollectorError CollectorTotals := do
  let settings ← (Settings.ofInfo info).mapError CollectorError.settings
  let spacing := spacing.clamp
  let s ← CollectorScript.begin settings
  let s := (List.range w.threads).foldl (fun s thread => runThread spacing w.count thread s)
    (s |> act .start)
  let last := w.threads
  let s := s |> act .attach
  let s := (List.range 3).foldl (fun s _ => s |> act (.collect last)) s
  let heap := s.collector.heap
  let live := sorted (heap.blocks.map fun b => (heap.arena.memo.name? b).getD 0)
  let roots := s.roots.toList.map fun (id : Nat) => (id : Int)
  let ran := heap.arena.memo.log.ran.size
  let records := heap.recordRefs.size
  let bytes := heap.allocatedBytes
  let s := (s |> act (.detach last)) |> act .shutDown
  return ⟨roots.length, live.size, live.toList = roots, ran, records, bytes,
    s.collector.heap.uniformCount.total⟩

end SharedWork

end SweptHeap.Script
