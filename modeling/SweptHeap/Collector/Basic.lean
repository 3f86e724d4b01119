import SweptHeap.Collector.Error
import SweptHeap.Finalizers
import SweptHeap.Heap.Cycle
import SweptHeap.Heap.Traverse
import SweptHeap.Progress
import SweptHeap.World

/-!
# Collectors

A collector owns a heap and runs its collections. A collection for an epoch stops the world, hands
all pages to the sweep and lets the client mark what it can reach, resumes the world, sweeps, and
sets the bytes at which the next collection is due. Its finalizers are left to the worker, if there
is one.

Anybody may run a collection at once. A collector that has been started also serves the epochs that
are scheduled, once it gets through the gate.
-/

namespace SweptHeap

/-- What the user of a collector supplies. -/
structure Client (ρ : Type) where
  policy : Policy ρ
  /-- Marks what is reachable, for the given epoch. -/
  mark : Int → Arena ρ → Arena ρ
  finalizer : Finalizer ρ

/-- What a collection did. -/
structure CycleStats where
  epoch : Int
  queuedFinalizers : Nat
  releasedPages : Nat
  /-- Bytes in use after the sweep. -/
  allocatedBytes : Nat
  deriving DecidableEq

structure Collector (ρ : Type) where
  settings : Settings
  heap : Heap ρ
  progress : Progress := {}
  world : World := {}
  /-- Whether the collector serves scheduled epochs. -/
  isRunning : Bool := false
  /-- The worker that runs finalizers. -/
  finalizers : Option FinalizerTasks := none
  last : Option CycleStats := none

namespace Collector

variable {ρ : Type}

def new (settings : Settings) (memo : ρ) : Except CollectorError (Collector ρ) :=
  match settings.validate with
  | .error e => .error (.settings e)
  | .ok _ =>
    let heap : Heap ρ := Heap.new memo
    let meter := heap.arena.meter.setTarget settings.triggerBytes
    .ok { settings := settings, heap := { heap with arena := { heap.arena with meter := meter } } }

@[inline] def onHeap {α : Type} (act : Act (Heap ρ) α) : Act (Collector ρ) α := fun c =>
  match c with
  | ⟨settings, heap, progress, world, isRunning, finalizers, last⟩ =>
    match act.apply heap with
    | (r, heap) => (r, ⟨settings, heap, progress, world, isRunning, finalizers, last⟩)

def report (e : Event) : Act (Collector ρ) Unit := onHeap (Heap.modifyArena (·.report e))

def modifyWorld (f : World → World) : Act (Collector ρ) Unit :=
  modify fun c => { c with world := f c.world }

/-- Moves the counters. -/
def advance (f : Progress → Except Fault Progress) : Act (Collector ρ) Unit := fun c =>
  match f c.progress with
  | .ok p => (.ok (), { c with progress := p })
  | .error e => (.error e, c)

/-- Asks for a collection and gives its epoch. -/
def schedule : Act (Collector ρ) Int :=
  modifyGet fun c =>
    let (epoch, p) := c.progress.schedule
    (epoch, { c with progress := p })

/-- Runs an operation while the world is stopped, which resumes also after a fault. -/
def whileStopped {α : Type} (reason : StopReason) (act : Act (Collector ρ) α) :
    Act (Collector ρ) α := fun c =>
  match c.world.stop? reason with
  | none => (.error .restless, c)
  | some w =>
    let stopped : Act (Collector ρ) α := do
      report (.stopRequested reason)
      report .worldStopped
      act
    match stopped.apply { c with world := w } with
    | (r, c) => (r, { c with world := c.world.resume })

/-- Hands all pages to the sweep and marks what is reachable. -/
def prepare (client : Client ρ) (epoch : Int) : Act (Collector ρ) Unit := do
  let census := (← get).heap.census
  report (.census epoch census)
  onHeap Heap.prepare
  onHeap (Heap.modifyArena (client.mark epoch))

/-- Lets helpers look for pages that the sweep has left. -/
def assist (policy : Policy ρ) (epoch : Int) :
    (helpers : Nat) → Handoff BlockRef → Act (Collector ρ) (Handoff BlockRef)
  | 0, queue => return queue
  | helpers + 1, queue => do
    let found ← onHeap (Heap.assist policy epoch)
    assist policy epoch helpers (queue.merge found)

/-- Sweeps all pages, and gives the blocks to finalize. -/
def sweep (policy : Policy ρ) (epoch : Int) : Act (Collector ρ) (Handoff BlockRef) := do
  let queue ← onHeap (Heap.sweep policy epoch)
  assist policy epoch (← get).settings.sweepAssistants queue

/-- Sets the bytes that ask for the next collection, and gives the bytes in use. -/
def rearm : Act (Collector ρ) Nat := do
  let bytes := (← get).heap.allocatedBytes
  let target := (← get).settings.nextTrigger bytes
  onHeap (Heap.modifyArena fun a => { a with meter := a.meter.setTarget target })
  return bytes

/-- One collection. -/
def cycle (client : Client ρ) (epoch : Int) : Act (Collector ρ) CycleStats := do
  whileStopped .collection (prepare client epoch)
  let queue ← sweep client.policy epoch
  let queued := queue.size
  onHeap (Heap.submit queue)
  let released ← onHeap (Heap.release (← get).settings.retainedEmptyPages)
  let bytes ← rearm
  let stats : CycleStats := ⟨epoch, queued, released, bytes⟩
  modify fun c => { c with last := some stats }
  return stats

/-- Leaves the finalizers of an epoch to the worker. Without a worker they are not run, and nobody
waits for them. -/
def handOver (epoch : Int) : Act (Collector ρ) Unit := do
  match (← get).finalizers with
  | some tasks => modify fun c => { c with finalizers := some (tasks.schedule epoch) }
  | none => advance (·.finalize epoch)

/-- Starts, runs and finishes the collection of an epoch. -/
def collect (client : Client ρ) (epoch : Int) : Act (Collector ρ) CycleStats := do
  advance (·.start epoch)
  let stats ← cycle client epoch
  advance (·.finish epoch)
  handOver epoch
  return stats

/-- Schedules a collection and runs it at once. -/
def collectNow (client : Client ρ) : Act (Collector ρ) CycleStats := do
  let epoch ← schedule
  collect client epoch

/-- Whether the collector would run a collection when it gets through the gate. -/
def isDue (c : Collector ρ) : Bool := c.isRunning && c.progress.isPending && !c.progress.isShutDown

/-- Runs the collection that is due. -/
def serve (client : Client ρ) : Act (Collector ρ) Unit := do
  if (← get).isDue then
    let _ ← collect client (← get).progress.scheduled

/-- Lets the worker serve the epoch it has. -/
def serveFinalizers (client : Client ρ) : Act (Collector ρ) Unit := do
  match (← get).finalizers.map FinalizerTasks.take with
  | some (some epoch, tasks) =>
    modify fun c => { c with finalizers := some tasks }
    let _ ← onHeap (Heap.finalizePending client.policy client.finalizer)
    advance (·.finalize epoch)
  | _ => return ()

/-- Starts the collector and the worker. -/
def start (c : Collector ρ) : Except CollectorError (Collector ρ) :=
  if c.isRunning then .error .alreadyStarted
  else .ok ((report .collectorStarted).apply { c with isRunning := true, finalizers := some {} }).2

/-- Ends the collector and its worker, and every wait. Without threads the heap is cleared too. -/
def shutDown (client : Client ρ) : Act (Collector ρ) Unit := do
  modify fun c => { c with progress := c.progress.shutDown, isRunning := false }
  serveFinalizers client
  modify fun c => { c with finalizers := none }
  let threads := (← get).world.threadCount
  if threads = 0 then onHeap Heap.clear else report (.heapKept threads)
  report .shutDown

end Collector

end SweptHeap
