import SweptHeap.Collector.Mutator
import SweptHeap.Script.HeapScript

/-!
# Scripts on a collector

A script with any number of mutators on one collector. Its roots are what the marker marks. As soon
as a collection is due and the gate is open, the collector and the worker serve it, before the
script allocates again; the events of those two are not the script's own.
-/

namespace SweptHeap.Script

/-- The numbers of the objects that are roots. -/
structure Roots where
  flags : Array Bool := #[]
  count : Nat := 0

namespace Roots

def contains (r : Roots) (id : Nat) : Bool := r.flags.getD id false

def insert (id : Nat) (r : Roots) : Roots :=
  if r.contains id then r
  else
    let flags := r.flags ++ Array.replicate (id + 1 - r.flags.size) false
    ⟨flags.setIfInBounds id true, r.count + 1⟩

def erase (id : Nat) (r : Roots) : Roots :=
  if r.contains id then ⟨r.flags.setIfInBounds id false, r.count - 1⟩ else r

def toList (r : Roots) : List Nat := (List.range r.flags.size).filter r.contains

end Roots

/-- Marks the roots. -/
def markRoots (roots : Roots) (a : Arena Ledger) : Arena Ledger :=
  roots.toList.foldl (fun a id =>
    match a.memo.entries[id]? with
    | none => a
    | some e => a.modifyMemory fun m => (m.mark e.ref).2) a

structure CollectorScript where
  collector : Collector Ledger
  mutators : Array (Option Mutator) := #[]
  roots : Roots := {}

namespace CollectorScript

inductive Step where
  | attach
  | detach (m : Nat)
  | order (m : Arg Nat) (o : Order) (count : Arg Nat) (root : Bool)
  | attachRecords (m : Arg Nat) (sel : Selection) (withFinalizer : Bool)
  | root (sel : Selection)
  | unroot (sel : Selection)
  | collectNow (m : Option Nat)
  /-- Schedules a collection and waits for it. -/
  | collect (m : Nat)
  | start
  | shutDown
  | schedule
  | closeGate
  | openGate
  | poll (m : Nat)
  | native (m : Nat)
  | blocks
  | records
  | extract
  | settings
  | touch (t : Touch)

inductive Outcome where
  | done
  | mutator (m thread : Nat)
  | taken (t : Taken) (count : Nat)
  | attached (t : Attached)
  | roots (count skipped : Nat)
  | cycle (stats : CycleStats)
  | epoch (epoch : Int)
  | modes (before after : ThreadMode)
  | blocks (names : Array Int)
  | records (records : Array (Int × Flags))
  | extracted (names : Array Int)
  | settings (settings : Settings)
  | touched (t : Touched)

abbrev Result := Except Failure Outcome × CollectorScript

def begin (settings : Settings) : Except CollectorError CollectorScript :=
  (Collector.new settings {}).map fun c => { collector := c }

private def policy : Policy Ledger := Ledger.byMark

private def client (roots : Roots) : Client Ledger where
  policy := policy
  mark _ a := markRoots roots a
  finalizer := Ledger.noteRun

private def fail (s : CollectorScript) (why : Refusal) : Result := (.error (.refused why), s)

def mutator? (s : CollectorScript) (m : Nat) : Option Mutator := s.mutators.getD m none

/-- Lets the collector work. -/
@[inline] private def onCollector (act : Act (Collector Ledger) Outcome) (s : CollectorScript) :
    Result :=
  match s with
  | ⟨collector, mutators, roots⟩ =>
    match act.apply collector with
    | (.ok r, collector) => (.ok r, ⟨collector, mutators, roots⟩)
    | (.error e, collector) => (.error (.faulted e), ⟨collector, mutators, roots⟩)

@[inline] private def onHeap (act : Act (Heap Ledger) Outcome) (s : CollectorScript) : Result :=
  onCollector (Collector.onHeap act) s

/-- Lets a mutator work. -/
@[inline] private def inSession (m : Nat)
    (f : Session Ledger → Except Failure Outcome × Session Ledger) (s : CollectorScript) : Result :=
  match s with
  | ⟨collector, mutators, roots⟩ =>
    match mutators.getD m none with
    | none => (.error (.refused .noMutator), ⟨collector, mutators, roots⟩)
    | some mutator =>
      let mutators := mutators.setIfInBounds m none
      match f ⟨collector, mutator⟩ with
      | (r, ⟨collector, mutator⟩) =>
        (r, ⟨collector, mutators.setIfInBounds m (some mutator), roots⟩)

/-- The threads of the mutators. -/
private def threads (s : CollectorScript) : List Nat :=
  s.mutators.toList.filterMap (·.map Mutator.thread)

/-- Runs an operation while all mutators are native. -/
private def atRest {α : Type} (act : Act (Collector Ledger) α) (s : CollectorScript) :
    Except Fault α × CollectorScript :=
  let threads := s.threads
  let setAll := fun (mode : ThreadMode) (c : Collector Ledger) =>
    { c with world := threads.foldl (fun w t => (w.setMode t mode).2) c.world }
  match s with
  | ⟨collector, mutators, roots⟩ =>
    match act.apply (setAll .native collector) with
    | (r, collector) => (r, ⟨setAll .runnable collector, mutators, roots⟩)

/-- Runs an operation whose events are someone else's. -/
private def unheard {α : Type} (act : Act (Collector Ledger) α) : Act (Collector Ledger) α :=
  fun c =>
    let journal := c.heap.arena.memory.journal
    match act.apply c with
    | (r, c) =>
      let restore : Act (Heap Ledger) Unit :=
        Heap.modifyMemory fun m => { m with journal := journal }
      (r, ((Collector.onHeap restore).apply c).2)

/-- Lets the collector and the worker serve what is due. -/
private def serve (s : CollectorScript) : CollectorScript :=
  let client := client s.roots
  let act : Act (Collector Ledger) Unit := do
    Collector.serve client
    Collector.serveFinalizers client
  (atRest (unheard act) s).2

/-- The same, unless the gate is closed. -/
def serveIfOpen (s : CollectorScript) : CollectorScript :=
  if s.collector.isDue && s.collector.progress.passesGate then s.serve else s

private def makeFor (o : Order) : Act (Session Ledger) BlockRef :=
  match o with
  | .raw bytes => Mutator.allocate policy bytes
  | .object payload => Mutator.createObject policy payload
  | .array element count => Mutator.createArray policy element count

/-- Fills an order once and makes the object a root if asked to. -/
def fillOne (m : Nat) (o : Order) (root : Bool) (t : Taken) (s : CollectorScript) :
    Except Failure Taken × CollectorScript :=
  match s with
  | ⟨collector, mutators, roots⟩ =>
    match mutators.getD m none with
    | none => (.error (.refused .noMutator), ⟨collector, mutators, roots⟩)
    | some mutator =>
      let mutators := mutators.setIfInBounds m none
      match (makeFor o).apply ⟨collector, mutator⟩ with
      | (.error e, ⟨collector, mutator⟩) =>
        (.error (.faulted e), ⟨collector, mutators.setIfInBounds m (some mutator), roots⟩)
      | (.ok ref, ⟨⟨settings, heap, progress, world, isRunning, finalizers, last⟩, mutator⟩) =>
        match heap with
        | ⟨arena, uniform, tiled, large, records, pending, epoch⟩ =>
          let (t, arena) := enterBlock ref o.cells o.shape t arena
          let id := arena.memo.entries.size - 1
          let roots := if root && o.shape.isObject then roots.insert id else roots
          (.ok t, ⟨⟨settings, ⟨arena, uniform, tiled, large, records, pending, epoch⟩, progress,
            world, isRunning, finalizers, last⟩, mutators.setIfInBounds m (some mutator), roots⟩)

/-- Fills an order so many times, and lets the collector serve in between. -/
private def fillAll (m : Nat) (o : Order) (root : Bool) :
    (count : Nat) → Taken → CollectorScript → Except Failure Taken × CollectorScript
  | 0, t, s => (.ok t, s)
  | count + 1, t, s =>
    match fillOne m o root t s with
    | (.error e, s) => (.error e, s)
    | (.ok t, s) => fillAll m o root count t s.serveIfOpen

/-- Fills an order. The size of the block is looked at first, and the mutator only to make one. -/
private def placeOrder (m : Arg Nat) (o : Order) (count : Arg Nat) (root : Bool)
    (s : CollectorScript) : Result :=
  if o.isTooLarge then s.fail .tooLarge
  else if o.isTooSmall then s.fail .tooSmall
  else match count, m with
    | .error e, _ => (.error e, s)
    | .ok 0, _ => (.ok (.taken {} 0), s)
    | .ok _, .error e => (.error e, s)
    | .ok count, .ok m =>
      match fillAll m o root count {} s with
      | (.error e, s) => (.error e, s)
      | (.ok t, s) => (.ok (.taken t count), s)

private def attachRecords (m : Arg Nat) (sel : Selection) (withFinalizer : Bool)
    (s : CollectorScript) : Result :=
  let ids := sel.toList
  match needsAllocator s.collector.heap.arena ids, m with
  | .error e, _ => (.error e, s)
  | .ok false, _ => (.ok (.attached { skipped := ids.length }), s)
  | .ok true, .error e => (.error e, s)
  | .ok true, .ok m =>
    s.inSession m fun session =>
      match session with
      | ⟨⟨settings, heap, progress, world, isRunning, finalizers, last⟩, ⟨thread, allocator⟩⟩ =>
        match Script.attach policy withFinalizer ids {} ⟨heap, allocator⟩ with
        | (r, ⟨heap, allocator⟩) =>
          (r.map .attached, ⟨⟨settings, heap, progress, world, isRunning, finalizers, last⟩,
            ⟨thread, allocator⟩⟩)

/-- Changes the roots among the selected objects, and counts the selected numbers without one. -/
private def changeRoots (f : Nat → Roots → Roots) (sel : Selection) (s : CollectorScript) :
    Result :=
  match s with
  | ⟨collector, mutators, roots⟩ =>
    let (roots, skipped) := sel.toList.foldl (fun (roots, skipped) id =>
      match object? collector.heap.arena.memo id with
      | none => (roots, skipped + 1)
      | some _ => (f id.toNat roots, skipped)) (roots, 0)
    (.ok (.roots roots.count skipped), ⟨collector, mutators, roots⟩)

/-- Runs a collection at once, and its finalizers. -/
private def collectNow (s : CollectorScript) : Result :=
  let client := client s.roots
  match atRest (Collector.collectNow client) s with
  | (.error e, s) => (.error (.faulted e), s)
  | (.ok stats, s) =>
    (.ok (.cycle stats), (atRest (unheard (Collector.serveFinalizers client)) s).2)

/-- Schedules a collection and waits for it, however long the gate is closed. -/
private def collect (s : CollectorScript) : Result :=
  let (r, s) := s.onCollector do return .epoch (← Collector.schedule)
  (r, s.serve)

private def shutDown (s : CollectorScript) : Result :=
  let client := client s.roots
  let (r, s) := s.onCollector do
    Collector.shutDown client
    if (← get).world.threadCount = 0 then
      Collector.onHeap (Heap.modifyArena fun a => { a with memo := a.memo.strikeAll })
    return .done
  if s.collector.world.threadCount = 0 then (r, { s with roots := {} }) else (r, s)

private def recordViews (s : CollectorScript) : Array (Int × Flags) :=
  let heap := s.collector.heap
  let views := heap.recordRefs.filterMap (viewRecord heap.arena)
  let pairs := views.toList.map fun v => (v.owner, v.flags)
  (pairs.mergeSort fun a b => a.1 ≤ b.1).toArray

def step (s : CollectorScript) : Step → Result
  | .attach =>
    match s with
    | ⟨collector, mutators, roots⟩ =>
      match Mutator.attach.apply collector with
      | (.error e, collector) => (.error (.faulted e), ⟨collector, mutators, roots⟩)
      | (.ok m, collector) =>
        (.ok (.mutator mutators.size m.thread), ⟨collector, mutators.push (some m), roots⟩)
  | .detach m =>
    let (r, s) := s.inSession m fun session => (.ok .done, (Mutator.detach.apply session).2)
    (r, { s with mutators := s.mutators.setIfInBounds m none })
  | .order m o count root => s.placeOrder m o count root
  | .attachRecords m sel withFinalizer => s.attachRecords m sel withFinalizer
  | .root sel => s.changeRoots Roots.insert sel
  | .unroot sel => s.changeRoots Roots.erase sel
  | .collectNow none => s.collectNow
  | .collectNow (some m) => if (s.mutator? m).isSome then s.collectNow else s.fail .noMutator
  | .collect m =>
    if (s.mutator? m).isNone then s.fail .noMutator
    else if !s.collector.isRunning && !s.collector.progress.isShutDown then s.fail .notStarted
    else s.collect
  | .start =>
    match s.collector.start with
    | .error e => (.error (.failed e), s)
    | .ok c => (.ok .done, serveIfOpen { s with collector := c })
  | .shutDown => s.shutDown
  | .schedule =>
    let (r, s) := s.onCollector do return .epoch (← Collector.schedule)
    (r, s.serveIfOpen)
  | .closeGate =>
    s.onCollector do
      modify fun c => { c with progress := c.progress.closeGate }
      Collector.report .gateClosed
      return .done
  | .openGate =>
    let (r, s) := s.onCollector do
      modify fun c => { c with progress := c.progress.openGate }
      Collector.report .gateOpened
      return .done
    (r, s.serveIfOpen)
  | .poll m => if (s.mutator? m).isSome then (.ok .done, s) else s.fail .noMutator
  | .native m =>
    s.inSession m fun session =>
      let mode := fun (session : Session Ledger) =>
        (session.collector.world.node? session.mutator.thread).elim .native ThreadNode.mode
      let before := mode session
      let session := ((Mutator.inNative (pure ())).apply session).2
      (.ok (.modes before (mode session)), session)
  | .blocks =>
    let heap := s.collector.heap
    let names := heap.blocks.map fun b => (heap.arena.memo.name? b).getD 0
    (.ok (.blocks (names.toList.mergeSort (· ≤ ·)).toArray), s)
  | .records => (.ok (.records s.recordViews), s)
  | .extract =>
    s.onHeap do
      let queue ← Heap.extract
      let ledger := (← get).arena.memo
      return .extracted (queue.items.map fun b => (ledger.name? b).getD 0)
  | .settings => (.ok (.settings s.collector.settings), s)
  | .touch t =>
    match s with
    | ⟨⟨settings, ⟨arena, uniform, tiled, large, records, pending, epoch⟩,
        progress, world, isRunning, finalizers, last⟩, mutators, roots⟩ =>
      let (r, arena) := Script.touch true t arena
      (r.map .touched,
        ⟨⟨settings, ⟨arena, uniform, tiled, large, records, pending, epoch⟩, progress,
        world, isRunning, finalizers, last⟩, mutators, roots⟩)

/-- What happened in the last step. -/
def report (s : CollectorScript) : Report × CollectorScript :=
  match s with
  | ⟨⟨settings, ⟨arena, uniform, tiled, large, records, pending, epoch⟩, progress, world, isRunning,
      finalizers, last⟩, mutators, roots⟩ =>
    let (report, arena) := takeReport true arena
    (report, ⟨⟨settings, ⟨arena, uniform, tiled, large, records, pending, epoch⟩, progress, world,
      isRunning, finalizers, last⟩, mutators, roots⟩)

end CollectorScript

end SweptHeap.Script
