import Mathlib
import SweptHeap.Proofs.EpochProtocol.Alone

/-!
# A collector at work

The state is a collector with the epoch protocol of its collections and with mutators that ask for
collections and wait for them. The collection of an epoch is taken apart into phases, so that
anything may come between two of them: other threads ask for collections, wait for the turn,
allocate, sweep or change modes. What others do to the heap and to the world is left open.

The diary says in which order requests were made and answered, and which parts of which collections
were carried out.

A thread that is not disturbed does what the collector does (`collectNow_alone`, `serve_alone`,
`request_alone`).
-/

namespace SweptHeap

/-- How far the collection of an epoch has got. -/
inductive CyclePhase where
  | stopping
  /-- Has requested a suspension, and waits until every thread is safe. -/
  | awaiting
  | preparing
  | marking
  | resuming
  | sweeping
  /-- Has swept, and found the blocks of `queue` to be finalized. -/
  | closing (queue : Handoff BlockRef)
  | done

inductive Entry where
  /-- Somebody asked for a collection and was given this epoch; a mutator that waits for it is
  named. -/
  | asked (mutator : Option Nat) (epoch : Int)
  | started (epoch : Int)
  | prepared (epoch : Int)
  | marked (epoch : Int)
  | swept (epoch : Int)
  | finished (epoch : Int)
  /-- The mutator has been served. -/
  | returned (mutator : Nat) (epoch : Int)
  deriving DecidableEq

/-- Where a mutator stands that has asked for a collection of its own. -/
inductive Errand where
  | idle
  /-- Has the epoch, and is to become native. -/
  | asked (epoch : Int) (withFinalizers : Bool)
  | waiting (epoch : Int) (withFinalizers : Bool)
  /-- Need not wait any more, and is to become runnable. -/
  | coming (epoch : Int)
  /-- Became runnable while a suspension was requested. -/
  | parked (epoch : Int)

namespace CyclePhase

variable {ρ : Type}

/-- What is done in a phase, and the phase that comes next. -/
def act (client : Client ρ) (epoch : Int) : CyclePhase → Act (Collector ρ) CyclePhase
  | .stopping => do
    match (← get).world.request .collection with
    | (true, w) =>
      modify fun c => { c with world := w }
      Collector.report (.stopRequested .collection)
      return .awaiting
    | (false, _) => return .stopping
  | .awaiting => do
    if (← get).world.allSafe then
      Collector.report .worldStopped
      return .preparing
    else return .awaiting
  | .preparing => do
    let census := (← get).heap.census
    Collector.report (.census epoch census)
    Collector.onHeap Heap.prepare
    return .marking
  | .marking => do
    Collector.onHeap (Heap.modifyArena (client.mark epoch))
    return .resuming
  | .resuming => do
    Collector.modifyWorld World.resume
    return .sweeping
  | .sweeping => do
    let queue ← Collector.sweep client.policy epoch
    return .closing queue
  | .closing queue => do
    Collector.onHeap (Heap.submit queue)
    let released ← Collector.onHeap (Heap.release (← get).settings.retainedEmptyPages)
    let bytes ← Collector.rearm
    modify fun c => { c with last := some ⟨epoch, queue.size, released, bytes⟩ }
    return .done
  | .done => return .done

/-- What the diary says at the end of a phase. -/
def notes (epoch : Int) : CyclePhase → List Entry
  | .preparing => [.prepared epoch]
  | .marking => [.marked epoch]
  | .sweeping => [.swept epoch]
  | _ => []

end CyclePhase

structure CollectorSystem (ρ : Type) where
  protocol : EpochProtocol
  settings : Settings
  heap : Heap ρ
  world : World
  isRunning : Bool
  last : Option CycleStats
  /-- Where the collection stands that is under way, if there is one. -/
  phase : CyclePhase := .done
  errand : Nat → Errand := fun _ => .idle
  diary : List Entry := []

namespace CollectorSystem

variable {ρ : Type}

/-- A collector before anybody does something. -/
def ofCollector (c : Collector ρ) : CollectorSystem ρ where
  protocol := .ofCollector c
  settings := c.settings
  heap := c.heap
  world := c.world
  isRunning := c.isRunning
  last := c.last

def collector (p : CollectorSystem ρ) : Collector ρ :=
  ⟨p.settings, p.heap, p.protocol.progress, p.world, p.isRunning, p.protocol.worker, p.last⟩

/-- Somebody does a deed, which is noted. -/
def note (d : Deed) (entries : List Entry) (p : CollectorSystem ρ) : CollectorSystem ρ :=
  match p.protocol.step d with
  | .ok protocol => { p with protocol := protocol, diary := p.diary ++ entries }
  | .error _ => p

/-- The thread that collects goes through a phase. -/
def collect (client : Client ρ) (epoch : Int) (p : CollectorSystem ρ) : CollectorSystem ρ :=
  match (p.phase.act client epoch).apply p.collector with
  | (.ok phase, c) =>
    { p with
      heap := c.heap
      world := c.world
      last := c.last
      phase := phase
      diary := p.diary ++ p.phase.notes epoch }
  | (.error _, _) => p

/-- A thread that collects goes on. -/
def proceed (client : Client ρ) (i : Nat) (p : CollectorSystem ρ) : CollectorSystem ρ :=
  match p.protocol.stage i with
  | .asking => p.note (.proceed i) [.asked none p.protocol.progress.schedule.1]
  | .starting epoch => { p.note (.proceed i) [.started epoch] with phase := .stopping }
  | .collecting epoch =>
    match p.phase with
    | .done => p.note (.proceed i) [.finished epoch]
    | _ => p.collect client epoch
  | _ => p.note (.proceed i) []

def setErrand (i : Nat) (errand : Errand) (p : CollectorSystem ρ) : CollectorSystem ρ :=
  { p with errand := Function.update p.errand i errand }

@[simp] theorem setErrand_self (i : Nat) (errand : Errand) (p : CollectorSystem ρ) :
    (p.setErrand i errand).errand i = errand := Function.update_self ..

theorem setErrand_of_ne {i j : Nat} (hji : j ≠ i) (errand : Errand) (p : CollectorSystem ρ) :
    (p.setErrand i errand).errand j = p.errand j := Function.update_of_ne hji ..

/-- The mutator is back with its answer. -/
def comeBack (i : Nat) (epoch : Int) (w : World) (p : CollectorSystem ρ) : CollectorSystem ρ :=
  { p.setErrand i .idle with world := w, diary := p.diary ++ [.returned i epoch] }

/-- A mutator asks for a collection, which it will wait for. -/
def request (i : Nat) (withFinalizers : Bool) (p : CollectorSystem ρ) : CollectorSystem ρ :=
  match p.errand i with
  | .idle =>
    (p.note .schedule [.asked (some i) p.protocol.progress.schedule.1]).setErrand i
      (.asked p.protocol.progress.schedule.1 withFinalizers)
  | _ => p

/-- A mutator that has asked for a collection goes on, if it need not wait. -/
def pursue (i : Nat) (p : CollectorSystem ρ) : CollectorSystem ρ :=
  match p.errand i with
  | .idle => p
  | .asked epoch withFinalizers =>
    { p.setErrand i (.waiting epoch withFinalizers) with world := (p.world.setMode i .native).2 }
  | .waiting epoch withFinalizers =>
    let wait := if withFinalizers then Progress.Wait.finalized epoch else .finished epoch
    if p.protocol.progress.isOver wait then p.setErrand i (.coming epoch) else p
  | .coming epoch =>
    let w := (p.world.setMode i .runnable).2
    if w.mustPark .runnable then { p.setErrand i (.parked epoch) with world := w.park i }
    else p.comeBack i epoch w
  | .parked epoch => if p.world.requested then p else p.comeBack i epoch (p.world.unpark i)

inductive Action (ρ : Type) where
  | protocol (d : Deed)
  | request (mutator : Nat) (withFinalizers : Bool)
  | pursue (mutator : Nat)
  /-- Somebody else does something to the heap. -/
  | work (f : Heap ρ → Heap ρ)
  /-- Threads come and go, change modes and park. -/
  | world (f : World → World)

def step (client : Client ρ) (p : CollectorSystem ρ) : Action ρ → CollectorSystem ρ
  | .protocol .schedule => p.note .schedule [.asked none p.protocol.progress.schedule.1]
  | .protocol (.proceed i) => p.proceed client i
  | .protocol d => p.note d []
  | .request i withFinalizers => p.request i withFinalizers
  | .pursue i => p.pursue i
  | .work f => { p with heap := f p.heap }
  | .world f => { p with world := f p.world }

def run (client : Client ρ) : List (Action ρ) → CollectorSystem ρ → CollectorSystem ρ
  | [], p => p
  | a :: as, p => run client as (p.step client a)

theorem run_append (client : Client ρ) (as bs : List (Action ρ)) (p : CollectorSystem ρ) :
    run client (as ++ bs) p = run client bs (run client as p) := by
  induction as generalizing p with
  | nil => rfl
  | cons a as ih => exact ih _

end CollectorSystem

end SweptHeap
