import SweptHeap.Finalizers
import SweptHeap.Progress
import SweptHeap.Script.HeapScript

/-!
# Scripts on finalizers

A script with a heap and a worker that runs its finalizers. The script hands objects over, moves the
epochs on and schedules them with the worker. Of several epochs scheduled together the worker gets
the first alone, and the others while it is busy with that one.
-/

namespace SweptHeap.Script

/-- The worker, which a fault ends before its time. -/
inductive WorkerState where
  | running (tasks : FinalizerTasks)
  | crashed
  | ended

namespace WorkerState

def isRunning : WorkerState → Bool
  | running _ => true
  | _ => false

def schedule (epoch : Int) : WorkerState → WorkerState
  | running tasks => running (tasks.schedule epoch)
  | w => w

end WorkerState

structure FinalizerScript where
  desk : Desk Ledger
  progress : Progress := {}
  worker : WorkerState := .running {}
  /-- Objects handed over since the worker last ran. -/
  pending : Nat := 0

namespace FinalizerScript

/-- Payload of every object. -/
def payload : Nat := 16

inductive Step where
  /-- An object, and a record with or without a finalizer. -/
  | object (withFinalizer : Option Bool)
  | push (sel : Selection)
  | advance
  | schedule (epochs : List Int)
  | stop

inductive Outcome where
  | done
  | object (id : Nat)
  | pending (count : Nat)
  | epoch (epoch : Int)
  | ran (names : Array Int) (alive : Bool)

abbrev Result := Except Failure Outcome × FinalizerScript

def start : FinalizerScript :=
  let heap := Heap.new {}
  { desk := ⟨heap, Allocator.new heap⟩ }

private def policy : Policy Ledger := Ledger.byMark

private def make (withFinalizer : Option Bool) (s : FinalizerScript) : Result :=
  match fillOrder policy (.object payload) 1 {} s.desk with
  | (.error e, desk) => (.error (.faulted e), { s with desk := desk })
  | (.ok t, desk) =>
    let id := t.first.getD 0
    match withFinalizer with
    | none => (.ok (.object id), { s with desk := desk })
    | some b =>
      match attach policy b [(id : Int)] {} desk with
      | (.error e, desk) => (.error e, { s with desk := desk })
      | (.ok _, desk) => (.ok (.object id), { s with desk := desk })

/-- The blocks with the given numbers, up to the first that is unknown. -/
def resolve (l : Ledger) : List Int → Handoff BlockRef → Bool × Handoff BlockRef
  | [], q => (true, q)
  | id :: rest, q =>
    match object? l id with
    | none => (false, q)
    | some e => resolve l rest (q.push e.ref)

/-- Hands objects over, all of them or none; those in front of an unknown number count as well. -/
private def handOver (sel : Selection) (s : FinalizerScript) : Result :=
  let (known, queue) := resolve s.desk.heap.arena.memo sel.toList {}
  let s := { s with pending := s.pending + queue.size }
  if known then
    let heap := ((Heap.submit queue).apply s.desk.heap).2
    (.ok (.pending s.pending), { s with desk := { s.desk with heap := heap } })
  else (.error (.refused .noHandle), s)

private def advance (s : FinalizerScript) : Result :=
  let (epoch, p) := s.progress.schedule
  match (do (← p.start epoch).finish epoch : Except Fault Progress) with
  | .error e => (.error (.faulted e), { s with progress := p })
  | .ok p => (.ok (.epoch epoch), { s with progress := p })

/-- One turn of the worker, which does not survive the report of an epoch that has not finished. -/
private def serve (s : FinalizerScript) : FinalizerScript :=
  match s.worker with
  | .running tasks =>
    match tasks.take with
    | (none, _) => s
    | (some epoch, tasks) =>
      let heap := ((Heap.finalizePending policy Ledger.noteRun).apply s.desk.heap).2
      let s :=
        { s with desk := { s.desk with heap := heap }, worker := .running tasks, pending := 0 }
      match s.progress.finalize epoch with
      | .ok p => { s with progress := p }
      | .error _ => { s with worker := .crashed }
  | _ => s

private def scheduleAll (epochs : List Int) (s : FinalizerScript) : FinalizerScript :=
  { s with worker := epochs.foldl (fun w e => w.schedule e) s.worker }

/-- Lets the worker serve the first epoch and then the others together. -/
private def serveAll (first : Int) (rest : List Int) (s : FinalizerScript) : FinalizerScript :=
  ((s.scheduleAll [first]).serve.scheduleAll rest).serve

private def outcome (s : FinalizerScript) : Outcome :=
  .ran s.desk.heap.arena.memo.log.ran s.worker.isRunning

/-- Ends the worker, and complains if it had crashed. -/
private def stop (s : FinalizerScript) : FinalizerScript :=
  let heap := match s.worker with
    | .crashed => ((Heap.modifyArena (·.report .finalizersCrashed)).apply s.desk.heap).2
    | _ => s.desk.heap
  { s with desk := { s.desk with heap := heap }, worker := .ended }

/-- The epoch that the worker reports last. -/
def lastReport (first : Int) : List Int → Int
  | [] => first
  | e :: rest => rest.foldl max e

def step (s : FinalizerScript) : Step → Result
  | .object withFinalizer => s.make withFinalizer
  | .push sel => s.handOver sel
  | .advance => s.advance
  | .schedule [] => (.error (.refused .badRequest), s)
  | .schedule (first :: rest) =>
    if !rest.isEmpty && (!s.worker.isRunning || s.pending = 0) then
      (.error (.refused .badRequest), s)
    else if !s.worker.isRunning then (.ok s.outcome, s)
    else if lastReport first rest = s.progress.finalized then
      (.error (.refused .unobservable), s)
    else
      let s := s.serveAll first rest
      (.ok s.outcome, s)
  | .stop => (.ok .done, s.stop)

/-- The flags of all records. -/
def records (s : FinalizerScript) : Array Flags :=
  let heap := s.desk.heap
  heap.recordRefs.filterMap fun r => (heap.arena.memory.record? r).map (·.flags)

/-- What happened in the last step. -/
def report (s : FinalizerScript) : Report × FinalizerScript :=
  let (report, arena) := takeReport true s.desk.heap.arena
  (report, { s with desk := { s.desk with heap := { s.desk.heap with arena := arena } } })

end FinalizerScript

end SweptHeap.Script
