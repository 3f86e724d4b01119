import SweptHeap.Stress.Help
import SweptHeap.Stress.Load

/-!
# The summary of the stress test

After the load the roots are dropped, and one more collection with its finalizers leaves what the
summary reports.
-/

namespace SweptHeap.Stress

structure Summary where
  threads : Nat
  objects : Nat
  /-- Epoch of the last collection. -/
  epoch : Int
  pauses : Nat
  last : Option CycleStats
  finalizersRun : Nat
  census : Census

/-- How long everything took, and how long the last collection, in nanoseconds. -/
structure Timing where
  elapsed : Nat
  collecting : Nat

namespace Summary

/-- The statistics of a collection, with its pause and duration if they were taken. -/
def cycleText (timing : Option Timing) (c : CycleStats) : String :=
  let spans := timing.elim "" fun t =>
    "pause: " ++ spanText t.collecting ++ ", duration: " ++ spanText t.collecting ++ ", "
  s!"CycleStats \x7b epoch: {c.epoch}, " ++ spans ++
    s!"queued_finalizers: {c.queuedFinalizers}, released_pages: {c.releasedPages}, " ++
    s!"allocated_bytes: {c.allocatedBytes} \x7d"

/-- The lines of the summary, with durations if they were taken. -/
def lines (timing : Option Timing) (s : Summary) : List String :=
  let elapsed := timing.elim "" fun t => " in " ++ spanText t.elapsed
  let pauses := timing.elim "" fun t =>
    ", total pause " ++ spanText t.collecting ++ ", max pause " ++ spanText t.collecting
  [s!"{s.threads} threads x {s.objects} objects" ++ elapsed,
    s!"{s.epoch} collections, {s.pauses} pauses" ++ pauses] ++
    (s.last.elim [] fun c => ["last cycle: " ++ cycleText timing c]) ++
    [s!"{s.finalizersRun} finalizers run"] ++ s.census.lines

end Summary

/-- Why the stress test does not run, or does not end well. -/
inductive Refusal where
  | usage
  | invalidRange
  | collector (e : CollectorError)
  | tooManyThreads
  | fault (e : Fault)

namespace Refusal

/-- The lines of the complaint. A failure of the program itself is set off by an empty line. -/
def lines : Refusal → List String
  | usage => ["usage"]
  | invalidRange => ["invalid size range or survival ratio"]
  | collector e => ["Error: " ++ e.message]
  | tooManyThreads => ["", "capacity overflow"]
  | fault e => ["", e.message, "mutator thread panicked"]

def exitCode : Refusal → Nat
  | usage | invalidRange => 2
  | collector (.settings _) => 2
  | collector .alreadyStarted => 1
  | tooManyThreads => 101
  | fault _ => 1

end Refusal

def Options.isValid (o : Options) : Bool :=
  o.minSize ≠ 0 && o.minSize ≤ o.maxSize && o.surviveEvery ≠ 0

/-- The most threads whose roots fit one table, which has 24 bytes for each thread. -/
def mostThreads : Nat := (9223372036854775808 - cellBytes) / 24

/-- A running collector as the options want it. -/
def start (o : Options) : Except Refusal Load := do
  if !o.isValid then throw .invalidRange
  let info : SettingsInfo :=
    ⟨o.triggerBytes, none, o.sweepAssistants, o.retainedEmptyPages, none⟩
  let settings ← (Settings.ofInfo info).mapError fun e => .collector (.settings e)
  let collector ← (Collector.new settings 0).mapError .collector
  if mostThreads < o.threads then throw .tooManyThreads
  let collector ← collector.start.mapError .collector
  return { collector := collector }

/-- Runs the threads of the load. -/
def runLoad (o : Options) (l : Load) : Except Refusal Load :=
  match (Load.runThreads o).apply l with
  | (.error e, _) => .error (.fault e)
  | (.ok _, l) => .ok l

/-- Drops the roots, collects once more, and sums up. -/
def sumUp (o : Options) (l : Load) : Except Refusal Summary :=
  let act : Act Load Summary := do
    let mutator ← onCollector Mutator.attach
    let epoch ← onCollector Collector.schedule
    serveNow mutator.thread
    let census := (← get).collector.heap.census
    endSession mutator
    let c := (← get).collector
    return ⟨o.threads, o.objects, epoch, c.world.pauses, c.last, c.heap.arena.memo, census⟩
  match act.apply { l with roots := #[] } with
  | (.error e, _) => .error (.fault e)
  | (.ok s, _) => .ok s
where
  onCollector {α : Type} (act : Act (Collector Nat) α) : Act Load α := fun l =>
    match act.apply l.collector with
    | (r, c) => (r, { l with collector := c })
  serveNow (thread : Nat) : Act Load Unit := fun l => l.serve thread
  endSession (mutator : Mutator) : Act Load Unit := fun l =>
    match Mutator.detach.apply ⟨l.collector, mutator⟩ with
    | (r, ⟨c, _⟩) => (r, { l with collector := c })

/-- The whole test. -/
def run (o : Options) : Except Refusal Summary := do
  let l ← start o
  sumUp o (← runLoad o l)

/-- What the program answers to its arguments: an exit code, the lines it prints, and the lines of
its complaint. -/
structure Response where
  exitCode : Nat
  out : List String
  complaint : List String

def Refusal.response (r : Refusal) : Response := ⟨r.exitCode, [], r.lines⟩

/-- The response, without durations, of the program as `package` has it. -/
def respond (package : String) (args : List String) : Response :=
  match read args with
  | .usage => Refusal.response .usage
  | .help => ⟨0, helpLines, []⟩
  | .version => ⟨0, [versionLine package], []⟩
  | .run o =>
    match run o with
    | .error e => e.response
    | .ok s => ⟨0, s.lines none, []⟩

end SweptHeap.Stress
