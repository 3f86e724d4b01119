import SweptHeap.Census
import SweptHeap.Verdict

/-!
# Events

What a heap reports while it works, each event with its level and its line.
-/

namespace SweptHeap

inductive Level where
  | trace
  | debug
  | info
  | warn
  | error

def Level.name : Level → String
  | trace => "TRACE"
  | debug => "DEBUG"
  | info => "INFO"
  | warn => "WARN"
  | error => "ERROR"

/-- Which pages a sweep went over. -/
inductive SweepSite where
  | objects
  | records
  | assist
  | inline
  | shelf
  | page
  deriving DecidableEq

def SweepSite.label : SweepSite → String
  | objects => "objects"
  | records => "extra objects"
  | assist => "assist"
  | inline => "inline"
  | shelf => "store"
  | page => "page"

/-- Why the world is stopped. -/
inductive StopReason where
  | collection
  | snapshot
  | debug
  deriving DecidableEq

def StopReason.name : StopReason → String
  | collection => "GarbageCollection"
  | snapshot => "Snapshot"
  | debug => "Debug"

/-- A whole number of units and a rest of a finer unit, of which `scale` make one; the rest is
written as a fraction without trailing zeros. -/
private def fraction (whole rest scale : Nat) : String :=
  let digits := toString (scale + rest)
  let kept := ((digits.toList.drop 1).reverse.dropWhile (· == '0')).reverse
  if kept.isEmpty then toString whole else toString whole ++ "." ++ String.ofList kept

/-- Nanoseconds in the largest unit of which there is at least one. -/
def spanText (nanos : Nat) : String :=
  if 1000000000 ≤ nanos then fraction (nanos / 1000000000) (nanos % 1000000000) 1000000000 ++ "s"
  else if 1000000 ≤ nanos then fraction (nanos / 1000000) (nanos % 1000000) 1000000 ++ "ms"
  else if 1000 ≤ nanos then fraction (nanos / 1000) (nanos % 1000) 1000 ++ "µs"
  else toString nanos ++ "ns"

inductive Event where
  /-- `size` is the block size of a uniform page and the extent of a large one. -/
  | mapped (kind : PageKind) (size : Nat)
  | unmapped (kind : PageKind)
  | swept (epoch : Int) (site : SweepSite) (tally : Tally)
  | freed (kind : PageKind) (pages : Nat)
  | prepared (epoch : Nat)
  | released (pages : Nat)
  | census (epoch : Int) (census : Census)
  | gateClosed
  | gateOpened
  | gateTimedOut (nanos : Nat)
  | registered (thread : Nat)
  | unregistered (thread : Nat)
  | stopRequested (reason : StopReason)
  | worldStopped
  | triggered (thread : Nat) (epoch : Int)
  | collectorStarted
  | heapKept (mutators : Nat)
  | shutDown
  | finalizersCrashed

namespace Event

def level : Event → Level
  | mapped .. | unmapped .. | freed .. | prepared .. | census .. | registered .. | unregistered ..
  | worldStopped => .trace
  | swept .. | released .. | gateClosed | gateOpened | stopRequested .. | triggered .. => .debug
  | collectorStarted | shutDown => .info
  | gateTimedOut .. | heapKept .. => .warn
  | finalizersCrashed => .error

/-- The page's address is not part of the line. -/
def message : Event → String
  | mapped kind size =>
    kind.phrase ++ " page @ created" ++ match kind with
      | .uniform => s!" for {size} cells"
      | .large => s!", {size} bytes"
      | _ => ""
  | unmapped kind => kind.phrase ++ " page @ destroyed"
  | swept epoch site t =>
    s!"epoch {epoch} sweep [" ++ site.label ++ s!"]: kept {t.kept}, swept {t.swept}, " ++
      s!"queued {t.queued}, {t.liveBytes} bytes live"
  | freed kind pages => kind.title ++ s!" store freed {pages} pages"
  | prepared epoch => s!"heap prepared for page epoch {epoch}"
  | released pages => s!"released {pages} empty pages"
  | census epoch c => s!"epoch {epoch} " ++ c.text
  | gateClosed => "collections suspended"
  | gateOpened => "collections resumed"
  | gateTimedOut nanos => "collections still suspended after " ++ spanText nanos ++ ", continuing"
  | registered thread => s!"thread {thread} registered"
  | unregistered thread => s!"thread {thread} unregistered"
  | stopRequested reason => "requesting thread suspension for " ++ reason.name
  | worldStopped => "all threads suspended"
  | triggered thread epoch =>
    s!"thread {thread} crossed the allocation trigger, epoch {epoch} scheduled"
  | collectorStarted => "collector started"
  | heapKept mutators => s!"shutdown with {mutators} mutators attached, keeping the heap"
  | shutDown => "gc runtime shut down"
  | finalizersCrashed => "finalizer thread panicked"

def line (e : Event) : String := e.level.name ++ " " ++ e.message

end Event

abbrev Journal := Array Event

/-- A sweep that asked about nothing goes unreported. -/
def Journal.sweep (j : Journal) (epoch : Int) (site : SweepSite) (tally : Tally) : Journal :=
  if tally.asked = 0 then j else j.push (.swept epoch site tally)

end SweptHeap
