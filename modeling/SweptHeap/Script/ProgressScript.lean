import SweptHeap.Event
import SweptHeap.Progress
import SweptHeap.Script.Ledger

/-!
# Scripts on the progress of collections

A script that moves the counters and the gate, and starts waits. Waits are numbered in the order in
which they begin; after every step those that are over end.
-/

namespace SweptHeap.Script

structure ProgressScript where
  progress : Progress := {}
  /-- How many waits there have been. -/
  waits : Nat := 0
  waiting : List (Nat × Progress.Wait) := []
  journal : Journal := #[]

namespace ProgressScript

inductive Step where
  | schedule
  | start (epoch : Int)
  | finish (epoch : Int)
  | finalize (epoch : Int)
  | closeGate
  | openGate
  | shutDown
  /-- A wait at the gate for so many milliseconds, within the longest that a script may wait. -/
  | passGate (millis : Nat)
  | wait (wait : Progress.Wait)

inductive Outcome where
  | done
  | epoch (epoch : Int)
  | passed (passed : Bool)
  | waiter (id : Nat)

abbrev Result := Except Failure Outcome × ProgressScript

/-- The longest wait at the gate, in milliseconds. -/
def longestWait : Nat := 50

/-- What a wait that is over gives back. -/
inductive Answer where
  | epoch (epoch : Option Int)
  | ended

private def moveTo (s : ProgressScript) : Except Fault Progress → Result
  | .ok p => (.ok .done, { s with progress := p })
  | .error e => (.error (.faulted e), s)

def step (s : ProgressScript) : Step → Result
  | .schedule =>
    let (epoch, p) := s.progress.schedule
    (.ok (.epoch epoch), { s with progress := p })
  | .start epoch => s.moveTo (s.progress.start epoch)
  | .finish epoch =>
    if epoch < s.progress.scheduled && s.waiting.any (·.2 = .scheduled) then
      (.error (.refused .unnotified), s)
    else s.moveTo (s.progress.finish epoch)
  | .finalize epoch => s.moveTo (s.progress.finalize epoch)
  | .closeGate =>
    (.ok .done,
      { s with progress := s.progress.closeGate, journal := s.journal.push .gateClosed })
  | .openGate =>
    (.ok .done, { s with progress := s.progress.openGate, journal := s.journal.push .gateOpened })
  | .shutDown => (.ok .done, { s with progress := s.progress.shutDown })
  | .passGate millis =>
    if s.progress.passesGate then (.ok (.passed true), s)
    else
      (.ok (.passed false),
        { s with journal := s.journal.push (.gateTimedOut (min millis longestWait * 1000000)) })
  | .wait wait =>
    (.ok (.waiter s.waits),
      { s with waits := s.waits + 1, waiting := s.waiting ++ [(s.waits, wait)] })

/-- What a wait gives back when it is over. -/
def answerTo (p : Progress) : Progress.Wait → Answer
  | .scheduled => .epoch p.pendingEpoch
  | _ => .ended

/-- Ends the waits that are over. -/
def settle (s : ProgressScript) : List (Nat × Answer) × ProgressScript :=
  let (ended, waiting) := s.waiting.partition fun (_, wait) => s.progress.isOver wait
  (ended.map fun (id, wait) => (id, answerTo s.progress wait), { s with waiting := waiting })

end ProgressScript

end SweptHeap.Script
