import SweptHeap.Fault

/-!
# Progress of collections

Collections are numbered by epochs. An epoch is scheduled, started, finished and finalized, in this
order, and four counters hold the last epoch that came so far. Requests coalesce: as long as a
scheduled epoch has not started, a request gets that epoch.

A gate holds collections back while it is closed. It remembers the last epoch that went through.
-/

namespace SweptHeap

/-- What the gate remembers while it is closed. -/
def closedGate : Int := -1

structure Progress where
  scheduled : Int := 0
  started : Int := 0
  finished : Int := 0
  finalized : Int := 0
  gate : Int := 0
  /-- Whether nobody has to wait any more. -/
  isShutDown : Bool := false
  deriving DecidableEq

namespace Progress

/-- Asks for a collection that has not begun, and gives its epoch. -/
def schedule (p : Progress) : Int × Progress :=
  if p.scheduled ≤ p.started then (p.started + 1, { p with scheduled := p.started + 1 })
  else (p.scheduled, p)

def isGateClosed (p : Progress) : Bool := p.gate = closedGate

def start (epoch : Int) (p : Progress) : Except Fault Progress :=
  if epoch ≤ p.scheduled then
    .ok { p with started := epoch, gate := if p.isGateClosed then p.gate else epoch }
  else .error (.ahead .scheduled)

def finish (epoch : Int) (p : Progress) : Except Fault Progress :=
  if epoch ≤ p.started then .ok { p with finished := epoch } else .error (.ahead .started)

def finalize (epoch : Int) (p : Progress) : Except Fault Progress :=
  if epoch ≤ p.finished then .ok { p with finalized := epoch } else .error (.ahead .finished)

def closeGate (p : Progress) : Progress := { p with gate := closedGate }

def openGate (p : Progress) : Progress := { p with gate := p.started }

def shutDown (p : Progress) : Progress := { p with isShutDown := true }

/-- Whether someone who waits at the gate goes on without a timeout. -/
def passesGate (p : Progress) : Bool := !p.isGateClosed || p.isShutDown

/-- Whether an epoch is scheduled that has not finished. -/
def isPending (p : Progress) : Bool := p.finished < p.scheduled

/-- What one can wait for. -/
inductive Wait where
  | scheduled
  | finished (epoch : Int)
  | finalized (epoch : Int)
  | gate
  deriving DecidableEq

/-- Whether a wait is over. A shutdown ends every wait. -/
def isOver (p : Progress) : Wait → Bool
  | .scheduled => p.isPending || p.isShutDown
  | .finished epoch => epoch ≤ p.finished || p.isShutDown
  | .finalized epoch => epoch ≤ p.finalized || p.isShutDown
  | .gate => p.passesGate

/-- The epoch to collect, unless the wait for it was ended by a shutdown. -/
def pendingEpoch (p : Progress) : Option Int := if p.isShutDown then none else some p.scheduled

@[simp] theorem schedule_fst (p : Progress) : p.schedule.1 = max p.scheduled (p.started + 1) := by
  unfold schedule
  split <;> simp <;> omega

@[simp] theorem schedule_scheduled (p : Progress) : p.schedule.2.scheduled = p.schedule.1 := by
  unfold schedule
  split <;> rfl

@[simp] theorem schedule_started (p : Progress) : p.schedule.2.started = p.started := by
  unfold schedule
  split <;> rfl

@[simp] theorem schedule_finished (p : Progress) : p.schedule.2.finished = p.finished := by
  unfold schedule
  split <;> rfl

end Progress

end SweptHeap
