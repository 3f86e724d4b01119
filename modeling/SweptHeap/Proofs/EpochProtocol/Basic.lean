import Mathlib
import SweptHeap.Collector.Basic
import SweptHeap.Proofs.Heap.Memory

/-!
# Collections by many threads

Threads that collect take turns: one of them holds the turn from before it knows its epoch until the
finalizers of that epoch are taken care of. Those who ask for a collection and the worker that runs
finalizers do not wait for the turn.

A deed is what a thread does while it holds a lock, be it the lock of the counters, of the turn, or
of the desk where the worker is found. Between two deeds of a thread any others may come. One thread
alone does what the collector does, deed by deed (`collectNow_alone`, `serve_alone`,
`serveFinalizers_alone`).
-/

namespace SweptHeap

/-- What a thread that collects does next. -/
inductive Stage where
  | idle
  /-- Has seen that `epoch` is pending, and waits for the turn. -/
  | called (epoch : Int)
  /-- Has the turn, and looks whether `epoch` was collected meanwhile. -/
  | checking (epoch : Int)
  /-- Has the turn, and asks for an epoch of its own. -/
  | asking
  | starting (epoch : Int)
  | collecting (epoch : Int)
  /-- Has collected, and looks for the worker. -/
  | handingOver (epoch : Int)
  /-- Has found no worker, and lets none come before the epoch is finalized. -/
  | settling (epoch : Int)
  | leaving
  deriving DecidableEq

namespace Stage

def HasTurn : Stage → Prop
  | .idle | .called _ => False
  | _ => True

def AtDesk : Stage → Prop
  | .settling _ => True
  | _ => False

end Stage

/-- What is remembered of collections. -/
inductive Mark where
  | started (epoch : Int)
  | finished (epoch : Int)
  deriving DecidableEq

/-- The marks of the first `n` epochs, collected one after the other. -/
def Mark.rounds : Nat → List Mark
  | 0 => []
  | n + 1 => rounds n ++ [.started (n + 1), .finished (n + 1)]

structure EpochProtocol where
  progress : Progress := {}
  /-- The worker that runs finalizers. -/
  worker : Option FinalizerTasks := none
  /-- The epoch whose finalizers the worker is running. -/
  serving : Option Int := none
  stage : Nat → Stage := fun _ => .idle
  /-- Who has the turn. -/
  turn : Option Nat := none
  /-- Who keeps a worker from coming. -/
  desk : Option Nat := none
  history : List Mark := []

inductive Deed where
  /-- Somebody asks for a collection. -/
  | schedule
  /-- The worker comes. -/
  | hire
  /-- A thread of the collector sees that an epoch is pending. -/
  | heed (thread : Nat)
  /-- A thread that wants to collect at once gets the turn. -/
  | enter (thread : Nat)
  /-- A thread that collects goes on, if it need not wait. -/
  | proceed (thread : Nat)
  /-- The worker takes the epoch it has to serve. -/
  | take
  /-- The worker has run the finalizers. -/
  | finalize
  deriving DecidableEq

namespace EpochProtocol

def move (c : EpochProtocol) (i : Nat) (s : Stage) : EpochProtocol :=
  { c with stage := Function.update c.stage i s }

/-- The next deed of a thread that collects. -/
def proceed (c : EpochProtocol) (i : Nat) : Except Fault EpochProtocol :=
  match c.stage i with
  | .idle => .ok c
  | .called epoch =>
    if c.turn = none then .ok { c.move i (.checking epoch) with turn := some i } else .ok c
  | .checking epoch =>
    .ok (c.move i (if epoch ≤ c.progress.finished then .leaving else .starting epoch))
  | .asking =>
    .ok { c.move i (.starting c.progress.schedule.1) with progress := c.progress.schedule.2 }
  | .starting epoch =>
    (c.progress.start epoch).map fun p =>
      { c.move i (.collecting epoch) with progress := p, history := c.history ++ [.started epoch] }
  | .collecting epoch =>
    (c.progress.finish epoch).map fun p =>
      { c.move i (.handingOver epoch) with
        progress := p, history := c.history ++ [.finished epoch] }
  | .handingOver epoch =>
    if c.desk = none then
      match c.worker with
      | some tasks => .ok { c.move i .leaving with worker := some (tasks.schedule epoch) }
      | none => .ok { c.move i (.settling epoch) with desk := some i }
    else .ok c
  | .settling epoch =>
    (c.progress.finalize epoch).map fun p => { c.move i .leaving with progress := p, desk := none }
  | .leaving => .ok { c.move i .idle with turn := none }

/-- Does a deed, unless it has to wait. -/
def step (c : EpochProtocol) : Deed → Except Fault EpochProtocol
  | .schedule => .ok { c with progress := c.progress.schedule.2 }
  | .hire => .ok (if c.worker = none ∧ c.desk = none then { c with worker := some {} } else c)
  | .heed i =>
    .ok (if c.stage i = .idle ∧ c.progress.isPending then c.move i (.called c.progress.scheduled)
      else c)
  | .enter i =>
    .ok (if c.stage i = .idle ∧ c.turn = none then { c.move i .asking with turn := some i } else c)
  | .proceed i => c.proceed i
  | .take =>
    match c.worker, c.serving with
    | some tasks, none => .ok { c with worker := some tasks.take.2, serving := tasks.take.1 }
    | _, _ => .ok c
  | .finalize =>
    match c.serving with
    | none => .ok c
    | some epoch =>
      (c.progress.finalize epoch).map fun p => { c with progress := p, serving := none }

/-- Does the deeds one after the other, up to the first fault. -/
def run : List Deed → EpochProtocol → Except Fault EpochProtocol
  | [], c => .ok c
  | d :: ds, c =>
    match c.step d with
    | .ok c' => run ds c'
    | .error e => .error e

theorem run_append {ds es : List Deed} {c c' : EpochProtocol} (h : run ds c = .ok c') :
    run (ds ++ es) c = run es c' := by
  induction ds generalizing c with
  | nil =>
    cases h
    rfl
  | cons d ds ih =>
    simp only [List.cons_append, run] at h ⊢
    cases hd : c.step d with
    | error e => rw [hd] at h; cases h
    | ok c₁ =>
      rw [hd] at h
      exact ih h

@[simp] theorem move_stage_self (c : EpochProtocol) (i : Nat) (s : Stage) :
    (c.move i s).stage i = s :=
  Function.update_self ..

theorem move_stage_of_ne (c : EpochProtocol) {i j : Nat} (s : Stage) (hij : j ≠ i) :
    (c.move i s).stage j = c.stage j :=
  Function.update_of_ne hij ..

end EpochProtocol

end SweptHeap
