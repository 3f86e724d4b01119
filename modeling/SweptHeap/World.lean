import SweptHeap.Event

/-!
# Stopping the world

Threads that use a heap are registered. A thread is safe for a collection when it is native, where
it promises to leave the heap alone, or when it is parked. Whoever wants the world to stop requests
a suspension, of which there is one at a time, and waits until every registered thread is safe. A
thread that polls for a suspension, or that stops being native, parks while one is requested.

A resumption withdraws the request first, which releases the parked threads, and then gives up the
suspension.
-/

namespace SweptHeap

inductive ThreadMode where
  | runnable
  | native
  deriving DecidableEq

namespace ThreadMode

def code : ThreadMode → Nat
  | runnable => 0
  | native => 1

def name : ThreadMode → String
  | runnable => "Runnable"
  | native => "Native"

end ThreadMode

structure ThreadNode where
  mode : ThreadMode := .native
  parked : Bool := false
  deriving DecidableEq

def ThreadNode.isSafe (n : ThreadNode) : Bool := n.parked || n.mode = .native

structure World where
  /-- Every thread that ever registered, by its number. -/
  nodes : Array ThreadNode := #[]
  /-- The threads that are registered, in the order of registration. -/
  registered : List Nat := []
  /-- Whether threads have to park. -/
  requested : Bool := false
  /-- Why the world is to stop, from a request until its resumption is complete. -/
  suspension : Option StopReason := none
  /-- Suspensions that are over. -/
  pauses : Nat := 0

namespace World

def node? (w : World) (thread : Nat) : Option ThreadNode := w.nodes[thread]?

def threadCount (w : World) : Nat := w.registered.length

/-- Registers a new thread, which is native at first. -/
def register (w : World) : Nat × World :=
  (w.nodes.size,
    { w with nodes := w.nodes.push {}, registered := w.registered ++ [w.nodes.size] })

def unregister (thread : Nat) (w : World) : World :=
  { w with registered := w.registered.filter (· ≠ thread) }

/-- Whether every registered thread is safe. -/
def allSafe (w : World) : Bool :=
  w.registered.all fun thread => (w.node? thread).elim true ThreadNode.isSafe

/-- Requests a suspension. It is granted if there is no other one. -/
def request (reason : StopReason) (w : World) : Bool × World :=
  match w.suspension with
  | some _ => (false, w)
  | none => (true, { w with suspension := some reason, requested := true })

/-- Withdraws the request, so that parked threads go on. -/
def withdraw (w : World) : World := { w with requested := false }

/-- Gives up the suspension, if there is one, and counts it. -/
def giveUp (w : World) : World :=
  match w.suspension with
  | none => w
  | some _ => { w with suspension := none, pauses := w.pauses + 1 }

def resume (w : World) : World := w.withdraw.giveUp

def modifyNode (thread : Nat) (f : ThreadNode → ThreadNode) (w : World) : World :=
  { w with nodes := w.nodes.modify thread f }

/-- Changes the mode of a thread and gives the mode before. -/
def setMode (thread : Nat) (mode : ThreadMode) (w : World) : ThreadMode × World :=
  ((w.node? thread).elim .native ThreadNode.mode,
    w.modifyNode thread fun n => { n with mode := mode })

/-- Whether a thread that now has the given mode has to park. -/
def mustPark (w : World) (mode : ThreadMode) : Bool := w.requested && mode = .runnable

def park (thread : Nat) (w : World) : World :=
  w.modifyNode thread fun n => { n with parked := true }

def unpark (thread : Nat) (w : World) : World :=
  w.modifyNode thread fun n => { n with parked := false }

/-- Stops the world at once, if there is no suspension and every registered thread is safe. -/
def stop? (reason : StopReason) (w : World) : Option World :=
  match w.request reason with
  | (false, _) => none
  | (true, w) => if w.allSafe then some w else none

@[simp] theorem resume_requested (w : World) : w.resume.requested = false := by
  unfold resume giveUp withdraw
  split <;> rfl

@[simp] theorem resume_suspension (w : World) : w.resume.suspension = none := by
  unfold resume giveUp withdraw
  split <;> simp_all

@[simp] theorem resume_nodes (w : World) : w.resume.nodes = w.nodes := by
  unfold resume giveUp withdraw
  split <;> rfl

theorem request_fst (reason : StopReason) (w : World) :
    (w.request reason).1 = w.suspension.isNone := by
  unfold request
  split <;> simp_all

end World

end SweptHeap
