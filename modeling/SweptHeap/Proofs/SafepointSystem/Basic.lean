import Mathlib
import SweptHeap.World

/-!
# The world and everyone in it

Threads register, change their modes, poll and leave. Wardens stop the world and resume it, each one
what it stopped itself. A deed is one access to what they share: to a flag, to the mode of a thread,
or to what a lock guards. Between two deeds of one of them any others may come.

Two locks are held over more than one deed. The gate is held by a thread that is about to park or to
go on, and by a warden who looks at the threads; the book lists the registered threads, and a warden
holds it while it goes through the list. Whoever waits to be notified may come back at any time.
-/

namespace SweptHeap

namespace World

/-- The mode of a thread. -/
def mode (w : World) (thread : Nat) : ThreadMode := (w.node? thread).elim .native ThreadNode.mode

def isParked (w : World) (thread : Nat) : Bool := (w.node? thread).elim false ThreadNode.parked

/-- A new thread gets a node. -/
def addNode (w : World) : World := { w with nodes := w.nodes.push {} }

/-- The thread is put on the list. -/
def enlist (thread : Nat) (w : World) : World := { w with registered := w.registered ++ [thread] }

end World

namespace SafepointSystem

/-- Where a thread is. -/
inductive Place where
  /-- Not registered. -/
  | away
  /-- Has a node, and wants the book. -/
  | entering
  /-- Is in no call. -/
  | free
  /-- Is about to change its mode. -/
  | switching (mode : ThreadMode)
  /-- Is about to look whether the world has to stop. -/
  | polling
  /-- Has seen that it has to, and wants the gate. -/
  | halting
  /-- Has the gate, and is about to say that it is parked. -/
  | parking
  /-- Has the gate and is parked, and looks once more. -/
  | looking
  /-- Is parked without the gate, and wants it back. -/
  | sleeping
  /-- Has the gate and has seen that it may go on, and is about to say so. -/
  | waking
  /-- Is no longer parked, and gives the gate back. -/
  | rising
  /-- Has become native, and wants the gate to tell those who wait. -/
  | announcing
  /-- Wants the book to be taken off the list. -/
  | leaving
  /-- Is off the list, and wants the gate to tell those who wait. -/
  | departing
  deriving DecidableEq

/-- What a warden does. -/
inductive Duty where
  | idle
  /-- Tries to get a suspension. -/
  | requesting (reason : StopReason)
  /-- Has the suspension, and wants the gate to look at the threads. -/
  | awaiting (reason : StopReason)
  /-- Has the gate, and wants the book. -/
  | gathering (reason : StopReason)
  /-- Has the book, and still has to look at these threads. -/
  | checking (reason : StopReason) (rest : List Nat)
  /-- Has seen that the thread is not parked, and is about to look at its mode. -/
  | weighing (reason : StopReason) (thread : Nat) (rest : List Nat)
  /-- Has given the book back, and gives the gate back. -/
  | judged (reason : StopReason) (safe : Bool)
  /-- The world is stopped. -/
  | holding (reason : StopReason)
  /-- Wants the gate to withdraw its request. -/
  | resuming (reason : StopReason)
  /-- Has withdrawn its request, and is about to give up the suspension. -/
  | ending (reason : StopReason)
  deriving DecidableEq

inductive Who where
  | thread (i : Nat)
  | warden (j : Nat)
  deriving DecidableEq

inductive Deed where
  /-- A new thread comes. -/
  | register
  /-- A thread calls to change its mode. -/
  | switch (i : Nat) (mode : ThreadMode)
  | poll (i : Nat)
  /-- A native thread calls to be taken off the list. -/
  | unregister (i : Nat)
  /-- A thread goes on with its call, if it need not wait. -/
  | proceed (i : Nat)
  /-- A warden calls to stop the world. -/
  | stop (j : Nat) (reason : StopReason)
  /-- A warden who has stopped the world calls to resume it. -/
  | resume (j : Nat)
  /-- A warden goes on with its call, if it need not wait. -/
  | advance (j : Nat)
  deriving DecidableEq

end SafepointSystem

open SafepointSystem in
structure SafepointSystem where
  world : World := {}
  place : Nat → Place := fun _ => .away
  duty : Nat → Duty := fun _ => .idle
  /-- Who has the gate. -/
  gate : Option Who := none
  /-- The warden who has the book. -/
  book : Option Nat := none

namespace SafepointSystem

def put (c : SafepointSystem) (i : Nat) (p : Place) : SafepointSystem :=
  { c with place := Function.update c.place i p }

def assign (c : SafepointSystem) (j : Nat) (d : Duty) : SafepointSystem :=
  { c with duty := Function.update c.duty j d }

/-- Where a thread is once it has its new mode: it polls before it may run. -/
def Place.switched : ThreadMode → Place
  | .runnable => .polling
  | .native => .announcing

/-- The next deed of a thread in a call. -/
def proceed (c : SafepointSystem) (i : Nat) : SafepointSystem :=
  match c.place i with
  | .away | .free => c
  | .entering => if c.book = none then { c.put i .free with world := c.world.enlist i } else c
  | .switching mode => { c.put i (.switched mode) with world := (c.world.setMode i mode).2 }
  | .polling => if c.world.requested then c.put i .halting else c.put i .free
  | .halting => if c.gate = none then { c.put i .parking with gate := some (.thread i) } else c
  | .parking => { c.put i .looking with world := c.world.park i }
  | .looking =>
    if c.world.requested then { c.put i .sleeping with gate := none } else c.put i .waking
  | .sleeping => if c.gate = none then { c.put i .looking with gate := some (.thread i) } else c
  | .waking => { c.put i .rising with world := c.world.unpark i }
  | .rising => { c.put i .free with gate := none }
  | .announcing => if c.gate = none then c.put i .free else c
  | .leaving =>
    if c.book = none then { c.put i .departing with world := c.world.unregister i } else c
  | .departing => if c.gate = none then c.put i .away else c

/-- The next deed of a warden in a call. -/
def advance (c : SafepointSystem) (j : Nat) : SafepointSystem :=
  match c.duty j with
  | .idle | .holding _ => c
  | .requesting reason =>
    match c.world.request reason with
    | (true, w) => { c.assign j (.awaiting reason) with world := w }
    | (false, _) => c
  | .awaiting reason =>
    if c.gate = none then { c.assign j (.gathering reason) with gate := some (.warden j) } else c
  | .gathering reason =>
    if c.book = none then { c.assign j (.checking reason c.world.registered) with book := some j }
    else c
  | .checking reason [] => { c.assign j (.judged reason true) with book := none }
  | .checking reason (i :: rest) =>
    if c.world.isParked i then c.assign j (.checking reason rest)
    else c.assign j (.weighing reason i rest)
  | .weighing reason i rest =>
    if c.world.mode i = .native then c.assign j (.checking reason rest)
    else { c.assign j (.judged reason false) with book := none }
  | .judged reason safe =>
    { c.assign j (if safe then .holding reason else .awaiting reason) with gate := none }
  | .resuming reason =>
    if c.gate = none then { c.assign j (.ending reason) with world := c.world.withdraw } else c
  | .ending _ => { c.assign j .idle with world := c.world.giveUp }

def step (c : SafepointSystem) : Deed → SafepointSystem
  | .register => { c.put c.world.nodes.size .entering with world := c.world.addNode }
  | .switch i mode => if c.place i = .free then c.put i (.switching mode) else c
  | .poll i => if c.place i = .free then c.put i .polling else c
  | .unregister i => if c.place i = .free ∧ c.world.mode i = .native then c.put i .leaving else c
  | .proceed i => c.proceed i
  | .stop j reason => if c.duty j = .idle then c.assign j (.requesting reason) else c
  | .resume j =>
    match c.duty j with
    | .holding reason => c.assign j (.resuming reason)
    | _ => c
  | .advance j => c.advance j

def run (c : SafepointSystem) (ds : List Deed) : SafepointSystem := ds.foldl step c

/-- The thread runs code that may use the heap: it is runnable and in no call. A native thread
promises not to use the heap, whether it has polled or not. -/
def Runs (c : SafepointSystem) (i : Nat) : Prop := c.place i = .free ∧ c.world.mode i = .runnable

/-- The warden found that the world has stopped, and has not withdrawn its request. -/
def Duty.Stops : Duty → Prop
  | .holding _ | .resuming _ => True
  | _ => False

/-- The reason of the suspension that a warden has, up to giving it up. -/
def Duty.reason? : Duty → Option StopReason
  | .idle | .requesting _ => none
  | .awaiting reason | .gathering reason | .checking reason _ | .weighing reason
      _ _ | .judged reason _
  | .holding reason | .resuming reason | .ending reason => some reason

/-- The reason of the suspension that a warden has, up to withdrawing its request. -/
def Duty.request? : Duty → Option StopReason
  | .ending _ => none
  | d => d.reason?

theorem run_cons (c : SafepointSystem) (d : Deed) (ds : List Deed) :
    c.run (d :: ds) = (c.step d).run ds := rfl

theorem run_append (c : SafepointSystem) (ds ds' : List Deed) :
    c.run (ds ++ ds') = (c.run ds).run ds' :=
  List.foldl_append ..

@[simp] theorem put_place_self (c : SafepointSystem) (i : Nat) (p : Place) :
    (c.put i p).place i = p :=
  Function.update_self ..

theorem put_place_of_ne (c : SafepointSystem) {i k : Nat} (p : Place) (hk : k ≠ i) :
    (c.put i p).place k = c.place k :=
  Function.update_of_ne hk ..

@[simp] theorem assign_duty_self (c : SafepointSystem) (j : Nat) (d : Duty) :
    (c.assign j d).duty j = d :=
  Function.update_self ..

theorem assign_duty_of_ne (c : SafepointSystem) {j k : Nat} (d : Duty) (hk : k ≠ j) :
    (c.assign j d).duty k = c.duty k :=
  Function.update_of_ne hk ..

end SafepointSystem

namespace World

variable {w : World} {i k : Nat}

theorem register_eq (w : World) : w.register = (w.nodes.size, w.addNode.enlist w.nodes.size) := rfl

theorem node?_modifyNode (f : ThreadNode → ThreadNode) :
    (w.modifyNode i f).node? k = if i = k then (w.node? k).map f else w.node? k := by
  unfold modifyNode node?
  simp only [Array.getElem?_modify]

theorem node?_modifyNode_of_ne (f : ThreadNode → ThreadNode) (hk : k ≠ i) :
    (w.modifyNode i f).node? k = w.node? k := by
  rw [node?_modifyNode, if_neg hk.symm]

theorem size_modifyNode (f : ThreadNode → ThreadNode) :
    (w.modifyNode i f).nodes.size = w.nodes.size := by
  unfold modifyNode
  exact Array.size_modify ..

theorem node?_addNode : w.addNode.node? k = if k = w.nodes.size then some {} else w.node? k := by
  unfold addNode node?
  exact Array.getElem?_push

theorem mode_setMode (hi : i < w.nodes.size) (mode : ThreadMode) :
    (w.setMode i mode).2.mode i = mode := by
  have hnode : w.node? i = some w.nodes[i] := Array.getElem?_eq_getElem hi
  unfold World.mode setMode
  simp [node?_modifyNode, hnode]

theorem isParked_setMode (mode : ThreadMode) : (w.setMode i mode).2.isParked i = w.isParked i := by
  unfold isParked setMode
  rw [node?_modifyNode, if_pos rfl]
  cases w.node? i <;> rfl

theorem isParked_park (hi : i < w.nodes.size) : (w.park i).isParked i = true := by
  have hnode : w.node? i = some w.nodes[i] := Array.getElem?_eq_getElem hi
  unfold isParked park
  simp [node?_modifyNode, hnode]

theorem isParked_unpark : (w.unpark i).isParked i = false := by
  unfold isParked unpark
  rw [node?_modifyNode, if_pos rfl]
  cases w.node? i <;> rfl

theorem mode_unpark : (w.unpark i).mode i = w.mode i := by
  unfold World.mode unpark
  rw [node?_modifyNode, if_pos rfl]
  cases w.node? i <;> rfl

end World

end SweptHeap
