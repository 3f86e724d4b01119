import Mathlib
import SweptHeap.Proofs.Heap.Allocation
import SweptHeap.Proofs.SharedDepot.Basic

/-!
# Racing calls that attach a record

Several allocators attach a record to one object at the same time. A step is what one of them does
at once: it reads the link of the object or sets it if there is none, it takes the object out of a
record or raises flags there, it holds the lock of the shelf of records or of the finalizers due, or
it works on a page that no other one uses. Between two steps of one allocator any others may come.

Whoever finds a record linked raises its flags there. The others take a slot for a record of their
own and try to link it; one of them succeeds, and the others leave theirs to the sweep. An allocator
alone does step by step what `Allocator.createRecord` does in one go (`RecordRace.Alone`).
-/

namespace SweptHeap

namespace RecordRace

variable {ρ : Type}

/-- What a caller does next. -/
inductive Stage where
  /-- Looks whether the object has a record. -/
  | reading
  /-- Gives up its pages if a cycle has begun. -/
  | syncing
  /-- Takes a slot on the page of records that it keeps, if that has one. -/
  | trying
  /-- Gets a page with a free slot. -/
  | fetching (task : Task)
  /-- Takes a slot on the page that it has got. -/
  | enrolling (id : PageId)
  /-- Links its record from the object, unless another one is linked. -/
  | linking (record : BlockRef)
  /-- Takes the object out of its own record. -/
  | detaching (record installed : BlockRef)
  /-- Leaves its own record to the sweep. -/
  | discarding (record installed : BlockRef)
  /-- Raises its flags in the record that is linked. -/
  | raising (record : BlockRef)
  | returned (record : BlockRef)
  | stuck (fault : Fault)

namespace Stage

/-- Goes on to get a page. With a page in hand, it passes on what its sweeps found. -/
def fetch (policy : Policy ρ) : Task → Act (Desk ρ) Stage
  | .got id => do
    Allocator.flush
    return .enrolling id
  | task => do
    let task ← Allocator.onHeap (Heap.atShelf .records (task.act policy))
    return .fetching task

theorem fetch_eq {policy : Policy ρ} {task : Task} (hgot : ∀ id, task ≠ .got id) :
    fetch policy task = (do
    let task ← Allocator.onHeap (Heap.atShelf .records (task.act policy))
    return .fetching task) := by
  cases task with
  | got id => exact absurd rfl (hgot id)
  | _ => rfl

/-- Links the record once there is a slot for it, and looks for a page as long as there is none. -/
def enrolled : Option BlockRef → Act (Desk ρ) Stage
  | some record => return .linking record
  | none => do return .fetching (.looking .records (← get).heap.epoch)

/-- The next step of a caller, which gives its next stage. -/
def act (policy : Policy ρ) (object : BlockRef) (flags : Flags) : Stage → Act (Desk ρ) Stage
  | .reading => do
    match (← get).heap.arena.memory.recordOf object with
    | some record => return .raising record
    | none => return .syncing
  | .syncing => do
    Allocator.sync
    return .trying
  | .trying => do
    enrolled (← Allocator.fromCache .records fun id => Memory.enroll id ⟨some object, flags⟩)
  | .fetching task => fetch policy task
  | .enrolling id => do
    Allocator.modifySelf (Allocator.cache .records id)
    enrolled (← Allocator.onMemory (Memory.enroll id ⟨some object, flags⟩))
  | .linking record =>
    Allocator.onMemory fun m =>
      match m.link object record with
      | (none, m) => (.ok (.returned record), m)
      | (some installed, m) => (.ok (.detaching record installed), m)
  | .detaching record installed =>
    Allocator.onMemory fun m => (.ok (.discarding record installed),
      m.modifyRecord record fun r => { r with base := none })
  | .discarding record installed =>
    Allocator.onMemory fun m => (.ok (.raising installed), m.raise record .sweepable)
  | .raising record => Allocator.onMemory fun m => (.ok (.returned record), m.raise record flags)
  | .returned record => return .returned record
  | .stuck fault => return .stuck fault

section

variable {policy : Policy ρ} {object r w : BlockRef} {flags : Flags} {d : Desk ρ}

theorem apply_enrolled_some (r : BlockRef) (d : Desk ρ) :
    (enrolled (some r)).apply d = (.ok (.linking r), d) := rfl

theorem apply_enrolled_none (d : Desk ρ) :
    (enrolled none).apply d = (.ok (.fetching (.looking .records d.heap.epoch)), d) := rfl

theorem apply_reading_none (hlink : d.heap.arena.memory.recordOf object = none) :
    (act policy object flags .reading).apply d = (.ok .syncing, d) := by
  rw [act, Act.apply_get_bind, hlink]
  rfl

theorem apply_reading_some (hlink : d.heap.arena.memory.recordOf object = some w) :
    (act policy object flags .reading).apply d = (.ok (.raising w), d) := by
  rw [act, Act.apply_get_bind, hlink]
  rfl

theorem apply_linking_none (hlink : d.heap.arena.memory.recordOf object = none) :
    (act policy object flags (.linking r)).apply d = (.ok (.returned r), ⟨{ d.heap with
      arena := { d.heap.arena with
        memory := d.heap.arena.memory.setCell object.linkCell (.link r) } }, d.allocator⟩) := by
  rw [act, Allocator.apply_onMemory]
  simp only [Memory.link, hlink]

theorem apply_linking_some (hlink : d.heap.arena.memory.recordOf object = some w) :
    (act policy object flags (.linking r)).apply d = (.ok (.detaching r w), d) := by
  rw [act, Allocator.apply_onMemory]
  simp only [Memory.link, hlink]

end

/-- The stage after a step. -/
def next : Except Fault Stage → Stage
  | .ok s => s
  | .error e => .stuck e

/-- The record for which a slot has just been taken. -/
def fresh : Stage → Option BlockRef
  | .linking record => some record
  | _ => none

/-- What the call returned. -/
def result : Stage → Option BlockRef
  | .returned record => some record
  | _ => none

end Stage

/-- An allocator that attaches a record to the object. -/
structure Caller where
  allocator : Allocator
  withFinalizer : Bool
  stage : Stage := .reading
  /-- The records that it has taken slots for. -/
  taken : List BlockRef := []
  /-- What its sweeps have found and it has not passed on. -/
  found : Handoff BlockRef := {}

namespace Caller

/-- The flags that it asks for. -/
def flags (x : Caller) : Flags := .initial x.withFinalizer

/-- The heap and the allocator at a step of the caller. -/
def desk (x : Caller) (h : Heap ρ) : Desk ρ :=
  ⟨{ h with arena := { h.arena with found := x.found } }, x.allocator⟩

/-- Does its next step. -/
def act (policy : Policy ρ) (object : BlockRef) (x : Caller) (h : Heap ρ) : Caller × Heap ρ :=
  let done := (x.stage.act policy object x.flags).apply (x.desk h)
  let stage := Stage.next done.1
  ({ x with
      allocator := done.2.allocator
      stage := stage
      taken := x.taken ++ stage.fresh.toList
      found := done.2.heap.arena.found },
    { done.2.heap with arena := { done.2.heap.arena with found := h.arena.found } })

end Caller

end RecordRace

/-- Several callers attach a record to one object. -/
structure RecordRace (ρ : Type) where
  heap : Heap ρ
  object : BlockRef
  callers : List RecordRace.Caller

namespace RecordRace

variable {ρ : Type}

/-- Each of these allocators is about to attach a record, with a finalizer or without. -/
def new (h : Heap ρ) (object : BlockRef) (calls : List (Allocator × Bool)) : RecordRace ρ :=
  ⟨h, object, calls.map fun call => { allocator := call.1, withFinalizer := call.2 }⟩

/-- One step of the caller `i`. -/
def act (policy : Policy ρ) (c : RecordRace ρ) (i : Nat) : RecordRace ρ :=
  match c.callers[i]? with
  | none => c
  | some x =>
    let done := x.act policy c.object c.heap
    { c with heap := done.2, callers := c.callers.set i done.1 }

/-- The callers take turns. -/
def run (policy : Policy ρ) (turns : List Nat) (c : RecordRace ρ) : RecordRace ρ :=
  turns.foldl (act policy) c

/-- What each of the calls returned. -/
def results (c : RecordRace ρ) : List (Option BlockRef) := c.callers.map (·.stage.result)

/-- The records for which the calls have taken slots. -/
def taken (c : RecordRace ρ) : List BlockRef := c.callers.flatMap Caller.taken

end RecordRace

end SweptHeap
