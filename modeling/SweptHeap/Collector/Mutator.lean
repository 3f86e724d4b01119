import SweptHeap.Allocator
import SweptHeap.Collector.Basic

/-!
# Mutators

A mutator is a registered thread with an allocator of its own. When its bytes cross the target it
schedules a collection.
-/

namespace SweptHeap

structure Mutator where
  thread : Nat
  allocator : Allocator

/-- A mutator at work with its collector. -/
structure Session (ρ : Type) where
  collector : Collector ρ
  mutator : Mutator

namespace Mutator

variable {ρ : Type}

/-- Registers a thread, which may run from now on. -/
def attach : Act (Collector ρ) Mutator := do
  let thread ← modifyGet fun c =>
    let (thread, w) := c.world.register
    (thread, { c with world := w })
  Collector.report (.registered thread)
  Collector.modifyWorld fun w => (w.setMode thread .runnable).2
  return ⟨thread, Allocator.new (← get).heap⟩

@[inline] def onCollector {α : Type} (act : Act (Collector ρ) α) : Act (Session ρ) α := fun s =>
  match s with
  | ⟨collector, mutator⟩ =>
    match act.apply collector with
    | (r, collector) => (r, ⟨collector, mutator⟩)

/-- Lets the allocator work. -/
@[inline] def atDesk {α : Type} (act : Act (Desk ρ) α) : Act (Session ρ) α := fun s =>
  match s with
  | ⟨⟨settings, heap, progress, world, isRunning, finalizers, last⟩, ⟨thread, allocator⟩⟩ =>
    match act.apply ⟨heap, allocator⟩ with
    | (r, ⟨heap, allocator⟩) =>
      (r, ⟨⟨settings, heap, progress, world, isRunning, finalizers, last⟩, ⟨thread, allocator⟩⟩)

/-- Schedules a collection if the bytes crossed the target. -/
def checkTrigger : Act (Session ρ) Unit := do
  if ← atDesk Allocator.takeRequest then
    let epoch ← onCollector Collector.schedule
    let thread := (← get).mutator.thread
    onCollector (Collector.report (.triggered thread epoch))

/-- Allocates, and asks for a collection if that is due. -/
@[inline] def allocating (act : Act (Desk ρ) BlockRef) : Act (Session ρ) BlockRef := do
  let b ← atDesk act
  checkTrigger
  return b

def allocate (policy : Policy ρ) (bytes : Nat) : Act (Session ρ) BlockRef :=
  allocating (Allocator.allocate policy bytes)

def createObject (policy : Policy ρ) (payload : Nat) : Act (Session ρ) BlockRef :=
  allocating (Allocator.createObject policy payload)

def createArray (policy : Policy ρ) (element count : Nat) : Act (Session ρ) BlockRef :=
  allocating (Allocator.createArray policy element count)

/-- Attaches a record to an object. -/
def createRecord (policy : Policy ρ) (object : BlockRef) (withFinalizer : Bool) :
    Act (Session ρ) BlockRef :=
  atDesk (Allocator.createRecord policy object withFinalizer)

/-- Changes the mode of the thread and gives the mode before. -/
def setMode (mode : ThreadMode) : Act (Session ρ) ThreadMode :=
  modifyGet fun s =>
    let (before, w) := s.collector.world.setMode s.mutator.thread mode
    (before, { s with collector := { s.collector with world := w } })

/-- Runs an operation while the thread is native. -/
def inNative {α : Type} (act : Act (Collector ρ) α) : Act (Session ρ) α := do
  let _ ← setMode .native
  let r ← onCollector act
  let _ ← setMode .runnable
  return r

/-- Ends the mutator: its thread is unregistered and its allocator closed. -/
def detach : Act (Session ρ) Unit := do
  let _ ← setMode .native
  let thread := (← get).mutator.thread
  onCollector do
    Collector.modifyWorld (·.unregister thread)
    Collector.report (.unregistered thread)
  atDesk Allocator.close

end Mutator

end SweptHeap
