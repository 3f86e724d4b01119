import SweptHeap.Collector.Mutator
import SweptHeap.Stress.Options

/-!
# The load of the stress test

Every thread allocates objects of random sizes, makes some of them roots and gives some of them
finalizers. A collection that falls due runs before the next allocation.
-/

namespace SweptHeap.Stress

/-- A generator of words that shifts and adds without carry. -/
structure Generator where
  state : UInt64

namespace Generator

/-- Every thread has a seed of its own. -/
def ofThread (thread : Nat) : Generator := ⟨0x9E3779B97F4A7C15 ^^^ (thread + 1).toUInt64⟩

def next (g : Generator) : UInt64 × Generator :=
  let x := g.state ^^^ (g.state <<< 13)
  let x := x ^^^ (x >>> 7)
  let x := x ^^^ (x <<< 17)
  (x, ⟨x⟩)

end Generator

/-- A collector that counts the finalizers it runs, and its roots. -/
structure Load where
  collector : Collector Nat
  roots : Array BlockRef := #[]

/-- Marks the roots and counts the finalizers. -/
def client (roots : Array BlockRef) : Client Nat where
  policy := .byMark
  mark _ a := roots.foldl (fun a b => a.modifyMemory fun m => (m.mark b).2) a
  finalizer _ ran := ran + 1

namespace Load

/-- Lets a collection that is due run, with all threads native. -/
def serve (thread : Nat) (l : Load) : Except Fault Unit × Load :=
  if l.collector.isDue then
    match l with
    | ⟨collector, roots⟩ =>
      let act : Act (Collector Nat) Unit := do
        Collector.modifyWorld fun w => (w.setMode thread .native).2
        Collector.serve (client roots)
        Collector.serveFinalizers (client roots)
        Collector.modifyWorld fun w => (w.setMode thread .runnable).2
      match act.apply collector with
      | (r, collector) => (r, ⟨collector, roots⟩)
  else (.ok (), l)

end Load

/-- A thread at work. -/
structure Worker where
  load : Load
  mutator : Mutator
  generator : Generator

namespace Worker

/-- Lets the mutator work. -/
@[inline] def onSession {α : Type} (act : Act (Session Nat) α) : Act Worker α := fun w =>
  match w with
  | ⟨⟨collector, roots⟩, mutator, generator⟩ =>
    match act.apply ⟨collector, mutator⟩ with
    | (r, ⟨collector, mutator⟩) => (r, ⟨⟨collector, roots⟩, mutator, generator⟩)

def serve : Act Worker Unit := fun w =>
  match w with
  | ⟨load, mutator, generator⟩ =>
    match load.serve mutator.thread with
    | (r, load) => (r, ⟨load, mutator, generator⟩)

/-- A random payload size. -/
def nextSize (o : Options) : Act Worker Nat :=
  modifyGet fun w =>
    let (x, generator) := w.generator.next
    (o.minSize + x.toNat % (o.maxSize - o.minSize + 1), { w with generator := generator })

/-- Whether the `i`-th object is one of those that come every `n`. -/
def isEvery (n i : Nat) : Bool := n ≠ 0 && i % n = 0

def addRoot (b : BlockRef) : Act Worker Unit :=
  modify fun w =>
    match w with
    | ⟨⟨collector, roots⟩, mutator, generator⟩ =>
      ⟨⟨collector, roots.push b⟩, mutator, generator⟩

/-- Creates the `i`-th object. -/
def create (o : Options) (i : Nat) : Act Worker Unit := do
  serve
  let object ←
    if isEvery o.largeEvery i then onSession (Mutator.createArray .byMark 8 (64 * 1024))
    else do
      let size ← nextSize o
      onSession (Mutator.createObject .byMark size)
  if isEvery o.surviveEvery i then addRoot object
  if isEvery o.finalizeEvery i then
    let _ ← onSession (Mutator.createRecord .byMark object true)

/-- Creates `count` objects from the `i`-th on. -/
def createAll (o : Options) : (count i : Nat) → Act Worker Unit
  | 0, _ => return ()
  | count + 1, i => do
    create o i
    createAll o count (i + 1)

end Worker

namespace Load

/-- Runs one thread from its attachment to its end. -/
def runThread (o : Options) (index : Nat) : Act Load Unit := fun l =>
  match l with
  | ⟨collector, roots⟩ =>
    match Mutator.attach.apply collector with
    | (.error e, collector) => (.error e, ⟨collector, roots⟩)
    | (.ok mutator, collector) =>
      let act : Act Worker Unit := do
        Worker.createAll o o.objects 1
        Worker.onSession Mutator.detach
      match act.apply ⟨⟨collector, roots⟩, mutator, .ofThread index⟩ with
      | (r, w) => (r, w.load)

/-- Runs all threads. -/
def runThreads (o : Options) : Act Load Unit := (List.range o.threads).forM (runThread o)

end Load

end SweptHeap.Stress
