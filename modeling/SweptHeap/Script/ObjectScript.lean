import SweptHeap.Allocator
import SweptHeap.Heap.Traverse
import SweptHeap.Script.HeapScript

/-!
# Scripts on objects

A script that marks objects, attaches records to them and asks for their fates, on a heap that is
never swept.
-/

namespace SweptHeap.Script

/-- An object and the payload that was asked for. -/
structure ObjectEntry where
  ref : BlockRef
  payload : Nat

structure ObjectScript where
  desk : Desk Unit
  objects : Array ObjectEntry := #[]

namespace ObjectScript

/-- What to do with one object. -/
inductive Action where
  | mark
  | reset
  | length
  | setLength (value : Arg Nat)
  | attach (withFinalizer : Bool)
  | fate
  | finalized
  | recordFate
  | raise (flags : Arg Flags)
  | detach
  /-- Something that can only be meant for a record. -/
  | unknown

inductive Step where
  | create (o : Order)
  | act (id : Nat) (a : Action)

inductive Outcome where
  | done
  | created (id payloadOffset : Nat)
  | marked (marked : Bool)
  | was (marked : Bool)
  | length (count : Nat)
  | existing (existing : Bool)
  | fate (fate : Fate)

/-- An object at the end: its mark, and the flags and the object of its record. -/
structure View where
  marked : Bool
  record : Option (Flags × Option Nat)

def start : ObjectScript :=
  let heap := Heap.new ()
  ⟨⟨heap, Allocator.new heap⟩, #[]⟩

private def policy : Policy Unit := .byMark

def memory (s : ObjectScript) : Memory := s.desk.heap.arena.memory

@[inline] private def atDesk (act : Act (Desk Unit) Outcome) (s : ObjectScript) :
    Except Failure Outcome × ObjectScript :=
  match s with
  | ⟨desk, objects⟩ =>
    match act.apply desk with
    | (.ok r, desk) => (.ok r, ⟨desk, objects⟩)
    | (.error e, desk) => (.error (.faulted e), ⟨desk, objects⟩)

@[inline] private def onArena {α : Type} (f : Arena Unit → α × Arena Unit) : Act (Desk Unit) α :=
  Allocator.onHeap (Heap.onArena f)

private def modifyRecord (r : BlockRef) (f : Record → Record) : Act (Desk Unit) Outcome := do
  onArena fun a => ((), a.modifyMemory (·.modifyRecord r f))
  return .done

private def create (o : Order) (s : ObjectScript) : Except Failure Outcome × ObjectScript :=
  if o.isTooLarge then (.error (.refused .tooLarge), s)
  else match (o.make policy).apply s.desk with
    | (.error e, desk) => (.error (.faulted e), { s with desk := desk })
    | (.ok ref, desk) =>
      let id := s.objects.size
      (.ok (.created id objectHeaderBytes),
        ⟨desk, s.objects.push ⟨ref, o.bytes - objectHeaderBytes⟩⟩)

/-- What to do with the record of an object. -/
private def onRecord (r : BlockRef) (s : ObjectScript) :
    Action → Except Failure Outcome × ObjectScript
  | .recordFate => (.ok (.fate ((s.memory.record? r).elim .live Record.fate)), s)
  | .raise (.ok flags) => s.atDesk (modifyRecord r (·.raise flags))
  | .raise (.error e) => (.error e, s)
  | .detach => s.atDesk (modifyRecord r Record.detach)
  | _ => (.error (.refused .badRequest), s)

private def act (e : ObjectEntry) (s : ObjectScript) :
    Action → Except Failure Outcome × ObjectScript
  | .mark => s.atDesk do return .marked (← onArena (·.onMemory (Memory.mark e.ref)))
  | .reset => s.atDesk do return .was (← onArena (·.onMemory (Memory.unmark e.ref)))
  | .length =>
    if e.payload < arrayLengthBytes then (.error (.refused .outOfRange), s)
    else (.ok (.length (s.memory.length e.ref)), s)
  | .setLength value =>
    if e.payload < arrayLengthBytes then (.error (.refused .outOfRange), s)
    else match value with
      | .error e => (.error e, s)
      | .ok value => s.atDesk do
        onArena fun a => ((), a.modifyMemory (·.setLength e.ref value))
        return .done
  | .attach withFinalizer =>
    let existing := (s.memory.recordOf e.ref).isSome
    s.atDesk do
      let _ ← Allocator.createRecord policy e.ref withFinalizer
      return .existing existing
  | .fate => s.atDesk do return .fate (← onArena (·.rule policy e.ref))
  | .finalized => s.atDesk do
      onArena fun a => ((), a.noteFinalized policy e.ref)
      return .done
  | a =>
    match s.memory.recordOf e.ref with
    | none => (.error (.refused .noRecord), s)
    | some r => onRecord r s a

def step (s : ObjectScript) : Step → Except Failure Outcome × ObjectScript
  | .create o => create o s
  | .act id a =>
    match s.objects[id]? with
    | none => (.error (.refused .noHandle), s)
    | some e => act e s a

/-- All objects as they are. -/
def views (s : ObjectScript) : Array View :=
  s.objects.map fun e =>
    let record := (s.memory.recordOf e.ref).bind s.memory.record?
    ⟨s.memory.isMarked e.ref, record.map fun r =>
      (r.flags, r.base.bind fun b => s.objects.findIdx? (·.ref = b))⟩

/-- The events of the last step. -/
def takeJournal (s : ObjectScript) : Journal × ObjectScript :=
  let (journal, arena) := s.desk.heap.arena.takeJournal
  (journal, { s with desk := { s.desk with heap := { s.desk.heap with arena := arena } } })

def recordCount (s : ObjectScript) : Nat := s.desk.heap.recordRefs.size

end ObjectScript

end SweptHeap.Script
