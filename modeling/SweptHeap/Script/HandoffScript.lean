import SweptHeap.Handoff
import SweptHeap.Script.Ledger

/-!
# Scripts on handoffs

A script that fills, merges and empties handoffs of plain addresses.
-/

namespace SweptHeap.Script

structure HandoffScript where
  queues : Array (Handoff Nat) := #[]

namespace HandoffScript

inductive Step where
  | new
  | push (q : Nat) (addresses : Arg (List (Arg Nat)))
  | merge (q : Nat) (source : Arg Nat)
  | drain (q : Nat)
  /-- Something that can only be meant for a queue. -/
  | unknown (q : Nat)

inductive Outcome where
  | queue (q : Nat)
  | contents (items : Array Nat)
  | drained (items : Array Nat)

abbrev Result := Except Failure Outcome × HandoffScript

/-- Pushes addresses up to the first that is null or none. -/
def pushAll (h : Handoff Nat) : List (Arg Nat) → Except Failure Unit × Handoff Nat
  | [] => (.ok (), h)
  | .error e :: _ => (.error e, h)
  | .ok 0 :: _ => (.error (.refused .nullBlock), h)
  | .ok a :: rest => pushAll (h.push a) rest

private def find (s : HandoffScript) (q : Nat) : Except Failure (Handoff Nat) :=
  match s.queues[q]? with
  | some h => .ok h
  | none => .error (.refused .noQueue)

private def push (s : HandoffScript) (q : Nat) (addresses : Arg (List (Arg Nat))) : Result :=
  match (do return (← s.find q, ← addresses) : Except Failure (Handoff Nat × List (Arg Nat))) with
  | .error e => (.error e, s)
  | .ok (h, addresses) =>
    let (r, h) := pushAll h addresses
    (r.map fun _ => .contents h.items, ⟨s.queues.setIfInBounds q h⟩)

/-- Moves another queue to the end of the queue `q`. -/
private def merge (s : HandoffScript) (q : Nat) (source : Arg Nat) :
    Except Failure (Handoff Nat × HandoffScript) := do
  let h ← s.find q
  let source ← source
  let other ← s.find source
  if q = source then throw (.refused .noQueue)
  let h := h.merge other
  return (h, ⟨(s.queues.setIfInBounds source {}).setIfInBounds q h⟩)

def step (s : HandoffScript) : Step → Result
  | .new => (.ok (.queue s.queues.size), ⟨s.queues.push {}⟩)
  | .push q addresses => s.push q addresses
  | .merge q source =>
    match s.merge q source with
    | .ok (h, s) => (.ok (.contents h.items), s)
    | .error e => (.error e, s)
  | .drain q =>
    match s.find q with
    | .error e => (.error e, s)
    | .ok h => (.ok (.drained h.items), ⟨s.queues.setIfInBounds q {}⟩)
  | .unknown q => ((s.find q).bind fun _ => .error (.refused .badRequest), s)

end HandoffScript

end SweptHeap.Script
