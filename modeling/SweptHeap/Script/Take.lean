import SweptHeap.Script.Payload

/-!
# Taking blocks

Blocks and records that a script takes straight from a page, and what it does to its records.
-/

namespace SweptHeap.Script

/-- The largest block that a script may ask for. -/
def largestOrder : Nat := 16 * 1024 * 1024

/-- Whether a script may not ask for a page with so large a block. -/
def isTooLargeFor (kind : PageKind) (cells : Nat) : Bool :=
  kind = .large && largestOrder < cells * cellBytes

/-- A block with room for so many cells, or a slot for a record. -/
inductive Claim where
  | block (cells : Nat)
  | record (r : Record)

/-- Blocks of one allocation: the first number, the places, and how many were not all zero. -/
structure Taken where
  first : Option Nat := none
  places : Array (Nat × Nat) := #[]
  dirty : Nat := 0

def Taken.add (t : Taken) (id page offset : Nat) (dirty : Bool) : Taken :=
  ⟨some (t.first.getD id), t.places.push (page, offset), if dirty then t.dirty + 1 else t.dirty⟩

/-- Enters a block that was just allocated. -/
def enterBlock (ref : BlockRef) (cells : Nat) (shape : Shape) (t : Taken) (a : Arena Ledger) :
    Taken × Arena Ledger :=
  let offset := (a.memory.page? ref.page).elim 0 (·.offset ref.index)
  let dirty := Entry.isDirty ⟨ref, cells, shape, true⟩ a.memory
  match a with
  | ⟨memory, memo, meter, sweepers, found⟩ =>
    let (id, memo) := memo.enter ref cells shape
    (t.add id ref.page offset dirty, ⟨memory, memo, meter, sweepers, found⟩)

/-- Takes up to `count` blocks from a page, as long as it has room. -/
def take (page : PageId) (claim : Claim) :
    (count : Nat) → Taken → Arena Ledger → Except Fault Taken × Arena Ledger
  | 0, t, a => (.ok t, a)
  | count + 1, t, a =>
    let step := match claim with
      | .block cells => a.onMemory (Memory.allocate page cells)
      | .record r => a.onMemory (Memory.enroll page r)
    match step with
    | (.error e, a) => (.error e, a)
    | (.ok none, a) => (.ok t, a)
    | (.ok (some ref), a) =>
      let cells := (a.memory.page? page).elim 0 (·.blockCells ref.index)
      let shape := match claim with
        | .block _ => Shape.raw
        | .record _ => Shape.record
      let (t, a) := enterBlock ref cells shape t a
      take page claim count t a

/-- What to take from a page, and how much of it. -/
structure Claims where
  count : Arg Nat
  claim : Arg Claim

/-- Takes what is claimed from a page. It matters only for a positive count what that is. -/
def Claims.takeFrom (page : PageId) (c : Claims) (a : Arena Ledger) :
    Except Failure Taken × Arena Ledger :=
  match c.count with
  | .error e => (.error e, a)
  | .ok 0 => (.ok {}, a)
  | .ok count =>
    match c.claim with
    | .error e => (.error e, a)
    | .ok claim =>
      match take page claim count {} a with
      | (.error e, a) => (.error (.faulted e), a)
      | (.ok t, a) => (.ok t, a)

/-- Whether a record still is the one called by number `id`, and not reclaimed. -/
def isCurrent (a : Arena Ledger) (id : Nat) (record : BlockRef) : Bool :=
  (a.memory.record? record).isSome && a.memo.name? record = some (Ledger.nameOfRecord id)

/-- Changes the selected records, and counts them and the selected numbers without one. -/
def changeRecords (sel : Selection) (f : Record → Record) (a : Arena Ledger) :
    (Nat × Nat) × Arena Ledger :=
  sel.toList.foldl (fun ((changed, skipped), a) id =>
    let entry := a.memo.live? id
    match entry.filter fun e => e.shape = .record && isCurrent a id.toNat e.ref with
    | none => ((changed, skipped + 1), a)
    | some e => ((changed + 1, skipped), a.modifyMemory (·.modifyRecord e.ref f))) ((0, 0), a)

/-- The numbers of the blocks of a page, in the order of the page. -/
def namesOn (a : Arena Ledger) (id : PageId) : Array Int :=
  ((a.memory.page? id).elim #[] Page.blocks).map fun index => (a.memo.name? ⟨id, index⟩).getD 0

end SweptHeap.Script
