import SweptHeap.Verdict

/-!
# Pages of records

The slots of the page that hold no record form a list by index. A new page lists them in ascending
order, and so does a sweep, which frees the slots of the dead records.
-/

namespace SweptHeap

/-- A slot and the free slot behind it in the list. -/
structure Slot where
  next : Option Nat
  record : Option Record

structure RecordPage where
  slots : Array Slot
  /-- First free slot. -/
  head : Option Nat
  allocated : Nat

namespace RecordPage

/-- Lists the free slots below `count` in front of `head`. -/
def linkFree : (count : Nat) → Option Nat → Array Slot → Option Nat × Array Slot
  | 0, head, slots => (head, slots)
  | i + 1, head, slots =>
    match slots[i]? with
    | some ⟨_, none⟩ => linkFree i (some i) (slots.setIfInBounds i ⟨head, none⟩)
    | _ => linkFree i head slots

/-- The page of the slots, with the free ones listed. -/
def ofSlots (slots : Array Slot) (allocated : Nat) : RecordPage :=
  let (head, slots) := linkFree slots.size none slots
  ⟨slots, head, allocated⟩

def create : RecordPage := ofSlots (Array.replicate recordSlots ⟨none, none⟩) 0

def capacityBytes : Nat := recordSlots * slotBytes

def allocatedBytes (p : RecordPage) : Nat := p.allocated * slotBytes

def hasRoom (p : RecordPage) : Bool := p.head.isSome

/-- Puts a record into the first free slot. -/
def allocate (p : RecordPage) (record : Record) : Except Fault (Option Nat) × RecordPage :=
  match p with
  | ⟨slots, none, allocated⟩ => (.ok none, ⟨slots, none, allocated⟩)
  | ⟨slots, some i, allocated⟩ =>
    match slots[i]? with
    | none => (.error (.outside i), ⟨slots, some i, allocated⟩)
    | some slot =>
      let next := slot.next
      (.ok (some i), ⟨slots.setIfInBounds i ⟨next, some record⟩, next, allocated + 1⟩)

def record? (p : RecordPage) (i : Nat) : Option Record := p.slots[i]? >>= Slot.record

/-- Changes the record of slot `i`, if there is one. -/
def modifyRecord (p : RecordPage) (i : Nat) (f : Record → Record) : RecordPage :=
  { p with slots := p.slots.modify i fun s => { s with record := s.record.map f } }

def blocksFrom (slots : Array Slot) : (left i : Nat) → Array Nat → Array Nat
  | 0, _, found => found
  | left + 1, i, found =>
    match slots[i]? with
    | some ⟨_, some _⟩ => blocksFrom slots left (i + 1) (found.push i)
    | _ => blocksFrom slots left (i + 1) found

/-- The slots with a record, in the order of the page. -/
def blocks (p : RecordPage) : Array Nat := blocksFrom p.slots recordSlots 0 #[]

variable {ε : Type}

/-- A sweep under way. -/
structure Walk (ε : Type) where
  slots : Array Slot
  env : ε
  live : Nat
  tally : Tally
  queued : Array Nat

/-- Asks about the record of slot `i`. -/
def Walk.judge (ask : Nat → Record → ε → Fate × ε) (i : Nat) (record : Record) (w : Walk ε) :
    Walk ε :=
  match w with
  | ⟨slots, env, live, tally, queued⟩ =>
    let (fate, env) := ask i record env
    let tally := tally.count fate
    match fate with
    | .live => ⟨slots, env, live + 1, tally, queued⟩
    | .finalize => ⟨slots, env, live + 1, tally, queued.push i⟩
    | .dead => ⟨slots.setIfInBounds i ⟨none, none⟩, env, live, tally, queued⟩

/-- Asks about the records of `left` slots from slot `i` on. -/
def Walk.run (ask : Nat → Record → ε → Fate × ε) : (left i : Nat) → Walk ε → Walk ε
  | 0, _, w => w
  | left + 1, i, w =>
    match w.slots[i]? with
    | some ⟨_, some record⟩ => Walk.run ask left (i + 1) (w.judge ask i record)
    | _ => Walk.run ask left (i + 1) w

/-- Asks about every record in the order of the page and frees the slots of the dead ones. -/
def sweep (ask : Nat → Record → ε → Fate × ε) (p : RecordPage) (env : ε) : Swept RecordPage ε :=
  match Walk.run ask recordSlots 0 ⟨p.slots, env, 0, {}, #[]⟩ with
  | ⟨slots, env, live, tally, queued⟩ =>
    ⟨ofSlots slots live, env, tally, queued, live = 0, none⟩

end RecordPage

end SweptHeap
