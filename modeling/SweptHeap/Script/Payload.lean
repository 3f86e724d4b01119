import SweptHeap.Script.Ledger

/-!
# Payloads

The bytes of a block that a script may read and write: the whole block, or what follows the mark and
the link of an object. Bytes stand in their cells in ascending order of significance.
-/

namespace SweptHeap.Script

/-- The cell of eight equal bytes. -/
def wordOf (byte : UInt8) : Cell :=
  .word (byte.toUInt64 * 0x0101010101010101)

/-- The byte of a cell at position `i`. -/
def byteOf (c : Cell) (i : Nat) : UInt8 := (c.bits >>> (8 * i).toUInt64).toUInt8

/-- The cell with the byte at position `i` replaced. -/
def withByte (c : Cell) (i : Nat) (byte : UInt8) : Cell :=
  let shift := (8 * i).toUInt64
  .word ((c.bits &&& ~~~((0xFF : UInt64) <<< shift)) ||| (byte.toUInt64 <<< shift))

/-- Sets `count` cells from `first` on. -/
def fillCells (c : Cell) (cells : Array Cell) (first : Nat) : (count : Nat) → Array Cell
  | 0 => cells
  | count + 1 => fillCells c (cells.setIfInBounds first c) (first + 1) count

/-- Whether `count` cells from `first` on are all zero. -/
def areZero (cells : Array Cell) (first : Nat) : (count : Nat) → Bool
  | 0 => true
  | count + 1 => (cells.getD first .zero).isZero && areZero cells (first + 1) count

/-- Writes bytes from byte `start` of the cells on. -/
def writeBytes (cells : Array Cell) (start : Nat) : List UInt8 → Array Cell
  | [] => cells
  | byte :: rest =>
    let cells := cells.modify (start / cellBytes) fun c => withByte c (start % cellBytes) byte
    writeBytes cells (start + 1) rest

/-- Reads `count` bytes from byte `start` of the cells on. -/
def readBytes (cells : Array Cell) (start count : Nat) : List UInt8 :=
  (List.range count).map fun i =>
    byteOf (cells.getD ((start + i) / cellBytes) .zero) ((start + i) % cellBytes)

namespace Entry

/-- Cells in front of the payload. -/
def hiddenCells (e : Entry) (allHidden : Bool) : Nat :=
  if allHidden || e.shape.isObject then objectHeaderBytes / cellBytes else 0

def payloadBytes (e : Entry) (allHidden : Bool) : Nat :=
  (e.cells - e.hiddenCells allHidden) * cellBytes

/-- First cell of the payload. -/
def payloadStart (e : Entry) (allHidden : Bool) : Nat := e.ref.index + e.hiddenCells allHidden

/-- Whether a block that was just allocated has a byte that is not zero, an array's length apart. -/
def isDirty (e : Entry) (m : Memory) : Bool :=
  match m.page? e.ref.page with
  | none => false
  | some p =>
    match e.shape with
    | .record => false
    | .array count =>
      !areZero p.cells e.ref.index 2 || m.length e.ref != count ||
        !areZero p.cells (e.ref.index + 3) (e.cells - 3)
    | _ => !areZero p.cells e.ref.index e.cells

end Entry

/-- Fills the payloads of the selected live blocks, and counts them and the others. -/
def fill (allHidden : Bool) (sel : Selection) (byte : UInt8) (a : Arena Ledger) :
    (Nat × Nat) × Arena Ledger :=
  let word := wordOf byte
  sel.toList.foldl (fun ((filled, skipped), a) id =>
    match a.memo.live? id with
    | none => ((filled, skipped + 1), a)
    | some e =>
      let first := e.payloadStart allHidden
      let count := e.payloadBytes allHidden / cellBytes
      ((filled + 1, skipped), a.modifyMemory (·.modifyPage e.ref.page
        (·.modifyCells fun cells => fillCells word cells first count)))) ((0, 0), a)

/-- A live block and the part of its payload from `offset` on that is `count` bytes long. -/
def locate (allHidden : Bool) (id : Int) (offset count : Arg Nat) (l : Ledger) :
    Except Failure (Entry × Nat × Nat) := do
  let e ← l.find id
  let offset ← offset
  let count ← count
  if e.payloadBytes allHidden < offset + count then throw (.refused .outOfRange)
  return (e, offset, count)

/-- Writes into a payload, and says how many bytes it wrote. -/
def write (allHidden : Bool) (id : Int) (offset : Arg Nat) (bytes : Arg (List UInt8))
    (a : Arena Ledger) : Except Failure Nat × Arena Ledger :=
  let target : Except Failure (Entry × Nat × List UInt8) := do
    let (e, offset, _) ← locate allHidden id offset (bytes.map List.length) a.memo
    return (e, offset, ← bytes)
  match target with
  | .error e => (.error e, a)
  | .ok (e, offset, bytes) =>
    let start := e.payloadStart allHidden * cellBytes + offset
    (.ok bytes.length, a.modifyMemory (·.modifyPage e.ref.page
      (·.modifyCells fun cells => writeBytes cells start bytes)))

/-- Reads from a payload. -/
def read (allHidden : Bool) (id : Int) (offset count : Arg Nat) (a : Arena Ledger) :
    Except Failure (List UInt8) := do
  let (e, offset, count) ← locate allHidden id offset count a.memo
  let cells := (a.memory.page? e.ref.page).elim #[] Page.cells
  return readBytes cells (e.payloadStart allHidden * cellBytes + offset) count

/-- What a script may do with payloads. -/
inductive Touch where
  | fill (sel : Selection) (byte : UInt8)
  | write (id : Int) (offset : Arg Nat) (bytes : Arg (List UInt8))
  | read (id : Int) (offset count : Arg Nat)

inductive Touched where
  | filled (filled skipped : Nat)
  | wrote (bytes : Nat)
  | bytes (bytes : List UInt8)

def touch (allHidden : Bool) (t : Touch) (a : Arena Ledger) :
    Except Failure Touched × Arena Ledger :=
  match t with
  | .fill sel byte =>
    let ((filled, skipped), a) := fill allHidden sel byte a
    (.ok (.filled filled skipped), a)
  | .write id offset bytes =>
    let (r, a) := write allHidden id offset bytes a
    (r.map .wrote, a)
  | .read id offset count => ((read allHidden id offset count a).map .bytes, a)

end SweptHeap.Script
