import SweptHeap.Memory

/-!
# Objects

An object is a block that begins with two cells of its own: its mark and the link to its record. Its
payload follows. An array is an object whose payload begins with the number of its elements.
-/

namespace SweptHeap

/-- Bytes of the mark and the link. -/
def objectHeaderBytes : Nat := 16

/-- Bytes of the length in front of an array's elements. -/
def arrayLengthBytes : Nat := 8

/-- Size of an object with `payload` bytes. -/
def objectBytes (payload : Nat) : Except Fault Nat :=
  if payload + objectHeaderBytes < wordLimit then .ok (payload + objectHeaderBytes)
  else .error .objectSize

/-- Payload of an array of `count` elements of `element` bytes each. -/
def arrayPayload (element count : Nat) : Except Fault Nat :=
  if element * count + arrayLengthBytes < wordLimit then .ok (element * count + arrayLengthBytes)
  else .error .arraySize

namespace BlockRef

def linkCell (b : BlockRef) : BlockRef := { b with index := b.index + 1 }

def payloadCell (b : BlockRef) : BlockRef := { b with index := b.index + 2 }

end BlockRef

namespace Memory

def isMarked (m : Memory) (object : BlockRef) : Bool := (m.cell object).isMark

/-- Marks an object that is not marked, and says whether it did. -/
def mark (object : BlockRef) (m : Memory) : Bool × Memory :=
  let old := m.cell object
  if old.isZero then (true, m.setCell object .mark) else (false, m)

/-- Clears the mark, and says whether it was set. -/
def unmark (object : BlockRef) (m : Memory) : Bool × Memory :=
  let was := m.isMarked object
  (was, m.setCell object .zero)

/-- The record linked from an object. -/
def recordOf (m : Memory) (object : BlockRef) : Option BlockRef := (m.cell object.linkCell).toLink

/-- Links a record from an object that has none; gives the record linked before, if there was
one. -/
def link (object record : BlockRef) (m : Memory) : Option BlockRef × Memory :=
  match m.recordOf object with
  | some old => (some old, m)
  | none => (none, m.setCell object.linkCell (.link record))

def length (m : Memory) (array : BlockRef) : Nat := (m.cell array.payloadCell).bits.toNat

def setLength (array : BlockRef) (count : Nat) (m : Memory) : Memory :=
  m.setCell array.payloadCell (.word count.toUInt64)

end Memory

end SweptHeap
