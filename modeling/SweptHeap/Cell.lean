import SweptHeap.Layout

/-!
# Cells

A cell holds eight bytes that a user wrote, or what the heap keeps in its place: a range of free
blocks, the header of a tile, or an object's link to its record. All zero bytes are the word zero.
-/

namespace SweptHeap

/-- Pages are named in the order of their creation. -/
abbrev PageId := Nat

/-- A block or a record: its page, and its first cell or its slot there. -/
structure BlockRef where
  page : PageId
  index : Nat
  deriving DecidableEq

/-- Free blocks of a uniform page from `first` up to `last`. If `last` is a block of the page, it is
free too and holds the next range. -/
structure FreeRange where
  first : Nat
  last : Nat
  deriving DecidableEq

/-- Header of a tile; `size` counts the header's own cell. -/
structure TileHeader where
  allocated : Bool
  size : Nat
  deriving DecidableEq

inductive Cell where
  | word (bits : UInt64)
  | range (free : FreeRange)
  | header (tile : TileHeader)
  | link (record : BlockRef)
  deriving DecidableEq

namespace Cell

def zero : Cell := .word 0

/-- The mark of an object that a collection reached. -/
def mark : Cell := .word 1

/-- Two half words, the first in the low half. -/
private def pack (low high : Nat) : UInt64 := (low + high * countLimit).toUInt64

def bits : Cell → UInt64
  | word b => b
  | range r => pack r.first r.last
  | header h => pack (if h.allocated then 1 else 0) h.size
  | link r => pack r.index (r.page + 1)

def isZero (c : Cell) : Bool := c.bits == 0

def isMark (c : Cell) : Bool := c.bits == 1

def toRange : Cell → FreeRange
  | range r => r
  | c => ⟨c.bits.toNat % countLimit, c.bits.toNat / countLimit⟩

def toHeader : Cell → TileHeader
  | header h => h
  | c => ⟨c.bits.toNat % countLimit != 0, c.bits.toNat / countLimit⟩

def toLink : Cell → Option BlockRef
  | link r => some r
  | _ => none

@[simp] theorem toRange_range (r : FreeRange) : (range r).toRange = r := rfl

@[simp] theorem toHeader_header (h : TileHeader) : (header h).toHeader = h := rfl

@[simp] theorem toLink_link (r : BlockRef) : (link r).toLink = some r := rfl

@[simp] theorem isZero_zero : zero.isZero = true := rfl

@[simp] theorem toHeader_zero : zero.toHeader = ⟨false, 0⟩ := rfl

end Cell

/-- Zeroes `count` cells from `first` on. -/
def zeroCells (cells : Array Cell) (first : Nat) : Nat → Array Cell
  | 0 => cells
  | count + 1 => zeroCells (cells.setIfInBounds first .zero) (first + 1) count

@[simp] theorem size_zeroCells (cells : Array Cell) (first count : Nat) :
    (zeroCells cells first count).size = cells.size := by
  induction count generalizing cells first with
  | zero => rfl
  | succ count ih => simp [zeroCells, ih]

theorem getElem?_zeroCells (cells : Array Cell) (first count i : Nat) :
    (zeroCells cells first count)[i]? =
      if first ≤ i ∧ i < first + count ∧ i < cells.size then some .zero else cells[i]? := by
  induction count generalizing cells first with
  | zero =>
    simp only [zeroCells, Nat.add_zero]
    split
    · omega
    · rfl
  | succ count ih =>
    simp only [zeroCells, ih, Array.size_setIfInBounds, Array.getElem?_setIfInBounds]
    grind

end SweptHeap
