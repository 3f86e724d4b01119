/-!
# Sizes

Memory is handed out in cells of eight bytes. Cells come from pages of 256 KiB, of which there are
four kinds: pages of uniform blocks, pages tiled by blocks of any size, pages with one large block,
and pages of records. A request is served by the first of the first three kinds that it fits.
-/

namespace SweptHeap

def cellBytes : Nat := 8

def pageBytes : Nat := 256 * 1024

/-- Regions are mapped in units of this many bytes. -/
def mappingBytes : Nat := 4096

/-- Whether a region of this size can be mapped: there is something to map, and the address space
has room for it. -/
def isMappable (bytes : Nat) : Bool := 0 < bytes && bytes < 4611686018427387904

/-- Values of a machine word lie below this bound. -/
def wordLimit : Nat := 18446744073709551616

/-- Cell counts of a request lie below this bound. -/
def countLimit : Nat := 4294967296

/-- Number of cells that hold `bytes`. -/
def cellsFor (bytes : Nat) : Nat := (bytes + 7) / cellBytes

inductive PageKind where
  | uniform
  | tiled
  | large
  | records
  deriving DecidableEq

namespace PageKind

def code : PageKind → Nat
  | uniform => 1
  | tiled => 2
  | large => 3
  | records => 4

def title : PageKind → String
  | uniform => "FixedBlock"
  | tiled => "NextFit"
  | large => "SingleObject"
  | records => "ExtraObject"

def phrase : PageKind → String
  | uniform => "fixed block"
  | tiled => "next fit"
  | large => "single object"
  | records => "extra object"

/-- Bytes in front of the first cell or slot of a page. -/
def headerBytes : PageKind → Nat
  | uniform => 32
  | tiled => 24
  | large => 24
  | records => 16

def all : List PageKind := [uniform, tiled, large, records]

end PageKind

/-- Largest block of a uniform page, in cells. -/
def largestUniform : Nat := 128

def uniformCells : Nat := (pageBytes - PageKind.uniform.headerBytes) / cellBytes

def tiledCells : Nat := (pageBytes - PageKind.tiled.headerBytes) / cellBytes

/-- Largest block of a tiled page: all its cells but the sentinel and the block's header. -/
def largestTiled : Nat := tiledCells - 2

/-- A record and its place in the free list. -/
def slotBytes : Nat := 24

/-- Bytes in front of the record inside its slot. -/
def slotLinkBytes : Nat := 8

def recordSlots : Nat := (pageBytes - PageKind.records.headerBytes) / slotBytes

/-- The kind of page that serves a request, with the request in cells. -/
inductive SizeClass where
  | uniform (cells : Nat)
  | tiled (cells : Nat)
  | large (cells : Nat)
  deriving DecidableEq

namespace SizeClass

def ofCells (cells : Nat) : SizeClass :=
  let cells := max cells 1
  if cells ≤ largestUniform then uniform cells
  else if cells ≤ largestTiled then tiled cells
  else large cells

def ofBytes (bytes : Nat) : SizeClass := ofCells (cellsFor bytes)

def kind : SizeClass → PageKind
  | uniform _ => .uniform
  | tiled _ => .tiled
  | large _ => .large

def cells : SizeClass → Nat
  | uniform n => n
  | tiled n => n
  | large n => n

@[simp] theorem cells_ofCells (n : Nat) : (ofCells n).cells = max n 1 := by
  simp only [ofCells]
  split
  · rfl
  · split <;> rfl

end SizeClass

end SweptHeap
