import SweptHeap.Page.Basic

/-!
# Memory

The mapped pages by name. Names are never used again. A page can be lent out, which leaves its place
vacant until it is put back; whoever sweeps a page or allocates from it has borrowed it.
-/

namespace SweptHeap

structure Memory where
  pages : Array (Option Page) := #[]
  journal : Journal := #[]

namespace Memory

def page? (m : Memory) (id : PageId) : Option Page := m.pages.getD id none

def report (m : Memory) (e : Event) : Memory := { m with journal := m.journal.push e }

/-- Maps a page for the request. -/
def map (r : Request) (m : Memory) : Except Fault PageId × Memory :=
  match Page.create r with
  | .error e => (.error e, m)
  | .ok p =>
    let event := p.mappedEvent
    match m with
    | ⟨pages, journal⟩ => (.ok pages.size, ⟨pages.push (some p), journal.push event⟩)

def unmap (id : PageId) (m : Memory) : Memory :=
  match m.page? id with
  | none => m
  | some p =>
    { pages := m.pages.setIfInBounds id none, journal := m.journal.push (.unmapped p.kind) }

/-- Takes a page out of its place. -/
def borrow (id : PageId) (m : Memory) : Option Page × Memory :=
  match m with
  | ⟨pages, journal⟩ =>
    let page := pages.getD id none
    (page, ⟨pages.setIfInBounds id none, journal⟩)

/-- Puts a borrowed page back. -/
def restore (id : PageId) (p : Page) (m : Memory) : Memory :=
  match m with
  | ⟨pages, journal⟩ => ⟨pages.setIfInBounds id (some p), journal⟩

@[inline] def modifyPage (id : PageId) (f : Page → Page) (m : Memory) : Memory :=
  match m.borrow id with
  | (none, m) => m
  | (some p, m) => m.restore id (f p)

/-- Takes a block with room for `cells` on the page. -/
def allocate (id : PageId) (cells : Nat) (m : Memory) : Except Fault (Option BlockRef) × Memory :=
  match m.borrow id with
  | (none, m) => (.error (.unmapped id), m)
  | (some p, m) =>
    match p.allocate cells with
    | (.ok index, p) => (.ok (index.map (⟨id, ·⟩)), m.restore id p)
    | (.error e, p) => (.error e, m.restore id p)

/-- Takes a slot on the page for `record`. -/
def enroll (id : PageId) (record : Record) (m : Memory) :
    Except Fault (Option BlockRef) × Memory :=
  match m.borrow id with
  | (none, m) => (.error (.unmapped id), m)
  | (some p, m) =>
    match p.enroll record with
    | (.ok slot, p) => (.ok (slot.map (⟨id, ·⟩)), m.restore id p)
    | (.error e, p) => (.error e, m.restore id p)

def hasRoom (id : PageId) (cells : Nat) (m : Memory) : Except Fault Bool :=
  match m.page? id with
  | none => .error (.unmapped id)
  | some p => p.hasRoom cells

def allocatedBytes (id : PageId) (m : Memory) : Nat := (m.page? id).elim 0 Page.allocatedBytes

def cell (m : Memory) (b : BlockRef) : Cell :=
  (m.page? b.page).elim .zero fun p => p.cells.getD b.index .zero

def setCell (b : BlockRef) (c : Cell) (m : Memory) : Memory :=
  m.modifyPage b.page fun p => p.modifyCells fun cells => cells.setIfInBounds b.index c

def record? (m : Memory) (r : BlockRef) : Option Record := m.page? r.page >>= (·.record? r.index)

def modifyRecord (r : BlockRef) (f : Record → Record) (m : Memory) : Memory :=
  m.modifyPage r.page (·.modifyRecord r.index f)

/-- Raises flags of the record at `r`. -/
def raise (r : BlockRef) (flags : Flags) (m : Memory) : Memory :=
  m.modifyRecord r (·.raise flags)

end Memory

end SweptHeap
