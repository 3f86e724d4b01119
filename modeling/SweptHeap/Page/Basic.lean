import SweptHeap.Page.Uniform
import SweptHeap.Page.Tiled
import SweptHeap.Page.Large
import SweptHeap.Page.Records
import SweptHeap.Event

/-!
# Pages

One page of any kind, and what all kinds have in common: room, blocks, sweeps and extents.
-/

namespace SweptHeap

inductive Page where
  | uniform (page : UniformPage)
  | tiled (page : TiledPage)
  | large (page : LargePage)
  | records (page : RecordPage)

/-- What a page is created for and asked for. The count says nothing about pages of records. -/
structure Request where
  kind : PageKind
  cells : Nat
  deriving DecidableEq

def SizeClass.request (c : SizeClass) : Request := ⟨c.kind, c.cells⟩

def Request.records : Request := ⟨.records, 0⟩

namespace Page

def create (r : Request) : Except Fault Page :=
  match r.kind with
  | .uniform => (UniformPage.create r.cells).map uniform
  | .tiled => .ok (tiled .create)
  | .large => (LargePage.create r.cells).map large
  | .records => .ok (records .create)

def kind : Page → PageKind
  | uniform _ => .uniform
  | tiled _ => .tiled
  | large _ => .large
  | records _ => .records

/-- Whether an allocation of `cells` would succeed. -/
def hasRoom (p : Page) (cells : Nat) : Except Fault Bool :=
  match p with
  | uniform p => .ok p.hasRoom
  | tiled p => p.hasRoom cells
  | large p => .ok p.hasRoom
  | records p => .ok p.hasRoom

/-- Takes a block with room for `cells`; pages of records have none. -/
def allocate (p : Page) (cells : Nat) : Except Fault (Option Nat) × Page :=
  match p with
  | uniform p => let (r, p) := p.allocate; (r, uniform p)
  | tiled p => let (r, p) := p.allocate cells; (r, tiled p)
  | large p => let (r, p) := p.allocate; (.ok r, large p)
  | records p => (.ok none, records p)

/-- Takes a slot for `record`, which only pages of records have. -/
def enroll (p : Page) (record : Record) : Except Fault (Option Nat) × Page :=
  match p with
  | records p => let (r, p) := p.allocate record; (r, records p)
  | p => (.ok none, p)

def capacityBytes : Page → Nat
  | uniform p => p.capacityBytes
  | tiled _ => TiledPage.capacityBytes
  | large p => p.capacityBytes
  | records _ => RecordPage.capacityBytes

def allocatedBytes : Page → Nat
  | uniform p => p.allocatedBytes
  | tiled p => p.allocatedBytes
  | large p => p.allocatedBytes
  | records p => p.allocatedBytes

def occupancy (p : Page) : Occupancy := ⟨p.capacityBytes, p.allocatedBytes⟩

/-- Extent of the mapped region. -/
def regionBytes : Page → Nat
  | large p => p.regionBytes
  | _ => pageBytes

/-- Indices of the allocated blocks or records, in the order of the page. -/
def blocks : Page → Array Nat
  | uniform p => p.blocks
  | tiled p => p.blocks
  | large p => p.blocks
  | records p => p.blocks

/-- Data cells of the allocated block at `index`. -/
def blockCells (p : Page) (index : Nat) : Nat :=
  match p with
  | uniform p => p.blockSize
  | tiled p => p.blockCells index
  | large p => p.cells.size
  | records _ => 0

/-- Bytes from the start of the page to the block or record at `index`. -/
def offset (p : Page) (index : Nat) : Nat :=
  p.kind.headerBytes + match p.kind with
    | .records => index * slotBytes + slotLinkBytes
    | _ => index * cellBytes

def cells : Page → Array Cell
  | uniform p => p.cells
  | tiled p => p.cells
  | large p => p.cells
  | records _ => #[]

@[inline] def modifyCells (f : Array Cell → Array Cell) : Page → Page
  | uniform ⟨cells, size, limit, free, bytes⟩ => uniform ⟨f cells, size, limit, free, bytes⟩
  | tiled ⟨cells, cursor, bytes⟩ => tiled ⟨f cells, cursor, bytes⟩
  | large ⟨cells, allocated⟩ => large ⟨f cells, allocated⟩
  | records p => records p

def record? (p : Page) (slot : Nat) : Option Record :=
  match p with
  | records p => p.record? slot
  | _ => none

def modifyRecord (p : Page) (slot : Nat) (f : Record → Record) : Page :=
  match p with
  | records p => records (p.modifyRecord slot f)
  | p => p

variable {ε : Type}

/-- Asks about every allocated block or record and frees the dead ones. -/
def sweep (ask : Sight → ε → Ruling × ε) (askRecord : Nat → Record → ε → Fate × ε) (p : Page)
    (env : ε) : Swept Page ε :=
  match p with
  | uniform p =>
    match p.sweep ask env with
    | ⟨p, env, tally, queued, empty, fault⟩ => ⟨uniform p, env, tally, queued, empty, fault⟩
  | tiled p =>
    match p.sweep ask env with
    | ⟨p, env, tally, queued, empty, fault⟩ => ⟨tiled p, env, tally, queued, empty, fault⟩
  | large p =>
    match p.sweep ask env with
    | ⟨p, env, tally, queued, empty, fault⟩ => ⟨large p, env, tally, queued, empty, fault⟩
  | records p =>
    match p.sweep askRecord env with
    | ⟨p, env, tally, queued, empty, fault⟩ => ⟨records p, env, tally, queued, empty, fault⟩

/-- How the page's creation is reported. -/
def mappedEvent (p : Page) : Event :=
  .mapped p.kind (match p with
    | uniform p => p.blockSize
    | p => p.regionBytes)

end Page

end SweptHeap
