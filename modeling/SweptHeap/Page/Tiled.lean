import SweptHeap.Verdict

/-!
# Tiled pages

Behind a sentinel, the page is tiled by blocks of any size, each with a header in its first cell.
Allocation is next-fit: it splits the end off the block under the cursor, and moves the cursor when
that block is taken or too small. A sweep frees the dead blocks, then merges free neighbours.
-/

namespace SweptHeap

structure TiledPage where
  cells : Array Cell
  /-- First cell of the block to try first, or zero if none was free at the last search. -/
  cursor : Nat
  allocatedBytes : Nat

namespace TiledPage

def create : TiledPage :=
  ⟨(Array.replicate tiledCells .zero).setIfInBounds 1 (.header ⟨false, tiledCells - 1⟩), 1, 0⟩

def capacityBytes : Nat := (tiledCells - 1) * cellBytes

def headerAt (cells : Array Cell) (cell : Nat) : TileHeader := (cells.getD cell .zero).toHeader

/-- Cells of a block with room for `cells`, its header included. -/
def needed (cells : Nat) : Except Fault Nat :=
  if cells + 1 < countLimit then .ok (cells + 1) else .error .overflow

/-- Splits `need` cells off the end of the block at `cell`, if it is free and large enough, and
gives the first data cell. -/
def carve (p : TiledPage) (cell need : Nat) : Except Fault (Option Nat) × TiledPage :=
  let header := headerAt p.cells cell
  if tiledCells < cell then (.error (.outside cell), p)
  else if header.allocated || header.size < need then (.ok none, p)
  else
    let rest := header.size - need
    let block := cell + rest
    if tiledCells < block + 1 then (.error (.outside (block + 1)), p)
    else match p with
      | ⟨cells, cursor, bytes⟩ =>
        let cells := if rest = 0 then cells
          else cells.setIfInBounds cell (.header ⟨false, rest⟩)
        let cells := cells.setIfInBounds block (.header ⟨true, need⟩)
        (.ok (some (block + 1)), ⟨cells, cursor, bytes + need * cellBytes⟩)

/-- Result of a search: the first block that fits, or else the largest free one seen. -/
inductive Search where
  | fits (cell : Nat)
  | largest (cell size : Nat)

/-- Looks from `cell` up to `stop` for a free block of `need` cells. -/
def search (cells : Array Cell) (need stop : Nat) : (left cell : Nat) → (best : Nat × Nat) → Search
  | 0, _, best => .largest best.1 best.2
  | left + 1, cell, best =>
    if stop ≤ cell then .largest best.1 best.2
    else
      let header := headerAt cells cell
      if header.allocated then search cells need stop left (cell + header.size) best
      else if need ≤ header.size then .fits cell
      else
        let best := if best.2 < header.size then (cell, header.size) else best
        search cells need stop left (cell + header.size) best

/-- The largest free block from `cell` up to `stop`, the first of several, if larger than `best`. -/
def largestFree (cells : Array Cell) (stop : Nat) :
    (left cell : Nat) → (best : Nat × Nat) → Nat × Nat
  | 0, _, best => best
  | left + 1, cell, best =>
    if stop ≤ cell then best
    else
      let header := headerAt cells cell
      let best := if !header.allocated && best.2 < header.size then (cell, header.size) else best
      largestFree cells stop left (cell + header.size) best

/-- Where the cursor goes for a block of `need` cells: to the first free block at or after it that
fits, else to the largest free block of the page. -/
def nextCursor (p : TiledPage) (need : Nat) : Nat :=
  let start := max p.cursor 1
  match search p.cells need tiledCells tiledCells start (0, 0) with
  | .fits cell => cell
  | .largest cell size => (largestFree p.cells start tiledCells 1 (cell, size)).1

/-- Takes a block with room for `cells` and gives its first data cell. -/
def allocate (p : TiledPage) (cells : Nat) : Except Fault (Option Nat) × TiledPage :=
  match needed cells with
  | .error e => (.error e, p)
  | .ok need =>
    let cursor := p.cursor
    match p.carve cursor need with
    | (.ok none, p) =>
      let cursor := p.nextCursor need
      carve { p with cursor := cursor } cursor need
    | result => result

/-- Whether a free block from `cell` on has `need` cells. -/
def fitsFrom (cells : Array Cell) (need : Nat) : (left cell : Nat) → Bool
  | 0, _ => false
  | left + 1, cell =>
    if tiledCells ≤ cell then false
    else
      let header := headerAt cells cell
      if !header.allocated && need ≤ header.size then true
      else fitsFrom cells need left (cell + header.size)

def hasRoom (p : TiledPage) (cells : Nat) : Except Fault Bool :=
  (needed cells).map fun need => fitsFrom p.cells need tiledCells 1

def blocksFrom (cells : Array Cell) : (left cell : Nat) → Array Nat → Array Nat
  | 0, _, found => found
  | left + 1, cell, found =>
    if tiledCells ≤ cell then found
    else
      let header := headerAt cells cell
      blocksFrom cells left (cell + header.size)
        (if header.allocated then found.push (cell + 1) else found)

/-- First data cells of the allocated blocks, in the order of the page. -/
def blocks (p : TiledPage) : Array Nat := blocksFrom p.cells tiledCells 1 #[]

/-- Data cells of the block whose data begin at `index`. -/
def blockCells (p : TiledPage) (index : Nat) : Nat := (headerAt p.cells (index - 1)).size - 1

def tiledFrom (cells : Array Cell) (coalesced : Bool) :
    (left cell : Nat) → (afterFree : Bool) → Bool
  | 0, cell, _ => cell = tiledCells
  | left + 1, cell, afterFree =>
    if tiledCells ≤ cell then cell = tiledCells
    else
      let header := headerAt cells cell
      if header.size = 0 then false
      else if coalesced && !header.allocated && afterFree then false
      else tiledFrom cells coalesced left (cell + header.size) !header.allocated

/-- Whether the blocks tile the page behind the sentinel and, if asked, no two free blocks touch. -/
def isTiled (p : TiledPage) (coalesced : Bool) : Bool :=
  (headerAt p.cells 0).size = 0 && tiledFrom p.cells coalesced tiledCells 1 false

variable {ε : Type}

/-- The first pass of a sweep under way. -/
structure Walk (ε : Type) where
  cells : Array Cell
  env : ε
  liveBytes : Nat
  tally : Tally
  queued : Array Nat

/-- Asks about the allocated block of `size` cells at `cell`. -/
def Walk.judge (ask : Sight → ε → Ruling × ε) (cell size : Nat) (w : Walk ε) : Walk ε :=
  match w with
  | ⟨cells, env, liveBytes, tally, queued⟩ =>
    let data := cell + 1
    let marked := (cells.getD data .zero).isMark
    let record := (cells.getD (data + 1) .zero).toLink
    let (ruling, env) := ask ⟨data, marked, record⟩ env
    let tally := tally.count ruling.fate
    match ruling.fate with
    | .dead =>
      let cells := (zeroCells cells data (size - 1)).setIfInBounds cell (.header ⟨false, size⟩)
      ⟨cells, env, liveBytes, tally, queued⟩
    | fate =>
      let cells := if ruling.unmark then cells.setIfInBounds data .zero else cells
      let queued := if fate = .finalize then queued.push data else queued
      ⟨cells, env, liveBytes + size * cellBytes, tally, queued⟩

/-- Asks about every allocated block from `cell` on. -/
def Walk.run (ask : Sight → ε → Ruling × ε) : (left cell : Nat) → Walk ε → Walk ε
  | 0, _, w => w
  | left + 1, cell, w =>
    if tiledCells ≤ cell then w
    else
      let header := headerAt w.cells cell
      let w := if header.allocated then w.judge ask cell header.size else w
      Walk.run ask left (cell + header.size) w

/-- Merges the free blocks that follow the free block of `size` cells at `cell` into it. The header
of a merged block becomes a zero data cell. -/
def absorb (cell : Nat) : (left size : Nat) → Array Cell → Nat × Array Cell
  | 0, size, cells => (size, cells)
  | left + 1, size, cells =>
    if tiledCells ≤ cell + size then (size, cells)
    else
      let next := headerAt cells (cell + size)
      if next.allocated then (size, cells)
      else absorb cell left (size + next.size) (cells.setIfInBounds (cell + size) .zero)

/-- Merges free neighbours from `cell` on and finds the largest free block, the first of several. -/
def mergeFrom : (left cell : Nat) → (best : Nat × Nat) → Array Cell → (Nat × Nat) × Array Cell
  | 0, _, best, cells => (best, cells)
  | left + 1, cell, best, cells =>
    if tiledCells ≤ cell then (best, cells)
    else
      let header := headerAt cells cell
      if header.allocated then mergeFrom left (cell + header.size) best cells
      else
        let (size, cells) := absorb cell tiledCells header.size cells
        let cells := cells.setIfInBounds cell (.header ⟨false, size⟩)
        let best := if best.2 < size then (cell, size) else best
        mergeFrom left (cell + size) best cells

/-- Asks about every allocated block in the order of the page, frees the dead ones, merges free
neighbours and moves the cursor to the largest free block. -/
def sweep (ask : Sight → ε → Ruling × ε) (p : TiledPage) (env : ε) : Swept TiledPage ε :=
  match Walk.run ask tiledCells 1 ⟨p.cells, env, 0, {}, #[]⟩ with
  | ⟨cells, env, liveBytes, tally, queued⟩ =>
    let (best, cells) := mergeFrom tiledCells 1 (0, 0) cells
    ⟨⟨cells, best.1, liveBytes⟩, env, tally, queued, liveBytes = 0, none⟩

end TiledPage

end SweptHeap
