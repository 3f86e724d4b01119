import SweptHeap.Verdict

/-!
# Pages of uniform blocks

All blocks of the page have the same size. The free blocks form ranges in ascending order: the page
holds the first range, and the last block of each range holds the next one. Allocation takes the
lowest free block. A sweep walks the page once and rebuilds the ranges in place: a link is read
before the walk can write to its block, since every write lands behind the walk.
-/

namespace SweptHeap

structure UniformPage where
  cells : Array Cell
  blockSize : Nat
  /-- End of the last block. -/
  limit : Nat
  free : FreeRange
  allocatedBytes : Nat

namespace UniformPage

def create (blockSize : Nat) : Except Fault UniformPage :=
  if 0 < blockSize ∧ blockSize ≤ largestUniform then
    let limit := uniformCells / blockSize * blockSize
    .ok ⟨Array.replicate uniformCells .zero, blockSize, limit, ⟨0, limit⟩, 0⟩
  else .error .blockSize

def blockBytes (p : UniformPage) : Nat := p.blockSize * cellBytes

/-- Number of blocks. -/
def capacity (p : UniformPage) : Nat := p.limit / p.blockSize

def capacityBytes (p : UniformPage) : Nat := p.limit * cellBytes

def hasRoom (p : UniformPage) : Bool := p.free.first < p.limit

def rangeAt (p : UniformPage) (cell : Nat) : FreeRange := (p.cells.getD cell .zero).toRange

/-- Hands out the block at `cell` and goes on with the free blocks of `rest`. Only the first cell of
a free block can hold anything, namely a range. -/
def claim (p : UniformPage) (cell : Nat) (rest : FreeRange) : UniformPage :=
  { p with
    cells := p.cells.setIfInBounds cell .zero
    free := rest
    allocatedBytes := p.allocatedBytes + p.blockSize * cellBytes }

/-- Takes the lowest free block, if there is one. -/
def allocate (p : UniformPage) : Except Fault (Option Nat) × UniformPage :=
  let cell := p.free.first
  let bump : Bool := cell < p.free.last
  if !bump && p.limit ≤ cell then (.ok none, p)
  else if p.limit < cell then (.error (.outside cell), p)
  else
    let rest := if bump then ⟨cell + p.blockSize, p.free.last⟩ else p.rangeAt cell
    (.ok (some cell), p.claim cell rest)

/-- The allocated blocks from `cell` on, if `free` is the next range; `left` bounds the steps. -/
def blocksFrom (p : UniformPage) : (left cell : Nat) → FreeRange → Array Nat → Array Nat
  | 0, _, _, found => found
  | left + 1, cell, free, found =>
    if p.limit ≤ cell then found
    else if cell < free.first then
      p.blocksFrom left (cell + p.blockSize) free (found.push cell)
    else if p.limit ≤ free.last then found
    else p.blocksFrom left (free.last + p.blockSize) (p.rangeAt free.last) found

/-- First cells of the allocated blocks, in the order of the page. -/
def blocks (p : UniformPage) : Array Nat := p.blocksFrom (p.capacity + 1) 0 p.free #[]

variable {ε : Type}

/-- A sweep under way. `old` is the next range of the chain that the sweep found, `link` the end of
the last range of the chain that it builds, and `run` the free blocks since the last live one. -/
structure Walk (ε : Type) where
  page : UniformPage
  env : ε
  old : FreeRange
  link : Option Nat
  run : Option FreeRange
  live : Nat
  tally : Tally
  queued : Array Nat

/-- Appends a range to the chain under construction. -/
def Walk.chain (w : Walk ε) (range : FreeRange) : Walk ε :=
  match w.link with
  | none => { w with page := { w.page with free := range }, link := some range.last }
  | some cell =>
    { w with
      page := { w.page with cells := w.page.cells.setIfInBounds cell (.range range) }
      link := some range.last }

/-- Passes a block that is free from now on. -/
def Walk.passFree (w : Walk ε) (cell : Nat) : Walk ε :=
  match w.run with
  | none => { w with run := some ⟨cell, cell⟩ }
  | some r => { w with run := some ⟨r.first, cell⟩ }

/-- Passes a block that stays allocated, which ends a run of free ones. -/
def Walk.passLive (w : Walk ε) : Walk ε :=
  match w with
  | ⟨page, env, old, link, run, live, tally, queued⟩ =>
    match run with
    | none => ⟨page, env, old, link, none, live + 1, tally, queued⟩
    | some r => Walk.chain ⟨page, env, old, link, none, live + 1, tally, queued⟩ r

/-- Asks about the allocated block at `cell`. -/
def Walk.judge (ask : Sight → ε → Ruling × ε) (cell : Nat) (w : Walk ε) : Walk ε :=
  match w with
  | ⟨⟨cells, size, limit, free, bytes⟩, env, old, link, run, live, tally, queued⟩ =>
    let marked := (cells.getD cell .zero).isMark
    let record := (cells.getD (cell + 1) .zero).toLink
    let (ruling, env) := ask ⟨cell, marked, record⟩ env
    let tally := tally.count ruling.fate
    match ruling.fate with
    | .dead =>
      let page := ⟨zeroCells cells cell size, size, limit, free, bytes⟩
      Walk.passFree ⟨page, env, old, link, run, live, tally, queued⟩ cell
    | fate =>
      let cells := if ruling.unmark then cells.setIfInBounds cell .zero else cells
      let queued := if fate = .finalize then queued.push cell else queued
      Walk.passLive ⟨⟨cells, size, limit, free, bytes⟩, env, old, link, run, live, tally, queued⟩

/-- Sweeps the block at `cell`. -/
def Walk.step (ask : Sight → ε → Ruling × ε) (cell : Nat) (w : Walk ε) :
    Except Fault Unit × Walk ε :=
  if cell < w.old.first then (.ok (), w.judge ask cell)
  else if cell < w.old.last then (.ok (), w.passFree cell)
  else if cell = w.old.last then
    let old := w.page.rangeAt cell
    (.ok (), { w with old := old }.passFree cell)
  else (.error (.strayLink cell w.old.last), w)

/-- Sweeps `left` blocks from `cell` on. -/
def Walk.advance (ask : Sight → ε → Ruling × ε) :
    (left cell : Nat) → Walk ε → Except Fault Unit × Walk ε
  | 0, _, w => (.ok (), w)
  | left + 1, cell, w =>
    match w.step ask cell with
    | (.ok (), w) => Walk.advance ask left (cell + w.page.blockSize) w
    | (.error e, w) => (.error e, w)

/-- Ends the chain at the limit of the page. -/
def Walk.finish (w : Walk ε) : Walk ε :=
  match w with
  | ⟨page, env, old, link, run, live, tally, queued⟩ =>
    let first := match run with
      | none => page.limit
      | some r => r.first
    let tail : FreeRange := ⟨first, page.limit⟩
    let bytes := live * page.blockBytes
    Walk.chain
      ⟨{ page with allocatedBytes := bytes }, env, old, link, none, live, tally, queued⟩ tail

/-- Asks about every allocated block in the order of the page and frees the dead ones. -/
def sweep (ask : Sight → ε → Ruling × ε) (p : UniformPage) (env : ε) : Swept UniformPage ε :=
  let count := p.capacity
  let old := p.free
  match Walk.advance ask count 0 ⟨p, env, old, none, none, 0, {}, #[]⟩ with
  | (.ok (), w) =>
    let w := w.finish
    ⟨w.page, w.env, w.tally, w.queued, w.live = 0, none⟩
  | (.error e, w) => ⟨w.page, w.env, w.tally, w.queued, false, some e⟩

end UniformPage

end SweptHeap
