import SweptHeap.Verdict

/-!
# Pages with one large block

The page is as large as its only block needs. A dead block is not zeroed: its page is unmapped, or
handed out again with what it held.
-/

namespace SweptHeap

structure LargePage where
  cells : Array Cell
  allocated : Bool

namespace LargePage

/-- A page for a block of `cells` cells, which must be too large for a tiled page. -/
def create (cells : Nat) : Except Fault LargePage :=
  if largestTiled < cells then .ok ⟨Array.replicate cells .zero, false⟩
  else .error (.fitsTiled cells)

def capacityBytes (p : LargePage) : Nat := p.cells.size * cellBytes

def allocatedBytes (p : LargePage) : Nat := if p.allocated then p.capacityBytes else 0

def regionBytes (p : LargePage) : Nat := PageKind.large.headerBytes + p.capacityBytes

def hasRoom (p : LargePage) : Bool := !p.allocated

def allocate (p : LargePage) : Option Nat × LargePage :=
  if p.allocated then (none, p) else (some 0, { p with allocated := true })

def blocks (p : LargePage) : Array Nat := if p.allocated then #[0] else #[]

variable {ε : Type}

def sweep (ask : Sight → ε → Ruling × ε) (p : LargePage) (env : ε) : Swept LargePage ε :=
  match p with
  | ⟨cells, false⟩ => ⟨⟨cells, false⟩, env, {}, #[], true, none⟩
  | ⟨cells, true⟩ =>
    let marked := (cells.getD 0 .zero).isMark
    let record := (cells.getD 1 .zero).toLink
    let (ruling, env) := ask ⟨0, marked, record⟩ env
    let cells := if ruling.unmark then cells.setIfInBounds 0 .zero else cells
    let tally := Tally.count {} ruling.fate
    match ruling.fate with
    | .live => ⟨⟨cells, true⟩, env, tally, #[], false, none⟩
    | .finalize => ⟨⟨cells, true⟩, env, tally, #[0], false, none⟩
    | .dead => ⟨⟨cells, false⟩, env, tally, #[], true, none⟩

end LargePage

end SweptHeap
