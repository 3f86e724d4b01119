import SweptHeap.Script.Take

/-!
# Scripts on one page

A script that allocates from a single page, sweeps it by a table of fates and looks at it.
-/

namespace SweptHeap.Script

structure PageScript where
  kind : PageKind
  arena : Arena Ledger

namespace PageScript

inductive Step where
  | alloc (claims : Claims)
  | sweep (fates recordFates : Arg (Option FateTable)) (epoch : Arg Int)
  | room (cells : Nat)
  | info
  | blocks
  | capacity
  | invariants
  | records
  | raise (sel : Selection) (flags : Flags)
  | detach (sel : Selection)
  | touch (t : Touch)

inductive Outcome where
  | taken (t : Taken)
  | swept (empty : Bool) (tally : Tally) (epoch : Int) (queue : Array Int)
  | room (room : Bool)
  | info (kind : PageKind) (bytes : Nat)
  | blocks (names : Array Int) (offsets : Array Int)
  | capacity (blocks blockSize : Nat)
  | invariants (plain coalesced : Bool)
  | records (records : Array Record)
  | changed (changed skipped : Nat)
  | touched (t : Touched)

/-- The only page of the script. -/
def pageId : PageId := 0

/-- Maps the page. -/
def start (r : Request) : Except Failure PageScript :=
  if isTooLargeFor r.kind r.cells then .error (.refused .tooLarge)
  else match Memory.map r {} with
    | (.error e, _) => .error (.faulted e)
    | (.ok _, memory) => .ok ⟨r.kind, { memory := memory, memo := {} }⟩

def page? (s : PageScript) : Option Page := s.arena.memory.page? pageId

/-- Bytes allocated and bytes in all. -/
def used (s : PageScript) : Nat × Nat :=
  s.page?.elim (0, 0) fun p => (p.allocatedBytes, p.capacityBytes)

private def refuse (s : PageScript) : Except Failure Outcome × PageScript :=
  (.error (.refused .badRequest), s)

def sweep (fates recordFates : Arg (Option FateTable)) (epoch : Arg Int) (s : PageScript) :
    Except Failure Outcome × PageScript :=
  match s with
  | ⟨kind, arena⟩ =>
    let (tables, memo) := arena.memo.setFates fates recordFates
    let arena := { arena with memo := memo }
    match (do tables; epoch : Arg Int) with
    | .error e => (.error e, ⟨kind, arena⟩)
    | .ok epoch =>
      match arena.sweepPage Ledger.byTable pageId with
      | (.error e, arena) => (.error (.faulted e), ⟨kind, arena⟩)
      | (.ok (empty, tally), arena) =>
        let (found, arena) := (arena.reportSweep epoch .page tally).takeFound
        (.ok (.swept empty tally epoch (arena.memo.namesOf found)), ⟨kind, arena⟩)

/-- What happened in the last step. -/
def report (tells : Bool) (s : PageScript) : Report × PageScript :=
  match s with
  | ⟨kind, arena⟩ =>
    let (report, arena) := takeReport tells arena
    (report, ⟨kind, arena⟩)

def step (s : PageScript) : Step → Except Failure Outcome × PageScript
  | .alloc claims =>
    match s with
    | ⟨kind, arena⟩ =>
      let (r, arena) := claims.takeFrom pageId arena
      (r.map .taken, ⟨kind, arena⟩)
  | .sweep fates recordFates epoch => s.sweep fates recordFates epoch
  | .room cells =>
    if isTooLargeFor s.kind cells then (.error (.refused .tooLarge), s)
    else match s.arena.memory.hasRoom pageId cells with
      | .error e => (.error (.faulted e), s)
      | .ok room => (.ok (.room room), s)
  | .info => (.ok (.info s.kind (s.page?.elim 0 Page.regionBytes)), s)
  | .blocks =>
    let offsets := s.page?.elim #[] fun p => p.blocks.map fun i => (p.offset i : Int)
    (.ok (.blocks (namesOn s.arena pageId) offsets), s)
  | .capacity =>
    match s.page? with
    | some (.uniform p) => (.ok (.capacity p.capacity p.blockSize), s)
    | _ => s.refuse
  | .invariants =>
    match s.page? with
    | some (.tiled p) => (.ok (.invariants (p.isTiled false) (p.isTiled true)), s)
    | _ => s.refuse
  | .records =>
    match s.page? with
    | some (.records p) => (.ok (.records (p.blocks.filterMap p.record?)), s)
    | _ => s.refuse
  | .raise sel flags => change s sel (·.raise flags)
  | .detach sel => change s sel Record.detach
  | .touch t =>
    match s with
    | ⟨kind, arena⟩ =>
      let (r, arena) := touch false t arena
      (r.map .touched, ⟨kind, arena⟩)
where
  change (s : PageScript) (sel : Selection) (f : Record → Record) :
      Except Failure Outcome × PageScript :=
    match s with
    | ⟨kind, arena⟩ =>
      let ((changed, skipped), arena) := changeRecords sel f arena
      (.ok (.changed changed skipped), ⟨kind, arena⟩)

end PageScript

end SweptHeap.Script
