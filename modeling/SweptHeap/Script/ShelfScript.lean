import SweptHeap.Script.Take
import SweptHeap.Shelf.Depot

/-!
# Scripts on one shelf

A script that gets pages from one shelf, allocates from them, and collects by a table of fates.
-/

namespace SweptHeap.Script

structure ShelfScript where
  kind : PageKind
  depot : Depot Ledger
  /-- The pages that the script knows: those that it last found on the shelf, and those that it got
  since. -/
  known : Array PageId := #[]

namespace ShelfScript

inductive Step where
  /-- A page with room, and blocks from it if any are claimed. -/
  | get (cells : Nat) (claims : Option Claims) (epoch : Int)
  | new (cells : Nat) (claims : Option Claims)
  | alloc (page : PageId) (claims : Claims)
  | fates (fates recordFates : Arg (Option FateTable))
  | prepare
  | sweep (epoch : Int)
  | sweepFree (epoch : Int)
  | release (keep : Nat)
  | clear
  | pages
  | raise (sel : Selection) (flags : Flags)
  | detach (sel : Selection)
  | touch (t : Touch)

/-- Whether the step, if it succeeds, tells the questions to the policy and looks at the shelf. A
step that only touches payloads or records does not. -/
def Step.tells : Step → Bool
  | raise _ _ | detach _ | touch _ => false
  | _ => true

/-- A page, the bytes allocated on it, its extent and the numbers of its blocks. -/
structure PageView where
  id : PageId
  allocatedBytes : Nat
  regionBytes : Nat
  names : Array Int

inductive Outcome where
  | done
  | page (id : PageId) (room : Bool) (taken : Option Taken)
  | taken (t : Taken)
  | swept (tally : Tally)
  | released (pages : Nat)
  | pages (pages : Array PageView)
  | changed (changed skipped : Nat)
  | touched (t : Touched)

def start (kind : PageKind) (fates recordFates : Option FateTable) : ShelfScript :=
  let arena : Arena Ledger := { memo := { fates := fates.getD {}, recordFates := recordFates } }
  { kind := kind, depot := { arena := arena } }

def counts (s : ShelfScript) : PageCount := s.depot.shelf.count

def bytes (s : ShelfScript) : Nat := s.depot.arena.meter.allocated

def sweepers (s : ShelfScript) : Nat := s.depot.arena.sweepers

abbrev Result := Except Failure Outcome × ShelfScript

@[inline] private def run (act : Act (Depot Ledger) Outcome) (s : ShelfScript) : Result :=
  match s with
  | ⟨kind, depot, known⟩ =>
    match act.apply depot with
    | (.ok r, depot) => (.ok r, ⟨kind, depot, known⟩)
    | (.error e, depot) => (.error (.faulted e), ⟨kind, depot, known⟩)

/-- Takes blocks from a page. -/
private def takeFrom (id : PageId) (claims : Claims) (s : ShelfScript) :
    Except Failure Taken × ShelfScript :=
  match s with
  | ⟨kind, ⟨shelf, arena⟩, known⟩ =>
    let (r, arena) := claims.takeFrom id arena
    (r, ⟨kind, ⟨shelf, arena⟩, known⟩)

/-- Asks for a page, which is known from then on. -/
private def acquire (act : Act (Depot Ledger) PageId) (s : ShelfScript) :
    Except Failure PageId × ShelfScript :=
  match s with
  | ⟨kind, depot, known⟩ =>
    match act.apply depot with
    | (.ok id, depot) => (.ok id, ⟨kind, depot, known.push id⟩)
    | (.error e, depot) => (.error (.faulted e), ⟨kind, depot, known⟩)

/-- Asks for a page, looks whether it has room, and takes blocks from it. -/
private def receive (act : Act (Depot Ledger) PageId) (cells : Nat) (claims : Option Claims)
    (s : ShelfScript) : Result :=
  match s.acquire act with
  | (.error e, s) => (.error e, s)
  | (.ok id, s) =>
    match s.depot.arena.memory.hasRoom id cells, claims with
    | .error e, _ => (.error (.faulted e), s)
    | .ok room, none => (.ok (.page id room none), s)
    | .ok room, some claims =>
      let (r, s) := s.takeFrom id claims
      (r.map fun t => .page id room (some t), s)

private def change (sel : Selection) (f : Record → Record) (s : ShelfScript) : Result :=
  s.run do
    let (changed, skipped) ← Depot.onArena (changeRecords sel f)
    return .changed changed skipped

/-- The numbers of the blocks to finalize that the last step found. -/
def found (s : ShelfScript) : Array Int := s.depot.arena.memo.namesOf s.depot.arena.found

/-- What happened in the last step; the blocks to finalize that it found go with it. -/
def report (tells : Bool) (s : ShelfScript) : Report × ShelfScript :=
  match s with
  | ⟨kind, ⟨shelf, arena⟩, known⟩ =>
    let (report, arena) := takeReport tells arena
    (report, ⟨kind, ⟨shelf, { arena with found := {} }⟩, known⟩)

/-- Looks at the shelf: from then on the pages on it are known, and no others. -/
private def lookAround (s : ShelfScript) : ShelfScript :=
  match s with
  | ⟨kind, ⟨shelf, arena⟩, _⟩ => ⟨kind, ⟨shelf, arena⟩, shelf.pages⟩

/-- What a step does, before it looks at the shelf. -/
def perform (s : ShelfScript) : Step → Result
  | .get cells claims epoch =>
    if isTooLargeFor s.kind cells then (.error (.refused .tooLarge), s)
    else s.receive (Depot.getPage Ledger.byTable ⟨s.kind, cells⟩ epoch) cells claims
  | .new cells claims =>
    if isTooLargeFor s.kind cells then (.error (.refused .tooLarge), s)
    else s.receive (Depot.newPage ⟨s.kind, cells⟩) cells claims
  | .alloc page claims =>
    if s.known.contains page then
      let (r, s) := s.takeFrom page claims
      (r.map .taken, s)
    else (.error (.refused .noPage), s)
  | .fates fates recordFates =>
    match s with
    | ⟨kind, ⟨shelf, arena⟩, known⟩ =>
      let (r, memo) := arena.memo.setFates fates recordFates
      (r.map fun _ => .done, ⟨kind, ⟨shelf, { arena with memo := memo }⟩, known⟩)
  | .prepare => s.run do Depot.prepare; return .done
  | .sweep epoch =>
    s.run do
      let tally ← Depot.sweep Ledger.byTable {}
      Depot.modifyArena (·.reportSweep epoch .shelf tally)
      return .swept tally
  | .sweepFree epoch =>
    let kind := s.kind
    s.run do
      let tally ← Depot.sweepAndFree Ledger.byTable kind {}
      Depot.modifyArena (·.reportSweep epoch .shelf tally)
      return .swept tally
  | .release keep => s.run do return .released (← Depot.releaseEmpty keep)
  | .clear =>
    s.run do
      Depot.clear
      Depot.modifyArena fun a => { a with memo := a.memo.strikeAll }
      return .done
  | .pages =>
    let arena := s.depot.arena
    let views := s.depot.shelf.pages.map fun id =>
      let page := arena.memory.page? id
      ⟨id, page.elim 0 Page.allocatedBytes, page.elim 0 Page.regionBytes, namesOn arena id⟩
    (.ok (.pages views), s)
  | .raise sel flags => s.change sel (·.raise flags)
  | .detach sel => s.change sel Record.detach
  | .touch t =>
    match s with
    | ⟨kind, ⟨shelf, arena⟩, known⟩ =>
      let (r, arena) := touch false t arena
      (r.map .touched, ⟨kind, ⟨shelf, arena⟩, known⟩)

def step (s : ShelfScript) (t : Step) : Result :=
  match s.perform t with
  | (.ok r, s) => (.ok r, if t.tells then s.lookAround else s)
  | (.error e, s) => (.error e, s)

end ShelfScript

end SweptHeap.Script
