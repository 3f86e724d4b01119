import Mathlib
import SweptHeap.Shelf.Depot
import SweptHeap.Proofs.Heap.Supply
import SweptHeap.Proofs.Page.Asking

/-!
# A depot with many threads

Several threads work on one depot. What a thread does between two points where others may come in is
one act: it holds the lock of the shelf, or it sweeps, maps or unmaps a page that nobody else can
see, or it counts its sweep as over. A task says which act a thread does next. One thread alone does
what the depot does in one go (`SharedDepot.Alone`).

A thread that ends in a fault is stuck, and keeps the page that it had taken.
-/

namespace SweptHeap

/-- What a thread sweeps for. -/
inductive Aim where
  /-- For a page with room. -/
  | room (r : Request) (epoch : Int)
  /-- For the collection, which counts what it finds. -/
  | all (tally : Tally)
  /-- Likewise, and pages without a block are unmapped. -/
  | free (kind : PageKind) (freed : Nat) (tally : Tally)

inductive Task where
  | idle
  /-- Looks for a ready page. -/
  | looking (r : Request) (epoch : Int)
  /-- Looks for an unswept page. -/
  | seeking (aim : Aim)
  /-- Has taken the page off the shelf and sweeps it. -/
  | sweeping (aim : Aim) (id : PageId)
  /-- Has swept the page, and found room on it or found it empty if `flag` says so. -/
  | placing (aim : Aim) (id : PageId) (flag : Bool)
  /-- Has put the page back or unmapped it, and counts the sweep as over. -/
  | leaving (aim : Aim) (result : Option PageId)
  /-- Looks for an empty page. -/
  | reusing (r : Request)
  | mapping (r : Request)
  /-- Has mapped a page that is not on the shelf yet. -/
  | adding (id : PageId)
  | got (id : PageId)
  | counted (tally : Tally)
  | stuck (fault : Fault) (held : Option PageId)

/-- What threads are asked to do. -/
inductive Call where
  | getPage (r : Request) (epoch : Int)
  | newPage (r : Request)
  | sweep (tally : Tally)
  | sweepAndFree (kind : PageKind) (tally : Tally)

def Call.task : Call → Task
  | .getPage r epoch => .looking r epoch
  | .newPage r => .mapping r
  | .sweep tally => .seeking (.all tally)
  | .sweepAndFree kind tally => .seeking (.free kind 0 tally)

namespace Aim

variable {ρ : Type}

/-- There is no unswept page left. -/
def giveUp : Aim → Act (Depot ρ) Task
  | .room r _ => return .reusing r
  | .all tally => return .counted tally
  | .free kind freed tally => do
    if 0 < freed then Depot.modifyArena (·.report (.freed kind freed))
    return .counted tally

/-- Looks at the page after its sweep. -/
def weigh (id : PageId) (empty : Bool) (swept : Tally) : Aim → Act (Depot ρ) Task
  | .room r epoch => do
    match (← get).arena.memory.hasRoom id r.cells with
    | .error e =>
      Depot.modifyArena (·.reportSweep epoch .inline swept)
      throw e
    | .ok fits =>
      let bytes ← Depot.allocatedBytes id
      let _ ← Depot.onArena (·.addBytes bytes)
      Depot.modifyArena (·.reportSweep epoch .inline swept)
      return .placing (.room r epoch) id fits
  | .all tally => do
    let bytes ← Depot.allocatedBytes id
    return .placing (.all ((tally.add swept).addLive bytes)) id empty
  | .free kind freed tally => do
    if empty then return .placing (.free kind (freed + 1) (tally.add swept)) id true
    else
      let bytes ← Depot.allocatedBytes id
      return .placing (.free kind freed ((tally.add swept).addLive bytes)) id false

/-- Puts the page where it belongs. -/
def place (id : PageId) (flag : Bool) : Aim → Act (Depot ρ) Unit
  | .room _ _ => Depot.modifyShelf (·.addUsed id)
  | .all _ => if flag then Depot.modifyShelf (·.addEmpty id) else Depot.modifyShelf (·.addReady id)
  | .free _ _ _ =>
    if flag then Depot.modifyArena (·.modifyMemory (·.unmap id))
    else Depot.modifyShelf (·.addReady id)

/-- The page to give, if one with room was asked for. -/
def result (id : PageId) (flag : Bool) : Aim → Option PageId
  | .room _ _ => if flag then some id else none
  | _ => none

end Aim

namespace Task

variable {ρ : Type}

/-- Maps a page that nobody else can see. -/
def mapPage (r : Request) : Act (Depot ρ) PageId := fun d =>
  match d with
  | ⟨shelf, arena⟩ =>
    let (id, arena) := arena.onMemory (Memory.map r)
    (id, ⟨shelf, arena⟩)

/-- The next act of a thread, which gives its next task. -/
def act (policy : Policy ρ) : Task → Act (Depot ρ) Task
  | .looking r epoch => do
    match ← Depot.takeReady r with
    | some id => return .got id
    | none => return .seeking (.room r epoch)
  | .seeking aim => do
    match ← Depot.takeUnswept with
    | some id => return .sweeping aim id
    | none => aim.giveUp
  | .sweeping aim id => do
    let (empty, tally) ← Depot.sweepPage policy id
    aim.weigh id empty tally
  | .placing aim id flag => do
    aim.place id flag
    return .leaving aim (aim.result id flag)
  | .leaving aim result => do
    Depot.endSweep
    match result with
    | some id => return .got id
    | none => return .seeking aim
  | .reusing r => do
    match ← Depot.onShelf (·.takeEmpty) with
    | some id => return .got id
    | none => return .mapping r
  | .mapping r => do
    let id ← mapPage r
    return .adding id
  | .adding id => do
    Depot.modifyShelf (·.addUsed id)
    return .got id
  | t => return t

/-- Whether a thread may be asked to do something. -/
def isFree : Task → Bool
  | .idle | .got _ | .counted _ => true
  | _ => false

/-- The page that only this thread can see. -/
def held : Task → Option PageId
  | .sweeping _ id | .placing _ id _ | .adding id => some id
  | .stuck _ held => held
  | _ => none

/-- The page that the thread has mapped. -/
def added : Task → Option PageId
  | .adding id => some id
  | _ => none

/-- The page that the thread sweeps next. -/
def sweeps : Task → Option PageId
  | .sweeping _ id => some id
  | _ => none

/-- The page that the thread unmaps next. -/
def frees : Task → Option PageId
  | .placing (.free _ _ _) id true => some id
  | _ => none

/-- Whether the thread has taken an unswept page and not counted its sweep as over. -/
def isSweeping : Task → Bool
  | .sweeping _ _ | .placing _ _ _ | .leaving _ _ => true
  | .stuck _ held => held.isSome
  | _ => false

/-- The task after an act. -/
def next (t : Task) : Except Fault Task → Task
  | .ok t' => t'
  | .error e => .stuck e t.held

end Task

structure SharedDepot (ρ : Type) where
  depot : Depot ρ
  /-- The tasks of all threads. -/
  tasks : List Task
  /-- The pages swept so far. -/
  swept : List PageId := []
  /-- The pages unmapped so far. -/
  freed : List PageId := []

/-- Who does something next. -/
inductive Turn where
  | call (thread : Nat) (call : Call)
  | act (thread : Nat)

namespace SharedDepot

variable {ρ : Type}

/-- The depot with threads that have not been asked yet. -/
def new (d : Depot ρ) (threads : Nat) : SharedDepot ρ :=
  { depot := d, tasks := List.replicate threads .idle }

def act (policy : Policy ρ) (i : Nat) (y : SharedDepot ρ) : SharedDepot ρ :=
  match y.tasks[i]? with
  | none => y
  | some t =>
    let done := (t.act policy).apply y.depot
    { depot := done.2
      tasks := y.tasks.set i (t.next done.1)
      swept := y.swept ++ t.sweeps.toList
      freed := y.freed ++ t.frees.toList }

def step (policy : Policy ρ) (y : SharedDepot ρ) : Turn → SharedDepot ρ
  | .call i c =>
    match y.tasks[i]? with
    | none => y
    | some t => if t.isFree then { y with tasks := y.tasks.set i c.task } else y
  | .act i => y.act policy i

def run (policy : Policy ρ) (turns : List Turn) (y : SharedDepot ρ) : SharedDepot ρ :=
  turns.foldl (step policy) y

end SharedDepot

end SweptHeap
