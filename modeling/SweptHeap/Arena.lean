import SweptHeap.Handoff
import SweptHeap.Meter
import SweptHeap.Object

/-!
# The arena

What the shelves of a heap share: the memory, the meter, the number of sweeps under way, the memory
of the policy, and the blocks that sweeps have set aside for their finalizers until whoever swept
takes them.
-/

namespace SweptHeap

structure Arena (ρ : Type) where
  memory : Memory := {}
  memo : ρ
  meter : Meter := {}
  sweepers : Nat := 0
  found : Handoff BlockRef := {}

namespace Arena

variable {ρ : Type}

/-- Puts a block of `page` before the policy and raises the flags it names. -/
def ask (policy : Policy ρ) (page : PageId) (s : Sight) (a : Arena ρ) : Ruling × Arena ρ :=
  match a with
  | ⟨memory, memo, meter, sweepers, found⟩ =>
    let flags := s.record.bind fun r => (memory.record? r).map (·.flags)
    let (verdict, memo) := policy.judge ⟨⟨page, s.index⟩, s.marked, flags⟩ memo
    let memory := match s.record with
      | none => memory
      | some r => if verdict.raised = .none then memory else memory.raise r verdict.raised
    (⟨verdict.fate, verdict.unmark⟩, ⟨memory, memo, meter, sweepers, found⟩)

/-- Puts a block before the policy where it stands, without reclaiming it. -/
def rule (policy : Policy ρ) (b : BlockRef) (a : Arena ρ) : Fate × Arena ρ :=
  let marked := a.memory.isMarked b
  let record := a.memory.recordOf b
  match a.ask policy b.page ⟨b.index, marked, record⟩ with
  | (ruling, ⟨memory, memo, meter, sweepers, found⟩) =>
    let memory := if ruling.unmark then (memory.unmark b).2 else memory
    (ruling.fate, ⟨memory, memo, meter, sweepers, found⟩)

/-- Puts a record of `page` before the policy. -/
def askRecord (policy : Policy ρ) (page : PageId) (slot : Nat) (r : Record) (a : Arena ρ) :
    Fate × Arena ρ :=
  match a with
  | ⟨memory, memo, meter, sweepers, found⟩ =>
    let (fate, memo) := policy.judgeRecord ⟨page, slot⟩ r memo
    (fate, ⟨memory, memo, meter, sweepers, found⟩)

/-- Sweeps a page. Says whether it is empty now, and counts the fates. -/
def sweepPage (policy : Policy ρ) (id : PageId) (a : Arena ρ) :
    Except Fault (Bool × Tally) × Arena ρ :=
  match a with
  | ⟨memory, memo, meter, sweepers, found⟩ =>
    match memory.borrow id with
    | (none, memory) => (.error (.unmapped id), ⟨memory, memo, meter, sweepers, found⟩)
    | (some p, memory) =>
      match p.sweep (ask policy id) (askRecord policy id)
          ⟨memory, memo, meter, sweepers, found⟩ with
      | ⟨p, ⟨memory, memo, meter, sweepers, ⟨items⟩⟩, tally, queued, empty, fault⟩ =>
        let items := queued.foldl (fun items index => items.push ⟨id, index⟩) items
        let a : Arena ρ := ⟨memory.restore id p, memo, meter, sweepers, ⟨items⟩⟩
        match fault with
        | none => (.ok (empty, tally), a)
        | some e => (.error e, a)

@[inline] def onMemory {α : Type} (f : Memory → α × Memory) (a : Arena ρ) : α × Arena ρ :=
  match a with
  | ⟨memory, memo, meter, sweepers, found⟩ =>
    let (r, memory) := f memory
    (r, ⟨memory, memo, meter, sweepers, found⟩)

@[inline] def modifyMemory (f : Memory → Memory) (a : Arena ρ) : Arena ρ :=
  match a with
  | ⟨memory, memo, meter, sweepers, found⟩ => ⟨f memory, memo, meter, sweepers, found⟩

def report (e : Event) (a : Arena ρ) : Arena ρ := a.modifyMemory (·.report e)

def reportSweep (epoch : Int) (site : SweepSite) (tally : Tally) (a : Arena ρ) : Arena ρ :=
  a.modifyMemory fun m => { m with journal := m.journal.sweep epoch site tally }

/-- Takes the events reported so far. -/
def takeJournal (a : Arena ρ) : Journal × Arena ρ :=
  a.onMemory fun m => (m.journal, { m with journal := #[] })

/-- Adds to the count of bytes in use, and says whether this crossed the target. -/
def addBytes (bytes : Nat) (a : Arena ρ) : Bool × Arena ρ :=
  let (crossed, meter) := a.meter.add bytes
  (crossed, { a with meter := meter })

/-- Takes the blocks that were set aside. -/
def takeFound (a : Arena ρ) : Handoff BlockRef × Arena ρ := (a.found, { a with found := {} })

/-- Notes that the finalizer of a block has run. -/
def noteFinalized (policy : Policy ρ) (b : BlockRef) (a : Arena ρ) : Arena ρ :=
  match a.memory.recordOf b with
  | none => a
  | some r =>
    if policy.afterFinalizer = .none then a
    else a.modifyMemory (·.raise r policy.afterFinalizer)

end Arena

end SweptHeap
