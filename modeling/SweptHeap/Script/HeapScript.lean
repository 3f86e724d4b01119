import SweptHeap.Allocator
import SweptHeap.Heap.Cycle
import SweptHeap.Heap.Traverse
import SweptHeap.Script.Take

/-!
# Scripts on a heap

A script with any number of allocators on one heap, which marks objects, attaches records, runs the
parts of a collection one by one, and looks at everything in between. Blocks to finalize are
numbered when a sweep finds them, since their places may have new owners when they are taken.
-/

namespace SweptHeap.Script

structure HeapScript where
  /-- Whether the marks decide, or else a table. -/
  byMark : Bool
  heap : Heap Ledger
  allocators : Array (Option Allocator)
  /-- Blocks to finalize that have been held back, and their numbers. -/
  held : Handoff BlockRef := {}
  heldNames : Array Int := #[]
  /-- Numbers of the blocks whose finalizers are due. -/
  pendingNames : Array Int := #[]

/-- What a script allocates. -/
inductive Order where
  | raw (bytes : Nat)
  | object (payload : Nat)
  | array (element count : Nat)

namespace Order

/-- Bytes of the block, header included, however large. -/
def bytes : Order → Nat
  | raw n => n
  | object n => n + objectHeaderBytes
  | array element count => element * count + arrayLengthBytes + objectHeaderBytes

def shape : Order → Shape
  | raw _ => .raw
  | object _ => .object
  | array _ count => .array count

def cells (o : Order) : Nat := (SizeClass.ofBytes o.bytes).cells

/-- A block too large for a script; a size that is no machine word is left to the heap. -/
def isTooLarge (o : Order) : Bool :=
  match o with
  | raw n => largestOrder < n
  | o => largestOrder < o.bytes && o.bytes < wordLimit

/-- A block without room for a mark and a link. -/
def isTooSmall : Order → Bool
  | raw n => n ≤ cellBytes
  | _ => false

def make {ρ : Type} (policy : Policy ρ) : Order → Act (Desk ρ) BlockRef
  | raw n => Allocator.allocate policy n
  | object n => Allocator.createObject policy n
  | array element count => Allocator.createArray policy element count

end Order

/-- Fills an order `count` times. -/
def fillOrder (policy : Policy Ledger) (o : Order) :
    (count : Nat) → Taken → Desk Ledger → Except Fault Taken × Desk Ledger
  | 0, t, d => (.ok t, d)
  | count + 1, t, d =>
    match (o.make policy).apply d with
    | (.error e, d) => (.error e, d)
    | (.ok ref, ⟨⟨arena, uniform, tiled, large, records, pending, epoch⟩, allocator⟩) =>
      let (t, arena) := enterBlock ref o.cells o.shape t arena
      fillOrder policy o count t
        ⟨⟨arena, uniform, tiled, large, records, pending, epoch⟩, allocator⟩

/-- The entry of an allocated object. -/
def findObject (l : Ledger) (id : Int) : Except Failure Entry := do
  let e ← l.find id
  if e.shape.isObject then return e else throw (.refused .notAnObject)

def object? (l : Ledger) (id : Int) : Option Entry := (findObject l id).toOption

/-- The record of the object with number `id`, unless it was reclaimed. -/
def currentRecord? (a : Arena Ledger) (id : Nat) (object : BlockRef) : Option BlockRef :=
  (a.memory.recordOf object).filter (isCurrent a id)

/-- A record: the number of its owner, its flags, and the number of its object. -/
structure RecordView where
  owner : Int
  flags : Flags
  base : Option Int

/-- The number of a record's object: its owner if the object is where the owner was entered. -/
def baseName (l : Ledger) (owner : Int) (base : BlockRef) : Option Int :=
  if (l.entries[owner.toNat]?).map Entry.ref = some base then some owner else l.name? base

def viewRecord (a : Arena Ledger) (ref : BlockRef) : Option RecordView :=
  (a.memory.record? ref).map fun r =>
    let owner := Ledger.ownerOfRecord ((a.memo.name? ref).getD 0)
    ⟨owner, r.flags, r.base.bind (baseName a.memo owner)⟩

/-- Records attached by a step: their places and their flags. -/
structure Attached where
  places : Array (Nat × Nat) := #[]
  flags : Array Int := #[]
  skipped : Nat := 0

/-- Whether an object has a record that was reclaimed under it. -/
def hasStaleRecord (a : Arena Ledger) (id : Int) (object : BlockRef) : Bool :=
  (a.memory.recordOf object).any fun r => !isCurrent a id.toNat r

/-- Whether an allocator is needed to attach records: it is not if there is no object among the
numbers, and not yet if the first one has a stale record. -/
def needsAllocator (a : Arena Ledger) (ids : List Int) : Except Failure Bool :=
  match ids.findSome? fun id => (object? a.memo id).map fun e => (id, e.ref) with
  | none => .ok false
  | some (id, object) =>
    if hasStaleRecord a id object then .error (.refused .staleRecord) else .ok true

/-- Attaches records to the objects with the given numbers. -/
def attach (policy : Policy Ledger) (withFinalizer : Bool) :
    List Int → Attached → Desk Ledger → Except Failure Attached × Desk Ledger
  | [], t, d => (.ok t, d)
  | id :: rest, t, d =>
    match object? d.heap.arena.memo id with
    | none => attach policy withFinalizer rest { t with skipped := t.skipped + 1 } d
    | some e =>
      if hasStaleRecord d.heap.arena id e.ref then
        (.error (.refused .staleRecord), d)
      else
        match (Allocator.createRecord policy e.ref withFinalizer).apply d with
        | (.error e, d) => (.error (.faulted e), d)
        | (.ok record, ⟨⟨arena, uniform, tiled, large, records, pending, epoch⟩, allocator⟩) =>
          let arena := { arena with memo := arena.memo.nameRecord record id.toNat }
          let offset := (arena.memory.page? record.page).elim 0 (·.offset record.index)
          let flags := (arena.memory.record? record).elim 0 (·.flags.bits.toNat)
          attach policy withFinalizer rest
            ⟨t.places.push (record.page, offset), t.flags.push flags, t.skipped⟩
            ⟨⟨arena, uniform, tiled, large, records, pending, epoch⟩, allocator⟩

/-- Counts of objects that a step changed, did not need to change, and passed over. -/
structure Marked where
  changed : Nat := 0
  same : Nat := 0
  skipped : Nat := 0

/-- Sets or clears the marks of the selected objects. -/
def markAll (f : BlockRef → Memory → Bool × Memory) (sel : Selection) (a : Arena Ledger) :
    Marked × Arena Ledger :=
  sel.toList.foldl (fun (t, a) id =>
    match object? a.memo id with
    | none => ({ t with skipped := t.skipped + 1 }, a)
    | some e =>
      match a.onMemory (f e.ref) with
      | (true, a) => ({ t with changed := t.changed + 1 }, a)
      | (false, a) => ({ t with same := t.same + 1 }, a)) ({}, a)

/-- Tells the policy that the finalizers of the selected objects have run. -/
def noteAll (policy : Policy Ledger) (sel : Selection) (a : Arena Ledger) :
    (Nat × Nat) × Arena Ledger :=
  sel.toList.foldl (fun ((told, skipped), a) id =>
    match object? a.memo id with
    | none => ((told, skipped + 1), a)
    | some e => ((told + 1, skipped), a.noteFinalized policy e.ref)) ((0, 0), a)

namespace HeapScript

inductive Step where
  | newAllocator
  | dropAllocator (a : Nat)
  | takeRequest (a : Nat)
  | order (a : Arg Nat) (o : Order) (count : Arg Nat)
  | attach (a : Arg Nat) (sel : Selection) (withFinalizer : Bool)
  | recordInfo (id : Int)
  | recordRaise (id : Int) (flags : Flags)
  | mark (sel : Selection)
  | unmark (sel : Selection)
  | length (id : Int)
  | fates (fates recordFates : Arg (Option FateTable))
  | prepare
  | sweep (epoch : Int) (hold : Bool)
  | assist (epoch : Int) (hold : Bool)
  | submit
  | extract
  | finalized (sel : Selection)
  | release (keep : Nat)
  | census
  | summary
  | blocks
  | records
  | pages (part : Option Nat)
  | target (bytes : Nat)
  | add (bytes : Nat)
  /-- A page, and up to `count` blocks of `cells` from it. -/
  | get (kind : PageKind) (cells : Arg (Option Nat)) (count : Nat)
  | clear
  | touch (t : Touch)

inductive Outcome where
  | done
  | allocator (a : Nat)
  | requested (requested : Bool)
  | taken (t : Taken)
  | attached (t : Attached)
  | record (r : Option RecordView)
  | marked (m : Marked)
  | length (count : Nat)
  | prepared (epoch : Nat)
  | swept (queue : Array Int)
  | submitted (count : Nat)
  | extracted (count : Nat) (names : Array Int)
  | told (told skipped : Nat)
  | released (pages : Nat)
  | census (c : Census)
  | summary (text : String)
  | blocks (names : Array Int) (places : Array (Nat × Nat))
  | records (records : Array RecordView)
  | pages (pages : List (PageKind × PageId × Nat))
  | target (bytes : Nat)
  | crossed (crossed : Bool)
  | page (id : PageId) (t : Taken)
  | touched (t : Touched)

def start (byMark : Bool) : HeapScript :=
  let heap := Heap.new {}
  { byMark := byMark, heap := heap, allocators := #[some (Allocator.new heap)] }

def policy (s : HeapScript) : Policy Ledger := if s.byMark then Ledger.byMark else Ledger.byTable

abbrev Result := Except Failure Outcome × HeapScript

private def refuse (s : HeapScript) (why : Refusal) : Result := (.error (.refused why), s)

@[inline] private def onHeap (act : Act (Heap Ledger) Outcome) (s : HeapScript) : Result :=
  match s with
  | ⟨byMark, heap, allocators, held, heldNames, pendingNames⟩ =>
    match act.apply heap with
    | (.ok r, heap) => (.ok r, ⟨byMark, heap, allocators, held, heldNames, pendingNames⟩)
    | (.error e, heap) =>
      (.error (.faulted e), ⟨byMark, heap, allocators, held, heldNames, pendingNames⟩)

/-- Lets an allocator work. -/
@[inline] private def atDesk (a : Arg Nat) (f : Desk Ledger → Except Failure Outcome × Desk Ledger)
    (s : HeapScript) : Result :=
  match a, s with
  | .error e, s => (.error e, s)
  | .ok a, ⟨byMark, heap, allocators, held, heldNames, pendingNames⟩ =>
    match allocators.getD a none with
    | none =>
      (.error (.refused .noAllocator), ⟨byMark, heap, allocators, held, heldNames, pendingNames⟩)
    | some allocator =>
      let allocators := allocators.setIfInBounds a none
      match f ⟨heap, allocator⟩ with
      | (r, ⟨heap, allocator⟩) =>
        (r, ⟨byMark, heap, allocators.setIfInBounds a (some allocator), held, heldNames,
          pendingNames⟩)

/-- Numbers the blocks whose finalizers have become due in a step. -/
private def namePending (s : HeapScript) : HeapScript :=
  let due := s.heap.pending.items
  let new : Handoff BlockRef := ⟨due.extract s.pendingNames.size due.size⟩
  { s with pendingNames := s.pendingNames ++ s.heap.arena.memo.namesOf new }

private def sweepWith (act : Act (Heap Ledger) (Handoff BlockRef)) (hold : Bool) (s : HeapScript) :
    Result :=
  match s with
  | ⟨byMark, heap, allocators, held, heldNames, pendingNames⟩ =>
    match act.apply heap with
    | (.error e, heap) =>
      (.error (.faulted e), ⟨byMark, heap, allocators, held, heldNames, pendingNames⟩)
    | (.ok queue, heap) =>
      let names := heap.arena.memo.namesOf queue
      if hold then
        (.ok (.swept names),
          ⟨byMark, heap, allocators, held.merge queue, heldNames ++ names, pendingNames⟩)
      else
        let heap := ((Heap.submit queue).apply heap).2
        (.ok (.swept names),
          ⟨byMark, heap, allocators, held, heldNames, pendingNames ++ names⟩)

private def closeAll (s : HeapScript) : HeapScript :=
  (List.range s.allocators.size).foldl (fun s a =>
    match s with
    | ⟨byMark, heap, allocators, held, heldNames, pendingNames⟩ =>
      match allocators.getD a none with
      | none => ⟨byMark, heap, allocators, held, heldNames, pendingNames⟩
      | some allocator =>
        let (_, ⟨heap, _⟩) := (Allocator.close).apply ⟨heap, allocator⟩
        ⟨byMark, heap, allocators.setIfInBounds a none, held, heldNames, pendingNames⟩) s

/-- The cells of the block that a page is asked for. Records all have the same extent, and the
number is a small one for pages with many blocks. -/
def requestedCells (kind : PageKind) (cells : Arg (Option Nat)) : Except Failure Nat := do
  if kind = .records then return 0
  let some n ← cells | throw (.refused .badRequest)
  if isTooLargeFor kind n then throw (.refused .tooLarge)
  if kind ≠ .large ∧ countLimit ≤ n then throw (.refused .badRequest)
  return n

/-- The same, after a look at the blocks: if any are taken, they have at least `smallest` cells, and
a number that is left out counts as zero there. -/
def checkedCells (smallest : Nat) (kind : PageKind) (cells : Arg (Option Nat)) (count : Nat) :
    Except Failure Nat := do
  if 0 < count then
    if (← cells).getD 0 < smallest then throw (.refused .tooSmall)
  requestedCells kind cells

/-- Gets a page straight from the heap, and blocks straight from the page. The blocks to finalize
that turn up are held back, or lost if the heap faults. -/
private def getPage (kind : PageKind) (cells : Arg (Option Nat)) (count : Nat) (s : HeapScript) :
    Result :=
  match checkedCells (if s.byMark then 2 else 1) kind cells count with
  | .error e => (.error e, s)
  | .ok cells =>
    let policy := s.policy
    let act : Act (Heap Ledger) Outcome := do
      let id ← if kind = .large then Heap.newLarge cells else Heap.getPage policy ⟨kind, cells⟩
      let t ← Heap.onArena (take id (.block cells) count {})
      return .page id (← t)
    match onHeap act s with
    | (r, ⟨byMark, heap, allocators, held, heldNames, pendingNames⟩) =>
      match r, Heap.takeFound.apply heap with
      | .ok o, (.ok found, heap) =>
        let names := heap.arena.memo.namesOf found
        (.ok o, ⟨byMark, heap, allocators, held.merge found, heldNames ++ names, pendingNames⟩)
      | r, (_, heap) => (r, ⟨byMark, heap, allocators, held, heldNames, pendingNames⟩)

/-- Fills an order. The size of the block is looked at first, and the allocator only to make one. -/
private def order (a : Arg Nat) (o : Order) (count : Arg Nat) (s : HeapScript) : Result :=
  if o.isTooLarge then s.refuse .tooLarge
  else if s.byMark && o.isTooSmall then s.refuse .tooSmall
  else match count with
    | .error e => (.error e, s)
    | .ok 0 => (.ok (.taken {}), s)
    | .ok count =>
      let policy := s.policy
      let (r, s) := s.atDesk a fun d =>
        match fillOrder policy o count {} d with
        | (.ok t, d) => (.ok (.taken t), d)
        | (.error e, d) => (.error (.faulted e), d)
      (r, s.namePending)

private def placeOf (m : Memory) (b : BlockRef) : Nat × Nat :=
  (b.page, (m.page? b.page).elim 0 (·.offset b.index))

private def pageViews (pages : List (PageId × Page)) : List (PageKind × PageId × Nat) :=
  pages.map fun (id, p) => (p.kind, id, p.regionBytes)

/-- The record of an object by its number. -/
private def recordById (s : HeapScript) (id : Int) : Except Failure (Option BlockRef) := do
  let e ← findObject s.heap.arena.memo id
  return currentRecord? s.heap.arena id.toNat e.ref

/-- The record of an object to raise flags on. One flag is not for a script to raise. -/
private def recordToRaise (s : HeapScript) (id : Int) (flags : Flags) :
    Except Failure BlockRef := do
  match ← s.recordById id with
  | none => throw (.refused .noRecord)
  | some r => if flags.has .sweepable then throw (.refused .badRequest) else return r

/-- The length of an array by its number. -/
private def lengthById (s : HeapScript) (id : Int) : Except Failure Nat := do
  let e ← findObject s.heap.arena.memo id
  match e.shape with
  | .array _ => return s.heap.arena.memory.length e.ref
  | _ => throw (.refused .notAnArray)

def step (s : HeapScript) : Step → Result
  | .newAllocator =>
    (.ok (.allocator s.allocators.size),
      { s with allocators := s.allocators.push (some (Allocator.new s.heap)) })
  | .dropAllocator a =>
    let (r, s) := s.atDesk (.ok a) fun d =>
      let (_, d) := (Allocator.close).apply d
      (.ok .done, d)
    (r, { s with allocators := s.allocators.setIfInBounds a none })
  | .takeRequest a =>
    s.atDesk (.ok a) fun d =>
      match Allocator.takeRequest.apply d with
      | (.ok b, d) => (.ok (.requested b), d)
      | (.error e, d) => (.error (.faulted e), d)
  | .order a o count => s.order a o count
  | .attach a sel withFinalizer =>
    let policy := s.policy
    let ids := sel.toList
    match needsAllocator s.heap.arena ids with
    | .error e => (.error e, s)
    | .ok false => (.ok (.attached { skipped := ids.length }), s)
    | .ok true =>
      let (r, s) := s.atDesk a fun d =>
        match attach policy withFinalizer ids {} d with
        | (.ok t, d) => (.ok (.attached t), d)
        | (.error e, d) => (.error e, d)
      (r, s.namePending)
  | .recordInfo id =>
    ((s.recordById id).map fun r => .record (r.bind (viewRecord s.heap.arena)), s)
  | .recordRaise id flags =>
    match s.recordToRaise id flags with
    | .error e => (.error e, s)
    | .ok r =>
      s.onHeap do
        Heap.modifyMemory (·.raise r flags)
        return .record (viewRecord (← get).arena r)
  | .mark sel => s.onHeap do return .marked (← Heap.onArena (markAll Memory.mark sel))
  | .unmark sel => s.onHeap do return .marked (← Heap.onArena (markAll Memory.unmark sel))
  | .length id => ((s.lengthById id).map .length, s)
  | .fates fates recordFates =>
    match s with
    | ⟨byMark, ⟨arena, uniform, tiled, large, records, pending, epoch⟩, allocators, held, heldNames,
        pendingNames⟩ =>
      let (r, memo) := arena.memo.setFates fates recordFates
      (r.map fun _ => .done, ⟨byMark, ⟨{ arena with memo := memo }, uniform, tiled, large, records,
        pending, epoch⟩, allocators, held, heldNames, pendingNames⟩)
  | .prepare => s.onHeap do Heap.prepare; return .prepared (← get).epoch
  | .sweep epoch hold => s.sweepWith (Heap.sweep s.policy epoch) hold
  | .assist epoch hold => s.sweepWith (Heap.assist s.policy epoch) hold
  | .submit =>
    match s with
    | ⟨byMark, heap, allocators, held, heldNames, pendingNames⟩ =>
      let heap := ((Heap.submit held).apply heap).2
      (.ok (.submitted held.size),
        ⟨byMark, heap, allocators, {}, #[], pendingNames ++ heldNames⟩)
  | .extract =>
    match s with
    | ⟨byMark, heap, allocators, held, heldNames, pendingNames⟩ =>
      match Heap.extract.apply heap with
      | (.ok q, heap) =>
        (.ok (.extracted q.size pendingNames), ⟨byMark, heap, allocators, held, heldNames, #[]⟩)
      | (.error e, heap) =>
        (.error (.faulted e), ⟨byMark, heap, allocators, held, heldNames, pendingNames⟩)
  | .finalized sel =>
    let policy := s.policy
    s.onHeap do
      let (told, skipped) ← Heap.onArena (noteAll policy sel)
      return .told told skipped
  | .release keep => s.onHeap do return .released (← Heap.release keep)
  | .census => (.ok (.census s.heap.census), s)
  | .summary => (.ok (.summary s.heap.summary), s)
  | .blocks =>
    let arena := s.heap.arena
    let blocks := s.heap.blocks
    (.ok (.blocks (blocks.map fun b => (arena.memo.name? b).getD 0)
      (blocks.map (placeOf arena.memory))), s)
  | .records => (.ok (.records (s.heap.recordRefs.filterMap (viewRecord s.heap.arena))), s)
  | .pages none => (.ok (.pages (pageViews s.heap.pages)), s)
  | .pages (some part) =>
    match s.heap.pagesOfPart part with
    | .ok pages => (.ok (.pages (pageViews pages)), s)
    | .error e => (.error (.faulted e), s)
  | .target bytes => s.onHeap do
      Heap.modifyArena fun a => { a with meter := a.meter.setTarget bytes }
      return .target (← get).arena.meter.target
  | .add bytes => s.onHeap do return .crossed (← Heap.onArena (·.addBytes bytes))
  | .get kind cells count => s.getPage kind cells count
  | .clear =>
    let s := s.closeAll
    let (r, s) := s.onHeap do
      Heap.clear
      Heap.modifyArena fun a => { a with memo := a.memo.strikeAll }
      return .done
    (r, { s with held := {}, heldNames := #[], pendingNames := #[] })
  | .touch t =>
    match s with
    | ⟨byMark, ⟨arena, uniform, tiled, large, records, pending, epoch⟩, allocators, held, heldNames,
        pendingNames⟩ =>
      let (r, arena) := touch byMark t arena
      (r.map .touched, ⟨byMark, ⟨arena, uniform, tiled, large, records, pending, epoch⟩, allocators,
        held, heldNames, pendingNames⟩)

/-- What happened in the last step. -/
def report (tells : Bool) (s : HeapScript) : Report × HeapScript :=
  match s with
  | ⟨byMark, ⟨arena, uniform, tiled, large, records, pending, epoch⟩, allocators, held, heldNames,
      pendingNames⟩ =>
    let (report, arena) := takeReport tells arena
    (report, ⟨byMark, ⟨arena, uniform, tiled, large, records, pending, epoch⟩, allocators, held,
      heldNames, pendingNames⟩)

end HeapScript

end SweptHeap.Script
