import Std.Data.HashMap
import SweptHeap.Arena
import SweptHeap.Collector.Error
import SweptHeap.Script.Selection

/-!
# Ledgers

A script numbers its blocks in the order of their allocation. The ledger knows which number belongs
to which block, whether the block is still allocated, and what a policy was asked and answered. As
the memory of a policy it also supplies the answers, from a table of fates or from the marks.

A record is called by the number of its object, counted down from minus one.
-/

namespace SweptHeap.Script

inductive Shape where
  | raw
  | object
  | array (count : Nat)
  | record
  deriving DecidableEq

namespace Shape

def isObject : Shape → Bool
  | object | array _ => true
  | _ => false

end Shape

/-- A numbered block and its extent in cells. -/
structure Entry where
  ref : BlockRef
  cells : Nat
  shape : Shape
  live : Bool

/-- The numbers that a policy was asked about in a step, those with the two rarer answers, and those
whose finalizers ran. -/
structure SweepLog where
  visited : Array Int := #[]
  dead : Array Int := #[]
  queued : Array Int := #[]
  ran : Array Int := #[]

def SweepLog.note (log : SweepLog) (name : Int) (fate : Fate) : SweepLog :=
  match log with
  | ⟨visited, dead, queued, ran⟩ =>
    match fate with
    | .live => ⟨visited.push name, dead, queued, ran⟩
    | .dead => ⟨visited.push name, dead.push name, queued, ran⟩
    | .finalize => ⟨visited.push name, dead, queued.push name, ran⟩

structure Ledger where
  entries : Array Entry := #[]
  /-- The number last given to a place. -/
  names : Std.HashMap Nat Int := {}
  fates : FateTable := {}
  recordFates : Option FateTable := none
  log : SweepLog := {}

/-- What a script may not do. -/
inductive Refusal where
  | badRequest
  | noHandle
  | deadHandle
  | outOfRange
  | tooLarge
  | tooSmall
  | noPage
  | noAllocator
  | noRecord
  | notAnObject
  | notAnArray
  | staleRecord
  | noQueue
  | nullBlock
  | unnotified
  | noNode
  | nodeParked
  | wouldBlock
  | notStopped
  | hasThreads
  | stopPending
  | noMutator
  | notStarted
  | unobservable
  deriving DecidableEq

/-- The name that a script knows a refusal by. -/
def Refusal.name : Refusal → String
  | badRequest => "BadRequest"
  | noHandle => "NoHandle"
  | deadHandle => "DeadHandle"
  | outOfRange => "Range"
  | tooLarge => "TooLarge"
  | tooSmall => "TooSmall"
  | noPage => "NoPage"
  | noAllocator => "NoAllocator"
  | noRecord => "NoExtra"
  | notAnObject => "NotAnObject"
  | notAnArray => "NotAnArray"
  | staleRecord => "StaleRecord"
  | noQueue => "NoQueue"
  | nullBlock => "NullBlock"
  | unnotified => "Unnotified"
  | noNode => "NoNode"
  | nodeParked => "NodeParked"
  | wouldBlock => "WouldBlock"
  | notStopped => "NotStopped"
  | hasThreads => "HasThreads"
  | stopPending => "StopPending"
  | noMutator => "NoMutator"
  | notStarted => "NotStarted"
  | unobservable => "Unobservable"

/-- How a step fails: the script is refused, the heap faults, or the collector gives an error. -/
inductive Failure where
  | refused (why : Refusal)
  | faulted (fault : Fault)
  | failed (error : CollectorError)

/-- An argument as it was given: its value, or why it has none. A step that comes to need an
argument without a value fails for that reason, and what it did before stays done. -/
abbrev Arg (α : Type) := Except Failure α

namespace Ledger

/-- A number for each block or record, distinct for distinct ones. -/
def key (b : BlockRef) : Nat := b.page * countLimit + b.index

def name? (l : Ledger) (b : BlockRef) : Option Int := l.names.get? (key b)

def nameOfRecord (owner : Nat) : Int := -1 - owner

def ownerOfRecord (name : Int) : Int := -1 - name

/-- Enters a new block, or a record that stands for itself, and gives its number. -/
def enter (ref : BlockRef) (cells : Nat) (shape : Shape) (l : Ledger) : Nat × Ledger :=
  match l with
  | ⟨entries, names, fates, recordFates, log⟩ =>
    let id := entries.size
    let name : Int := if shape = .record then nameOfRecord id else id
    (id, ⟨entries.push ⟨ref, cells, shape, true⟩, names.insert (key ref) name,
      fates, recordFates, log⟩)

/-- Calls a record by its owner's number. -/
def nameRecord (record : BlockRef) (owner : Nat) (l : Ledger) : Ledger :=
  { l with names := l.names.insert (key record) (nameOfRecord owner) }

/-- The entry of a block that was not struck out. -/
def find (l : Ledger) (id : Int) : Except Failure Entry :=
  if id < 0 then .error (.refused .noHandle)
  else match l.entries[id.toNat]? with
    | none => .error (.refused .noHandle)
    | some e => if e.live then .ok e else .error (.refused .deadHandle)

def live? (l : Ledger) (id : Int) : Option Entry := (l.find id).toOption

/-- Strikes out the block called `name`. The entry of a record stands, since the record itself tells
whether it was reclaimed. -/
def strike (name : Int) (l : Ledger) : Ledger :=
  if name < 0 then l
  else match l with
    | ⟨entries, names, fates, recordFates, log⟩ =>
      ⟨entries.modify name.toNat fun e => { e with live := false }, names, fates, recordFates, log⟩

/-- Strikes out everything. -/
def strikeAll (l : Ledger) : Ledger :=
  { l with entries := l.entries.map fun e => { e with live := false } }

/-- Notes an answer. -/
def note (ref : BlockRef) (fate : Fate) (l : Ledger) : Ledger :=
  let name := (l.name? ref).getD 0
  match l with
  | ⟨entries, names, fates, recordFates, log⟩ =>
    let l : Ledger := ⟨entries, names, fates, recordFates, log.note name fate⟩
    if fate = .dead then l.strike name else l

/-- Notes that the finalizer of a block ran. -/
def noteRun (ref : BlockRef) (l : Ledger) : Ledger :=
  let name := (l.name? ref).getD 0
  match l with
  | ⟨entries, names, fates, recordFates, ⟨visited, dead, queued, ran⟩⟩ =>
    ⟨entries, names, fates, recordFates, ⟨visited, dead, queued, ran.push name⟩⟩

/-- Takes the tables that a step brings, first the one for blocks. -/
def setFates (fates recordFates : Arg (Option FateTable)) (l : Ledger) :
    Except Failure Unit × Ledger :=
  match fates with
  | .error e => (.error e, l)
  | .ok fates =>
    let l := { l with fates := fates.getD l.fates }
    match recordFates with
    | .error e => (.error e, l)
    | .ok recordFates => (.ok (), { l with recordFates := recordFates <|> l.recordFates })

def blockFate (l : Ledger) (ref : BlockRef) : Fate := l.fates.fate ((l.name? ref).getD 0)

def recordFate (l : Ledger) (ref : BlockRef) (r : Record) : Fate :=
  match l.recordFates with
  | none => r.fate
  | some table => table.fate (ownerOfRecord ((l.name? ref).getD 0))

/-- Answers from the tables. -/
def byTable : Policy Ledger where
  judge q l :=
    let fate := l.blockFate q.block
    (⟨fate, false, .none⟩, l.note q.block fate)
  judgeRecord ref r l :=
    let fate := l.recordFate ref r
    (fate, l.note ref fate)
  afterFinalizer := .none

/-- Answers from the marks. -/
def byMark : Policy Ledger where
  judge q l := (q.verdictByMark, l.note q.block q.verdictByMark.fate)
  judgeRecord ref r l := (r.fate, l.note ref r.fate)
  afterFinalizer := .finalized

end Ledger

/-- The numbers of blocks that wait for their finalizers. -/
def Ledger.namesOf (l : Ledger) (q : Handoff BlockRef) : Array Int :=
  q.items.map fun b => (l.name? b).getD 0

/-- What happened in a step: the questions to the policy and the events. -/
structure Report where
  log : SweepLog
  journal : Journal

/-- Takes what happened since the last report. The questions of a step that does not tell them are
reported with those of the next step that does. -/
def takeReport (tells : Bool) (a : Arena Ledger) : Report × Arena Ledger :=
  let (journal, a) := a.takeJournal
  if tells then (⟨a.memo.log, journal⟩, { a with memo := { a.memo with log := {} } })
  else (⟨{}, journal⟩, a)

end SweptHeap.Script
