import SweptHeap.Fault
import SweptHeap.Record

/-!
# Verdicts

A sweep asks a policy about every allocated block and record of a page. The policy sees a block's
mark and the flags of its record, and its verdict names the block's fate; beyond that it can clear
the mark and raise flags of the record, and nothing else. A policy keeps a memory of its own, of any
type `ρ`, so that its answers may change from one question to the next.

`Policy.byMark` keeps the marked objects. An unmarked object with a finalizer is queued once, is
kept until it has been finalized, and then goes with its record.
-/

namespace SweptHeap

inductive Fate where
  | live
  | dead
  /-- Keep the block and hand it over for finalization. -/
  | finalize
  deriving DecidableEq

/-- What a page shows of an allocated block. -/
structure Sight where
  index : Nat
  marked : Bool
  record : Option BlockRef

/-- What a page learns about an allocated block. -/
structure Ruling where
  fate : Fate
  unmark : Bool

structure Question where
  block : BlockRef
  marked : Bool
  flags : Option Flags

structure Verdict where
  fate : Fate
  unmark : Bool
  /-- Flags to raise on the block's record. -/
  raised : Flags

structure Policy (ρ : Type) where
  judge : Question → ρ → Verdict × ρ
  judgeRecord : BlockRef → Record → ρ → Fate × ρ
  /-- Flags raised on a block's record once its finalizer has run. -/
  afterFinalizer : Flags

/-- The fate of a record that nobody says otherwise about. -/
def Record.fate (r : Record) : Fate := if r.flags.has .sweepable then .dead else .live

/-- The verdict of `Policy.byMark`. -/
def Question.verdictByMark (q : Question) : Verdict :=
  if q.marked then ⟨.live, true, .none⟩
  else match q.flags with
    | none => ⟨.dead, true, .none⟩
    | some flags =>
      if flags.has .finalized || !flags.has .hasFinalizer then ⟨.dead, true, .sweepable⟩
      else if flags.has .inQueue then ⟨.live, true, .none⟩
      else ⟨.finalize, true, .inQueue⟩

namespace Policy

variable {ρ : Type}

def byMark : Policy ρ where
  judge q memo := (q.verdictByMark, memo)
  judgeRecord _ r memo := (r.fate, memo)
  afterFinalizer := .finalized

end Policy

/-- How many blocks a sweep kept, reclaimed and queued, and the bytes it left allocated. -/
structure Tally where
  kept : Nat := 0
  swept : Nat := 0
  queued : Nat := 0
  liveBytes : Nat := 0
  deriving DecidableEq

namespace Tally

def count (t : Tally) : Fate → Tally
  | .live => { t with kept := t.kept + 1 }
  | .dead => { t with swept := t.swept + 1 }
  | .finalize => { t with queued := t.queued + 1 }

def addLive (t : Tally) (bytes : Nat) : Tally := { t with liveBytes := t.liveBytes + bytes }

def add (t u : Tally) : Tally :=
  ⟨t.kept + u.kept, t.swept + u.swept, t.queued + u.queued, t.liveBytes + u.liveBytes⟩

/-- Sum in machine words. -/
def addWithin (t u : Tally) : Except Fault Tally := do
  return ⟨← addWords t.kept u.kept, ← addWords t.swept u.swept, ← addWords t.queued u.queued,
    ← addWords t.liveBytes u.liveBytes⟩

/-- Number of blocks and records that were asked about. -/
def asked (t : Tally) : Nat := t.kept + t.swept + t.queued

end Tally

/-- A page after a sweep, with the indices of its blocks to finalize in the order of the page. The
environment is that of whoever answered. -/
structure Swept (π ε : Type) where
  page : π
  env : ε
  tally : Tally
  queued : Array Nat
  empty : Bool
  fault : Option Fault := none

end SweptHeap
