import SweptHeap.Cell

/-!
# Records

An object can have a record beside it, which says where the object stands with its finalizer. Flags
are only ever raised. A record that is detached from its object is left for the next sweep.
-/

namespace SweptHeap

structure Flags where
  bits : UInt32
  deriving DecidableEq

namespace Flags

def none : Flags := ⟨0⟩

def hasFinalizer : Flags := ⟨1⟩

def inQueue : Flags := ⟨2⟩

def finalized : Flags := ⟨4⟩

/-- The next sweep of the records may reclaim this one. -/
def sweepable : Flags := ⟨8⟩

def union (a b : Flags) : Flags := ⟨a.bits ||| b.bits⟩

/-- Whether all of `b` is raised in `a`. -/
def has (a b : Flags) : Bool := a.bits &&& b.bits == b.bits

/-- The named flags in the order of their bits. -/
def named : List (String × Flags) :=
  [("HAS_FINALIZER", hasFinalizer), ("IN_FINALIZER_QUEUE", inQueue), ("FINALIZED", finalized),
    ("SWEEPABLE", sweepable)]

/-- The flags that a new record starts with. -/
def initial (withFinalizer : Bool) : Flags := if withFinalizer then hasFinalizer else none

end Flags

/-- A record and the object it belongs to, as long as it is attached. -/
structure Record where
  base : Option BlockRef
  flags : Flags
  deriving DecidableEq

namespace Record

def raise (r : Record) (flags : Flags) : Record := { r with flags := r.flags.union flags }

def detach (r : Record) : Record := { r with base := none }.raise .sweepable

@[simp] theorem raise_base (r : Record) (f : Flags) : (r.raise f).base = r.base := rfl

@[simp] theorem raise_flags (r : Record) (f : Flags) : (r.raise f).flags = r.flags.union f := rfl

@[simp] theorem detach_base (r : Record) : r.detach.base = none := rfl

end Record

end SweptHeap
