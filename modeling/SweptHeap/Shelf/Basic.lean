import SweptHeap.Cell
import SweptHeap.Census
import SweptHeap.Fault

/-!
# Shelves

A shelf keeps the pages of one kind in four lists. Empty pages hold no block. Ready pages have been
swept and mostly have room. Used pages have been given to an allocator since the collection began.
Unswept pages wait for the sweep of the current collection. The definitions here are the steps that
are taken while no one else looks at the lists.
-/

namespace SweptHeap

structure Shelf where
  empty : Array PageId := #[]
  ready : Array PageId := #[]
  used : Array PageId := #[]
  unswept : Array PageId := #[]
  deriving DecidableEq

namespace Shelf

def count (s : Shelf) : PageCount := ⟨s.empty.size, s.ready.size, s.used.size, s.unswept.size⟩

/-- All pages of the shelf, list by list. -/
def pages (s : Shelf) : Array PageId := s.empty ++ s.ready ++ s.used ++ s.unswept

def addEmpty (s : Shelf) (id : PageId) : Shelf := { s with empty := s.empty.push id }

def addReady (s : Shelf) (id : PageId) : Shelf := { s with ready := s.ready.push id }

def addUsed (s : Shelf) (id : PageId) : Shelf := { s with used := s.used.push id }

/-- The last of the first `count` pages that has room. -/
def lastWithRoom (room : PageId → Except Fault Bool) (pages : Array PageId) :
    (count : Nat) → Except Fault (Option Nat)
  | 0 => .ok none
  | i + 1 =>
    match pages[i]? with
    | none => .ok none
    | some id =>
      match room id with
      | .error e => .error e
      | .ok true => .ok (some i)
      | .ok false => lastWithRoom room pages i

/-- Removes the page at position `i`, and puts the last page there. -/
def removeAt (pages : Array PageId) (i : Nat) : Array PageId :=
  match pages.back? with
  | none => pages
  | some last => (pages.setIfInBounds i last).pop

/-- Moves the last ready page with room to the used ones. -/
def takeReady (room : PageId → Except Fault Bool) (s : Shelf) :
    Except Fault (Option PageId) × Shelf :=
  match lastWithRoom room s.ready s.ready.size with
  | .error e => (.error e, s)
  | .ok none => (.ok none, s)
  | .ok (some i) =>
    match s.ready[i]? with
    | none => (.ok none, s)
    | some id => (.ok (some id), { s with ready := removeAt s.ready i, used := s.used.push id })

/-- Moves the last empty page to the used ones. -/
def takeEmpty (s : Shelf) : Option PageId × Shelf :=
  match s.empty.back? with
  | none => (none, s)
  | some id => (some id, { s with empty := s.empty.pop, used := s.used.push id })

/-- Takes the last unswept page off the shelf. -/
def takeUnswept (s : Shelf) : Option PageId × Shelf :=
  match s.unswept.back? with
  | none => (none, s)
  | some id => (some id, { s with unswept := s.unswept.pop })

/-- Hands every page to the coming sweep. -/
def prepare (s : Shelf) : Except Fault Unit × Shelf :=
  if s.unswept.isEmpty then (.ok (), { unswept := s.ready ++ s.used ++ s.empty })
  else (.error .unswept, s)

/-- Takes all but the first `keep` empty pages off the shelf. -/
def takeSurplus (keep : Nat) (s : Shelf) : Array PageId × Shelf :=
  (s.empty.drop keep, { s with empty := s.empty.take keep })

end Shelf

end SweptHeap
