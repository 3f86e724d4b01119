import SweptHeap.Verdict

/-!
# Selections

A script picks blocks by their numbers, and a table says what fate each number has.
-/

namespace SweptHeap.Script

/-- One number, or every `step`-th number from `first` up to `stop`. -/
inductive Pick where
  | one (id : Int)
  | range (first stop step : Int)

namespace Pick

def contains (p : Pick) (id : Int) : Bool :=
  match p with
  | one x => x = id
  | range first stop step => first ≤ id && id < stop && (id - first) % step = 0

def toList : Pick → List Int
  | one x => [x]
  | range first stop step =>
    let count := ((stop - first + step - 1) / step).toNat
    (List.range count).map fun (i : Nat) => first + step * i

end Pick

abbrev Selection := List Pick

namespace Selection

def contains (s : Selection) (id : Int) : Bool := s.any (Pick.contains · id)

def toList (s : Selection) : List Int := s.flatMap Pick.toList

end Selection

/-- Which numbers a rule is about. -/
inductive Scope where
  | selected (sel : Selection)
  | residue (modulus residue : Int)

def Scope.contains (s : Scope) (id : Int) : Bool :=
  match s with
  | selected sel => sel.contains id
  | residue m e => id % m = e

structure Rule where
  fate : Fate
  scope : Scope

/-- The last rule about a number decides, or else the default. -/
structure FateTable where
  default : Fate := .dead
  rules : List Rule := []

/-- The fate of a number if the rules are taken from the last one on. -/
def FateTable.fate (t : FateTable) (id : Int) : Fate :=
  match t.rules.reverse.find? (·.scope.contains id) with
  | some rule => rule.fate
  | none => t.default

end SweptHeap.Script
