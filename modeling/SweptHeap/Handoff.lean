/-!
# Handoffs

Blocks on their way to their finalizers, in the order in which sweeps found them.
-/

namespace SweptHeap

structure Handoff (α : Type) where
  items : Array α := #[]

namespace Handoff

variable {α : Type}

def push (q : Handoff α) (a : α) : Handoff α := ⟨q.items.push a⟩

/-- Everything in `q`, then everything in `r`. -/
def merge (q r : Handoff α) : Handoff α := ⟨q.items ++ r.items⟩

def size (q : Handoff α) : Nat := q.items.size

def isEmpty (q : Handoff α) : Bool := q.items.isEmpty

def toList (q : Handoff α) : List α := q.items.toList

@[simp] theorem toList_push (q : Handoff α) (a : α) : (q.push a).toList = q.toList ++ [a] := by
  simp [push, toList]

@[simp] theorem toList_merge (q r : Handoff α) : (q.merge r).toList = q.toList ++ r.toList := by
  simp [merge, toList]

end Handoff

end SweptHeap
