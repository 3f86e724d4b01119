import SweptHeap.Heap.Basic

/-!
# Finalizers

A worker runs the finalizers that are due whenever an epoch is scheduled with it. Epochs that are
scheduled while it is busy merge into the largest of them. A worker that is told to stop serves the
epoch it still has.
-/

namespace SweptHeap

structure FinalizerTasks where
  epoch : Option Int := none
  stopping : Bool := false
  deriving DecidableEq

namespace FinalizerTasks

def schedule (epoch : Int) (t : FinalizerTasks) : FinalizerTasks :=
  { t with epoch := some (t.epoch.elim epoch (max · epoch)) }

def stop (t : FinalizerTasks) : FinalizerTasks := { t with stopping := true }

/-- Whether the worker has something to do, be it to end. -/
def isReady (t : FinalizerTasks) : Bool := t.epoch.isSome || t.stopping

/-- Takes the epoch to serve. The worker ends when there is none. -/
def take (t : FinalizerTasks) : Option Int × FinalizerTasks := (t.epoch, { t with epoch := none })

end FinalizerTasks

/-- A finalizer may only look at the block and change the memory that it shares with the policy. -/
abbrev Finalizer (ρ : Type) := BlockRef → ρ → ρ

namespace Arena

variable {ρ : Type}

/-- Runs the finalizer of a block and tells the policy. -/
def finalize (policy : Policy ρ) (finalizer : Finalizer ρ) (b : BlockRef) (a : Arena ρ) : Arena ρ :=
  match a with
  | ⟨memory, memo, meter, sweepers, found⟩ =>
    noteFinalized policy b ⟨memory, finalizer b memo, meter, sweepers, found⟩

end Arena

namespace Heap

variable {ρ : Type}

/-- Runs all the finalizers due, in the order in which they came, and counts them. -/
def finalizePending (policy : Policy ρ) (finalizer : Finalizer ρ) : Act (Heap ρ) Nat := do
  let queue ← extract
  modifyArena fun a => queue.items.foldl (fun a b => a.finalize policy finalizer b) a
  return queue.size

end Heap

end SweptHeap
