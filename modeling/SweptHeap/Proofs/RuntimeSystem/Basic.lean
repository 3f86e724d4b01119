import Mathlib
import SweptHeap.Proofs.FinalizerWorker.Basic
import SweptHeap.Proofs.AssistedSweep.Basic
import SweptHeap.Proofs.Heap.Watch
import SweptHeap.Proofs.HeapSystem.Diary
import SweptHeap.Proofs.SharedDepot.Acts

/-!
# The whole runtime

The state is a heap with all who work on it at once: the collector and its assistants, mutators that
sweep pages when they need one with room, and the worker that runs finalizers. A move is what one of
them does while it holds a lock, works on a page that nobody else can see or changes one of the
shared counters; between two moves of a thread any others may come.

What a sweep sets aside goes to the queue of the thread that sweeps. A mutator hands over its queue
in a move of its own, when it has a page and its sweep no longer counts as under way. The collector
takes over the queues of its assistants, hands over everything and schedules its epoch with the
worker.

The state remembers which blocks the policy sent to their finalizers, and in which cycle. What
mutators had not handed over when an epoch was scheduled is late for that epoch. Which treatments
the worker notes is its own account; each stands for a move in which it had its effect
(`RuntimeSystem.exists_treating`).
-/

namespace SweptHeap

/-- A thread that sweeps. -/
structure Sweeper where
  /-- What it has still to do. Mutators have no chores. -/
  chores : List Chore := []
  tally : Tally := {}
  /-- The shelf that it works at. -/
  place : Request := ⟨.uniform, 0⟩
  task : Task := .idle
  /-- What it has set aside and not handed over. -/
  queue : List BlockRef := []

namespace Sweeper

variable {ρ : Type}

def collector : Sweeper := { chores := Hand.collector.chores }

def assistant : Sweeper := { chores := Hand.assistant.chores }

/-- Does the next act of its task. -/
def act (policy : Policy ρ) (s : Sweeper) (h : Heap ρ) : Sweeper × Heap ρ :=
  let done := (Heap.atShelf s.place (s.task.act policy)).apply h
  ({ s with
      task := s.task.next done.1
      queue := s.queue ++ done.2.arena.found.toList.drop h.arena.found.toList.length }, done.2)

/-- Begins or ends a chore, or does the next act of the one it is at. -/
def toil (policy : Policy ρ) (epoch : Int) (s : Sweeper) (h : Heap ρ) : Sweeper × Heap ρ :=
  match s.task with
  | .idle =>
    match s.chores with
    | [] => (s, h)
    | .sweep r :: _ => ({ s with place := r, task := (Call.sweep s.tally).task }, h)
    | .free :: _ =>
      ({ s with place := ⟨.large, 0⟩, task := (Call.sweepAndFree .large s.tally).task }, h)
    | c :: rest =>
      let settled := c.settle epoch s.tally h
      ({ s with chores := rest, tally := settled.1 }, settled.2)
  | .counted tally => ({ s with chores := s.chores.tail, tally := tally, task := .idle }, h)
  | _ => s.act policy h

end Sweeper

namespace RuntimeSystem

/-- What the collector does next. -/
inductive Stage where
  | resting
  /-- Has started its epoch, and waits for the world to stop. -/
  | preparing
  /-- Does its chores, and then waits for the sweeps under way. -/
  | sweeping
  /-- Takes over from its assistants. -/
  | joining
  /-- Hands over what was set aside. -/
  | submitting
  | finishing
  /-- Schedules its epoch with the worker. -/
  | scheduling
  /-- Came upon a fault. -/
  | stuck
  deriving DecidableEq

end RuntimeSystem

structure RuntimeSystem (ρ : Type) where
  /-- The heap, the counters and the worker. -/
  worker : FinalizerWorker (Diary ρ)
  /-- The number of assistants in a cycle. -/
  helpers : Nat
  stage : RuntimeSystem.Stage := .resting
  /-- The epoch that was started last. -/
  epoch : Int := 0
  collector : Sweeper := {}
  assistants : List Sweeper := []
  mutators : List Sweeper := []
  /-- The blocks that the policy sent to their finalizers, each with the epoch of the cycle. -/
  answered : List (Int × BlockRef) := []
  /-- What mutators had not handed over when an epoch was scheduled with the worker. -/
  late : List (Int × BlockRef) := []

namespace RuntimeSystem

variable {ρ : Type}

def new (h : Heap (Diary ρ)) (helpers : Nat) : RuntimeSystem ρ where
  worker := { heap := h, progress := {} }
  helpers := helpers

def heap (e : RuntimeSystem ρ) : Heap (Diary ρ) := e.worker.heap

/-- The threads that sweep. -/
def threads (e : RuntimeSystem ρ) : List Sweeper := e.collector :: (e.assistants ++ e.mutators)

/-- What was set aside and not handed over. -/
def queues (e : RuntimeSystem ρ) : List BlockRef := e.threads.flatMap Sweeper.queue

/-- What the policy sent to finalizers in the cycle of an epoch. -/
def answeredIn (e : RuntimeSystem ρ) (epoch : Int) : List BlockRef :=
  (e.answered.filter (·.1 = epoch)).map Prod.snd

/-- What the policy sent to finalizers up to an epoch. -/
def answeredUpTo (e : RuntimeSystem ρ) (epoch : Int) : List BlockRef :=
  (e.answered.filter (·.1 ≤ epoch)).map Prod.snd

/-- What was late for an epoch. -/
def lateFor (e : RuntimeSystem ρ) (epoch : Int) : List BlockRef :=
  (e.late.filter (·.1 = epoch)).map Prod.snd

inductive Move (ρ : Type) where
  /-- Somebody asks for a collection. -/
  | request
  /-- The collector starts an epoch. -/
  | begin (epoch : Int)
  /-- The collector goes on, if it need not wait. -/
  | collect
  /-- An assistant goes on. -/
  | assist (i : Nat)
  /-- A mutator comes. -/
  | attach
  /-- A mutator wants a page. -/
  | call (i : Nat) (r : Request)
  /-- A mutator goes on. -/
  | act (i : Nat)
  /-- A mutator that has got its page hands over what it has set aside. -/
  | flush (i : Nat)
  /-- The worker goes on, if it need not wait. -/
  | work
  /-- Somebody works on the heap otherwise. -/
  | tend (f : Heap (Diary ρ) → Heap (Diary ρ))

/-- The heap after a sweep, with the answers of the policy on record. -/
def leave (e : RuntimeSystem ρ) (h : Heap (Diary ρ)) : RuntimeSystem ρ :=
  { e with
    worker := { e.worker with heap := h }
    answered := e.answered ++
      ((finalizing h.notes).drop (finalizing e.heap.notes).length).map (e.epoch, ·) }

/-- The next move of the collector. -/
def collect (policy : Policy ρ) (finalizer : Finalizer (Diary ρ)) (e : RuntimeSystem ρ) :
    RuntimeSystem ρ :=
  match e.stage with
  | .resting | .stuck => e
  | .preparing =>
    match Heap.prepare.apply e.heap with
    | (.ok (), h) =>
      { e with
        worker := { e.worker with heap := h }
        stage := .sweeping
        collector := .collector
        assistants := List.replicate e.helpers .assistant }
    | (.error _, h) => { e with worker := { e.worker with heap := h }, stage := .stuck }
  | .sweeping =>
    if e.collector.chores = [] then
      if e.heap.arena.sweepers = 0 then { e with stage := .joining } else e
    else
      let done := e.collector.toil policy.noting e.epoch e.heap
      { e.leave done.2 with collector := done.1 }
  | .joining =>
    match e.assistants with
    | [] => { e with stage := .submitting }
    | s :: rest =>
      if s.chores = [] then
        { e with
          collector := { e.collector with queue := e.collector.queue ++ s.queue }
          assistants := rest }
      else e
  | .submitting =>
    { e with
      worker := e.worker.step policy.noting finalizer (.add ⟨e.collector.queue.toArray⟩)
      stage := .finishing
      collector := { e.collector with queue := [] } }
  | .finishing =>
    match e.worker.progress.finish e.epoch with
    | .ok p => { e with worker := { e.worker with progress := p }, stage := .scheduling }
    | .error _ => { e with stage := .stuck }
  | .scheduling =>
    { e with
      worker := e.worker.step policy.noting finalizer (.schedule e.epoch)
      stage := .resting
      late := e.late ++ (e.mutators.flatMap Sweeper.queue).map (e.epoch, ·) }

def step (policy : Policy ρ) (finalizer : Finalizer (Diary ρ)) (e : RuntimeSystem ρ) :
    Move ρ → RuntimeSystem ρ
  | .request => { e with worker := { e.worker with progress := e.worker.progress.schedule.2 } }
  | .begin epoch =>
    if e.stage = .resting then
      match e.worker.progress.start epoch with
      | .ok p =>
        { e with worker := { e.worker with progress := p }, stage := .preparing, epoch := epoch }
      | .error _ => e
    else e
  | .collect => e.collect policy finalizer
  | .assist i =>
    match e.assistants[i]? with
    | none => e
    | some s =>
      let done := s.toil policy.noting e.epoch e.heap
      { e.leave done.2 with assistants := e.assistants.set i done.1 }
  | .attach => { e with mutators := e.mutators ++ [{}] }
  | .call i r =>
    match e.mutators[i]? with
    | none => e
    | some s =>
      if s.task.isFree ∧ s.queue = [] then
        let s := { s with place := r, task := (Call.getPage r e.heap.epoch).task }
        { e with mutators := e.mutators.set i s }
      else e
  | .act i =>
    match e.mutators[i]? with
    | none => e
    | some s =>
      let done := s.act policy.noting e.heap
      { e.leave done.2 with mutators := e.mutators.set i done.1 }
  | .flush i =>
    match e.mutators[i]? with
    | none => e
    | some s =>
      if s.task.isFree then
        { e with
          worker := e.worker.step policy.noting finalizer (.add ⟨s.queue.toArray⟩)
          mutators := e.mutators.set i { s with queue := [] } }
      else e
  | .work => { e with worker := e.worker.step policy.noting finalizer .work }
  | .tend f => { e with worker := { e.worker with heap := f e.heap } }

def run (policy : Policy ρ) (finalizer : Finalizer (Diary ρ)) (moves : List (Move ρ))
    (e : RuntimeSystem ρ) : RuntimeSystem ρ :=
  moves.foldl (step policy finalizer) e

/-- The collector starts an epoch that is pending, and begins its cycle when no mutator is about to
get a page or to hand over what it has set aside. Mutators want pages that there are. Nobody but the
collector makes pages wait for the sweep, and nobody but the threads sweeps them or hands over
blocks. -/
def Admits (e : RuntimeSystem ρ) : Move ρ → Prop
  | .begin epoch => e.worker.progress.started < epoch
  | .collect => e.stage = .preparing → ∀ s ∈ e.mutators, s.task.isFree = true ∧ s.queue = []
  | .call _ r => r.key ∈ Heap.allRequests
  | .tend f => (f e.heap).pending.toList = e.heap.pending.toList ∧
      (f e.heap).arena.sweepers = e.heap.arena.sweepers ∧
      ∀ k ∈ Heap.allRequests, ((f e.heap).shelf k).unswept = (e.heap.shelf k).unswept
  | _ => True

def Allows (policy : Policy ρ) (finalizer : Finalizer (Diary ρ)) :
    List (Move ρ) → RuntimeSystem ρ → Prop
  | [], _ => True
  | m :: moves, e => e.Admits m ∧ Allows policy finalizer moves (e.step policy finalizer m)

instance (e : RuntimeSystem ρ) : (m : Move ρ) → Decidable (e.Admits m)
  | .begin _ => inferInstanceAs (Decidable (_ < _))
  | .collect => inferInstanceAs (Decidable (_ → _))
  | .call _ r => inferInstanceAs (Decidable (r.key ∈ Heap.allRequests))
  | .tend _ => inferInstanceAs (Decidable (_ ∧ _ ∧ _))
  | .request | .assist _ | .attach | .act _ | .flush _ | .work => isTrue trivial

instance (policy : Policy ρ) (finalizer : Finalizer (Diary ρ)) :
    (moves : List (Move ρ)) → (e : RuntimeSystem ρ) → Decidable (Allows policy finalizer moves e)
  | [], _ => isTrue trivial
  | m :: moves, e =>
    have : Decidable (Allows policy finalizer moves (e.step policy finalizer m)) :=
      instDecidableAllows policy finalizer moves (e.step policy finalizer m)
    inferInstanceAs (Decidable (_ ∧ _))

/-! ### What treatments do -/

theorem collect_treated (policy : Policy ρ) (finalizer : Finalizer (Diary ρ))
    (e : RuntimeSystem ρ) : (e.collect policy finalizer).worker.treated = e.worker.treated := by
  unfold collect
  split
  · rfl
  · rfl
  · split <;> rfl
  · split_ifs <;> rfl
  · split
    · rfl
    · split_ifs <;> rfl
  · rfl
  · split <;> rfl
  · rfl

/-- Only the worker treats blocks, and what it does to the arena is the effect of the treatments
that it notes. -/
theorem step_treats (policy : Policy ρ) (finalizer : Finalizer (Diary ρ)) (e : RuntimeSystem ρ)
    (m : Move ρ) :
    (e.step policy finalizer m).worker.treated = e.worker.treated ∨
      m = .work ∧ ∃ done, (e.step policy finalizer m).worker.treated = e.worker.treated ++ done ∧
        (e.step policy finalizer m).heap.arena =
          done.foldl (Treatment.effect policy.noting finalizer) e.heap.arena := by
  cases m with
  | work => exact .inr ⟨rfl, e.worker.work_treats policy.noting finalizer⟩
  | collect => exact .inl (e.collect_treated policy finalizer)
  | request | attach | tend f => exact .inl rfl
  | «begin» epoch =>
    left
    simp only [step]
    split_ifs
    · split <;> rfl
    · rfl
  | assist i | act i =>
    left
    simp only [step]
    split <;> rfl
  | call i r | flush i =>
    left
    simp only [step]
    split
    · rfl
    · split_ifs <;> rfl

/-- Each treatment on record came with a move of the worker that had its effect on the arena. -/
theorem exists_treating {policy : Policy ρ} {finalizer : Finalizer (Diary ρ)}
    {e : RuntimeSystem ρ} {moves : List (Move ρ)} {t : Treatment}
    (ht : t ∈ (run policy finalizer moves e).worker.treated) (hnew : t ∉ e.worker.treated) :
    ∃ before after, ∃ done : List Treatment, moves = before ++ .work :: after ∧ t ∈ done ∧
      (run policy finalizer (before ++ [.work]) e).heap.arena =
        done.foldl (Treatment.effect policy.noting finalizer)
          (run policy finalizer before e).heap.arena := by
  induction moves generalizing e with
  | nil => exact absurd ht hnew
  | cons m moves ih =>
    by_cases hstep : t ∈ (e.step policy finalizer m).worker.treated
    · rcases step_treats policy finalizer e m with hsame | ⟨rfl, done, htreated, harena⟩
      · exact absurd (hsame ▸ hstep) hnew
      · rw [htreated] at hstep
        exact ⟨[], moves, done, rfl, (List.mem_append.mp hstep).resolve_left hnew, harena⟩
    · obtain ⟨before, after, done, rfl, hdone, harena⟩ := ih ht hstep
      exact ⟨m :: before, after, done, rfl, hdone, harena⟩

end RuntimeSystem

end SweptHeap
