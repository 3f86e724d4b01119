import Mathlib
import SweptHeap.Collector.Basic
import SweptHeap.Proofs.Heap.Operations

/-!
# A worker that runs finalizers

The state is a heap with the worker that runs its finalizers, and with everyone who gives the worker
something to do. A move is what somebody does while others wait: whoever schedules an epoch, adds
blocks that are due or tells the worker to stop holds a lock meanwhile, and so does the worker when
it takes an epoch, takes the blocks that are due or reports an epoch. Between the finalizer of a
block and the next thing it does, the worker may be interrupted as well.

It remembers what was given to the worker and what the worker did with it. A worker that is not
disturbed does what the collector does in one go (`serveFinalizers_alone`).
-/

namespace SweptHeap

/-- What the worker does with a block. -/
inductive Treatment where
  /-- Has run its finalizer. -/
  | called (b : BlockRef)
  /-- Has told the policy so. -/
  | told (b : BlockRef)
  deriving DecidableEq

namespace Treatment

/-- All that is to be done with a block. -/
def course (b : BlockRef) : List Treatment := [.called b, .told b]

/-- What a treatment makes of the arena. -/
def effect {ρ : Type} (policy : Policy ρ) (finalizer : Finalizer ρ) (a : Arena ρ) :
    Treatment → Arena ρ
  | .called b => { a with memo := finalizer b a.memo }
  | .told b => a.noteFinalized policy b

end Treatment

/-- What the worker does next. -/
inductive Post where
  | waiting
  /-- Has an epoch to serve, and takes the blocks that are due. -/
  | fetching (epoch : Int)
  /-- Runs the finalizer of the first block, or reports the epoch if there is none. -/
  | calling (epoch : Int) (rest : List BlockRef)
  /-- Has run the finalizer of `b`, and tells the policy. -/
  | telling (epoch : Int) (b : BlockRef) (rest : List BlockRef)
  | ended
  /-- Has reported an epoch that has not finished. -/
  | stuck
  deriving DecidableEq

namespace Post

/-- The epoch that the worker serves. -/
def epoch? : Post → Option Int
  | .fetching epoch | .calling epoch _ | .telling epoch _ _ => some epoch
  | _ => none

/-- What is still to be done with the blocks that the worker has taken. -/
def todo : Post → List Treatment
  | .calling _ rest => rest.flatMap Treatment.course
  | .telling _ b rest => .told b :: rest.flatMap Treatment.course
  | _ => []

end Post

structure FinalizerWorker (ρ : Type) where
  heap : Heap ρ
  progress : Progress
  tasks : FinalizerTasks := {}
  post : Post := .waiting
  /-- The blocks that were ever due. -/
  added : List BlockRef := heap.pending.toList
  /-- The blocks that the worker has taken. -/
  taken : List BlockRef := []
  treated : List Treatment := []
  /-- The epochs that were scheduled with the worker. -/
  scheduled : List Int := []
  /-- The epochs that the worker has reported. -/
  reported : List Int := []

namespace FinalizerWorker

variable {ρ : Type}

inductive Move (ρ : Type) where
  | schedule (epoch : Int)
  | add (queue : Handoff BlockRef)
  | stop
  /-- The worker goes on, if it need not wait. -/
  | work
  /-- Somebody else works on the heap. -/
  | tend (f : Heap ρ → Heap ρ)
  /-- Somebody else moves the counters. -/
  | count (f : Progress → Progress)

/-- Runs the finalizer of a block. -/
def call (finalizer : Finalizer ρ) (x : BlockRef) (h : Heap ρ) : Heap ρ :=
  { h with arena := { h.arena with memo := finalizer x h.arena.memo } }

/-- Tells the policy that the finalizer of a block has run. -/
def tell (policy : Policy ρ) (x : BlockRef) (h : Heap ρ) : Heap ρ :=
  { h with arena := h.arena.noteFinalized policy x }

def work (policy : Policy ρ) (finalizer : Finalizer ρ) (b : FinalizerWorker ρ) :
    FinalizerWorker ρ :=
  match b.post with
  | .waiting =>
    if b.tasks.isReady then
      match b.tasks.take with
      | (some epoch, tasks) => { b with tasks := tasks, post := .fetching epoch }
      | (none, tasks) => { b with tasks := tasks, post := .ended }
    else b
  | .fetching epoch =>
    { b with
      heap := (Heap.extract.apply b.heap).2
      post := .calling epoch b.heap.pending.toList
      taken := b.taken ++ b.heap.pending.toList }
  | .calling epoch [] =>
    match b.progress.finalize epoch with
    | .ok p => { b with progress := p, post := .waiting, reported := b.reported ++ [epoch] }
    | .error _ => { b with post := .stuck }
  | .calling epoch (x :: rest) =>
    { b with
      heap := call finalizer x b.heap
      post := .telling epoch x rest
      treated := b.treated ++ [.called x] }
  | .telling epoch x rest =>
    { b with
      heap := tell policy x b.heap
      post := .calling epoch rest
      treated := b.treated ++ [.told x] }
  | .ended | .stuck => b

def step (policy : Policy ρ) (finalizer : Finalizer ρ) (b : FinalizerWorker ρ) :
    Move ρ → FinalizerWorker ρ
  | .schedule epoch =>
    { b with tasks := b.tasks.schedule epoch, scheduled := b.scheduled ++ [epoch] }
  | .add queue =>
    { b with heap := ((Heap.submit queue).apply b.heap).2, added := b.added ++ queue.toList }
  | .stop => { b with tasks := b.tasks.stop }
  | .work => b.work policy finalizer
  | .tend f => { b with heap := f b.heap }
  | .count f => { b with progress := f b.progress }

def run (policy : Policy ρ) (finalizer : Finalizer ρ) (moves : List (Move ρ))
    (b : FinalizerWorker ρ) : FinalizerWorker ρ :=
  moves.foldl (step policy finalizer) b

/-- Nobody schedules an epoch that has not finished, or an earlier one than before, and nobody
schedules any once the worker has been told to stop. Finished epochs stay finished, and only the
worker takes blocks that are due and reports epochs. -/
def Admits (b : FinalizerWorker ρ) : Move ρ → Prop
  | .schedule epoch => b.tasks.stopping = false ∧ (∀ e ∈ b.scheduled, e ≤ epoch) ∧
      epoch ≤ b.progress.finished
  | .stop => b.tasks.stopping = false
  | .tend f => (f b.heap).pending.toList = b.heap.pending.toList
  | .count f => b.progress.finished ≤ (f b.progress).finished ∧
      (f b.progress).finalized = b.progress.finalized
  | .add _ | .work => True

def Allows (policy : Policy ρ) (finalizer : Finalizer ρ) : List (Move ρ) → FinalizerWorker ρ → Prop
  | [], _ => True
  | m :: moves, b => b.Admits m ∧ Allows policy finalizer moves (b.step policy finalizer m)

instance (b : FinalizerWorker ρ) : (m : Move ρ) → Decidable (b.Admits m)
  | .schedule _ => inferInstanceAs (Decidable (_ ∧ _ ∧ _))
  | .stop | .tend _ => inferInstanceAs (Decidable (_ = _))
  | .count _ => inferInstanceAs (Decidable (_ ∧ _))
  | .add _ | .work => isTrue trivial

instance (policy : Policy ρ) (finalizer : Finalizer ρ) :
    (moves : List (Move ρ)) → (b : FinalizerWorker ρ) → Decidable (Allows policy finalizer moves b)
  | [], _ => isTrue trivial
  | m :: moves, b =>
    have : Decidable (Allows policy finalizer moves (b.step policy finalizer m)) :=
      instDecidableAllows policy finalizer moves (b.step policy finalizer m)
    inferInstanceAs (Decidable (_ ∧ _))

variable {policy : Policy ρ} {finalizer : Finalizer ρ} {b : FinalizerWorker ρ}

@[simp] theorem run_cons (m : Move ρ) (moves : List (Move ρ)) :
    run policy finalizer (m :: moves) b = run policy finalizer moves (b.step policy finalizer m) :=
  rfl

theorem run_append (before after : List (Move ρ)) :
    run policy finalizer (before ++ after) b =
      run policy finalizer after (run policy finalizer before b) :=
  List.foldl_append

theorem allows_append {before after : List (Move ρ)}
    (h : Allows policy finalizer (before ++ after) b) :
    Allows policy finalizer before b ∧
      Allows policy finalizer after (run policy finalizer before b) := by
  induction before generalizing b with
  | nil => exact ⟨trivial, h⟩
  | cons m before ih =>
    obtain ⟨hbefore, hafter⟩ := ih h.2
    exact ⟨⟨h.1, hbefore⟩, hafter⟩

/-! ### What treatments do -/

/-- What the worker does in one move to the arena is the effect of the treatments that it notes. -/
theorem work_treats (policy : Policy ρ) (finalizer : Finalizer ρ) (b : FinalizerWorker ρ) :
    ∃ done, (b.work policy finalizer).treated = b.treated ++ done ∧
      (b.work policy finalizer).heap.arena =
        done.foldl (Treatment.effect policy finalizer) b.heap.arena := by
  obtain ⟨heap, progress, tasks, post, added, taken, treated, scheduled, reported⟩ := b
  cases post with
  | waiting =>
    refine ⟨[], ?_⟩
    simp only [work, List.append_nil, List.foldl_nil]
    split_ifs
    · cases htasks : tasks.epoch <;> simp [FinalizerTasks.take, htasks]
    · exact ⟨rfl, rfl⟩
  | calling epoch rest =>
    cases rest with
    | nil =>
      refine ⟨[], ?_⟩
      simp only [work, Progress.finalize, List.append_nil, List.foldl_nil]
      split_ifs <;> exact ⟨rfl, rfl⟩
    | cons x rest => exact ⟨[.called x], rfl, rfl⟩
  | telling epoch x rest => exact ⟨[.told x], rfl, rfl⟩
  | _ => exact ⟨[], (List.append_nil _).symm, rfl⟩

/-! ### One worker alone -/

/-- The worker does `n` moves in a row. -/
def works (policy : Policy ρ) (finalizer : Finalizer ρ) (n : Nat) (b : FinalizerWorker ρ) :
    FinalizerWorker ρ :=
  run policy finalizer (List.replicate n .work) b

theorem works_succ (n : Nat) :
    works policy finalizer (n + 1) b = works policy finalizer n (b.work policy finalizer) := rfl

/-- Left alone, the worker gives each block its treatment. -/
theorem works_calling {epoch : Int} {rest : List BlockRef} (h : b.post = .calling epoch rest) :
    works policy finalizer (2 * rest.length) b =
      { b with
        heap := { b.heap with
          arena := rest.foldl (fun a x => a.finalize policy finalizer x) b.heap.arena }
        post := .calling epoch []
        treated := b.treated ++ rest.flatMap Treatment.course } := by
  induction rest generalizing b with
  | nil =>
    obtain ⟨heap, progress, tasks, post, added, taken, treated, scheduled, reported⟩ := b
    obtain rfl : post = _ := h
    simp [works, run]
  | cons x rest ih =>
    rw [List.length_cons, mul_add, mul_one, works_succ, works_succ, ih]
    · simp [work, h, call, tell, Treatment.course, Arena.finalize]
    · simp [work, h]

theorem works_add (m n : Nat) :
    works policy finalizer (m + n) b = works policy finalizer n (works policy finalizer m b) := by
  rw [works, List.replicate_add, run_append]
  rfl

/-- Left alone, a worker with an epoch to serve runs all the finalizers due and reports the
epoch. -/
theorem serve_alone (policy : Policy ρ) (finalizer : Finalizer ρ) {epoch : Int}
    (hpost : b.post = .waiting) (htasks : b.tasks.epoch = some epoch)
    (hle : epoch ≤ b.progress.finished) : ∃ n, works policy finalizer n b =
      { b with
        heap := ((Heap.finalizePending policy finalizer).apply b.heap).2
        progress := { b.progress with finalized := epoch }
        tasks := b.tasks.take.2
        taken := b.taken ++ b.heap.pending.toList
        treated := b.treated ++ b.heap.pending.toList.flatMap Treatment.course
        reported := b.reported ++ [epoch] } := by
  refine ⟨2 + 2 * b.heap.pending.toList.length + 1, ?_⟩
  have htake : works policy finalizer 2 b =
      { b with
        heap := (Heap.extract.apply b.heap).2
        tasks := b.tasks.take.2
        post := .calling epoch b.heap.pending.toList
        taken := b.taken ++ b.heap.pending.toList } := by
    have hready : b.tasks.isReady = true := by simp [FinalizerTasks.isReady, htasks]
    simp only [works_succ, work, hpost, hready, if_true, FinalizerTasks.take, htasks]
    rfl
  rw [works_add, works_add, htake, works_calling rfl, works_succ]
  have hfoldl : ((Heap.finalizePending policy finalizer).apply b.heap).2 =
      { (Heap.extract.apply b.heap).2 with
        arena := b.heap.pending.toList.foldl (fun a x => a.finalize policy finalizer x)
          b.heap.arena } := by
    rw [Handoff.toList, Array.foldl_toList]
    rfl
  simp only [work, Progress.finalize, if_pos hle, hfoldl]
  rw [← hpost]
  rfl

/-- The worker of a collector before it is given anything. -/
def ofCollector (c : Collector ρ) (tasks : FinalizerTasks) : FinalizerWorker ρ :=
  { heap := c.heap, progress := c.progress, tasks := tasks }

/-- Left alone, the worker does move by move what the collector lets it do in one go. -/
theorem serveFinalizers_alone {client : Client ρ} {c : Collector ρ}
    {tasks : FinalizerTasks} {epoch : Int} (hworker : c.finalizers = some tasks)
    (htasks : tasks.epoch = some epoch) (hle : epoch ≤ c.progress.finished) :
    ∃ n, (Collector.serveFinalizers client).apply c = (.ok (), { c with
      heap := (works client.policy client.finalizer n (ofCollector c tasks)).heap
      progress := (works client.policy client.finalizer n (ofCollector c tasks)).progress
      finalizers :=
        some (works client.policy client.finalizer n (ofCollector c tasks)).tasks }) := by
  have hpost : (ofCollector c tasks).post = .waiting := rfl
  obtain ⟨n, hn⟩ := serve_alone client.policy client.finalizer hpost htasks hle
  refine ⟨n, ?_⟩
  obtain ⟨e, stopping⟩ := tasks
  obtain rfl : e = some epoch := htasks
  have hadvance (c' : Collector ρ) (hp : c'.progress = c.progress) :
      (Collector.advance (·.finalize epoch)).apply c' =
        (.ok (), { c' with progress := { c.progress with finalized := epoch } }) := by
    simp only [Collector.advance, Act.apply, ExceptT.run, hp, Progress.finalize, if_pos hle]
  rw [hn, Collector.serveFinalizers, Act.apply_get_bind, hworker]
  exact hadvance _ rfl

end FinalizerWorker

end SweptHeap
