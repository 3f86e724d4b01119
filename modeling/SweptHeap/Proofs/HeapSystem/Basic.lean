import Mathlib
import SweptHeap.Heap.Cycle
import SweptHeap.Proofs.Heap.Effects

/-!
# Runs of a heap

The state is a heap with everyone who works on it: its allocators, the handoffs that sweeps returned
and that nobody has submitted yet, and the blocks taken for finalization. `step` carries out one
operation, and `run` a list of them. The policies keep a diary beside their own memory, in which
every question they are asked, every new block or record and every finalizer that has run is noted
in the order of events.
-/

namespace SweptHeap

inductive Note where
  | judged (question : Question) (verdict : Verdict)
  | judgedRecord (ref : BlockRef) (record : Record) (fate : Fate)
  | born (t : Tenant)
  /-- The finalizer of a block has run. -/
  | told (b : BlockRef)

namespace Note

/-- What a policy was asked about and the fate that it chose. -/
def answer : Note → Option (Tenant × Fate)
  | judged q v => some (.block q.block, v.fate)
  | judgedRecord r _ fate => some (.record r, fate)
  | born _ => none
  | told _ => none

def birth : Note → Option Tenant
  | born t => some t
  | _ => none

end Note

def answers (notes : List Note) : List (Tenant × Fate) := notes.filterMap Note.answer

/-- What the policy was asked about, question by question. -/
def asked (notes : List Note) : List Tenant := (answers notes).map Prod.fst

/-- What the policy let live or sent to its finalizer. -/
def spared (notes : List Note) : List Tenant :=
  ((answers notes).filter fun a => a.2 ≠ .dead).map Prod.fst

/-- What the policy gave up. -/
def reclaimed (notes : List Note) : List Tenant :=
  ((answers notes).filter fun a => a.2 = .dead).map Prod.fst

/-- What the policy sent to its finalizer. -/
def finalizing (notes : List Note) : List BlockRef :=
  ((answers notes).filter fun a => a.2 = .finalize).map (·.1.ref)

/-- What was allocated. -/
def births (notes : List Note) : List Tenant := notes.filterMap Note.birth

/-- The memory of a policy, and a diary. -/
structure Diary (ρ : Type) where
  memo : ρ
  notes : List Note := []

variable {ρ : Type}

/-- The same policy, with its answers noted. -/
def Policy.noting (policy : Policy ρ) : Policy (Diary ρ) where
  judge q d :=
    let (verdict, memo) := policy.judge q d.memo
    (verdict, ⟨memo, d.notes ++ [.judged q verdict]⟩)
  judgeRecord r record d :=
    let (fate, memo) := policy.judgeRecord r record d.memo
    (fate, ⟨memo, d.notes ++ [.judgedRecord r record fate]⟩)
  afterFinalizer := policy.afterFinalizer

def Heap.notes (h : Heap (Diary ρ)) : List Note := h.arena.memo.notes

def Heap.note (n : Note) (h : Heap (Diary ρ)) : Heap (Diary ρ) :=
  { h with arena := { h.arena with
    memo := { h.arena.memo with notes := h.arena.memo.notes ++ [n] } } }

structure HeapSystem (ρ : Type) where
  heap : Heap (Diary ρ)
  allocators : List Allocator := []
  /-- Returned by sweeps and not submitted yet. -/
  returned : List (Handoff BlockRef) := []
  /-- Taken for finalization so far. -/
  extracted : List BlockRef := []
  /-- Finalized so far. -/
  told : List BlockRef := []

/-- An operation. Allocators and handoffs go by their position. -/
inductive Op where
  | enlist
  | allocate (i bytes : Nat)
  | createObject (i payload : Nat)
  | createArray (i element count : Nat)
  | createRecord (i : Nat) (object : BlockRef) (withFinalizer : Bool)
  | close (i : Nat)
  | prepare
  | sweep (epoch : Int)
  | assist (epoch : Int)
  | release (keep : Nat)
  /-- Someone writes the `k`th cell of a block. -/
  | write (b : BlockRef) (k : Nat) (c : Cell)
  | mark (b : BlockRef)
  /-- Someone changes what a record says. -/
  | amend (r : BlockRef) (f : Record → Record)
  /-- Someone counts bytes or moves the target. -/
  | gauge (f : Meter → Meter)
  | takeRequest (i : Nat)
  | submit (i : Nat)
  | extract
  | tell (b : BlockRef)

namespace HeapSystem

def new (memo : ρ) : HeapSystem ρ := { heap := .new { memo := memo } }

/-- Everything noted so far. -/
def notes (o : HeapSystem ρ) : List Note := o.heap.notes

/-- Lets an allocator work. -/
def atDesk (i : Nat) (act : Act (Desk (Diary ρ)) BlockRef) (o : HeapSystem ρ) :
    Except Fault (Option BlockRef) × HeapSystem ρ :=
  match o.allocators[i]? with
  | none => (.ok none, o)
  | some a =>
    match act.apply ⟨o.heap, a⟩ with
    | (result, ⟨heap, a⟩) =>
      (result.map some, { o with heap := heap, allocators := o.allocators.set i a })

/-- Notes a new block or record, if there is one. -/
def welcome (tenant : BlockRef → Tenant) :
    Except Fault (Option BlockRef) × HeapSystem ρ → Except Fault (Option BlockRef) × HeapSystem ρ
  | (.ok (some b), o) => (.ok (some b), { o with heap := o.heap.note (.born (tenant b)) })
  | (result, o) => (result, o)

def atHeap {α : Type} (act : Act (Heap (Diary ρ)) α) (o : HeapSystem ρ) :
    Except Fault (Option BlockRef) × HeapSystem ρ :=
  match act.apply o.heap with
  | (result, heap) => (result.map fun _ => none, { o with heap := heap })

/-- Keeps the handoff that a sweep returns. -/
def receive (act : Act (Heap (Diary ρ)) (Handoff BlockRef)) (o : HeapSystem ρ) :
    Except Fault (Option BlockRef) × HeapSystem ρ :=
  match act.apply o.heap with
  | (.ok q, heap) => (.ok none, { o with heap := heap, returned := o.returned ++ [q] })
  | (.error e, heap) => (.error e, { o with heap := heap })

/-- Carries out an operation. -/
def step (policy : Policy ρ) (op : Op) (o : HeapSystem ρ) :
    Except Fault (Option BlockRef) × HeapSystem ρ :=
  match op with
  | .enlist => (.ok none, { o with allocators := o.allocators ++ [.new o.heap] })
  | .allocate i bytes => welcome .block (o.atDesk i (Allocator.allocate policy.noting bytes))
  | .createObject i payload =>
    welcome .block (o.atDesk i (Allocator.createObject policy.noting payload))
  | .createArray i element count =>
    welcome .block (o.atDesk i (Allocator.createArray policy.noting element count))
  | .createRecord i object withFinalizer =>
    let done := o.atDesk i (Allocator.createRecord policy.noting object withFinalizer)
    match o.heap.arena.memory.recordOf object with
    | none => welcome .record done
    | some _ => done
  | .close i =>
    match o.allocators[i]? with
    | none => (.ok none, o)
    | some a =>
      match Allocator.close.apply ⟨o.heap, a⟩ with
      | (result, ⟨heap, _⟩) =>
        (result.map fun _ => none, { o with heap := heap, allocators := o.allocators.eraseIdx i })
  | .prepare => o.atHeap Heap.prepare
  | .sweep epoch => o.receive (Heap.sweep policy.noting epoch)
  | .assist epoch => o.receive (Heap.assist policy.noting epoch)
  | .release keep => o.atHeap (Heap.release keep)
  | .write b k c => (.ok none, { o with heap := o.heap.write ⟨b.page, b.index + k⟩ c })
  | .mark b =>
    (.ok none, { o with
      heap := { o.heap with arena := o.heap.arena.modifyMemory fun m => (m.mark b).2 } })
  | .amend r f => (.ok none, { o with heap := o.heap.amend r f })
  | .gauge f =>
    (.ok none, { o with
      heap := { o.heap with arena := { o.heap.arena with meter := f o.heap.arena.meter } } })
  | .takeRequest i =>
    match o.allocators[i]? with
    | none => (.ok none, o)
    | some a =>
      match Allocator.takeRequest.apply ⟨o.heap, a⟩ with
      | (result, ⟨heap, a⟩) =>
        (result.map fun _ => none, { o with heap := heap, allocators := o.allocators.set i a })
  | .submit i =>
    match o.returned[i]? with
    | none => (.ok none, o)
    | some q => { o with returned := o.returned.eraseIdx i }.atHeap (Heap.submit q)
  | .extract =>
    (.ok none, { o with
      heap := { o.heap with pending := {} }
      extracted := o.extracted ++ o.heap.pending.toList })
  | .tell b =>
    (.ok none, { o with
      heap := { o.heap with arena := o.heap.arena.noteFinalized policy.noting b }.note (.told b)
      told := o.told ++ [b] })

/-- Carries out operations one after the other; a fault does not stop those who come later. -/
def run (policy : Policy ρ) : List Op → HeapSystem ρ → HeapSystem ρ
  | [], o => o
  | op :: ops, o => run policy ops (o.step policy op).2

/-- The operation respects its caller's duties: whoever acts exists, a cycle begins only when the
last one is over, and cells and records belong to allocated blocks. -/
def Admits (o : HeapSystem ρ) : Op → Prop
  | .allocate i _ => i < o.allocators.length
  | .createObject i _ => i < o.allocators.length
  | .createArray i _ _ => i < o.allocators.length
  | .createRecord i object _ =>
    i < o.allocators.length ∧ o.heap.Holds (.block object) ∧ 2 ≤ (o.heap.content object).length
  | .close i => i < o.allocators.length
  | .prepare => ∀ k ∈ Heap.allRequests, (o.heap.shelf k).unswept = #[]
  | .write b k _ => o.heap.Holds (.block b) ∧ k < (o.heap.content b).length
  | .mark b => o.heap.Holds (.block b)
  | .takeRequest i => i < o.allocators.length
  | .submit i => i < o.returned.length
  | .enlist => True
  | .sweep _ => True
  | .assist _ => True
  | .release _ => True
  | .amend _ _ => True
  | .gauge _ => True
  | .extract => True
  | .tell _ => True

/-- All of the operations respect their callers' duties, in the sense of `admits`. -/
def Allows (admits : HeapSystem ρ → Op → Prop) (policy : Policy ρ) : List Op → HeapSystem ρ → Prop
  | [], _ => True
  | op :: ops, o => admits o op ∧ Allows admits policy ops (o.step policy op).2

/-- The states that operations lead to, under policies that may change all the time. -/
inductive Reached : HeapSystem ρ → Prop
  | start (memo : ρ) : Reached (new memo)
  | step {o : HeapSystem ρ} (policy : Policy ρ) (op : Op) (reached : Reached o)
      (admits : o.Admits op) : Reached (o.step policy op).2

/-- The states that operations lead to, as long as whoever acts respects `duty` too. -/
inductive ReachedBy (duty : Policy ρ → HeapSystem ρ → Op → Prop) : HeapSystem ρ → Prop
  | start (memo : ρ) : ReachedBy duty (new memo)
  | step {o : HeapSystem ρ} {policy : Policy ρ} {op : Op} (reached : ReachedBy duty o)
      (admits : o.Admits op) (keeps : duty policy o op) : ReachedBy duty (o.step policy op).2

theorem ReachedBy.reached {duty : Policy ρ → HeapSystem ρ → Op → Prop} {o : HeapSystem ρ}
    (h : ReachedBy duty o) : Reached o := by
  induction h with
  | start memo => exact .start memo
  | step _ hadmits _ ih => exact .step _ _ ih hadmits

theorem run_append (policy : Policy ρ) (before after : List Op) (o : HeapSystem ρ) :
    run policy (before ++ after) o = run policy after (run policy before o) := by
  induction before generalizing o with
  | nil => rfl
  | cons first before ih => exact ih _

theorem run_concat (policy : Policy ρ) (ops : List Op) (op : Op) (o : HeapSystem ρ) :
    run policy (ops ++ [op]) o = ((run policy ops o).step policy op).2 :=
  run_append policy ops [op] o

theorem ReachedBy.concat {duty : Policy ρ → HeapSystem ρ → Op → Prop} {policy : Policy ρ}
    {ops : List Op} {op : Op} {o : HeapSystem ρ} (h : ReachedBy duty (run policy ops o))
    (hadmits : (run policy ops o).Admits op) (hduty : duty policy (run policy ops o) op) :
    ReachedBy duty (run policy (ops ++ [op]) o) := by
  rw [run_concat]
  exact h.step hadmits hduty

end HeapSystem

end SweptHeap
