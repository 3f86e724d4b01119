import Mathlib
import SweptHeap.Collector.Mutator
import SweptHeap.Proofs.Heap.Tenants

/-!
# Mutators at work

The state is a collector with the mutators that are attached to it. Between two collections the
mutators do jobs, one after the other.
-/

namespace SweptHeap

variable {ρ : Type}

/-- What a mutator or someone else does between two collections. Mutators go by their position. -/
inductive Job where
  | attach
  | allocate (i bytes : Nat)
  | createObject (i payload : Nat)
  | createArray (i element count : Nat)
  | createRecord (i : Nat) (object : BlockRef) (withFinalizer : Bool)
  | detach (i : Nat)
  /-- A mutator becomes native or runnable. -/
  | switch (i : Nat) (mode : ThreadMode)
  /-- Someone asks for a collection. -/
  | schedule
  deriving DecidableEq

structure MutatorSystem (ρ : Type) where
  collector : Collector ρ
  mutators : List Mutator := []

namespace MutatorSystem

/-- Lets a mutator work, if there is such a one. -/
def atSession {α : Type} (i : Nat) (act : Act (Session ρ) α) (w : MutatorSystem ρ) :
    MutatorSystem ρ :=
  match w.mutators[i]? with
  | none => w
  | some m =>
    match (act.apply ⟨w.collector, m⟩).2 with
    | ⟨collector, m⟩ => ⟨collector, w.mutators.set i m⟩

/-- Does a job. What a failed job has done stays done. -/
def step (policy : Policy ρ) (t : Job) (w : MutatorSystem ρ) : MutatorSystem ρ :=
  match t with
  | .attach =>
    match Mutator.attach.apply w.collector with
    | (.ok m, collector) => ⟨collector, w.mutators ++ [m]⟩
    | (.error _, collector) => { w with collector := collector }
  | .allocate i bytes => w.atSession i (Mutator.allocate policy bytes)
  | .createObject i payload => w.atSession i (Mutator.createObject policy payload)
  | .createArray i element count => w.atSession i (Mutator.createArray policy element count)
  | .createRecord i object withFinalizer =>
    w.atSession i (Mutator.createRecord policy object withFinalizer)
  | .detach i =>
    let w := w.atSession i Mutator.detach
    { w with mutators := w.mutators.eraseIdx i }
  | .switch i mode => w.atSession i (Mutator.setMode mode)
  | .schedule => { w with collector := (Collector.schedule.apply w.collector).2 }

/-- Records are attached to allocated objects only. -/
def Admits (w : MutatorSystem ρ) : Job → Prop
  | .createRecord _ object _ =>
    w.collector.heap.Holds (.block object) ∧ 2 ≤ (w.collector.heap.content object).length
  | _ => True

end MutatorSystem

/-- A client whose marks leave a sound heap sound. -/
def Client.Careful (client : Client ρ) : Prop :=
  ∀ epoch (h : Heap ρ), h.Sound → Heap.Sound { h with arena := client.mark epoch h.arena }

/-- The states of collectors with the given settings, between collections. -/
inductive MutatorSystem.Reached (settings : Settings) : MutatorSystem ρ → Prop
  | start {memo : ρ} {c : Collector ρ} (made : Collector.new settings memo = .ok c) :
      Reached settings ⟨c, []⟩
  | step {w : MutatorSystem ρ} (policy : Policy ρ) {t : Job} (reached : Reached settings w)
      (admits : w.Admits t) : Reached settings (w.step policy t)
  /-- A whole collection. -/
  | collect {w : MutatorSystem ρ} {client : Client ρ} {epoch : Int} {stats : CycleStats}
      {c : Collector ρ} (reached : Reached settings w) (careful : client.Careful)
      (collected : (Collector.collect client epoch).apply w.collector = (.ok stats, c)) :
      Reached settings { w with collector := c }

end SweptHeap
