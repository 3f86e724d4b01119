import Mathlib
import SweptHeap.Proofs.MutatorSystem.Invariant

/-!
# The allocation trigger

A mutator that takes the bytes in use across the target asks for a collection before its job is
over. There is one exception. A mutator that is detached adds its last bytes to the meter, but
nobody looks whether they crossed the target. Since the bytes do not come from below the target
again before the next collection, nobody asks for it later either.
-/

namespace SweptHeap

variable {ρ : Type}

theorem Meter.not_crosses_self (m : Meter) : ¬m.Crosses m := fun h => Nat.not_le.mpr h.1 h.2

instance (m m' : Meter) : Decidable (m.Crosses m') := inferInstanceAs (Decidable (_ ∧ _))

/-- A collection is scheduled that has not started. -/
def Progress.IsAwaited (p : Progress) : Prop := p.started < p.scheduled

instance (p : Progress) : Decidable p.IsAwaited := inferInstanceAs (Decidable (_ < _))

theorem Progress.isAwaited_schedule (p : Progress) : p.schedule.2.IsAwaited := by
  unfold IsAwaited
  rw [schedule_started, schedule_scheduled, schedule_fst]
  omega

namespace Mutator

variable {c : Collector ρ} {m : Mutator} {act : Act (Desk ρ) BlockRef}

/-- An allocation that crosses the target asks for a collection. -/
theorem awaited_allocating
    (hworks : Allocator.Works c.heap m.allocator (act.apply ⟨c.heap, m.allocator⟩))
    (hwatches : act.Within Desk.Watches) (hsettled : c.heap.Settled)
    (hcross : c.heap.arena.meter.Crosses
      ((allocating act).apply ⟨c, m⟩).2.collector.heap.arena.meter) :
    ((allocating act).apply ⟨c, m⟩).2.collector.progress.IsAwaited := by
  have halert := (hwatches ⟨c.heap, m.allocator⟩ hsettled).2
  cases hdone : act.apply ⟨c.heap, m.allocator⟩ with | mk result d =>
  obtain ⟨h, a⟩ := d
  rw [hdone] at hworks halert
  cases result with
  | error e =>
    -- A failed request has changed nothing.
    obtain ⟨rfl, rfl⟩ := Desk.mk.inj (hworks.graceful e rfl)
    rw [allocating_error hdone] at hcross
    exact absurd hcross (Meter.not_crosses_self _)
  | ok b =>
    have hmeter : ((allocating act).apply ⟨c, m⟩).2.collector.heap.arena.meter = h.arena.meter := by
      rw [allocating_ok hdone]
      dsimp only
      split_ifs <;> rfl
    rw [hmeter] at hcross
    have hrequested : a.requested = true := halert.noticed hcross
    rw [allocating_ok hdone, hrequested]
    exact Progress.isAwaited_schedule _

end Mutator

namespace MutatorSystem

variable {w : MutatorSystem ρ} {i : Nat}

/-- The bytes in use and the target. -/
def meter (w : MutatorSystem ρ) : Meter := w.collector.heap.arena.meter

theorem Sound.awaited_atSession {act : Act (Desk ρ) BlockRef} (hw : w.Sound)
    (hworks : ∀ m ∈ w.mutators, Allocator.Works w.collector.heap m.allocator
      (act.apply ⟨w.collector.heap, m.allocator⟩))
    (hwatches : act.Within Desk.Watches)
    (hcross : w.meter.Crosses (w.atSession i (Mutator.allocating act)).meter) :
    (w.atSession i (Mutator.allocating act)).collector.progress.IsAwaited := by
  cases hm : w.mutators[i]? with
  | none =>
    rw [atSession_none hm] at hcross
    exact absurd hcross (Meter.not_crosses_self _)
  | some m =>
    rw [atSession_some hm] at hcross ⊢
    exact Mutator.awaited_allocating (hworks m (List.mem_of_getElem? hm)) hwatches hw.settled hcross

/-- The last bytes of a mutator are counted, but nobody is asked for a collection. -/
theorem Sound.progress_detach (hw : w.Sound) (policy : Policy ρ) (i : Nat) :
    (w.step policy (.detach i)).collector.progress = w.collector.progress := by
  cases hm : w.mutators[i]? with
  | none => rw [MutatorSystem.step, atSession_none hm]
  | some m =>
    obtain ⟨c, m', heq, -, -, -, hprogress⟩ :=
      Mutator.detach_spec hw.heap hw.settled (hw.valid m (List.mem_of_getElem? hm))
    rw [MutatorSystem.step, atSession_some hm, heq]
    exact hprogress

/-- Records are not counted. -/
theorem Sound.meter_createRecord (hw : w.Sound) (policy : Policy ρ) (i : Nat) (object : BlockRef)
    (withFinalizer : Bool) :
    (w.step policy (.createRecord i object withFinalizer)).meter = w.meter := by
  cases hm : w.mutators[i]? with
  | none => rw [MutatorSystem.step, atSession_none hm]
  | some m =>
    have hstill := Allocator.still_createRecord policy object withFinalizer
      ⟨w.collector.heap, m.allocator⟩ hw.settled
    rw [MutatorSystem.step, atSession_some hm]
    exact hstill.2.1

/-- When a job takes the bytes in use from below the target to the target or beyond, then a
collection is asked for when the job is over, unless the job detaches a mutator: then one is
asked for only if it was before. -/
theorem crossing_awaited {settings : Settings} (hw : Reached settings w)
    (policy : Policy ρ) {t : Job} (ha : w.Admits t)
    (hcross : w.meter.Crosses (w.step policy t).meter) :
    (w.step policy t).collector.progress.IsAwaited ↔
      (∀ i, t ≠ .detach i) ∨ w.collector.progress.IsAwaited := by
  have hs := hw.sound
  cases t with
  | attach => exact absurd hcross (Meter.not_crosses_self _)
  | allocate i bytes =>
    refine iff_of_true (hs.awaited_atSession (fun m hm => ?_) ?_ hcross) (.inl (by simp))
    · exact Allocator.works_allocate policy hs.heap (hs.valid m hm) bytes
    · exact Allocator.watches_allocate policy bytes
  | createObject i payload =>
    refine iff_of_true (hs.awaited_atSession (fun m hm => ?_) ?_ hcross) (.inl (by simp))
    · exact Allocator.works_createObject policy hs.heap (hs.valid m hm) payload
    · exact Allocator.watches_createObject policy payload
  | createArray i element count =>
    refine iff_of_true (hs.awaited_atSession (fun m hm => ?_) ?_ hcross) (.inl (by simp))
    · exact Allocator.works_createArray policy hs.heap (hs.valid m hm) element count
    · exact Allocator.watches_createArray policy element count
  | createRecord i object withFinalizer =>
    rw [hs.meter_createRecord] at hcross
    exact absurd hcross (Meter.not_crosses_self _)
  | detach i =>
    rw [hs.progress_detach]
    simp
  | switch i mode =>
    refine absurd ?_ (Meter.not_crosses_self w.meter)
    cases hm : w.mutators[i]? with
    | none => rwa [step, atSession_none hm] at hcross
    | some m =>
      rw [step, atSession_some hm] at hcross
      exact hcross
  | schedule => exact absurd hcross (Meter.not_crosses_self _)

/-- A collector that is to collect when sixteen bytes are in use. -/
def sixteen : Collector Unit :=
  { settings := { triggerBytes := 16 }
    heap := { Heap.new () with arena := { memo := (), meter := { target := 16 } } } }

/-- A second object that needs another page makes the first one count. -/
theorem crossing_awaited_object :
    ∃ w : MutatorSystem Unit, Reached { triggerBytes := 16 } w ∧
      w.meter.Crosses (w.step .byMark (.createObject 0 8)).meter ∧
      (w.step .byMark (.createObject 0 8)).collector.progress.IsAwaited := by
  have hreached : Reached { triggerBytes := 16 }
      (step .byMark (.createObject 0 0) (step .byMark .attach ⟨sixteen, []⟩)) :=
    .step _ (.step _ (.start rfl) trivial) trivial
  refine ⟨_, hreached, by decide +kernel, ?_⟩
  exact (crossing_awaited (t := .createObject 0 8) hreached .byMark trivial (by decide +kernel)).mpr
    (.inl (by simp))

/-- A mutator that leaves after its first object takes the bytes in use across the target, and
nobody is asked for a collection. -/
theorem detach_crosses_unnoticed :
    ∃ w : MutatorSystem Unit, Reached { triggerBytes := 16 } w ∧
      w.meter.Crosses (w.step .byMark (.detach 0)).meter ∧
      ¬(w.step .byMark (.detach 0)).collector.progress.IsAwaited := by
  refine ⟨step .byMark (.createObject 0 0) (step .byMark .attach ⟨sixteen, []⟩), ?_, ?_, ?_⟩
  · exact .step _ (.step _ (.start rfl) trivial) trivial
  · decide +kernel
  · decide +kernel

end MutatorSystem

end SweptHeap
