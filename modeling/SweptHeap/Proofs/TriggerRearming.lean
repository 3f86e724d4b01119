import Mathlib
import SweptHeap.Proofs.Double.Rounding
import SweptHeap.Proofs.AllocationTrigger

/-!
# The trigger after a collection

A collection sets the target from the bytes that it leaves in use. The target is never below these
bytes. It may equal them, if they have reached the first trigger and the growth factor adds less
than one byte to them: then the meter has nothing left to cross, and until the next collection no
addition asks for one.
-/

namespace SweptHeap

variable {ρ : Type}

/-! ### Additions -/

namespace Meter

/-- What the meter says to each of several additions. -/
def reports : Meter → List Nat → List Bool
  | _, [] => []
  | m, n :: ns => (m.add n).1 :: reports (m.add n).2 ns

theorem add_allocated {m : Meter} {n : Nat} (h : m.allocated + n < wordLimit) :
    (m.add n).2 = { m with allocated := m.allocated + n } := by
  rw [add, Nat.mod_eq_of_lt h]

/-- An addition is reported exactly when it crosses the target. -/
theorem add_fst_iff {m : Meter} {n : Nat} (h : m.allocated + n < wordLimit) :
    (m.add n).1 = true ↔ m.allocated < m.target ∧ m.target ≤ m.allocated + n := by
  simp only [add, Bool.and_eq_true, decide_eq_true_eq]
  omega

/-- Additions that together reach the target are reported if they come from below it, and only
then. -/
theorem mem_reports_iff {m : Meter} {ns : List Nat} (hlt : m.allocated + ns.sum < wordLimit)
    (hreach : m.target ≤ m.allocated + ns.sum) : true ∈ m.reports ns ↔ m.allocated < m.target := by
  induction ns generalizing m with
  | nil =>
    rw [List.sum_nil] at hreach
    simp only [reports, List.not_mem_nil, false_iff]
    omega
  | cons n ns ih =>
    rw [List.sum_cons] at hlt hreach
    have hn : m.allocated + n < wordLimit := by omega
    have hrest := ih (m := (m.add n).2) (by rw [add_allocated hn]; dsimp only; omega)
      (by rw [add_allocated hn]; dsimp only; omega)
    rw [reports, List.mem_cons, hrest, eq_comm, add_fst_iff hn, add_allocated hn]
    dsimp only
    omega

end Meter

/-! ### Targets -/

namespace Settings

variable {s : Settings} {n : Nat}

theorem growth_of_validate (h : s.validate = .ok ()) :
    s.targetGrowth.isFinite = true ∧ s.targetGrowth.isNegative = false ∧
      1 ≤ s.targetGrowth.value := by
  unfold validate at h
  split_ifs at h with htrigger hgrowth
  simp only [Bool.or_eq_true, Bool.not_eq_true', not_or, Bool.not_eq_false,
    Bool.not_eq_true] at hgrowth
  exact ⟨hgrowth.1, Double.one_le_value hgrowth.1 hgrowth.2⟩

/-- The next target reaches what the bytes in use grow to. -/
theorem le_nextTrigger_of_le_mul (h : s.validate = .ok ()) (hn : n < 2 ^ 53)
    {k : Nat} (hk : k ≤ 2 ^ 53) (hle : (k : ℚ) ≤ n * s.targetGrowth.value) :
    k ≤ s.nextTrigger n := by
  obtain ⟨hfin, hpos, -⟩ := growth_of_validate h
  obtain ⟨hfin', hpos', hvalue⟩ := Double.ofNat_spec hn
  exact (Double.le_toWord_mul hfin' hfin hpos' hpos hk (by rwa [hvalue])).trans
    (Nat.le_max_left _ _)

theorem le_nextTrigger (h : s.validate = .ok ()) (hn : n < 2 ^ 53) : n ≤ s.nextTrigger n := by
  refine le_nextTrigger_of_le_mul h hn hn.le ?_
  exact le_mul_of_one_le_right (Nat.cast_nonneg n) (growth_of_validate h).2.2

/-- The next target is above the bytes in use if the first trigger is, or if they grow by a byte. -/
theorem lt_nextTrigger (h : s.validate = .ok ()) (hn : n < 2 ^ 53)
    (hroom : n < s.triggerBytes ∨ (n : ℚ) + 1 ≤ n * s.targetGrowth.value) :
    n < s.nextTrigger n := by
  rcases hroom with htrigger | hgrows
  · exact htrigger.trans_le (Nat.le_max_right _ _)
  · exact le_nextTrigger_of_le_mul h hn hn (by exact_mod_cast hgrows)

end Settings

namespace Collector

variable {client : Client ρ} {epoch : Int} {stats : CycleStats} {c c' : Collector ρ}

open Act

theorem target_of_cycle (h : (cycle client epoch).apply c = (.ok stats, c')) :
    c'.heap.arena.meter.target = c'.settings.nextTrigger c'.heap.allocatedBytes := by
  obtain ⟨-, c₁, -, h⟩ := of_bind_ok h
  obtain ⟨queue, c₂, -, h⟩ := of_bind_ok h
  obtain ⟨-, c₃, -, h⟩ := of_bind_ok h
  obtain ⟨_, c₄, -, h⟩ := of_bind_ok h
  obtain ⟨released, c₅, -, h⟩ := of_bind_ok h
  obtain ⟨bytes, c₆, hrearm, h⟩ := of_bind_ok h
  obtain ⟨-, rfl⟩ := Prod.mk.inj hrearm
  obtain ⟨-, rfl⟩ := Prod.mk.inj h
  rfl

/-- After a collection the target is not below the bytes in use. It is above them if the first
trigger is, or if the growth factor adds at least a byte to them. Later additions that take the
bytes to the target are reported exactly if the target is above the bytes in use. -/
theorem trigger_rearmed (hcycle : (cycle client epoch).apply c = (.ok stats, c'))
    (hvalid : c'.settings.validate = .ok ()) (hsmall : c'.heap.allocatedBytes < 2 ^ 53) :
    c'.heap.allocatedBytes ≤ c'.heap.arena.meter.target ∧
      (c'.heap.allocatedBytes < c'.settings.triggerBytes ∨
          (c'.heap.allocatedBytes : ℚ) + 1 ≤
            c'.heap.allocatedBytes * c'.settings.targetGrowth.value →
        c'.heap.allocatedBytes < c'.heap.arena.meter.target) ∧
      ∀ ns : List Nat, c'.heap.allocatedBytes + ns.sum < wordLimit →
        c'.heap.arena.meter.target ≤ c'.heap.allocatedBytes + ns.sum →
          (true ∈ c'.heap.arena.meter.reports ns ↔
            c'.heap.allocatedBytes < c'.heap.arena.meter.target) := by
  have htarget := target_of_cycle hcycle
  refine ⟨?_, fun hroom => ?_, fun ns hlt hreach => Meter.mem_reports_iff hlt hreach⟩
  · rw [htarget]
    exact Settings.le_nextTrigger hvalid hsmall
  · rw [htarget]
    exact Settings.lt_nextTrigger hvalid hsmall hroom

end Collector

namespace MutatorSystem

/-- A client that marks the first object. -/
def markFirst : Client Unit where
  policy := .byMark
  mark _ a := a.modifyMemory fun m => (m.mark ⟨0, 0⟩).2
  finalizer _ memo := memo

/-- A mutator has created an object of a kibibyte and does not touch the heap now. -/
def rested (c : Collector Unit) : MutatorSystem Unit :=
  step .byMark (.switch 0 .native)
    (step .byMark (.createObject 0 1008) (step .byMark .attach ⟨c, []⟩))

/-- A collector that need not grow. -/
def level : Collector Unit :=
  { sixteen with settings := { triggerBytes := 16, targetGrowth := .one } }

/-- A collection that keeps the object. -/
def collected (c : Collector Unit) : Except Fault CycleStats × Collector Unit :=
  (Collector.cycle markFirst 1).apply (rested c).collector

/-- The collection went well, its settings are valid, and this is what the meter says. -/
def collectedMeter (c : Collector Unit) : Option Meter :=
  match collected c with
  | (.ok _, c') => match c'.settings.validate with
    | .ok () => some c'.heap.arena.meter
    | .error _ => none
  | (.error _, _) => none

theorem reached_rested {settings : Settings} {c : Collector Unit}
    (h : Collector.new settings () = .ok c) : Reached settings (rested c) :=
  .step _ (.step _ (.step _ (.start h) trivial) trivial) trivial

theorem of_collectedMeter {c : Collector Unit} {m : Meter} (h : collectedMeter c = some m) :
    ∃ stats c', collected c = (.ok stats, c') ∧ c'.settings.validate = .ok () ∧
      c'.heap.arena.meter = m := by
  unfold collectedMeter at h
  split at h
  · rename_i stats c' heq
    split at h
    · rename_i hvalid
      exact ⟨stats, c', heq, hvalid, Option.some.inj h⟩
    · cases h
  · cases h

/-- With a growth factor of two, a kibibyte may come before the next collection is asked for. -/
theorem trigger_rearmed_kibibyte :
    ∃ (w : MutatorSystem Unit) (stats : CycleStats) (c' : Collector Unit),
      Reached { triggerBytes := 16 } w ∧
      (Collector.cycle markFirst 1).apply w.collector = (.ok stats, c') ∧
      c'.settings.validate = .ok () ∧ c'.heap.allocatedBytes = 1024 ∧
      c'.heap.arena.meter.target = 2048 ∧ true ∈ c'.heap.arena.meter.reports [1000, 100] := by
  obtain ⟨stats, c', hcycle, hvalid, hmeter⟩ :=
    of_collectedMeter (c := sixteen) (m := ⟨1024, 2048⟩) (by decide +kernel)
  have hbytes : c'.heap.allocatedBytes = 1024 := by rw [Heap.allocatedBytes, hmeter]
  have htarget : c'.heap.arena.meter.target = 2048 := by rw [hmeter]
  refine ⟨_, stats, c', reached_rested rfl, hcycle, hvalid, hbytes, htarget, ?_⟩
  have hreports := (Collector.trigger_rearmed hcycle hvalid (by rw [hbytes]; norm_num)).2.2
  rw [hbytes, htarget] at hreports
  exact (hreports [1000, 100] (by decide) (by decide)).mpr (by norm_num)

/-- With a growth factor of one, the target is what is in use, and no addition is reported. -/
theorem level_trigger_spent :
    ∃ (settings : Settings) (w : MutatorSystem Unit) (stats : CycleStats) (c' : Collector Unit),
      settings.validate = .ok () ∧ Reached settings w ∧
      (Collector.cycle markFirst 1).apply w.collector = (.ok stats, c') ∧
      c'.heap.allocatedBytes < 2 ^ 53 ∧ ¬c'.heap.allocatedBytes < c'.heap.arena.meter.target ∧
      ∀ ns : List Nat, c'.heap.allocatedBytes + ns.sum < wordLimit →
        true ∉ c'.heap.arena.meter.reports ns := by
  obtain ⟨stats, c', hcycle, hvalid, hmeter⟩ :=
    of_collectedMeter (c := level) (m := ⟨1024, 1024⟩) (by decide +kernel)
  have hbytes : c'.heap.allocatedBytes = 1024 := by rw [Heap.allocatedBytes, hmeter]
  refine ⟨level.settings, rested level, stats, c', rfl, reached_rested rfl, hcycle,
    by rw [hbytes]; norm_num,
    by rw [hbytes, hmeter]; exact lt_irrefl _, fun ns hlt => ?_⟩
  rw [hbytes] at hlt
  have hreach : c'.heap.arena.meter.target ≤ c'.heap.arena.meter.allocated + ns.sum := by
    rw [hmeter]
    exact Nat.le_add_right _ _
  rw [Meter.mem_reports_iff (by rwa [hmeter]) hreach, hmeter]
  exact lt_irrefl _

end MutatorSystem

end SweptHeap
