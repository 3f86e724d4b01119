import Mathlib
import SweptHeap.Proofs.HeapSystem.Cycle

/-!
# A cycle asks once

From the start of a cycle to the end of its sweep, whatever allocators do in between, the policy is
asked once about everything that was there at the start and never about anything newer, and its
answers are obeyed.
-/

namespace SweptHeap

variable {ρ : Type}

namespace HeapSystem

variable {o : HeapSystem ρ}

@[simp] theorem atDesk_returned (o : HeapSystem ρ) (i : Nat) (act : Act (Desk (Diary ρ)) BlockRef) :
    (o.atDesk i act).2.returned = o.returned ∧ (o.atDesk i act).2.extracted = o.extracted := by
  rw [atDesk]
  cases o.allocators[i]? <;> exact ⟨rfl, rfl⟩

theorem welcome_returned (tenant : BlockRef → Tenant)
    (done : Except Fault (Option BlockRef) × HeapSystem ρ) :
    (welcome tenant done).2.returned = done.2.returned ∧
      (welcome tenant done).2.extracted = done.2.extracted := by
  obtain ⟨result, o⟩ := done
  cases result with
  | error fault => exact ⟨rfl, rfl⟩
  | ok b => cases b <;> exact ⟨rfl, rfl⟩

/-- Allocators leave the handoffs that sweeps returned alone. -/
theorem step_returned (policy : Policy ρ) (o : HeapSystem ρ) {op : Op} (hop : op.OfAllocator) :
    (o.step policy op).2.returned = o.returned ∧ (o.step policy op).2.extracted = o.extracted := by
  have hdesk (tenant : BlockRef → Tenant) (i : Nat) (act : Act (Desk (Diary ρ)) BlockRef) :
      (welcome tenant (o.atDesk i act)).2.returned = o.returned ∧
        (welcome tenant (o.atDesk i act)).2.extracted = o.extracted := by
    rw [(welcome_returned _ _).1, (welcome_returned _ _).2]
    exact atDesk_returned o i act
  cases op with
  | enlist => exact ⟨rfl, rfl⟩
  | allocate i bytes => exact hdesk _ _ _
  | createObject i payload => exact hdesk _ _ _
  | createArray i element count => exact hdesk _ _ _
  | createRecord i object withFinalizer =>
    rw [step]
    cases o.heap.arena.memory.recordOf object with
    | none => exact hdesk _ _ _
    | some r => exact atDesk_returned o i _
  | close i =>
    rw [step]
    cases o.allocators[i]? <;> exact ⟨rfl, rfl⟩
  | takeRequest i =>
    rw [step]
    cases o.allocators[i]? <;> exact ⟨rfl, rfl⟩
  | _ => exact hop.elim

theorem run_returned (policy : Policy ρ) (o : HeapSystem ρ) {ops : List Op}
    (hops : ∀ op ∈ ops, op.OfAllocator) :
    (run policy ops o).returned = o.returned ∧ (run policy ops o).extracted = o.extracted := by
  induction ops generalizing o with
  | nil => exact ⟨rfl, rfl⟩
  | cons op ops ih =>
    obtain ⟨hreturned, hextracted⟩ := step_returned policy o (hops op List.mem_cons_self)
    obtain ⟨hreturned', hextracted'⟩ :=
      ih (o.step policy op).2 fun op' hop' => hops op' (List.mem_cons_of_mem _ hop')
    exact ⟨hreturned'.trans hreturned, hextracted'.trans hextracted⟩

/-- A collection cycle obeys its policy, once for each block and record. -/
theorem cycle_asks_once (policy : Policy ρ) (hreached : Reached o) (hswept : o.Admits .prepare)
    {ops : List Op} (hops : ∀ op ∈ ops, op.OfAllocator)
    (hallows : Allows Admits policy ops (o.step policy .prepare).2) (epoch : Int) :
    ∃ notes queue done,
      (run policy ops (o.step policy .prepare).2).step policy (.sweep epoch) = (.ok none, done) ∧
      done.notes = o.notes ++ notes ∧ done.returned = o.returned ++ [queue] ∧
      (asked notes).Perm o.heap.tenants ∧ NeverNew notes ∧
      (∀ k ∈ Heap.allRequests, (done.heap.shelf k).unswept = #[]) ∧
      done.heap.tenants.Perm (spared notes ++ births notes) ∧
      (done.heap.pending.toList ++ queue.toList).Perm
        (o.heap.pending.toList ++ finalizing notes) := by
  have ho := hreached.sound
  obtain ⟨h, hprepared, heq, hsound⟩ := step_prepare policy ho hswept
  rw [heq] at hallows ⊢
  have hcycle : InCycle o [] { o with heap := h } := .start
    (fun t ht => hprepared.waiting ho.heap hsound.heap hswept ht)
    (fun t => by rw [Heap.tally, hprepared.tenants_eq, Heap.tally])
    (congrArg Diary.notes hprepared.same.memo_eq) (congrArg (· ++ _) hprepared.due_eq)
  obtain ⟨hmoves, hsound₁⟩ := run_moves policy False (fun _ _ ha => ⟨ha, False.elim⟩)
    (fun op hop => (hops op hop).ne_prepare) hsound hallows
  obtain ⟨hreturned, hextracted⟩ := run_returned policy { o with heap := h } hops
  generalize run policy ops { o with heap := h } = o₁ at hmoves hsound₁ hreturned hextracted ⊢
  obtain ⟨h', hsweep, htidies, hempty⟩ := Heap.sweep_spec policy.noting hsound₁.heap epoch
  obtain ⟨done, hstep, hmoves', hsound', rfl⟩ := step_receive policy False hsound₁ htidies hsweep
  obtain ⟨notes, hin⟩ := hcycle.moves (hmoves.trans hmoves') hsound.heap
  rw [List.nil_append] at hin
  have hover := Heap.not_waiting_iff.mpr hempty
  refine ⟨notes, h'.arena.found, _, hstep, hin.notes_eq, ?_, ?_, hin.never, hempty, ?_, ?_⟩
  · rw [hreturned]
  · rw [List.perm_iff_count]
    intro t
    rw [ho.heap.count_tenants, (hin.swept t (hover _)).1]
  · rw [List.perm_iff_count]
    intro t
    rw [hsound'.heap.count_tenants, (hin.swept t (hover _)).2, List.count_append]
  · have hdue := hin.due_perm
    rw [List.perm_iff_count] at hdue ⊢
    intro b
    have hcount := hdue b
    simp only [due, Heap.due, hreturned, hextracted, ho.found_eq, Handoff.toList_empty,
      List.flatMap_append, List.flatMap_singleton, List.count_append, List.count_nil] at hcount
    simp only [List.count_append]
    omega

/-- An object is made before the cycle and another one within it. -/
theorem cycle_asks_once_small :
    let before := run (Policy.byMark (ρ := Unit)) [.enlist, .createObject 0 16] (new ())
    (Reached before ∧ before.Admits .prepare ∧ Op.OfAllocator (.createObject 0 8) ∧
      Allows Admits .byMark [.createObject 0 8] (before.step .byMark .prepare).2) ∧
    ∃ notes queue done,
      ((before.step .byMark .prepare).2.step .byMark (.createObject 0 8)).2.step
        .byMark (.sweep 1) = (.ok none, done) ∧
      done.notes = before.notes ++ notes ∧ done.returned = before.returned ++ [queue] ∧
      (asked notes).Perm before.heap.tenants ∧ NeverNew notes ∧
      (∀ k ∈ Heap.allRequests, (done.heap.shelf k).unswept = #[]) ∧
      done.heap.tenants.Perm (spared notes ++ births notes) ∧
      (done.heap.pending.toList ++ queue.toList).Perm
        (before.heap.pending.toList ++ finalizing notes) := by
  intro before
  have henlisted : Reached ((new ()).step (Policy.byMark (ρ := Unit)) .enlist).2 :=
    .step _ .enlist (.start ()) trivial
  have hfirst : Admits ((new ()).step (Policy.byMark (ρ := Unit)) .enlist).2 (.createObject 0 16) :=
    Nat.zero_lt_one
  have hbefore : before = (((new ()).step (Policy.byMark (ρ := Unit)) .enlist).2.step .byMark
      (.createObject 0 16)).2 := rfl
  clear_value before
  have hreached : Reached before := hbefore ▸ .step _ (.createObject 0 16) henlisted hfirst
  have hdesk : 0 < before.allocators.length := by
    rw [hbefore]
    rcases step_createObject (Policy.byMark (ρ := Unit)) henlisted.sound hfirst 16 with
      heq | ⟨b, h, a, -, -, heq⟩ <;> rw [heq]
    · exact Nat.zero_lt_one
    · exact (List.length_set ..).symm ▸ Nat.zero_lt_one
  have hswept : before.Admits .prepare := by
    obtain ⟨hmoves, -⟩ := step_moves (Policy.byMark (ρ := Unit)) False henlisted.sound hfirst
      False.elim (by simp)
    rw [← hbefore] at hmoves
    refine admits_prepare_iff.mpr fun id hw => ?_
    exact not_waiting_new () id (Moves.waiting hmoves henlisted.sound.heap hw)
  have hop : ∀ op ∈ [Op.createObject 0 8], op.OfAllocator := by simp [Op.OfAllocator]
  have hallows : Allows Admits .byMark [.createObject 0 8] (before.step .byMark .prepare).2 := by
    obtain ⟨h, -, heq, -⟩ := step_prepare (Policy.byMark (ρ := Unit)) hreached.sound hswept
    refine ⟨?_, trivial⟩
    rw [heq]
    exact hdesk
  exact ⟨⟨hreached, hswept, trivial, hallows⟩,
    cycle_asks_once (Policy.byMark (ρ := Unit)) hreached hswept hop hallows 1⟩

end HeapSystem

end SweptHeap
