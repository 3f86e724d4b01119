import Mathlib
import SweptHeap.Proofs.RuntimeSystem.Overtaken
import SweptHeap.Proofs.MarkSweep
import SweptHeap.Proofs.HeapSystem.FirstRecord

/-!
# Finalizers that are late

A mutator that sweeps a page on its own account stops counting as a sweeper before it hands over
what it has set aside. In between the collector may end its cycle, schedule its epoch and see it
served. So an epoch that counts as finalized stands for all that the policy has sent to finalizers
up to then, but for what mutators still had in their queues when the epoch was scheduled.
-/

namespace SweptHeap.RuntimeSystem

variable {ρ : Type} {e : RuntimeSystem ρ}

theorem answered_subperm (e : RuntimeSystem ρ) {s epoch : Int} (hlt : s < epoch) :
    (e.answeredUpTo s ++ e.answeredIn epoch).Subperm (e.answeredUpTo epoch) := by
  have hearlier : (e.answered.filter (·.1 ≤ epoch)).filter (·.1 ≤ s) =
      e.answered.filter (·.1 ≤ s) := by
    rw [List.filter_filter]
    exact List.filter_congr fun a _ => by grind
  have hlater : (e.answered.filter (·.1 = epoch)).Sublist
      ((e.answered.filter (·.1 ≤ epoch)).filter fun a => !decide (a.1 ≤ s)) := by
    rw [List.filter_filter]
    exact List.monotone_filter_right _ fun a ha => by grind
  have hperm := List.filter_append_perm (·.1 ≤ s) (e.answered.filter (·.1 ≤ epoch))
  rw [hearlier] at hperm
  rw [answeredUpTo, answeredIn, ← List.map_append]
  exact ((List.Sublist.append_left hlater _).map _).subperm.trans (hperm.map _).subperm

/-- If only answers of the last cycle are missing, then all of the earlier ones are there. -/
theorem subperm_of_lt {due : List BlockRef} {s epoch : Int} (hlt : s < epoch)
    (hperm : (e.answeredUpTo epoch).Perm (due ++ e.lateFor epoch))
    (hlate : (e.lateFor epoch).Subperm (e.answeredIn epoch)) : (e.answeredUpTo s).Subperm due := by
  refine List.subperm_ext_iff.mpr fun b _ => ?_
  have hcount := (e.answered_subperm hlt).count_le b
  rw [List.count_append, hperm.count_eq, List.count_append] at hcount
  have hle := hlate.count_le b
  omega

/-- Whatever the order in which the collector, its assistants, mutators and the worker make their
moves: once an epoch counts as finalized, all that the policy sent to finalizers in earlier cycles
has had its treatment, and so has all of this cycle but for what mutators had found and not yet
handed over when the epoch was scheduled. Nothing is lost: whatever the policy sent to finalizers
has become due or is in a queue. -/
theorem finalized_but_late (policy : Policy ρ) (finalizer : Finalizer (Diary ρ))
    {h : Heap (Diary ρ)} (hpending : h.pending.toList = []) (hsettled : h.Settled)
    (hsweepers : h.arena.sweepers = 0) (helpers : Nat) {moves : List (Move ρ)}
    (hm : Allows policy finalizer moves (new h helpers)) :
    let e := (new h helpers).run policy finalizer moves
    let epoch := e.worker.progress.finalized
    (∃ due, due.flatMap Treatment.course <+: e.worker.treated ∧
      (∀ s < epoch, (e.answeredUpTo s).Subperm due) ∧
      (e.answeredUpTo epoch).Perm (due ++ e.lateFor epoch)) ∧
      (e.lateFor epoch).Subperm (e.answeredIn epoch) ∧
      (e.answered.map Prod.snd).Perm (e.worker.added ++ e.queues) := by
  intro e epoch
  have he : e.Sound := (sound_new hpending hsettled hsweepers helpers).run hm
  have hlast : epoch ∈ 0 :: e.worker.reported := by
    rw [show epoch = e.worker.reported.getLastD 0 from he.served.finalized_eq]
    exact List.getLastD_mem_cons
  obtain ⟨due, htreated, hperm, hlate⟩ : ∃ due, due.flatMap Treatment.course <+: e.worker.treated ∧
      (e.answeredUpTo epoch).Perm (due ++ e.lateFor epoch) ∧
      (e.lateFor epoch).Subperm (e.answeredIn epoch) := by
    rcases List.mem_cons.mp hlast with hzero | hreported
    · -- No epoch counts as finalized yet.
      have hnone : e.answeredUpTo epoch = [] := by
        refine List.map_eq_nil_iff.mpr (List.filter_eq_nil_iff.mpr fun a ha => ?_)
        simpa [hzero] using (he.calendar.answered a ha).1
      have hlate : e.lateFor epoch = [] := by
        refine List.map_eq_nil_iff.mpr (List.filter_eq_nil_iff.mpr fun a ha => ?_)
        simpa [hzero] using (he.calendar.scheduled _ (he.calendar.late a ha)).1.ne'
      rw [hnone, hlate]
      exact ⟨[], List.nil_prefix, .refl _, List.nil_subperm⟩
    · obtain ⟨due, hpromised, hrest⟩ :=
        he.served.promised epoch (he.served.sound.scheduled _ (List.mem_append_left _ hreported))
      exact ⟨due, hpromised.finalized.resolve_left (lt_irrefl _), hrest⟩
  exact ⟨⟨due, htreated, fun s hlt => subperm_of_lt hlt hperm hlate, hperm⟩,
    hlate, he.ledger.balance⟩

/-! ### An object that is late -/

/-- A heap with one object. -/
def lone : HeapSystem Unit :=
  HeapSystem.run .byMark [.enlist, .createObject 0 16] (HeapSystem.new ())

theorem lone_reached : HeapSystem.ReachedBy HeapSystem.Mannerly lone ∧ lone.heap.Settled := by
  have hstart : HeapSystem.ReachedBy HeapSystem.Mannerly
      (HeapSystem.run .byMark [] (HeapSystem.new ())) := .start ()
  have henlisted := hstart.concat (show HeapSystem.Admits _ .enlist from trivial) ⟨rfl, trivial⟩
  have hfirst : HeapSystem.Admits (HeapSystem.run .byMark [.enlist] (HeapSystem.new ()))
      (.createObject 0 16) :=
    Nat.zero_lt_one
  have hidle :=
    HeapSystem.not_waiting_concat henlisted.reached hfirst (by simp) (HeapSystem.not_waiting_new ())
  exact ⟨henlisted.concat hfirst ⟨rfl, trivial⟩, Heap.not_waiting_iff.mp hidle⟩

theorem lone_admits : lone.Admits (.createRecord 0 ⟨0, 0⟩ true) := by
  have hobject : 0 < lone.allocators.length ∧ .block ⟨0, 0⟩ ∈ lone.heap.tenantsOn 0 ∧
      2 ≤ (lone.heap.content ⟨0, 0⟩).length := by decide +kernel
  exact hobject

theorem lone_eq : lone.heap.due = [] ∧ lone.heap.arena.sweepers = 0 ∧
    lone.heap.arena.memory.isMarked ⟨0, 0⟩ = false ∧ lone.heap.arena.memory.recordOf ⟨0, 0⟩ = none ∧
    (lone.heap.shelf ⟨.uniform, 4⟩).ready ++ (lone.heap.shelf ⟨.uniform, 4⟩).used ++
      (lone.heap.shelf ⟨.uniform, 4⟩).empty = #[].push 0 := by
  decide +kernel

/-- The object gets a finalizer, and nothing else is going on. -/
theorem exists_finalizable : ∃ o : HeapSystem Unit,
    o = HeapSystem.run .byMark [.enlist, .createObject 0 16, .createRecord 0 ⟨0, 0⟩ true]
      (HeapSystem.new ()) ∧
    HeapSystem.ReachedBy HeapSystem.Mannerly o ∧
    (o.heap.pending.toList = [] ∧ o.heap.Settled ∧ o.heap.arena.sweepers = 0) ∧
    o.heap.shelf ⟨.uniform, 4⟩ = lone.heap.shelf ⟨.uniform, 4⟩ ∧
    ∃ x, o.heap.Depicts ⟨0, 0⟩ x ∧ (x.question ⟨0, 0⟩).verdictByMark.fate = .finalize := by
  obtain ⟨hreached, hsettled⟩ := lone_reached
  obtain ⟨hdue, hsweepers, hmarked, hrecord, -⟩ := lone_eq
  obtain ⟨x, hx⟩ := hreached.civil ⟨0, 0⟩ lone_admits.2.1
  have hbare : x.record = none := Option.map_eq_none_iff.mp (hx.recordOf_eq.symm.trans hrecord)
  obtain ⟨r, o, heq, -, hsame, hx', -⟩ :=
    HeapSystem.step_enroll hreached.reached.sound hsettled lone_admits hx hbare
  obtain ⟨hsettled', hsweepers', hshelf⟩ :=
    HeapSystem.aside_createRecord .byMark lone 0 ⟨0, 0⟩ true hsettled
  have hrun :=
    HeapSystem.run_concat .byMark [.enlist, .createObject 0 16] (.createRecord 0 ⟨0, 0⟩ true)
    (HeapSystem.new ())
  have hstep : HeapSystem.ReachedBy HeapSystem.Mannerly
      (lone.step .byMark (.createRecord 0 ⟨0, 0⟩ true)).2 :=
    hreached.step lone_admits ⟨rfl, trivial⟩
  change _ = (lone.step _ _).2 at hrun
  rw [heq] at hrun hstep hsettled' hsweepers' hshelf
  refine ⟨o, hrun.symm, hstep, ⟨?_, hsettled', hsweepers'.trans hsweepers⟩,
    hshelf _ nofun, _, hx', ?_⟩
  · rw [hdue, Heap.due, List.append_eq_nil_iff] at hsame
    exact hsame.1
  · have hunmarked : x.marked = false := hx.isMarked_eq.symm.trans hmarked
    simp only [Object.question, Object.flags, hunmarked, Option.map_some]
    decide

/-- A mutator sweeps the page of the object, and is overtaken. -/
theorem exists_overtaken (finalizer : Finalizer (Diary Unit)) :
    ∃ (o : HeapSystem Unit) (moves : List (Move Unit)),
    o = HeapSystem.run .byMark [.enlist, .createObject 0 16, .createRecord 0 ⟨0, 0⟩ true]
      (HeapSystem.new ()) ∧
    (o.heap.pending.toList = [] ∧ o.heap.Settled ∧ o.heap.arena.sweepers = 0) ∧
    Allows .byMark finalizer moves (new o.heap 0) ∧
    let e := (new o.heap 0).run .byMark finalizer moves
    e.worker.progress.finalized = 1 ∧ ⟨0, 0⟩ ∈ e.answeredIn 1 ∧
      ∀ t ∈ Treatment.course ⟨0, 0⟩, t ∉ e.worker.treated := by
  obtain ⟨o, ho, hreached, hidle, hshelf, x, hx, hfate⟩ := exists_finalizable
  have hr : (⟨.uniform, 4⟩ : Request) ∈ Heap.allRequests :=
    Heap.mem_allRequests.mpr (.inl ⟨rfl, by decide⟩)
  have hlast := lone_eq.2.2.2.2
  rw [← hshelf] at hlast
  obtain ⟨e, ⟨moves, hallows, rfl⟩, hlate⟩ := leads_overtaken finalizer hreached.reached.sound.heap
    hreached.civil hidle.1 hidle.2.1 hidle.2.2 hx hfate hr ⟨by decide, by decide⟩ nofun hlast
  exact ⟨o, moves, ho, hidle, hallows, hlate⟩

/-- The epoch counts as finalized, and the object is late for it. -/
theorem finalized_but_late_lone : ∃ (o : HeapSystem Unit) (moves : List (Move Unit)),
    o = HeapSystem.run .byMark [.enlist, .createObject 0 16, .createRecord 0 ⟨0, 0⟩ true]
      (HeapSystem.new ()) ∧
    (o.heap.pending.toList = [] ∧ o.heap.Settled ∧ o.heap.arena.sweepers = 0) ∧
    Allows .byMark (fun _ d => d) moves (new o.heap 0) ∧
    let e := (new o.heap 0).run .byMark (fun _ d => d) moves
    e.worker.progress.finalized = 1 ∧ ⟨0, 0⟩ ∈ e.lateFor 1 ∧
      (∃ due, due.flatMap Treatment.course <+: e.worker.treated ∧
        (e.answeredUpTo 1).Perm (due ++ e.lateFor 1)) ∧
      (e.lateFor 1).Subperm (e.answeredIn 1) := by
  obtain ⟨o, moves, ho, hidle, hallows, hfinalized, hanswered, huntreated⟩ :=
    exists_overtaken fun _ d => d
  obtain ⟨⟨due, htreated, -, hperm⟩, hlate, -⟩ :=
    finalized_but_late .byMark (fun _ d => d) hidle.1 hidle.2.1 hidle.2.2 0 hallows
  rw [hfinalized] at hperm hlate
  refine ⟨o, moves, ho, hidle, hallows, hfinalized, ?_, ⟨due, htreated, hperm⟩, hlate⟩
  have hmem := (answered_subperm _ Int.zero_lt_one).subset (List.mem_append_right _ hanswered)
  refine (List.mem_append.mp (hperm.subset hmem)).resolve_left fun hdue => ?_
  have hcalled : .called ⟨0, 0⟩ ∈ due.flatMap Treatment.course :=
    List.mem_flatMap.mpr ⟨_, hdue, List.mem_cons_self⟩
  exact huntreated _ List.mem_cons_self (htreated.subset hcalled)

/-- An epoch counts as finalized, and an object that was sent to its finalizer in that cycle has not
had its treatment. -/
theorem finalized_untreated : ∃ (o : HeapSystem Unit) (moves : List (Move Unit)),
    o = HeapSystem.run .byMark [.enlist, .createObject 0 16, .createRecord 0 ⟨0, 0⟩ true]
      (HeapSystem.new ()) ∧
    Allows .byMark (fun _ d => d) moves (new o.heap 0) ∧
    let e := (new o.heap 0).run .byMark (fun _ d => d) moves
    1 ≤ e.worker.progress.finalized ∧ ⟨0, 0⟩ ∈ e.answeredIn 1 ∧
      .called ⟨0, 0⟩ ∉ e.worker.treated ∧ .told ⟨0, 0⟩ ∉ e.worker.treated := by
  obtain ⟨o, moves, ho, -, hallows, hfinalized, hanswered, huntreated⟩ :=
    exists_overtaken fun _ d => d
  exact ⟨o, moves, ho, hallows, hfinalized.ge, hanswered, huntreated _ (by simp [Treatment.course]),
    huntreated _ (by simp [Treatment.course])⟩

end SweptHeap.RuntimeSystem
