import Mathlib
import SweptHeap.Proofs.HeapSystem.OldObjects

/-!
# Mark and sweep

A cycle by marks keeps the marked objects and those whose finalizers have not run, with their
payloads and records, and reclaims the other ones. What allocators make in the meantime stays.
-/

namespace SweptHeap.HeapSystem

variable {ρ : Type} {policy : Policy ρ} {o marked done : HeapSystem ρ} {b : BlockRef} {x : Object}

/-! ### Marking -/

theorem step_mark (policy : Policy ρ) (o : HeapSystem ρ) (b : BlockRef) :
    (o.step policy (.mark b)).2 = if (o.heap.arena.memory.cell b).isZero
      then { o with heap := o.heap.write ⟨b.page, b.index + 0⟩ .mark } else o := by
  change
    { o with heap := { o.heap with arena := o.heap.arena.modifyMemory fun m => (m.mark b).2 } } = _
  rw [Arena.modifyMemory, Memory.mark]
  split_ifs <;> rfl

/-- Marking an object changes nothing but its mark. -/
theorem depicts_step_mark (policy : Policy ρ) {b₀ : BlockRef} (ho : o.Sound)
    (hheld : o.heap.Holds (.block b₀)) :
    Heap.Steady o.heap (o.step policy (.mark b₀)).2.heap ∧ ∀ b x, o.heap.Depicts b x →
      (o.step policy (.mark b₀)).2.heap.Depicts b (x.mark (decide (b = b₀))) := by
  have hinside : 0 < (o.heap.content b₀).length := by
    obtain ⟨p, hp, hkind, hindex⟩ := Heap.holds_block.mp hheld
    rw [Heap.length_content hp]
    exact (ho.heap.page_sound hp).blockCells_pos hkind hindex
  have hwrites := Heap.write_spec ho.heap hheld hinside .mark
  rw [step_mark]
  split_ifs with hzero
  · refine ⟨hwrites.toSteady, fun b x hx => ?_⟩
    by_cases hb : b = b₀
    · subst hb
      simpa using hwrites.depicts_mark hx
    · simpa [hb] using hwrites.depicts_other hb hx
  · refine ⟨.refl _, fun b x hx => ?_⟩
    by_cases hb : b = b₀
    · subst hb
      have hmarked : x.marked = true := by
        by_contra hnot
        rw [hx.cell_eq, if_neg hnot] at hzero
        exact hzero rfl
      have hsame : x.mark true = x := by rw [Object.mark, Bool.or_true, ← hmarked]
      simpa [hsame] using hx
    · simpa [hb] using hx

theorem run_marks (policy : Policy ρ) {objects : List BlockRef} (ho : o.Sound)
    (hheld : ∀ b ∈ objects, o.heap.Holds (.block b)) :
    Moves policy True o (run policy (objects.map .mark) o) ∧
      (run policy (objects.map .mark) o).Sound ∧
      Heap.Steady o.heap (run policy (objects.map .mark) o).heap ∧
      ∀ b x, o.heap.Depicts b x →
        (run policy (objects.map .mark) o).heap.Depicts b (x.mark (decide (b ∈ objects))) := by
  induction objects generalizing o with
  | nil =>
    refine ⟨.refl, ho, .refl _, fun b x hx => ?_⟩
    rw [decide_eq_false List.not_mem_nil, Object.mark_false]
    exact hx
  | cons b₀ objects ih =>
    have hb₀ : o.Admits (.mark b₀) := hheld b₀ List.mem_cons_self
    obtain ⟨hmoves, hsound, -⟩ := step_moves policy True ho hb₀ id (by simp)
    obtain ⟨hsteady, hdepicts⟩ := depicts_step_mark policy ho hb₀
    obtain ⟨hmoves', hsound', hsteady', hdepicts'⟩ := ih hsound fun b hb =>
      (hsteady.holds_iff _).mpr (hheld b (List.mem_cons_of_mem _ hb))
    refine ⟨hmoves.trans hmoves', hsound', hsteady.trans hsteady', fun b x hx => ?_⟩
    have hx' := hdepicts' b _ (hdepicts b x hx)
    rw [Object.mark_mark, ← Bool.decide_or] at hx'
    simp only [List.mem_cons]
    exact hx'

/-! ### Cycles by marks -/

/-- Sweeps go by marks, and the heap is civil. -/
def Mannerly (policy : Policy ρ) (o : HeapSystem ρ) (op : Op) : Prop :=
  policy = .byMark ∧ o.Civil op

theorem ReachedBy.civil (hr : ReachedBy Mannerly o) : o.heap.Civil := by
  induction hr with
  | start memo => exact fun b hb => absurd hb (not_holds_new memo _)
  | @step o policy op hreached ha hd ih =>
    obtain ⟨rfl, hcivil⟩ := hd
    have ho := hreached.reached.sound
    by_cases hop : op = .prepare
    · subst hop
      obtain ⟨h, hp, heq, -⟩ := step_prepare Policy.byMark ho ha
      rw [heq]
      exact civil_prepared hp ih
    · obtain ⟨hmoves, -, -⟩ := step_moves Policy.byMark True ho ha (fun _ => hcivil) hop
      exact Moves.civil hmoves ho.heap ih

/-- What a cycle has made of an object that was there at its start, in `o`, by way of the system
`marked` in which the marking was over. The sweep of its page has asked `q` about it. -/
structure Settled (o marked done : HeapSystem ρ) (ops : List Op) (notes : List Note) (b : BlockRef)
    (q : Question) : Prop where
  asked : questionsOn b notes = [q]
  mark_eq : q.marked = marked.heap.arena.memory.isMarked b
  question_eq : (∀ op ∈ ops, ¬op.Attaches b) → q = marked.heap.question b
  kept_iff : done.heap.Holds (.block b) ∧ .born (.block b) ∉ notes ↔ q.marked = true ∨
    ∃ flags, q.flags = some flags ∧ flags.has .hasFinalizer = true ∧ flags.has .finalized = false
  mark_clear : done.heap.Holds (.block b) → .born (.block b) ∉ notes →
    done.heap.arena.memory.isMarked b = false
  payload_eq : done.heap.Holds (.block b) → .born (.block b) ∉ notes →
    (done.heap.content b).drop 2 = (o.heap.content b).drop 2
  link_eq : done.heap.Holds (.block b) → .born (.block b) ∉ notes →
    done.heap.arena.memory.recordOf b = o.heap.arena.memory.recordOf b ∨
      (∃ op ∈ ops, op.Attaches b) ∧ o.heap.arena.memory.recordOf b = none ∧
        ∃ r, done.heap.arena.memory.recordOf b = some r ∧ .born (.record r) ∈ notes

/-- The stage of an object after the sweep says what has become of it. -/
theorem Stage.settled {ops : List Op} {notes : List Note} {yes : Bool}
    (hst : Stage b (x.mark yes) (∃ op ∈ ops, op.Attaches b) notes done.heap)
    (hx : o.heap.Depicts b x) (hmarked : marked.heap.Depicts b (x.mark yes))
    (hover : ¬done.heap.Waiting b.page) : ∃ q, Settled o marked done ops notes b q := by
  have hasked {q : Question} (ha : Asked b (x.mark yes) (∃ op ∈ ops, op.Attaches b) notes q) :
      q.marked = marked.heap.arena.memory.isMarked b ∧
        ((∀ op ∈ ops, ¬op.Attaches b) → q = marked.heap.question b) := by
    refine ⟨ha.marked_eq.trans hmarked.isMarked_eq.symm, fun hnone => ?_⟩
    rw [hmarked.question_eq]
    refine ha.question_eq ?_
    rintro ⟨op, hop, hat⟩
    exact hnone op hop hat
  cases hst with
  | waiting _ hwaits => exact absurd hwaits hover
  | @spared y q hremains _ ha hspared hclear =>
    obtain ⟨hmark, hquestion⟩ := hasked ha
    have hy := hremains.depicts
    refine ⟨q, ha.questions_eq, hmark, hquestion, ?_, fun _ _ => ?_, fun _ _ => ?_, fun _ _ => ?_⟩
    · rw [← q.ruled_verdictByMark.fate_ne_dead_iff]
      exact iff_of_true ⟨hy.held, hremains.unborn⟩ hspared
    · rw [hy.isMarked_eq, hclear]
    · rw [hy.payload_eq, hx.payload_eq]
      exact hremains.payload_eq
    · rw [hy.recordOf_eq, hx.recordOf_eq]
      rcases hremains.relinked with hsame | ⟨hat, hnone, hnew⟩
      · exact .inl hsame
      · exact .inr ⟨hat, Option.map_eq_none_iff.mpr hnone, hnew⟩
  | @reclaimed q _ ha hdead hanew =>
    obtain ⟨hmark, hquestion⟩ := hasked ha
    refine ⟨q, ha.questions_eq, hmark, hquestion, ?_, fun hheld hunborn => ?_,
      fun hheld hunborn => ?_, fun hheld hunborn => ?_⟩
    · rw [← q.ruled_verdictByMark.fate_ne_dead_iff]
      exact iff_of_false (fun hkept => hkept.2 (hanew hkept.1)) fun hne => hne hdead
    · exact absurd (hanew hheld) hunborn
    · exact absurd (hanew hheld) hunborn
    · exact absurd (hanew hheld) hunborn

/-- Allocators work and the heap is swept, after the marking. -/
theorem sweep_passes (ho : marked.Sound) (hc : marked.heap.Civil) {ops : List Op}
    (hops : ∀ op ∈ ops, op.OfAllocator ∧ ∀ i bytes, op ≠ .allocate i bytes)
    (hallows : Allows Admits Policy.byMark ops marked) (epoch : Int) :
    ∃ done, (run .byMark ops marked).step .byMark (.sweep epoch) = (.ok none, done) ∧
      Moves Policy.byMark False marked done ∧ (∀ id, ¬done.heap.Waiting id) ∧
      ∀ b x₀, Passes b x₀ False (∃ op ∈ ops, op.Attaches b) marked.heap done.heap := by
  obtain ⟨hmoves, hsound⟩ := run_moves Policy.byMark False (fun _ _ ha => ⟨ha, False.elim⟩)
    (fun op hop => (hops op hop).1.ne_prepare) ho hallows
  obtain ⟨h, hsweep, htidies, hempty⟩ :=
    Heap.sweep_spec (Policy.byMark (ρ := ρ)).noting hsound.heap epoch
  obtain ⟨done, hstep, hmoves', -, rfl⟩ := step_receive Policy.byMark False hsound htidies hsweep
  refine ⟨_, hstep, hmoves.trans hmoves', Heap.not_waiting_iff.mpr hempty, fun b x₀ => ?_⟩
  obtain ⟨hc', hworked⟩ : (run Policy.byMark ops marked).heap.Civil ∧ Passes b x₀ False
      (False ∨ ∃ op ∈ ops, op.Attaches b) marked.heap (run Policy.byMark ops marked).heap :=
    run_passes hops ho hc hallows
  refine (hworked.trans (passes_tidies htidies hsound.heap hc').2).trans
    ⟨[], (List.append_nil _).symm, fun notes hst => ?_⟩
  exact hst.frame (fun hat => hat.resolve_left id) Iff.rfl rfl .inl fun x hx =>
    ⟨List.not_mem_nil, hx.congr hx.held rfl fun _ _ _ => rfl⟩

/-- A cycle begins, some objects are marked, allocators work, and the heap is swept. -/
theorem mark_sweep_exact (hreached : ReachedBy Mannerly o) (hswept : o.Admits .prepare)
    {objects : List BlockRef} (hheld : ∀ b ∈ objects, o.heap.Holds (.block b)) {ops : List Op}
    (hops : ∀ op ∈ ops, op.OfAllocator ∧ ∀ i bytes, op ≠ .allocate i bytes)
    (hallows : Allows Admits .byMark ops (run .byMark (.prepare :: objects.map .mark) o))
    (epoch : Int) :
    ∃ notes done, (run .byMark ops (run .byMark (.prepare :: objects.map .mark) o)).step .byMark
        (.sweep epoch) = (.ok none, done) ∧ done.notes = o.notes ++ notes ∧
      (∀ b, o.heap.Holds (.block b) →
        ((run .byMark (.prepare :: objects.map .mark) o).heap.arena.memory.isMarked b = true ↔
          b ∈ objects ∨ o.heap.arena.memory.isMarked b = true) ∧
        ∃ q, Settled o (run .byMark (.prepare :: objects.map .mark) o) done ops notes b q) ∧
      ∀ b, .born (.block b) ∈ notes → done.heap.Holds (.block b) := by
  have ho := hreached.reached.sound
  have hc := hreached.civil
  obtain ⟨h, hprepared, heq, hsound⟩ := step_prepare Policy.byMark ho hswept
  rw [run, heq] at hallows ⊢
  have hcycle : InCycle o [] { o with heap := h } := .start
    (fun t ht => hprepared.waiting ho.heap hsound.heap hswept ht)
    (fun t => by rw [Heap.tally, hprepared.tenants_eq, Heap.tally])
    (congrArg Diary.notes hprepared.same.memo_eq) (congrArg (· ++ _) hprepared.due_eq)
  have hholds (t : Tenant) : h.Holds t ↔ o.heap.Holds t := by
    rw [Heap.Holds, Heap.Holds, hprepared.tenants_eq]
  obtain ⟨hmoves₁, hsound₁, hsteady, hdepicts⟩ :=
    run_marks Policy.byMark hsound fun b hb => (hholds _).mpr (hheld b hb)
  have hc₁ := Moves.civil hmoves₁ hsound.heap (civil_prepared hprepared hc)
  have hnotes₁ : (run Policy.byMark (objects.map .mark) { o with heap := h }).notes = o.notes :=
    congrArg Diary.notes (hsteady.memo_eq.trans hprepared.same.memo_eq)
  generalize run Policy.byMark (objects.map .mark) { o with heap := h } = marked at *
  obtain ⟨done, hstep, hmoves₂, hover, hpasses⟩ := sweep_passes hsound₁ hc₁ hops hallows epoch
  obtain ⟨notes₁, hin₁⟩ := hcycle.moves hmoves₁ hsound.heap
  obtain ⟨notes₂, hin⟩ := hin₁.moves hmoves₂ hsound₁.heap
  refine ⟨_, done, hstep, hin.notes_eq, fun b hb => ?_, fun b hb => ?_⟩
  · obtain ⟨x, hx⟩ := hc b hb
    have hmarked := hdepicts b x (hprepared.depicts hx)
    refine ⟨?_, ?_⟩
    · rw [hmarked.isMarked_eq, hx.isMarked_eq]
      simp [Object.mark, or_comm]
    · obtain ⟨more, hmore, hstages⟩ := hpasses b (x.mark (decide (b ∈ objects)))
      have hsame : more = [] ++ notes₁ ++ notes₂ := by
        have hboth := hmore.symm.trans hin.notes_eq
        rw [show marked.heap.notes = o.notes from hnotes₁] at hboth
        exact List.append_cancel_left hboth
      have hwaits : marked.heap.Waiting b.page := by
        rw [hsteady.waiting_iff]
        exact hprepared.waiting ho.heap hsound.heap hswept (t := .block b) ((hholds _).mpr hb)
      have hend := hstages [] (.start hmarked hwaits)
      rw [List.nil_append, hsame] at hend
      exact hend.settled hx hmarked (hover _)
  · have htally := (hin.swept (.block b) (hover _)).2
    have hpos := List.count_pos_iff.mpr (mem_births.mpr hb)
    exact Heap.tally_pos.mp (by omega)

/-- Two objects without records. -/
def pair : HeapSystem Unit := run .byMark [.enlist, .createObject 0 16, .createObject 0 16] (new ())

theorem pair_reached : ReachedBy Mannerly pair ∧ pair.Admits .prepare := by
  have hstart : ReachedBy Mannerly (run .byMark [] (new ())) := .start ()
  have henlisted := hstart.concat (show Admits _ .enlist from trivial) ⟨rfl, trivial⟩
  have hdesk : 0 < (run .byMark [.enlist, .createObject 0 16] (new ())).allocators.length := by
    decide +kernel
  have hsettled : ∀ k ∈ Heap.allRequests, (pair.heap.shelf k).unswept = #[] := by decide +kernel
  have hone :=
    henlisted.concat (show Admits _ (.createObject 0 16) from Nat.zero_lt_one) ⟨rfl, trivial⟩
  exact ⟨hone.concat (show Admits _ (.createObject 0 16) from hdesk) ⟨rfl, trivial⟩, hsettled⟩

theorem pair_eq : (pair.heap.arena.memory.recordOf ⟨0, 0⟩ = none ∧
      pair.heap.arena.memory.recordOf ⟨0, 4⟩ = none) ∧
    pair.heap.arena.memory.isMarked ⟨0, 0⟩ = false ∧
    pair.heap.arena.memory.isMarked ⟨0, 4⟩ = false := by
  decide +kernel

theorem pair_admits (withFinalizer : Bool) : pair.Admits (.createRecord 0 ⟨0, 0⟩ withFinalizer) ∧
    pair.Admits (.createRecord 0 ⟨0, 4⟩ withFinalizer) := by
  have hobjects : 0 < pair.allocators.length ∧
      (.block ⟨0, 0⟩ ∈ pair.heap.tenantsOn 0 ∧ 2 ≤ (pair.heap.content ⟨0, 0⟩).length) ∧
      .block ⟨0, 4⟩ ∈ pair.heap.tenantsOn 0 ∧ 2 ≤ (pair.heap.content ⟨0, 4⟩).length := by
    decide +kernel
  exact ⟨⟨hobjects.1, hobjects.2.1⟩, hobjects.1, hobjects.2.2⟩

/-- One of two objects is marked, and a third one is made before the sweep. -/
theorem mark_sweep_exact_small :
    let o := run (Policy.byMark (ρ := Unit))
      [.enlist, .createObject 0 16, .createObject 0 16] (new ())
    let marked := run .byMark (.prepare :: [⟨0, 0⟩].map .mark) o
    (ReachedBy Mannerly o ∧ o.Admits .prepare ∧ o.heap.Holds (.block ⟨0, 0⟩) ∧
      Op.OfAllocator (.createObject 0 8) ∧ Allows Admits .byMark [.createObject 0 8] marked) ∧
    ∃ notes done, (run .byMark [.createObject 0 8] marked).step .byMark (.sweep 1) =
      (.ok none, done) ∧ done.notes = o.notes ++ notes ∧
      (∀ b, o.heap.Holds (.block b) →
        (marked.heap.arena.memory.isMarked b = true ↔
          b ∈ [⟨0, 0⟩] ∨ o.heap.arena.memory.isMarked b = true) ∧
        ∃ q, Settled o marked done [.createObject 0 8] notes b q) ∧
      ∀ b, .born (.block b) ∈ notes → done.heap.Holds (.block b) := by
  intro o marked
  have hreached : ReachedBy Mannerly o := pair_reached.1
  have hswept : o.Admits .prepare := pair_reached.2
  have hobject : o.heap.Holds (.block ⟨0, 0⟩) := (pair_admits false).1.2.1
  have hheld : ∀ b ∈ [⟨0, 0⟩], o.heap.Holds (.block b) := fun b hb =>
    List.mem_singleton.mp hb ▸ hobject
  have hops : ∀ op ∈ [Op.createObject 0 8], op.OfAllocator ∧ ∀ i bytes, op ≠ .allocate i bytes := by
    simp [Op.OfAllocator]
  have hlast : 0 < marked.allocators.length := by decide +kernel
  have hallows : Allows Admits .byMark [.createObject 0 8] marked := ⟨hlast, trivial⟩
  exact ⟨⟨hreached, hswept, hobject, trivial, hallows⟩,
    mark_sweep_exact hreached hswept hheld hops hallows 1⟩

end SweptHeap.HeapSystem
