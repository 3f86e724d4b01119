import Mathlib
import SweptHeap.Proofs.EpochProtocol.Alone
import SweptHeap.Proofs.Heap.Watch
import SweptHeap.Proofs.HeapSystem.Moves
import SweptHeap.Proofs.MutatorSystem.Basic

/-!
# What work leaves behind

Whatever a mutator does between two collections, the heap stays sound, no page comes to wait for the
sweep, and what the other mutators keep stays theirs. A whole collection gives back such a heap too.
-/

namespace SweptHeap

variable {ρ : Type}

/-! ### Allocators -/

namespace Heap

variable {h h' : Heap ρ}

/-- Housekeeping gives the sweep no page. -/
theorem Settled.tidies {policy : Policy ρ} (hsettled : h.Settled) (ht : Tidies policy h h')
    (hs : h.Sound) : h'.Settled := by
  intro k hk
  have hsub := (Tidies.lists ht hs hk).1
  rw [hsettled k hk] at hsub
  exact Array.toList_eq_nil_iff.mp (List.subset_nil.mp hsub)

theorem same_report (h : Heap ρ) (e : Event) : Same h { h with arena := h.arena.report e } :=
  ⟨h.arena.report e, ⟨rfl, rfl, rfl⟩, rfl⟩

end Heap

namespace Allocator

open Heap (Advances Tidies)

variable {h : Heap ρ} {a : Allocator}

/-- An operation of an allocator has ended. If it failed, nothing has happened. -/
structure Works (h : Heap ρ) (a : Allocator) (done : Except Fault BlockRef × Desk ρ) : Prop where
  sound : done.2.heap.Sound
  advances : Advances h done.2.heap
  valid : Valid done.2.heap done.2.allocator
  graceful : ∀ e, done.1 = .error e → done.2 = ⟨h, a⟩

theorem works_error (hs : h.Sound) (ha : Valid h a) (e : Fault) : Works h a (.error e, ⟨h, a⟩) :=
  ⟨hs, .of_shelf (fun _ => rfl) rfl, ha, fun _ _ => rfl⟩

theorem works_allocates {policy : Policy ρ} {n : Nat} {b : BlockRef} {h' : Heap ρ} {a' : Allocator}
    (hs : h.Sound) (hall : Allocates policy (Page.Gives · n) h b h') (hvalid : Valid h' a') :
    Works h a (.ok b, ⟨h', a'⟩) := by
  obtain ⟨h₁, htidies, -, hgets⟩ := hall
  refine ⟨?_, (Heap.Tidies.advances htidies hs).trans hgets.advances, hvalid,
    fun e he => by cases he⟩
  exact (hgets.mono fun _ _ _ hx => hx.toGrown).sound (Tidies.sound htidies hs)

theorem works_allocate (policy : Policy ρ) (hs : h.Sound) (ha : Valid h a) (bytes : Nat) :
    Works h a ((allocate policy bytes).apply ⟨h, a⟩) := by
  obtain ⟨b, h', a', heq, hall, hserves⟩ := allocate_spec policy hs ha bytes
  rw [heq]
  exact works_allocates hs hall hserves.valid

theorem works_createObject (policy : Policy ρ) (hs : h.Sound) (ha : Valid h a) (payload : Nat) :
    Works h a ((createObject policy payload).apply ⟨h, a⟩) := by
  by_cases hlt : payload + objectHeaderBytes < wordLimit
  · obtain ⟨b, h', a', heq, hall, hserves⟩ := createObject_spec policy hlt hs ha
    rw [heq]
    exact works_allocates hs hall hserves.valid
  · rw [createObject_error policy hlt]
    exact works_error hs ha _

theorem works_createArray (policy : Policy ρ) (hs : h.Sound) (ha : Valid h a)
    (element count : Nat) : Works h a ((createArray policy element count).apply ⟨h, a⟩) := by
  by_cases hlt : arrayBytes element count + objectHeaderBytes < wordLimit
  · obtain ⟨b, h₁, a', heq, hall, hserves⟩ := createArray_spec policy hlt hs ha
    have hworks := works_allocates (a := a) hs hall hserves.valid
    have hthree := three_le_arrayCells element count
    -- The length is written into the new block.
    have hwrites : Heap.Writes b 2 (.word count.toUInt64) h₁
        (h₁.write ⟨b.page, b.index + 2⟩ (.word count.toUInt64)) := by
      obtain ⟨h₀, htidies, -, hgets⟩ := hall
      obtain ⟨hw, hzero⟩ := hgets.welcomes_block (Tidies.sound htidies hs) (by omega)
      refine Heap.write_spec hworks.sound ((hw.holds_iff (.block b)).mpr (.inl rfl)) ?_ _
      rw [hzero, List.length_replicate]
      omega
    rw [heq]
    exact ⟨hwrites.sound, hworks.advances.trans hwrites.advances,
      hworks.valid.advances hwrites.advances, fun e he => by cases he⟩
  · obtain ⟨fault, -, heq⟩ := createArray_error (h := h) (a := a) policy hlt
    rw [heq]
    exact works_error hs ha _

theorem works_createRecord (policy : Policy ρ) (hs : h.Sound) (ha : Valid h a) {object : BlockRef}
    (hheld : h.Holds (.block object)) (htwo : 2 ≤ (h.content object).length)
    (withFinalizer : Bool) :
    Works h a ((createRecord policy object withFinalizer).apply ⟨h, a⟩) := by
  cases hr : h.arena.memory.recordOf object with
  | some r =>
    have hamends := Heap.amend_spec h r (·.raise (Flags.initial withFinalizer))
    rw [createRecord_some policy hr]
    exact ⟨hamends.sound hs, hamends.advances, ha.advances hamends.advances,
      fun e he => by cases he⟩
  | none =>
    obtain ⟨p, hp, hkind, -⟩ := Heap.holds_block.mp hheld
    obtain ⟨r, h₁, h₂, a', heq, htidies, -, hspares, hgets, hfollows, -⟩ :=
      createRecord_none policy hr hp hkind withFinalizer hs ha
    obtain ⟨hheld₁, hcontent, -⟩ := hspares.block hheld
    rw [← hcontent] at htwo
    obtain ⟨-, hwrites⟩ := HeapSystem.record_linked (Tidies.sound htidies hs) hheld₁ htwo hgets
    rw [heq]
    exact ⟨hwrites.sound,
      ((Heap.Tidies.advances htidies hs).trans hgets.advances).trans hwrites.advances,
      hfollows.valid.advances hwrites.advances, fun e he => by cases he⟩

end Allocator

/-! ### Sessions -/

namespace Mutator

open Act

variable {c : Collector ρ} {m : Mutator}

theorem apply_atDesk {α : Type} {act : Act (Desk ρ) α} {result : Except Fault α} {h : Heap ρ}
    {a : Allocator} (heq : act.apply ⟨c.heap, m.allocator⟩ = (result, ⟨h, a⟩)) :
    (atDesk act).apply ⟨c, m⟩ = (result, ⟨{ c with heap := h }, { m with allocator := a }⟩) := by
  simp only [Act.apply, ExceptT.run] at heq
  simp only [Act.apply, ExceptT.run, atDesk, heq]

/-- The collector after a thread has asked it for a collection. -/
def triggered (thread : Nat) (c : Collector ρ) : Collector ρ :=
  { c with
    heap := { c.heap with arena := c.heap.arena.report (.triggered thread c.progress.schedule.1) }
    progress := c.progress.schedule.2 }

theorem checkTrigger_eq (c : Collector ρ) (m : Mutator) :
    checkTrigger.apply ⟨c, m⟩ = (.ok (),
      ⟨if m.allocator.requested then triggered m.thread c else c,
        { m with allocator := { m.allocator with requested := false } }⟩) := by
  have htake : (atDesk Allocator.takeRequest).apply ⟨c, m⟩ = (.ok m.allocator.requested,
      ⟨c, { m with allocator := { m.allocator with requested := false } }⟩) := apply_atDesk rfl
  rw [checkTrigger, apply_bind_ok htake]
  split_ifs <;> rfl

theorem allocating_ok {act : Act (Desk ρ) BlockRef} {b : BlockRef} {h : Heap ρ} {a : Allocator}
    (heq : act.apply ⟨c.heap, m.allocator⟩ = (.ok b, ⟨h, a⟩)) :
    (allocating act).apply ⟨c, m⟩ = (.ok b,
      ⟨if a.requested then triggered m.thread { c with heap := h } else { c with heap := h },
        { m with allocator := { a with requested := false } }⟩) := by
  rw [allocating, apply_bind_ok (apply_atDesk heq), apply_bind_ok (checkTrigger_eq _ _)]
  rfl

theorem allocating_error {act : Act (Desk ρ) BlockRef} {e : Fault} {h : Heap ρ} {a : Allocator}
    (heq : act.apply ⟨c.heap, m.allocator⟩ = (.error e, ⟨h, a⟩)) :
    (allocating act).apply ⟨c, m⟩ =
      (.error e, ⟨{ c with heap := h }, { m with allocator := a }⟩) := by
  rw [allocating, apply_bind_error (apply_atDesk heq)]

end Mutator

/-- What the end of a session has to leave behind for the other mutators and for its own. -/
structure Session.Fine (s s' : Session ρ) : Prop where
  sound : s'.collector.heap.Sound
  settled : s'.collector.heap.Settled
  advances : Heap.Advances s.collector.heap s'.collector.heap
  valid : s'.mutator.allocator.Valid s'.collector.heap

namespace Mutator

open Act

variable {c : Collector ρ} {m : Mutator} {act : Act (Desk ρ) BlockRef}

theorem fine_allocating
    (hworks : Allocator.Works c.heap m.allocator (act.apply ⟨c.heap, m.allocator⟩))
    (hwatches : act.Within Desk.Watches) (hsettled : c.heap.Settled) :
    Session.Fine ⟨c, m⟩ ((allocating act).apply ⟨c, m⟩).2 := by
  have hsettled' := (hwatches ⟨c.heap, m.allocator⟩ hsettled).1
  cases hdone : act.apply ⟨c.heap, m.allocator⟩ with | mk result d =>
  obtain ⟨h, a⟩ := d
  rw [hdone] at hworks hsettled'
  have hvalid : Allocator.Valid h { a with requested := false } :=
    hworks.valid.congr rfl rfl rfl rfl
  cases result with
  | error e =>
    rw [allocating_error hdone]
    exact ⟨hworks.sound, hsettled', hworks.advances, hworks.valid⟩
  | ok b =>
    rw [allocating_ok hdone]
    cases a.requested with
    | false => exact ⟨hworks.sound, hsettled', hworks.advances, hvalid⟩
    | true =>
      have hreport : Heap.Advances h (triggered m.thread { c with heap := h }).heap :=
        .of_shelf (fun _ => rfl) rfl
      exact ⟨hworks.sound.amends (.of_eq rfl), hsettled', hworks.advances.trans hreport,
        hvalid.advances hreport⟩

theorem fine_createRecord
    (hworks : Allocator.Works c.heap m.allocator (act.apply ⟨c.heap, m.allocator⟩))
    (hstill : act.Within Desk.Still) (hsettled : c.heap.Settled) :
    Session.Fine ⟨c, m⟩ ((atDesk act).apply ⟨c, m⟩).2 := by
  have hsettled' := (hstill ⟨c.heap, m.allocator⟩ hsettled).1
  cases hdone : act.apply ⟨c.heap, m.allocator⟩ with | mk result d =>
  obtain ⟨h, a⟩ := d
  rw [hdone] at hworks hsettled'
  rw [apply_atDesk hdone]
  exact ⟨hworks.sound, hsettled', hworks.advances, hworks.valid⟩

/-- A mutator is detached: its thread goes, and its allocator is closed. Nobody is asked for a
collection. -/
theorem detach_spec (hs : c.heap.Sound) (hsettled : c.heap.Settled)
    (ha : m.allocator.Valid c.heap) :
    ∃ c' m', detach.apply ⟨c, m⟩ = (.ok (), ⟨c', m'⟩) ∧ c'.heap.Sound ∧ c'.heap.Settled ∧
      Heap.Advances c.heap c'.heap ∧ c'.progress = c.progress := by
  obtain ⟨world, event, heq⟩ : ∃ world event, detach.apply ⟨c, m⟩ =
      (atDesk Allocator.close).apply ⟨{ c with
        heap := { c.heap with arena := c.heap.arena.report event }, world := world }, m⟩ :=
          ⟨_, _, rfl⟩
  have hreport : Heap.Advances c.heap { c.heap with arena := c.heap.arena.report event } :=
    .of_shelf (fun _ => rfl) rfl
  have hs' : Heap.Sound { c.heap with arena := c.heap.arena.report event } := hs.amends (.of_eq rfl)
  obtain ⟨h, a, hclose, htidies, -⟩ :=
    Allocator.close_spec .byMark (ha.advances hreport)
  have hsettled' : Heap.Settled { c.heap with arena := c.heap.arena.report event } := hsettled
  rw [heq, apply_atDesk hclose]
  exact ⟨_, _, rfl, Heap.Tidies.sound htidies hs', hsettled'.tidies htidies hs',
    hreport.trans (Heap.Tidies.advances htidies hs'), rfl⟩

end Mutator

/-! ### Collectors with mutators -/

namespace Collector

variable {c c' : Collector ρ} {client : Client ρ} {epoch : Int} {stats : CycleStats}

open Act

/-- The heap is sound and no page waits. What mutators keep stays valid. -/
structure Clean (h : Heap ρ) (c : Collector ρ) : Prop where
  sound : c.heap.Sound
  settled : c.heap.Settled
  advances : Heap.Advances h c.heap

theorem new_heap {settings : Settings} {memo : ρ} (h : new settings memo = .ok c) :
    ∃ meter,
      c.heap = { Heap.new memo with arena := { (Heap.new memo).arena with meter := meter } } := by
  unfold new at h
  split at h
  · cases h
  · cases h
    exact ⟨_, rfl⟩

/-- Counters and reports do not concern the pages. -/
theorem Clean.same {h : Heap ρ} (hc : Clean h c) (hsame : Heap.Same c.heap c'.heap) :
    Clean h c' := by
  refine ⟨hsame.sound hc.sound, ?_, hc.advances.trans ?_⟩
  · obtain ⟨arena, -, heq⟩ := hsame
    rw [heq]
    exact hc.settled
  · obtain ⟨arena, -, heq⟩ := hsame
    rw [heq]
    exact .of_shelf (fun _ => rfl) rfl

/-- Pages wait from the start of a cycle until its sweep. -/
theorem prepare_ok {h : Heap ρ} (hc : Clean h c) (hcareful : client.Careful) {u : Unit}
    (hprepare : (prepare client epoch).apply c = (.ok u, c')) :
    c'.heap.Sound ∧ Heap.Advances h c'.heap := by
  rw [prepare, apply_get_bind, apply_bind_ok (apply_report _ _)] at hprepare
  generalize hc₁ : ({ c with heap := { c.heap with
    arena := c.heap.arena.report (.census epoch c.heap.census) } } : Collector ρ) = c₁ at hprepare
  have hclean : Clean h c₁ := by
    subst hc₁
    exact hc.same (Heap.same_report _ _)
  obtain ⟨h₁, heq, hprepared⟩ := Heap.prepare_spec hclean.sound hclean.settled
  rw [apply_bind_ok (apply_onHeap heq), apply_onHeap (Heap.apply_modifyArena _ _)] at hprepare
  obtain ⟨-, rfl⟩ := Prod.mk.inj hprepare
  refine ⟨hcareful epoch h₁ (hprepared.sound hclean.sound hclean.settled), ?_⟩
  exact (hclean.advances.trans hprepared.advances).trans (.of_shelf (fun _ => rfl) rfl)

/-- The heap after housekeeping, once what was found is taken. -/
theorem clean_taken {policy : Policy ρ} {h h' : Heap ρ} (hs : c.heap.Sound) (hsettled : h'.Settled)
    (had : Heap.Advances h c.heap) (htidies : Heap.Tidies policy c.heap h') :
    Clean h { c with heap := { h' with arena := { h'.arena with found := {} } } } := by
  refine ⟨(Heap.Tidies.sound htidies hs).amends (.refl _), hsettled, ?_⟩
  exact (had.trans (Heap.Tidies.advances htidies hs)).trans (.of_shelf (fun _ => rfl) rfl)

theorem assist_ok (policy : Policy ρ) (epoch : Int) {h : Heap ρ} (hc : Clean h c) (helpers : Nat)
    (queue : Handoff BlockRef) :
    ∃ queue' c', (assist policy epoch helpers queue).apply c = (.ok queue', c') ∧ Clean h c' := by
  induction helpers generalizing c queue with
  | zero => exact ⟨queue, c, rfl, hc⟩
  | succ n ih =>
    obtain ⟨h', heq, htidies, -⟩ := Heap.assist_spec policy hc.sound epoch
    have hsettled : h'.Settled := hc.settled.tidies htidies hc.sound
    obtain ⟨queue', c', hassist, hclean⟩ :=
      ih (clean_taken hc.sound hsettled hc.advances htidies) (queue.merge h'.arena.found)
    refine ⟨queue', c', ?_, hclean⟩
    rw [assist, apply_bind_ok (apply_onHeap heq), hassist]

theorem sweep_ok (policy : Policy ρ) (epoch : Int) {h : Heap ρ} (hs : c.heap.Sound)
    (had : Heap.Advances h c.heap) :
    ∃ queue c', (sweep policy epoch).apply c = (.ok queue, c') ∧ Clean h c' := by
  obtain ⟨h', heq, htidies, hsettled⟩ := Heap.sweep_spec policy hs epoch
  rw [sweep, apply_bind_ok (apply_onHeap heq), apply_get_bind]
  exact assist_ok policy epoch (clean_taken hs hsettled had htidies) _ _

theorem cycle_ok (hs : c.heap.Sound) (hsettled : c.heap.Settled) (hcareful : client.Careful)
    (hcycle : (cycle client epoch).apply c = (.ok stats, c')) : Clean c.heap c' := by
  have hclean : Clean c.heap c := ⟨hs, hsettled, .of_shelf (fun _ => rfl) rfl⟩
  obtain ⟨u, c₁, hstopped, hcycle⟩ := of_bind_ok hcycle
  obtain ⟨w, c₀, c₂, -, -, rfl, hprepare, rfl⟩ := whileStopped_ok hstopped
  have hsame := (Heap.same_report c.heap (.stopRequested .collection)).trans
    (Heap.same_report _ .worldStopped)
  obtain ⟨hs₂, had₂⟩ := prepare_ok (hclean.same hsame) hcareful hprepare
  obtain ⟨queue, c₃, hsweep, hclean₃⟩ := sweep_ok (c := { c₂ with world := c₂.world.resume })
    client.policy epoch hs₂ had₂
  rw [apply_bind_ok hsweep] at hcycle
  have hsubmit :
      Clean c.heap { c₃ with heap := { c₃.heap with pending := c₃.heap.pending.merge queue } } :=
    ⟨⟨hclean₃.sound.size_eq, hclean₃.sound.good, hclean₃.sound.placed⟩, hclean₃.settled,
      hclean₃.advances.trans (.of_shelf (fun _ => rfl) rfl)⟩
  obtain ⟨released, h₄, hrelease, htidies, -⟩ := Heap.release_spec client.policy hsubmit.sound
    c₃.settings.retainedEmptyPages
  have hsettled₄ := hsubmit.settled.tidies htidies hsubmit.sound
  rw [apply_bind_ok (apply_onHeap (Heap.submit_eq _ _)), apply_get_bind,
    apply_bind_ok (apply_onHeap hrelease)] at hcycle
  obtain ⟨-, rfl⟩ := Prod.mk.inj hcycle
  refine ⟨(Heap.Tidies.sound htidies hsubmit.sound).amends (.refl _), hsettled₄, ?_⟩
  exact (hsubmit.advances.trans (Heap.Tidies.advances htidies hsubmit.sound)).trans
    (.of_shelf (fun _ => rfl) rfl)

theorem leaves_handOver (epoch : Int) :
    (handOver epoch : Act (Collector ρ) Unit).Leaves (·.heap) := by
  intro c
  rw [handOver, apply_get_bind]
  cases c.finalizers with
  | some tasks => rfl
  | none =>
    simp only [advance, Act.apply, ExceptT.run]
    cases c.progress.finalize epoch <;> rfl

/-- A collection leaves a sound heap on which no page waits, if it began with one. -/
theorem collect_clean (hs : c.heap.Sound) (hsettled : c.heap.Settled) (hcareful : client.Careful)
    (hcollect : (collect client epoch).apply c = (.ok stats, c')) : Clean c.heap c' := by
  obtain ⟨u, c₁, hstart, hcollect⟩ := of_bind_ok hcollect
  obtain ⟨p₁, -, rfl⟩ := advance_ok hstart
  obtain ⟨stats', c₂, hcycle, hcollect⟩ := of_bind_ok hcollect
  have hclean := cycle_ok (c := { c with progress := p₁ }) hs hsettled hcareful hcycle
  obtain ⟨u, c₃, hfinish, hcollect⟩ := of_bind_ok hcollect
  obtain ⟨p₂, -, rfl⟩ := advance_ok hfinish
  obtain ⟨u, c₄, hover, hcollect⟩ := of_bind_ok hcollect
  obtain ⟨-, rfl⟩ := Prod.mk.inj hcollect
  have hheap : c₄.heap = c₂.heap := by
    have hleaves := leaves_handOver epoch { c₂ with progress := p₂ }
    rwa [hover] at hleaves
  exact ⟨hheap ▸ hclean.sound, hheap ▸ hclean.settled, hheap ▸ hclean.advances⟩

end Collector

namespace MutatorSystem

variable {w : MutatorSystem ρ} {i : Nat}

/-- Between two jobs. -/
structure Sound (w : MutatorSystem ρ) : Prop where
  heap : w.collector.heap.Sound
  settled : w.collector.heap.Settled
  valid : ∀ m ∈ w.mutators, m.allocator.Valid w.collector.heap

theorem Sound.advance (hw : w.Sound) {c : Collector ρ} (hs : c.heap.Sound)
    (hsettled : c.heap.Settled) (had : Heap.Advances w.collector.heap c.heap) :
    Sound { w with collector := c } :=
  ⟨hs, hsettled, fun m hm => (hw.valid m hm).advances had⟩

theorem atSession_none {α : Type} {act : Act (Session ρ) α} (hm : w.mutators[i]? = none) :
    w.atSession i act = w := by
  simp only [atSession, hm]

theorem atSession_some {α : Type} {act : Act (Session ρ) α} {m : Mutator}
    (hm : w.mutators[i]? = some m) :
    w.atSession i act = ⟨(act.apply ⟨w.collector, m⟩).2.collector,
      w.mutators.set i (act.apply ⟨w.collector, m⟩).2.mutator⟩ := by
  simp only [atSession, hm]

theorem Sound.atSession {α : Type} {act : Act (Session ρ) α} (hw : w.Sound)
    (hact : ∀ m ∈ w.mutators, Session.Fine ⟨w.collector, m⟩ (act.apply ⟨w.collector, m⟩).2) :
    (w.atSession i act).Sound := by
  cases hm : w.mutators[i]? with
  | none => rwa [atSession_none hm]
  | some m =>
    rw [atSession_some hm]
    have hfine := hact m (List.mem_of_getElem? hm)
    have hw' := hw.advance hfine.sound hfine.settled hfine.advances
    refine ⟨hw'.heap, hw'.settled, fun m' hm' => ?_⟩
    rcases List.mem_or_eq_of_mem_set hm' with hm' | rfl
    · exact hw'.valid m' hm'
    · exact hfine.valid

theorem Sound.step (hw : w.Sound) (policy : Policy ρ) {t : Job} (ha : w.Admits t) :
    (w.step policy t).Sound := by
  have hsettled := hw.settled
  cases t with
  | attach =>
    refine ⟨hw.heap.amends (.of_eq rfl), hw.settled, fun m hm => ?_⟩
    have had : Heap.Advances w.collector.heap (w.step policy .attach).collector.heap :=
      .of_shelf (fun _ => rfl) rfl
    rcases List.mem_append.mp hm with hm | hm
    · exact (hw.valid m hm).advances had
    · obtain rfl := List.mem_singleton.mp hm
      exact Allocator.valid_new _
  | allocate i bytes =>
    exact hw.atSession fun m hm => Mutator.fine_allocating
      (Allocator.works_allocate policy hw.heap (hw.valid m hm) bytes)
      (Allocator.watches_allocate policy bytes) hsettled
  | createObject i payload =>
    exact hw.atSession fun m hm => Mutator.fine_allocating
      (Allocator.works_createObject policy hw.heap (hw.valid m hm) payload)
      (Allocator.watches_createObject policy payload) hsettled
  | createArray i element count =>
    exact hw.atSession fun m hm => Mutator.fine_allocating
      (Allocator.works_createArray policy hw.heap (hw.valid m hm) element count)
      (Allocator.watches_createArray policy element count) hsettled
  | createRecord i object withFinalizer =>
    exact hw.atSession fun m hm => Mutator.fine_createRecord
      (Allocator.works_createRecord policy hw.heap (hw.valid m hm) ha.1 ha.2 withFinalizer)
      (Allocator.still_createRecord policy object withFinalizer) hsettled
  | detach i =>
    cases hm : w.mutators[i]? with
    | none =>
      rw [MutatorSystem.step, atSession_none hm]
      exact ⟨hw.heap, hw.settled, fun m hm => hw.valid m (List.mem_of_mem_eraseIdx hm)⟩
    | some m =>
      obtain ⟨c, m', heq, hs, hsettled', had, -⟩ :=
        Mutator.detach_spec hw.heap hsettled (hw.valid m (List.mem_of_getElem? hm))
      have hw' := hw.advance hs hsettled' had
      rw [MutatorSystem.step, atSession_some hm, heq]
      refine ⟨hw'.heap, hw'.settled, fun m hm => hw'.valid m ?_⟩
      rw [List.eraseIdx_set_eq] at hm
      exact List.mem_of_mem_eraseIdx hm
  | switch i mode =>
    exact hw.atSession fun m hm =>
      ⟨hw.heap, hw.settled, .of_shelf (fun _ => rfl) rfl, hw.valid m hm⟩
  | schedule => exact ⟨hw.heap, hw.settled, hw.valid⟩

theorem Reached.sound {settings : Settings} (h : Reached settings w) : w.Sound := by
  induction h with
  | @start memo c hmade =>
    obtain ⟨meter, hheap⟩ := Collector.new_heap hmade
    refine ⟨?_, ?_, by simp⟩
    · rw [hheap]
      exact (Heap.sound_new memo).amends (.refl _)
    · rw [hheap]
      exact Heap.settled_new memo
  | step policy _ hadmits ih => exact ih.step policy hadmits
  | collect _ hcareful hcollected ih =>
    have hclean := Collector.collect_clean ih.heap ih.settled hcareful hcollected
    exact ih.advance hclean.sound hclean.settled hclean.advances

end MutatorSystem

end SweptHeap
