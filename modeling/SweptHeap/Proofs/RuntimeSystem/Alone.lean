import Mathlib
import SweptHeap.Proofs.RuntimeSystem.Cycle
import SweptHeap.Proofs.SharedDepot.Alone

/-!
# One thread of the runtime at a time

A thread that nobody disturbs comes to an end with what it does, if the heap is sound. So a mutator
gets its page; the collector does its chores and ends its cycle when no sweep is under way; and the
worker serves the epoch that was scheduled. None of them waits for what mutators have in their
queues.
-/

namespace SweptHeap.RuntimeSystem

variable {ρ : Type} {policy : Policy ρ} {finalizer : Finalizer (Diary ρ)}
  {e e' e'' : RuntimeSystem ρ}

@[simp] theorem run_append (before after : List (Move ρ)) :
    e.run policy finalizer (before ++ after) =
      (e.run policy finalizer before).run policy finalizer after :=
  List.foldl_append

theorem allows_append {before after : List (Move ρ)} :
    Allows policy finalizer (before ++ after) e ↔ Allows policy finalizer before e ∧
      Allows policy finalizer after (e.run policy finalizer before) := by
  induction before generalizing e with
  | nil => exact (and_iff_right trivial).symm
  | cons m before ih => exact (and_congr_right fun _ => ih).trans and_assoc.symm

/-- Moves that are allowed lead from one state to the other. -/
def Leads (policy : Policy ρ) (finalizer : Finalizer (Diary ρ)) (e e' : RuntimeSystem ρ) : Prop :=
  ∃ moves, Allows policy finalizer moves e ∧ e.run policy finalizer moves = e'

namespace Leads

theorem refl (e : RuntimeSystem ρ) : Leads policy finalizer e e := ⟨[], trivial, rfl⟩

theorem trans (h : Leads policy finalizer e e') (h' : Leads policy finalizer e' e'') :
    Leads policy finalizer e e'' := by
  obtain ⟨before, hbefore, rfl⟩ := h
  obtain ⟨after, hafter, rfl⟩ := h'
  exact ⟨before ++ after, allows_append.mpr ⟨hbefore, hafter⟩, run_append before after⟩

theorem step {m : Move ρ} (hm : e.Admits m) :
    Leads policy finalizer e (e.step policy finalizer m) :=
  ⟨[m], ⟨hm, trivial⟩, rfl⟩

theorem sound (h : Leads policy finalizer e e') (he : e.Sound) : e'.Sound := by
  obtain ⟨moves, hm, rfl⟩ := h
  exact he.run hm

end Leads

/-! ### Acts -/

section Acts

variable {s : Sweeper} {h : Heap (Diary ρ)} {t t' : Task} {d d' : Depot (Diary ρ)}

theorem acts_of_isFree {policy : Policy ρ} {d : Depot ρ} {x : Task × Depot ρ} (ht : t.isFree = true)
    (hacts : Task.Acts policy (t, d) x) : x = (t, d) := by
  cases t with
  | idle => exact hacts
  | got id => exact hacts
  | counted tally => exact hacts
  | _ => cases ht

/-- No page comes to wait. -/
theorem unswept_comes {policy : Policy ρ} {d d' : Depot ρ}
    (hcomes : Task.Comes policy (t, d) (t', d'))
    (hcounted : t.isSweeping = true → 0 < d.arena.sweepers) :
    d'.shelf.unswept.toList ⊆ d.shelf.unswept.toList := by
  generalize hx : (t, d) = x at hcomes
  induction hcomes using Relation.ReflTransGen.head_induction_on generalizing t d with
  | refl =>
    obtain ⟨-, rfl⟩ := Prod.mk.inj hx
    exact List.Subset.refl _
  | head hacts _ ih =>
    subst hx
    have hmoves := Task.moves_act policy t d hcounted
    refine List.Subset.trans (ih (fun hnext => ?_) hacts.symm) fun id hid =>
      hmoves.unswept.subset (List.mem_append_left _ hid)
    have hcount := hmoves.sweepers
    rw [hnext] at hcount
    cases ht : t.isSweeping with
    | false =>
      rw [ht] at hcount
      exact (Nat.succ_pos _).trans_eq hcount.symm
    | true =>
      rw [ht] at hcount
      exact (hcounted ht).trans_eq (Nat.add_right_cancel hcount).symm

/-- A thread that wants a page sweeps the last one that waits, if no page is ready. -/
theorem unswept_of_got {policy : Policy ρ} {d d' : Depot ρ} {r : Request} {epoch : Int}
    {rest : Array PageId} {id page : PageId} (hready : d.shelf.ready = #[])
    (hunswept : d.shelf.unswept = rest.push id)
    (hcomes : Task.Comes policy (.looking r epoch, d) (.got page, d')) :
    d'.shelf.unswept.toList ⊆ rest.toList := by
  have htake : (Depot.takeReady r).apply d = (.ok none, d) := by
    obtain ⟨shelf, arena⟩ := d
    simp only [Act.apply, ExceptT.run, Depot.takeReady, Shelf.takeReady,
      show shelf.ready = #[] from hready]
    rfl
  have hlooking : Task.Acts policy (.looking r epoch, d) (.seeking (.room r epoch), d) := by
    refine Task.acts_ok ?_
    rw [Task.act, Act.apply_bind_ok htake]
    rfl
  have hseeking : Task.Acts policy (.seeking (.room r epoch), d) (.sweeping (.room r epoch) id,
      ⟨{ d.shelf with unswept := rest }, { d.arena with sweepers := d.arena.sweepers + 1 }⟩) := by
    refine Task.acts_ok ?_
    rw [Task.act, Act.apply_bind_ok (Depot.apply_takeUnswept_push hunswept)]
    rfl
  -- Acts are determined, so the thread has made these two.
  rcases hcomes.cases_head with heq | ⟨x, hx, hrest⟩
  · cases heq
  obtain rfl : x = _ := hx.trans hlooking.symm
  rcases hrest.cases_head with heq | ⟨y, hy, hrest'⟩
  · cases heq
  obtain rfl : y = _ := hy.trans hseeking.symm
  exact unswept_comes hrest' fun _ => Nat.succ_pos _

/-- A thread acts until it has done its task. The state is given by what changes meanwhile: the
thread, the heap and the answers on record. -/
theorem leads_comes {chores : List Chore} {epoch : Int}
    {put : Sweeper → Heap (Diary ρ) → List (Int × BlockRef) → RuntimeSystem ρ}
    (hact : ∀ s h answered, s.task.isFree = false → s.chores = chores →
      Leads policy finalizer (put s h answered)
        (put (s.act policy.noting h).1 (s.act policy.noting h).2
          (answered ++
            ((finalizing (s.act policy.noting h).2.notes).drop (finalizing h.notes).length).map
              (epoch, ·))))
    (hcomes : Task.Comes policy.noting (s.task, h.depot s.place) (t', d'))
    (hsize : h.uniform.size = largestUniform + 1) (hplace : s.place ∈ Heap.allRequests)
    (hchores : s.chores = chores) (answered : List (Int × BlockRef)) :
    ∃ queue sent, finalizing (h.setDepot s.place d').notes = finalizing h.notes ++ sent ∧
      Leads policy finalizer (put s h answered) (put { s with task := t', queue := queue }
        (h.setDepot s.place d') (answered ++ sent.map (epoch, ·))) := by
  generalize hx : (s.task, h.depot s.place) = x at hcomes
  induction hcomes using Relation.ReflTransGen.head_induction_on generalizing s h answered with
  | refl =>
    obtain ⟨rfl, rfl⟩ := Prod.mk.inj hx
    refine ⟨s.queue, [], ?_, ?_⟩
    · rw [Heap.setDepot_depot, List.append_nil]
    · rw [Heap.setDepot_depot, List.map_nil, List.append_nil]
      exact .refl _
  | @head x y hacts hcomes ih =>
    subst hx
    by_cases hfree : s.task.isFree = true
    · exact ih hsize hplace hchores answered (acts_of_isFree hfree hacts).symm
    · obtain ⟨sent, -, hnotes, -⟩ := s.task.act_sends policy (h.depot s.place)
      have hstep := hact s h answered (Bool.eq_false_iff.mpr hfree) hchores
      have hsent : finalizing (s.act policy.noting h).2.notes = finalizing h.notes ++ sent := by
        rw [Sweeper.act_eq, Heap.notes, Heap.setDepot_arena]
        exact hnotes
      rw [hsent, List.drop_left] at hstep
      obtain ⟨queue, sent', hnotes', hleads⟩ :=
        @ih (s.act policy.noting h).1 (s.act policy.noting h).2
        (by rw [Sweeper.act_eq]; exact (Heap.size_setDepot _).trans hsize) hplace hchores
        (answered ++ sent.map (epoch, ·)) (by
          rw [Sweeper.act_eq, hacts]
          exact Prod.ext rfl (Heap.depot_setDepot hsize hplace _))
      have hheap : (s.act policy.noting h).2.setDepot (s.act policy.noting h).1.place d' =
          h.setDepot s.place d' := by
        rw [Sweeper.act_eq, Heap.setDepot_setDepot]
      rw [hheap] at hnotes' hleads
      refine ⟨queue, sent ++ sent', ?_, ?_⟩
      · rw [hnotes', hsent, List.append_assoc]
      · rw [List.map_append, ← List.append_assoc]
        exact hstep.trans hleads

end Acts

/-! ### The collector -/

section Collector

variable {s : Sweeper} {h : Heap (Diary ρ)} {answered : List (Int × BlockRef)}

/-- The runtime with another collector, another heap and other answers on record. -/
def withCollector (e : RuntimeSystem ρ) (s : Sweeper) (h : Heap (Diary ρ))
    (answered : List (Int × BlockRef)) : RuntimeSystem ρ :=
  { e with worker := { e.worker with heap := h }, collector := s, answered := answered }

theorem toil_of_not_isFree (policy : Policy ρ) (epoch : Int) (h : Heap ρ)
    (hs : s.task.isFree = false) : s.toil policy epoch h = s.act policy h := by
  obtain ⟨chores, tally, place, task, queue⟩ := s
  cases task with
  | idle => cases hs
  | counted tally' => cases hs
  | _ => rfl

theorem leads_toil (hstage : e.stage = .sweeping) (hchores : s.chores ≠ []) :
    Leads policy finalizer (e.withCollector s h answered)
      (e.withCollector (s.toil policy.noting e.epoch h).1 (s.toil policy.noting e.epoch h).2
        (answered ++ ((finalizing (s.toil policy.noting e.epoch h).2.notes).drop
          (finalizing h.notes).length).map (e.epoch, ·))) := by
  have hworld : (e.withCollector s h answered).Admits .collect := fun hpreparing =>
    absurd (hstage.symm.trans hpreparing) nofun
  have hstep : (e.withCollector s h answered).step policy finalizer .collect =
      e.withCollector (s.toil policy.noting e.epoch h).1 (s.toil policy.noting e.epoch h).2
        (answered ++ ((finalizing (s.toil policy.noting e.epoch h).2.notes).drop
          (finalizing h.notes).length).map (e.epoch, ·)) := by
    rw [step, collect, show (e.withCollector s h answered).stage = .sweeping from hstage]
    exact if_neg hchores
  exact hstep ▸ Leads.step hworld

/-- The collector goes on without a sweep. -/
theorem leads_quiet (hstage : e.stage = .sweeping) (hchores : s.chores ≠ []) {s' : Sweeper}
    {h' : Heap (Diary ρ)} (htoil : s.toil policy.noting e.epoch h = (s', h'))
    (hnotes : h'.notes = h.notes) :
    Leads policy finalizer (e.withCollector s h answered) (e.withCollector s' h' answered) := by
  have hleads : Leads policy finalizer (e.withCollector s h answered) _ := leads_toil hstage hchores
  rw [htoil, hnotes, List.drop_length, List.map_nil, List.append_nil] at hleads
  exact hleads

/-- The collector has its task at a shelf and does it. -/
theorem leads_counted (hstage : e.stage = .sweeping) {c : Chore} {rest : List Chore}
    (hchores : s.chores = c :: rest) (hsize : h.uniform.size = largestUniform + 1)
    (hplace : s.place ∈ Heap.allRequests) {tally : Tally} {d : Depot (Diary ρ)}
    (hcomes : Task.Comes policy.noting (s.task, h.depot s.place) (.counted tally, d)) :
    ∃ queue sent, finalizing (h.setDepot s.place d).notes = finalizing h.notes ++ sent ∧
      Leads policy finalizer (e.withCollector s h answered)
        (e.withCollector ⟨rest, tally, s.place, .idle, queue⟩ (h.setDepot s.place d)
          (answered ++ sent.map (e.epoch, ·))) := by
  have hact (s : Sweeper) (h : Heap (Diary ρ)) (answered : List (Int × BlockRef))
      (hbusy : s.task.isFree = false) (hc : s.chores = c :: rest) :
      Leads policy finalizer (e.withCollector s h answered)
        (e.withCollector (s.act policy.noting h).1 (s.act policy.noting h).2
          (answered ++
            ((finalizing (s.act policy.noting h).2.notes).drop (finalizing h.notes).length).map
              (e.epoch, ·))) := by
    rw [← toil_of_not_isFree policy.noting e.epoch h hbusy]
    exact leads_toil hstage (hc ▸ List.cons_ne_nil _ _)
  obtain ⟨queue, sent, hnotes, hleads⟩ := leads_comes hact hcomes hsize hplace hchores answered
  refine ⟨queue, sent, hnotes,
    hleads.trans (leads_quiet hstage (hchores ▸ List.cons_ne_nil c rest) ?_ rfl)⟩
  rw [Sweeper.toil, hchores]
  rfl

/-- The collector does one of its chores. -/
theorem leads_chore (policy : Policy ρ) (finalizer : Finalizer (Diary ρ))
    (hstage : e.stage = .sweeping) (hs : h.Sound) {c : Chore} {rest : List Chore}
    (hfit : Chore.Fit (c :: rest)) (tally : Tally) (place : Request) (queue : List BlockRef)
    (answered : List (Int × BlockRef)) :
    ∃ tally' place' queue' h' sent, Heap.Tidies policy.noting h h' ∧
      finalizing h'.notes = finalizing h.notes ++ sent ∧
      Leads policy finalizer (e.withCollector ⟨c :: rest, tally, place, .idle, queue⟩ h answered)
        (e.withCollector ⟨rest, tally', place', .idle, queue'⟩ h'
          (answered ++ sent.map (e.epoch, ·))) := by
  have hnone {s s' : Sweeper} {h' : Heap (Diary ρ)} (hchores : s.chores ≠ [])
      (htoil : s.toil policy.noting e.epoch h = (s', h')) (hnotes : h'.notes = h.notes) :
      finalizing h'.notes = finalizing h.notes ++ [] ∧
        Leads policy finalizer (e.withCollector s h answered)
          (e.withCollector s' h' (answered ++ [].map (e.epoch, ·))) := by
    rw [hnotes, List.map_nil, List.append_nil, List.append_nil]
    exact ⟨rfl, leads_quiet hstage hchores htoil hnotes⟩
  cases c with
  | sweep k =>
    obtain ⟨⟨hk, hlarge, -⟩, -⟩ := hfit
    obtain ⟨tally', d, hsweep, htidies, -, -⟩ :=
      Depot.sweep_spec policy.noting (hs.good k hk) hlarge tally
    obtain ⟨t, hcomes, hshows⟩ := Task.does_sweep tally (h.depot k)
    rw [hsweep] at hcomes hshows
    obtain rfl : t = .counted tally' := hshows
    obtain ⟨queue', sent, hnotes, hleads⟩ := leads_counted
      (s := ⟨.sweep k :: rest, tally, k, .seeking (.all tally), queue⟩) hstage
      rfl hs.size_eq hk hcomes
    exact ⟨tally', k, queue', _, sent, .of_depot hs.size_eq hk htidies, hnotes,
      (leads_quiet hstage (List.cons_ne_nil _ _) rfl rfl).trans hleads⟩
  | free =>
    obtain ⟨tally', d, hsweep, htidies, -, -⟩ :=
      Depot.sweepAndFree_spec policy.noting (hs.good _ Heap.large_mem) .large tally
    obtain ⟨t, hcomes, hshows⟩ := Task.does_sweepAndFree .large tally (h.depot ⟨.large, 0⟩)
    rw [hsweep] at hcomes hshows
    obtain rfl : t = .counted tally' := hshows
    obtain ⟨queue', sent, hnotes, hleads⟩ := leads_counted
      (s := ⟨.free :: rest, tally, ⟨.large, 0⟩, .seeking (.free .large 0 tally), queue⟩) hstage
      rfl hs.size_eq Heap.large_mem hcomes
    exact ⟨tally', _, queue', _, sent, .of_depot hs.size_eq Heap.large_mem htidies, hnotes,
      (leads_quiet hstage (List.cons_ne_nil _ _) rfl rfl).trans hleads⟩
  | commit =>
    exact ⟨tally, place, queue, { h with arena := (h.arena.addBytes tally.liveBytes).2 }, [],
      .single (.idle ⟨rfl, rfl, rfl⟩), hnone (List.cons_ne_nil _ _) rfl rfl⟩
  | report site =>
    exact ⟨{}, place, queue, { h with arena := h.arena.reportSweep e.epoch site tally }, [],
      .single (.idle ⟨rfl, rfl, rfl⟩), hnone (List.cons_ne_nil _ _) rfl rfl⟩

/-- The collector does all of its chores. -/
theorem leads_chores (policy : Policy ρ) (finalizer : Finalizer (Diary ρ))
    (hstage : e.stage = .sweeping) (hs : h.Sound) {chores : List Chore} (hfit : Chore.Fit chores)
    (tally : Tally) (place : Request) (queue : List BlockRef) (answered : List (Int × BlockRef)) :
    ∃ tally' place' queue' h' sent, Heap.Tidies policy.noting h h' ∧
      finalizing h'.notes = finalizing h.notes ++ sent ∧
      Leads policy finalizer (e.withCollector ⟨chores, tally, place, .idle, queue⟩ h answered)
        (e.withCollector ⟨[], tally', place', .idle, queue'⟩ h'
          (answered ++ sent.map (e.epoch, ·))) := by
  induction chores generalizing h tally place queue answered with
  | nil =>
    refine ⟨tally, place, queue, h, [], .refl, (List.append_nil _).symm, ?_⟩
    rw [List.map_nil, List.append_nil]
    exact .refl _
  | cons c rest ih =>
    obtain ⟨tally₁, place₁, queue₁, h₁, sent₁, htidies, hnotes, hleads⟩ :=
      leads_chore policy finalizer hstage hs hfit tally place queue answered
    obtain ⟨tally₂, place₂, queue₂, h₂, sent₂, htidies₂, hnotes₂, hleads₂⟩ :=
      ih (Heap.Tidies.sound htidies hs) hfit.tail tally₁ place₁ queue₁ _
    refine ⟨tally₂, place₂, queue₂, h₂, sent₁ ++ sent₂, htidies.trans htidies₂, ?_, ?_⟩
    · rw [hnotes₂, hnotes, List.append_assoc]
    · rw [List.map_append, ← List.append_assoc]
      exact hleads.trans hleads₂

theorem leads_collect (hstage : e.stage ≠ .preparing) (h : e.collect policy finalizer = e') :
    Leads policy finalizer e e' := by
  have hworld : e.Admits .collect := fun hpreparing => absurd hpreparing hstage
  exact h ▸ .step hworld

/-- The runtime when the collector has handed over what was set aside. -/
def submitted (policy : Policy ρ) (finalizer : Finalizer (Diary ρ)) (e : RuntimeSystem ρ) :
    RuntimeSystem ρ :=
  { e with
    worker := e.worker.step policy.noting finalizer (.add ⟨e.collector.queue.toArray⟩)
    stage := .finishing
    collector := { e.collector with queue := [] } }

/-- The runtime when the collector has finished its epoch. -/
def finished (e : RuntimeSystem ρ) : RuntimeSystem ρ :=
  { e with
    worker := { e.worker with progress := { e.worker.progress with finished := e.epoch } }
    stage := .scheduling }

theorem collect_sweeping (hstage : e.stage = .sweeping) (hchores : e.collector.chores = [])
    (hsweepers : e.heap.arena.sweepers = 0) :
    e.collect policy finalizer = { e with stage := .joining } := by
  rw [collect, hstage]
  dsimp only
  rw [if_pos hchores, if_pos hsweepers]

theorem collect_joining (hstage : e.stage = .joining) (hassistants : e.assistants = []) :
    e.collect policy finalizer = { e with stage := .submitting } := by
  rw [collect, hstage]
  dsimp only
  rw [hassistants]

theorem collect_submitting (hstage : e.stage = .submitting) :
    e.collect policy finalizer = e.submitted policy finalizer := by
  rw [collect, hstage]
  rfl

theorem collect_finishing (hstage : e.stage = .finishing)
    (hstarted : e.epoch ≤ e.worker.progress.started) :
    e.collect policy finalizer = e.finished := by
  have hfinish : e.worker.progress.finish e.epoch =
      .ok { e.worker.progress with finished := e.epoch } := if_pos hstarted
  rw [collect, hstage]
  dsimp only
  rw [hfinish]
  rfl

/-- With its chores done and no sweep under way, the collector ends its cycle. -/
theorem leads_resting (policy : Policy ρ) (finalizer : Finalizer (Diary ρ))
    (hstage : e.stage = .sweeping) (hchores : e.collector.chores = [])
    (hsweepers : e.heap.arena.sweepers = 0) (hassistants : e.assistants = [])
    (hstarted : e.epoch ≤ e.worker.progress.started) :
    ∃ e', Leads policy finalizer e e' ∧ e'.mutators = e.mutators ∧ e'.answered = e.answered ∧
      e'.worker.post = e.worker.post ∧ e'.worker.tasks = e.worker.tasks.schedule e.epoch ∧
      e'.worker.progress.finished = e.epoch := by
  have hjoining : Leads policy finalizer e { e with stage := .joining } :=
    leads_collect (by simp [hstage]) (collect_sweeping hstage hchores hsweepers)
  have hsubmitting : Leads policy finalizer { e with stage := .joining }
      { e with stage := .submitting } :=
    leads_collect (by simp) (collect_joining rfl hassistants)
  have hfinishing : Leads policy finalizer { e with stage := .submitting }
      (e.submitted policy finalizer) :=
    leads_collect (by simp) (collect_submitting rfl)
  have hscheduling : Leads policy finalizer (e.submitted policy finalizer)
      (e.submitted policy finalizer).finished :=
    leads_collect (by simp [submitted]) (collect_finishing rfl hstarted)
  have hlast : Leads policy finalizer (e.submitted policy finalizer).finished
      ((e.submitted policy finalizer).finished.scheduled policy finalizer) :=
    leads_collect (by simp [finished]) (collect_scheduling rfl)
  exact ⟨_, (hjoining.trans hsubmitting).trans (hfinishing.trans (hscheduling.trans hlast)), rfl,
    rfl, rfl, rfl, rfl⟩

/-- The worker does some moves in a row. -/
theorem leads_works (n : Nat) :
    Leads policy finalizer e { e with worker := e.worker.works policy.noting finalizer n } := by
  induction n generalizing e with
  | zero => exact .refl e
  | succ n ih =>
    have hwork : Leads policy finalizer e (e.step policy finalizer .work) := .step trivial
    exact hwork.trans ih

/-- If no mutator is in the middle of a sweep, the collector ends its cycle and the worker serves
the epoch, whatever the mutators have in their queues. -/
theorem leads_finalized (policy : Policy ρ) (finalizer : Finalizer (Diary ρ)) (he : e.Sound)
    (hs : e.heap.Sound) (hstage : e.stage = .sweeping) (hidle : e.collector.task = .idle)
    (hassistants : e.assistants = []) (hmutators : ∀ s ∈ e.mutators, s.task.isSweeping = false)
    (hpost : e.worker.post = .waiting) (htasks : e.worker.tasks.epoch = none) :
    ∃ e' h sent, Leads policy finalizer e e' ∧ Heap.Tidies policy.noting e.heap h ∧
      finalizing h.notes = finalizing e.heap.notes ++ sent ∧
      e'.answered = e.answered ++ sent.map (e.epoch, ·) ∧ e'.mutators = e.mutators ∧
      e'.worker.progress.finalized = e.epoch := by
  have hdiligent := he.standing
  rw [hstage] at hdiligent
  obtain ⟨tally, place, queue, h, sent, htidies, hnotes, hchores⟩ :=
    leads_chores policy finalizer hstage hs hdiligent.fit e.collector.tally e.collector.place
      e.collector.queue e.answered
  have hself : e.withCollector ⟨e.collector.chores, e.collector.tally, e.collector.place,
      .idle, e.collector.queue⟩ e.heap e.answered = e := by
    rw [← hidle]
    rfl
  rw [hself] at hchores
  have hswept := hchores.sound he
  have hsweepers : h.arena.sweepers = 0 := by
    refine hswept.roster.sweepers.trans (List.countP_eq_zero.mpr fun s hs => ?_)
    rcases List.mem_cons.mp hs with rfl | hs
    · exact Bool.false_ne_true
    · rcases List.mem_append.mp hs with hs | hs
      · exact absurd (hassistants ▸ hs) List.not_mem_nil
      · exact Bool.eq_false_iff.mp (hmutators s hs)
  have hstage₁ : (e.withCollector ⟨[], tally, place, .idle, queue⟩ h
      (e.answered ++ sent.map (e.epoch, ·))).stage = .sweeping := hstage
  obtain ⟨e₁, hresting, hmutators₁, hanswered, hpost₁, htasks₁, hfinished⟩ :=
    leads_resting policy finalizer hstage₁ rfl hsweepers hassistants hswept.calendar.started_eq.ge
  have hepoch : e₁.worker.tasks.epoch = some e.epoch := by
    rw [htasks₁, FinalizerTasks.schedule]
    exact congrArg (fun t => some (Option.elim t e.epoch (max · e.epoch))) htasks
  obtain ⟨n, hworks⟩ :=
    FinalizerWorker.serve_alone policy.noting finalizer (hpost₁.trans hpost) hepoch hfinished.ge
  refine ⟨_, h, sent, (hchores.trans hresting).trans (leads_works n), htidies, hnotes,
    hanswered, hmutators₁, ?_⟩
  rw [hworks]

end Collector

/-! ### A mutator -/

section Mutator

variable {s : Sweeper} {h : Heap (Diary ρ)} {answered : List (Int × BlockRef)}

/-- The runtime with one mutator, another heap and other answers on record. -/
def withMutator (e : RuntimeSystem ρ) (s : Sweeper) (h : Heap (Diary ρ))
    (answered : List (Int × BlockRef)) : RuntimeSystem ρ :=
  { e with worker := { e.worker with heap := h }, mutators := [s], answered := answered }

/-- A collector without assistants is about to begin its first cycle, and there is a mutator. -/
def begun (h : Heap (Diary ρ)) : RuntimeSystem ρ :=
  { new h 0 with
    worker := { (new h 0).worker with progress := { scheduled := 1, started := 1, gate := 1 } }
    stage := .preparing
    epoch := 1
    mutators := [{}] }

/-- The runtime when the collector has begun its cycle. -/
def prepared (e : RuntimeSystem ρ) (h : Heap (Diary ρ)) : RuntimeSystem ρ :=
  { e with
    worker := { e.worker with heap := h }
    stage := .sweeping
    collector := .collector
    assistants := List.replicate e.helpers .assistant }

theorem collect_preparing {h' : Heap (Diary ρ)} (hstage : e.stage = .preparing)
    (hprepare : Heap.prepare.apply e.heap = (.ok (), h')) :
    e.collect policy finalizer = e.prepared h' := by
  rw [collect, hstage]
  dsimp only
  rw [hprepare]
  rfl

theorem leads_begun : Leads policy finalizer (new h 0) (begun h) := by
  refine ⟨[.request, .begin 1, .attach], ⟨trivial, ?_, trivial, trivial⟩, rfl⟩
  exact show (0 : Int) < 1 from Int.zero_lt_one

/-- A cycle has begun, and a mutator wants a page. -/
def called (h h' : Heap (Diary ρ)) (r : Request) : RuntimeSystem ρ :=
  withMutator ((begun h).prepared h') { place := r, task := .looking r h'.epoch } h' []

theorem leads_called {h' : Heap (Diary ρ)} {r : Request}
    (hprepare : Heap.prepare.apply h = (.ok (), h')) (hr : r.key ∈ Heap.allRequests) :
    Leads policy finalizer (new h 0) (called h h' r) := by
  have hworld : (begun h).Admits .collect := by
    rintro - s hs
    obtain rfl := List.mem_singleton.mp hs
    exact ⟨rfl, rfl⟩
  have hcollect : (begun h).collect policy finalizer = (begun h).prepared h' :=
    collect_preparing rfl hprepare
  have hprepared : Leads policy finalizer (begun h) ((begun h).prepared h') := by
    rw [← hcollect]
    exact .step hworld
  have hcall : ((begun h).prepared h').Admits (.call 0 r) := hr
  have hcalled : ((begun h).prepared h').step policy finalizer (.call 0 r) = called h h' r := rfl
  refine leads_begun.trans (hprepared.trans ?_)
  rw [← hcalled]
  exact .step hcall

/-- The mutator gets its page. -/
theorem leads_got (hsize : h.uniform.size = largestUniform + 1)
    (hplace : s.place ∈ Heap.allRequests) {t : Task} {d : Depot (Diary ρ)}
    (hcomes : Task.Comes policy.noting (s.task, h.depot s.place) (t, d))
    (answered : List (Int × BlockRef)) :
    ∃ queue sent, finalizing (h.setDepot s.place d).notes = finalizing h.notes ++ sent ∧
      Leads policy finalizer (e.withMutator s h answered)
        (e.withMutator { s with task := t, queue := queue } (h.setDepot s.place d)
          (answered ++ sent.map (e.epoch, ·))) := by
  have hact (s' : Sweeper) (h : Heap (Diary ρ)) (answered : List (Int × BlockRef))
      (_ : s'.task.isFree = false) (_ : s'.chores = s.chores) :
      Leads policy finalizer (e.withMutator s' h answered)
        (e.withMutator (s'.act policy.noting h).1 (s'.act policy.noting h).2
          (answered ++
            ((finalizing (s'.act policy.noting h).2.notes).drop (finalizing h.notes).length).map
              (e.epoch, ·))) := by
    have hadmits : (e.withMutator s' h answered).Admits (.act 0) := trivial
    exact .step hadmits
  exact leads_comes hact hcomes hsize hplace rfl answered

end Mutator

end SweptHeap.RuntimeSystem
