import Mathlib
import SweptHeap.Proofs.RuntimeSystem.Invariant

/-!
# The cycle of a collector

Stage by stage, the collector leaves the books in order. It goes on to hand over what it has when no
page waits for the sweep and none is being swept; from then on there is nothing to find until the
next cycle. When it schedules its epoch, what is not due yet is in the queues of mutators.
-/

namespace SweptHeap.RuntimeSystem

variable {ρ : Type} {policy : Policy ρ} {finalizer : Finalizer (Diary ρ)}
  {e : RuntimeSystem ρ} {s : Sweeper}

theorem Sound.begin (he : e.Sound) {epoch : Int} (hepoch : e.Admits (.begin epoch)) :
    (e.step policy finalizer (.begin epoch)).Sound := by
  rw [step]
  split_ifs with hstage
  · replace hepoch : e.worker.progress.started < epoch := hepoch
    rw [he.calendar.started_eq] at hepoch
    cases hstart : e.worker.progress.start epoch with
    | error fault => exact he
    | ok p =>
      obtain ⟨hstarted, hfinished, hfinalized⟩ := Progress.start_ok hstart
      have hcleared := he.standing
      rw [hstage] at hcleared
      refine ⟨⟨hstarted, ?_, ?_, fun u hu => ?_, fun a ha => ?_, he.calendar.late⟩,
        ⟨he.roster.placed, he.roster.sweepers⟩, ⟨he.ledger.balance, fun hne => absurd rfl hne⟩,
        ⟨he.served.sound.count hfinished.ge, he.served.stopping,
          hfinalized.trans he.served.finalized_eq, fun u hu => ?_⟩, hcleared⟩
      · exact hfinished.le.trans (he.calendar.finished_le.trans hepoch.le)
      · have hpos := he.calendar.epoch_pos.1
        exact ⟨hpos.trans hepoch.le, fun _ => hpos.trans_lt hepoch⟩
      · obtain ⟨hpos, hle, -⟩ := he.calendar.scheduled u hu
        exact ⟨hpos, hle.trans hepoch.le, fun _ => hle.trans_lt hepoch⟩
      · obtain ⟨hpos, hle⟩ := he.calendar.answered a ha
        exact ⟨hpos, hle.trans hepoch.le⟩
      · obtain ⟨due, h, hrest⟩ := he.served.promised u hu
        exact ⟨due, h.congr (List.prefix_refl _) h.awaits hfinalized (List.prefix_refl _), hrest⟩
  · exact he

theorem placed_of_fit (hfit : Chore.Fit s.chores) (hplace : s.place.key ∈ Heap.allRequests) :
    s.Placed := by
  refine ⟨hplace, ?_⟩
  generalize s.chores = chores at hfit
  induction chores with
  | nil => nofun
  | cons c rest ih =>
    intro r hr
    rcases List.mem_cons.mp hr with rfl | hr
    · rw [Heap.key_eq_of_mem hfit.1.1]
      exact hfit.1.1
    · exact ih hfit.tail r hr

/-- The world has stopped, and the cycle begins. -/
theorem Sound.prepare (he : e.Sound) (hstage : e.stage = .preparing)
    (hworld : ∀ s ∈ e.mutators, s.task.isFree = true ∧ s.queue = []) :
    (e.collect policy finalizer).Sound := by
  have hcleared := he.standing
  rw [hstage] at hcleared
  obtain ⟨hquiet, hassistants, hcollector⟩ := hcleared
  have hmutators : e.mutators.flatMap Sweeper.queue = [] :=
    List.flatMap_eq_nil_iff.mpr fun s hs => (hworld s hs).2
  have hqueues : e.queues = [] := by simp [queues, threads, hassistants, hcollector, hmutators]
  have hbalance := he.ledger.balance
  rw [hqueues] at hbalance
  have hawaits := Heap.prepare_awaits e.heap
  rw [collect, hstage]
  dsimp only
  generalize Heap.prepare.apply e.heap = done at hawaits
  obtain ⟨result, h⟩ := done
  have hcontinues := he.served.tend (congrArg Handoff.toList hawaits.pending_eq)
  have hresting : e.stage ≠ .resting := by simp [hstage]
  have hplace : Request.key ⟨.uniform, 0⟩ ∈ Heap.allRequests :=
    Heap.mem_allRequests.mpr (.inl ⟨rfl, Nat.zero_le _⟩)
  cases result with
  | error fault =>
    refine he.advance hcontinues he.calendar.finished_le (fun _ => hresting)
      ⟨he.roster.placed, hawaits.sweepers_eq.trans he.roster.sweepers⟩
      ⟨he.ledger.balance, fun _ => ?_⟩ trivial
    change e.queues.Subperm _
    rw [hqueues]
    exact List.nil_subperm
  | ok u =>
    have hnone : queues { e with
        worker := { e.worker with heap := h }
        stage := .sweeping
        collector := .collector
        assistants := List.replicate e.helpers .assistant } = [] := by
      simp [queues, threads, hmutators, Sweeper.collector, Sweeper.assistant]
    refine he.advance hcontinues he.calendar.finished_le (fun _ => hresting) ⟨fun s hs => ?_, ?_⟩
      ⟨?_, fun _ => ?_⟩ (Sweeper.diligent_collector _)
    · rcases List.mem_cons.mp hs with rfl | hs
      · exact placed_of_fit Hand.fit_collector hplace
      · rcases List.mem_append.mp hs with hs | hs
        · rw [(List.mem_replicate.mp hs).2]
          exact placed_of_fit Hand.fit_assistant hplace
        · exact he.roster.placed s (List.mem_cons_of_mem _ (List.mem_append_right _ hs))
    · refine (hawaits.sweepers_eq.trans hquiet.2).trans
        (List.countP_eq_zero.mpr fun s hs => ?_).symm
      rcases List.mem_cons.mp hs with rfl | hs
      · exact Bool.false_ne_true
      · rcases List.mem_append.mp hs with hs | hs
        · rw [(List.mem_replicate.mp hs).2]
          exact Bool.false_ne_true
        · rw [(Task.rest_of_isFree (hworld s hs).1).2.2.2]
          exact Bool.false_ne_true
    · rw [hnone]
      exact hbalance
    · rw [hnone]
      exact List.nil_subperm

/-- The collector sweeps, or goes on when nobody sweeps any more. -/
theorem Sound.sweep (he : e.Sound) (hstage : e.stage = .sweeping) :
    (e.collect policy finalizer).Sound := by
  have hdiligent := he.standing
  rw [hstage] at hdiligent
  have hresting : e.stage ≠ .resting := by simp [hstage]
  rw [collect, hstage]
  dsimp only
  split_ifs with hchores hquiet
  · refine he.advance (he.served.tend rfl) he.calendar.finished_le (fun _ => hresting)
      ⟨he.roster.placed, he.roster.sweepers⟩ ⟨he.ledger.balance, fun _ => ?_⟩
      ⟨fun k hk => hdiligent.past k hk (by simp [hchores]), hquiet⟩
    exact he.ledger.recent (hstage ▸ nofun)
  · exact he
  · have hmem : e.collector ∈ e.threads := List.mem_cons_self
    have hplaced := he.roster.placed _ hmem
    obtain ⟨sent, hgoes⟩ := e.collector.goes_toil policy e.epoch hplaced (he.roster.counted hmem)
    have hthreads : e.threads = [] ++ e.collector :: (e.assistants ++ e.mutators) := rfl
    refine he.goes hthreads rfl (hplaced.toil _ _ _) hgoes ?_
    rw [hstage]
    exact hdiligent.toil policy e.epoch hgoes

/-- The collector takes over the queue of an assistant. -/
theorem Sound.join (he : e.Sound) (hstage : e.stage = .joining) :
    (e.collect policy finalizer).Sound := by
  have hquiet := he.standing
  rw [hstage] at hquiet
  have hresting : e.stage ≠ .resting := by simp [hstage]
  rw [collect, hstage]
  dsimp only
  split
  · rename_i hassistants
    refine he.advance (he.served.tend rfl) he.calendar.finished_le (fun _ => hresting)
      ⟨he.roster.placed, he.roster.sweepers⟩ ⟨he.ledger.balance, fun _ => ?_⟩ ⟨hquiet, hassistants⟩
    exact he.ledger.recent (hstage ▸ nofun)
  · rename_i s rest hassistants
    split_ifs with hchores
    · have hthreads : e.threads = e.collector :: s :: (rest ++ e.mutators) := by
        simp [threads, hassistants]
      have hqueues : queues { e with
          stage := .joining
          collector := { e.collector with queue := e.collector.queue ++ s.queue }
          assistants := rest } = e.queues := by
        rw [queues, queues, hthreads]
        simp [threads]
      have hold {u : Sweeper} (hu : u ∈ rest ++ e.mutators) : u ∈ e.threads :=
        hthreads ▸ List.mem_cons_of_mem _ (List.mem_cons_of_mem _ hu)
      have hcollector : e.collector ∈ e.threads := List.mem_cons_self
      refine he.advance (he.served.tend rfl) he.calendar.finished_le (fun _ => hresting)
        ⟨fun u hu => ?_, ?_⟩ ⟨?_, fun _ => ?_⟩ hquiet
      · rcases List.mem_cons.mp hu with rfl | hu
        · exact ⟨(he.roster.placed _ hcollector).place, (he.roster.placed _ hcollector).chores⟩
        · exact he.roster.placed u (hold hu)
      · refine hquiet.2.trans (List.countP_eq_zero.mpr fun u hu => ?_).symm
        rcases List.mem_cons.mp hu with rfl | hu
        · have hidle : e.collector.task.isSweeping = false := he.roster.isSweeping hquiet hcollector
          exact Bool.eq_false_iff.mp hidle
        · exact Bool.eq_false_iff.mp (he.roster.isSweeping hquiet (hold hu))
      · rw [hqueues]
        exact he.ledger.balance
      · rw [hqueues]
        exact he.ledger.recent (hstage ▸ nofun)
    · exact he

theorem Sound.submit (he : e.Sound) (hstage : e.stage = .submitting) :
    (e.collect policy finalizer).Sound := by
  have hquiet := he.standing
  rw [hstage] at hquiet
  have hthreads : e.threads = [] ++ e.collector :: (e.assistants ++ e.mutators) := rfl
  rw [collect, hstage]
  refine he.handOver hthreads rfl (fun _ => hstage ▸ nofun) (fun _ => hstage ▸ nofun) ?_
  refine ⟨?_, hquiet.2, rfl⟩
  rw [Quiet, heap, step_add_heap]
  exact hquiet.1

theorem Sound.finish (he : e.Sound) (hstage : e.stage = .finishing) :
    (e.collect policy finalizer).Sound := by
  have hcleared := he.standing
  rw [hstage] at hcleared
  have hfinish :
      e.worker.progress.finish e.epoch = .ok { e.worker.progress with finished := e.epoch } :=
    if_pos he.calendar.started_eq.ge
  rw [collect, hstage]
  simp only [hfinish]
  refine he.advance (FinalizerWorker.continues_count he.served.sound he.served.finalized_eq rfl
    he.calendar.finished_le rfl) le_rfl (fun _ => hstage ▸ nofun)
    ⟨he.roster.placed, he.roster.sweepers⟩
    ⟨he.ledger.balance, fun _ => he.ledger.recent (hstage ▸ nofun)⟩ ⟨hcleared, le_rfl⟩

theorem Served.finalized_lt (hs : e.Served) (hpos : 0 < e.epoch)
    (hlt : ∀ u ∈ e.worker.scheduled, u < e.epoch) : e.worker.progress.finalized < e.epoch := by
  have hlast : e.worker.progress.finalized ∈ 0 :: e.worker.reported :=
    hs.finalized_eq ▸ List.getLastD_mem_cons
  rcases List.mem_cons.mp hlast with heq | hmem
  · exact heq ▸ hpos
  · exact hlt _ (hs.sound.scheduled _ (List.mem_append_left _ hmem))

/-- The runtime when the collector has scheduled its epoch. What is in the queues of the mutators is
late. -/
def scheduled (policy : Policy ρ) (finalizer : Finalizer (Diary ρ)) (e : RuntimeSystem ρ) :
    RuntimeSystem ρ :=
  { e with
    worker := e.worker.step policy.noting finalizer (.schedule e.epoch)
    stage := .resting
    late := e.late ++ (e.mutators.flatMap Sweeper.queue).map (e.epoch, ·) }

theorem collect_scheduling (hstage : e.stage = .scheduling) :
    e.collect policy finalizer = e.scheduled policy finalizer := by
  rw [collect, hstage]
  rfl

theorem lateFor_scheduled (v : Int) : (e.scheduled policy finalizer).lateFor v =
    e.lateFor v ++ if v = e.epoch then e.mutators.flatMap Sweeper.queue else [] := by
  by_cases hv : v = e.epoch
  · simp [lateFor, scheduled, List.filter_map, Function.comp_def, hv]
  · simp [lateFor, scheduled, List.filter_map, Function.comp_def, hv, Ne.symm hv]

/-- An epoch stands for all that the policy sent to finalizers up to now, but for what is in the
queues of the mutators. -/
theorem Sound.promised_schedule (he : e.Sound) (hcleared : e.Cleared) (hpos : 0 < e.epoch)
    (hrecent : e.queues.Subperm (e.answeredIn e.epoch))
    (hlt : ∀ u ∈ e.worker.scheduled, u < e.epoch) (hadmits : e.worker.Admits (.schedule e.epoch))
    {u : Int} (hu : u ∈ e.worker.scheduled ++ [e.epoch]) :
    ∃ due, (e.scheduled policy finalizer).worker.Promised u due ∧
      ((e.scheduled policy finalizer).answeredUpTo u).Perm
        (due ++ (e.scheduled policy finalizer).lateFor u) ∧
      ((e.scheduled policy finalizer).lateFor u).Subperm
        ((e.scheduled policy finalizer).answeredIn u) := by
  rcases List.mem_append.mp hu with hold | hnew
  · obtain ⟨due, h, hrest⟩ := he.served.promised u hold
    have hpromised : (e.worker.step policy.noting finalizer (.schedule e.epoch)).Promised u due :=
      h.step he.served.sound hadmits
    refine ⟨due, hpromised, ?_⟩
    rw [lateFor_scheduled, if_neg (hlt u hold).ne, List.append_nil]
    exact hrest
  · obtain rfl := List.mem_singleton.mp hnew
    have hnone : e.lateFor e.epoch = [] := by
      refine List.map_eq_nil_iff.mpr (List.filter_eq_nil_iff.mpr fun a ha => ?_)
      simpa using (hlt _ (he.calendar.late a ha)).ne
    have hqueues : e.queues = e.mutators.flatMap Sweeper.queue := by
      simp [queues, threads, hcleared.2.1, hcleared.2.2]
    have hall : (e.scheduled policy finalizer).answeredUpTo e.epoch = e.answered.map Prod.snd := by
      refine congrArg (List.map Prod.snd) (List.filter_eq_self.mpr fun a ha => ?_)
      simpa using (he.calendar.answered a ha).2
    have hserves : ∀ v ∈ e.worker.post.epoch?, (v : WithTop Int) < (e.epoch : WithTop Int) :=
      fun v hv =>
      WithTop.coe_lt_coe.mpr (hlt v (he.served.sound.scheduled v (by
        simp [FinalizerWorker.inHand, Option.mem_def.mp hv])))
    have hpromised : (e.worker.step policy.noting finalizer (.schedule e.epoch)).Promised e.epoch
        e.worker.added :=
      FinalizerWorker.promised_schedule hserves
        (WithTop.coe_lt_coe.mpr (he.served.finalized_lt hpos hlt))
    refine ⟨e.worker.added, hpromised, ?_, ?_⟩
    · rw [hall, lateFor_scheduled, hnone, if_pos rfl, List.nil_append, ← hqueues]
      exact he.ledger.balance
    · rw [lateFor_scheduled, hnone, if_pos rfl, List.nil_append, ← hqueues]
      exact hrecent

/-- The collector schedules its epoch. What is in the queues now, is late. -/
theorem Sound.schedule (he : e.Sound) (hstage : e.stage = .scheduling) :
    (e.collect policy finalizer).Sound := by
  have hcleared := he.standing
  rw [hstage] at hcleared
  obtain ⟨hcleared, hfinished⟩ := hcleared
  have hresting : e.stage ≠ .resting := by simp [hstage]
  have hlt : ∀ u ∈ e.worker.scheduled, u < e.epoch :=
    fun u hu => (he.calendar.scheduled u hu).2.2 hresting
  have hadmits : e.worker.Admits (.schedule e.epoch) :=
    ⟨he.served.stopping, fun u hu => (hlt u hu).le, hfinished⟩
  have hsound : (e.worker.step policy.noting finalizer (.schedule e.epoch)).Sound :=
    he.served.sound.schedule hadmits
  have hrecent := he.ledger.recent (hstage ▸ nofun)
  rw [collect_scheduling hstage]
  refine ⟨⟨he.calendar.started_eq, he.calendar.finished_le,
    ⟨he.calendar.epoch_pos.1, fun h => absurd rfl h⟩,
      fun u hu => ?_, he.calendar.answered, fun a ha => ?_⟩,
    ⟨he.roster.placed, he.roster.sweepers⟩,
    ⟨he.ledger.balance, fun _ => hrecent⟩,
    ⟨hsound, he.served.stopping, he.served.finalized_eq, fun u hu =>
      he.promised_schedule hcleared (he.calendar.epoch_pos.2 hresting) hrecent hlt hadmits hu⟩,
        hcleared⟩
  · rcases List.mem_append.mp hu with hold | hnew
    · obtain ⟨hpos, hle, -⟩ := he.calendar.scheduled u hold
      exact ⟨hpos, hle, fun h => absurd rfl h⟩
    · obtain rfl := List.mem_singleton.mp hnew
      exact ⟨he.calendar.epoch_pos.2 hresting, le_rfl, fun h => absurd rfl h⟩
  · rcases List.mem_append.mp ha with hold | hnew
    · exact List.mem_append_left _ (he.calendar.late a hold)
    · obtain ⟨b, -, rfl⟩ := List.mem_map.mp hnew
      exact List.mem_append_right _ List.mem_cons_self

theorem Sound.collect (he : e.Sound) (hworld : e.Admits .collect) :
    (e.step policy finalizer .collect).Sound := by
  change (e.collect policy finalizer).Sound
  cases hstage : e.stage with
  | resting => rwa [RuntimeSystem.collect, hstage]
  | preparing => exact he.prepare hstage (hworld hstage)
  | sweeping => exact he.sweep hstage
  | joining => exact he.join hstage
  | submitting => exact he.submit hstage
  | finishing => exact he.finish hstage
  | scheduling => exact he.schedule hstage
  | stuck => rwa [RuntimeSystem.collect, hstage]

theorem sound_new {h : Heap (Diary ρ)} (hpending : h.pending.toList = []) (hsettled : h.Settled)
    (hsweepers : h.arena.sweepers = 0) (helpers : Nat) : (new h helpers).Sound where
  calendar := ⟨rfl, le_rfl, ⟨le_rfl, fun hne => absurd rfl hne⟩, nofun, nofun, nofun⟩
  roster := by
    refine ⟨fun s hs => ?_, hsweepers⟩
    obtain rfl := List.mem_singleton.mp hs
    exact ⟨Heap.mem_allRequests.mpr (.inl ⟨rfl, Nat.zero_le _⟩), nofun⟩
  ledger := ⟨by rw [new, hpending]; rfl, fun _ => List.nil_subperm⟩
  served := ⟨FinalizerWorker.sound_new _ _, rfl, rfl, nofun⟩
  standing := ⟨⟨hsettled, hsweepers⟩, rfl, rfl⟩

theorem Sound.step (he : e.Sound) {m : Move ρ} (hm : e.Admits m) :
    (e.step policy finalizer m).Sound := by
  cases m with
  | request => exact he.request
  | begin epoch => exact he.begin hm
  | collect => exact he.collect hm
  | assist i => exact he.assist i
  | attach => exact he.attach
  | call i r => exact he.call i hm
  | act i => exact he.act i
  | flush i => exact he.flush i
  | work => exact he.work
  | tend f => exact he.tend hm

theorem Sound.run (he : e.Sound) {moves : List (Move ρ)} (hm : Allows policy finalizer moves e) :
    (e.run policy finalizer moves).Sound := by
  induction moves generalizing e with
  | nil => exact he
  | cons m moves ih => exact ih (he.step hm.1) hm.2

end SweptHeap.RuntimeSystem
