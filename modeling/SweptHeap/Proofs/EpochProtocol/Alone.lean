import Mathlib
import SweptHeap.Proofs.EpochProtocol.Basic

/-!
# One thread of the protocol

Deed by deed, a thread that is not disturbed does what the collector does in one go.
-/

namespace SweptHeap

namespace Act

variable {σ α β τ : Type}

/-- The operation leaves what `view` shows of the state alone, whether it fails or not. -/
def Leaves (view : σ → τ) (act : Act σ α) : Prop := ∀ s, view (act.apply s).2 = view s

variable {view : σ → τ}

theorem leaves_pure (a : α) : (pure a : Act σ α).Leaves view := fun _ => rfl

theorem leaves_get : (get : Act σ σ).Leaves view := fun _ => rfl

theorem leaves_modify {f : σ → σ} (hf : ∀ s, view (f s) = view s) :
    (modify f : Act σ PUnit).Leaves view := hf

theorem Leaves.bind {x : Act σ α} {f : α → Act σ β} (hx : x.Leaves view)
    (hf : ∀ a, (f a).Leaves view) : (x >>= f).Leaves view := by
  intro s
  rw [apply_bind]
  have hs := hx s
  generalize x.apply s = done at hs
  obtain ⟨r, s'⟩ := done
  cases r with
  | error e => exact hs
  | ok a => exact (hf a s').trans hs

/-- An operation in two parts that succeeds succeeds in both. -/
theorem of_bind_ok {x : Act σ α} {f : α → Act σ β} {b : β} {s s' : σ}
    (h : (x >>= f).apply s = (.ok b, s')) :
    ∃ a s₁, x.apply s = (.ok a, s₁) ∧ (f a).apply s₁ = (.ok b, s') := by
  rw [apply_bind] at h
  generalize x.apply s = done at h
  obtain ⟨r, s₁⟩ := done
  cases r with
  | error e => cases h
  | ok a => exact ⟨a, s₁, rfl, h⟩

theorem of_pure_ok {a b : α} {s s' : σ} (h : (pure a : Act σ α).apply s = (.ok b, s')) :
    b = a ∧ s' = s := by
  obtain ⟨hb, rfl⟩ := Prod.mk.inj h
  exact ⟨(Except.ok.inj hb).symm, rfl⟩

end Act

namespace Collector

variable {ρ : Type} {c c' : Collector ρ}

/-- What threads share beside the heap. -/
def common (c : Collector ρ) : Progress × Option FinalizerTasks := (c.progress, c.finalizers)

open Act

theorem apply_onHeap {α : Type} {act : Act (Heap ρ) α} {result : Except Fault α} {h : Heap ρ}
    (heq : act.apply c.heap = (result, h)) :
    (onHeap act).apply c = (result, { c with heap := h }) := by
  simp only [Act.apply, ExceptT.run] at heq
  simp only [Act.apply, ExceptT.run, onHeap, heq]

theorem apply_report (e : Event) (c : Collector ρ) : (report e).apply c =
    (.ok (), { c with heap := { c.heap with arena := c.heap.arena.report e } }) := rfl

/-- An operation that succeeds while the world is stopped found every thread safe. -/
theorem whileStopped_ok {α : Type} {reason : StopReason} {act : Act (Collector ρ) α} {a : α}
    (h : (whileStopped reason act).apply c = (.ok a, c')) :
    ∃ w c₀ c₁, c.world.request reason = (true, w) ∧ w.allSafe = true ∧
      c₀ = { c with
        heap := { c.heap with
          arena := (c.heap.arena.report (.stopRequested reason)).report .worldStopped }
        world := w } ∧
      act.apply c₀ = (.ok a, c₁) ∧ c' = { c₁ with world := c₁.world.resume } := by
  simp only [whileStopped, World.stop?, Act.apply, ExceptT.run] at h
  rcases hw : c.world.request reason with ⟨granted, w⟩
  rw [hw] at h
  cases granted with
  | false => cases h
  | true =>
    dsimp only at h
    by_cases hsafe : w.allSafe = true
    · rw [if_pos hsafe] at h
      obtain ⟨hresult, rfl⟩ := Prod.mk.inj h
      exact ⟨w, _, _, rfl, hsafe, rfl, Prod.ext hresult rfl, rfl⟩
    · rw [if_neg hsafe] at h
      cases h

/-! ### What collections leave alone -/

/-- The view does not show the heap. -/
def Blind {τ : Type} (view : Collector ρ → τ) : Prop :=
  ∀ (c : Collector ρ) (h : Heap ρ), view { c with heap := h } = view c

variable {τ : Type} {view : Collector ρ → τ}

theorem leaves_onHeap {α : Type} (hview : Blind view) (act : Act (Heap ρ) α) :
    (onHeap act).Leaves view := fun c => hview c _

theorem leaves_assist (hview : Blind view) (policy : Policy ρ) (epoch : Int) (helpers : Nat)
    (queue : Handoff BlockRef) : (assist policy epoch helpers queue).Leaves view := by
  induction helpers generalizing queue with
  | zero => exact leaves_pure _
  | succ n ih => exact (leaves_onHeap hview _).bind fun found => ih _

theorem leaves_sweep (hview : Blind view) (policy : Policy ρ) (epoch : Int) :
    (sweep policy epoch).Leaves view :=
  (leaves_onHeap hview _).bind fun _ => leaves_get.bind fun _ => leaves_assist hview _ _ _ _

theorem leaves_rearm (hview : Blind view) : (rearm : Act (Collector ρ) Nat).Leaves view :=
  leaves_get.bind fun _ => leaves_get.bind fun _ =>
    (leaves_onHeap hview _).bind fun _ => leaves_pure _

theorem blind_common : Blind (common : Collector ρ → Progress × Option FinalizerTasks) :=
  fun _ _ => rfl

theorem leaves_whileStopped {α : Type} (reason : StopReason) {act : Act (Collector ρ) α}
    (hact : act.Leaves common) : (whileStopped reason act).Leaves common := by
  intro c
  simp only [whileStopped, Act.apply, ExceptT.run]
  cases c.world.stop? reason with
  | none => rfl
  | some w =>
    exact (leaves_onHeap blind_common _).bind
      (fun _ => (leaves_onHeap blind_common _).bind fun _ => hact) { c with world := w }

/-- A collection in the heap moves no counter. -/
theorem leaves_cycle (client : Client ρ) (epoch : Int) : (cycle client epoch).Leaves common := by
  have hprepare : (prepare client epoch).Leaves common :=
    leaves_get.bind fun _ => (leaves_onHeap blind_common _).bind fun _ =>
      (leaves_onHeap blind_common _).bind fun _ => leaves_onHeap blind_common _
  refine (leaves_whileStopped _ hprepare).bind fun _ =>
    (leaves_sweep blind_common _ _).bind fun queue => ?_
  refine (leaves_onHeap blind_common _).bind fun _ => leaves_get.bind fun _ =>
    (leaves_onHeap blind_common _).bind fun _ => ?_
  refine (leaves_rearm blind_common).bind fun bytes => Leaves.bind ?_ fun _ => leaves_pure _
  exact leaves_modify fun _ => rfl

theorem advance_ok {f : Progress → Except Fault Progress} {u : Unit}
    (h : (advance f).apply c = (.ok u, c')) :
    ∃ p, f c.progress = .ok p ∧ c' = { c with progress := p } := by
  simp only [advance, Act.apply, ExceptT.run] at h
  cases hp : f c.progress with
  | error e =>
    rw [hp] at h
    cases h
  | ok p =>
    rw [hp] at h
    exact ⟨p, rfl, (Prod.mk.inj h).2.symm⟩

/-- A collection for an epoch is a start, a cycle, a finish, and the leaving of the finalizers to
the worker if there is one. -/
theorem collect_ok {client : Client ρ} {epoch : Int} {stats : CycleStats}
    (h : (collect client epoch).apply c = (.ok stats, c')) :
    ∃ p₁ p₂ c₁, c.progress.start epoch = .ok p₁ ∧
      (cycle client epoch).apply { c with progress := p₁ } = (.ok stats, c₁) ∧
      c₁.common = (p₁, c.finalizers) ∧ p₁.finish epoch = .ok p₂ ∧
      ((∃ tasks, c.finalizers = some tasks ∧
          c' = { c₁ with progress := p₂, finalizers := some (tasks.schedule epoch) }) ∨
        ∃ p₃, c.finalizers = none ∧ p₂.finalize epoch = .ok p₃ ∧
          c' = { c₁ with progress := p₃, finalizers := none }) := by
  obtain ⟨u, c₀, hstart, h⟩ := of_bind_ok h
  obtain ⟨p₁, hp₁, rfl⟩ := advance_ok hstart
  obtain ⟨stats', c₁, hcycle, h⟩ := of_bind_ok h
  have hcommon := leaves_cycle client epoch { c with progress := p₁ }
  rw [hcycle] at hcommon
  have hprogress : c₁.progress = p₁ := congrArg Prod.fst hcommon
  have hfinalizers : c₁.finalizers = c.finalizers := congrArg Prod.snd hcommon
  obtain ⟨u, c₂, hfinish, h⟩ := of_bind_ok h
  obtain ⟨p₂, hp₂, rfl⟩ := advance_ok hfinish
  obtain ⟨u, c₃, hover, h⟩ := of_bind_ok h
  obtain ⟨rfl, rfl⟩ := of_pure_ok h
  refine ⟨p₁, p₂, c₁, hp₁, hcycle, hcommon, hprogress ▸ hp₂, ?_⟩
  rw [handOver, apply_get_bind] at hover
  simp only [hfinalizers] at hover
  cases hw : c.finalizers with
  | some tasks =>
    rw [hw] at hover
    obtain ⟨-, rfl⟩ := Prod.mk.inj hover
    exact .inl ⟨tasks, rfl, rfl⟩
  | none =>
    rw [hw] at hover
    obtain ⟨p₃, hp₃, rfl⟩ := advance_ok hover
    exact .inr ⟨p₃, rfl, hp₃, rfl⟩

theorem lt_of_isDue (hdue : c.isDue = true) : c.progress.finished < c.progress.scheduled := by
  simp only [isDue, Progress.isPending, Bool.and_eq_true, decide_eq_true_eq] at hdue
  exact hdue.1.2

/-- What is due is collected. -/
theorem serve_ok {client : Client ρ} {u : Unit} (h : (serve client).apply c = (.ok u, c'))
    (hdue : c.isDue = true) :
    ∃ stats, (collect client c.progress.scheduled).apply c = (.ok stats, c') := by
  rw [serve, apply_get_bind, if_pos hdue, apply_get_bind] at h
  obtain ⟨stats, c₁, hcollect, h⟩ := of_bind_ok h
  obtain ⟨-, rfl⟩ := of_pure_ok h
  exact ⟨stats, hcollect⟩

end Collector

namespace EpochProtocol

variable {ρ : Type} {c c' : Collector ρ} {client : Client ρ}

/-- The threads of a collector before any of them does something. -/
def ofCollector (c : Collector ρ) : EpochProtocol :=
  { progress := c.progress, worker := c.finalizers }

theorem schedule_alone {epoch : Int} (h : Collector.schedule.apply c = (.ok epoch, c')) :
    step (ofCollector c) .schedule = .ok (ofCollector c') := by
  obtain ⟨-, rfl⟩ := Prod.mk.inj h
  rfl

/-- The deeds of a thread that has an epoch to collect, up to its leaving. -/
theorem collect_alone {epoch : Int} {stats : CycleStats} {protocol : EpochProtocol}
    (h : (Collector.collect client epoch).apply c = (.ok stats, c'))
    (hp : protocol.progress = c.progress) (hw : protocol.worker = c.finalizers)
    (hdesk : protocol.desk = none) (hi : protocol.stage 0 = .starting epoch) :
    run (List.replicate 5 (.proceed 0)) protocol = .ok { protocol with
      progress := c'.progress
      worker := c'.finalizers
      stage := Function.update protocol.stage 0 .idle
      turn := none
      history := protocol.history ++ [.started epoch, .finished epoch] } := by
  obtain ⟨p₁, p₂, c₁, hstart, -, -, hfinish, hover⟩ := Collector.collect_ok h
  rw [← hp] at hstart
  rcases hover with ⟨tasks, hworker, rfl⟩ | ⟨p₃, hworker, hfinalize, rfl⟩
  · simp [List.replicate, run, step, proceed, move, hi, hstart, hfinish,
      Except.map, hdesk, hw, hworker]
  · simp [List.replicate, run, step, proceed, move, hi, hstart, hfinish,
      hfinalize, Except.map, hdesk, hw, hworker]

theorem collectNow_alone {stats : CycleStats}
    (h : (Collector.collectNow client).apply c = (.ok stats, c')) :
    run (.enter 0 :: List.replicate 6 (.proceed 0)) (ofCollector c) = .ok { ofCollector c' with
      history := [.started c.progress.schedule.1, .finished c.progress.schedule.1] } := by
  obtain ⟨epoch, c₁, hschedule, hcollect⟩ := Act.of_bind_ok h
  obtain ⟨hepoch, rfl⟩ := Prod.mk.inj hschedule
  have hepoch' : c.progress.schedule.1 = epoch := Except.ok.inj hepoch
  subst hepoch'
  -- The thread gets the turn and an epoch, then it collects.
  have hbefore : run [.enter 0, .proceed 0] (ofCollector c) = .ok { ofCollector c with
      progress := c.progress.schedule.2
      stage := Function.update (fun _ => .idle) 0 (.starting c.progress.schedule.1)
      turn := some 0 } := by
    simp [run, step, proceed, move, ofCollector]
  refine (run_append hbefore).trans ((collect_alone hcollect rfl rfl rfl rfl).trans ?_)
  simp [ofCollector]

theorem serve_alone {u : Unit} (h : (Collector.serve client).apply c = (.ok u, c'))
    (hdue : c.isDue = true) :
    run (.heed 0 :: List.replicate 7 (.proceed 0)) (ofCollector c) = .ok { ofCollector c' with
      history := [.started c.progress.scheduled, .finished c.progress.scheduled] } := by
  have hpending : c.progress.finished < c.progress.scheduled := Collector.lt_of_isDue hdue
  obtain ⟨stats, hcollect⟩ := Collector.serve_ok h hdue
  -- The thread sees the epoch, gets the turn and finds that nobody was faster.
  have hbefore : run [.heed 0, .proceed 0, .proceed 0] (ofCollector c) = .ok { ofCollector c with
      stage := Function.update (fun _ => .idle) 0 (.starting c.progress.scheduled)
      turn := some 0 } := by
    simp [run, step, proceed, move, ofCollector, Progress.isPending, hpending, not_le.mpr hpending]
  refine (run_append hbefore).trans ((collect_alone hcollect rfl rfl rfl rfl).trans ?_)
  simp [ofCollector]

theorem serveFinalizers_alone {u : Unit}
    (h : (Collector.serveFinalizers client).apply c = (.ok u, c')) :
    run [.take, .finalize] (ofCollector c) = .ok (ofCollector c') := by
  rw [Collector.serveFinalizers, Act.apply_get_bind] at h
  cases hw : c.finalizers with
  | none =>
    rw [hw] at h
    obtain ⟨-, rfl⟩ := Prod.mk.inj h
    simp [run, step, ofCollector, hw]
  | some tasks =>
    obtain ⟨waiting, stopping⟩ := tasks
    cases waiting with
    | none =>
      simp only [hw, Option.map_some, FinalizerTasks.take] at h
      obtain ⟨-, rfl⟩ := Prod.mk.inj h
      simp [run, step, ofCollector, hw, FinalizerTasks.take]
    | some epoch =>
      simp only [hw, Option.map_some, FinalizerTasks.take] at h
      obtain ⟨_, c₁, hmodify, h⟩ := Act.of_bind_ok h
      obtain ⟨-, rfl⟩ := Prod.mk.inj hmodify
      obtain ⟨n, c₂, hrun, h⟩ := Act.of_bind_ok h
      obtain ⟨-, rfl⟩ := Prod.mk.inj hrun
      obtain ⟨p, hp, rfl⟩ := Collector.advance_ok h
      have hp' : c.progress.finalize epoch = .ok p := hp
      simp [run, step, ofCollector, hw, FinalizerTasks.take, hp', Except.map]

end EpochProtocol

end SweptHeap
