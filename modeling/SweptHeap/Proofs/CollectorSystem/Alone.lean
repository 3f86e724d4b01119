import Mathlib
import SweptHeap.Collector.Mutator
import SweptHeap.Proofs.CollectorSystem.Diary

/-!
# Threads that are not disturbed

Phase by phase, a thread that is not disturbed does what the collector does in one go, and the diary
tells of one complete collection. A mutator that asks for a collection is native while that is
served.
-/

namespace SweptHeap

variable {ρ : Type} {client : Client ρ} {epoch : Int} {c c' : Collector ρ}

/-- What the phases of a collection do not touch. -/
def Collector.frame (c : Collector ρ) : Settings × Progress × Bool × Option FinalizerTasks :=
  (c.settings, c.progress, c.isRunning, c.finalizers)

theorem Collector.blind_frame :
    Blind (frame : Collector ρ → Settings × Progress × Bool × Option FinalizerTasks) :=
  fun _ _ => rfl

/-- What is collected has finished. -/
theorem Collector.finished_of_collect {stats : CycleStats}
    (h : (collect client epoch).apply c = (.ok stats, c')) : c'.progress.finished = epoch := by
  obtain ⟨p₁, p₂, c₁, -, -, -, hfinish, hover⟩ := collect_ok h
  have hfinished := (Progress.of_finish hfinish).2.1
  rcases hover with ⟨tasks, -, rfl⟩ | ⟨p₃, -, hfinalize, rfl⟩
  · exact hfinished
  · exact (Progress.rests_finalize hfinalize).finished_eq.trans hfinished

/-- A mutator is native during the operation and runnable after it. -/
theorem Mutator.inNative_ok {α : Type} {act : Act (Collector ρ) α} {a : α}
    {m : Mutator} {s : Session ρ} (h : (inNative act).apply ⟨c, m⟩ = (.ok a, s)) :
    ∃ c₁, act.apply { c with world := (c.world.setMode m.thread .native).2 } = (.ok a, c₁) ∧
      s = ⟨{ c₁ with world := (c₁.world.setMode m.thread .runnable).2 }, m⟩ := by
  obtain ⟨_, s₁, hnative, h⟩ := Act.of_bind_ok h
  obtain ⟨-, rfl⟩ := Prod.mk.inj hnative
  obtain ⟨a', s₂, hact, h⟩ := Act.of_bind_ok h
  obtain ⟨_, s₃, hrunnable, h⟩ := Act.of_bind_ok h
  obtain ⟨-, rfl⟩ := Prod.mk.inj hrunnable
  obtain ⟨rfl, rfl⟩ := Act.of_pure_ok h
  obtain ⟨hresult, rfl⟩ := Prod.mk.inj hact
  exact ⟨_, Prod.ext hresult rfl, rfl⟩

namespace CyclePhase

open Act Collector

theorem leaves_act (phase : CyclePhase) : (phase.act client epoch).Leaves frame := by
  have hheap {α : Type} (act : Act (Heap ρ) α) : (onHeap act).Leaves frame :=
    leaves_onHeap blind_frame act
  cases phase with
  | stopping =>
    refine leaves_get.bind fun c => ?_
    rcases c.world.request .collection with ⟨granted, w⟩
    cases granted with
    | false => exact leaves_pure _
    | true =>
      refine Leaves.bind (leaves_modify fun _ => rfl) fun _ => ?_
      exact (hheap _).bind fun _ => leaves_pure _
  | awaiting =>
    refine leaves_get.bind fun c => ?_
    split_ifs
    · exact (hheap _).bind fun _ => leaves_pure _
    · exact leaves_pure _
  | preparing =>
    exact leaves_get.bind fun _ => (hheap _).bind fun _ => (hheap _).bind fun _ => leaves_pure _
  | marking => exact (hheap _).bind fun _ => leaves_pure _
  | resuming => exact Leaves.bind (leaves_modify fun _ => rfl) fun _ => leaves_pure _
  | sweeping => exact (leaves_sweep blind_frame _ _).bind fun _ => leaves_pure _
  | closing queue =>
    refine (hheap _).bind fun _ => leaves_get.bind fun _ => (hheap _).bind fun _ => ?_
    refine (leaves_rearm blind_frame).bind fun _ => ?_
    exact Leaves.bind (leaves_modify fun _ => rfl) fun _ => leaves_pure _
  | done => exact leaves_pure _

theorem frame_act {phase next : CyclePhase}
    (h : (phase.act client epoch).apply c = (.ok next, c')) : c'.frame = c.frame := by
  have hleaves : (phase.act client epoch).Leaves frame := leaves_act phase
  simpa only [h] using hleaves c

/-- The collector goes through `n` phases. -/
inductive Path (client : Client ρ) (epoch : Int) :
    Nat → CyclePhase → Collector ρ → CyclePhase → Collector ρ → Prop
  | nil {phase : CyclePhase} {c : Collector ρ} : Path client epoch 0 phase c phase c
  | cons {n : Nat} {phase next last : CyclePhase} {c c₁ c' : Collector ρ}
      (unfinished : phase ≠ .done) (act : (phase.act client epoch).apply c = (.ok next, c₁))
      (path : Path client epoch n next c₁ last c') :
      Path client epoch (n + 1) phase c last c'

theorem Path.frame_eq {n : Nat} {phase last : CyclePhase}
    (h : Path client epoch n phase c last c') : c'.frame = c.frame := by
  induction h with
  | nil => rfl
  | @cons n phase next last c c₁ c' _ hact _ ih => exact ih.trans (frame_act hact)

theorem act_stopping {w : World} (h : c.world.request .collection = (true, w)) :
    (act client epoch .stopping).apply c = (.ok .awaiting, { c with
      heap := { c.heap with arena := c.heap.arena.report (.stopRequested .collection) }
      world := w }) := by
  rw [act, apply_get_bind, h]
  rfl

theorem act_awaiting (h : c.world.allSafe = true) :
    (act client epoch .awaiting).apply c = (.ok .preparing, { c with
      heap := { c.heap with arena := c.heap.arena.report .worldStopped } }) := by
  rw [act, apply_get_bind, if_pos h]
  rfl

/-- The world is stopped for two of the phases. -/
theorem act_prepare {u : Unit} (h : (prepare client epoch).apply c = (.ok u, c')) :
    ∃ c₁, (act client epoch .preparing).apply c = (.ok .marking, c₁) ∧
      (act client epoch .marking).apply c₁ = (.ok .resuming, c') := by
  rw [prepare, apply_get_bind, apply_bind_ok (apply_report _ _)] at h
  obtain ⟨u, c₁, hprepared, hmarked⟩ := of_bind_ok h
  refine ⟨c₁, ?_, ?_⟩
  · rw [act, apply_get_bind, apply_bind_ok (apply_report _ _), apply_bind_ok hprepared]
    rfl
  · rw [act, apply_bind_ok hmarked]
    rfl

/-- A cycle that succeeds goes through all phases. -/
theorem path_of_cycle {stats : CycleStats} (h : (cycle client epoch).apply c = (.ok stats, c')) :
    Path client epoch 7 .stopping c .done c' := by
  obtain ⟨u, c₁, hstopped, h⟩ := of_bind_ok h
  obtain ⟨w, c₀, c₂, hrequest, hsafe, hc₀, hprepare, rfl⟩ := whileStopped_ok hstopped
  obtain ⟨c₃, hprepared, hmarked⟩ := act_prepare hprepare
  obtain ⟨queue, c₄, hswept, h⟩ := of_bind_ok h
  have hresumed : (act client epoch .resuming).apply c₂ =
    (.ok .sweeping, { c₂ with world := c₂.world.resume }) := rfl
  have hsweep : (act client epoch .sweeping).apply { c₂ with world := c₂.world.resume } =
      (.ok (.closing queue), c₄) := by
    rw [act, apply_bind_ok hswept]
    rfl
  have hclose : (act client epoch (.closing queue)).apply c₄ = (.ok .done, c') := by
    obtain ⟨u, c₅, hsubmitted, h⟩ := of_bind_ok h
    rw [apply_get_bind] at h
    obtain ⟨released, c₆, hreleased, h⟩ := of_bind_ok h
    obtain ⟨bytes, c₇, hrearmed, h⟩ := of_bind_ok h
    obtain ⟨u, c₈, hlast, h⟩ := of_bind_ok h
    obtain ⟨rfl, rfl⟩ := of_pure_ok h
    rw [act, apply_bind_ok hsubmitted, apply_get_bind, apply_bind_ok hreleased,
      apply_bind_ok hrearmed, apply_bind_ok hlast]
    rfl
  refine .cons (by simp) (act_stopping hrequest) (.cons (by simp) (act_awaiting hsafe) ?_)
  rw [← hc₀]
  exact .cons (by simp) hprepared (.cons (by simp) hmarked (.cons (by simp) hresumed
    (.cons (by simp) hsweep (.cons (by simp) hclose .nil))))

end CyclePhase

namespace CollectorSystem

variable {p : CollectorSystem ρ} {i : Nat}

/-- The collection has come from one phase to another. -/
def moveOn (c : Collector ρ) (phase : CyclePhase) (entries : List Entry) (p : CollectorSystem ρ) :
    CollectorSystem ρ :=
  { p with
    heap := c.heap
    world := c.world
    last := c.last
    phase := phase
    diary := p.diary ++ entries }

theorem collector_moveOn (hframe : c.frame = p.collector.frame) (phase : CyclePhase)
    (entries : List Entry) : (p.moveOn c phase entries).collector = c := by
  obtain ⟨settings, heap, progress, world, isRunning, finalizers, last⟩ := c
  simp only [Collector.frame, Prod.mk.injEq] at hframe
  obtain ⟨rfl, rfl, rfl, rfl⟩ := hframe
  rfl

theorem step_phase {next : CyclePhase} (hi : p.protocol.stage i = .collecting epoch)
    (hphase : p.phase ≠ .done)
    (hact : (p.phase.act client epoch).apply p.collector = (.ok next, c)) :
    p.step client (.protocol (.proceed i)) = p.moveOn c next (p.phase.notes epoch) := by
  rw [step, proceed, hi]
  dsimp only
  split
  · exact absurd ‹_› hphase
  · rw [collect, hact]
    rfl

/-- The phases of a thread that is not disturbed. -/
theorem run_path {n : Nat} {phase last : CyclePhase}
    (hpath : CyclePhase.Path client epoch n phase c last c')
    (hi : p.protocol.stage i = .collecting epoch) (hphase : p.phase = phase)
    (hc : p.collector = c) : ∃ entries, last.past epoch = phase.past epoch ++ entries ∧
      run client (List.replicate n (.protocol (.proceed i))) p = p.moveOn c' last entries := by
  induction hpath generalizing p with
  | @nil phase c =>
    subst hphase hc
    refine ⟨[], (List.append_nil _).symm, ?_⟩
    rw [moveOn, List.append_nil]
    rfl
  | @cons n phase next last c c₁ c' hunfinished hact hrest ih =>
    subst hphase hc
    obtain ⟨entries, hpast, hrun⟩ := ih (p := p.moveOn c₁ next (p.phase.notes epoch)) hi rfl
      (collector_moveOn (CyclePhase.frame_act hact) _ _)
    refine ⟨p.phase.notes epoch ++ entries, ?_, ?_⟩
    · rw [hpast, CyclePhase.past_act hact, List.append_assoc]
    · rw [List.replicate_succ, run, step_phase hi hunfinished hact, hrun]
      simp only [moveOn, List.append_assoc]

/-- A thread has started the collection of an epoch. -/
def begun (i : Nat) (epoch : Int) (q : Progress) (p : CollectorSystem ρ) : CollectorSystem ρ :=
  { p with
    protocol := { p.protocol.move i (.collecting epoch) with
      progress := q
      history := p.protocol.history ++ [.started epoch] }
    phase := .stopping
    diary := p.diary ++ [.started epoch] }

theorem step_start {q : Progress} (hi : p.protocol.stage i = .starting epoch)
    (hstart : p.protocol.progress.start epoch = .ok q) :
    p.step client (.protocol (.proceed i)) = p.begun i epoch q := by
  simp only [step, proceed, note, EpochProtocol.step, EpochProtocol.proceed, hi,
    hstart, Except.map, begun]

/-- A thread that has collected, up to its leaving. -/
theorem run_over {q q' : Progress} {worker : Option FinalizerTasks}
    (hi : p.protocol.stage i = .collecting epoch) (hphase : p.phase = .done)
    (hdesk : p.protocol.desk = none) (hfinish : p.protocol.progress.finish epoch = .ok q)
    (hover : (∃ tasks, p.protocol.worker = some tasks ∧ q' = q ∧
      worker = some (tasks.schedule epoch)) ∨
      p.protocol.worker = none ∧ q.finalize epoch = .ok q' ∧ worker = none) :
    run client (List.replicate 4 (.protocol (.proceed i))) p = { p with
      protocol := { p.protocol with
        progress := q'
        worker := worker
        stage := Function.update p.protocol.stage i .idle
        turn := none
        history := p.protocol.history ++ [.finished epoch] }
      diary := p.diary ++ [.finished epoch] } := by
  rcases hover with ⟨tasks, hworker, rfl, rfl⟩ | ⟨hworker, hfinalize, rfl⟩
  · simp [List.replicate, run, step, proceed, note, EpochProtocol.step, EpochProtocol.proceed,
      EpochProtocol.move, hi, hphase, hfinish, Except.map, hdesk, hworker]
  · simp [List.replicate, run, step, proceed, note, EpochProtocol.step, EpochProtocol.proceed,
      EpochProtocol.move, hi, hphase, hfinish, Except.map, hdesk, hworker, hfinalize]

/-- A thread has collected an epoch, after which the collector is `c`. -/
def served (i : Nat) (c : Collector ρ) (epoch : Int) (entries : List Entry)
    (p : CollectorSystem ρ) : CollectorSystem ρ :=
  { ofCollector c with
    protocol := { p.protocol with
      progress := c.progress
      worker := c.finalizers
      stage := Function.update p.protocol.stage i .idle
      turn := none
      history := p.protocol.history ++ [.started epoch, .finished epoch] }
    errand := p.errand
    diary := p.diary ++ entries }

/-- A thread that has an epoch to collect, up to its leaving. -/
theorem collect_alone {stats : CycleStats}
    (h : (Collector.collect client epoch).apply p.collector = (.ok stats, c'))
    (hdesk : p.protocol.desk = none) (hi : p.protocol.stage i = .starting epoch) :
    run client (List.replicate 12 (.protocol (.proceed i))) p =
      p.served i c' epoch (round epoch) := by
  obtain ⟨p₁, p₂, c₁, hstart, hcycle, -, hfinish, hover⟩ := Collector.collect_ok h
  have hpath := CyclePhase.path_of_cycle hcycle
  have hstage : (p.begun i epoch p₁).protocol.stage i = .collecting epoch :=
    p.protocol.move_stage_self i (.collecting epoch)
  obtain ⟨entries, hpast, hphases⟩ := run_path hpath hstage rfl rfl
  have hround : round epoch = .started epoch :: entries ++ [.finished epoch] :=
    congrArg (fun past => past ++ [Entry.finished epoch]) hpast
  have hstage' :
      ((p.begun i epoch p₁).moveOn c₁ .done entries).protocol.stage i = .collecting epoch :=
    hstage
  have hframe := hpath.frame_eq
  simp only [Collector.frame, collector, Prod.mk.injEq] at hframe
  obtain ⟨hsettings, -, hrunning, -⟩ := hframe
  calc run client (List.replicate 12 (.protocol (.proceed i))) p
      = run client (List.replicate 4 (.protocol (.proceed i)))
          (run client (List.replicate 7 (.protocol (.proceed i))) (p.begun i epoch p₁)) := by
        rw [← run_append, List.replicate_append_replicate, List.replicate_succ, run,
          step_start hi hstart]
    _ = _ := by
        rw [hphases]
        rcases hover with ⟨tasks, hworker, rfl⟩ | ⟨p₃, hworker, hfinalize, rfl⟩
        · refine (run_over hstage' rfl hdesk hfinish (.inl ⟨tasks, hworker, rfl, rfl⟩)).trans ?_
          simp [moveOn, begun, served, EpochProtocol.move, ofCollector, hsettings, hrunning, hround]
        · refine (run_over hstage' rfl hdesk hfinish (.inr ⟨hworker, hfinalize, rfl⟩)).trans ?_
          simp [moveOn, begun, served, EpochProtocol.move, ofCollector, hsettings, hrunning, hround]

/-- A thread has the turn and an epoch to collect. -/
def ready (i : Nat) (epoch : Int) (q : Progress) (entries : List Entry) (p : CollectorSystem ρ) :
    CollectorSystem ρ :=
  { p with
    protocol := { p.protocol with
      progress := q
      stage := Function.update p.protocol.stage i (.starting epoch)
      turn := some i }
    diary := p.diary ++ entries }

theorem ready_alone {q : Progress} {entries : List Entry} {stats : CycleStats}
    (h : (Collector.collect client epoch).apply (p.ready i epoch q entries).collector =
      (.ok stats, c'))
    (hdesk : p.protocol.desk = none) :
    run client (List.replicate 12 (.protocol (.proceed i))) (p.ready i epoch q entries) =
      p.served i c' epoch (entries ++ round epoch) := by
  have hi : (p.ready i epoch q entries).protocol.stage i = .starting epoch :=
    Function.update_self ..
  rw [collect_alone h hdesk hi]
  simp [served, ready]

theorem collectNow_alone {stats : CycleStats}
    (h : (Collector.collectNow client).apply p.collector = (.ok stats, c'))
    (hi : p.protocol.stage i = .idle) (hturn : p.protocol.turn = none)
    (hdesk : p.protocol.desk = none) :
    run client (.protocol (.enter i) :: List.replicate 13 (.protocol (.proceed i))) p =
      p.served i c' p.protocol.progress.schedule.1
        (.asked none p.protocol.progress.schedule.1 :: round p.protocol.progress.schedule.1) := by
  obtain ⟨epoch, c₁, hschedule, hcollect⟩ := Act.of_bind_ok h
  obtain ⟨hepoch, rfl⟩ := Prod.mk.inj hschedule
  obtain rfl : p.protocol.progress.schedule.1 = epoch := Except.ok.inj hepoch
  have hready : run client [.protocol (.enter i), .protocol (.proceed i)] p =
      p.ready i p.protocol.progress.schedule.1 p.protocol.progress.schedule.2
        [.asked none p.protocol.progress.schedule.1] := by
    simp [run, step, proceed, note, EpochProtocol.step, EpochProtocol.proceed, EpochProtocol.move,
      hi, hturn, ready]
  calc run client (.protocol (.enter i) :: List.replicate 13 (.protocol (.proceed i))) p
      = run client (List.replicate 12 (.protocol (.proceed i)))
          (run client [.protocol (.enter i), .protocol (.proceed i)] p) := rfl
    _ = _ := by
        rw [hready]
        exact ready_alone hcollect hdesk

theorem serve_alone {u : Unit} (h : (Collector.serve client).apply p.collector = (.ok u, c'))
    (hdue : p.collector.isDue = true) (hi : p.protocol.stage i = .idle)
    (hturn : p.protocol.turn = none) (hdesk : p.protocol.desk = none) :
    run client (.protocol (.heed i) :: List.replicate 14 (.protocol (.proceed i))) p =
      p.served i c' p.protocol.progress.scheduled (round p.protocol.progress.scheduled) := by
  have hpending : p.protocol.progress.finished < p.protocol.progress.scheduled :=
    Collector.lt_of_isDue hdue
  obtain ⟨stats, hcollect⟩ := Collector.serve_ok h hdue
  -- The thread sees the epoch, gets the turn and finds that nobody was faster.
  have hready : run client [.protocol (.heed i), .protocol (.proceed i), .protocol (.proceed i)] p =
      p.ready i p.protocol.progress.scheduled p.protocol.progress [] := by
    simp [run, step, proceed, note, EpochProtocol.step, EpochProtocol.proceed, EpochProtocol.move,
      hi, hturn, Progress.isPending, hpending, not_le.mpr hpending, ready]
  calc run client (.protocol (.heed i) :: List.replicate 14 (.protocol (.proceed i))) p
      = run client (List.replicate 12 (.protocol (.proceed i)))
          (run client [.protocol (.heed i), .protocol (.proceed i), .protocol (.proceed i)] p) :=
        rfl
    _ = _ := by
        rw [hready]
        exact ready_alone hcollect hdesk

/-- A mutator waits for an epoch that it has asked for. -/
def awaits (i : Nat) (epoch : Int) (q : Progress) (p : CollectorSystem ρ) : CollectorSystem ρ :=
  { p with
    protocol := { p.protocol with progress := q }
    world := (p.world.setMode i .native).2
    errand := Function.update p.errand i (.waiting epoch false)
    diary := p.diary ++ [.asked (some i) epoch] }

theorem run_awaits (hi : p.errand i = .idle) :
    run client [.request i false, .pursue i] p =
      p.awaits i p.protocol.progress.schedule.1 p.protocol.progress.schedule.2 := by
  simp [run, step, request, pursue, note, EpochProtocol.step, setErrand, hi, awaits]

/-- The wait of a mutator is over, and nobody wants the world to stop. -/
theorem run_back (hi : p.errand i = .waiting epoch false)
    (hfinished : epoch ≤ p.protocol.progress.finished) (hcalm : p.world.requested = false) :
    run client [.pursue i, .pursue i] p = p.comeBack i epoch (p.world.setMode i .runnable).2 := by
  have hpark : ((p.world.setMode i .runnable).2).mustPark .runnable = false := by
    rw [World.mustPark, World.setMode, World.modifyNode, hcalm]
    rfl
  simp [run, step, pursue, setErrand, hi, Progress.isOver, hfinished, hpark, comeBack]

/-- A mutator that asks for a collection and waits for it, when a thread of the collector serves
it. -/
theorem request_alone {m : Mutator} {s : Session ρ} {u : Unit}
    (hschedule : Collector.schedule.apply p.collector = (.ok epoch, c))
    (h : (Mutator.inNative (Collector.serve client)).apply ⟨c, m⟩ = (.ok u, s))
    (hdue : c.isDue = true) (hcalm : s.collector.world.requested = false)
    (hm : p.errand m.thread = .idle) (hi : p.protocol.stage i = .idle)
    (hturn : p.protocol.turn = none) (hdesk : p.protocol.desk = none) :
    run client (.request m.thread false :: .pursue m.thread :: .protocol (.heed i) ::
        (List.replicate 14 (.protocol (.proceed i)) ++ [.pursue m.thread, .pursue m.thread])) p =
      p.served i s.collector epoch
        (.asked (some m.thread) epoch :: round epoch ++ [.returned m.thread epoch]) := by
  obtain ⟨c₁, hserve, rfl⟩ := Mutator.inNative_ok h
  obtain ⟨hepoch, rfl⟩ := Prod.mk.inj hschedule
  obtain rfl : p.protocol.progress.schedule.1 = epoch := Except.ok.inj hepoch
  obtain ⟨stats, hcollect⟩ := Collector.serve_ok hserve hdue
  have hfinished := Collector.finished_of_collect hcollect
  generalize he : p.protocol.progress.schedule.1 = epoch
  have hscheduled : p.protocol.progress.schedule.2.scheduled = epoch := by
    rw [Progress.schedule_scheduled, he]
  have hserved : run client (.protocol (.heed i) :: List.replicate 14 (.protocol (.proceed i)))
        (p.awaits m.thread epoch p.protocol.progress.schedule.2) =
      (p.awaits m.thread epoch p.protocol.progress.schedule.2).served i c₁ epoch (round epoch) :=
    hscheduled ▸ serve_alone hserve hdue hi hturn hdesk
  have hidle : Function.update p.errand m.thread .idle = p.errand := by
    rw [← hm, Function.update_eq_self]
  calc run client (.request m.thread false :: .pursue m.thread :: .protocol (.heed i) ::
        (List.replicate 14 (.protocol (.proceed i)) ++ [.pursue m.thread, .pursue m.thread])) p
      = run client [.pursue m.thread, .pursue m.thread]
          (run client (.protocol (.heed i) :: List.replicate 14 (.protocol (.proceed i)))
            (run client [.request m.thread false, .pursue m.thread] p)) := rfl
    _ = run client [.pursue m.thread, .pursue m.thread]
          ((p.awaits m.thread epoch p.protocol.progress.schedule.2).served i
            c₁ epoch (round epoch)) := by
        rw [run_awaits hm, he, hserved]
    _ = _ := by
        rw [run_back (Function.update_self ..) (hfinished.trans hscheduled).ge hcalm]
        simp [comeBack, served, awaits, setErrand, ofCollector, hidle]

end CollectorSystem

end SweptHeap
