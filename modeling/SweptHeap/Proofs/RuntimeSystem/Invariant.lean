import Mathlib
import SweptHeap.Proofs.RuntimeSystem.Threads
import SweptHeap.Proofs.FinalizersOnce

/-!
# The invariant of the runtime

Whatever the policy sent to finalizers has been handed over or is in the queue of a thread, and each
epoch that was scheduled stands for all of it up to then, but for what was late. That is `Ledger`
and `Served`; `Calendar` and `Roster` say that the epochs are in order and that the sweeps under way
are counted, and `At` what the collector has done at each stage of its cycle.

Here it is shown that the books stay in order whatever assistants, mutators and the worker do.
-/

namespace SweptHeap

variable {ρ : Type}

/-! ### The worker -/

namespace FinalizerWorker

variable {policy : Policy ρ} {finalizer : Finalizer ρ} {b b' : FinalizerWorker ρ}

/-- No epoch is scheduled or started, and the worker keeps its promises. -/
structure Continues (b b' : FinalizerWorker ρ) : Prop where
  started_eq : b'.progress.started = b.progress.started
  finished_le : b.progress.finished ≤ b'.progress.finished
  stopping_eq : b'.tasks.stopping = b.tasks.stopping
  scheduled_eq : b'.scheduled = b.scheduled
  sound : b'.Sound
  finalized_eq : b'.progress.finalized = b'.reported.getLastD 0
  promised : ∀ e due, b.Promised e due → b'.Promised e due

variable (hb : b.Sound) (hfinalized : b.progress.finalized = b.reported.getLastD 0)

include hb hfinalized

theorem continues_tend {h : Heap ρ} (hpending : h.pending.toList = b.heap.pending.toList) :
    b.Continues { b with heap := h } where
  started_eq := rfl
  finished_le := le_rfl
  stopping_eq := rfl
  scheduled_eq := rfl
  sound := hb.tend hpending
  finalized_eq := hfinalized
  promised _ _ h := h.congr (List.prefix_refl _) h.awaits rfl (List.prefix_refl _)

theorem continues_count {p : Progress} (hstarted : p.started = b.progress.started)
    (hfinished : b.progress.finished ≤ p.finished) (hp : p.finalized = b.progress.finalized) :
    b.Continues { b with progress := p } where
  started_eq := hstarted
  finished_le := hfinished
  stopping_eq := rfl
  scheduled_eq := rfl
  sound := hb.count hfinished
  finalized_eq := hp.trans hfinalized
  promised _ _ h := h.congr (List.prefix_refl _) h.awaits hp (List.prefix_refl _)

theorem continues_add (queue : Handoff BlockRef) :
    b.Continues (b.step policy finalizer (.add queue)) where
  started_eq := rfl
  finished_le := le_rfl
  stopping_eq := rfl
  scheduled_eq := rfl
  sound := hb.add queue
  finalized_eq := hfinalized
  promised _ _ h := h.congr (List.prefix_append _ _) h.awaits rfl (List.prefix_refl _)

/-- What the worker leaves to others. -/
structure Spares (b b' : FinalizerWorker ρ) : Prop where
  started_eq : b'.progress.started = b.progress.started
  finished_eq : b'.progress.finished = b.progress.finished
  stopping_eq : b'.tasks.stopping = b.tasks.stopping
  added_eq : b'.added = b.added
  scheduled_eq : b'.scheduled = b.scheduled
  sweepers_eq : b'.heap.arena.sweepers = b.heap.arena.sweepers
  shelf_eq : ∀ k, b'.heap.shelf k = b.heap.shelf k

omit hb hfinalized in
theorem work_spares (policy : Policy ρ) (finalizer : Finalizer ρ) (b : FinalizerWorker ρ) :
    b.Spares (b.work policy finalizer) := by
  obtain ⟨heap, progress, tasks, post, added, taken, treated, scheduled, reported⟩ := b
  cases post with
  | waiting =>
    simp only [work]
    split_ifs
    · cases htasks : tasks.epoch <;> simp only [FinalizerTasks.take, htasks] <;>
        exact ⟨rfl, rfl, rfl, rfl, rfl, rfl, fun _ => rfl⟩
    · exact ⟨rfl, rfl, rfl, rfl, rfl, rfl, fun _ => rfl⟩
  | calling epoch rest =>
    cases rest with
    | nil =>
      simp only [work, Progress.finalize]
      split_ifs <;> exact ⟨rfl, rfl, rfl, rfl, rfl, rfl, fun _ => rfl⟩
    | cons x rest => exact ⟨rfl, rfl, rfl, rfl, rfl, rfl, fun _ => rfl⟩
  | telling epoch x rest =>
    refine ⟨rfl, rfl, rfl, rfl, rfl, ?_, fun _ => rfl⟩
    simp only [work, tell, Arena.noteFinalized]
    cases heap.arena.memory.recordOf x with
    | none => rfl
    | some r =>
      dsimp only
      split_ifs <;> rfl
  | _ => exact ⟨rfl, rfl, rfl, rfl, rfl, rfl, fun _ => rfl⟩

theorem continues_work : b.Continues (b.work policy finalizer) := by
  have hspares := work_spares policy finalizer b
  exact ⟨hspares.started_eq, hspares.finished_eq.ge, hspares.stopping_eq,
    hspares.scheduled_eq, hb.work,
    finalized_step hfinalized (m := .work) trivial, fun _ _ h => h.work hb⟩

end FinalizerWorker

/-! ### The beginning of a cycle -/

namespace Heap

variable {h : Heap ρ}

/-- The same blocks are due, the policy remembers the same, and as many sweeps are under way. -/
structure Awaits (h h' : Heap ρ) : Prop where
  pending_eq : h'.pending = h.pending
  sweepers_eq : h'.arena.sweepers = h.arena.sweepers

instance : Std.Refl (@Awaits ρ) := ⟨fun _ => ⟨rfl, rfl⟩⟩

instance : IsTrans (Heap ρ) Awaits where
  trans _ _ _ h h' := ⟨h'.pending_eq.trans h.pending_eq, h'.sweepers_eq.trans h.sweepers_eq⟩

theorem prepareEach_awaits (requests : List Request) :
    Act.Within Awaits (requests.forM fun r => atShelf r Depot.prepare : Act (Heap ρ) Unit) := by
  induction requests with
  | nil => exact Act.within_pure _
  | cons r rest ih =>
    refine Act.Within.bind (fun h => ?_) fun _ => ih
    have happly : (atShelf r Depot.prepare).apply h =
        ((Depot.prepare.apply (h.depot r)).1, h.setDepot r (Depot.prepare.apply (h.depot r)).2) :=
      apply_atShelf rfl
    rw [happly]
    exact ⟨setDepot_pending _, by rw [setDepot_arena]; rfl⟩

theorem prepare_awaits (h : Heap ρ) : h.Awaits (prepare.apply h).2 := by
  refine Act.Within.bind (R := Awaits) (fun _ => ⟨rfl, rfl⟩) (fun _ => ?_) h
  refine (prepareEach_awaits _).bind fun _ => ?_
  refine Act.Within.bind (fun _ => ⟨rfl, rfl⟩) fun _ => ?_
  exact Act.within_get.bind fun _ => fun _ => ⟨rfl, rfl⟩

end Heap

theorem Progress.start_ok {p p' : Progress} {epoch : Int} (h : p.start epoch = .ok p') :
    p'.started = epoch ∧ p'.finished = p.finished ∧ p'.finalized = p.finalized := by
  rw [start] at h
  split_ifs at h
  all_goals
    obtain rfl := Except.ok.inj h
    exact ⟨rfl, rfl, rfl⟩

namespace RuntimeSystem

variable {policy : Policy ρ} {finalizer : Finalizer (Diary ρ)} {e e' : RuntimeSystem ρ}

/-- No page waits for the sweep, and none is being swept. -/
def Quiet (e : RuntimeSystem ρ) : Prop := e.heap.Settled ∧ e.heap.arena.sweepers = 0

/-- The collector holds nothing. -/
def Cleared (e : RuntimeSystem ρ) : Prop := e.Quiet ∧ e.assistants = [] ∧ e.collector.queue = []

/-- What holds when the collector is at a stage. -/
def At (e : RuntimeSystem ρ) : Stage → Prop
  | .resting | .preparing | .finishing => e.Cleared
  | .scheduling => e.Cleared ∧ e.epoch ≤ e.worker.progress.finished
  | .sweeping => e.collector.Diligent e.heap
  | .joining => e.Quiet
  | .submitting => e.Quiet ∧ e.assistants = []
  | .stuck => True

/-- The epochs are in order. -/
structure Calendar (e : RuntimeSystem ρ) : Prop where
  started_eq : e.worker.progress.started = e.epoch
  finished_le : e.worker.progress.finished ≤ e.epoch
  epoch_pos : 0 ≤ e.epoch ∧ (e.stage ≠ .resting → 0 < e.epoch)
  scheduled : ∀ s ∈ e.worker.scheduled, 0 < s ∧ s ≤ e.epoch ∧ (e.stage ≠ .resting → s < e.epoch)
  answered : ∀ a ∈ e.answered, 0 < a.1 ∧ a.1 ≤ e.epoch
  late : ∀ a ∈ e.late, a.1 ∈ e.worker.scheduled

/-- The threads are in their places, and their sweeps are counted. -/
structure Roster (e : RuntimeSystem ρ) : Prop where
  placed : ∀ s ∈ e.threads, s.Placed
  sweepers : e.heap.arena.sweepers = e.threads.countP (·.task.isSweeping)

/-- Whatever the policy sent to finalizers has been handed over or is in a queue, and the queues are
of this cycle. -/
structure Ledger (e : RuntimeSystem ρ) : Prop where
  balance : (e.answered.map Prod.snd).Perm (e.worker.added ++ e.queues)
  recent : e.stage ≠ .preparing → e.queues.Subperm (e.answeredIn e.epoch)

/-- The worker keeps its promises: an epoch stands for all that the policy sent to finalizers up to
then, but for what was late. -/
structure Served (e : RuntimeSystem ρ) : Prop where
  sound : e.worker.Sound
  stopping : e.worker.tasks.stopping = false
  finalized_eq : e.worker.progress.finalized = e.worker.reported.getLastD 0
  promised : ∀ s ∈ e.worker.scheduled, ∃ due, e.worker.Promised (s : Int) due ∧
    (e.answeredUpTo s).Perm (due ++ e.lateFor s) ∧ (e.lateFor s).Subperm (e.answeredIn s)

structure Sound (e : RuntimeSystem ρ) : Prop where
  calendar : e.Calendar
  roster : e.Roster
  ledger : e.Ledger
  served : e.Served
  standing : e.At e.stage

/-! ### A thread goes on -/

section Goes

variable {s s' : Sweeper} {h' : Heap (Diary ρ)} {sent : List BlockRef} {xs ys : List Sweeper}

theorem Roster.isSweeping (hr : e.Roster) (hquiet : e.Quiet) (hs : s ∈ e.threads) :
    s.task.isSweeping = false := by
  have hcount := hr.sweepers
  rw [hquiet.2] at hcount
  exact Bool.eq_false_iff.mpr (List.countP_eq_zero.mp hcount.symm s hs)

theorem Roster.counted (hr : e.Roster) (hs : s ∈ e.threads) (hsweeping : s.task.isSweeping = true) :
    0 < e.heap.arena.sweepers := by
  rw [hr.sweepers]
  exact List.countP_pos_iff.mpr ⟨s, hs, hsweeping⟩

/-- All is quiet when the collector rests or has not begun its cycle. -/
theorem At.quiet {stage : Stage} (he : e.At stage) :
    (stage ≠ .resting ∧ stage ≠ .preparing) ∨ e.Quiet := by
  cases stage with
  | resting => exact .inr he.1
  | preparing => exact .inr he.1
  | _ => exact .inl ⟨nofun, nofun⟩

theorem leave_answered (hgoes : s.Goes e.heap s' h' sent) :
    (e.leave h').answered = e.answered ++ sent.map (e.epoch, ·) := by
  rw [leave, hgoes.answered_eq, List.drop_left]

theorem Quiet.goes (hquiet : e.Quiet) (hgoes : s.Goes e.heap s' h' sent)
    (hs : s.task.isSweeping = false) : h'.Settled ∧ h'.arena.sweepers = 0 := by
  refine ⟨fun k hk => hgoes.unswept k (hquiet.1 k hk), ?_⟩
  have hcount := hgoes.sweepers
  rwa [hs, (hgoes.settled hquiet.1 hs).1, hquiet.2] at hcount

/-- The policy sends nothing to finalizers while the collector rests or has not begun its cycle. -/
theorem Sound.sent_of_quiet (he : e.Sound) (hs : s ∈ e.threads) (hgoes : s.Goes e.heap s' h' sent) :
    (e.stage ≠ .resting ∧ e.stage ≠ .preparing) ∨ sent = [] :=
  he.standing.quiet.imp_right fun hquiet =>
    (hgoes.settled hquiet.1 (he.roster.isSweeping hquiet hs)).2

/-- One thread is in another place, or begins or ends a sweep. -/
theorem Roster.replace (hr : e.Roster) (hthreads : e.threads = xs ++ s :: ys)
    (hthreads' : e'.threads = xs ++ s' :: ys) (hplaced : s'.Placed)
    (hcount : e'.heap.arena.sweepers + s.task.isSweeping.toNat =
      e.heap.arena.sweepers + s'.task.isSweeping.toNat) : e'.Roster where
  placed u hu := by
    have hold := hr.placed u
    rw [hthreads'] at hu
    rw [hthreads] at hold
    simp only [List.mem_append, List.mem_cons] at hu hold
    rcases hu with hu | rfl | hu
    · exact hold (.inl hu)
    · exact hplaced
    · exact hold (.inr (.inr hu))
  sweepers := by
    have hold := hr.sweepers
    rw [hthreads] at hold
    rw [hthreads']
    simp only [List.countP_append, List.countP_cons] at hold ⊢
    cases hs : s.task.isSweeping <;> cases hs' : s'.task.isSweeping <;>
      simp [hs, hs'] at hold hcount ⊢ <;> omega

theorem Ledger.goes {c : Sweeper} {as ms : List Sweeper} (hl : e.Ledger)
    (hthreads : e.threads = xs ++ s :: ys) (hthreads' : c :: (as ++ ms) = xs ++ s' :: ys)
    (hgoes : s.Goes e.heap s' h' sent) :
    Ledger { e.leave h' with collector := c, assistants := as, mutators := ms } := by
  have hqueues : (queues { e.leave h' with collector := c, assistants := as, mutators := ms }).Perm
      (e.queues ++ sent) := by
    rw [queues, queues, threads, hthreads', hthreads]
    refine List.perm_iff_count.mpr fun b => ?_
    simp only [List.flatMap_append, List.flatMap_cons, hgoes.queue_eq, List.count_append]
    omega
  have hanswered := leave_answered hgoes
  refine ⟨?_, fun hstage => ?_⟩
  · have hbalance := hl.balance
    change ((e.leave h').answered.map Prod.snd).Perm (e.worker.added ++ _)
    refine List.perm_iff_count.mpr fun b => ?_
    rw [hanswered, List.count_append, hqueues.count_eq]
    have hcount := hbalance.count_eq b
    simp only [List.map_append, List.map_map, Function.comp_def, List.map_id', List.count_append]
      at hcount ⊢
    omega
  · have hin :
        answeredIn { e.leave h' with collector := c, assistants := as, mutators := ms } e.epoch =
          e.answeredIn e.epoch ++ sent := by
      change ((e.leave h').answered.filter _).map Prod.snd = _
      rw [hanswered]
      simp [answeredIn, List.filter_map, Function.comp_def]
    change List.Subperm _ (answeredIn _ e.epoch)
    rw [hin]
    exact hqueues.subperm.trans ((List.subperm_append_right sent).mpr (hl.recent hstage))

theorem Calendar.goes {c : Sweeper} {as ms : List Sweeper} (hc : e.Calendar)
    (hsent : e.stage ≠ .resting ∨ sent = []) (hgoes : s.Goes e.heap s' h' sent) :
    Calendar { e.leave h' with collector := c, assistants := as, mutators := ms } where
  started_eq := hc.started_eq
  finished_le := hc.finished_le
  epoch_pos := hc.epoch_pos
  scheduled := hc.scheduled
  answered a ha := by
    change a ∈ (e.leave h').answered at ha
    rw [leave_answered hgoes] at ha
    rcases List.mem_append.mp ha with hold | hnew
    · exact hc.answered a hold
    · obtain ⟨b, hb, rfl⟩ := List.mem_map.mp hnew
      exact ⟨hc.epoch_pos.2 (hsent.resolve_right (List.ne_nil_of_mem hb)), le_rfl⟩
  late := hc.late

/-- What a later cycle sends to finalizers is none of an earlier epoch's business. -/
theorem Served.goes {c : Sweeper} {as ms : List Sweeper} (hserved : e.Served) (hc : e.Calendar)
    (hsent : e.stage ≠ .resting ∨ sent = []) (hgoes : s.Goes e.heap s' h' sent) :
    Served { e.leave h' with collector := c, assistants := as, mutators := ms } := by
  refine ⟨hserved.sound.tend (congrArg Handoff.toList hgoes.pending_eq), hserved.stopping,
    hserved.finalized_eq, fun u hu => ?_⟩
  obtain ⟨due, hpromised, hperm, hsub⟩ := hserved.promised u hu
  refine ⟨due, hpromised.congr (List.prefix_refl _) hpromised.awaits rfl (List.prefix_refl _), ?_⟩
  have hnew : sent.map (e.epoch, ·) = [] ∨ u < e.epoch := by
    rcases hsent with hstage | rfl
    · exact .inr ((hc.scheduled u hu).2.2 hstage)
    · exact .inl rfl
  have hsame (p : Int × BlockRef → Bool) (hp : ∀ b, u < e.epoch → p (e.epoch, b) = false) :
      (e.leave h').answered.filter p = e.answered.filter p := by
    rw [leave_answered hgoes, List.filter_append]
    rcases hnew with hnil | hlt
    · rw [hnil, List.filter_nil, List.append_nil]
    · simp [List.filter_map, Function.comp_def, hp, hlt]
  change List.Perm (((e.leave h').answered.filter _).map Prod.snd) _ ∧
    List.Subperm _ (((e.leave h').answered.filter _).map Prod.snd)
  rw [hsame _ fun b hlt => by simpa using hlt, hsame _ fun b hlt => by simpa using hlt.ne']
  exact ⟨hperm, hsub⟩

/-- A thread goes on. -/
theorem Sound.goes {c : Sweeper} {as ms : List Sweeper} (he : e.Sound)
    (hthreads : e.threads = xs ++ s :: ys) (hthreads' : c :: (as ++ ms) = xs ++ s' :: ys)
    (hplaced : s'.Placed) (hgoes : s.Goes e.heap s' h' sent)
    (hstanding : At { e.leave h' with collector := c, assistants := as, mutators := ms } e.stage) :
    Sound { e.leave h' with collector := c, assistants := as, mutators := ms } := by
  have hs : s ∈ e.threads := hthreads ▸ List.mem_append_right _ List.mem_cons_self
  have hsent := (he.sent_of_quiet hs hgoes).imp_left And.left
  exact ⟨he.calendar.goes hsent hgoes, he.roster.replace hthreads hthreads' hplaced hgoes.sweepers,
    he.ledger.goes hthreads hthreads' hgoes, he.served.goes he.calendar hsent hgoes, hstanding⟩

/-- A thread other than the collector does not change where the collector stands. -/
theorem At.goes {stage : Stage} {as ms : List Sweeper} (he : e.At stage) (hr : e.Roster)
    (hs : s ∈ e.threads) (hgoes : s.Goes e.heap s' h' sent) (has : e.assistants = [] → as = []) :
    At { e.leave h' with assistants := as, mutators := ms } stage := by
  have hquiet (hq : e.Quiet) : Quiet { e.leave h' with assistants := as, mutators := ms } :=
    hq.goes hgoes (hr.isSweeping hq hs)
  have hcleared (hc : e.Cleared) : Cleared { e.leave h' with assistants := as, mutators := ms } :=
    ⟨hquiet hc.1, has hc.2.1, hc.2.2⟩
  cases stage with
  | sweeping => exact Sweeper.Diligent.mono he fun k _ => hgoes.unswept k
  | joining => exact hquiet he
  | submitting => exact ⟨hquiet he.1, has he.2⟩
  | scheduling => exact ⟨hcleared he.1, he.2⟩
  | stuck => trivial
  | _ => exact hcleared he

/-- A mutator goes on. -/
theorem Sound.mutator (he : e.Sound) {i : Nat} (hs : e.mutators[i]? = some s) (hplaced : s'.Placed)
    (hgoes : s.Goes e.heap s' h' sent) :
    Sound { e.leave h' with mutators := e.mutators.set i s' } := by
  obtain ⟨xs, ys, hsplit, hset⟩ := split_at hs
  have hthreads : e.threads = (e.collector :: (e.assistants ++ xs)) ++ s :: ys := by
    simp [threads, hsplit]
  have hmem : s ∈ e.threads := hthreads ▸ List.mem_append_right _ List.mem_cons_self
  refine he.goes hthreads ?_ hplaced hgoes (he.standing.goes he.roster hmem hgoes id)
  simp [hset, leave]

theorem Sound.assist (he : e.Sound) (i : Nat) : (e.step policy finalizer (.assist i)).Sound := by
  rw [step]
  cases hs : e.assistants[i]? with
  | none => exact he
  | some s =>
    obtain ⟨xs, ys, hsplit, hset⟩ := split_at hs
    have hthreads : e.threads = (e.collector :: xs) ++ s :: (ys ++ e.mutators) := by
      simp [threads, hsplit]
    have hmem : s ∈ e.threads := hthreads ▸ List.mem_append_right _ List.mem_cons_self
    have hplaced := he.roster.placed s hmem
    obtain ⟨sent, hgoes⟩ := s.goes_toil policy e.epoch hplaced (he.roster.counted hmem)
    refine he.goes hthreads ?_ (hplaced.toil _ _ _) hgoes (he.standing.goes he.roster hmem hgoes ?_)
    · simp [hset, leave]
    · simp [hsplit]

theorem Sound.act (he : e.Sound) (i : Nat) : (e.step policy finalizer (.act i)).Sound := by
  rw [step]
  cases hs : e.mutators[i]? with
  | none => exact he
  | some s =>
    have hmem : s ∈ e.threads :=
      List.mem_cons_of_mem _ (List.mem_append_right _ (List.mem_of_getElem? hs))
    have hplaced := he.roster.placed s hmem
    obtain ⟨sent, hgoes⟩ := s.goes_act policy hplaced.place (he.roster.counted hmem)
    exact he.mutator hs (hplaced.act _ _) hgoes

theorem leave_self (e : RuntimeSystem ρ) : e.leave e.heap = e := by
  simp [leave, heap]

theorem Sound.call (he : e.Sound) (i : Nat) {r : Request} (hr : e.Admits (.call i r)) :
    (e.step policy finalizer (.call i r)).Sound := by
  rw [step]
  cases hs : e.mutators[i]? with
  | none => exact he
  | some s =>
    dsimp only
    split_ifs with hfree
    · have hmem : s ∈ e.threads :=
        List.mem_cons_of_mem _ (List.mem_append_right _ (List.mem_of_getElem? hs))
      have hgoes : s.Goes e.heap
          { s with place := r, task := (Call.getPage r e.heap.epoch).task } e.heap [] :=
        .of_eq rfl (Task.rest_of_isFree hfree.1).2.2.2.symm rfl rfl rfl fun _ => rfl
      have hplaced :
          Sweeper.Placed { s with place := r, task := (Call.getPage r e.heap.epoch).task } :=
        ⟨hr, (he.roster.placed s hmem).chores⟩
      have hsound := he.mutator hs hplaced hgoes
      rwa [leave_self] at hsound
    · exact he

end Goes

/-! ### Others -/

section Advance

variable {b : FinalizerWorker (Diary ρ)} {stage : Stage} {c : Sweeper} {as ms : List Sweeper}

/-- Without new answers, and without an epoch that starts or is scheduled, the books stay in
order. -/
theorem Sound.advance (he : e.Sound) (hb : e.worker.Continues b)
    (hfinished : b.progress.finished ≤ e.epoch) (hstage : stage ≠ .resting → e.stage ≠ .resting)
    (hroster : Roster
      { e with worker := b, stage := stage, collector := c, assistants := as, mutators := ms })
    (hledger : Ledger
      { e with worker := b, stage := stage, collector := c, assistants := as, mutators := ms })
    (hstanding : At
      { e with worker := b, stage := stage, collector := c, assistants := as, mutators := ms }
      stage) :
    Sound
      { e with worker := b, stage := stage, collector := c, assistants := as, mutators := ms } := by
  refine ⟨⟨hb.started_eq.trans he.calendar.started_eq, hfinished, ?_, fun u hu => ?_,
    he.calendar.answered, ?_⟩, hroster, hledger,
    ⟨hb.sound, hb.stopping_eq.trans he.served.stopping, hb.finalized_eq, fun u hu => ?_⟩, hstanding⟩
  · exact ⟨he.calendar.epoch_pos.1, fun h => he.calendar.epoch_pos.2 (hstage h)⟩
  · obtain ⟨hpos, hle, hlt⟩ := he.calendar.scheduled u (hb.scheduled_eq ▸ hu)
    exact ⟨hpos, hle, fun h => hlt (hstage h)⟩
  · rw [hb.scheduled_eq]
    exact he.calendar.late
  · obtain ⟨due, hdue, hrest⟩ := he.served.promised u (hb.scheduled_eq ▸ hu)
    exact ⟨due, hb.promised _ _ hdue, hrest⟩

theorem Served.tend (hs : e.Served) {h : Heap (Diary ρ)}
    (hpending : h.pending.toList = e.heap.pending.toList) :
    e.worker.Continues { e.worker with heap := h } :=
  FinalizerWorker.continues_tend hs.sound hs.finalized_eq hpending

/-- The stage depends only on what the collector and its assistants hold and on which pages wait. -/
theorem At.congr (he : e.At stage) (hepoch : e'.epoch = e.epoch)
    (hfinished : e'.worker.progress.finished = e.worker.progress.finished)
    (hcollector : e'.collector = e.collector) (hassistants : e'.assistants = e.assistants)
    (hsweepers : e'.heap.arena.sweepers = e.heap.arena.sweepers)
    (hunswept : ∀ k ∈ Heap.allRequests, (e'.heap.shelf k).unswept = (e.heap.shelf k).unswept) :
    e'.At stage := by
  have hquiet (hq : e.Quiet) : e'.Quiet :=
    ⟨fun k hk => (hunswept k hk).trans (hq.1 k hk), hsweepers.trans hq.2⟩
  have hcleared (hc : e.Cleared) : e'.Cleared := by
    rw [Cleared, hassistants, hcollector]
    exact ⟨hquiet hc.1, hc.2⟩
  cases stage with
  | sweeping =>
    rw [At, hcollector]
    exact Sweeper.Diligent.mono he fun k hk hnil => (hunswept k hk).trans hnil
  | joining => exact hquiet he
  | submitting =>
    rw [At, hassistants]
    exact ⟨hquiet he.1, he.2⟩
  | scheduling =>
    rw [At, hepoch, hfinished]
    exact ⟨hcleared he.1, he.2⟩
  | stuck => trivial
  | _ => exact hcleared he

/-- Somebody works on the heap or the counters, and neither hands anything over nor makes pages
wait. -/
theorem Sound.keep (he : e.Sound) (hb : e.worker.Continues b)
    (hfinished : b.progress.finished = e.worker.progress.finished)
    (hadded : b.added = e.worker.added) (hsweepers : b.heap.arena.sweepers = e.heap.arena.sweepers)
    (hunswept : ∀ k ∈ Heap.allRequests, (b.heap.shelf k).unswept = (e.heap.shelf k).unswept) :
    Sound { e with worker := b } := by
  refine he.advance hb (hfinished.le.trans he.calendar.finished_le) id
    ⟨he.roster.placed, hsweepers.trans he.roster.sweepers⟩ ⟨?_, he.ledger.recent⟩
    (he.standing.congr rfl hfinished rfl rfl hsweepers hunswept)
  rw [hadded]
  exact he.ledger.balance

end Advance

theorem Sound.work (he : e.Sound) : (e.step policy finalizer .work).Sound := by
  have hspares := FinalizerWorker.work_spares policy.noting finalizer e.worker
  exact he.keep (FinalizerWorker.continues_work he.served.sound he.served.finalized_eq)
    hspares.finished_eq hspares.added_eq hspares.sweepers_eq fun k _ =>
      congrArg Shelf.unswept (hspares.shelf_eq k)

theorem Sound.tend (he : e.Sound) {f : Heap (Diary ρ) → Heap (Diary ρ)} (hf : e.Admits (.tend f)) :
    (e.step policy finalizer (.tend f)).Sound :=
  he.keep (he.served.tend hf.1) rfl rfl hf.2.1 hf.2.2

theorem Sound.request (he : e.Sound) : (e.step policy finalizer .request).Sound := by
  have hfinalized : e.worker.progress.schedule.2.finalized = e.worker.progress.finalized := by
    rw [Progress.schedule]
    split_ifs <;> rfl
  have hfinished := Progress.schedule_finished e.worker.progress
  exact he.keep (FinalizerWorker.continues_count he.served.sound he.served.finalized_eq
    (Progress.schedule_started _) hfinished.ge hfinalized) hfinished rfl rfl fun _ _ => rfl

theorem Sound.attach (he : e.Sound) : (e.step policy finalizer .attach).Sound := by
  have hthreads : (e.step policy finalizer .attach).threads = e.threads ++ [({} : Sweeper)] := by
    simp [threads, step]
  have hqueues : (e.step policy finalizer .attach).queues = e.queues := by
    simp [queues, hthreads]
  refine he.advance (he.served.tend rfl) he.calendar.finished_le id ⟨fun s hs => ?_, ?_⟩ ⟨?_, ?_⟩
    (he.standing.congr rfl rfl rfl rfl rfl fun _ _ => rfl)
  · rcases List.mem_append.mp (hthreads ▸ hs) with hold | hnew
    · exact he.roster.placed s hold
    · obtain rfl := List.mem_singleton.mp hnew
      exact ⟨Heap.mem_allRequests.mpr (.inl ⟨rfl, Nat.zero_le _⟩), by simp⟩
  · refine he.roster.sweepers.trans ?_
    change _ = (e.step policy finalizer .attach).threads.countP _
    rw [hthreads, List.countP_append]
    rfl
  · change List.Perm _ (_ ++ (e.step policy finalizer .attach).queues)
    rw [hqueues]
    exact he.ledger.balance
  · change _ → (e.step policy finalizer .attach).queues.Subperm _
    rw [hqueues]
    exact he.ledger.recent

/-! ### Handing over -/

section HandOver

variable {s : Sweeper} {xs ys : List Sweeper} {stage : Stage} {c : Sweeper} {as ms : List Sweeper}

/-- What a thread hands over is due from now on, and in no queue any more. -/
theorem Ledger.handOver (hl : e.Ledger) (hthreads : e.threads = xs ++ s :: ys)
    (hthreads' : e'.threads = xs ++ { s with queue := [] } :: ys)
    (hadded : e'.worker.added = e.worker.added ++ s.queue) (hanswered : e'.answered = e.answered)
    (hepoch : e'.epoch = e.epoch) (hstage : e'.stage ≠ .preparing → e.stage ≠ .preparing) :
    e'.Ledger := by
  have hqueues : e.queues.Perm (e'.queues ++ s.queue) := by
    rw [queues, queues, hthreads, hthreads']
    refine List.perm_iff_count.mpr fun b => ?_
    simp only [List.flatMap_append, List.flatMap_cons, List.count_append, List.count_nil]
    omega
  refine ⟨?_, fun hne => ?_⟩
  · rw [hanswered, hadded]
    refine hl.balance.trans (List.perm_iff_count.mpr fun b => ?_)
    simp only [List.count_append, hqueues.count_eq]
    omega
  · rw [hepoch, answeredIn, hanswered]
    exact ((List.sublist_append_left _ _).subperm.trans hqueues.symm.subperm).trans
      (hl.recent (hstage hne))

/-- A thread hands over what it has set aside. -/
theorem Sound.handOver (he : e.Sound) (hthreads : e.threads = xs ++ s :: ys)
    (hthreads' : c :: (as ++ ms) = xs ++ { s with queue := [] } :: ys)
    (hresting : stage ≠ .resting → e.stage ≠ .resting)
    (hpreparing : stage ≠ .preparing → e.stage ≠ .preparing)
    (hstanding : At { e with
      worker := e.worker.step policy.noting finalizer (.add ⟨s.queue.toArray⟩)
      stage := stage, collector := c, assistants := as, mutators := ms } stage) :
    Sound { e with
      worker := e.worker.step policy.noting finalizer (.add ⟨s.queue.toArray⟩)
      stage := stage, collector := c, assistants := as, mutators := ms } := by
  have hs := he.roster.placed s (hthreads ▸ List.mem_append_right _ List.mem_cons_self)
  refine he.advance (FinalizerWorker.continues_add he.served.sound he.served.finalized_eq _)
    he.calendar.finished_le hresting (he.roster.replace hthreads hthreads' ⟨hs.place, hs.chores⟩ ?_)
    (he.ledger.handOver hthreads hthreads' rfl rfl rfl hpreparing) hstanding
  simp only [heap, FinalizerWorker.step, Heap.submit_eq]

/-- To hand over blocks changes nothing about the pages. -/
theorem step_add_heap (queue : Handoff BlockRef) :
    (e.worker.step policy.noting finalizer (.add queue)).heap =
      { e.worker.heap with pending := e.worker.heap.pending.merge queue } := by
  rw [FinalizerWorker.step, Heap.submit_eq]

theorem Sound.flush (he : e.Sound) (i : Nat) : (e.step policy finalizer (.flush i)).Sound := by
  rw [step]
  cases hs : e.mutators[i]? with
  | none => exact he
  | some s =>
    dsimp only
    split_ifs with hfree
    · obtain ⟨xs, ys, hsplit, hset⟩ := split_at hs
      have hthreads : e.threads = (e.collector :: (e.assistants ++ xs)) ++ s :: ys := by
        simp [threads, hsplit]
      refine he.handOver hthreads ?_ id id (he.standing.congr rfl rfl rfl rfl ?_ fun k _ => ?_)
      · simp [hset]
      · rw [heap, step_add_heap]
        rfl
      · rw [heap, step_add_heap]
        rfl
    · exact he

end HandOver

end RuntimeSystem

end SweptHeap
