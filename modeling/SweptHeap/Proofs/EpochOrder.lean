import Mathlib
import SweptHeap.Proofs.EpochProtocol.Basic

/-!
# Epochs come in order

However the threads take their turns, epochs are collected one after the other, and no counter
runs ahead of the one it follows.
-/

namespace SweptHeap

@[simp] theorem Progress.schedule_finalized (p : Progress) :
    p.schedule.2.finalized = p.finalized := by
  unfold schedule
  split <;> rfl

namespace EpochProtocol

variable {c c' : EpochProtocol} {i j : Nat}

/-- What holds for a thread at its stage. While it has the turn, only its own collection is under
way. -/
def Fits (c : EpochProtocol) : Stage → Prop
  | .idle => True
  | .called epoch => epoch ≤ c.progress.scheduled
  | .checking epoch => epoch ≤ c.progress.scheduled ∧ c.progress.started = c.progress.finished
  | .asking => c.progress.started = c.progress.finished
  | .starting epoch => epoch ≤ c.progress.scheduled ∧ c.progress.started = c.progress.finished ∧
      epoch = c.progress.finished + 1
  | .collecting epoch => c.progress.started = epoch ∧ epoch = c.progress.finished + 1
  | .handingOver epoch => c.progress.started = epoch ∧ epoch = c.progress.finished
  | .settling epoch => c.progress.started = epoch ∧ epoch = c.progress.finished ∧ c.worker = none
  | .leaving => c.progress.started = c.progress.finished

/-- The marks of all epochs that have finished, and of the one that has not. -/
def Recorded (c : EpochProtocol) : Prop :=
  ∃ n : Nat, c.progress.finished = n ∧
    c.history = Mark.rounds n ++ if c.progress.started = n then [] else [.started (n + 1)]

structure Orderly (c : EpochProtocol) : Prop where
  finalized_le : c.progress.finalized ≤ c.progress.finished
  finished_le : c.progress.finished ≤ c.progress.started
  started_le : c.progress.started ≤ c.progress.scheduled
  started_le_succ : c.progress.started ≤ c.progress.finished + 1
  scheduled_le : c.progress.scheduled ≤ c.progress.started + 1
  recorded : c.Recorded
  resting : c.turn = none → c.progress.started = c.progress.finished
  turn_iff : ∀ i, (c.stage i).HasTurn ↔ c.turn = some i
  desk_iff : ∀ i, (c.stage i).AtDesk ↔ c.desk = some i
  fits : ∀ i, c.Fits (c.stage i)
  /-- Nobody serves an epoch without a worker. -/
  unserved : c.worker = none → c.serving = none
  serving_le : ∀ epoch, c.serving = some epoch →
    c.progress.finalized ≤ epoch ∧ epoch ≤ c.progress.finished
  /-- What waits for the worker comes after what it serves. -/
  waiting_le : ∀ tasks epoch, c.worker = some tasks → tasks.epoch = some epoch →
    c.progress.finalized ≤ epoch ∧ epoch ≤ c.progress.finished ∧
      ∀ served, c.serving = some served → served ≤ epoch

/-- The counters only grow. -/
structure Grows (p p' : Progress) : Prop where
  scheduled_le : p.scheduled ≤ p'.scheduled
  started_le : p.started ≤ p'.started
  finished_le : p.finished ≤ p'.finished
  finalized_le : p.finalized ≤ p'.finalized

theorem Grows.refl (p : Progress) : Grows p p :=
  ⟨Int.le_refl _, Int.le_refl _, Int.le_refl _, Int.le_refl _⟩

theorem Grows.trans {p p' p'' : Progress} (h : Grows p p') (h' : Grows p' p'') : Grows p p'' :=
  ⟨h.scheduled_le.trans h'.scheduled_le, h.started_le.trans h'.started_le,
    h.finished_le.trans h'.finished_le, h.finalized_le.trans h'.finalized_le⟩

theorem orderly_new : ({} : EpochProtocol).Orderly where
  finalized_le := Int.le_refl 0
  finished_le := Int.le_refl 0
  started_le := Int.le_refl 0
  started_le_succ := by simp
  scheduled_le := by simp
  recorded := ⟨0, rfl, rfl⟩
  resting _ := rfl
  turn_iff i := by simp [Stage.HasTurn]
  desk_iff i := by simp [Stage.AtDesk]
  fits _ := trivial
  unserved _ := rfl
  serving_le epoch he := by simp at he
  waiting_le tasks epoch hw := by simp at hw

/-! ### Locks -/

section Locks

variable {P : Stage → Prop} {o : Option Nat} {s : Stage}

theorem holder_keep (h : ∀ j, P (c.stage j) ↔ o = some j) (hs : P s ↔ P (c.stage i)) (j : Nat) :
    P ((c.move i s).stage j) ↔ o = some j := by
  by_cases hji : j = i
  · subst hji
    rw [move_stage_self, hs, h]
  · rw [move_stage_of_ne c s hji, h]

theorem holder_acquire (h : ∀ j, P (c.stage j) ↔ none = some j) (hs : P s) (j : Nat) :
    P ((c.move i s).stage j) ↔ some i = some j := by
  by_cases hji : j = i
  · subst hji
    simp [hs]
  · rw [move_stage_of_ne c s hji, h]
    simp [Ne.symm hji]

theorem holder_release (h : ∀ j, P (c.stage j) ↔ o = some j) (hi : P (c.stage i)) (hs : ¬P s)
    (j : Nat) : P ((c.move i s).stage j) ↔ none = some j := by
  by_cases hji : j = i
  · subst hji
    simp [hs]
  · rw [move_stage_of_ne c s hji, h, (h i).mp hi]
    simp [Ne.symm hji]

end Locks

/-! ### What is true of a thread stays true while others act -/

theorem Fits.mono {s : Stage} (h : c.Fits s)
    (hscheduled : c.progress.scheduled ≤ c'.progress.scheduled)
    (hstarted : c'.progress.started = c.progress.started)
    (hfinished : c'.progress.finished = c.progress.finished)
    (hworker : s.AtDesk → c.worker = none → c'.worker = none) : c'.Fits s := by
  cases s with
  | idle => trivial
  | called epoch => exact Int.le_trans h hscheduled
  | checking epoch =>
    unfold Fits at h ⊢
    omega
  | asking =>
    unfold Fits at h ⊢
    omega
  | starting epoch =>
    unfold Fits at h ⊢
    omega
  | collecting epoch =>
    unfold Fits at h ⊢
    omega
  | handingOver epoch =>
    unfold Fits at h ⊢
    omega
  | settling epoch =>
    obtain ⟨hst, hfin, hnone⟩ := h
    refine ⟨?_, ?_, hworker trivial hnone⟩ <;> omega
  | leaving =>
    unfold Fits at h ⊢
    omega

theorem Fits.of_waits {s : Stage} (h : c.Fits s) (hs : ¬s.HasTurn)
    (hscheduled : c.progress.scheduled ≤ c'.progress.scheduled) : c'.Fits s := by
  cases s with
  | idle => trivial
  | called epoch => exact Int.le_trans h hscheduled
  | _ => exact absurd trivial hs

theorem fits_move {s : Stage} (hself : c'.Fits s) (hothers : ∀ j ≠ i, c'.Fits (c.stage j))
    (j : Nat) : c'.Fits ((c.move i s).stage j) := by
  by_cases hji : j = i
  · subst hji
    rw [move_stage_self]
    exact hself
  · rw [move_stage_of_ne c s hji]
    exact hothers j hji

namespace Orderly

/-- While a thread has the turn, all others wait. -/
theorem others_wait (hc : c.Orderly) (hi : (c.stage i).HasTurn) (hji : j ≠ i) :
    ¬(c.stage j).HasTurn := by
  intro hj
  have hti := (hc.turn_iff i).mp hi
  have htj := (hc.turn_iff j).mp hj
  rw [hti] at htj
  exact hji (Option.some.inj htj).symm

/-- A thread that has the turn may change the counters: the others do not rely on them. -/
theorem fits_turn (hc : c.Orderly) (hi : (c.stage i).HasTurn) {s : Stage} (hself : c'.Fits s)
    (hscheduled : c.progress.scheduled ≤ c'.progress.scheduled) (j : Nat) :
    c'.Fits ((c.move i s).stage j) :=
  fits_move hself (fun j hji => (hc.fits j).of_waits (hc.others_wait hi hji) hscheduled) j

/-! ### Deeds -/

theorem schedule (hc : c.Orderly) : Orderly { c with progress := c.progress.schedule.2 } where
  finalized_le := by simpa using hc.finalized_le
  finished_le := by simpa using hc.finished_le
  started_le := by
    have := hc.started_le
    simp only [Progress.schedule_started, Progress.schedule_scheduled, Progress.schedule_fst]
    omega
  started_le_succ := by simpa using hc.started_le_succ
  scheduled_le := by
    have := hc.scheduled_le
    simp only [Progress.schedule_started, Progress.schedule_scheduled, Progress.schedule_fst]
    omega
  recorded := by simpa [Recorded] using hc.recorded
  resting ht := by simpa using hc.resting ht
  turn_iff := hc.turn_iff
  desk_iff := hc.desk_iff
  fits j := (hc.fits j).mono (by simp) (by simp) (by simp) fun _ hw => hw
  unserved := hc.unserved
  serving_le := by simpa using hc.serving_le
  waiting_le := by simpa using hc.waiting_le

/-- A thread goes on without touching a lock or a counter. -/
theorem move (hc : c.Orderly) {s : Stage} (hturn : s.HasTurn ↔ (c.stage i).HasTurn)
    (hdesk : s.AtDesk ↔ (c.stage i).AtDesk) (hfits : c.Fits s) : (c.move i s).Orderly :=
  { hc with
    turn_iff := holder_keep hc.turn_iff hturn
    desk_iff := holder_keep hc.desk_iff hdesk
    fits := fits_move hfits fun j _ => hc.fits j }

theorem acquire (hc : c.Orderly) (hfree : c.turn = none) {s : Stage} (hturn : s.HasTurn)
    (hdesk : s.AtDesk ↔ (c.stage i).AtDesk) (hfits : c.Fits s) :
    Orderly { c.move i s with turn := some i } :=
  { hc with
    resting := fun ht => by simp at ht
    turn_iff := holder_acquire (hfree ▸ hc.turn_iff) hturn
    desk_iff := holder_keep hc.desk_iff hdesk
    fits := fits_move hfits fun j _ => hc.fits j }

theorem release (hc : c.Orderly) (hi : c.stage i = .leaving) :
    Orderly { c.move i .idle with turn := none } := by
  have hrest : c.Fits .leaving := hi ▸ hc.fits i
  exact { hc with
    resting := fun _ => hrest
    turn_iff := holder_release hc.turn_iff (by rw [hi]; trivial) id
    desk_iff := holder_keep hc.desk_iff (by rw [hi]; rfl)
    fits := fits_move trivial fun j _ => hc.fits j }

/-- The start of an epoch follows the marks of all epochs before. -/
theorem start (hc : c.Orderly) {epoch : Int} (hi : c.stage i = .starting epoch) :
    ∃ p, c.progress.start epoch = .ok p ∧ Grows c.progress p ∧
      Orderly { c.move i (.collecting epoch)
      with progress := p, history := c.history ++ [.started epoch] } := by
  obtain ⟨hle, hrest, hnext⟩ : c.Fits (.starting epoch) := hi ▸ hc.fits i
  have hturn : (c.stage i).HasTurn := hi ▸ trivial
  have hfinished := hc.finished_le
  have hscheduled := hc.scheduled_le
  refine ⟨_, if_pos hle, ⟨Int.le_refl _, ?_, Int.le_refl _, Int.le_refl _⟩, ?_⟩
  · change c.progress.started ≤ epoch
    omega
  · exact { hc with
      finished_le := by
        change c.progress.finished ≤ epoch
        omega
      started_le := hle
      started_le_succ := by
        change epoch ≤ c.progress.finished + 1
        omega
      scheduled_le := by
        change c.progress.scheduled ≤ epoch + 1
        omega
      recorded := by
        obtain ⟨n, hn, hhistory⟩ := hc.recorded
        have hstarted : c.progress.started = n := hrest.trans hn
        have hepoch : epoch = n + 1 := hn ▸ hnext
        refine ⟨n, hn, ?_⟩
        change c.history ++ [.started epoch] = Mark.rounds n ++ if epoch = n then []
        else [.started (n + 1)]
        rw [hhistory, if_pos hstarted, if_neg (by omega), List.append_nil, hepoch]
      resting := fun ht => by cases ((hc.turn_iff i).mp hturn).symm.trans ht
      turn_iff := holder_keep hc.turn_iff (by rw [hi]; rfl)
      desk_iff := holder_keep hc.desk_iff (by rw [hi]; rfl)
      fits := hc.fits_turn hturn ⟨rfl, hnext⟩ (Int.le_refl _) }

theorem finish (hc : c.Orderly) {epoch : Int} (hi : c.stage i = .collecting epoch) :
    ∃ p, c.progress.finish epoch = .ok p ∧ Grows c.progress p ∧
      Orderly { c.move i (.handingOver epoch)
      with progress := p, history := c.history ++ [.finished epoch] } := by
  obtain ⟨hstarted, hnext⟩ : c.Fits (.collecting epoch) := hi ▸ hc.fits i
  have hturn : (c.stage i).HasTurn := hi ▸ trivial
  have hle : c.progress.finished ≤ epoch := by omega
  refine ⟨_, if_pos hstarted.ge, ⟨Int.le_refl _, Int.le_refl _, hle, Int.le_refl _⟩, ?_⟩
  exact { hc with
    finalized_le := hc.finalized_le.trans hle
    finished_le := hstarted.ge
    started_le_succ := by
      change c.progress.started ≤ epoch + 1
      omega
    recorded := by
      obtain ⟨n, hn, hhistory⟩ := hc.recorded
      have hepoch : epoch = n + 1 := hn ▸ hnext
      refine ⟨n + 1, hepoch, ?_⟩
      change c.history ++ [.finished epoch] = Mark.rounds (n + 1) ++
        if c.progress.started = ((n + 1 : Nat) : Int) then [] else [.started ((n + 1 : Nat) + 1)]
      rw [hhistory, if_neg (by omega), if_pos (by omega), List.append_nil,
        List.append_assoc, hepoch]
      rfl
    resting := fun _ => hstarted
    turn_iff := holder_keep hc.turn_iff (by rw [hi]; rfl)
    desk_iff := holder_keep hc.desk_iff (by rw [hi]; rfl)
    fits := hc.fits_turn hturn ⟨hstarted, rfl⟩ (Int.le_refl _)
    serving_le :=
      fun served hs => ⟨(hc.serving_le served hs).1, (hc.serving_le served hs).2.trans hle⟩
    waiting_le := fun tasks waiting hw he => by
      obtain ⟨hlow, hhigh, hserved⟩ := hc.waiting_le tasks waiting hw he
      exact ⟨hlow, hhigh.trans hle, hserved⟩ }

/-- The worker gets an epoch that is later than all that it has. -/
theorem handOver (hc : c.Orderly) {epoch : Int} {tasks : FinalizerTasks}
    (hi : c.stage i = .handingOver epoch) (hw : c.worker = some tasks) :
    Orderly { c.move i .leaving with worker := some (tasks.schedule epoch) } := by
  obtain ⟨hstarted, hfinished⟩ : c.Fits (.handingOver epoch) := hi ▸ hc.fits i
  have hturn : (c.stage i).HasTurn := hi ▸ trivial
  exact { hc with
    turn_iff := holder_keep hc.turn_iff (by rw [hi]; rfl)
    desk_iff := holder_keep hc.desk_iff (by rw [hi]; rfl)
    fits := hc.fits_turn hturn (hstarted.trans hfinished) (Int.le_refl _)
    unserved := fun hnone => by cases hnone
    waiting_le := fun tasks' waiting hw' he => by
      obtain rfl := Option.some.inj hw'
      have hwaiting : waiting = epoch := by
        obtain rfl := Option.some.inj he
        cases hold : tasks.epoch with
        | none => rfl
        | some old =>
          have hle := (hc.waiting_le tasks old hw hold).2.1
          exact max_eq_right (hfinished ▸ hle)
      subst hwaiting
      refine ⟨hfinished ▸ hc.finalized_le, hfinished.le, fun served hs => ?_⟩
      exact hfinished ▸ (hc.serving_le served hs).2 }

theorem keepDesk (hc : c.Orderly) {epoch : Int} (hi : c.stage i = .handingOver epoch)
    (hfree : c.desk = none) (hw : c.worker = none) :
    Orderly { c.move i (.settling epoch) with desk := some i } := by
  obtain ⟨hstarted, hfinished⟩ : c.Fits (.handingOver epoch) := hi ▸ hc.fits i
  exact { hc with
    turn_iff := holder_keep hc.turn_iff (by rw [hi]; rfl)
    desk_iff := holder_acquire (hfree ▸ hc.desk_iff) trivial
    fits := fits_move ⟨hstarted, hfinished, hw⟩ fun j _ => hc.fits j }

/-- Without a worker, the epoch counts as finalized. -/
theorem settle (hc : c.Orderly) {epoch : Int} (hi : c.stage i = .settling epoch) :
    ∃ p, c.progress.finalize epoch = .ok p ∧ Grows c.progress p ∧
      Orderly { c.move i .leaving with progress := p, desk := none } := by
  obtain ⟨hstarted, hfinished, hw⟩ : c.Fits (.settling epoch) := hi ▸ hc.fits i
  have hturn : (c.stage i).HasTurn := hi ▸ trivial
  have hle : c.progress.finalized ≤ epoch := hfinished ▸ hc.finalized_le
  refine ⟨_, if_pos hfinished.le, ⟨Int.le_refl _, Int.le_refl _, Int.le_refl _, hle⟩, ?_⟩
  exact { hc with
    finalized_le := hfinished.le
    turn_iff := holder_keep hc.turn_iff (by rw [hi]; rfl)
    desk_iff := holder_release hc.desk_iff (by rw [hi]; trivial) id
    fits := hc.fits_turn hturn (hstarted.trans hfinished) (Int.le_refl _)
    serving_le := fun served hs => by cases (hc.unserved hw).symm.trans hs
    waiting_le := fun tasks waiting hw' => by cases hw.symm.trans hw' }

theorem hire (hc : c.Orderly) (hfree : c.desk = none) :
    Orderly { c with worker := some {} } :=
  { hc with
    fits := fun j => (hc.fits j).mono (Int.le_refl _) rfl rfl fun hdesk => by
      cases hfree.symm.trans ((hc.desk_iff j).mp hdesk)
    unserved := fun hnone => by cases hnone
    waiting_le := fun tasks epoch hw' he => by
      obtain rfl := Option.some.inj hw'
      cases he }

theorem take (hc : c.Orderly) {tasks : FinalizerTasks} (hw : c.worker = some tasks) :
    Orderly { c with worker := some tasks.take.2, serving := tasks.take.1 } :=
  { hc with
    fits := fun j => (hc.fits j).mono (Int.le_refl _) rfl rfl fun _ hnone => by
      cases hw.symm.trans hnone
    unserved := fun hnone => by cases hnone
    serving_le := fun epoch he => by
      obtain ⟨hlow, hhigh, -⟩ := hc.waiting_le tasks epoch hw he
      exact ⟨hlow, hhigh⟩
    waiting_le := fun tasks' epoch hw' he => by
      obtain rfl := Option.some.inj hw'
      cases he }

theorem finalize (hc : c.Orderly) {epoch : Int} (hs : c.serving = some epoch) :
    ∃ p, c.progress.finalize epoch = .ok p ∧ Grows c.progress p ∧
      Orderly { c with progress := p, serving := none } := by
  obtain ⟨hlow, hhigh⟩ := hc.serving_le epoch hs
  refine ⟨_, if_pos hhigh, ⟨Int.le_refl _, Int.le_refl _, Int.le_refl _, hlow⟩, ?_⟩
  exact { hc with
    finalized_le := hhigh
    fits := fun j => (hc.fits j).mono (Int.le_refl _) rfl rfl fun _ hw => hw
    unserved := fun _ => rfl
    serving_le := fun served he => by cases he
    waiting_le := fun tasks waiting hw he => by
      obtain ⟨-, hle, hserved⟩ := hc.waiting_le tasks waiting hw he
      exact ⟨hserved epoch hs, hle, fun served he => by cases he⟩ }

/-! ### Every deed keeps the order, and none fails -/

theorem proceed (hc : c.Orderly) (i : Nat) :
    ∃ c', c.proceed i = .ok c' ∧ Grows c.progress c'.progress ∧ c'.Orderly := by
  unfold EpochProtocol.proceed
  cases hi : c.stage i with
  | idle => exact ⟨c, rfl, .refl _, hc⟩
  | called epoch =>
    have hfits : c.Fits (.called epoch) := hi ▸ hc.fits i
    by_cases hfree : c.turn = none
    · refine ⟨_, if_pos hfree, .refl _, hc.acquire hfree trivial ?_ ⟨hfits, hc.resting hfree⟩⟩
      rw [hi]
      rfl
    · exact ⟨c, if_neg hfree, .refl _, hc⟩
  | checking epoch =>
    obtain ⟨hle, hrest⟩ : c.Fits (.checking epoch) := hi ▸ hc.fits i
    refine ⟨_, rfl, .refl _, ?_⟩
    split_ifs with hdone
    · exact hc.move (by rw [hi]; rfl) (by rw [hi]; rfl) hrest
    · -- Nothing is under way, so the pending epoch is the next one.
      have hscheduled := hc.scheduled_le
      exact hc.move (by rw [hi]; rfl) (by rw [hi]; rfl) ⟨hle, hrest, by omega⟩
  | asking =>
    have hrest : c.Fits .asking := hi ▸ hc.fits i
    have hscheduled := hc.scheduled_le
    unfold Fits at hrest
    refine ⟨_, rfl, ⟨by simp, by simp, by simp, by simp⟩, ?_⟩
    refine Orderly.move (c := { c with progress := c.progress.schedule.2 }) hc.schedule ?_ ?_ ?_
    · simp only [hi]
      rfl
    · simp only [hi]
      rfl
    · simp only [Fits, Progress.schedule_scheduled, Progress.schedule_started,
        Progress.schedule_finished, Progress.schedule_fst]
      omega
  | starting epoch =>
    obtain ⟨p, hp, hgrows, horderly⟩ := hc.start hi
    exact ⟨_, congrArg (Except.map _) hp, hgrows, horderly⟩
  | collecting epoch =>
    obtain ⟨p, hp, hgrows, horderly⟩ := hc.finish hi
    exact ⟨_, congrArg (Except.map _) hp, hgrows, horderly⟩
  | handingOver epoch =>
    by_cases hfree : c.desk = none
    · cases hw : c.worker with
      | some tasks => exact ⟨_, if_pos hfree, .refl _, hc.handOver hi hw⟩
      | none => exact ⟨_, if_pos hfree, .refl _, hc.keepDesk hi hfree hw⟩
    · exact ⟨c, if_neg hfree, .refl _, hc⟩
  | settling epoch =>
    obtain ⟨p, hp, hgrows, horderly⟩ := hc.settle hi
    exact ⟨_, congrArg (Except.map _) hp, hgrows, horderly⟩
  | leaving => exact ⟨_, rfl, .refl _, hc.release hi⟩

theorem step (hc : c.Orderly) (d : Deed) :
    ∃ c', c.step d = .ok c' ∧ Grows c.progress c'.progress ∧ c'.Orderly := by
  cases d with
  | schedule => exact ⟨_, rfl, ⟨by simp, by simp, by simp, by simp⟩, hc.schedule⟩
  | hire =>
    refine ⟨_, rfl, ?_⟩
    split_ifs with h
    · exact ⟨.refl _, hc.hire h.2⟩
    · exact ⟨.refl _, hc⟩
  | heed i =>
    refine ⟨_, rfl, ?_⟩
    split_ifs with h
    · exact ⟨.refl _, hc.move (by rw [h.1]; rfl) (by rw [h.1]; rfl) (Int.le_refl _)⟩
    · exact ⟨.refl _, hc⟩
  | enter i =>
    refine ⟨_, rfl, ?_⟩
    split_ifs with h
    · exact ⟨.refl _, hc.acquire h.2 trivial (by rw [h.1]; rfl) (hc.resting h.2)⟩
    · exact ⟨.refl _, hc⟩
  | proceed i => exact hc.proceed i
  | take =>
    cases hw : c.worker with
    | none => exact ⟨c, by simp only [EpochProtocol.step, hw], .refl _, hc⟩
    | some tasks =>
      cases hs : c.serving with
      | none =>
        refine ⟨{ c with worker := some tasks.take.2, serving := tasks.take.1 },
          ?_, .refl _, hc.take hw⟩
        simp only [EpochProtocol.step, hw, hs]
      | some epoch => exact ⟨c, by simp only [EpochProtocol.step, hw, hs], .refl _, hc⟩
  | finalize =>
    cases hs : c.serving with
    | none => exact ⟨c, by simp only [EpochProtocol.step, hs], .refl _, hc⟩
    | some epoch =>
      obtain ⟨p, hp, hgrows, horderly⟩ := hc.finalize hs
      refine ⟨{ c with progress := p, serving := none }, ?_, hgrows, horderly⟩
      simp only [EpochProtocol.step, hs, hp]
      rfl

theorem run (hc : c.Orderly) (ds : List Deed) :
    ∃ c', EpochProtocol.run ds c = .ok c' ∧ Grows c.progress c'.progress ∧ c'.Orderly := by
  induction ds generalizing c with
  | nil => exact ⟨c, rfl, .refl _, hc⟩
  | cons d ds ih =>
    obtain ⟨c₁, hstep, hgrows, horderly⟩ := hc.step d
    obtain ⟨c', hrun, hgrows', horderly'⟩ := ih horderly
    refine ⟨c', ?_, hgrows.trans hgrows', horderly'⟩
    rw [EpochProtocol.run, hstep]
    exact hrun

end Orderly

/-- Whatever the threads do and in whatever order, no deed fails, the counters stay in order and
never fall, and the epochs that have finished were collected one after the other, once each. -/
theorem epochs_in_order (ds more : List Deed) :
    ∃ c c' : EpochProtocol, run ds {} = .ok c ∧ run (ds ++ more) {} = .ok c' ∧
      c.progress.finalized ≤ c.progress.finished ∧ c.progress.finished ≤ c.progress.started ∧
      c.progress.started ≤ c.progress.scheduled ∧ c.progress.started ≤ c.progress.finished + 1 ∧
      c.progress.scheduled ≤ c.progress.started + 1 ∧
      c.progress.scheduled ≤ c'.progress.scheduled ∧ c.progress.started ≤ c'.progress.started ∧
      c.progress.finished ≤ c'.progress.finished ∧ c.progress.finalized ≤ c'.progress.finalized ∧
      ∃ n : Nat, c.progress.finished = n ∧
        c.history = Mark.rounds n ++ if c.progress.started = n then [] else [.started (n + 1)] := by
  obtain ⟨c, hrun, -, hc⟩ := orderly_new.run ds
  obtain ⟨c', hrun', hgrows, -⟩ := hc.run more
  exact ⟨c, c', hrun, (run_append hrun).trans hrun', hc.finalized_le, hc.finished_le, hc.started_le,
    hc.started_le_succ, hc.scheduled_le, hgrows.scheduled_le, hgrows.started_le, hgrows.finished_le,
    hgrows.finalized_le, hc.recorded⟩

end EpochProtocol

end SweptHeap
