import Mathlib
import SweptHeap.Proofs.FinalizerWorker.Basic
import SweptHeap.Proofs.Heap.Allocation

/-!
# The worker loses and repeats nothing

Whatever comes between two moves of the worker, each block that it takes has its finalizer run and
is then reported to the policy, once and in the order in which the blocks became due. The epochs
that it reports never fall, and when it has ended the last of them is the largest that was
scheduled.

An epoch that is scheduled is a promise: once it counts as finalized, every block that was due when
it was scheduled has had its treatment. The promise is lost only on an epoch that was scheduled
before and that the worker has already reported or is serving; but a worker with nothing left to do
has treated all that was due then too.
-/

namespace SweptHeap.FinalizerWorker

variable {ρ : Type} {policy : Policy ρ} {finalizer : Finalizer ρ} {b : FinalizerWorker ρ}

/-- The epochs that the worker has yet to report, the one that it serves first. -/
def inHand (b : FinalizerWorker ρ) : List Int := b.post.epoch?.toList ++ b.tasks.epoch.toList

structure Sound (b : FinalizerWorker ρ) : Prop where
  added_eq : b.taken ++ b.heap.pending.toList = b.added
  treated_eq : b.treated ++ b.post.todo = b.taken.flatMap Treatment.course
  finished : ∀ e ∈ b.scheduled, e ≤ b.progress.finished
  sorted : (b.reported ++ b.inHand).Pairwise (· ≤ ·)
  scheduled : ∀ e ∈ b.reported ++ b.inHand, e ∈ b.scheduled
  last_eq : (b.reported ++ b.inHand).getLast? = b.scheduled.max?
  ended : b.post = .ended → b.tasks.epoch = none ∧ b.tasks.stopping = true
  not_stuck : b.post ≠ .stuck

theorem sound_new (h : Heap ρ) (p : Progress) : Sound { heap := h, progress := p } where
  added_eq := rfl
  treated_eq := rfl
  finished := nofun
  sorted := List.Pairwise.nil
  scheduled := nofun
  last_eq := rfl
  ended := nofun
  not_stuck := nofun

namespace Sound

/-- The worker knows the same epochs as before. -/
theorem congr {b' : FinalizerWorker ρ} (hb : b.Sound)
    (hadded : b'.taken ++ b'.heap.pending.toList = b'.added)
    (htreated : b'.treated ++ b'.post.todo = b'.taken.flatMap Treatment.course)
    (hscheduled : b'.scheduled = b.scheduled) (hle : b.progress.finished ≤ b'.progress.finished)
    (hepochs : b'.reported ++ b'.inHand = b.reported ++ b.inHand)
    (hended : b'.post = .ended → b'.tasks.epoch = none ∧ b'.tasks.stopping = true)
    (hstuck : b'.post ≠ .stuck) : b'.Sound where
  added_eq := hadded
  treated_eq := htreated
  finished := by
    rw [hscheduled]
    exact fun e he => (hb.finished e he).trans hle
  sorted := hepochs ▸ hb.sorted
  scheduled := by
    rw [hepochs, hscheduled]
    exact hb.scheduled
  last_eq := by rw [hepochs, hscheduled, hb.last_eq]
  ended := hended
  not_stuck := hstuck

/-- The slot of the worker has the latest epoch. -/
theorem epoch_schedule (hb : b.Sound) {epoch : Int} (hlast : ∀ e ∈ b.scheduled, e ≤ epoch) :
    (b.tasks.schedule epoch).epoch = some epoch := by
  cases htasks : b.tasks.epoch with
  | none => simp [FinalizerTasks.schedule, htasks]
  | some e =>
    have hmem : e ∈ b.scheduled := hb.scheduled e (by simp [inHand, htasks])
    simp [FinalizerTasks.schedule, htasks, hlast e hmem]

theorem schedule (hb : b.Sound) {epoch : Int} (hadmits : b.Admits (.schedule epoch)) :
    (b.step policy finalizer (.schedule epoch)).Sound := by
  obtain ⟨hstopping, hlast, hle⟩ := hadmits
  have hslot := hb.epoch_schedule hlast
  have hinHand : (b.step policy finalizer (.schedule epoch)).inHand =
      b.post.epoch?.toList ++ [epoch] := by
    simp [inHand, step, hslot]
  have hsub : ∀ e ∈ b.reported ++ b.post.epoch?.toList, e ∈ b.scheduled := fun e he =>
    hb.scheduled e (by
      rw [inHand, ← List.append_assoc]
      exact List.mem_append_left _ he)
  refine ⟨hb.added_eq, hb.treated_eq, ?_, ?_, ?_, ?_, fun hended => ?_, hb.not_stuck⟩
  · intro e he
    rcases List.mem_append.mp he with hold | hnew
    · exact hb.finished e hold
    · exact List.mem_singleton.mp hnew ▸ hle
  · have hsorted := hb.sorted
    rw [inHand, ← List.append_assoc] at hsorted
    rw [hinHand, ← List.append_assoc, List.pairwise_append]
    refine ⟨(List.pairwise_append.mp hsorted).1, List.pairwise_singleton _ _, fun e he e' he' => ?_⟩
    exact List.mem_singleton.mp he' ▸ hlast e (hsub e he)
  · intro e he
    rw [hinHand, ← List.append_assoc] at he
    rcases List.mem_append.mp he with hold | hnew
    · exact List.mem_append_left _ (hsub e hold)
    · exact List.mem_append_right _ hnew
  · rw [hinHand, ← List.append_assoc, List.getLast?_concat]
    refine (List.max?_eq_some_iff.mpr ⟨List.mem_append_right _ List.mem_cons_self,
      fun e he => ?_⟩).symm
    rcases List.mem_append.mp he with hold | hnew
    · exact hlast e hold
    · exact (List.mem_singleton.mp hnew).le
  · exact absurd (hb.ended hended).2 (by simp [hstopping])

theorem add (hb : b.Sound) (queue : Handoff BlockRef) :
    (b.step policy finalizer (.add queue)).Sound := by
  refine hb.congr ?_ hb.treated_eq rfl le_rfl rfl hb.ended hb.not_stuck
  simp only [step, Heap.submit_eq, Handoff.toList_merge, ← hb.added_eq, List.append_assoc]

theorem tend (hb : b.Sound) {h : Heap ρ} (hpending : h.pending.toList = b.heap.pending.toList) :
    Sound { b with heap := h } :=
  hb.congr ((congrArg (b.taken ++ ·) hpending).trans hb.added_eq) hb.treated_eq
    rfl le_rfl rfl hb.ended hb.not_stuck

theorem count (hb : b.Sound) {p : Progress} (hle : b.progress.finished ≤ p.finished) :
    Sound { b with progress := p } :=
  hb.congr hb.added_eq hb.treated_eq rfl hle rfl hb.ended hb.not_stuck

theorem wait (hb : b.Sound) (hpost : b.post = .waiting) : (b.work policy finalizer).Sound := by
  have htreated := hb.treated_eq
  have hstuck := hb.not_stuck
  simp only [work, hpost]
  split_ifs with hready
  · cases htasks : b.tasks.epoch with
    | none =>
      simp only [FinalizerTasks.take, htasks]
      have hstop : b.tasks.stopping = true := by simpa [FinalizerTasks.isReady, htasks] using hready
      refine hb.congr hb.added_eq ?_ rfl le_rfl ?_ (fun _ => ⟨rfl, hstop⟩) (by simp)
      · rwa [hpost] at htreated
      · simp [inHand, hpost, htasks, Post.epoch?]
    | some epoch =>
      simp only [FinalizerTasks.take, htasks]
      refine hb.congr hb.added_eq ?_ rfl le_rfl ?_ (by simp) (by simp)
      · rwa [hpost] at htreated
      · simp [inHand, hpost, htasks, Post.epoch?]
  · exact hb

theorem fetch (hb : b.Sound) {epoch : Int} (hpost : b.post = .fetching epoch) :
    (b.work policy finalizer).Sound := by
  have htreated : b.treated = b.taken.flatMap Treatment.course := by
    rw [← hb.treated_eq, hpost]
    exact (List.append_nil _).symm
  simp only [work, hpost]
  refine hb.congr ?_ ?_ rfl le_rfl ?_ (by simp) (by simp)
  · rw [← hb.added_eq]
    exact List.append_nil _
  · simp only [Post.todo, List.flatMap_append, htreated]
  · simp [inHand, hpost, Post.epoch?]

/-- The epoch that the worker serves has finished. -/
theorem finalize_eq (hb : b.Sound) {epoch : Int} (hpost : b.post = .calling epoch []) :
    b.progress.finalize epoch = .ok { b.progress with finalized := epoch } := by
  have hmem : epoch ∈ b.scheduled := hb.scheduled epoch (by simp [inHand, hpost, Post.epoch?])
  exact if_pos (hb.finished epoch hmem)

theorem report (hb : b.Sound) {epoch : Int} (hpost : b.post = .calling epoch []) :
    (b.work policy finalizer).Sound := by
  simp only [work, hpost, hb.finalize_eq hpost]
  refine hb.congr hb.added_eq ?_ rfl le_rfl ?_ (by simp) (by simp)
  · have htreated := hb.treated_eq
    rwa [hpost] at htreated
  · simp [inHand, hpost, Post.epoch?]

theorem call (hb : b.Sound) {epoch : Int} {x : BlockRef} {rest : List BlockRef}
    (hpost : b.post = .calling epoch (x :: rest)) : (b.work policy finalizer).Sound := by
  simp only [work, hpost]
  refine hb.congr hb.added_eq ?_ rfl le_rfl ?_ (by simp) (by simp)
  · rw [← hb.treated_eq, hpost]
    simp [Post.todo, Treatment.course]
  · simp [inHand, hpost, Post.epoch?]

theorem tell (hb : b.Sound) {epoch : Int} {x : BlockRef} {rest : List BlockRef}
    (hpost : b.post = .telling epoch x rest) : (b.work policy finalizer).Sound := by
  simp only [work, hpost]
  refine hb.congr hb.added_eq ?_ rfl le_rfl ?_ (by simp) (by simp)
  · rw [← hb.treated_eq, hpost]
    simp [Post.todo]
  · simp [inHand, hpost, Post.epoch?]

theorem work (hb : b.Sound) : (b.work policy finalizer).Sound := by
  cases hpost : b.post with
  | waiting => exact hb.wait hpost
  | fetching epoch => exact hb.fetch hpost
  | calling epoch rest =>
    cases rest with
    | nil => exact hb.report hpost
    | cons x rest => exact hb.call hpost
  | telling epoch x rest => exact hb.tell hpost
  | ended => simpa only [FinalizerWorker.work, hpost] using hb
  | stuck => exact absurd hpost hb.not_stuck

theorem step (hb : b.Sound) {m : Move ρ} (hm : b.Admits m) : (b.step policy finalizer m).Sound := by
  cases m with
  | schedule epoch => exact hb.schedule hm
  | add queue => exact hb.add queue
  | stop =>
    exact hb.congr hb.added_eq hb.treated_eq rfl le_rfl rfl
      (fun h => ⟨(hb.ended h).1, rfl⟩) hb.not_stuck
  | work => exact hb.work
  | tend f => exact hb.tend hm
  | count f => exact hb.count hm.1

theorem run (hb : b.Sound) {moves : List (Move ρ)} (hm : Allows policy finalizer moves b) :
    (b.run policy finalizer moves).Sound := by
  induction moves generalizing b with
  | nil => exact hb
  | cons m moves ih => exact ih (hb.step hm.1) hm.2

end Sound

/-! ### What a scheduled epoch promises -/

/-- The blocks `due` are promised by the epoch `e`, or at last if there is no such epoch: the worker
has taken them, or is about to, or still has an epoch in its slot and serves an earlier one than
`e`. -/
structure Promised (e : WithTop Int) (due : List BlockRef) (b : FinalizerWorker ρ) : Prop where
  due_prefix : due <+: b.added
  awaits : due <+: b.taken ∨ (∃ s, b.post = .fetching s) ∨
    b.tasks.epoch.isSome ∧ ∀ s ∈ b.post.epoch?, (s : WithTop Int) < e
  finalized : (b.progress.finalized : WithTop Int) < e ∨ due.flatMap Treatment.course <+: b.treated

namespace Promised

variable {e : WithTop Int} {due : List BlockRef}

theorem congr {b' : FinalizerWorker ρ} (h : b.Promised e due) (hadded : b.added <+: b'.added)
    (hawaits : due <+: b'.taken ∨ (∃ s, b'.post = .fetching s) ∨
      b'.tasks.epoch.isSome ∧ ∀ s ∈ b'.post.epoch?, (s : WithTop Int) < e)
    (hfinalized : b'.progress.finalized = b.progress.finalized)
    (htreated : b.treated <+: b'.treated) :
    b'.Promised e due where
  due_prefix := h.due_prefix.trans hadded
  awaits := hawaits
  finalized := by
    rw [hfinalized]
    exact h.finalized.imp_right (·.trans htreated)

/-- Calling and telling leaves what the worker awaits as it is. -/
theorem awaits_of_epoch (h : b.Promised e due) {epoch : Int} {rest : List BlockRef}
    (hpost : b.post = .calling epoch rest ∨ ∃ x, b.post = .telling epoch x rest) :
    due <+: b.taken ∨ b.tasks.epoch.isSome ∧ (epoch : WithTop Int) < e := by
  rcases hpost with hpost | ⟨x, hpost⟩
  all_goals
    rcases h.awaits with htaken | ⟨s, hs⟩ | ⟨hslot, hlt⟩
    · exact .inl htaken
    · exact absurd hs (by simp [hpost])
    · exact .inr ⟨hslot, hlt epoch (by simp [hpost, Post.epoch?])⟩

theorem wait (h : b.Promised e due) (hpost : b.post = .waiting) :
    (b.work policy finalizer).Promised e due := by
  have hawaits : due <+: b.taken ∨ b.tasks.epoch.isSome := by
    rcases h.awaits with htaken | ⟨s, hs⟩ | ⟨hslot, -⟩
    · exact .inl htaken
    · exact absurd hs (by simp [hpost])
    · exact .inr hslot
  simp only [work, hpost]
  split_ifs with hready
  · cases htasks : b.tasks.epoch with
    | none =>
      simp only [FinalizerTasks.take, htasks]
      refine h.congr (List.prefix_refl _) (.inl ?_) rfl (List.prefix_refl _)
      exact hawaits.resolve_right (by simp [htasks])
    | some epoch =>
      simp only [FinalizerTasks.take, htasks]
      exact h.congr (List.prefix_refl _) (.inr (.inl ⟨epoch, rfl⟩)) rfl (List.prefix_refl _)
  · exact h

theorem report (h : b.Promised e due) (hb : b.Sound) {epoch : Int}
    (hpost : b.post = .calling epoch []) : (b.work policy finalizer).Promised e due := by
  have htreated : b.treated = b.taken.flatMap Treatment.course := by
    rw [← hb.treated_eq, hpost]
    exact (List.append_nil _).symm
  simp only [work, hpost, hb.finalize_eq hpost]
  rcases h.awaits_of_epoch (.inl hpost) with htaken | ⟨hslot, hlt⟩
  · exact ⟨h.due_prefix, .inl htaken, .inr (htreated ▸ htaken.flatMap _)⟩
  · exact ⟨h.due_prefix, .inr (.inr ⟨hslot, by simp [Post.epoch?]⟩), .inl hlt⟩

theorem work (h : b.Promised e due) (hb : b.Sound) : (b.work policy finalizer).Promised e due := by
  cases hpost : b.post with
  | waiting => exact h.wait hpost
  | fetching epoch =>
    simp only [FinalizerWorker.work, hpost]
    refine h.congr (List.prefix_refl _) (.inl ?_) rfl (List.prefix_refl _)
    exact hb.added_eq ▸ h.due_prefix
  | calling epoch rest =>
    cases rest with
    | nil => exact h.report hb hpost
    | cons x rest =>
      have hawaits := h.awaits_of_epoch (.inl hpost)
      simp only [FinalizerWorker.work, hpost]
      refine h.congr (List.prefix_refl _) (hawaits.imp_right fun hslot => .inr ⟨hslot.1, ?_⟩) rfl
        (List.prefix_append _ _)
      simpa [Post.epoch?] using hslot.2
  | telling epoch x rest =>
    have hawaits := h.awaits_of_epoch (.inr ⟨x, hpost⟩)
    simp only [FinalizerWorker.work, hpost]
    refine h.congr (List.prefix_refl _) (hawaits.imp_right fun hslot => .inr ⟨hslot.1, ?_⟩) rfl
      (List.prefix_append _ _)
    simpa [Post.epoch?] using hslot.2
  | ended => simpa only [FinalizerWorker.work, hpost] using h
  | stuck => simpa only [FinalizerWorker.work, hpost] using h

theorem step (h : b.Promised e due) (hb : b.Sound) {m : Move ρ} (hm : b.Admits m) :
    (b.step policy finalizer m).Promised e due := by
  cases m with
  | schedule epoch =>
    exact h.congr (List.prefix_refl _) (h.awaits.imp_right (.imp_right fun hslot => ⟨rfl, hslot.2⟩))
      rfl (List.prefix_refl _)
  | add queue => exact h.congr (List.prefix_append _ _) h.awaits rfl (List.prefix_refl _)
  | stop => exact h.congr (List.prefix_refl _) h.awaits rfl (List.prefix_refl _)
  | work => exact h.work hb
  | tend f => exact h.congr (List.prefix_refl _) h.awaits rfl (List.prefix_refl _)
  | count f => exact h.congr (List.prefix_refl _) h.awaits hm.2 (List.prefix_refl _)

theorem run (h : b.Promised e due) (hb : b.Sound) {moves : List (Move ρ)}
    (hm : Allows policy finalizer moves b) : (b.run policy finalizer moves).Promised e due := by
  induction moves generalizing b with
  | nil => exact h
  | cons m moves ih => exact ih (h.step hb hm.1) (hb.step hm.1) hm.2

end Promised

/-- An epoch promises all that was ever due when it is scheduled, if it is later than any other. -/
theorem promised_schedule {epoch : Int} {e : WithTop Int}
    (hscheduled : ∀ s ∈ b.post.epoch?, (s : WithTop Int) < e)
    (hfinalized : (b.progress.finalized : WithTop Int) < e) :
    (b.step policy finalizer (.schedule epoch)).Promised e b.added where
  due_prefix := List.prefix_refl _
  awaits := .inr (.inr ⟨rfl, hscheduled⟩)
  finalized := .inl hfinalized

/-! ### A worker that has nothing to do -/

def Idle (b : FinalizerWorker ρ) : Prop :=
  b.post = .ended ∨ b.post = .waiting ∧ b.tasks.isReady = false

theorem Sound.treated_of_idle (hb : b.Sound) (hidle : b.Idle) :
    b.treated = b.taken.flatMap Treatment.course := by
  rw [← hb.treated_eq]
  rcases hidle with hpost | ⟨hpost, -⟩ <;> rw [hpost] <;> exact (List.append_nil _).symm

/-- A worker that has nothing to do has kept every promise. -/
theorem Promised.of_idle {e : WithTop Int} {due : List BlockRef} (h : b.Promised e due)
    (hb : b.Sound) (hidle : b.Idle) : due.flatMap Treatment.course <+: b.treated := by
  rw [hb.treated_of_idle hidle]
  have hslot : b.tasks.epoch = none := by
    rcases hidle with hpost | ⟨-, hready⟩
    · exact (hb.ended hpost).1
    · cases htasks : b.tasks.epoch with
      | none => rfl
      | some s => simp [FinalizerTasks.isReady, htasks] at hready
  rcases h.awaits with htaken | ⟨s, hs⟩ | ⟨hsome, -⟩
  · exact htaken.flatMap _
  · rcases hidle with hpost | ⟨hpost, -⟩ <;> simp [hpost] at hs
  · simp [hslot] at hsome

theorem allows_works (n : Nat) : Allows policy finalizer (List.replicate n .work) b := by
  induction n generalizing b with
  | zero => trivial
  | succ n ih => exact ⟨trivial, ih⟩

theorem Sound.works (hb : b.Sound) (n : Nat) : (works policy finalizer n b).Sound :=
  hb.run (allows_works n)

/-- What the worker comes to after some moves it comes to. -/
theorem exists_works {P : FinalizerWorker ρ → Prop} (m : Nat)
    (h : ∃ n,
      P (FinalizerWorker.works policy finalizer n (FinalizerWorker.works policy finalizer m b))) :
    ∃ n, P (FinalizerWorker.works policy finalizer n b) := by
  obtain ⟨n, hn⟩ := h
  exact ⟨m + n, works_add m n ▸ hn⟩

namespace Sound

/-- A worker that waits serves the epoch in its slot, if any, and then ends or has nothing to do. -/
theorem settles_of_waiting (hb : b.Sound) (hpost : b.post = .waiting) :
    ∃ n, (FinalizerWorker.works policy finalizer n b).Idle := by
  have hempty {b : FinalizerWorker ρ} (hpost : b.post = .waiting) (htasks : b.tasks.epoch = none) :
      ∃ n, (FinalizerWorker.works policy finalizer n b).Idle := by
    cases hstop : b.tasks.stopping with
    | false =>
      refine ⟨0, .inr ⟨hpost, ?_⟩⟩
      simp [FinalizerWorker.works, FinalizerWorker.run, FinalizerTasks.isReady, htasks, hstop]
    | true =>
      refine ⟨1, .inl ?_⟩
      show (FinalizerWorker.work policy finalizer b).post = .ended
      simp [FinalizerWorker.work, hpost, FinalizerTasks.isReady, FinalizerTasks.take, htasks, hstop]
  cases htasks : b.tasks.epoch with
  | none => exact hempty hpost htasks
  | some epoch =>
    have hmem : epoch ∈ b.scheduled := hb.scheduled epoch (by simp [inHand, htasks])
    obtain ⟨n, hn⟩ := serve_alone policy finalizer hpost htasks (hb.finished epoch hmem)
    refine exists_works n (hempty ?_ ?_)
    · rw [hn, ← hpost]
    · rw [hn]
      rfl

theorem settles_of_calling (hb : b.Sound) {epoch : Int} {rest : List BlockRef}
    (hpost : b.post = .calling epoch rest) :
    ∃ n, (FinalizerWorker.works policy finalizer n b).Idle := by
  have hcalled : (FinalizerWorker.works policy finalizer (2 * rest.length) b).Sound := hb.works _
  have hempty :
      (FinalizerWorker.works policy finalizer (2 * rest.length) b).post = .calling epoch [] := by
    rw [works_calling hpost]
  refine exists_works _ (exists_works 1 ((hcalled.works 1).settles_of_waiting ?_))
  show (FinalizerWorker.work policy finalizer _).post = .waiting
  simp only [FinalizerWorker.work, hempty, hcalled.finalize_eq hempty]

/-- Left alone, the worker comes to where it has nothing to do. -/
theorem settles (hb : b.Sound) : ∃ n, (FinalizerWorker.works policy finalizer n b).Idle := by
  cases hpost : b.post with
  | waiting => exact hb.settles_of_waiting hpost
  | fetching epoch =>
    have hfetched : (FinalizerWorker.works policy finalizer 1 b).post =
        .calling epoch b.heap.pending.toList := by
      show (FinalizerWorker.work policy finalizer b).post = _
      simp only [FinalizerWorker.work, hpost]
    exact exists_works 1 ((hb.works 1).settles_of_calling hfetched)
  | calling epoch rest => exact hb.settles_of_calling hpost
  | telling epoch x rest =>
    have htold : (FinalizerWorker.works policy finalizer 1 b).post = .calling epoch rest := by
      show (FinalizerWorker.work policy finalizer b).post = _
      simp only [FinalizerWorker.work, hpost]
    exact exists_works 1 ((hb.works 1).settles_of_calling htold)
  | ended => exact ⟨0, .inl hpost⟩
  | stuck => exact absurd hpost hb.not_stuck

end Sound

/-! ### What the worker reports -/

theorem finalized_step {first : Int} (h : b.progress.finalized = b.reported.getLastD first)
    {m : Move ρ} (hm : b.Admits m) : (b.step policy finalizer m).progress.finalized =
      (b.step policy finalizer m).reported.getLastD first := by
  cases m with
  | schedule epoch => exact h
  | add queue => exact h
  | stop => exact h
  | work =>
    simp only [step, work]
    split
    · split_ifs with hready
      · cases htasks : b.tasks.epoch <;> simpa [FinalizerTasks.take, htasks] using h
      · exact h
    · exact h
    · rename_i epoch _
      simp only [Progress.finalize]
      split_ifs
      · simp
      · exact h
    all_goals exact h
  | tend f => exact h
  | count f => exact hm.2.trans h

/-- An epoch is finalized once the worker has reported it. -/
theorem finalized_run {first : Int} (h : b.progress.finalized = b.reported.getLastD first)
    {moves : List (Move ρ)} (hm : Allows policy finalizer moves b) :
    (b.run policy finalizer moves).progress.finalized =
      (b.run policy finalizer moves).reported.getLastD first := by
  induction moves generalizing b with
  | nil => exact h
  | cons m moves ih => exact ih (finalized_step h hm.1) hm.2

/-! ### What the treatments amount to -/

/-- If nobody but the worker touches the arena, it shows the effect of all treatments, one after the
other. -/
theorem arena_run {moves : List (Move ρ)}
    (htend : ∀ f, .tend f ∈ moves → ∀ h, (f h).arena = h.arena) {a : Arena ρ}
    (ha : b.heap.arena = b.treated.foldl (Treatment.effect policy finalizer) a) :
    (run policy finalizer moves b).heap.arena =
      (run policy finalizer moves b).treated.foldl (Treatment.effect policy finalizer) a := by
  induction moves generalizing b with
  | nil => exact ha
  | cons m moves ih =>
    refine ih (fun f hf => htend f (List.mem_cons_of_mem _ hf)) ?_
    cases m with
    | work =>
      obtain ⟨done, htreated, harena⟩ := work_treats policy finalizer b
      rw [step, harena, htreated, List.foldl_append, ha]
    | tend f => exact (htend f List.mem_cons_self b.heap).trans ha
    | add queue =>
      simp only [step, Heap.submit_eq]
      exact ha
    | _ => exact ha

/-! ### The whole of it -/

/-- Each block that the worker takes is called and told once, in the order in which the blocks came.
What the worker does to the arena in a move is the effect of the treatments that it notes there, so
an arena that nobody else touches shows all of them. Once an epoch is finalized, all that was due
when it was scheduled has had its treatment, unless the epoch was finalized or in service by then;
in any case it has once the worker has nothing left to do. The reports never go back, and the last
one before the worker ends is that of the latest epoch. -/
theorem finalizers_run_once (policy : Policy ρ) (finalizer : Finalizer ρ)
    (h : Heap ρ) (p : Progress) (moves : List (Move ρ))
    (hm : Allows policy finalizer moves { heap := h, progress := p }) :
    let seen (moves : List (Move ρ)) : FinalizerWorker ρ :=
      run policy finalizer moves { heap := h, progress := p }
    let b := seen moves
    (b.treated ++ b.post.todo = b.taken.flatMap Treatment.course ∧
        b.taken ++ b.heap.pending.toList = b.added) ∧
      (∀ before after : List (Move ρ), moves = before ++ .work :: after →
        ∃ done, (seen (before ++ [.work])).treated = (seen before).treated ++ done ∧
          (seen (before ++ [.work])).heap.arena =
            done.foldl (Treatment.effect policy finalizer) (seen before).heap.arena) ∧
      ((∀ f, .tend f ∈ moves → ∀ h, (f h).arena = h.arena) →
        b.heap.arena = b.treated.foldl (Treatment.effect policy finalizer) h.arena) ∧
      (∀ (before : List (Move ρ)) (e : Int) (after : List (Move ρ)),
        moves = before ++ .schedule e :: after →
        ((seen before).progress.finalized < e → e ∉ (seen before).post.epoch? →
          e ≤ b.progress.finalized →
          (seen before).added.flatMap Treatment.course <+: b.treated) ∧
        (b.Idle → (seen before).added.flatMap Treatment.course <+: b.treated)) ∧
      (b.progress.finalized = b.reported.getLastD p.finalized ∧ b.reported.Pairwise (· ≤ ·)) ∧
      (b.post = .ended → b.reported.getLast? = b.scheduled.max?) ∧
      b.post ≠ .stuck ∧ ∃ n, (works policy finalizer n b).Idle := by
  intro seen b
  have hb : b.Sound := (sound_new h p).run hm
  refine ⟨⟨hb.treated_eq, hb.added_eq⟩, fun before after _ => ?_, fun htend => arena_run htend rfl,
    fun before e after hmoves => ?_, ⟨finalized_run rfl hm, (List.pairwise_append.mp hb.sorted).1⟩,
    fun hended => ?_, hb.not_stuck, hb.settles⟩
  · have hwork : seen (before ++ [.work]) = (seen before).work policy finalizer :=
      run_append before [.work]
    exact hwork ▸ work_treats policy finalizer (seen before)
  · subst hmoves
    obtain ⟨hbefore, hadmits, hafter⟩ := allows_append hm
    have hsound : (seen before).Sound := (sound_new h p).run hbefore
    have hrun :
        b = run policy finalizer after ((seen before).step policy finalizer (.schedule e)) :=
      run_append before (.schedule e :: after)
    refine ⟨fun hfinalized hserves hle => ?_, fun hidle => ?_⟩
    · have hserved : ∀ s ∈ (seen before).post.epoch?, (s : WithTop Int) < (e : WithTop Int) := by
        intro s hs
        have hlast : s ≤ e :=
          hadmits.2.1 s (hsound.scheduled s (by simp [inHand, Option.mem_def.mp hs]))
        exact WithTop.coe_lt_coe.mpr (hlast.lt_of_ne fun heq => hserves (heq ▸ hs))
      have hpromised : b.Promised (e : WithTop Int) (seen before).added :=
        hrun ▸ (promised_schedule hserved (WithTop.coe_lt_coe.mpr hfinalized)).run
          (hsound.step hadmits) hafter
      exact hpromised.finalized.resolve_left (by simpa using hle)
    · have hpromised : b.Promised ⊤ (seen before).added :=
        hrun ▸ (promised_schedule (fun s _ => WithTop.coe_lt_top s) (WithTop.coe_lt_top _)).run
          (hsound.step hadmits) hafter
      exact hpromised.of_idle hb hidle
  · have hlast := hb.last_eq
    simp only [inHand, hended, (hb.ended hended).1] at hlast
    simpa [Post.epoch?] using hlast

/-- An epoch is scheduled, served and scheduled again, and a block became due before that. The
worker serves the epoch in between and has reported it already, or it has taken what was due and is
about to report. -/
def twice (reported : Bool) : List (Move Unit) :=
  .schedule 1 :: .work :: .work :: (if reported then [.work] else []) ++
    [.add { items := #[⟨0, 0⟩] }, .schedule 1]

/-- A block that is due when an epoch is scheduled again is untreated although the epoch is
finalized: at once if the epoch has been reported before, and after the report if it was in
service. -/
theorem scheduled_again_untreated :
    let p : Progress := { scheduled := 1, started := 1, finished := 1 }
    let b : FinalizerWorker Unit := { heap := Heap.new (), progress := p }
    let seen (moves : List (Move Unit)) : FinalizerWorker Unit :=
      run Policy.byMark (fun _ memo => memo) moves b
    (Allows Policy.byMark (fun _ memo => memo) (twice true) b ∧
        (seen (twice true).dropLast).added = [⟨0, 0⟩] ∧
        (seen (twice true)).progress.finalized = 1 ∧ (seen (twice true)).treated = []) ∧
      Allows Policy.byMark (fun _ memo => memo) (twice false ++ [.work]) b ∧
        (seen (twice false).dropLast).added = [⟨0, 0⟩] ∧
        (seen (twice false ++ [.work])).progress.finalized = 1 ∧
        (seen (twice false ++ [.work])).treated = [] := by
  decide +kernel

/-- Two blocks are due when the first epoch is scheduled. A third one comes while the worker is busy
with them, together with another epoch and the word to stop. -/
def busy : List (Move (List BlockRef)) :=
  [.add { items := #[⟨0, 0⟩, ⟨0, 8⟩] }, .schedule 1, .work, .work, .work,
    .add { items := #[⟨0, 16⟩] }, .schedule 2, .stop, .work, .work, .work, .work, .work, .work,
    .work, .work, .work, .work]

/-- The finalizers write down what they are run for, and the worker keeps its promise about the
first epoch before it comes to the second. -/
theorem finalizers_run_once_busy :
    let p : Progress := { scheduled := 2, started := 2, finished := 2 }
    let seen (moves : List (Move (List BlockRef))) : FinalizerWorker (List BlockRef) :=
      run Policy.byMark (fun b memo => memo ++ [b]) moves { heap := Heap.new [], progress := p }
    (1 ≤ (seen (busy.take 12)).progress.finalized ∧
        [(⟨0, 0⟩ : BlockRef), ⟨0, 8⟩].flatMap Treatment.course <+: (seen (busy.take 12)).treated) ∧
      (seen busy).post = .ended ∧ (seen busy).reported.getLast? = some 2 ∧
      [(⟨0, 0⟩ : BlockRef), ⟨0, 8⟩, ⟨0, 16⟩].flatMap Treatment.course <+: (seen busy).treated ∧
      (seen busy).heap.arena.memo = [⟨0, 0⟩, ⟨0, 8⟩, ⟨0, 16⟩] := by
  intro p seen
  have hfirst : Allows Policy.byMark (fun b memo => memo ++ [b]) (busy.take 12)
      { heap := Heap.new [], progress := p } := by
    decide +kernel
  have hall : Allows Policy.byMark (fun b memo => memo ++ [b]) busy
      { heap := Heap.new [], progress := p } := by
    decide +kernel
  obtain ⟨-, -, -, hearly, -⟩ := finalizers_run_once _ _ _ _ _ hfirst
  obtain ⟨-, -, harena, hlate, -, hended, -⟩ := finalizers_run_once _ _ _ _ _ hall
  have hreported : 1 ≤ (seen (busy.take 12)).progress.finalized := by decide +kernel
  have hpost : (seen busy).post = .ended := by decide +kernel
  refine ⟨⟨hreported, ?_⟩, hpost, (hended hpost).trans (by decide +kernel), ?_, ?_⟩
  · exact (hearly (busy.take 1) 1 ((busy.take 12).drop 2) rfl).1 (by decide +kernel)
      (by decide +kernel) hreported
  · exact (hlate (busy.take 6) 2 (busy.drop 7) rfl).2 (.inl hpost)
  · rw [harena (by simp [busy])]
    decide +kernel

end SweptHeap.FinalizerWorker
