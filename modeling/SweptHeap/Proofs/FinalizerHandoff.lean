import Mathlib
import SweptHeap.Proofs.HeapSystem.Phases

/-!
# Finalizers get every object once

Where sweeps go by marks and finalizers run for objects that were taken for it, no object is sent to
its finalizer twice in its life, none with a finalizer is reclaimed before it has run, and at any
time those sent to their finalizers so far are the ones in the books.
-/

namespace SweptHeap.HeapSystem

variable {ρ : Type} {policy : Policy ρ} {civil : Prop} {o o' : HeapSystem ρ}
  {b : BlockRef} {φ : Phase} {notes : List Note}

/-! ### Counting in stories -/

/-- Whoever was sent to its finalizer has that in its story. -/
theorem count_finalizing (hrecords : ∀ r record, .judgedRecord r record .finalize ∉ notes)
    (b : BlockRef) : (finalizing notes).count b = (story b notes).countP Phase.sends := by
  induction notes with
  | nil => rfl
  | cons n notes ih =>
    have htail := ih fun r record hn => hrecords r record (List.mem_cons_of_mem _ hn)
    rw [← List.singleton_append, finalizing_append, story_append, List.count_append,
      List.countP_append, htail]
    congr 1
    cases n with
    | judged q v =>
      by_cases hb : q.block = b <;> by_cases hv : v.fate = .finalize <;>
        simp [finalizing, answers, Note.answer, story, Note.block?, Phase.sends, hb, hv]
    | judgedRecord r record fate =>
      have hfate : fate ≠ .finalize := fun he => hrecords r record (he ▸ List.mem_cons_self)
      simp [finalizing, answers, Note.answer, story, Note.block?, hfate]
    | born t =>
      rw [List.countP_eq_zero.mpr]
      · rfl
      · intro n hn
        rw [List.mem_singleton.mp (List.mem_filter.mp hn).1]
        exact Bool.false_ne_true
    | told b' =>
      rw [List.countP_eq_zero.mpr]
      · rfl
      · intro n hn
        rw [List.mem_singleton.mp (List.mem_filter.mp hn).1]
        exact Bool.false_ne_true

theorem count_tellings (notes : List Note) (b : BlockRef) :
    (tellings notes).count b = (story b notes).countP Phase.tells := by
  rw [tellings, List.count_filterMap, story, List.countP_filter]
  refine List.countP_congr fun n _ => ?_
  cases n with
  | told b' => simp [Phase.tells, Note.block?]
  | judged q v => simp [Phase.tells]
  | judgedRecord r record fate => simp [Phase.tells]
  | born t => simp [Phase.tells]

/-! ### The books -/

/-- The diary, the records and the books agree. -/
structure Chronicle (o : HeapSystem ρ) : Prop where
  civil : o.heap.Civil
  told_eq : o.told = tellings o.notes
  records : ∀ r record, .judgedRecord r record .finalize ∉ o.notes
  due_perm : o.due.Perm (finalizing o.notes)
  phase : ∀ b, ∃ φ, Phase.absent.Path (story b o.notes) φ ∧ Fits o.heap b φ

theorem chronicle_new (memo : ρ) : (new memo).Chronicle := by
  refine ⟨fun b hb => absurd hb (not_holds_new memo _), rfl, fun r record hn => ?_,
    .refl _, fun b => ?_⟩
  · cases hn
  · exact ⟨.absent, .nil, .absent rfl (not_holds_new memo _)⟩

/-- Blocks that were sent to their finalizers have been told of, but for those that wait. -/
theorem Chronicle.count (hch : o.Chronicle) (hpath : Phase.absent.Path (story b o.notes) φ) :
    o.due.count b = o.told.count b + if φ = .queued then 1 else 0 := by
  have hcount := hpath.count_sends
  rw [if_neg (by decide)] at hcount
  rw [hch.due_perm.count_eq, count_finalizing hch.records, hch.told_eq, count_tellings]
  exact hcount

theorem Move.due_perm (hm : Move policy civil o o') (hs : o.heap.Sound)
    (hdue : o.due.Perm (finalizing o.notes)) : o'.due.Perm (finalizing o'.notes) := by
  cases hm.outcome hs with
  | keeps notes hk =>
    have hnone : finalizing notes = [] := by
      rw [finalizing, hk.answers_eq]
      rfl
    rw [hk.notes_eq, finalizing_append, hnone, List.append_nil]
    exact hk.due_perm.trans hdue
  | @gains t hg =>
    have hnone : finalizing [.born t] = [] := rfl
    rw [hg.notes_eq, finalizing_append, hnone, List.append_nil, hg.due_eq]
    exact hdue
  | settles hsettles =>
    rw [hsettles.notes_eq, finalizing_append]
    exact hsettles.due_perm.trans (hdue.append_right _)

theorem Chronicle.move (hch : o.Chronicle) (hm : Move (Policy.byMark (ρ := ρ)) True o o')
    (hs : o.heap.Sound) (hqueued : ∀ b φ, o.told.count b < o'.told.count b →
      Phase.absent.Path (story b o.notes) φ → φ = .queued) : o'.Chronicle := by
  obtain ⟨notes, htells⟩ := hm.tells hs hch.civil
  refine ⟨hm.civil hs hch.civil, ?_, fun r record hn => ?_,
    hm.due_perm hs hch.due_perm, fun b => ?_⟩
  · rw [htells.told_eq, htells.notes_eq, hch.told_eq, tellings, tellings, tellings,
      List.filterMap_append]
  · rw [htells.notes_eq] at hn
    exact (List.mem_append.mp hn).elim (hch.records r record) (htells.records r record)
  · obtain ⟨φ, hpath, hfits⟩ := hch.phase b
    have hdue (htold : .told b ∈ story b notes) : φ = .queued := by
      refine hqueued b φ ?_ hpath
      have hmem : b ∈ tellings notes :=
        List.mem_filterMap.mpr ⟨.told b, (List.mem_filter.mp htold).1, rfl⟩
      rw [htells.told_eq, List.count_append]
      exact Nat.lt_add_of_pos_right (List.count_pos_iff.mpr hmem)
    obtain ⟨φ', hmore, hfits'⟩ := (htells.happens b).path hfits hdue
    refine ⟨φ', ?_, hfits'⟩
    rw [htells.notes_eq, story_append]
    exact hpath.append hmore

theorem Move.told_prefix (hm : Move policy civil o o') : o.told <+: o'.told := by
  cases hm with
  | tell => exact List.prefix_append _ _
  | _ => exact List.prefix_refl _

theorem Moves.told_prefix (hm : Moves policy civil o o') : o.told <+: o'.told := by
  induction hm with
  | refl => exact List.prefix_refl _
  | tail _ hstep ih => exact ih.trans hstep.told_prefix

/-- Moves in which no finalizer is said to have run. -/
theorem Chronicle.moves (hch : o.Chronicle) (hm : Moves (Policy.byMark (ρ := ρ)) True o o')
    (hs : o.heap.Sound) (htold : o'.told = o.told) : o'.Chronicle := by
  induction hm with
  | refl => exact hch
  | @tail o₁ o₂ hmoves hstep ih =>
    have hbefore := Moves.told_prefix hmoves
    have hafter := hstep.told_prefix
    rw [htold] at hafter
    have hsame : o₁.told = o.told := hafter.eq_of_length_le hbefore.length_le
    refine (ih hsame).move hstep (Moves.sound hmoves hs) fun b φ hlt _ => ?_
    rw [htold, hsame] at hlt
    exact absurd hlt (Nat.lt_irrefl _)

theorem Chronicle.prepared {h : Heap (Diary ρ)} (hch : o.Chronicle) (hp : Heap.Prepared o.heap h) :
    Chronicle { o with heap := h } := by
  have hnotes : HeapSystem.notes { o with heap := h } = o.notes :=
    congrArg Diary.notes hp.same.memo_eq
  refine ⟨civil_prepared hp hch.civil, ?_, ?_, ?_, fun b => ?_⟩
  · rw [hnotes]
    exact hch.told_eq
  · rw [hnotes]
    exact hch.records
  · rw [hnotes]
    exact (List.Perm.of_eq (congrArg (· ++ _) hp.due_eq)).trans hch.due_perm
  · rw [hnotes]
    obtain ⟨φ, hpath, hfits⟩ := hch.phase b
    refine ⟨φ, hpath, ?_⟩
    cases hfits with
    | absent hφ hgone =>
      refine .absent hφ ?_
      rwa [Heap.Holds, hp.tenants_eq]
    | present hx hsuits => exact .present (hp.depicts hx) hsuits

/-! ### Operations -/

theorem welcome_told (tenant : BlockRef → Tenant)
    (done : Except Fault (Option BlockRef) × HeapSystem ρ) :
    (welcome tenant done).2.told = done.2.told := by
  obtain ⟨result, o⟩ := done
  cases result with
  | error fault => rfl
  | ok b => cases b <;> rfl

theorem step_told (policy : Policy ρ) (o : HeapSystem ρ) {op : Op} (hop : ∀ b, op ≠ .tell b) :
    (o.step policy op).2.told = o.told := by
  have hatDesk (i : Nat) (act : Act (Desk (Diary ρ)) BlockRef) :
      (o.atDesk i act).2.told = o.told := by
    rw [atDesk]
    cases o.allocators[i]? <;> rfl
  have hdesk (tenant : BlockRef → Tenant) (i : Nat) (act : Act (Desk (Diary ρ)) BlockRef) :
      (welcome tenant (o.atDesk i act)).2.told = o.told := by
    rw [welcome_told, hatDesk]
  have hatHeap {α : Type} (o : HeapSystem ρ) (act : Act (Heap (Diary ρ)) α) :
      (o.atHeap act).2.told = o.told := rfl
  have hreceive (act : Act (Heap (Diary ρ)) (Handoff BlockRef)) :
      (o.receive act).2.told = o.told := by
    rw [receive]
    obtain ⟨result, heap⟩ := act.apply o.heap
    cases result <;> rfl
  cases op with
  | enlist => rfl
  | allocate i bytes => exact hdesk _ _ _
  | createObject i payload => exact hdesk _ _ _
  | createArray i element count => exact hdesk _ _ _
  | createRecord i object withFinalizer =>
    rw [step]
    cases o.heap.arena.memory.recordOf object with
    | none => exact hdesk _ _ _
    | some r => exact hatDesk i _
  | close i =>
    rw [step]
    cases o.allocators[i]? <;> rfl
  | prepare => rw [step, hatHeap]
  | sweep epoch => rw [step, hreceive]
  | assist epoch => rw [step, hreceive]
  | release keep => rw [step, hatHeap]
  | write b k c => rfl
  | mark b => rfl
  | amend r f => rfl
  | gauge f => rfl
  | takeRequest i =>
    rw [step]
    cases o.allocators[i]? <;> rfl
  | submit i =>
    rw [step]
    cases o.returned[i]? with
    | none => rfl
    | some q => exact hatHeap { o with returned := o.returned.eraseIdx i } (Heap.submit q)
  | extract => rfl
  | tell b => exact absurd rfl (hop b)

/-- Sweeps go by marks, the heap is civil, and a block is said to have been finalized at most as
often as it was taken for it. -/
def Dutiful (policy : Policy ρ) (o : HeapSystem ρ) : Op → Prop
  | .tell b => policy = .byMark ∧ o.told.count b < o.extracted.count b
  | op => policy = .byMark ∧ o.Civil op

theorem Dutiful.policy_eq {op : Op} (hd : Dutiful policy o op) : policy = .byMark := by
  cases op <;> exact hd.1

theorem Chronicle.step (hch : o.Chronicle) (ho : o.Sound) {op : Op} (ha : o.Admits op)
    (hd : Dutiful policy o op) : (o.step policy op).2.Chronicle := by
  obtain rfl := hd.policy_eq
  by_cases htell : ∃ b, op = .tell b
  · obtain ⟨b, rfl⟩ := htell
    have hqueued (φ : Phase) (hpath : Phase.absent.Path (story b o.notes) φ) : φ = .queued := by
      have hcount := hch.count hpath
      have hle : o.extracted.count b ≤ o.due.count b := by
        rw [due, List.count_append, List.count_append]
        omega
      have hlt := hd.2
      split_ifs at hcount with hφ
      · exact hφ
      · omega
    obtain ⟨φ, hpath, hfits⟩ := hch.phase b
    have hheld : o.heap.Holds (.block b) := hfits.holds (by rw [hqueued φ hpath]; decide)
    refine hch.move (.tell fun _ => hheld) ho.heap fun b' φ' hlt hpath' => ?_
    by_cases hb : b' = b
    · subst hb
      exact hqueued φ' hpath'
    · change o.told.count b' < (o.told ++ [b]).count b' at hlt
      rw [List.count_append, List.count_singleton, if_neg (by simpa using Ne.symm hb)] at hlt
      exact absurd hlt (Nat.lt_irrefl _)
  · have hne : ∀ b, op ≠ .tell b := fun b he => htell ⟨b, he⟩
    have hcivil : o.Civil op := by
      cases op with
      | tell b => exact absurd rfl (hne b)
      | _ => exact hd.2
    by_cases hprepare : op = .prepare
    · subst hprepare
      obtain ⟨h, hp, heq, -⟩ := step_prepare Policy.byMark ho ha
      rw [heq]
      exact hch.prepared hp
    · obtain ⟨hmoves, -, -⟩ := step_moves Policy.byMark True ho ha (fun _ => hcivil) hprepare
      exact hch.moves hmoves ho.heap (step_told Policy.byMark o hne)

theorem ReachedBy.chronicle (hr : ReachedBy Dutiful o) : o.Chronicle := by
  induction hr with
  | start memo => exact chronicle_new memo
  | step hreached ha hd ih => exact ih.step hreached.reached.sound ha hd

/-- A sweep returns a handoff. -/
theorem length_returned_sweep {ops : List Op} (hreached : Reached (run policy ops o))
    (epoch : Int) : 0 < (run policy (ops ++ [.sweep epoch]) o).returned.length := by
  obtain ⟨h, heq, htidies, -⟩ := Heap.sweep_spec policy.noting hreached.sound.heap epoch
  obtain ⟨o', hstep, -, -, he⟩ := step_receive policy False hreached.sound htidies heq
  rw [run_concat, step, hstep, he]
  simp

/-- Finalizers get every object once and in time. Of the blocks sent to their finalizers, none is
sent there again before it is made anew; a block with a finalizer is reclaimed only after that has
run, and no block goes without being given up in the diary; those sent so far are the ones that were
taken, are pending or have been returned by a sweep; and all of them stay until their finalizers
have run. -/
theorem finalizers_in_order (hreached : ReachedBy Dutiful o) :
    (∀ (before between after : List Note) (q q' : Question) (v v' : Verdict),
      o.notes = before ++ .judged q v :: (between ++ .judged q' v' :: after) → q'.block = q.block →
      v.fate = .finalize → v'.fate = .finalize → .born (.block q.block) ∈ between) ∧
    (∀ (before after : List Note) (q : Question) (v : Verdict) (flags : Flags),
      o.notes = before ++ .judged q v :: after → v.fate = .dead → q.flags = some flags →
      flags.has .hasFinalizer = true →
      ∃ past since, before = past ++ .told q.block :: since ∧ .born (.block q.block) ∉ since) ∧
    (∀ (before after : List Note) (b : BlockRef), o.notes = before ++ .born (.block b) :: after →
      (∀ q v, .judged q v ∈ after → q.block = b → v.fate ≠ .dead) → o.heap.Holds (.block b)) ∧
    (finalizing o.notes).Perm
      (o.extracted ++ (o.heap.pending.toList ++ o.returned.flatMap Handoff.toList)) ∧
    ∀ (before after : List Note) (q : Question) (v : Verdict),
      o.notes = before ++ .judged q v :: after → v.fate = .finalize → .told q.block ∉ after →
      o.heap.Holds (.block q.block) ∧ .born (.block q.block) ∉ after := by
  have hch := hreached.chronicle
  refine ⟨?_, ?_, ?_, ?_, ?_⟩
  · intro before between after q q' v v' hnotes hblock hv hv'
    obtain ⟨φ, hpath, -⟩ := hch.phase q.block
    rw [hnotes, story_append, story_cons _ rfl, story_append,
      story_cons after (n := .judged q' v') (congrArg some hblock)] at hpath
    obtain ⟨ψ, χ, -, hstep, hrest⟩ := hpath.middle
    obtain ⟨-, rfl⟩ := hstep.of_finalize hv
    obtain ⟨ψ', χ', hbetween, hstep', -⟩ := hrest.middle
    obtain ⟨rfl, -⟩ := hstep'.of_finalize hv'
    obtain ⟨b, hb⟩ := hbetween.born_of_fresh (by decide)
    obtain ⟨hmem, he⟩ := mem_story.mp hb
    exact Option.some.inj he ▸ hmem
  · intro before after q v flags hnotes hv hflags hwants
    obtain ⟨φ, hpath, -⟩ := hch.phase q.block
    rw [hnotes, story_append, story_cons _ rfl] at hpath
    obtain ⟨ψ, χ, hbefore, hstep, -⟩ := hpath.middle
    obtain rfl : ψ = .done := (hstep.of_dead hv).2.resolve_right fun hnone => by
      cases (hnone flags hflags).symm.trans hwants
    obtain ⟨past, b, since, hstory, hsince⟩ := hbefore.told_of_done (by decide)
    have hb : b = q.block := by
      have hmem : .told b ∈ story q.block before :=
        hstory ▸ List.mem_append_right _ List.mem_cons_self
      exact Option.some.inj (mem_story.mp hmem).2
    obtain ⟨past', since', hsplit, rfl⟩ := story_eq_append hstory
    refine ⟨past', since', hb ▸ hsplit, fun hborn => ?_⟩
    exact hsince _ (mem_story.mpr ⟨hborn, rfl⟩)
  · intro before after b hnotes hspared
    obtain ⟨φ, hpath, hfits⟩ := hch.phase b
    rw [hnotes, story_append, story_cons _ rfl] at hpath
    obtain ⟨ψ, χ, -, hstep, hafter⟩ := hpath.middle
    cases hstep
    refine hfits.holds ?_
    rintro rfl
    obtain ⟨q, v, hmem, hdead⟩ := hafter.dead_of_absent (by decide)
    obtain ⟨hnote, he⟩ := mem_story.mp hmem
    exact hspared q v hnote (Option.some.inj he) hdead
  · have hdue := hch.due_perm
    rw [List.perm_iff_count] at hdue ⊢
    intro b
    have hcount := hdue b
    simp only [due, Heap.due, hreached.reached.sound.found_eq, Handoff.toList_empty,
      List.append_nil, List.count_append] at hcount
    simp only [List.count_append]
    omega
  · intro before after q v hnotes hv huntold
    obtain ⟨φ, hpath, hfits⟩ := hch.phase q.block
    rw [hnotes, story_append, story_cons _ rfl] at hpath
    obtain ⟨ψ, χ, -, hstep, hafter⟩ := hpath.middle
    obtain ⟨-, rfl⟩ := hstep.of_finalize hv
    obtain ⟨rfl, hborn⟩ := hafter.queued_of_untold fun b hb => by
      obtain ⟨hmem, he⟩ := mem_story.mp hb
      exact huntold (Option.some.inj he ▸ hmem)
    refine ⟨hfits.holds (by decide), fun hmem => ?_⟩
    exact hborn _ (mem_story.mpr ⟨hmem, rfl⟩)

/-- An unmarked object with a finalizer is found by a sweep and taken for its finalizer. -/
theorem finalizers_in_order_small :
    let o := run (Policy.byMark (ρ := Unit)) [.enlist, .createObject 0 16,
      .createRecord 0 ⟨0, 0⟩ true, .prepare, .sweep 1, .submit 0, .extract] (new ())
    ReachedBy Dutiful o ∧
    (∀ (before between after : List Note) (q q' : Question) (v v' : Verdict),
      o.notes = before ++ .judged q v :: (between ++ .judged q' v' :: after) → q'.block = q.block →
      v.fate = .finalize → v'.fate = .finalize → .born (.block q.block) ∈ between) ∧
    (∀ (before after : List Note) (q : Question) (v : Verdict) (flags : Flags),
      o.notes = before ++ .judged q v :: after → v.fate = .dead → q.flags = some flags →
      flags.has .hasFinalizer = true →
      ∃ past since, before = past ++ .told q.block :: since ∧ .born (.block q.block) ∉ since) ∧
    (∀ (before after : List Note) (b : BlockRef), o.notes = before ++ .born (.block b) :: after →
      (∀ q v, .judged q v ∈ after → q.block = b → v.fate ≠ .dead) → o.heap.Holds (.block b)) ∧
    (finalizing o.notes).Perm
      (o.extracted ++ (o.heap.pending.toList ++ o.returned.flatMap Handoff.toList)) ∧
    ∀ (before after : List Note) (q : Question) (v : Verdict),
      o.notes = before ++ .judged q v :: after → v.fate = .finalize → .told q.block ∉ after →
      o.heap.Holds (.block q.block) ∧ .born (.block q.block) ∉ after := by
  intro o
  have hstart : ReachedBy Dutiful (run (Policy.byMark (ρ := Unit)) [] (new ())) := .start ()
  have henlisted := hstart.concat (show Admits _ .enlist from trivial) ⟨rfl, trivial⟩
  have hfirst : Admits (run (Policy.byMark (ρ := Unit)) [.enlist] (new ())) (.createObject 0 16) :=
    Nat.zero_lt_one
  have hmade := henlisted.concat hfirst ⟨rfl, trivial⟩
  have hobject : 0 < (run (Policy.byMark (ρ := Unit)) [.enlist, .createObject 0 16]
        (new ())).allocators.length ∧
      .block ⟨0, 0⟩ ∈ (run (Policy.byMark (ρ := Unit)) [.enlist, .createObject 0 16]
        (new ())).heap.tenantsOn 0 ∧
      2 ≤ ((run (Policy.byMark (ρ := Unit)) [.enlist, .createObject 0 16]
        (new ())).heap.content ⟨0, 0⟩).length := by decide +kernel
  have hsecond : Admits (run (Policy.byMark (ρ := Unit)) [.enlist, .createObject 0 16] (new ()))
    (.createRecord 0 ⟨0, 0⟩ true) := hobject
  have hrecorded := hmade.concat hsecond ⟨rfl, trivial⟩
  have hidle := not_waiting_concat hmade.reached hsecond (by simp) <|
    not_waiting_concat henlisted.reached hfirst (by simp) (not_waiting_new ())
  have hprepared := hrecorded.concat (show Admits _ .prepare from admits_prepare_iff.mpr hidle)
    ⟨rfl, trivial⟩
  have hcollected := hprepared.concat (show Admits _ (.sweep 1) from trivial) ⟨rfl, trivial⟩
  have hreturned := length_returned_sweep hprepared.reached 1
  have hsubmitted := hcollected.concat (show Admits _ (.submit 0) from hreturned) ⟨rfl, trivial⟩
  have hreached : ReachedBy Dutiful o :=
    hsubmitted.concat (show Admits _ .extract from trivial) ⟨rfl, trivial⟩
  exact ⟨hreached, finalizers_in_order hreached⟩

end SweptHeap.HeapSystem
