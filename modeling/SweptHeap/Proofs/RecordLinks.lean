import Mathlib
import SweptHeap.Proofs.MarkSweep
import SweptHeap.Proofs.HeapSystem.FirstRecord
import SweptHeap.Proofs.HeapSystem.RecordOwners

/-!
# Records neither dangle nor leak

When sweeps go by marks and nobody else meddles with headers or records, links and records match at
all times: an object links to a record of its own, and a record that no object links to is
sweepable. A cycle reclaims the records that are sweepable at its start.
-/

namespace SweptHeap

/-- The allocated object at `b` links to the record at `r`. -/
def Heap.Links {ρ : Type} (h : Heap ρ) (b r : BlockRef) : Prop :=
  h.Holds (.block b) ∧ h.arena.memory.recordOf b = some r

namespace HeapSystem

variable {ρ : Type} {o done : HeapSystem ρ} {b r : BlockRef} {record : Record} {notes : List Note}

/-- The operation respects its caller's duties and is fit for a civil heap. -/
def Proper (o : HeapSystem ρ) (op : Op) : Prop := o.Admits op ∧ o.Civil op

/-- The record at `r` was given up, once and for all: whatever is there in the end is newer. -/
def GivenUp (r : BlockRef) (notes : List Note) (done : HeapSystem ρ) : Prop :=
  ∃ past record since, notes = past ++ .judgedRecord r record .dead :: since ∧
    .born (.record r) ∉ past ∧ (done.heap.Holds (.record r) → .born (.record r) ∈ since)

theorem links_iff (hc : o.heap.Civil) : o.heap.Links b r ↔ ∃ x record, o.heap.Depicts b x ∧
    x.record = some (r, record) ∧ o.heap.record? r = some record := by
  constructor
  · rintro ⟨hheld, hlink⟩
    obtain ⟨x, hx⟩ := hc b hheld
    rw [hx.recordOf_eq] at hlink
    obtain ⟨⟨r', record⟩, hr, rfl⟩ := Option.map_eq_some_iff.mp hlink
    exact ⟨x, record, hx, hr, (hx.record r' record hr).1⟩
  · rintro ⟨x, record, hx, hr, -⟩
    refine ⟨hx.held, ?_⟩
    rw [hx.recordOf_eq, hr]
    rfl

theorem ReachedBy.filed (hr : ReachedBy Mannerly o) : o.heap.Filed := by
  induction hr with
  | start memo =>
    intro r record hrecord
    have hheld := ((sound_new memo).heap.record_iff r).mp ⟨record, hrecord⟩
    exact absurd hheld (not_holds_new memo _)
  | @step o policy op hreached ha hd ih =>
    obtain ⟨rfl, hcivil⟩ := hd
    have ho := hreached.reached.sound
    by_cases hop : op = .prepare
    · subst hop
      obtain ⟨h, hp, heq, -⟩ := step_prepare Policy.byMark ho ha
      rw [heq]
      exact filed_prepared hp ih
    · obtain ⟨hmoves, -, -⟩ := step_moves Policy.byMark True ho ha (fun _ => hcivil) hop
      exact Moves.filed hmoves ho.heap hreached.civil ih

/-- A record that was asked about and not spared has been given up. -/
theorem InCycle.givenUp (hcycle : InCycle o notes done) (hheld : o.heap.Holds (.record r))
    (hswept : ¬done.heap.Waiting r.page) (hspared : (spared notes).count (.record r) = 0) :
    GivenUp r notes done := by
  obtain ⟨hasked, htally⟩ := hcycle.swept (.record r) hswept
  have hreclaimed : Tenant.record r ∈ reclaimed notes := by
    have hcount := count_asked notes (.record r)
    have hpos := Heap.tally_pos.mpr hheld
    exact List.count_pos_iff.mp (by omega)
  obtain ⟨⟨t, fate⟩, hanswer, rfl⟩ := List.mem_map.mp hreclaimed
  obtain ⟨hmem, hdead⟩ := List.mem_filter.mp hanswer
  obtain rfl : fate = .dead := of_decide_eq_true hdead
  obtain ⟨n, hn, hanswer⟩ := List.mem_filterMap.mp hmem
  obtain ⟨record, rfl⟩ : ∃ record, n = .judgedRecord r record .dead := by
    cases n with
    | judged q v => cases hanswer
    | judgedRecord r' record fate =>
      cases hanswer
      exact ⟨record, rfl⟩
    | born t => cases hanswer
    | told b => cases hanswer
  obtain ⟨past, since, rfl⟩ := List.append_of_mem hn
  -- Nothing is asked about that is new, so the record was there before.
  have hunborn : .born (.record r) ∉ past := by
    intro hborn
    exact (List.pairwise_append.mp hcycle.never).2.2 _ hborn _ List.mem_cons_self _ rfl .dead rfl
  refine ⟨past, record, since, rfl, hunborn, fun hheld' => ?_⟩
  have hborn : .born (.record r) ∈ past ++ .judgedRecord r record .dead :: since := by
    have hpos := Heap.tally_pos.mpr hheld'
    exact mem_births.mp (List.count_pos_iff.mp (by omega))
  rcases List.mem_append.mp hborn with hborn | hborn
  · exact absurd hborn hunborn
  · exact (List.mem_cons.mp hborn).resolve_left (by simp)

/-- A cycle gives up the records that are sweepable at its start. -/
theorem sweep_gives_up (ho : o.Sound) (hc : o.heap.Civil) (hswept : o.Admits .prepare)
    {ops : List Op} (hops : .prepare ∉ ops)
    (hallows : Allows Proper .byMark ops (o.step .byMark .prepare).2) (epoch : Int) :
    ∃ notes done, (run .byMark ops (o.step .byMark .prepare).2).step .byMark (.sweep epoch) =
        (.ok none, done) ∧ done.notes = o.notes ++ notes ∧
      ∀ r record, o.heap.record? r = some record → record.flags.has .sweepable = true →
        GivenUp r notes done := by
  obtain ⟨h, hprepared, heq, hsound⟩ := step_prepare Policy.byMark ho hswept
  rw [heq] at hallows ⊢
  have hc₁ : h.Civil := civil_prepared hprepared hc
  have hcycle : InCycle o [] { o with heap := h } := .start
    (fun t ht => hprepared.waiting ho.heap hsound.heap hswept ht)
    (fun t => by rw [Heap.tally, hprepared.tenants_eq, Heap.tally])
    (congrArg Diary.notes hprepared.same.memo_eq) (congrArg (· ++ _) hprepared.due_eq)
  obtain ⟨hmoves, hsound₁⟩ := run_moves Policy.byMark True (fun _ _ ha => ⟨ha.1, fun _ => ha.2⟩)
    (fun op hop => ne_of_mem_of_not_mem hop hops) hsound hallows
  generalize run Policy.byMark ops { o with heap := h } = o₁ at hmoves hsound₁ ⊢
  obtain ⟨h₂, hsweep, htidies, hempty⟩ :=
    Heap.sweep_spec (Policy.byMark (ρ := ρ)).noting hsound₁.heap epoch
  obtain ⟨done, hstep, hmoves', -, rfl⟩ := step_receive Policy.byMark True hsound₁ htidies hsweep
  have hover := Heap.not_waiting_iff.mpr hempty
  have hall := hmoves.trans hmoves'
  obtain ⟨notes, hin⟩ := hcycle.moves hall hsound.heap
  refine ⟨notes, _, hstep, hin.notes_eq, fun r record hrecord hsweepable => ?_⟩
  have hheld : o.heap.Holds (.record r) := (ho.heap.record_iff r).mp ⟨record, hrecord⟩
  have hwaiting : h.Waiting r.page := by
    refine hprepared.waiting (t := .record r) ho.heap hsound.heap hswept ?_
    rw [Heap.Holds, hprepared.tenants_eq]
    exact hheld
  obtain ⟨more, hin', hfate⟩ := hcycle.sweepable hsound.heap hc₁ hsweepable
    (.inl ⟨hwaiting, (hprepared.record_eq r).trans hrecord⟩) hall
  obtain rfl : more = notes := List.append_cancel_left (hin'.notes_eq.symm.trans hin.notes_eq)
  rcases hfate with ⟨hwaits, -⟩ | ⟨-, hspared⟩
  · exact absurd hwaits (hover _)
  · exact hin.givenUp hheld (hover _) hspared

/-! ### A record left behind -/

/-- An object that waits for the sweep and is spared keeps its record. -/
theorem sweep_keeps_link (ho : o.Sound) (hc : o.heap.Civil) {ops : List Op}
    (hops : ∀ op ∈ ops, op.OfAllocator ∧ ∀ i bytes, op ≠ .allocate i bytes)
    (hallows : Allows Admits .byMark ops o) (hother : ∀ op ∈ ops, ¬op.Attaches b) {x : Object}
    (hx : o.heap.Depicts b x) (hwaits : o.heap.Waiting b.page)
    (hspared : (x.question b).verdictByMark.fate ≠ .dead) (hlink : x.record.map Prod.fst = some r)
    (epoch : Int) : ((run .byMark ops o).step .byMark (.sweep epoch)).2.heap.Links b r := by
  obtain ⟨done, hstep, -, hover, hpasses⟩ := sweep_passes ho hc hops hallows epoch
  obtain ⟨notes, -, hstages⟩ := hpasses b x
  rw [hstep]
  have hnone : ¬∃ op ∈ ops, op.Attaches b := fun ⟨op, hop, hat⟩ => hother op hop hat
  cases hstages [] (.start hx hwaits) with
  | waiting _ hw => exact absurd hw (hover _)
  | spared hremains =>
    have hy := hremains.depicts
    refine ⟨hy.held, ?_⟩
    rw [hy.recordOf_eq, ← hlink]
    exact hremains.relinked.resolve_right fun hnew => hnone hnew.1
  | reclaimed _ hasked hdead => exact absurd (hasked.question_eq hnone ▸ hdead) hspared

/-- An object that waits for the sweep gets its first record. The object goes on waiting, and the
page of the record does not wait. -/
theorem step_createRecord_waiting (ho : o.Sound) (hc : o.heap.Civil) {i : Nat}
    {withFinalizer : Bool} (ha : o.Admits (.createRecord i b withFinalizer)) {x : Object}
    (hx : o.heap.Depicts b x) (hbare : x.record = none) (hwaits : o.heap.Waiting b.page) :
    ∃ r o', o.step .byMark (.createRecord i b withFinalizer) = (.ok (some r), o') ∧
      o'.heap.Waiting b.page ∧ ¬o'.heap.Waiting r.page ∧ ∃ y : Object, y.marked = x.marked ∧
        o'.heap.Depicts b { y with record := some (r, ⟨some b, .initial withFinalizer⟩) } := by
  obtain ⟨r, h₁, h₂, a, a', -, heq, htidies, -, hheld, hheader, -, hgets, -, -, hfinds⟩ :=
    step_createRecord_none .byMark ho ha (hx.recordOf_none hbare)
  have hs₁ := Heap.Tidies.sound htidies ho.heap
  -- Only pages of records are swept on the way, so the object waits as it was.
  obtain ⟨p, hp, hkind, -⟩ := Heap.holds_block.mp hx.held
  have hwaits₁ : h₁.Waiting b.page := hfinds.waiting ho.heap hp hkind hwaits
  obtain ⟨y, hy, hmarked⟩ : ∃ y, h₁.Depicts b y ∧ y.marked = x.marked := by
    obtain ⟨-, more, -, hstages⟩ : h₁.Civil ∧ Passes b x False False o.heap h₁ :=
      passes_tidies htidies ho.heap hc
    cases hstages [] (.start hx hwaits) with
    | waiting hremains _ _ hmarked => exact ⟨_, hremains.depicts, hmarked⟩
    | spared _ hnot => exact absurd hwaits₁ hnot
    | reclaimed hnot => exact absurd hwaits₁ hnot
  obtain ⟨-, hwrites⟩ := record_linked hs₁ hheld hheader hgets
  have hw := (hgets.welcomes_record hs₁).1
  have hwaiting (id : PageId) : (h₂.write b.linkCell (.link r)).Waiting id ↔ h₁.Waiting id :=
    (hwrites.waiting_iff id).trans (hw.waiting_iff id)
  exact ⟨r, _, heq, (hwaiting _).mpr hwaits₁, mt (hwaiting _).mp hw.swept, y, hmarked,
    depicts_enrolled hy hheader hgets hs₁⟩

/-- An object gets its record in the middle of a cycle. If it is not marked, the sweep reclaims it
and leaves the record for the next cycle. Other objects that are spared keep their records. -/
theorem cycle_leaves_record (hreached : ReachedBy Mannerly o) (hswept : o.Admits .prepare) {i : Nat}
    (hi : i < o.allocators.length) {x : Object} (hx : o.heap.Depicts b x)
    (hunmarked : x.marked = false) (hbare : x.record = none) (epoch : Int) :
    let done := run .byMark [.prepare, .createRecord i b false, .sweep epoch] o
    ReachedBy Mannerly done ∧ done.Admits .prepare ∧
      (∃ r record, done.heap.record? r = some record ∧ record.flags.has .sweepable = true) ∧
      ∀ b' y r, b' ≠ b → o.heap.Depicts b' y → (y.question b').verdictByMark.fate ≠ .dead →
        y.record.map Prod.fst = some r → done.heap.Links b' r := by
  have ho := hreached.reached.sound
  obtain ⟨h, hprepared, heq, hsound⟩ := step_prepare .byMark ho hswept
  have hreached₁ := hreached.step hswept ⟨rfl, trivial⟩
  rw [heq] at hreached₁
  have hx₁ := hprepared.depicts hx
  have hwaiting {t : Tenant} (ht : h.Holds t) : h.Waiting t.ref.page :=
    hprepared.waiting ho.heap hsound.heap hswept ht
  have ha : Admits { o with heap := h } (.createRecord i b false) := by
    obtain ⟨link, -, hcells⟩ := hx₁.cells
    refine ⟨hi, hx₁.held, ?_⟩
    rw [hcells]
    simp
  obtain ⟨r, o₂, heq₂, hwaits₂, hswept₂, y, hmarked, hy⟩ :=
    step_createRecord_waiting hsound hreached₁.civil ha hx₁ hbare (hwaiting hx₁.held)
  have hreached₂ := hreached₁.step ha ⟨rfl, trivial⟩
  rw [heq₂] at hreached₂
  have ho₂ := hreached₂.reached.sound
  obtain ⟨h₃, hsweep, htidies, hempty⟩ :=
    Heap.sweep_spec (Policy.byMark (ρ := ρ)).noting ho₂.heap epoch
  obtain ⟨done, hstep, -, -, rfl⟩ := step_receive .byMark False ho₂ htidies hsweep
  have hover := Heap.not_waiting_iff.mpr hempty
  have hdead : (Object.question { y with record := some (r, ⟨some b, .initial false⟩) }
      b).verdictByMark.fate = .dead := by
    simp only [Object.question, Object.flags, hmarked.trans hunmarked, Option.map_some]
    rfl
  have hleft := (htidies.leaves_record ho₂.heap hreached₂.civil hy hdead rfl hwaits₂
    hswept₂).2.resolve_left fun hw => hover _ hw.1
  have hreached₃ := hreached₂.step (show Admits o₂ (.sweep epoch) from trivial) ⟨rfl, trivial⟩
  have hrun : run .byMark [.prepare, .createRecord i b false, .sweep epoch] o =
      (o₂.step .byMark (.sweep epoch)).2 := by
    simp only [run, heq, heq₂]
  have hdone : o₂.step .byMark (.sweep epoch) = _ := hstep
  rw [hdone] at hrun hreached₃
  rw [hrun]
  refine ⟨hreached₃, hempty, ⟨r, hleft⟩, fun b' y' r' hne hy' hspared hlink => ?_⟩
  have hy₁ := hprepared.depicts hy'
  have hops : ∀ op ∈ [Op.createRecord i b false],
      op.OfAllocator ∧ ∀ i bytes, op ≠ .allocate i bytes := by
    simp [Op.OfAllocator]
  have hother : ∀ op ∈ [Op.createRecord i b false], ¬op.Attaches b' := by
    simp [Op.Attaches, hne.symm]
  have hkept := sweep_keeps_link hsound hreached₁.civil hops ⟨ha, trivial⟩ hother hy₁
    (hwaiting hy₁.held) hspared hlink epoch
  rw [run, heq₂, run, hdone] at hkept
  exact hkept

/-- Links and records match after every operation, and what is sweepable when a cycle begins is
reclaimed when its sweep returns. -/
theorem records_match_links (hreached : ReachedBy Mannerly o) :
    (∀ b r, o.heap.Links b r → ∃ record, o.heap.record? r = some record ∧ record.base = some b ∧
      record.flags.has .sweepable = false) ∧
    (∀ r, o.heap.Holds (.record r) → ∃ record, o.heap.record? r = some record ∧
      ((∃ b, record.base = some b ∧ o.heap.Links b r) ∨
        record.flags.has .sweepable = true ∧ ∀ b, ¬o.heap.Links b r)) ∧
    (∀ b b' r, o.heap.Links b r → o.heap.Links b' r → b = b') ∧
    ∀ ops, o.Admits .prepare → .prepare ∉ ops →
      Allows Proper .byMark ops (o.step .byMark .prepare).2 → ∀ epoch,
      ∃ notes done, (run .byMark ops (o.step .byMark .prepare).2).step .byMark (.sweep epoch) =
          (.ok none, done) ∧ done.notes = o.notes ++ notes ∧
        ∀ r record, o.heap.record? r = some record → record.flags.has .sweepable = true →
          GivenUp r notes done := by
  have ho := hreached.reached.sound
  have hc := hreached.civil
  refine ⟨?_, ?_, ?_, fun ops hswept hops hallows epoch =>
    sweep_gives_up ho hc hswept hops hallows epoch⟩
  · intro b r hlinks
    obtain ⟨x, record, hx, hr, -⟩ := (links_iff hc).mp hlinks
    exact ⟨record, hx.record r record hr⟩
  · intro r hheld
    obtain ⟨record, hrecord⟩ := (ho.heap.record_iff r).mpr hheld
    refine ⟨record, hrecord, ?_⟩
    rcases hreached.filed r record hrecord with ⟨b, x, hx, hr⟩ | hsweepable
    · exact .inl ⟨b, (hx.record r record hr).2.1, (links_iff hc).mpr ⟨x, record, hx, hr, hrecord⟩⟩
    · refine .inr ⟨hsweepable, fun b hlinks => ?_⟩
      obtain ⟨x, record', hx, hr, -⟩ := (links_iff hc).mp hlinks
      exact hx.ne_sweepable hrecord hsweepable (by rw [hr]; rfl)
  · intro b b' r hlinks hlinks'
    obtain ⟨x, record, hx, hr, -⟩ := (links_iff hc).mp hlinks
    obtain ⟨x', record', hx', hr', -⟩ := (links_iff hc).mp hlinks'
    exact hx.owner hx' hr hr'

/-- One object has a record with a finalizer when a cycle begins, another one gets its record before
the sweep and is reclaimed. -/
theorem records_match_links_small : ∃ o : HeapSystem Unit,
    o = run .byMark [.enlist, .createObject 0 16, .createObject 0 16, .createRecord 0 ⟨0, 0⟩ true,
      .prepare, .createRecord 0 ⟨0, 4⟩ false, .sweep 1] (new ()) ∧
    ReachedBy Mannerly o ∧
    ((∃ r, o.heap.Links ⟨0, 0⟩ r) ∧
      ∀ b r, o.heap.Links b r → ∃ record, o.heap.record? r = some record ∧ record.base = some b ∧
        record.flags.has .sweepable = false) ∧
    (∀ r, o.heap.Holds (.record r) → ∃ record, o.heap.record? r = some record ∧
      ((∃ b, record.base = some b ∧ o.heap.Links b r) ∨
        record.flags.has .sweepable = true ∧ ∀ b, ¬o.heap.Links b r)) ∧
    (∀ b b' r, o.heap.Links b r → o.heap.Links b' r → b = b') ∧
    (∃ r record, o.heap.record? r = some record ∧ record.flags.has .sweepable = true) ∧
    ∃ notes done, (o.step .byMark .prepare).2.step .byMark (.sweep 2) = (.ok none, done) ∧
      done.notes = o.notes ++ notes ∧
      ∀ r record, o.heap.record? r = some record → record.flags.has .sweepable = true →
        GivenUp r notes done := by
  obtain ⟨hpair, hsettled⟩ := pair_reached
  obtain ⟨⟨hbare, hbare'⟩, hmark, hmark'⟩ := pair_eq
  obtain ⟨x, hx⟩ := hpair.civil ⟨0, 0⟩ (pair_admits true).1.2.1
  obtain ⟨y, hy⟩ := hpair.civil ⟨0, 4⟩ (pair_admits true).2.2.1
  have hnone : x.record = none := Option.map_eq_none_iff.mp (hx.recordOf_eq.symm.trans hbare)
  have hnone' : y.record = none := Option.map_eq_none_iff.mp (hy.recordOf_eq.symm.trans hbare')
  obtain ⟨r, o₁, heq, hdesks, -, hx₁, hothers⟩ :=
    step_enroll hpair.reached.sound hsettled (pair_admits true).1 hx hnone
  have hsettled₁ := (aside_createRecord .byMark pair 0 ⟨0, 0⟩ true hsettled).1
  have hreached₁ := hpair.step (pair_admits true).1 ⟨rfl, trivial⟩
  rw [heq] at hsettled₁ hreached₁
  have hdesk : 0 < o₁.allocators.length := by
    rw [hdesks]
    exact (pair_admits true).1.1
  have hy₁ : o₁.heap.Depicts ⟨0, 4⟩ y := hothers _ y (by decide) hy
  obtain ⟨hreached, hswept, hsweepable, hkept⟩ := cycle_leaves_record hreached₁ hsettled₁ hdesk hy₁
    (hy.isMarked_eq.symm.trans hmark') hnone' 1
  have hspared : (Object.question { x with record := some (r, ⟨some ⟨0, 0⟩, .initial true⟩) }
      ⟨0, 0⟩).verdictByMark.fate ≠ .dead := by
    simp only [Object.question, Object.flags, hx.isMarked_eq.symm.trans hmark, Option.map_some]
    decide
  have hlink := hkept _ _ r (by decide) hx₁ hspared rfl
  have hfirst := run_concat .byMark [.enlist, .createObject 0 16, .createObject 0 16]
    (.createRecord 0 ⟨0, 0⟩ true) (new ())
  change run .byMark [.enlist, .createObject 0 16, .createObject 0 16, .createRecord 0 ⟨0, 0⟩ true]
    (new ()) = (pair.step _ _).2 at hfirst
  have hrun := run_append .byMark
    [.enlist, .createObject 0 16, .createObject 0 16, .createRecord 0 ⟨0, 0⟩ true]
    [.prepare, .createRecord 0 ⟨0, 4⟩ false, .sweep 1] (new ())
  rw [hfirst, heq] at hrun
  obtain ⟨hlinks, hrecords, hunshared, hcycle⟩ := records_match_links hreached
  have hsweep := hcycle [] hswept List.not_mem_nil trivial 2
  exact ⟨_, hrun.symm, hreached, ⟨⟨r, hlink⟩, hlinks⟩, hrecords, hunshared, hsweepable, hsweep⟩

end HeapSystem

end SweptHeap
