import Mathlib
import SweptHeap.Proofs.HeapSystem.Cycle
import SweptHeap.Proofs.HeapSystem.ObjectMoves

/-!
# Records and their objects

In a civil heap a record belongs to an object for as long as the object is there. A sweep that
reclaims the object makes the record sweepable. Nothing else does, nobody links to such a record
again, and the next cycle reclaims it.
-/

namespace SweptHeap

variable {ρ : Type}

theorem Question.Ruled.raised_of_dead {q : Question} {v : Verdict} (hv : q.Ruled v)
    (hdead : v.fate = .dead) (hflags : q.flags ≠ none) : v.raised = .sweepable := by
  cases hv with
  | marked => cases hdead
  | bare _ hnone => exact absurd hnone hflags
  | spent => rfl
  | queued => cases hdead
  | sent => cases hdead

namespace Heap

variable {h h' : Heap (Diary ρ)} {id : PageId} {p : Page} {hearings : List Hearing} {b r : BlockRef}
  {x : Object} {record : Record}

/-- Every record belongs to an object or is sweepable. -/
def Filed (h : Heap (Diary ρ)) : Prop := ∀ r record, h.record? r = some record →
  (∃ b x, h.Depicts b x ∧ x.record = some (r, record)) ∨ record.flags.has .sweepable = true

theorem Depicts.ne_sweepable (hx : h.Depicts b x) (hrecord : h.record? r = some record)
    (hsweepable : record.flags.has .sweepable = true) : x.record.map Prod.fst ≠ some r := by
  intro hlink
  obtain ⟨⟨r', mine⟩, hmine, rfl⟩ := Option.map_eq_some_iff.mp hlink
  obtain ⟨hrec, -, hnot⟩ := hx.record r' mine hmine
  obtain rfl : record = mine := Option.some.inj (hrecord.symm.trans hrec)
  exact Bool.false_ne_true (hnot.symm.trans hsweepable)

/-! ### What sweeps do with records -/

/-- The page `id` was waiting and has been swept by marks, with an eye on records. -/
structure Purges (id : PageId) (h h' : Heap (Diary ρ)) : Prop extends Collects id h h' where
  old_records : ∀ r, h'.Holds (.record r) → h.Holds (.record r)
  /-- A reclaimed object leaves its record for the next sweep. -/
  left : ∀ b x, h.Depicts b x → b.page = id → (x.question b).verdictByMark.fate = .dead →
    ∀ r record, x.record = some (r, record) → h'.record? r = some (record.raise .sweepable)
  gone : ∀ r record, h.record? r = some record → record.flags.has .sweepable = true → r.page = id →
    ¬h'.Holds (.record r)
  stray : ∀ r record, h.record? r = some record → record.flags.has .sweepable = true → r.page ≠ id →
    h'.record? r = some record

theorem Sweeps.holds_of_holds {policy : Policy ρ} {t : Tenant}
    (hsw : Sweeps policy.noting id p hearings h h') (ht : h'.Holds t) : h.Holds t := by
  rw [Holds] at ht ⊢
  by_cases hpage : t.ref.page = id
  · rw [hpage, hsw.tenants_self] at ht
    obtain ⟨i, hi, rfl⟩ := List.mem_map.mp ht
    obtain ⟨y, hy, -, rfl⟩ := mem_survivors.mp hi
    rw [PageKind.ref_tenant, tenantsOn_eq hsw.page_eq, Page.tenants, ← hsw.map_index]
    exact List.mem_map_of_mem (List.mem_map_of_mem hy)
  · rwa [hsw.tenants_other _ hpage] at ht

theorem Sweeps.purges_objects (hsw : Sweeps (Policy.byMark (ρ := ρ)).noting id p hearings h h')
    (hs : h.Sound) (hc : h.Civil) (hkind : p.kind ≠ .records) : Purges id h h' := by
  obtain ⟨-, -, hraised, hstray⟩ := hsw.heard_objects hs hc hkind
  refine ⟨hsw.collects_objects hs hc hkind, fun r => hsw.holds_of_holds, ?_, ?_, ?_⟩
  · intro b x hx hb hdead r record hr
    have hflags : (x.question b).flags ≠ none := by simp [Object.question, Object.flags, hr]
    rw [hraised b x hx r record hr, if_pos hb,
      (x.question b).ruled_verdictByMark.raised_of_dead hdead hflags]
  · -- A page of objects has no records.
    intro r record hrecord _ hpage
    obtain ⟨q, hq, hrecords, -⟩ := holds_record.mp ((hs.record_iff r).mp ⟨record, hrecord⟩)
    rw [hpage, hsw.page_eq] at hq
    exact absurd (Option.some.inj hq ▸ hrecords) hkind
  · intro r record hrecord hsweepable hpage
    rw [hstray r hpage fun b x hx => hx.ne_sweepable hrecord hsweepable, hrecord]

theorem Sweeps.purges_records (hsw : Sweeps (Policy.byMark (ρ := ρ)).noting id p hearings h h')
    (hs : h.Sound) (hkind : p.kind = .records) : Purges id h h' := by
  have hcollects := hsw.collects_records hs hkind
  obtain ⟨q, rfl⟩ := Page.exists_records hkind
  obtain ⟨a, c, hpages, -, hhear, -, hrecords⟩ := hsw.heard
  obtain ⟨hmemory, -, hfates⟩ := Arena.hear_records hhear
  refine ⟨hcollects, fun r => hsw.holds_of_holds, ?_, ?_, ?_⟩
  · intro b x hx hb
    obtain ⟨p, hp, hne, -⟩ := holds_block.mp hx.held
    rw [hb, hsw.page_eq] at hp
    exact absurd (Option.some.inj hp ▸ rfl) hne
  · -- Its hearing ended with its death, so it is not among the survivors.
    rintro ⟨page, index⟩ record hrecord hsweepable rfl hheld
    rw [Holds, Tenant.ref_record, hsw.tenants_self] at hheld
    obtain ⟨i, hi, he⟩ := List.mem_map.mp hheld
    obtain rfl : i = index := congrArg BlockRef.index (Tenant.record.inj he)
    obtain ⟨y, hy, hspares, rfl⟩ := mem_survivors.mp hi
    have hat : (Page.records q).record? y.1.index = some record :=
      (record?_eq (b := ⟨page, y.1.index⟩) hsw.page_eq).symm.trans hrecord
    have hfate : y.2.fate = .dead := by
      rw [hfates y hy record hat, Record.fate, if_pos hsweepable]
    simp [Ruling.spares, hfate] at hspares
  · intro r record hrecord _ hpage
    rw [hrecords r hpage, hmemory, Memory.record?, hpages, if_neg hpage]
    exact hrecord

theorem Tidy.quiet_or_purges (ht : Tidy (Policy.byMark (ρ := ρ)).noting h h') (hs : h.Sound)
    (hc : h.Civil) : Quiet h h' ∨ ∃ id, Purges id h h' := by
  rcases ht.quiet_or_sweeps hs with hq | ⟨id, p, hearings, hsw⟩
  · exact .inl hq
  · by_cases hkind : p.kind = .records
    · exact .inr ⟨id, hsw.purges_records hs hkind⟩
    · exact .inr ⟨id, hsw.purges_objects hs hc hkind⟩

/-- An object that is to be reclaimed waits for the sweep of its page, or it has left its record for
a later one. -/
theorem Tidies.leaves_record (ht : Tidies (Policy.byMark (ρ := ρ)).noting h h') (hs : h.Sound)
    (hc : h.Civil) (hx : h.Depicts b x) (hdead : (x.question b).verdictByMark.fate = .dead)
    (hr : x.record = some (r, record)) (hwaits : h.Waiting b.page) (hswept : ¬h.Waiting r.page) :
    (h'.Civil ∧ ¬h'.Waiting r.page) ∧ (h'.Waiting b.page ∧ h'.Depicts b x ∨
      ∃ left, h'.record? r = some left ∧ left.flags.has .sweepable = true) := by
  induction ht with
  | refl => exact ⟨⟨hc, hswept⟩, .inl ⟨hwaits, hx⟩⟩
  | @tail h₁ h₂ htidies hstep ih =>
    obtain ⟨⟨hc₁, hswept₁⟩, hfate⟩ := ih
    have hs₁ := Tidies.sound htidies hs
    have hm : HeapSystem.Move (Policy.byMark (ρ := ρ)) True { heap := h₁ } { heap := h₂ } :=
      .tidy hstep
    have hc₂ : h₂.Civil := hm.civil hs₁ hc₁
    rcases hstep.quiet_or_purges hs₁ hc₁ with hq | ⟨id, hpurges⟩
    · refine ⟨⟨hc₂, mt (hq.waiting_iff _).mp hswept₁⟩, hfate.imp (fun hw => ?_) fun hleft => ?_⟩
      · exact ⟨(hq.waiting_iff _).mpr hw.1, hq.depicts hw.2⟩
      · rwa [hq.record_eq]
    · have hne : r.page ≠ id := fun he => hswept₁ (he ▸ hpurges.waiting)
      refine ⟨⟨hc₂, fun hw => hswept₁ ((hpurges.waiting_iff _).mp hw).1⟩, ?_⟩
      rcases hfate with ⟨hw, hx₁⟩ | ⟨left, hleft, hsweepable⟩
      · by_cases hpage : b.page = id
        · refine .inr ⟨_, hpurges.left b x hx₁ hpage hdead r record hr, ?_⟩
          rw [Record.raise_flags, Flags.has_union_sweepable]
          exact Bool.or_true _
        · exact .inl ⟨(hpurges.waiting_iff _).mpr ⟨hw, hpage⟩, hpurges.other b x hx₁ hpage⟩
      · exact .inr ⟨left, hpurges.stray r left hleft hsweepable hne, hsweepable⟩

/-- Whoever had a record has it now, and the records that have changed belong to objects. -/
structure Files (h h' : Heap (Diary ρ)) : Prop where
  owners : ∀ b x, h.Depicts b x →
    ∃ y, h'.Depicts b y ∧ ∀ r, x.record.map Prod.fst = some r → y.record.map Prod.fst = some r
  records : ∀ r, h'.record? r = h.record? r ∨
    (∃ b y, h'.Depicts b y ∧ y.record.map Prod.fst = some r) ∧
      ∀ record, h.record? r = some record → record.flags.has .sweepable = false
  waiting_iff : ∀ id, h'.Waiting id ↔ h.Waiting id

/-- A record that an object links to belongs to it. -/
theorem Depicts.owns (hx : h.Depicts b x) (hlink : x.record.map Prod.fst = some r)
    (hrecord : h.record? r = some record) : x.record = some (r, record) := by
  obtain ⟨⟨r', mine⟩, hmine, rfl⟩ := Option.map_eq_some_iff.mp hlink
  obtain ⟨hrec, -, -⟩ := hx.record r' mine hmine
  rw [hmine, Option.some.inj (hrec.symm.trans hrecord)]

theorem Filed.files (hf : h.Filed) (hfiles : Files h h') : h'.Filed := by
  intro r record hrecord
  rcases hfiles.records r with hsame | ⟨⟨b, y, hy, hlink⟩, -⟩
  · rcases hf r record (hsame.symm.trans hrecord) with ⟨b, x, hx, hr⟩ | hsweepable
    · obtain ⟨y, hy, hkept⟩ := hfiles.owners b x hx
      have hlink := hkept r (by rw [hr]; rfl)
      exact .inl ⟨b, y, hy, hy.owns hlink hrecord⟩
    · exact .inr hsweepable
  · exact .inl ⟨b, y, hy, hy.owns hlink hrecord⟩

theorem Filed.purges (hf : h.Filed) (hs : h.Sound) (hs' : h'.Sound) (hp : Purges id h h') :
    h'.Filed := by
  intro r record' hrecord'
  have hheld' := (hs'.record_iff r).mp ⟨record', hrecord'⟩
  obtain ⟨record, hrecord⟩ := (hs.record_iff r).mpr (hp.old_records r hheld')
  rcases hf r record hrecord with ⟨b, x, hx, hr⟩ | hsweepable
  · have hlink : x.record.map Prod.fst = some r := by rw [hr]; rfl
    by_cases hb : b.page = id
    · by_cases hdead : (x.question b).verdictByMark.fate = .dead
      · have hleft := hp.left b x hx hb hdead r record hr
        obtain rfl := Option.some.inj (hrecord'.symm.trans hleft)
        have hself : Flags.sweepable.has .sweepable = true := by decide
        rw [Record.raise_flags, Flags.has_union_sweepable, hself]
        exact .inr (Bool.or_true _)
      · have hspared := hp.spared b x hx hb hdead
        have hlink' : (x.spared b).record.map Prod.fst = some r := by
          rw [Object.spared, Object.raise, Option.map_map]
          exact hlink
        exact .inl ⟨b, _, hspared, hspared.owns hlink' hrecord'⟩
    · have hx' := hp.other b x hx hb
      exact .inl ⟨b, x, hx', hx'.owns hlink hrecord'⟩
  · by_cases hpage : r.page = id
    · exact absurd hheld' (hp.gone r record hrecord hsweepable hpage)
    · have hstray := hp.stray r record hrecord hsweepable hpage
      rw [Option.some.inj (hrecord'.symm.trans hstray)]
      exact .inr hsweepable

end Heap

namespace HeapSystem

variable {o o' : HeapSystem ρ} {h h' : Heap (Diary ρ)} {b r : BlockRef}
  {x : Object} {record : Record} {notes : List Note}

/-! ### What moves do with records -/

/-- An object that stays keeps its record. -/
theorem Happens.owner (hh : Happens b h h' notes) (hx : h.Depicts b x)
    (hheld : h'.Holds (.block b)) :
    ∃ y, h'.Depicts b y ∧ ∀ r, x.record.map Prod.fst = some r → y.record.map Prod.fst = some r := by
  have hraise (y : Object) (flags : Flags) :
      (y.raise flags).record.map Prod.fst = y.record.map Prod.fst := by
    rw [Object.raise, Option.map_map]
    rfl
  cases hh with
  | absent before _ => exact absurd hx.held before
  | keeps before after hsame =>
    obtain rfl := hx.unique before
    exact ⟨_, after, fun r hr => hsame ▸ hr⟩
  | enrolled before bare after =>
    obtain rfl := hx.unique before
    exact ⟨_, after, fun r hr => by simp [bare] at hr⟩
  | raised before after =>
    obtain rfl := hx.unique before
    exact ⟨_, after, fun r hr => (hraise _ _).trans hr⟩
  | born before _ _ => exact absurd hx.held before
  | told before after =>
    obtain rfl := hx.unique before
    exact ⟨_, after, fun r hr => (hraise _ _).trans hr⟩
  | reclaimed _ _ after => exact absurd hheld after
  | spared before _ after =>
    obtain rfl := hx.unique before
    exact ⟨_, after, fun r hr => (hraise _ _).trans hr⟩

/-- A move that sweeps no page keeps records and objects together. -/
theorem Tells.files (ht : Tells notes o o')
    (hholds : ∀ b, o.heap.Holds (.block b) → o'.heap.Holds (.block b))
    (hwaiting : ∀ id, o'.heap.Waiting id ↔ o.heap.Waiting id)
    (hrecords : ∀ r, o'.heap.record? r = o.heap.record? r ∨
      (∃ b y, o'.heap.Depicts b y ∧ y.record.map Prod.fst = some r) ∧
        ∀ record, o.heap.record? r = some record → record.flags.has .sweepable = false) :
    o.heap.Files o'.heap :=
  ⟨fun b _ hx => (ht.happens b).owner hx (hholds b hx.held), hrecords, hwaiting⟩

/-- Flags other than `sweepable` are raised on the record of an object. -/
theorem records_amend (flags : Flags) (hflags : flags.has .sweepable = false) (hc : h.Civil)
    (hheld : h.Holds (.block b)) (hlinked : h.arena.memory.recordOf b = some r) (r' : BlockRef) :
    (h.amend r (·.raise flags)).record? r' = h.record? r' ∨
      (∃ b y, (h.amend r (·.raise flags)).Depicts b y ∧ y.record.map Prod.fst = some r') ∧
        ∀ record, h.record? r' = some record → record.flags.has .sweepable = false := by
  have hamends := h.amend_spec r (·.raise flags)
  obtain ⟨y, hy⟩ := hc b hheld
  rw [hy.recordOf_eq] at hlinked
  by_cases hr : r' = r
  · subst hr
    refine .inr ⟨⟨b, _, hamends.depicts_self hy hlinked hflags, ?_⟩, fun record hrecord => ?_⟩
    · rw [Object.raise, Option.map_map]
      exact hlinked
    · exact (hy.record r' record (hy.owns hlinked hrecord)).2.2
  · left
    rw [hamends.record_eq, if_neg hr]

theorem Move.files_or_purges (hm : Move (Policy.byMark (ρ := ρ)) True o o') (hs : o.heap.Sound)
    (hc : o.heap.Civil) : o.heap.Files o'.heap ∨ ∃ id, o.heap.Purges id o'.heap := by
  obtain ⟨notes, htells⟩ := hm.tells hs hc
  cases hm with
  | tidy hstep =>
    rcases hstep.quiet_or_purges hs hc with hq | hpurges
    · exact .inl (htells.files (fun b => (hq.holds_iff _).mpr) hq.waiting_iff
        fun r => .inl (hq.record_eq r))
    · exact .inr hpurges
  | block hpos _ hgets =>
    obtain ⟨hw, -⟩ := hgets.welcomes_block hs hpos
    exact .inl (htells.files (fun b hb => (hw.holds_iff _).mpr (.inr hb)) hw.waiting_iff fun r =>
      .inl (hw.record_eq r (by simp)))
  | @write b k c hheld hinside _ =>
    have hwrites := Heap.write_spec hs hheld hinside c
    exact .inl (htells.files (fun b => (hwrites.holds_iff _).mpr) hwrites.waiting_iff fun r =>
      .inl (hwrites.record_eq r))
  | @record object r withFinalizer h₁ hheld hheader hbare hgets =>
    obtain ⟨hw, hrecord⟩ := hgets.welcomes_record hs
    obtain ⟨-, hwrites⟩ := record_linked hs hheld hheader hgets
    refine .inl (htells.files
      (fun b hb => (hwrites.holds_iff _).mpr ((hw.holds_iff _).mpr (.inr hb)))
      (fun id => (hwrites.waiting_iff id).trans (hw.waiting_iff id)) fun r' => ?_)
    by_cases hr : r' = r
    · subst hr
      obtain ⟨x, hx⟩ := hc object hheld
      have hlinked := hwrites.depicts_link hrecord rfl (Flags.not_sweepable_initial _)
        (hw.depicts hs hx)
      refine .inr ⟨⟨object, _, depicts_note hlinked, rfl⟩, fun record hold => ?_⟩
      exact absurd ((hs.record_iff r').mp ⟨record, hold⟩) hw.fresh
    · left
      refine (hwrites.record_eq r').trans (hw.record_eq r' fun he => hr ?_)
      exact (Tenant.record.inj he).symm
  | @raise object r withFinalizer hheld _ hlinked =>
    have hamends := o.heap.amend_spec r (·.raise (.initial withFinalizer))
    exact .inl (htells.files (fun b => (hamends.holds_iff _).mpr) hamends.waiting_iff
      (records_amend _ (Flags.not_sweepable_initial _) hc hheld hlinked))
  | amend hrude => exact absurd trivial hrude
  | @tell b hheld =>
    have hkeeps : Keeps [.told b] o (o.tell .byMark b) := keeps_tell b
    refine .inl (htells.files (fun b' hb' => ?_) hkeeps.waiting_iff fun r' => ?_)
    · rw [Heap.Holds, hkeeps.tenants_eq]
      exact hb'
    · have hrecord : (o.tell .byMark b).heap.record? r' = Heap.record?
          { o.heap with arena := o.heap.arena.noteFinalized (Policy.byMark (ρ := ρ)).noting b }
          r' := rfl
      rw [hrecord]
      rcases noteFinalized_cases (Policy.byMark (ρ := ρ)).noting b o.heap with
        ⟨he, -⟩ | ⟨r, hlinked, he⟩ <;> rw [he]
      · exact .inl rfl
      · rcases records_amend .finalized (by decide) hc (hheld trivial) hlinked r' with
          hsame | ⟨⟨b', y, hy, hlink⟩, hnot⟩
        · exact .inl hsame
        · exact .inr ⟨⟨b', y, depicts_note (he.symm ▸ hy), hlink⟩, hnot⟩
  | receive => exact .inl (htells.files (fun _ => id) (fun _ => Iff.rfl) fun _ => .inl rfl)
  | submit => exact .inl (htells.files (fun _ => id) (fun _ => Iff.rfl) fun _ => .inl rfl)
  | extract => exact .inl (htells.files (fun _ => id) (fun _ => Iff.rfl) fun _ => .inl rfl)
  | allocators => exact .inl (htells.files (fun _ => id) (fun _ => Iff.rfl) fun _ => .inl rfl)

theorem Moves.filed (hm : Moves (Policy.byMark (ρ := ρ)) True o o') (hs : o.heap.Sound)
    (hc : o.heap.Civil) (hf : o.heap.Filed) : o'.heap.Filed := by
  induction hm with
  | refl => exact hf
  | @tail o₁ o₂ hmoves hstep ih =>
    have hs₁ := Moves.sound hmoves hs
    rcases hstep.files_or_purges hs₁ (Moves.civil hmoves hs hc) with hfiles | ⟨id, hpurges⟩
    · exact ih.files hfiles
    · exact ih.purges hs₁ (hstep.sound hs₁) hpurges

theorem filed_prepared (hp : Heap.Prepared h h') (hf : h.Filed) : h'.Filed := by
  intro r record hrecord
  rw [hp.record_eq] at hrecord
  rcases hf r record hrecord with ⟨b, x, hx, hr⟩ | hsweepable
  · exact .inl ⟨b, x, hp.depicts hx, hr⟩
  · exact .inr hsweepable

/-! ### Sweepable records -/

/-- A sweepable record stays as it is until its page is swept, and then it is gone. -/
theorem Move.sweepable (hm : Move (Policy.byMark (ρ := ρ)) True o o') (hs : o.heap.Sound)
    (hc : o.heap.Civil) (hrecord : o.heap.record? r = some record)
    (hsweepable : record.flags.has .sweepable = true) :
    o'.heap.record? r = some record ∧ (o'.heap.Waiting r.page ↔ o.heap.Waiting r.page) ∨
      ¬o'.heap.Waiting r.page ∧ ¬o'.heap.Holds (.record r) := by
  rcases hm.files_or_purges hs hc with hfiles | ⟨id, hpurges⟩
  · left
    rcases hfiles.records r with hsame | ⟨-, hnot⟩
    · exact ⟨hsame.trans hrecord, hfiles.waiting_iff _⟩
    · exact absurd ((hnot record hrecord).symm.trans hsweepable) Bool.false_ne_true
  · by_cases hpage : r.page = id
    · right
      constructor
      · rw [hpurges.waiting_iff]
        exact fun hw => hw.2 hpage
      · exact hpurges.gone r record hrecord hsweepable hpage
    · left
      constructor
      · exact hpurges.stray r record hrecord hsweepable hpage
      · rw [hpurges.waiting_iff]
        exact ⟨And.left, fun hw => ⟨hw, hpage⟩⟩

/-- A record that was sweepable at the start of the cycle waits for its sweep, or was not spared. -/
theorem InCycle.sweepable {o₀ : HeapSystem ρ} (hcycle : InCycle o₀ notes o) (hs : o.heap.Sound)
    (hc : o.heap.Civil) (hsweepable : record.flags.has .sweepable = true)
    (hfate : o.heap.Waiting r.page ∧ o.heap.record? r = some record ∨
      ¬o.heap.Waiting r.page ∧ (spared notes).count (.record r) = 0)
    (hm : Moves (Policy.byMark (ρ := ρ)) True o o') :
    ∃ more, InCycle o₀ (notes ++ more) o' ∧
      (o'.heap.Waiting r.page ∧ o'.heap.record? r = some record ∨
        ¬o'.heap.Waiting r.page ∧ (spared (notes ++ more)).count (.record r) = 0) := by
  induction hm with
  | refl => exact ⟨[], (List.append_nil notes).symm ▸ ⟨hcycle, hfate⟩⟩
  | @tail o₁ o₂ hmoves hstep ih =>
    obtain ⟨more, hcycle₁, hfate₁⟩ := ih
    have hs₁ := Moves.sound hmoves hs
    obtain ⟨last, hcycle₂⟩ := hcycle₁.move hstep hs₁
    refine ⟨more ++ last, by rwa [← List.append_assoc], ?_⟩
    rw [← List.append_assoc]
    rcases hfate₁ with ⟨hwaiting, hrecord⟩ | ⟨hswept, hspared⟩
    · rcases hstep.sweepable hs₁ (Moves.civil hmoves hs hc) hrecord hsweepable with
        ⟨hsame, hiff⟩ | ⟨hswept, hgone⟩
      · exact .inl ⟨hiff.mpr hwaiting, hsame⟩
      · -- What is on a swept page was spared or is new, and nothing is there.
        have hzero : o₂.heap.tally (.record r) = 0 :=
          Nat.eq_zero_of_not_pos fun hpos => hgone (Heap.tally_pos.mp hpos)
        have htally := (hcycle₂.swept (.record r) hswept).2
        exact .inr ⟨hswept, by omega⟩
    · have hswept' : ¬o₂.heap.Waiting r.page :=
        fun hw => hswept (Moves.waiting (.single hstep) hs₁ hw)
      have hasked := (hcycle₁.swept (.record r) hswept).1
      have hasked' := (hcycle₂.swept (.record r) hswept').1
      have hlast := count_asked last (.record r)
      rw [asked_append, List.count_append] at hasked'
      refine .inr ⟨hswept', ?_⟩
      rw [spared_append, List.count_append]
      omega

end HeapSystem

end SweptHeap
