import Mathlib
import SweptHeap.Proofs.Page.RecordSlots

/-!
# A page of records as a table

A page of records is a table with a place for a record in every slot, however its free slots are
linked. `Reached` keeps that table beside the page from call to call: a new record is entered in the
slot that the page gives, a sweep strikes out the records that it hears are dead, and a change of a
record changes its entry. `Bears` is the invariant that ties the page to the table; it also says
that the links lead through the vacant slots in ascending order, so a new record always goes to the
lowest one.
-/

namespace SweptHeap.RecordPage

variable {ε : Type} {p p' : RecordPage} {A : Nat → Option Record} {i : Nat}

/-- The slots of a table that hold a record, in ascending order. -/
def occupied (A : Nat → Option Record) : List Nat :=
  (List.range recordSlots).filter fun i => (A i).isSome

/-- The other slots. -/
def vacant (A : Nat → Option Record) : List Nat :=
  (List.range recordSlots).filter fun i => (A i).isNone

theorem mem_occupied : i ∈ occupied A ↔ i < recordSlots ∧ (A i).isSome = true := by
  simp [occupied]

theorem mem_vacant : i ∈ vacant A ↔ i < recordSlots ∧ A i = none := by
  simp [vacant]

theorem pairwise_occupied (A : Nat → Option Record) : (occupied A).Pairwise (· < ·) :=
  List.pairwise_lt_range.filter _

theorem pairwise_vacant (A : Nat → Option Record) : (vacant A).Pairwise (· < ·) :=
  List.pairwise_lt_range.filter _

-- Ten thousand slots: nobody is to compute the list.
attribute [irreducible] vacant

/-- The table after an allocation. -/
def entered (A : Nat → Option Record) (record : Record) :
    Except Fault (Option Nat) → Nat → Option Record
  | .ok (some i) => Function.update A i (some record)
  | _ => A

/-- The table after the hearings of a sweep. -/
def struck (A : Nat → Option Record) (hearings : List Hearing) (i : Nat) : Option Record :=
  if i ∈ condemned hearings then none else A i

/-- A page after some calls, and what its slots hold. Flags that are raised and bases that are taken
away are changes of a record. -/
inductive Reached : RecordPage → (Nat → Option Record) → Prop
  | create : Reached .create fun _ => none
  | allocate (record : Record) {p : RecordPage} {A : Nat → Option Record} (h : Reached p A) :
      Reached (p.allocate record).2 (entered A record (p.allocate record).1)
  | sweep {ε : Type} (ask : Nat → Record → ε → Fate × ε) (env : ε) {p : RecordPage}
      {A : Nat → Option Record} (h : Reached p A) : Reached (p.sweep ask env).page
        (struck A (hear (askSlot ask p.slots) ((occupied A).map slotSight) env).1)
  | amend (f : Record → Record) {p : RecordPage} {A : Nat → Option Record}
      {i : Nat} (h : Reached p A) (hi : i ∈ occupied A) :
      Reached (p.modifyRecord i f) (Function.update A i ((A i).map f))

/-- The page with the records of the table, whose links lead through the vacant slots in order. -/
structure Bears (p : RecordPage) (A : Nat → Option Record) : Prop where
  record_eq : ∀ i, p.record? i = A i
  sound : p.Sound (vacant A)

/-- A free list in ascending order is the list of the vacant slots. -/
theorem Bears.of_sorted {free : List Nat} (hsound : p.Sound free) (hsorted : free.Pairwise (· < ·))
    (hrecord : ∀ i, p.record? i = A i) : p.Bears A := by
  have hfree : free = vacant A := by
    refine hsorted.eq_of_mem_iff (pairwise_vacant A) fun i => ?_
    rw [hsound.vacant, mem_vacant, held_eq_false, ← record?_eq, hrecord]
  exact ⟨hrecord, hfree ▸ hsound⟩

theorem Bears.of_vacancies (hsound : p.Sound p.vacancies) (hrecord : ∀ i, p.record? i = A i) :
    p.Bears A :=
  .of_sorted hsound (List.pairwise_lt_range.filter _) hrecord

namespace Bears

theorem eq_none (h : p.Bears A) (hi : recordSlots ≤ i) : A i = none := by
  rw [← h.record_eq, record?, Array.getElem?_eq_none (h.sound.length_eq.trans_le hi)]
  rfl

theorem toList_blocks (h : p.Bears A) : p.blocks.toList = occupied A := by
  rw [RecordPage.toList_blocks, occupied]
  refine List.filter_congr fun i _ => ?_
  rw [held, ← record?_eq, h.record_eq]

theorem allocatedBytes_eq (h : p.Bears A) : p.allocatedBytes = slotBytes * (occupied A).length := by
  rw [h.sound.allocatedBytes_eq, h.toList_blocks]

theorem allocate_full (h : p.Bears A) (hfull : ∀ i < recordSlots, (A i).isSome = true)
    (record : Record) : p.allocate record = (.ok none, p) := by
  have hnil : vacant A = [] := List.eq_nil_iff_forall_not_mem.mpr fun i hi => by
    obtain ⟨hlt, hnone⟩ := mem_vacant.mp hi
    simpa [hnone] using hfull i hlt
  have hsound := h.sound
  rw [hnil] at hsound
  exact hsound.allocate_nil record

/-- The lowest vacant slot is the next one. -/
theorem allocate_room (h : p.Bears A) (hlt : i < recordSlots) (hleast : IsLeast {j | A j = none} i)
    (record : Record) :
    ∃ p', p.allocate record = (.ok (some i), p') ∧
      p'.Bears (Function.update A i (some record)) := by
  obtain ⟨j, rest, hfree⟩ := List.exists_cons_of_ne_nil
    (List.ne_nil_of_mem (mem_vacant.mpr ⟨hlt, hleast.1⟩))
  have hsorted := pairwise_vacant A
  have hsound := h.sound
  rw [hfree] at hsorted hsound
  obtain ⟨hfirst, hrest⟩ := List.pairwise_cons.mp hsorted
  obtain rfl : j = i := by
    have hj := mem_vacant.mp (hfree ▸ List.mem_cons_self : j ∈ vacant A)
    refine Nat.le_antisymm ?_ (hleast.2 hj.2)
    rcases List.mem_cons.mp (hfree ▸ mem_vacant.mpr ⟨hlt, hleast.1⟩) with he | hmem
    · exact he.ge
    · exact (hfirst i hmem).le
  obtain ⟨p', heq, hsound', hrecord⟩ := hsound.allocate_cons record
  refine ⟨p', heq, .of_sorted hsound' hrest fun k => ?_⟩
  rw [hrecord, h.record_eq, Function.update_apply]

theorem exists_least (hroom : ∃ i < recordSlots, A i = none) :
    ∃ i < recordSlots, IsLeast {j | A j = none} i := by
  obtain ⟨i, hlt, hnone⟩ := hroom
  have hleast : IsLeast {j | A j = none} _ := isLeast_csInf ⟨i, hnone⟩
  exact ⟨_, (hleast.2 hnone).trans_lt hlt, hleast⟩

theorem amend (h : p.Bears A) (i : Nat) (f : Record → Record) :
    (p.modifyRecord i f).Bears (Function.update A i ((A i).map f)) := by
  refine .of_sorted (h.sound.modifyRecord i f) (pairwise_vacant A) fun j => ?_
  rw [record?_eq, modifyRecord, recordAt_modify, ← record?_eq, h.record_eq, Function.update_apply]
  split_ifs with hj
  · rw [hj]
  · rfl

theorem sweep (h : p.Bears A) (ask : Nat → Record → ε → Fate × ε) (env : ε) :
    ∃ hearings env' p', hear (askSlot ask p.slots) ((occupied A).map slotSight) env =
      (hearings, env') ∧
      p.sweep ask env = ⟨p', env', countFates hearings, (toFinalize hearings).toArray,
        ((occupied A).filter (· ∉ condemned hearings)).isEmpty, none⟩ ∧
      p'.Bears (struck A hearings) := by
  obtain ⟨hearings, env', p', hheard, hswept, heq⟩ := h.sound.sweep ask env
  rw [h.toList_blocks] at hheard
  have hindices : hearings.map (·.1.index) = occupied A := by
    have := congrArg (List.map Sight.index) (map_fst_of_hear hheard)
    simpa [slotSight, Function.comp_def] using this
  have hnodup : (hearings.map (·.1.index)).Nodup :=
    hindices ▸ (pairwise_occupied A).imp fun hlt => Nat.ne_of_lt hlt
  refine ⟨hearings, env', p', hheard, ?_, .of_vacancies hswept.sound fun i => ?_⟩
  · rw [heq, ← hindices, filter_not_condemned hnodup]
  · rw [hswept.record_eq, h.record_eq, struck]

end Bears

theorem Reached.bears (h : Reached p A) : p.Bears A := by
  induction h with
  | create =>
    obtain ⟨hsound, hrecord⟩ := create_sound
    exact .of_vacancies hsound hrecord
  | @allocate record p A _ ih =>
    by_cases hroom : ∃ i < recordSlots, A i = none
    · obtain ⟨i, hlt, hleast⟩ := Bears.exists_least hroom
      obtain ⟨p', heq, hbears⟩ := ih.allocate_room hlt hleast record
      rw [heq]
      exact hbears
    · rw [ih.allocate_full (fun i hi => Option.isSome_iff_ne_none.mpr fun hnone =>
        hroom ⟨i, hi, hnone⟩)]
      exact ih
  | sweep ask env _ ih =>
    obtain ⟨hearings, env', p', hheard, heq, hbears⟩ := ih.sweep ask env
    rw [heq, hheard]
    exact hbears
  | amend f _ hi ih => exact ih.amend _ f

/-- A page never parts from its table. The links lead through the vacant slots, each once and in
ascending order, and the bytes are those of the records. An allocation gives nothing exactly if all
slots are taken; else it enters the record in the lowest vacant slot and changes no other. A sweep
asks about the records, once each and in order, strikes out those that are dead, leaves the others
as they are, and says whether none is left. -/
theorem refines_table (h : Reached p A) :
    (∀ i, p.record? i = A i) ∧ (∀ i, recordSlots ≤ i → A i = none) ∧
    Listed p.slots p.head (vacant A) ∧
    p.allocatedBytes = slotBytes * (occupied A).length ∧
    (∀ record, p.allocate record = (.ok none, p) ↔ ∀ i < recordSlots, (A i).isSome = true) ∧
    (∀ record, (∃ i < recordSlots, A i = none) → ∃ i p', i < recordSlots ∧
      IsLeast {j | A j = none} i ∧ p.allocate record = (.ok (some i), p') ∧
      ∀ j, p'.record? j = if j = i then some record else p.record? j) ∧
    ∀ (ε : Type) (ask : Nat → Record → ε → Fate × ε) (env : ε), ∃ hearings env' p',
      hear (askSlot ask p.slots) ((occupied A).map slotSight) env = (hearings, env') ∧
      p.sweep ask env = ⟨p', env', countFates hearings, (toFinalize hearings).toArray,
        ((occupied A).filter (· ∉ condemned hearings)).isEmpty, none⟩ ∧
      ∀ i, p'.record? i = if i ∈ condemned hearings then none else p.record? i := by
  have hp := h.bears
  refine ⟨hp.record_eq, fun i hi => hp.eq_none hi, hp.sound.listed, hp.allocatedBytes_eq,
    fun record => ⟨fun hnone i hi => ?_, fun hfull => hp.allocate_full hfull record⟩,
    fun record hroom => ?_, fun ε ask env => ?_⟩
  · by_contra hvacant
    obtain ⟨j, hj, hleast⟩ := Bears.exists_least ⟨i, hi, by simpa using hvacant⟩
    obtain ⟨p', heq, -⟩ := hp.allocate_room hj hleast record
    simp [hnone] at heq
  · obtain ⟨i, hlt, hleast⟩ := Bears.exists_least hroom
    obtain ⟨p', heq, hbears⟩ := hp.allocate_room hlt hleast record
    refine ⟨i, p', hlt, hleast, heq, fun j => ?_⟩
    rw [hbears.record_eq, hp.record_eq, Function.update_apply]
  · obtain ⟨hearings, env', p', hheard, heq, hbears⟩ := hp.sweep ask env
    refine ⟨hearings, env', p', hheard, heq, fun i => ?_⟩
    rw [hbears.record_eq, hp.record_eq, struck]

/-- Two records, of which the second has lost its object. -/
def orphaned : Nat → Option Record
  | 0 => some ⟨some ⟨3, 5⟩, .hasFinalizer⟩
  | 1 => some ⟨none, .sweepable⟩
  | _ => none

theorem Reached.enter (h : Reached p A) (hlt : i < recordSlots)
    (hleast : IsLeast {j | A j = none} i) (record : Record) :
    ∃ p', Reached p' (Function.update A i (some record)) := by
  obtain ⟨p', heq, -⟩ := h.bears.allocate_room hlt hleast record
  have hnext := h.allocate record
  rw [heq] at hnext
  exact ⟨p', hnext⟩

theorem reached_orphaned : ∃ p, Reached p orphaned := by
  obtain ⟨p₁, h₁⟩ := Reached.create.enter (i := 0) (by decide) ⟨rfl, fun j _ => Nat.zero_le j⟩
    ⟨some ⟨3, 5⟩, .hasFinalizer⟩
  obtain ⟨p₂, h₂⟩ := h₁.enter (i := 1) (by decide)
    ⟨rfl, fun j hj => Nat.one_le_iff_ne_zero.mpr fun he => by simp [he] at hj⟩ ⟨some ⟨3, 9⟩, .none⟩
  refine ⟨p₂.modifyRecord 1 .detach, ?_⟩
  convert h₂.amend .detach (i := 1) (mem_occupied.mpr ⟨by decide, rfl⟩) using 1
  funext i
  rcases i with _ | _ | i <;> rfl

/-- The record without its object is reclaimed, the other one is to be finalized, and a third one
would have gone to the next slot. -/
theorem refines_table_orphaned : ∃ p p₁ p₂, Reached p orphaned ∧ p.allocatedBytes = 48 ∧
    p.allocate ⟨some ⟨3, 9⟩, .none⟩ = (.ok (some 2), p₁) ∧
    p.sweep (fun _ r n => (if r.flags.has .sweepable then .dead else .finalize, n + 1)) 0 =
      ⟨p₂, 2, ⟨0, 1, 1, 0⟩, #[0], false, none⟩ ∧
    p₂.record? 0 = some ⟨some ⟨3, 5⟩, .hasFinalizer⟩ ∧ p₂.record? 1 = none := by
  obtain ⟨p, h⟩ := reached_orphaned
  obtain ⟨hrecord, -, -, hbytes, -, hallocate, hsweep⟩ := refines_table h
  have hslots : 2 < recordSlots := by decide
  have hoccupied : occupied orphaned = [0, 1] := by
    refine (pairwise_occupied _).eq_of_mem_iff (by decide) fun i => ?_
    rw [mem_occupied]
    rcases i with _ | _ | i
    · simp [orphaned, Nat.zero_lt_of_lt hslots]
    · simp [orphaned, Nat.lt_of_succ_lt hslots]
    · simp [orphaned]
  obtain ⟨i, p₁, -, hleast, halloc, -⟩ := hallocate ⟨some ⟨3, 9⟩, .none⟩ ⟨2, hslots, rfl⟩
  have htwo : IsLeast {j | orphaned j = none} 2 := by
    refine ⟨rfl, fun j hj => ?_⟩
    rcases j with _ | _ | j
    · cases hj
    · cases hj
    · exact Nat.le_add_left 2 j
  obtain rfl := hleast.unique htwo
  obtain ⟨hearings, env', p₂, hheard, heq, hleft⟩ := hsweep _
    (fun _ r n => (if r.flags.has .sweepable then .dead else .finalize, n + 1)) 0
  have hfirst : recordAt p.slots 0 = some ⟨some ⟨3, 5⟩, .hasFinalizer⟩ := hrecord 0
  have hsecond : recordAt p.slots 1 = some ⟨none, .sweepable⟩ := hrecord 1
  -- The two questions, and what is left after the answers.
  simp only [hoccupied, List.map_cons, List.map_nil, hear, askSlot, slotSight,
    hfirst, hsecond] at hheard
  obtain rfl : [(slotSight 0, ⟨.finalize, false⟩), (slotSight 1, ⟨.dead, false⟩)] = hearings :=
    congrArg Prod.fst hheard
  obtain rfl : 2 = env' := congrArg Prod.snd hheard
  rw [hoccupied] at heq hbytes
  exact ⟨p, p₁, p₂, h, hbytes, halloc, heq, (hleft 0).trans hfirst, hleft 1⟩

end SweptHeap.RecordPage
