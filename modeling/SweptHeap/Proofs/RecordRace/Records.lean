import Mathlib
import SweptHeap.Proofs.RecordRace.Pages
import SweptHeap.Proofs.HeapSystem.Objects

/-!
# The records in a race

Once a record is linked it stays linked, so whoever comes later finds the same one. A caller that
took a slot in vain has detached its record and left it to the sweep before it raises its flags in
the one that is linked, and nobody else touches that slot. `Kept.step` says that a step of any
caller preserves all this.
-/

namespace SweptHeap

variable {ρ : Type}

theorem Flags.hasFinalizer_initial (withFinalizer : Bool) :
    (initial withFinalizer).has hasFinalizer = withFinalizer := by
  cases withFinalizer <;> decide

/-- The record is detached and left to the sweep. -/
def Memory.Discards (m : Memory) (r : BlockRef) : Prop :=
  ∃ record, m.record? r = some record ∧ record.base = none ∧ record.flags.has .sweepable = true

/-- The record belongs to the object and is kept, and has a finalizer if one was asked for. -/
def Memory.Attaches (m : Memory) (object r : BlockRef) (asked : Prop) : Prop :=
  ∃ record, m.record? r = some record ∧ record.base = some object ∧
    record.flags.has .sweepable = false ∧ (record.flags.has .hasFinalizer = true ↔ asked)

theorem Memory.recordOf_ne {m : Memory} {object r w : BlockRef} (hlink : m.recordOf object = some w)
    (hne : r ≠ w) : m.recordOf object ≠ some r := by
  simp [hlink, hne.symm]

theorem Memory.Discards.congr {m m' : Memory} {r : BlockRef} (h : m.Discards r)
    (hr : m'.record? r = m.record? r) : m'.Discards r := by
  rw [Discards, hr]
  exact h

namespace RecordRace

/-! ### Deeds -/

theorem Stage.result_eq_some {stage : Stage} {w : BlockRef} :
    stage.result = some w ↔ stage = .returned w := by
  cases stage <;> simp [result]

/-- The record that is changed at this stage. -/
def Stage.changes : Stage → Option BlockRef
  | .detaching r _ | .discarding r _ | .raising r => some r
  | _ => none

namespace Deed

variable {object : BlockRef} {flags : Flags} {s : Shelf} {m m' : Memory} {stage stage' : Stage}
  {r : BlockRef}

/-- The link is set once, by the caller whose record it is. -/
theorem recordOf_cases (hd : Deed object flags s m stage m' stage') (hm : m.Hosts object) :
    m'.recordOf object = m.recordOf object ∨ ∃ r, stage = .linking r ∧ stage' = .returned r ∧
      m.recordOf object = none ∧ m'.recordOf object = some r := by
  cases hd with
  | prepare _ _ hreserves =>
    obtain ⟨p, hp, hkind, -⟩ := hm
    exact .inl (Memory.recordOf_congr ((hreserves.page?_eq _ p hp (.inr hkind)).trans hp.symm))
  | enroll _ _ _ hapart _ => exact .inl (Memory.recordOf_congr hapart)
  | link hbare => exact .inr ⟨_, rfl, rfl, hbare, (hm.link _).1⟩
  | detach | discard | raise => exact .inl (Memory.recordOf_congr (hm.modifyRecord _ _))
  | find | lose | rest => exact .inl rfl

/-- Records on pages in use do not change on their own. -/
theorem record?_eq (hd : Deed object flags s m stage m' stage') (hused : r.page ∈ s.used.toList)
    (hpage : m.Registers r.page) (hchanges : stage.changes ≠ some r)
    (hfresh : stage'.fresh ≠ some r) : m'.record? r = m.record? r := by
  have hmodify {r' : BlockRef} (hr' : stage.changes = some r') (f : Record → Record) :
      (m.modifyRecord r' f).record? r = m.record? r := by
    have hne : r ≠ r' := fun he => hchanges (he ▸ hr')
    rw [Memory.record?_modifyRecord, if_neg hne]
  cases hd with
  | prepare _ _ hreserves =>
    obtain ⟨p, hp, -⟩ := hpage
    exact Memory.record?_congr ((hreserves.page?_eq _ p hp (.inl hused)).trans hp.symm)
  | @enroll _ _ r' _ _ _ _ hrecords =>
    have hne : r ≠ r' := fun he => hfresh (by rw [he]; rfl)
    rw [hrecords, if_neg hne]
  | link => exact Memory.record?_setCell _ _ _ _
  | detach | discard | raise => exact hmodify rfl _
  | find | lose | rest => rfl

/-- A slot is filled only by who takes it. -/
theorem record?_eq_none (hd : Deed object flags s m stage m' stage') (hr : m.record? r = none)
    (hfresh : stage'.fresh ≠ some r) : m'.record? r = none := by
  have hmodify (r' : BlockRef) (f : Record → Record) : (m.modifyRecord r' f).record? r = none := by
    rw [Memory.record?_modifyRecord, hr]
    split_ifs <;> rfl
  cases hd with
  | prepare _ _ hreserves => exact hreserves.vacant r hr
  | @enroll _ _ r' _ _ _ _ hrecords =>
    have hne : r ≠ r' := fun he => hfresh (by rw [he]; rfl)
    rw [hrecords, if_neg hne, hr]
  | link => exact (Memory.record?_setCell _ _ _ _).trans hr
  | detach | discard | raise => exact hmodify _ _
  | find | lose | rest => exact hr

/-- The slot that is taken was free, and is on a page in use. -/
theorem of_fresh (hd : Deed object flags s m stage m' stage') (hfresh : stage'.fresh = some r) :
    m.record? r = none ∧ r.page ∈ s.used.toList := by
  cases hd with
  | @prepare _ stage' _ _ hearly' _ =>
    cases stage' with
    | linking r' => cases hearly'
    | _ => cases hfresh
  | enroll _ hused hvacant _ _ =>
    obtain rfl := Option.some.inj hfresh
    exact ⟨hvacant, hused⟩
  | _ => cases hfresh

/-- Once a record is linked, a call returns it when it has raised its flags there. -/
theorem result_iff (hd : Deed object flags s m stage m' stage') (hlink : m.recordOf object ≠ none)
    (hraise : stage ≠ .raising r) : stage'.result = some r ↔ stage.result = some r := by
  have hearly {stage : Stage} (h : stage.isEarly = true) : stage.result = none := by
    cases stage with
    | returned w => cases h
    | _ => rfl
  cases hd with
  | prepare h h' => rw [hearly h, hearly h']
  | enroll h =>
    rw [hearly h]
    rfl
  | link hbare => exact absurd hbare hlink
  | @raise w =>
    have hne : w ≠ r := fun he => hraise (by rw [he])
    simp [Stage.result, hne]
  | _ => rfl

/-- Who has returned is done. -/
theorem eq_of_result (hd : Deed object flags s m stage m' stage') (hresult : stage.result ≠ none) :
    stage' = stage := by
  obtain ⟨w, hw⟩ := Option.ne_none_iff_exists'.mp hresult
  obtain rfl := Stage.result_eq_some.mp hw
  cases hd with
  | prepare hearly => cases hearly
  | enroll hearly => cases hearly
  | rest => rfl

end Deed

/-! ### What holds throughout -/

variable {c : RecordRace ρ} {m₀ : Memory} {xs ys : List Caller} {x x' y : Caller}
  {h' : Heap ρ} {r w : BlockRef}

/-- What a caller has come to, and what has become of the slot that it took. -/
def Caller.Stands (m : Memory) (object : BlockRef) (x : Caller) : Prop :=
  match x.stage with
  | .linking r =>
    x.taken = [r] ∧ m.recordOf object ≠ some r ∧ m.record? r = some ⟨some object, x.flags⟩
  | .detaching r w =>
    x.taken = [r] ∧ r ≠ w ∧ m.recordOf object = some w ∧ ∃ record, m.record? r = some record
  | .discarding r w =>
    x.taken = [r] ∧ r ≠ w ∧ m.recordOf object = some w ∧
      ∃ record, m.record? r = some record ∧ record.base = none
  | .raising w => m.recordOf object = some w ∧ ∀ r ∈ x.taken, r ≠ w ∧ m.Discards r
  | .returned w => m.recordOf object = some w ∧ ∀ r ∈ x.taken, r ≠ w → m.Discards r
  | _ => x.taken = []

theorem Caller.stands_early {m : Memory} {object : BlockRef} (h : x.stage.isEarly = true) :
    x.Stands m object ↔ x.taken = [] := by
  obtain ⟨a, wish, stage, taken, found⟩ := x
  cases stage with
  | linking r | detaching r w | discarding r w | raising w | returned w => cases h
  | _ => rfl

/-- The race began in the memory `m₀`. -/
structure Kept (m₀ : Memory) (c : RecordRace ρ) : Prop extends Stocked c where
  distinct : c.taken.Nodup
  used : ∀ r ∈ c.taken, r.page ∈ c.heap.records.used.toList
  stands : ∀ x ∈ c.callers, x.Stands c.heap.arena.memory c.object
  linked : ∀ w, c.heap.arena.memory.recordOf c.object = some w → w ∈ c.taken ∧
    c.heap.arena.memory.Attaches c.object w
      (∃ x ∈ c.callers, x.stage.result = some w ∧ x.withFinalizer = true)
  known : ∀ r, m₀.record? r = none → r ∉ c.taken → c.heap.arena.memory.record? r = none

namespace Kept

/-- There is a record in every slot that was taken. -/
theorem exists_record (hc : c.Kept m₀) (hr : r ∈ c.taken) :
    ∃ record, c.heap.arena.memory.record? r = some record := by
  obtain ⟨x, hx, hmem⟩ := List.mem_flatMap.mp hr
  have hstands := hc.stands x hx
  rw [Caller.Stands] at hstands
  cases hstage : x.stage with
  | linking r' =>
    simp only [hstage] at hstands
    obtain ⟨htaken, -, hrecord⟩ := hstands
    obtain rfl : r = r' := by simpa [htaken] using hmem
    exact ⟨_, hrecord⟩
  | detaching r' w =>
    simp only [hstage] at hstands
    obtain ⟨htaken, -, -, hrecord⟩ := hstands
    obtain rfl : r = r' := by simpa [htaken] using hmem
    exact hrecord
  | discarding r' w =>
    simp only [hstage] at hstands
    obtain ⟨htaken, -, -, record, hrecord, -⟩ := hstands
    obtain rfl : r = r' := by simpa [htaken] using hmem
    exact ⟨record, hrecord⟩
  | raising w =>
    simp only [hstage] at hstands
    obtain ⟨-, record, hrecord, -⟩ := hstands.2 r hmem
    exact ⟨record, hrecord⟩
  | returned w =>
    simp only [hstage] at hstands
    by_cases hne : r = w
    · obtain ⟨-, record, hrecord, -⟩ := hc.linked w hstands.1
      exact ⟨record, hne ▸ hrecord⟩
    · obtain ⟨record, hrecord, -⟩ := hstands.2 r hmem hne
      exact ⟨record, hrecord⟩
  | _ =>
    simp only [hstage] at hstands
    rw [hstands] at hmem
    cases hmem

/-- Who has returned has returned the record that is linked. -/
theorem linked_of_result (hc : c.Kept m₀) (hx : x ∈ c.callers) (hresult : x.stage.result = some w) :
    c.heap.arena.memory.recordOf c.object = some w := by
  have hstage := Stage.result_eq_some.mp hresult
  have hstands := hc.stands x hx
  simp only [Caller.Stands, hstage] at hstands
  exact hstands.1

/-- Who has returned has left to the sweep what it took in vain. -/
theorem discards_of_result (hc : c.Kept m₀) (hx : x ∈ c.callers) (hresult : x.stage.result = some w)
    (hr : r ∈ x.taken) (hne : r ≠ w) : c.heap.arena.memory.Discards r := by
  have hstage := Stage.result_eq_some.mp hresult
  have hstands := hc.stands x hx
  simp only [Caller.Stands, hstage] at hstands
  exact hstands.2 r hr hne

theorem registers (hc : c.Kept m₀) (hr : r ∈ c.taken) : c.heap.arena.memory.Registers r.page :=
  hc.sound _ (Stocked.mem_places_of_used (hc.used r hr))

/-- A slot that was taken is not taken again. -/
theorem not_fresh (hc : c.Kept m₀) (hw : x.Works c.object c.heap x' h') (hr : r ∈ c.taken) :
    x'.stage.fresh ≠ some r := by
  intro hfresh
  obtain ⟨record, hrecord⟩ := hc.exists_record hr
  cases (hw.deed.of_fresh hfresh).1.symm.trans hrecord

theorem taken_step (hcallers : c.callers = xs ++ x :: ys) (hw : x.Works c.object c.heap x' h') :
    (taken ⟨h', c.object, xs ++ x' :: ys⟩).Perm (c.taken ++ x'.stage.fresh.toList) := by
  refine List.perm_iff_count.mpr fun r => ?_
  simp only [taken, hcallers, hw.taken_eq, List.flatMap_append, List.flatMap_cons,
    List.count_append]
  omega

theorem mem_callers (hcallers : c.callers = xs ++ x :: ys) (hy : y ∈ xs ∨ y ∈ ys) :
    y ∈ c.callers := by
  rw [hcallers]
  rcases hy with hy | hy <;> simp [hy]

/-- Two callers have taken different slots. -/
theorem taken_apart (hc : c.Kept m₀) (hcallers : c.callers = xs ++ x :: ys) (hy : y ∈ xs ∨ y ∈ ys)
    (hr : r ∈ y.taken) : r ∉ x.taken := by
  intro hmem
  have hdistinct := List.nodup_iff_count_le_one.mp hc.distinct r
  have hpos := List.count_pos_iff.mpr hmem
  simp only [taken, hcallers, List.flatMap_append, List.flatMap_cons,
    List.count_append] at hdistinct
  rcases hy with hy | hy
  · have := List.count_pos_iff.mpr (List.mem_flatMap.mpr ⟨y, hy, hr⟩)
    omega
  · have := List.count_pos_iff.mpr (List.mem_flatMap.mpr ⟨y, hy, hr⟩)
    omega

/-- A caller changes the record that is linked and the one that it took, and no other. -/
theorem changes_cases (hc : c.Kept m₀) (hx : x ∈ c.callers) (hr : x.stage.changes = some r) :
    x.stage = .raising r ∧ c.heap.arena.memory.recordOf c.object = some r ∨
      r ∈ x.taken ∧ c.heap.arena.memory.recordOf c.object ≠ some r := by
  have hstands := hc.stands x hx
  rw [Caller.Stands] at hstands
  cases hstage : x.stage with
  | detaching r' w | discarding r' w =>
    rw [hstage] at hr
    obtain rfl := Option.some.inj hr
    simp only [hstage] at hstands
    obtain ⟨htaken, hne, hlink, -⟩ := hstands
    exact .inr ⟨by simp [htaken], Memory.recordOf_ne hlink hne⟩
  | raising w =>
    rw [hstage] at hr
    obtain rfl := Option.some.inj hr
    simp only [hstage] at hstands
    exact .inl ⟨rfl, hstands.1⟩
  | _ =>
    rw [hstage] at hr
    cases hr

/-- Nobody touches a slot that another caller took, unless its record is linked. -/
theorem record?_other (hc : c.Kept m₀) (hcallers : c.callers = xs ++ x :: ys)
    (hw : x.Works c.object c.heap x' h') (hy : y ∈ xs ∨ y ∈ ys) (hr : r ∈ y.taken)
    (hlink : c.heap.arena.memory.recordOf c.object ≠ some r) :
    h'.arena.memory.record? r = c.heap.arena.memory.record? r := by
  have hmem : r ∈ c.taken := List.mem_flatMap.mpr ⟨y, mem_callers hcallers hy, hr⟩
  refine hw.deed.record?_eq (hc.used r hmem) (hc.registers hmem) (fun hchanges => ?_)
    (hc.not_fresh hw hmem)
  rcases hc.changes_cases (by simp [hcallers]) hchanges with ⟨-, he⟩ | ⟨htaken, -⟩
  · exact hlink he
  · exact hc.taken_apart hcallers hy hr htaken

/-- Other callers stand where they stood. -/
theorem stands_other (hc : c.Kept m₀) (hcallers : c.callers = xs ++ x :: ys)
    (hw : x.Works c.object c.heap x' h') (hy : y ∈ xs ∨ y ∈ ys) :
    y.Stands h'.arena.memory c.object := by
  have hstands := hc.stands y (mem_callers hcallers hy)
  have hother {r : BlockRef} := hc.record?_other (r := r) hcallers hw hy
  have hlinked {w : BlockRef} (hlink : c.heap.arena.memory.recordOf c.object = some w) :
      h'.arena.memory.recordOf c.object = some w := by
    rcases hw.deed.recordOf_cases hc.hosts with he | ⟨-, -, -, hnone, -⟩
    · exact he.trans hlink
    · cases hnone.symm.trans hlink
  rw [Caller.Stands] at hstands ⊢
  cases hstage : y.stage with
  | linking r =>
    simp only [hstage] at hstands ⊢
    obtain ⟨htaken, hlink, hrecord⟩ := hstands
    have hmem : r ∈ y.taken := by simp [htaken]
    refine ⟨htaken, ?_, (hother hmem hlink).trans hrecord⟩
    rcases hw.deed.recordOf_cases hc.hosts with he | ⟨r', hx, -, -, hlink'⟩
    · rwa [he]
    · -- The record that is linked now is another caller's.
      have hx' := hc.stands x (by simp [hcallers])
      simp only [Caller.Stands, hx] at hx'
      rw [hlink']
      rintro he
      obtain rfl := Option.some.inj he
      exact hc.taken_apart hcallers hy hmem (by simp [hx'.1])
  | detaching r w | discarding r w =>
    simp only [hstage] at hstands ⊢
    obtain ⟨htaken, hne, hlink, hrecord⟩ := hstands
    refine ⟨htaken, hne, hlinked hlink, ?_⟩
    rw [hother (by simp [htaken]) (Memory.recordOf_ne hlink hne)]
    exact hrecord
  | raising w =>
    simp only [hstage] at hstands ⊢
    obtain ⟨hlink, htaken⟩ := hstands
    refine ⟨hlinked hlink, fun r hr => ?_⟩
    obtain ⟨hne, hdiscards⟩ := htaken r hr
    exact ⟨hne, hdiscards.congr (hother hr (Memory.recordOf_ne hlink hne))⟩
  | returned w =>
    simp only [hstage] at hstands ⊢
    obtain ⟨hlink, htaken⟩ := hstands
    exact ⟨hlinked hlink, fun r hr hne =>
      (htaken r hr hne).congr (hother hr (Memory.recordOf_ne hlink hne))⟩
  | _ =>
    simp only [hstage] at hstands ⊢
    exact hstands

/-- The caller stands where its step has brought it. -/
theorem stands_self (hc : c.Kept m₀) (hx : x ∈ c.callers) (hw : x.Works c.object c.heap x' h') :
    x'.Stands h'.arena.memory c.object := by
  have hstands := hc.stands x hx
  have hlink := hw.deed.recordOf_cases hc.hosts
  have htaken := hw.taken_eq
  have hflags : x'.flags = x.flags := by rw [Caller.flags, hw.wish_eq]; rfl
  have hdeed := hw.deed
  generalize h'.arena.memory = m' at hdeed hlink
  generalize hstage : x.stage = stage, hstage' : x'.stage = stage' at hdeed hlink htaken
  cases hdeed with
  | prepare hearly hearly' =>
    rw [Caller.stands_early (hstage ▸ hearly)] at hstands
    rw [Caller.stands_early (hstage' ▸ hearly'), htaken, hstands]
    cases stage' with
    | linking r => cases hearly'
    | _ => rfl
  | @find w hlinked =>
    rw [Caller.stands_early (hstage ▸ rfl)] at hstands
    simp only [Caller.Stands, hstage']
    exact ⟨hlinked, by simp [htaken, hstands, Stage.fresh]⟩
  | @enroll _ _ r hearly hused hvacant hapart hrecords =>
    rw [Caller.stands_early (hstage ▸ hearly)] at hstands
    simp only [Caller.Stands, hstage']
    refine ⟨by simp [htaken, hstands, Stage.fresh], fun hr => ?_, ?_⟩
    · rw [Memory.recordOf_congr hapart] at hr
      obtain ⟨-, record, hrecord, -⟩ := hc.linked r hr
      cases hvacant.symm.trans hrecord
    · rw [hrecords, if_pos rfl, hflags]
  | @link r hbare =>
    simp only [Caller.Stands, hstage] at hstands
    simp only [Caller.Stands, hstage']
    refine ⟨(hc.hosts.link r).1, fun r' hr' hne => absurd ?_ hne⟩
    simpa [htaken, hstands.1, Stage.fresh] using hr'
  | @lose r w hlinked =>
    simp only [Caller.Stands, hstage] at hstands
    simp only [Caller.Stands, hstage']
    obtain ⟨htaken₀, hne, hrecord⟩ := hstands
    exact ⟨by simp [htaken, htaken₀, Stage.fresh], fun he => hne (he ▸ hlinked), hlinked, _,
      hrecord⟩
  | @detach r w =>
    simp only [Caller.Stands, hstage] at hstands
    simp only [Caller.Stands, hstage']
    obtain ⟨htaken₀, hne, hlinked, record, hrecord⟩ := hstands
    refine ⟨by simp [htaken, htaken₀, Stage.fresh], hne,
      (Memory.recordOf_congr (hc.hosts.modifyRecord _ _)).trans hlinked,
      { record with base := none }, ?_, rfl⟩
    rw [Memory.record?_modifyRecord, if_pos rfl, hrecord]
    rfl
  | @discard r w =>
    simp only [Caller.Stands, hstage] at hstands
    simp only [Caller.Stands, hstage']
    obtain ⟨htaken₀, hne, hlinked, record, hrecord, hbase⟩ := hstands
    refine ⟨(Memory.recordOf_congr (hc.hosts.modifyRecord _ _)).trans hlinked, fun r' hr' => ?_⟩
    obtain rfl : r' = r := by simpa [htaken, htaken₀, Stage.fresh] using hr'
    refine ⟨hne, record.raise .sweepable, ?_, hbase, ?_⟩
    · rw [Memory.raise, Memory.record?_modifyRecord, if_pos rfl, hrecord]
      rfl
    · rw [Record.raise_flags, Flags.has_union_sweepable,
        show Flags.sweepable.has .sweepable = true from rfl, Bool.or_true]
  | @raise w =>
    simp only [Caller.Stands, hstage] at hstands
    simp only [Caller.Stands, hstage']
    refine ⟨(Memory.recordOf_congr (hc.hosts.modifyRecord _ _)).trans hstands.1, fun r hr hne => ?_⟩
    have hr₀ : r ∈ x.taken := by simpa [htaken, Stage.fresh] using hr
    refine (hstands.2 r hr₀).2.congr ?_
    rw [Memory.raise, Memory.record?_modifyRecord, if_neg hne]
  | @rest w =>
    simp only [Caller.Stands, hstage] at hstands
    simp only [Caller.Stands, hstage']
    refine ⟨hstands.1, fun r hr => hstands.2 r ?_⟩
    simpa [htaken, Stage.fresh] using hr

/-- Of the callers, one has changed. -/
theorem exists_caller {P : Caller → Prop} :
    (∃ y ∈ xs ++ x :: ys, P y) ↔ P x ∨ ∃ y, (y ∈ xs ∨ y ∈ ys) ∧ P y := by
  simp only [List.mem_append, List.mem_cons]
  grind

/-- A caller that has raised its flags in the record that is linked has returned. -/
theorem attaches_raised (hcallers : c.callers = xs ++ x :: ys) (hw : x.Works c.object c.heap x' h')
    (hraise : x.stage = .raising w) (hattaches : c.heap.arena.memory.Attaches c.object w
      (∃ y ∈ c.callers, y.stage.result = some w ∧ y.withFinalizer = true)) :
    h'.arena.memory.Attaches c.object w
      (∃ y ∈ xs ++ x' :: ys, y.stage.result = some w ∧ y.withFinalizer = true) := by
  obtain ⟨record, hrecord, hbase, hsweepable, hasked⟩ := hattaches
  obtain ⟨hmemory, hstage'⟩ :
      h'.arena.memory = c.heap.arena.memory.raise w x.flags ∧ x'.stage = .returned w := by
    have hdeed := hw.deed
    rw [hraise] at hdeed
    generalize h'.arena.memory = m', x'.stage = stage' at hdeed
    cases hdeed with
    | prepare hearly => cases hearly
    | enroll hearly => cases hearly
    | raise => exact ⟨rfl, rfl⟩
  have hbefore : x.stage.result ≠ some w := by simp [hraise, Stage.result]
  have hafter : x'.stage.result = some w := by rw [hstage', Stage.result]
  refine ⟨record.raise x.flags, ?_, hbase, ?_, ?_⟩
  · rw [hmemory, Memory.raise, Memory.record?_modifyRecord, if_pos rfl, hrecord]
    rfl
  · rw [Record.raise_flags, Flags.has_union_sweepable, hsweepable, Caller.flags,
      Flags.not_sweepable_initial]
    rfl
  · rw [hcallers, exists_caller] at hasked
    rw [Record.raise_flags, Flags.has_union_hasFinalizer, Bool.or_eq_true, hasked, Caller.flags,
      Flags.hasFinalizer_initial, exists_caller, hw.wish_eq]
    simp [hbefore, hafter, or_comm]

/-- A caller that has linked its record is the first to return. -/
theorem attaches_linked (hc : c.Kept m₀) (hcallers : c.callers = xs ++ x :: ys)
    (hw : x.Works c.object c.heap x' h') (hstage : x.stage = .linking w)
    (hstage' : x'.stage = .returned w) (hnone : c.heap.arena.memory.recordOf c.object = none) :
    w ∈ c.taken ∧ h'.arena.memory.Attaches c.object w
      (∃ y ∈ xs ++ x' :: ys, y.stage.result = some w ∧ y.withFinalizer = true) := by
  have hx : x ∈ c.callers := by simp [hcallers]
  have hstands := hc.stands x hx
  simp only [Caller.Stands, hstage] at hstands
  obtain ⟨htaken, -, hrecord⟩ := hstands
  have hmem : w ∈ c.taken := List.mem_flatMap.mpr ⟨x, hx, by simp [htaken]⟩
  have hothers : ¬∃ y, (y ∈ xs ∨ y ∈ ys) ∧ y.stage.result = some w ∧ y.withFinalizer = true := by
    rintro ⟨y, hy, hresult, -⟩
    cases hnone.symm.trans (hc.linked_of_result (mem_callers hcallers hy) hresult)
  have hafter : x'.stage.result = some w := by rw [hstage', Stage.result]
  refine ⟨hmem, ⟨some c.object, x.flags⟩, ?_, rfl, Flags.not_sweepable_initial _, ?_⟩
  · rw [hw.deed.record?_eq (hc.used w hmem) (hc.registers hmem) (by simp [hstage, Stage.changes])
      (hc.not_fresh hw hmem), hrecord]
  · rw [exists_caller, Caller.flags, Flags.hasFinalizer_initial, hw.wish_eq]
    simp [hafter, hothers]

/-- The record that is linked has the flags that were asked for by those who have returned it. -/
theorem linked_step (hc : c.Kept m₀) (hcallers : c.callers = xs ++ x :: ys)
    (hw : x.Works c.object c.heap x' h') (hlink : h'.arena.memory.recordOf c.object = some w) :
    w ∈ c.taken ∧ h'.arena.memory.Attaches c.object w
      (∃ y ∈ xs ++ x' :: ys, y.stage.result = some w ∧ y.withFinalizer = true) := by
  rcases hw.deed.recordOf_cases hc.hosts with hsame | ⟨r, hstage, hstage', hnone, hlink'⟩
  · have hlinked := hsame.symm.trans hlink
    obtain ⟨hmem, hattaches⟩ := hc.linked w hlinked
    by_cases hraise : x.stage = .raising w
    · exact ⟨hmem, attaches_raised hcallers hw hraise hattaches⟩
    · obtain ⟨record, hrecord, hbase, hsweepable, hasked⟩ := hattaches
      refine ⟨hmem, record, ?_, hbase, hsweepable, ?_⟩
      · rw [hw.deed.record?_eq (hc.used w hmem) (hc.registers hmem) (fun he => ?_)
          (hc.not_fresh hw hmem), hrecord]
        rcases hc.changes_cases (by simp [hcallers]) he with ⟨hstage, -⟩ | ⟨-, hne⟩
        · exact hraise hstage
        · exact hne hlinked
      · rw [hasked, hcallers, exists_caller, exists_caller,
          hw.deed.result_iff (by simp [hlinked]) hraise, hw.wish_eq]
  · obtain rfl := Option.some.inj (hlink'.symm.trans hlink)
    exact hc.attaches_linked hcallers hw hstage hstage' hnone

theorem step (hc : c.Kept m₀) (hcallers : c.callers = xs ++ x :: ys)
    (hw : x.Works c.object c.heap x' h') : Kept m₀ ⟨h', c.object, xs ++ x' :: ys⟩ := by
  have hx : x ∈ c.callers := by simp [hcallers]
  have hperm := taken_step hcallers hw
  refine ⟨hc.toStocked.step hcallers hw, ?_, fun r hr => ?_, fun y hy => ?_, fun w hlink => ?_,
    fun r hnone hr => ?_⟩
  · refine hperm.nodup_iff.mpr
      (List.nodup_append.mpr ⟨hc.distinct, by cases x'.stage.fresh <;> simp, ?_⟩)
    rintro r hr r' hr' rfl
    exact hc.not_fresh hw hr (Option.mem_toList.mp hr')
  · obtain ⟨added, hused, -⟩ := hw.deals.used
    rw [hused]
    rcases List.mem_append.mp (hperm.subset hr) with hold | hnew
    · exact List.mem_append_left _ (hc.used r hold)
    · exact List.mem_append_left _ (hw.deed.of_fresh (Option.mem_toList.mp hnew)).2
  · rcases List.mem_append.mp hy with hy | hy
    · exact hc.stands_other hcallers hw (.inl hy)
    · rcases List.mem_cons.mp hy with rfl | hy
      · exact hc.stands_self hx hw
      · exact hc.stands_other hcallers hw (.inr hy)
  · obtain ⟨hmem, hattaches⟩ := hc.linked_step hcallers hw hlink
    exact ⟨hperm.symm.subset (List.mem_append_left _ hmem), hattaches⟩
  · have hnot : r ∉ c.taken ++ x'.stage.fresh.toList := fun hmem => hr (hperm.symm.subset hmem)
    refine hw.deed.record?_eq_none (hc.known r hnone fun hmem => hnot (List.mem_append_left _ hmem))
      fun hfresh => hnot (List.mem_append_right _ (Option.mem_toList.mpr hfresh))

theorem act (hc : c.Kept m₀) (policy : Policy ρ) (i : Nat) : (c.act policy i).Kept m₀ := by
  rw [RecordRace.act]
  cases hget : c.callers[i]? with
  | none => exact hc
  | some x =>
    obtain ⟨xs, ys, hcallers, hset⟩ := split_at hget
    dsimp only
    rw [hset]
    exact hc.step hcallers (hc.works (by simp [hcallers]) policy)

theorem run (hc : c.Kept m₀) (policy : Policy ρ) (turns : List Nat) :
    (c.run policy turns).Kept m₀ := by
  induction turns generalizing c with
  | nil => exact hc
  | cons i turns ih => exact ih (hc.act policy i)

end Kept

end RecordRace

end SweptHeap
