import Mathlib
import SweptHeap.Page.Records
import SweptHeap.Proofs.Page.Hearing

/-!
# Slots of a page of records

A page of records is `Sound` for the list of its free slots when the links lead through exactly the
slots without a record. Allocation takes the first of them; a sweep frees the slots of the dead
records and lists the free slots anew.
-/

namespace SweptHeap.RecordPage

variable {slots slots' : Array Slot} {i : Nat} {free rest : List Nat} {head : Option Nat}

/-- The record in a slot. -/
def recordAt (slots : Array Slot) (i : Nat) : Option Record := (slots[i]?).bind Slot.record

/-- Whether a slot holds a record. -/
def held (slots : Array Slot) (i : Nat) : Bool := (recordAt slots i).isSome

theorem held_eq_false : held slots i = false ↔ recordAt slots i = none := by
  simp [held]

/-- The links from `head` on lead through the slots of the list, which hold no record. -/
def Listed (slots : Array Slot) : (head : Option Nat) → List Nat → Prop
  | head, [] => head = none
  | head, i :: rest =>
    head = some i ∧ ∃ next, slots[i]? = some ⟨next, none⟩ ∧ Listed slots next rest

theorem Listed.congr (h : Listed slots head free) (he : ∀ i ∈ free, slots'[i]? = slots[i]?) :
    Listed slots' head free := by
  induction free generalizing head with
  | nil => exact h
  | cons i rest ih =>
    obtain ⟨rfl, next, hi, hrest⟩ := h
    exact ⟨rfl, next, (he i List.mem_cons_self).trans hi,
      ih hrest fun j hj => he j (List.mem_cons_of_mem _ hj)⟩

theorem toList_blocksFrom (left i : Nat) (found : Array Nat) :
    (blocksFrom slots left i found).toList =
      found.toList ++ (List.range' i left).filter (held slots) := by
  induction left generalizing i found with
  | zero => simp [blocksFrom]
  | succ left ih =>
    have hheld : held slots i = ((slots[i]?).bind Slot.record).isSome := rfl
    rw [blocksFrom, List.range'_succ, List.filter_cons, hheld]
    match hslot : slots[i]? with
    | none => simp [ih]
    | some ⟨next, none⟩ => simp [ih]
    | some ⟨next, some record⟩ => simp [ih]

/-! ### Linking the free slots -/

theorem linkFree_spec {count : Nat} (hcount : count ≤ slots.size) (h : Listed slots head free)
    (hfree : ∀ i ∈ free, count ≤ i) :
    ∃ head' slots', linkFree count head slots = (head', slots') ∧ slots'.size = slots.size ∧
      Listed slots' head' ((List.range count).filter (!held slots ·) ++ free) ∧
      ∀ i, recordAt slots' i = recordAt slots i := by
  induction count generalizing slots head free with
  | zero => exact ⟨head, slots, rfl, rfl, by simpa using h, fun _ => rfl⟩
  | succ n ih =>
    have hn : n < slots.size := by omega
    rw [linkFree, List.range_succ, List.filter_append]
    obtain ⟨next, record, hget⟩ : ∃ next record, slots[n]? = some ⟨next, record⟩ :=
      ⟨_, _, Array.getElem?_eq_getElem hn⟩
    cases record with
    | some record =>
      have hheld : held slots n = true := by simp [held, recordAt, hget]
      obtain ⟨head', slots', heq, hsize, hlist, hrec⟩ := ih (by omega) h
        fun i hi => Nat.le_of_succ_le (hfree i hi)
      refine ⟨head', slots', ?_, hsize, ?_, hrec⟩
      · simp only [hget, heq]
      · simpa [hheld] using hlist
    | none =>
      have hheld : held slots n = false := by simp [held, recordAt, hget]
      have hlisted : Listed (slots.setIfInBounds n ⟨head, none⟩) (some n) (n :: free) := by
        refine ⟨rfl, head, by simp [hn], h.congr fun i hi => ?_⟩
        have := hfree i hi
        rw [Array.getElem?_setIfInBounds, if_neg (by omega)]
      have hsame (i : Nat) :
          recordAt (slots.setIfInBounds n ⟨head, none⟩) i = recordAt slots i := by
        rw [recordAt, recordAt, Array.getElem?_setIfInBounds]
        split_ifs with hi
        · rw [← hi, hget]
          rfl
        · rfl
      obtain ⟨head', slots', heq, hsize, hlist, hrec⟩ := ih (by simp; omega) hlisted
        (fun i hi => by
          rcases List.mem_cons.mp hi with rfl | hi
          · exact Nat.le_refl _
          · exact Nat.le_of_succ_le (hfree i hi))
      refine ⟨head', slots', ?_, by simpa using hsize, ?_, fun i => (hrec i).trans (hsame i)⟩
      · simp only [hget, heq]
      · have hfilter : (List.range n).filter (!held (slots.setIfInBounds n ⟨head, none⟩) ·) =
            (List.range n).filter (!held slots ·) := by simp only [held, hsame]
        rw [hfilter] at hlist
        simpa [hheld] using hlist

/-! ### Sound pages -/

theorem recordAt_modify (f : Record → Record) (slots : Array Slot) (i j : Nat) :
    recordAt (slots.modify i fun s => { s with record := s.record.map f }) j =
      if j = i then (recordAt slots j).map f else recordAt slots j := by
  rw [recordAt, Array.getElem?_modify]
  by_cases hj : i = j
  · subst hj
    cases hs : slots[i]? <;> simp [recordAt, hs]
  · simp [hj, Ne.symm hj, recordAt]

structure Sound (p : RecordPage) (free : List Nat) : Prop where
  length_eq : p.slots.size = recordSlots
  listed : Listed p.slots p.head free
  nodup : free.Nodup
  vacant : ∀ i, i ∈ free ↔ i < recordSlots ∧ held p.slots i = false
  count_eq : p.allocated + free.length = recordSlots

variable {p : RecordPage}

theorem record?_eq (p : RecordPage) (i : Nat) : p.record? i = recordAt p.slots i := rfl

theorem toList_blocks (p : RecordPage) :
    p.blocks.toList = (List.range recordSlots).filter (held p.slots) := by
  rw [blocks, toList_blocksFrom, List.range_eq_range']
  simp

namespace Sound

theorem mem_blocks (h : p.Sound free) :
    i ∈ p.blocks.toList ↔ ∃ record, p.record? i = some record := by
  rw [toList_blocks, List.mem_filter, List.mem_range, held, Option.isSome_iff_exists, record?_eq,
    ← h.length_eq]
  refine ⟨And.right, fun ⟨record, hr⟩ => ⟨?_, record, hr⟩⟩
  by_contra hlt
  simp [recordAt, Array.getElem?_eq_none (Nat.not_lt.mp hlt)] at hr

theorem length_blocks (h : p.Sound free) : p.blocks.toList.length = p.allocated := by
  have hperm : free.Perm ((List.range recordSlots).filter fun i => !held p.slots i) := by
    refine (List.perm_ext_iff_of_nodup h.nodup (List.nodup_range.filter _)).mpr fun i => ?_
    rw [h.vacant, List.mem_filter, List.mem_range, Bool.not_eq_true']
  have hsplit := List.length_eq_length_filter_add (l := List.range recordSlots) (held p.slots)
  have hcount := h.count_eq
  rw [toList_blocks]
  rw [List.length_range, ← hperm.length_eq] at hsplit
  omega

theorem allocatedBytes_eq (h : p.Sound free) :
    p.allocatedBytes = slotBytes * p.blocks.toList.length := by
  rw [h.length_blocks, allocatedBytes, Nat.mul_comm]

theorem hasRoom_iff (h : p.Sound free) : p.hasRoom = true ↔ free ≠ [] := by
  have hl := h.listed
  cases free with
  | nil => simp [hasRoom, show p.head = none from hl]
  | cons i rest => simp [hasRoom, hl.1]

theorem allocate_nil (h : p.Sound []) (record : Record) : p.allocate record = (.ok none, p) := by
  obtain ⟨slots, head, allocated⟩ := p
  obtain rfl : head = none := h.listed
  rfl

theorem allocate_cons (h : p.Sound (i :: rest)) (record : Record) :
    ∃ p', p.allocate record = (.ok (some i), p') ∧ p'.Sound rest ∧
      ∀ j, p'.record? j = if j = i then some record else p.record? j := by
  obtain ⟨slots, head, allocated⟩ := p
  obtain ⟨hhead, next, hslot, hrest⟩ := h.listed
  obtain rfl : head = some i := hhead
  obtain ⟨hi, hnd⟩ := List.nodup_cons.mp h.nodup
  have hlt : i < slots.size := (Array.getElem?_eq_some_iff.mp hslot).1
  have hrec (j : Nat) : recordAt (slots.setIfInBounds i ⟨next, some record⟩) j =
      if j = i then some record else recordAt slots j := by
    rw [recordAt, recordAt, Array.getElem?_setIfInBounds]
    by_cases hj : i = j
    · rw [if_pos hj, if_pos hlt, if_pos hj.symm]
      rfl
    · rw [if_neg hj, if_neg (Ne.symm hj)]
  refine ⟨⟨slots.setIfInBounds i ⟨next, some record⟩, next, allocated + 1⟩, ?_, ?_, hrec⟩
  · simp only [allocate, hslot]
  · refine ⟨by simpa using h.length_eq, hrest.congr fun j hj => ?_, hnd, fun j => ?_, ?_⟩
    · rw [Array.getElem?_setIfInBounds, if_neg (by rintro rfl; exact hi hj)]
    · have hv := h.vacant j
      simp only [held, hrec, List.mem_cons] at hv ⊢
      by_cases hj : j = i
      · simp [hj, hi]
      · simpa [hj] using hv
    · have := h.count_eq
      simp only [List.length_cons] at this ⊢
      omega

theorem modifyRecord (h : p.Sound free) (i : Nat) (f : Record → Record) :
    (p.modifyRecord i f).Sound free := by
  have hheld (j : Nat) : held (p.modifyRecord i f).slots j = held p.slots j := by
    simp only [held, RecordPage.modifyRecord, recordAt_modify]
    split_ifs <;> simp
  refine ⟨by simpa [RecordPage.modifyRecord] using h.length_eq, ?_, h.nodup,
    fun j => by rw [hheld]; exact h.vacant j, h.count_eq⟩
  refine h.listed.congr fun j hj => ?_
  have hnone := held_eq_false.mp ((h.vacant j).mp hj).2
  simp only [RecordPage.modifyRecord, Array.getElem?_modify]
  split_ifs with he
  · cases hs : p.slots[j]? with
    | none => rfl
    | some s =>
      have : s.record = none := by simpa [recordAt, hs] using hnone
      obtain ⟨next, record⟩ := s
      obtain rfl : record = none := this
      rfl
  · rfl

end Sound

/-- The slots without a record, in the order of the page. -/
def vacancies (p : RecordPage) : List Nat := (List.range recordSlots).filter (!held p.slots ·)

/-- The page of the slots lists the free ones in ascending order. -/
theorem ofSlots_sound (hsize : slots.size = recordSlots) {n : Nat}
    (hn : n = ((List.range slots.size).filter (held slots)).length) :
    (ofSlots slots n).Sound (ofSlots slots n).vacancies ∧
      ∀ i, (ofSlots slots n).record? i = recordAt slots i := by
  have hempty : Listed slots none [] := rfl
  obtain ⟨head, slots', heq, hsize', hlist, hrec⟩ :=
    linkFree_spec (Nat.le_refl slots.size) hempty (by simp)
  have hheld (i : Nat) : held slots' i = held slots i := by rw [held, held, hrec]
  have hfree : vacancies ⟨slots', head, n⟩ = (List.range slots.size).filter (!held slots ·) := by
    simp only [vacancies, hheld, hsize]
  rw [ofSlots, heq]
  dsimp only
  rw [hfree]
  refine ⟨⟨hsize'.trans hsize, by simpa using hlist, List.nodup_range.filter _, fun i => ?_, ?_⟩,
    hrec⟩
  · rw [← hsize]
    simp [hheld]
  · have hlen := List.length_eq_length_filter_add (l := List.range slots.size) (held slots)
    rw [List.length_range, ← hn] at hlen
    exact (hlen.symm).trans hsize

theorem create_sound :
    create.Sound create.vacancies ∧ ∀ i, create.record? i = none := by
  have hsize : (Array.replicate recordSlots (⟨none, none⟩ : Slot)).size = recordSlots :=
    Array.size_replicate
  have hnone (i : Nat) : recordAt (Array.replicate recordSlots ⟨none, none⟩) i = none := by
    rw [recordAt, Array.getElem?_replicate]
    split_ifs <;> rfl
  generalize hslots : Array.replicate recordSlots (⟨none, none⟩ : Slot) = slots at hsize hnone
  have hempty : (List.range slots.size).filter (held slots) = [] :=
    List.filter_eq_nil_iff.mpr fun i _ => by simp [held, hnone]
  obtain ⟨hsound, hrec⟩ := ofSlots_sound (n := 0) hsize (by rw [hempty]; rfl)
  rw [create, hslots]
  exact ⟨hsound, fun i => (hrec i).trans (hnone i)⟩

/-! ### Sweeps -/

variable {ε : Type} {ask : Nat → Record → ε → Fate × ε}

/-- What a page shows of a slot. -/
def slotSight (i : Nat) : Sight := ⟨i, false, none⟩

/-- Answers about the records of the slots. -/
def askSlot (ask : Nat → Record → ε → Fate × ε) (slots : Array Slot) (s : Sight) (env : ε) :
    Ruling × ε :=
  match recordAt slots s.index with
  | none => (⟨.live, false⟩, env)
  | some record =>
    let (fate, env) := ask s.index record env
    (⟨fate, false⟩, env)

namespace Walk

variable {w w' : Walk ε} {hearings : List Hearing}

/-- What a sweep does to the slots that it has passed. -/
structure Heard (w : Walk ε) (hearings : List Hearing) (w' : Walk ε) : Prop where
  length_eq : w'.slots.size = w.slots.size
  record_eq : ∀ j, recordAt w'.slots j =
    if j ∈ condemned hearings then none else recordAt w.slots j
  live_eq : w'.live = w.live + (survivors hearings).length
  tally_eq : w'.tally = hearings.foldl (fun t h => t.count h.2.fate) w.tally
  queued_eq : w'.queued.toList = w.queued.toList ++ toFinalize hearings

theorem Heard.refl (w : Walk ε) : Heard w [] w :=
  ⟨rfl, fun _ => rfl, rfl, rfl, by simp⟩

theorem Heard.trans {w₁ w₂ w₃ : Walk ε} {xs ys : List Hearing} (h : Heard w₁ xs w₂)
    (h' : Heard w₂ ys w₃) : Heard w₁ (xs ++ ys) w₃ := by
  refine ⟨h'.length_eq.trans h.length_eq, fun j => ?_, ?_, ?_, ?_⟩
  · rw [h'.record_eq, h.record_eq]
    by_cases hy : j ∈ condemned ys <;> by_cases hx : j ∈ condemned xs <;>
      simp [condemned_append, hx, hy]
  · rw [h'.live_eq, h.live_eq, survivors_append, List.length_append, Nat.add_assoc]
  · rw [h'.tally_eq, h.tally_eq, List.foldl_append]
  · rw [h'.queued_eq, h.queued_eq, toFinalize_append, List.append_assoc]

theorem judge_heard {i : Nat} {record : Record} {fate : Fate} {env' : ε}
    (hi : i < w.slots.size) (hask : ask i record w.env = (fate, env')) :
    (w.judge ask i record).env = env' ∧
      Heard w [(slotSight i, ⟨fate, false⟩)] (w.judge ask i record) := by
  obtain ⟨slots, env, live, tally, queued⟩ := w
  simp only [judge, hask]
  cases fate with
  | live =>
    exact ⟨rfl, rfl, fun j => by simp [condemned, Ruling.spares], rfl, rfl, by simp [toFinalize]⟩
  | finalize =>
    exact ⟨rfl, rfl, fun j => by simp [condemned, Ruling.spares], rfl, rfl,
      by simp [toFinalize, slotSight]⟩
  | dead =>
    refine ⟨rfl, by simp, fun j => ?_, rfl, rfl, by simp [toFinalize]⟩
    replace hi : i < slots.size := hi
    simp only [recordAt, Array.getElem?_setIfInBounds, condemned, Ruling.spares, slotSight]
    by_cases hj : i = j
    · simp [hj, hj ▸ hi]
    · simp [hj, Ne.symm hj]

theorem run_heard (ask : Nat → Record → ε → Fate × ε) (left : Nat) {i : Nat}
    (hend : i + left ≤ w.slots.size) :
    ∃ hearings, hear (askSlot ask w.slots)
        (((List.range' i left).filter (held w.slots)).map slotSight) w.env =
          (hearings, (run ask left i w).env) ∧
      Heard w hearings (run ask left i w) := by
  induction left generalizing i w with
  | zero => exact ⟨[], rfl, .refl w⟩
  | succ left ih =>
    obtain ⟨next, record, hget⟩ : ∃ next record, w.slots[i]? = some ⟨next, record⟩ :=
      ⟨_, _, Array.getElem?_eq_getElem (by omega)⟩
    rw [List.range'_succ]
    cases record with
    | none =>
      have hheld : held w.slots i = false := by simp [held, recordAt, hget]
      obtain ⟨hearings, hhear, h⟩ := ih (by omega : i + 1 + left ≤ w.slots.size)
      refine ⟨hearings, ?_, ?_⟩
      · simpa [hheld, run, hget] using hhear
      · simpa [run, hget] using h
    | some record =>
      have hrec : recordAt w.slots i = some record := by simp [recordAt, hget]
      obtain ⟨fate, env', hask⟩ : ∃ fate env', ask i record w.env = (fate, env') := ⟨_, _, rfl⟩
      obtain ⟨henv, h₁⟩ := judge_heard (show i < w.slots.size by omega) hask
      have hsame (j : Nat) (hj : i < j) :
          recordAt (w.judge ask i record).slots j = recordAt w.slots j := by
        rw [h₁.record_eq, if_neg]
        simp [mem_condemned, slotSight, Nat.ne_of_lt hj]
      have hrun : run ask (left + 1) i w = run ask left (i + 1) (w.judge ask i record) := by
        rw [run, hget]
      obtain ⟨hearings, hhear, h₂⟩ :=
        ih (w := w.judge ask i record) (i := i + 1) (by rw [h₁.length_eq]; omega)
      have hfilter : (List.range' (i + 1) left).filter (held (w.judge ask i record).slots) =
          (List.range' (i + 1) left).filter (held w.slots) :=
        List.filter_congr fun j hj => by
          rw [held, held, hsame j (by have := List.mem_range'_1.mp hj; omega)]
      have hanswers : ∀ s ∈ ((List.range' (i + 1) left).filter (held w.slots)).map slotSight,
          askSlot ask (w.judge ask i record).slots s = askSlot ask w.slots s := by
        intro s hs
        obtain ⟨j, hj, rfl⟩ := List.mem_map.mp hs
        have := List.mem_range'_1.mp (List.mem_filter.mp hj).1
        funext env
        simp only [askSlot, slotSight]
        rw [hsame j (by omega)]
      have hfirst : askSlot ask w.slots (slotSight i) w.env = (⟨fate, false⟩, env') := by
        simp only [askSlot, slotSight, hrec, hask]
      rw [hrun]
      refine ⟨_, ?_, h₁.trans h₂⟩
      rw [hfilter, hear_congr hanswers, henv] at hhear
      rw [List.filter_cons_of_pos (by simp [held, hrec]), List.map_cons, hear]
      simp only [hfirst, hhear, List.singleton_append]

end Walk

/-- What a sweep makes of a page. -/
structure SweptTo (p : RecordPage) (hearings : List Hearing) (p' : RecordPage) : Prop where
  sound : p'.Sound p'.vacancies
  blocks_eq : p'.blocks.toList = survivors hearings
  record_eq : ∀ i, p'.record? i = if i ∈ condemned hearings then none else p.record? i
  kept : ∀ h ∈ hearings, h.2.spares → p'.record? h.1.index = p.record? h.1.index

theorem Sound.sweep (hp : p.Sound free) (ask : Nat → Record → ε → Fate × ε) (env : ε) :
    ∃ hearings env' p', hear (askSlot ask p.slots) (p.blocks.toList.map slotSight) env =
        (hearings, env') ∧
      p.SweptTo hearings p' ∧
      p.sweep ask env = ⟨p', env', countFates hearings, (toFinalize hearings).toArray,
        (survivors hearings).isEmpty, none⟩ := by
  have hsize := hp.length_eq
  obtain ⟨hearings, hhear, h⟩ := Walk.run_heard (w := ⟨p.slots, env, 0, {}, #[]⟩) (i := 0) ask
    recordSlots (by simp [hsize])
  rw [← List.range_eq_range', ← toList_blocks] at hhear
  have hidx : hearings.map (·.1.index) = p.blocks.toList := by
    have := congrArg (List.map Sight.index) (map_fst_of_hear hhear)
    simpa [slotSight, Function.comp_def] using this
  have hnd : (hearings.map (·.1.index)).Nodup := by
    rw [hidx, toList_blocks]
    exact List.nodup_range.filter _
  rw [RecordPage.sweep]
  generalize Walk.run ask recordSlots 0 ⟨p.slots, env, 0, {}, #[]⟩ = w at *
  obtain ⟨slots, env', live, tally, queued⟩ := w
  have hsize' : slots.size = recordSlots := h.length_eq.trans hsize
  have hrecord (j : Nat) : recordAt slots j = if j ∈ condemned hearings then none
      else recordAt p.slots j := h.record_eq j
  have hkept : (List.range recordSlots).filter (held slots) = survivors hearings := by
    rw [← filter_not_condemned hnd, hidx, toList_blocks, List.filter_filter]
    refine List.filter_congr fun j _ => ?_
    by_cases hj : j ∈ condemned hearings <;> simp [held, hrecord, hj]
  have hlive : live = ((List.range slots.size).filter (held slots)).length := by
    rw [hsize', hkept]
    exact h.live_eq.trans (Nat.zero_add _)
  obtain ⟨hsound, hrec⟩ := ofSlots_sound hsize' hlive
  have hheld : held (ofSlots slots live).slots = held slots := by
    funext j
    rw [held, held, ← hrec j]
    rfl
  refine ⟨hearings, env', ofSlots slots live, hhear,
    ⟨hsound, ?_, fun j => (hrec j).trans (hrecord j), fun x hx hs => ?_⟩, ?_⟩
  · rw [toList_blocks, hheld, hkept]
  · rw [hrec, hrecord, if_neg]
    · rfl
    · intro hc
      have hmem := mem_survivors.mpr ⟨x, hx, hs, rfl⟩
      rw [← filter_not_condemned hnd] at hmem
      exact of_decide_eq_true (List.mem_filter.mp hmem).2 hc
  · have hqueued := h.queued_eq
    have htally := h.tally_eq
    simp only at hqueued htally
    simp only [htally, countFates, Swept.mk.injEq, true_and, and_true]
    refine ⟨Array.toList_inj.mp (by simpa using hqueued), ?_⟩
    rw [hlive, hsize', hkept]
    cases survivors hearings <;> rfl

end SweptHeap.RecordPage
