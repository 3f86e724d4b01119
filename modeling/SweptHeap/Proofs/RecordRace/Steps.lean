import Mathlib
import SweptHeap.Proofs.RecordRace.Basic
import SweptHeap.Proofs.RecordRace.Fetching
import SweptHeap.Proofs.Heap.Allocation

/-!
# What a step of a caller does

A step is described twice. `Deals` says what it does to the shelf of records and the pages there,
and `Deed` what it does to the link of the object and to the records. No step fails, and each brings
the caller closer to its end (`Caller.works_act`).
-/

namespace SweptHeap

variable {ρ : Type}

/-! ### The link of an object -/

namespace Memory

variable {m m' : Memory} {object : BlockRef}

/-- The object has a cell for its link. -/
def Hosts (m : Memory) (object : BlockRef) : Prop :=
  ∃ p, m.page? object.page = some p ∧ p.kind ≠ .records ∧ object.index + 1 < p.cells.size

theorem recordOf_congr (h : m'.page? object.page = m.page? object.page) :
    m'.recordOf object = m.recordOf object := by
  simp only [recordOf, cell, BlockRef.linkCell, h]

theorem Hosts.congr (h : m.Hosts object) (hpage : m'.page? object.page = m.page? object.page) :
    m'.Hosts object := by
  rw [Hosts, hpage]
  exact h

/-- The page of an object is no page of records. -/
theorem Hosts.ne_page {id : PageId} (h : m.Hosts object) (hid : m.Registers id) :
    object.page ≠ id := by
  rintro rfl
  obtain ⟨p, hp, hkind, -⟩ := h
  obtain ⟨q, hq, hkey, -⟩ := hid
  obtain rfl : p = q := Option.some.inj (hp.symm.trans hq)
  exact hkind (by rw [← p.key_kind, hkey]; rfl)

theorem Hosts.modifyRecord (h : m.Hosts object) (r : BlockRef) (f : Record → Record) :
    (m.modifyRecord r f).page? object.page = m.page? object.page := by
  obtain ⟨p, hp, hkind, -⟩ := h
  rw [hp, page?_modifyRecord hkind, hp]

theorem page?_setCell (m : Memory) (b : BlockRef) (c : Cell) (id : PageId) :
    (m.setCell b c).page? id = if id = b.page then
      (m.page? id).map (·.modifyCells fun cells => cells.setIfInBounds b.index c) else m.page? id :=
  page?_modifyPage m b.page _ id

/-- To write a cell changes no page of records. -/
theorem page?_setCell_records {id : PageId} {p : Page} (hp : m.page? id = some p)
    (hk : p.kind = .records) (b : BlockRef) (c : Cell) : (m.setCell b c).page? id = some p := by
  obtain ⟨q, rfl⟩ := Page.exists_records hk
  rw [page?_setCell, hp]
  split_ifs <;> rfl

theorem record?_setCell (m : Memory) (b : BlockRef) (c : Cell) (r : BlockRef) :
    (m.setCell b c).record? r = m.record? r := by
  rw [record?, record?, page?_setCell]
  cases m.page? r.page with
  | none => split_ifs <;> rfl
  | some p => split_ifs <;> cases p <;> rfl

theorem Hosts.link (h : m.Hosts object) (record : BlockRef) :
    (m.setCell object.linkCell (.link record)).recordOf object = some record ∧
      (m.setCell object.linkCell (.link record)).Hosts object := by
  obtain ⟨p, hp, hkind, hlt⟩ := h
  have hpage : (m.setCell object.linkCell (.link record)).page? object.page =
      some (p.modifyCells fun cells => cells.setIfInBounds (object.index + 1) (.link record)) := by
    rw [page?_setCell, hp]
    exact if_pos rfl
  have hcells :
      (p.modifyCells fun cells => cells.setIfInBounds (object.index + 1) (.link record)).cells =
      p.cells.setIfInBounds (object.index + 1) (.link record) := by
    cases p with
    | records q => exact absurd rfl hkind
    | _ => rfl
  refine ⟨?_, _, hpage, ?_, ?_⟩
  · rw [recordOf, cell]
    simp only [BlockRef.linkCell] at hpage ⊢
    rw [hpage]
    simp [hcells, hlt]
  · cases p with
    | records q => exact absurd rfl hkind
    | _ => exact hkind
  · rwa [hcells, Array.size_setIfInBounds]

/-- Pages of records have a free slot for a record, or say that they have none. -/
theorem Registers.enroll {id : PageId} (h : m.Registers id) (record : Record) :
    (∃ r m', m.enroll id record = (.ok (some r), m') ∧ r.page = id ∧ m.record? r = none ∧
        (∀ r', m'.record? r' = if r' = r then some record else m.record? r') ∧
        (∀ j ≠ id, m'.page? j = m.page? j) ∧ m'.Registers id) ∨
      ∃ m', m.enroll id record = (.ok none, m') ∧ m.hasRoom id 0 = .ok false ∧
        ∀ j, m'.page? j = m.page? j := by
  obtain ⟨p, hp, hkey, hsound⟩ := h
  have hkind : p.kind = .records := by rw [← p.key_kind, hkey]; rfl
  have hpage (q : Page) (j : PageId) := page?_setPage (lt_of_page? hp) (some q) j
  rcases hsound.enroll hkind 0 record with ⟨i, p', -, heq, henrolls⟩ | ⟨hroom, heq⟩
  · refine .inl ⟨⟨id, i⟩, _, enroll_eq hp heq, rfl, ?_, fun r' => ?_,
      fun j hj => (hpage p' j).trans (if_neg hj),
      p', (hpage p' id).trans (if_pos rfl), henrolls.key_eq.trans hkey, henrolls.sound⟩
    · rw [record?, hp]
      exact Option.eq_none_iff_forall_ne_some.mpr fun x hx =>
        henrolls.fresh ((hsound.mem_blocks_records hkind).mpr ⟨x, hx⟩)
    · obtain ⟨page, j⟩ := r'
      simp only [record?, hpage, BlockRef.mk.injEq]
      by_cases hne : page = id
      · subst hne
        simp only [if_true, true_and, hp, Option.bind_eq_bind, Option.bind_some]
        split_ifs with hj
        · rw [hj, henrolls.enrolled]
        · exact henrolls.record_eq j hj
      · simp [hne]
  · refine .inr ⟨_, enroll_eq hp heq, (hasRoom_eq hp).trans hroom, fun j => ?_⟩
    rw [hpage]
    split_ifs with hj
    · rw [hj, hp]
    · rfl

end Memory

namespace Deals

variable {s : Shelf} {m m' : Memory} {held given given' : List PageId}

/-- The shelf is left alone. -/
theorem of_shelf (hgiven : ∀ id, given'.count id ≤ given.count id)
    (hpages : ∀ id p, m.page? id = some p → p.key = .records → p.Sound →
      ∃ p', m'.page? id = some p' ∧ p'.key = .records ∧ p'.Sound ∧
        (id ∉ held → id ∉ given → p'.blocks.toList = p.blocks.toList ∧
          p'.hasRoom 0 = p.hasRoom 0)) :
    Deals s m held given s m' held given' where
  stock := ⟨none, by simp, by simp⟩
  used := ⟨[], by simp, by simpa using hgiven⟩
  empty := List.Subset.refl _
  unswept := Nat.le_refl _
  pages := hpages

theorem rest (hgiven : ∀ id, given'.count id ≤ given.count id)
    (hpages : ∀ id, m'.page? id = m.page? id) : Deals s m held given s m' held given' :=
  of_shelf hgiven fun id p hp hkey hsound =>
    ⟨p, (hpages id).trans hp, hkey, hsound, fun _ _ => ⟨rfl, rfl⟩⟩

/-- A slot is taken on a page that was given. -/
theorem enroll {id : PageId} (hgiven : ∀ id, given'.count id ≤ given.count id) (hid : id ∈ given)
    (hothers : ∀ j ≠ id, m'.page? j = m.page? j) (hpage : m'.Registers id) :
    Deals s m held given s m' held given' := by
  refine of_shelf hgiven fun j p hp hkey hsound => ?_
  by_cases hj : j = id
  · subst hj
    obtain ⟨p', hp', hkey', hsound'⟩ := hpage
    exact ⟨p', hp', hkey', hsound', fun _ hnot => absurd hid hnot⟩
  · exact ⟨p, (hothers j hj).trans hp, hkey, hsound, fun _ _ => ⟨rfl, rfl⟩⟩

theorem modifyRecord (hgiven : ∀ id, given'.count id ≤ given.count id) (r : BlockRef)
    (f : Record → Record) : Deals s m held given s (m.modifyRecord r f) held given' := by
  refine of_shelf hgiven fun j p hp hkey hsound => ?_
  rw [Memory.modifyRecord, Memory.page?_modifyPage, hp]
  split_ifs
  · have hamended := p.amended_modifyRecord r.index f
    have hroom : (p.modifyRecord r.index f).hasRoom 0 = p.hasRoom 0 := by cases p <;> rfl
    exact ⟨_, rfl, hamended.key_eq.trans hkey, hamended.sound hsound,
      fun _ _ => ⟨hamended.blocks_eq, hroom⟩⟩
  · exact ⟨p, rfl, hkey, hsound, fun _ _ => ⟨rfl, rfl⟩⟩

theorem setCell (hgiven : ∀ id, given'.count id ≤ given.count id) (b : BlockRef) (c : Cell) :
    Deals s m held given s (m.setCell b c) held given' := by
  refine of_shelf hgiven fun j p hp hkey hsound => ?_
  have hkind : p.kind = .records := by rw [← p.key_kind, hkey]; rfl
  exact ⟨p, Memory.page?_setCell_records hp hkind b c, hkey, hsound, fun _ _ => ⟨rfl, rfl⟩⟩

end Deals

/-- The page of records that an allocator keeps, if it is up to date. -/
def Allocator.ownPage (epoch : Nat) (a : Allocator) : List PageId :=
  if a.epoch = epoch then a.records.toList else []

namespace RecordRace

/-! ### Stages -/

namespace Stage

/-- The caller has not taken a slot yet, and has found no record. -/
def isEarly : Stage → Bool
  | .reading | .syncing | .trying | .fetching _ | .enrolling _ => true
  | _ => false

/-- The caller has given up the pages of earlier cycles. -/
def isSynced : Stage → Bool
  | .trying | .fetching _ | .enrolling _ => true
  | _ => false

/-- The page that only the caller can see. -/
def held : Stage → List PageId
  | .fetching task => task.held.toList
  | _ => []

/-- The page that the caller has been given. -/
def given : Stage → List PageId
  | .fetching task => task.given
  | .enrolling id => [id]
  | _ => []

/-- The pages of records that are the caller's own: the one it has kept and the one it has been
given. -/
def claims (epoch : Nat) (a : Allocator) (s : Stage) : List PageId := a.ownPage epoch ++ s.given

/-- What holds of the pages at this stage. -/
def Fits (m : Memory) : Stage → Prop
  | .fetching task => task.Fetches m
  | .enrolling id => m.hasRoom id 0 = .ok true
  | .stuck _ => False
  | _ => True

/-- How many steps the caller has still to do at most, if no page waits for the sweep. -/
def rank : Stage → Nat
  | .reading => 14
  | .syncing => 13
  | .trying => 12
  | .fetching task => task.rank
  | .enrolling _ => 5
  | .linking _ => 4
  | .detaching _ _ => 3
  | .discarding _ _ => 2
  | .raising _ => 1
  | .returned _ | .stuck _ => 0

end Stage

/-- What a step does to the link of the object and to the records. -/
inductive Deed (object : BlockRef) (flags : Flags) (s : Shelf) (m : Memory) :
    Stage → Memory → Stage → Prop
  /-- On the way to a slot, no page in use changes and no record comes. -/
  | prepare {stage stage' : Stage} {m' : Memory} (early : stage.isEarly = true)
      (early' : stage'.isEarly = true) (reserves : m.Reserves s.used.toList m') :
      Deed object flags s m stage m' stage'
  | find {w : BlockRef} (linked : m.recordOf object = some w) :
      Deed object flags s m .reading m (.raising w)
  /-- A free slot is taken for a record of the object. -/
  | enroll {stage : Stage} {m' : Memory} {r : BlockRef} (early : stage.isEarly = true)
      (used : r.page ∈ s.used.toList) (vacant : m.record? r = none)
      (apart : m'.page? object.page = m.page? object.page)
      (records : ∀ r', m'.record? r' = if r' = r then some ⟨some object, flags⟩ else m.record? r') :
      Deed object flags s m stage m' (.linking r)
  | link {r : BlockRef} (bare : m.recordOf object = none) :
      Deed object flags s m (.linking r) (m.setCell object.linkCell (.link r)) (.returned r)
  | lose {r w : BlockRef} (linked : m.recordOf object = some w) :
      Deed object flags s m (.linking r) m (.detaching r w)
  | detach {r w : BlockRef} : Deed object flags s m (.detaching r w)
      (m.modifyRecord r fun x => { x with base := none }) (.discarding r w)
  | discard {r w : BlockRef} :
      Deed object flags s m (.discarding r w) (m.raise r .sweepable) (.raising w)
  | raise {w : BlockRef} : Deed object flags s m (.raising w) (m.raise w flags) (.returned w)
  | rest {w : BlockRef} : Deed object flags s m (.returned w) m (.returned w)

/-! ### Callers -/

namespace Caller

/-- The pages of records that are the caller's own. -/
def claims (epoch : Nat) (x : Caller) : List PageId := x.stage.claims epoch x.allocator

/-- The caller can do its next step. -/
structure Ready (h : Heap ρ) (x : Caller) : Prop where
  fits : x.stage.Fits h.arena.memory
  synced : x.stage.isSynced = true → x.allocator.epoch = h.epoch

/-- What a step does. -/
structure Works (object : BlockRef) (x : Caller) (h : Heap ρ) (x' : Caller) (h' : Heap ρ) :
    Prop where
  epoch_eq : h'.epoch = h.epoch
  deals : Deals h.records h.arena.memory x.stage.held (x.claims h.epoch) h'.records h'.arena.memory
    x'.stage.held (x'.claims h.epoch)
  deed : Deed object x.flags h.records h.arena.memory x.stage h'.arena.memory x'.stage
  ready : x'.Ready h'
  taken_eq : x'.taken = x.taken ++ x'.stage.fresh.toList
  wish_eq : x'.withFinalizer = x.withFinalizer
  less : x.stage.result = none → 4 * h'.records.unswept.size + x'.stage.rank <
    4 * h.records.unswept.size + x.stage.rank

variable {policy : Policy ρ} {object : BlockRef} {x : Caller} {h h' : Heap ρ}
  {a' : Allocator} {s' : Stage}

/-- A step by what the stage does. -/
theorem Works.of_apply
    (heq : (x.stage.act policy object x.flags).apply (x.desk h) = (.ok s', ⟨h', a'⟩))
    (hepoch : h'.epoch = h.epoch)
    (hdeals : Deals h.records h.arena.memory x.stage.held (x.claims h.epoch)
      h'.records h'.arena.memory s'.held (s'.claims h.epoch a'))
    (hdeed : Deed object x.flags h.records h.arena.memory x.stage h'.arena.memory s')
    (hfits : s'.Fits h'.arena.memory) (hsynced : s'.isSynced = true → a'.epoch = h.epoch)
    (hless : x.stage.result = none → 4 * h'.records.unswept.size + s'.rank <
      4 * h.records.unswept.size + x.stage.rank) :
    Works object x h (x.act policy object h).1 (x.act policy object h).2 := by
  rw [act, heq]
  exact ⟨hepoch, hdeals, hdeed, ⟨hfits, fun hs => (hsynced hs).trans hepoch.symm⟩, rfl, rfl, hless⟩

/-- A step that touches the memory only. -/
theorem Works.of_memory {m' : Memory}
    (heq : (x.stage.act policy object x.flags).apply (x.desk h) =
      (.ok s',
        ⟨{ (x.desk h).heap with arena := { (x.desk h).heap.arena with memory := m' } },
          x.allocator⟩))
    (hdeals : Deals h.records h.arena.memory x.stage.held (x.claims h.epoch) h.records m' s'.held
      (s'.claims h.epoch x.allocator))
    (hdeed : Deed object x.flags h.records h.arena.memory x.stage m' s') (hfits : s'.Fits m')
    (hsynced : s'.isSynced = false) (hless : x.stage.result = none → s'.rank < x.stage.rank) :
    Works object x h (x.act policy object h).1 (x.act policy object h).2 :=
  .of_apply heq rfl hdeals hdeed hfits (fun hs => by rw [hsynced] at hs; cases hs)
    fun hs => Nat.add_lt_add_left (hless hs) _

theorem works_reading (policy : Policy ρ) (object : BlockRef) (h : Heap ρ)
    (hx : x.stage = .reading) :
    Works object x h (x.act policy object h).1 (x.act policy object h).2 := by
  obtain ⟨a, wish, stage, taken, found⟩ := x
  obtain rfl : stage = .reading := hx
  cases hlink : h.arena.memory.recordOf object with
  | none =>
    exact .of_memory (Stage.apply_reading_none hlink) (.rest (fun _ => Nat.le_refl _) fun _ => rfl)
      (.prepare rfl rfl (.of_pages fun _ => rfl)) trivial rfl fun _ => by simp [Stage.rank]
  | some w =>
    exact .of_memory (Stage.apply_reading_some hlink) (.rest (fun _ => Nat.le_refl _) fun _ => rfl)
      (.find hlink) trivial rfl fun _ => by simp [Stage.rank]

theorem works_syncing (policy : Policy ρ) (object : BlockRef) (h : Heap ρ)
    (hx : x.stage = .syncing) :
    Works object x h (x.act policy object h).1 (x.act policy object h).2 := by
  obtain ⟨a, wish, stage, taken, found⟩ := x
  obtain rfl : stage = .syncing := hx
  by_cases hepoch : a.epoch = h.epoch
  · have hsync : (Stage.act policy object (.initial wish) .syncing).apply
        (desk ⟨a, wish, .syncing, taken, found⟩ h) =
          (.ok .trying, ⟨{ h with arena := { h.arena with found := found } }, a⟩) := by
      rw [Stage.act, Allocator.sync]
      simp only [desk, Act.apply_get_bind, bind_assoc, ne_eq, hepoch, not_true_eq_false, if_false]
      rfl
    exact .of_apply hsync rfl (.rest (fun _ => Nat.le_refl _) fun _ => rfl)
      (.prepare rfl rfl (.of_pages fun _ => rfl)) trivial (fun _ => hepoch)
      fun _ => Nat.add_lt_add_left (by simp [Stage.rank]) _
  · have hsync : (Stage.act policy object (.initial wish) .syncing).apply
        (desk ⟨a, wish, .syncing, taken, found⟩ h) =
          (.ok .trying, ⟨Allocator.flushed { h with arena := { h.arena with found := found } },
            { epoch := h.epoch, requested := a.requested }⟩) := by
      rw [Stage.act, Allocator.sync]
      simp only [desk, Act.apply_get_bind, bind_assoc, ne_eq, hepoch, not_false_eq_true, if_true]
      rw [Act.apply_bind_ok (Allocator.apply_modifySelf _), Act.apply_bind_ok Allocator.flush_eq]
      rfl
    exact .of_apply hsync rfl
      (.rest (fun _ => by simp [Stage.claims, Allocator.ownPage, Stage.given]) fun _ => rfl)
      (.prepare rfl rfl (.of_pages fun _ => rfl)) trivial (fun _ => rfl)
      fun _ => Nat.add_lt_add_left (by simp [Stage.rank]) _

/-- A step that takes a slot on a page of the caller's own, if there is one. -/
theorem works_slot {id : PageId}
    (heq : (x.stage.act policy object x.flags).apply (x.desk h) = Act.apply (do
      Stage.enrolled (← Allocator.onMemory (Memory.enroll id ⟨some object, x.flags⟩)))
        ⟨(x.desk h).heap, a'⟩)
    (hhosts : h.arena.memory.Hosts object) (hid : h.arena.memory.Registers id)
    (hused : id ∈ h.records.used.toList) (hclaim : id ∈ x.claims h.epoch)
    (hearly : x.stage.isEarly = true) (hheld : x.stage.held = []) (hepoch : a'.epoch = h.epoch)
    (hkept : ∀ j, a'.records.toList.count j ≤ (x.claims h.epoch).count j)
    (hrank : 4 < x.stage.rank)
    (hroom : h.arena.memory.hasRoom id 0 = .ok false → 11 < x.stage.rank) :
    Works object x h (x.act policy object h).1 (x.act policy object h).2 := by
  have hgiven {s : Stage} (hs : s.given = []) (j : PageId) :
      (s.claims h.epoch a').count j ≤ (x.claims h.epoch).count j := by
    rw [Stage.claims, Allocator.ownPage, if_pos hepoch, hs, List.append_nil]
    exact hkept j
  have hmemory {result : Option BlockRef} {m' : Memory}
      (htake : h.arena.memory.enroll id ⟨some object, x.flags⟩ = (.ok result, m')) :
      (Allocator.onMemory (Memory.enroll id ⟨some object, x.flags⟩)).apply
        (⟨(x.desk h).heap, a'⟩ : Desk ρ) = (.ok result,
          ⟨{ (x.desk h).heap with arena := { (x.desk h).heap.arena with memory := m' } }, a'⟩) := by
    rw [Allocator.apply_onMemory,
      show (x.desk h).heap.arena.memory = h.arena.memory from rfl, htake]
  rcases hid.enroll ⟨some object, x.flags⟩ with
    ⟨r, m', htake, rfl, hvacant, hrecords, hothers, hpage⟩ | ⟨m', htake, hfull, hsame⟩
  · rw [Act.apply_bind_ok (hmemory htake), Stage.apply_enrolled_some] at heq
    refine .of_apply heq rfl ?_
      (.enroll hearly hused hvacant (hothers _ (hhosts.ne_page hid)) hrecords)
      trivial (by simp [Stage.isSynced]) fun _ => Nat.add_lt_add_left hrank _
    rw [hheld]
    exact .enroll (hgiven rfl) hclaim hothers hpage
  · rw [Act.apply_bind_ok (hmemory htake), Stage.apply_enrolled_none] at heq
    refine .of_apply heq rfl ?_ (.prepare hearly rfl (.of_pages hsame)) rfl
      (fun _ => hepoch) fun _ => Nat.add_lt_add_left (hroom hfull) _
    rw [hheld]
    exact .rest (hgiven rfl) hsame

theorem works_trying (policy : Policy ρ) (hhosts : h.arena.memory.Hosts object)
    (hg : (h.depot .records).Good .records)
    (hclaims : ∀ id ∈ x.claims h.epoch, id ∈ h.records.used.toList) (hready : x.Ready h)
    (hx : x.stage = .trying) :
    Works object x h (x.act policy object h).1 (x.act policy object h).2 := by
  have hepoch : x.allocator.epoch = h.epoch := hready.synced (by rw [hx]; rfl)
  have hown : x.claims h.epoch = x.allocator.records.toList := by
    rw [claims, hx, Stage.claims, Allocator.ownPage, if_pos hepoch]
    exact List.append_nil _
  cases hcached : x.allocator.records with
  | none =>
    have heq : (x.stage.act policy object x.flags).apply (x.desk h) =
        (.ok (.fetching (.looking .records h.epoch)), x.desk h) := by
      rw [hx, Stage.act, Allocator.fromCache]
      simp only [bind_assoc, Act.apply_get_bind, desk, Allocator.cached, Request.records, hcached]
      rfl
    refine .of_apply heq rfl ?_ (.prepare (by rw [hx]; rfl) rfl (.of_pages fun _ => rfl)) rfl
      (fun _ => hepoch) fun _ => Nat.add_lt_add_left (by simp [hx, Stage.rank, Task.rank]) _
    rw [hx]
    exact .rest
      (fun _ => by simp [Stage.claims, Allocator.ownPage, Stage.given, Task.given, hcached])
      fun _ => rfl
  | some id =>
    have hclaim : id ∈ x.claims h.epoch := by simp [hown, hcached]
    have hused := hclaims id hclaim
    have heq : (x.stage.act policy object x.flags).apply (x.desk h) = Act.apply (do
        Stage.enrolled (← Allocator.onMemory (Memory.enroll id ⟨some object, x.flags⟩)))
          (x.desk h) := by
      rw [hx, Stage.act, Allocator.fromCache]
      simp only [bind_assoc, Act.apply_get_bind, desk, Allocator.cached, Request.records, hcached]
    exact works_slot heq hhosts (hg.mapped id (Shelf.mem_pages.mpr (.inr (.inr (.inl hused)))))
      hused hclaim
      (by rw [hx]; rfl) (by rw [hx]; rfl) hepoch (fun _ => by rw [hown]) (by rw [hx]; decide)
      fun _ => by rw [hx]; decide

theorem works_enrolling (policy : Policy ρ) {id : PageId} (hhosts : h.arena.memory.Hosts object)
    (hg : (h.depot .records).Good .records)
    (hclaims : ∀ id ∈ x.claims h.epoch, id ∈ h.records.used.toList) (hready : x.Ready h)
    (hx : x.stage = .enrolling id) :
    Works object x h (x.act policy object h).1 (x.act policy object h).2 := by
  have hepoch : x.allocator.epoch = h.epoch := hready.synced (by rw [hx]; rfl)
  have hown : x.claims h.epoch = x.allocator.records.toList ++ [id] := by
    rw [claims, hx, Stage.claims, Allocator.ownPage, if_pos hepoch]
    rfl
  have hclaim : id ∈ x.claims h.epoch := by simp [hown]
  have hused := hclaims id hclaim
  have hroom : h.arena.memory.hasRoom id 0 = .ok true := by
    have hfits := hready.fits
    rwa [hx] at hfits
  have heq : (x.stage.act policy object x.flags).apply (x.desk h) = Act.apply (do
      Stage.enrolled (← Allocator.onMemory (Memory.enroll id ⟨some object, x.flags⟩)))
        ⟨(x.desk h).heap, Allocator.cache .records id x.allocator⟩ := by
    rw [hx, Stage.act, desk, Act.apply_bind_ok (Allocator.apply_modifySelf _)]
  refine works_slot heq hhosts (hg.mapped id (Shelf.mem_pages.mpr (.inr (.inr (.inl hused)))))
    hused hclaim (by rw [hx]; rfl) (by rw [hx]; rfl) hepoch (fun j => ?_)
    (by simp [hx, Stage.rank]) fun hfull => ?_
  · rw [hown, List.count_append]
    exact Nat.le_add_left _ _
  · cases hroom.symm.trans hfull

theorem works_fetching (policy : Policy ρ) {t : Task} (hg : (h.depot .records).Good .records)
    (hheld : ∀ id ∈ x.stage.held, h.arena.memory.Registers id ∧ id ∉ h.records.used.toList)
    (hready : x.Ready h) (hx : x.stage = .fetching t) :
    Works object x h (x.act policy object h).1 (x.act policy object h).2 := by
  have hepoch : x.allocator.epoch = h.epoch := hready.synced (by rw [hx]; rfl)
  have hfetches : t.Fetches h.arena.memory := by
    have hfits := hready.fits
    rwa [hx] at hfits
  have hown (s : Stage) : s.claims h.epoch x.allocator = x.allocator.records.toList ++ s.given := by
    rw [Stage.claims, Allocator.ownPage, if_pos hepoch]
  by_cases hgot : ∃ id, t = .got id
  · obtain ⟨id, rfl⟩ := hgot
    have heq : (x.stage.act policy object x.flags).apply (x.desk h) =
        (.ok (.enrolling id), ⟨Allocator.flushed (x.desk h).heap, x.allocator⟩) := by
      rw [hx, Stage.act, Stage.fetch, desk, Act.apply_bind_ok Allocator.flush_eq]
      rfl
    refine .of_apply heq rfl ?_ (.prepare (by rw [hx]; rfl) rfl (.of_pages fun _ => rfl)) hfetches
      (fun _ => hepoch) fun _ => Nat.add_lt_add_left (by simp [hx, Stage.rank, Task.rank]) _
    rw [claims, hx]
    exact .rest (fun _ => Nat.le_refl _) fun _ => rfl
  · -- The shelf and the pages are the same for the caller, whatever its sweeps have found.
    have hgood : ((x.desk h).heap.depot .records).Good .records := ⟨hg.nodup, hg.mapped, hg.vacant⟩
    have hhands : ∀ id ∈ t.held, h.arena.memory.Registers id ∧ id ∉ h.records.used.toList := by
      intro id hid
      refine hheld id ?_
      rw [hx]
      exact Option.mem_toList.mpr hid
    obtain ⟨t', d', hact, hserves⟩ := Task.serves_act policy hgood hhands hfetches
      fun id he => hgot ⟨id, he⟩
    have heq : (x.stage.act policy object x.flags).apply (x.desk h) =
        (.ok (.fetching t'), ⟨(x.desk h).heap.setDepot .records d', x.allocator⟩) := by
      rw [hx, Stage.act, Stage.fetch_eq fun id he => hgot ⟨id, he⟩,
        Act.apply_bind_ok (Allocator.apply_onHeap (Heap.apply_atShelf (r := .records) hact))]
      rfl
    obtain ⟨hdeals, hreserves, hfetches', hless⟩ := hserves
    refine .of_apply heq rfl ?_ (.prepare (by rw [hx]; rfl) rfl hreserves)
      hfetches' (fun _ => hepoch) fun _ => by rw [hx]; exact hless
    obtain ⟨hstock, ⟨added, hused, hcount⟩, hempty, hunswept, hpages⟩ := hdeals
    rw [claims, hown, hown, hx]
    refine ⟨hstock, ⟨added, hused, fun id => ?_⟩, hempty, hunswept, fun id p hp hkey hsound => ?_⟩
    · have hle := hcount id
      simp only [List.count_append, Stage.given] at hle ⊢
      omega
    · obtain ⟨p', hp', hkey', hsound', hrest⟩ := hpages id p hp hkey hsound
      exact ⟨p', hp', hkey', hsound', fun hnot hnot' =>
        hrest hnot fun hmem => hnot' (List.mem_append_right _ hmem)⟩

theorem works_linking (policy : Policy ρ) {r : BlockRef} (hx : x.stage = .linking r) :
    Works object x h (x.act policy object h).1 (x.act policy object h).2 := by
  obtain ⟨a, wish, stage, taken, found⟩ := x
  obtain rfl : stage = .linking r := hx
  cases hlink : h.arena.memory.recordOf object with
  | none =>
    exact .of_memory (Stage.apply_linking_none hlink)
      (.setCell (fun _ => Nat.le_refl _) _ _) (.link hlink)
      trivial rfl fun _ => by simp [Stage.rank]
  | some w =>
    exact .of_memory (Stage.apply_linking_some hlink) (.rest (fun _ => Nat.le_refl _) fun _ => rfl)
      (.lose hlink) trivial rfl fun _ => by simp [Stage.rank]

/-- A caller that is at work or at its end does not fail, and comes closer to its end at each
step. -/
theorem works_act (policy : Policy ρ) (hhosts : h.arena.memory.Hosts object)
    (hg : (h.depot .records).Good .records)
    (hheld : ∀ id ∈ x.stage.held, h.arena.memory.Registers id ∧ id ∉ h.records.used.toList)
    (hclaims : ∀ id ∈ x.claims h.epoch, id ∈ h.records.used.toList) (hready : x.Ready h) :
    Works object x h (x.act policy object h).1 (x.act policy object h).2 := by
  cases hx : x.stage with
  | reading => exact works_reading policy object h hx
  | syncing => exact works_syncing policy object h hx
  | trying => exact works_trying policy hhosts hg hclaims hready hx
  | fetching t => exact works_fetching policy hg hheld hready hx
  | enrolling id => exact works_enrolling policy hhosts hg hclaims hready hx
  | linking r => exact works_linking policy hx
  | detaching r w =>
    obtain ⟨a, wish, stage, taken, found⟩ := x
    obtain rfl : stage = .detaching r w := hx
    exact .of_memory rfl (.modifyRecord (fun _ => Nat.le_refl _) _ _) .detach trivial rfl
      fun _ => by simp [Stage.rank]
  | discarding r w =>
    obtain ⟨a, wish, stage, taken, found⟩ := x
    obtain rfl : stage = .discarding r w := hx
    exact .of_memory rfl (.modifyRecord (fun _ => Nat.le_refl _) _ _) .discard trivial rfl
      fun _ => by simp [Stage.rank]
  | raising w =>
    obtain ⟨a, wish, stage, taken, found⟩ := x
    obtain rfl : stage = .raising w := hx
    exact .of_memory rfl (.modifyRecord (fun _ => Nat.le_refl _) _ _) .raise trivial rfl
      fun _ => by simp [Stage.rank]
  | returned w =>
    obtain ⟨a, wish, stage, taken, found⟩ := x
    obtain rfl : stage = .returned w := hx
    exact .of_memory rfl (.rest (fun _ => Nat.le_refl _) fun _ => rfl) .rest trivial rfl
      fun hnone => by cases hnone
  | stuck fault =>
    have hfits := hready.fits
    rw [hx] at hfits
    exact hfits.elim

end Caller

end RecordRace

end SweptHeap
