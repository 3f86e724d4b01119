import Mathlib
import SweptHeap.Proofs.Heap.Supply
import SweptHeap.Proofs.SharedDepot.Acts

/-!
# Threads that get pages of records

A thread that gets a page of records takes it from the shelf, sweeps it or maps it. `Deals` says
what such work does to the shelf and the pages, in terms of the pages that the thread holds off the
shelf and those that it has been given from it. A page that was given to one thread is used, and no
page is used twice, so nobody else is given it.
-/

namespace SweptHeap

variable {ρ : Type}

/-- A sound page of records. -/
def Memory.Registers (m : Memory) (id : PageId) : Prop :=
  ∃ p, m.page? id = some p ∧ p.key = .records ∧ p.Sound

/-- These pages, and all that are no pages of records, are as they were. Elsewhere records may go,
but none comes. -/
structure Memory.Reserves (ids : List PageId) (m m' : Memory) : Prop where
  page?_eq : ∀ id p, m.page? id = some p → id ∈ ids ∨ p.kind ≠ .records → m'.page? id = some p
  vacant : ∀ r, m.record? r = none → m'.record? r = none

theorem Memory.Reserves.of_pages {ids : List PageId} {m m' : Memory}
    (h : ∀ id, m'.page? id = m.page? id) : m.Reserves ids m' :=
  ⟨fun id _ hp _ => (h id).trans hp, fun r hr => (record?_congr (h r.page)).trans hr⟩

/-- What someone does who holds some pages off the shelf and has been given others from it. -/
structure Deals (s : Shelf) (m : Memory) (held given : List PageId) (s' : Shelf) (m' : Memory)
    (held' given' : List PageId) : Prop where
  /-- Pages go between the shelf and the hands, and one may be mapped. -/
  stock : ∃ mapped : Option PageId,
    (s'.pages.toList ++ held').Perm (s.pages.toList ++ held ++ mapped.toList) ∧
      ∀ id ∈ mapped, m.page? id = none ∧ m'.Registers id
  /-- Who is given a page is given one that nobody used before. -/
  used : ∃ added, s'.used.toList = s.used.toList ++ added ∧
    ∀ id, given'.count id ≤ given.count id + added.count id
  empty : s'.empty.toList ⊆ s.empty.toList
  unswept : s'.unswept.size ≤ s.unswept.size
  /-- Other pages have the same free slots. -/
  pages : ∀ id p, m.page? id = some p → p.key = .records → p.Sound →
    ∃ p', m'.page? id = some p' ∧ p'.key = .records ∧ p'.Sound ∧
      (id ∉ held → id ∉ given → p'.blocks.toList = p.blocks.toList ∧ p'.hasRoom 0 = p.hasRoom 0)

/-- The pages are as they were. -/
theorem Deals.of_pages {s s' : Shelf} {m m' : Memory} {held given held' given' : List PageId}
    (hpages : ∀ id, m'.page? id = m.page? id)
    (hstock : (s'.pages.toList ++ held').Perm (s.pages.toList ++ held))
    (hused : ∃ added, s'.used.toList = s.used.toList ++ added ∧
      ∀ id, given'.count id ≤ given.count id + added.count id)
    (hempty : s'.empty.toList ⊆ s.empty.toList) (hunswept : s'.unswept.size ≤ s.unswept.size) :
    Deals s m held given s' m' held' given' where
  stock := ⟨none, by simpa using hstock, by simp⟩
  used := hused
  empty := hempty
  unswept := hunswept
  pages id p hp hkey hsound := ⟨p, (hpages id).trans hp, hkey, hsound, fun _ _ => ⟨rfl, rfl⟩⟩

/-! ### Sweeps of records -/

namespace Page

variable {p p' : Page} {i : Nat}

theorem Sound.mem_blocks_records (hs : p.Sound) (hk : p.kind = .records) :
    i ∈ p.blocks.toList ↔ ∃ record, p.record? i = some record := by
  obtain ⟨q, rfl⟩ := exists_records hk
  obtain ⟨free, hq⟩ := hs
  exact hq.mem_blocks

/-- A sweep fills no slot. -/
theorem SweptTo.record?_eq_none {hearings : List Hearing} (h : p.SweptTo hearings p') (hs : p.Sound)
    (hk : p.kind = .records) (hindex : hearings.map (·.1.index) = p.blocks.toList)
    (hi : p.record? i = none) : p'.record? i = none := by
  have hk' : p'.kind = .records := by rw [← p'.key_kind, h.key_eq, p.key_kind, hk]
  have hs' : p'.Sound := h.sound hs (.inl (by simp [hk]))
  refine Option.eq_none_iff_forall_ne_some.mpr fun record hrecord => ?_
  have hmem := (hs'.mem_blocks_records hk').mpr ⟨record, hrecord⟩
  rw [h.blocks_eq] at hmem
  obtain ⟨x, hx, -, rfl⟩ := mem_survivors.mp hmem
  obtain ⟨old, hold⟩ := (hs.mem_blocks_records hk).mp (hindex ▸ List.mem_map_of_mem hx)
  cases hi.symm.trans hold

end Page

namespace Arena

variable {policy : Policy ρ} {id : PageId} {p p' : Page} {hearings : List Hearing}

/-- Questions about records touch nothing. -/
theorem hear_memory (hk : p.kind = .records) {sights : List Sight} {a c : Arena ρ}
    (h : hear (p.asks (ask policy id) (askRecord policy id)) sights a = (hearings, c)) :
    c.memory = a.memory := by
  obtain ⟨q, rfl⟩ := Page.exists_records hk
  induction sights generalizing a hearings with
  | nil =>
    obtain ⟨-, rfl⟩ := Prod.mk.inj h
    rfl
  | cons s rest ih =>
    obtain ⟨ruling, b, tail, hask, htail, -⟩ := hear_cons h
    have hone : b.memory = a.memory := by
      simp only [Page.asks, RecordPage.askSlot] at hask
      cases hrec : RecordPage.recordAt q.slots s.index with
      | none =>
        rw [hrec] at hask
        obtain ⟨-, rfl⟩ := Prod.mk.inj hask
        rfl
      | some record =>
        rw [hrec] at hask
        obtain ⟨-, rfl⟩ := Prod.mk.inj hask
        rfl
    exact (ih htail).trans hone

/-- The sweep of a page of records changes no other page. -/
theorem Sifts.page?_of_ne {a a' : Arena ρ} (h : Sifts policy id p hearings p' a a')
    (hk : p.kind = .records) {j : PageId} (hj : j ≠ id) : a'.memory.page? j = a.memory.page? j := by
  obtain ⟨b, c, hb, -, hhear, hc, -⟩ := h.heard
  have hid := Memory.lt_of_page? h.page_eq
  have hmemory := hear_memory hk hhear
  have hid' : id < c.memory.pages.size := by
    rw [hmemory, hb, Memory.size_setPage]
    exact hid
  rw [Memory.page?_congr hc, Memory.page?_setPage hid', if_neg hj, hmemory, Memory.page?_congr hb,
    Memory.page?_setPage hid, if_neg hj]

end Arena

/-! ### Acts -/

namespace Task

/-- The page that the thread has been given. -/
def given : Task → List PageId
  | .leaving _ (some id) | .got id => [id]
  | _ => []

/-- The thread gets a page of records. Where it has found room on a page, there is room. -/
def Fetches (m : Memory) : Task → Prop
  | .looking r _ | .reusing r | .mapping r => r = .records
  | .seeking aim | .sweeping aim _ => ∃ epoch, aim = .room .records epoch
  | .placing aim id flag =>
    (∃ epoch, aim = .room .records epoch) ∧ (flag = true → m.hasRoom id 0 = .ok true)
  | .leaving aim result =>
    (∃ epoch, aim = .room .records epoch) ∧ ∀ id ∈ result, m.hasRoom id 0 = .ok true
  | .adding id | .got id => m.hasRoom id 0 = .ok true
  | _ => False

/-- How many acts the thread has still to do at most, if no page waits for the sweep. -/
def rank : Task → Nat
  | .sweeping _ _ => 13
  | .placing _ _ _ => 12
  | .leaving _ _ | .looking _ _ => 11
  | .seeking _ => 10
  | .reusing _ => 9
  | .mapping _ => 8
  | .adding _ => 7
  | .got _ => 6
  | _ => 0

/-- What an act of a thread that gets a page of records does. -/
structure Serves (t : Task) (d : Depot ρ) (t' : Task) (d' : Depot ρ) : Prop where
  deals : Deals d.shelf d.arena.memory t.held.toList t.given d'.shelf d'.arena.memory t'.held.toList
    t'.given
  reserves : d.arena.memory.Reserves d.shelf.used.toList d'.arena.memory
  fetches : t'.Fetches d'.arena.memory
  less : 4 * d'.shelf.unswept.size + t'.rank < 4 * d.shelf.unswept.size + t.rank

variable {policy : Policy ρ} {t t' : Task} {d d' : Depot ρ} {aim : Aim} {id : PageId} {flag : Bool}
  {epoch : Int}

/-- An act that leaves the pages alone. -/
theorem Serves.of_pages (hpages : ∀ id, d'.arena.memory.page? id = d.arena.memory.page? id)
    (hstock : (d'.shelf.pages.toList ++ t'.held.toList).Perm
      (d.shelf.pages.toList ++ t.held.toList))
    (hused : ∃ added, d'.shelf.used.toList = d.shelf.used.toList ++ added ∧
      ∀ id, t'.given.count id ≤ t.given.count id + added.count id)
    (hempty : d'.shelf.empty.toList ⊆ d.shelf.empty.toList)
    (hunswept : d'.shelf.unswept.size ≤ d.shelf.unswept.size)
    (hfetches : t'.Fetches d'.arena.memory)
    (hless : 4 * d'.shelf.unswept.size + t'.rank < 4 * d.shelf.unswept.size + t.rank) :
    Serves t d t' d' :=
  ⟨.of_pages hpages hstock hused hempty hunswept, .of_pages hpages, hfetches, hless⟩

theorem serves_looking (hg : d.Good .records) :
    ∃ t' d', (act policy (.looking .records epoch)).apply d = (.ok t', d') ∧
      Serves (.looking .records epoch) d t' d' := by
  rw [act]
  rcases Depot.takeReady_room hg.whole (r := .records) trivial rfl with
    ⟨heq, -⟩ | ⟨i, id, heq, hlisted, hroom⟩
  · rw [Act.apply_bind_ok heq]
    refine ⟨_, _, rfl,
      .of_pages (fun _ => rfl) (.refl _) ⟨[], by simp, by simp [given]⟩ (List.Subset.refl _)
      (Nat.le_refl _) ⟨epoch, rfl⟩ ?_⟩
    simp [rank]
  · rw [Act.apply_bind_ok heq]
    refine ⟨_, _, rfl, .of_pages (fun _ => rfl) ?_ ⟨[id], by simp, fun _ => Nat.le_add_left _ _⟩
      (List.Subset.refl _) (Nat.le_refl _) hroom ?_⟩
    · exact (Depot.perm_takeReady hlisted).append_right _
    · simp [rank]

theorem serves_seeking (d : Depot ρ) (epoch : Int) :
    ∃ t' d', (act policy (.seeking (.room .records epoch))).apply d = (.ok t', d') ∧
      Serves (.seeking (.room .records epoch)) d t' d' := by
  rw [act]
  rcases Depot.unswept_cases d.shelf with hw | ⟨rest, id, hw⟩
  · rw [Act.apply_bind_ok (Depot.apply_takeUnswept_nil hw)]
    refine ⟨_, _, rfl,
      .of_pages (fun _ => rfl) (.refl _) ⟨[], by simp, by simp [given]⟩ (List.Subset.refl _)
      (Nat.le_refl _) rfl ?_⟩
    simp [rank]
  · rw [Act.apply_bind_ok (Depot.apply_takeUnswept_push hw)]
    refine ⟨_, _, rfl, .of_pages (fun _ => rfl) (List.perm_iff_count.mpr fun j => ?_)
      ⟨[], by simp, by simp [given]⟩ (List.Subset.refl _) ?_ ⟨epoch, rfl⟩ ?_⟩
    · simp only [held, Shelf.toList_pages, hw, Array.toList_push, List.count_append,
        Option.toList_none, Option.toList_some, List.count_nil]
      omega
    · simp [hw]
    · simp only [rank, hw, Array.size_push]
      omega

/-- The page that the thread sweeps is on no list. -/
theorem serves_sweeping (hid : d.arena.memory.Registers id) (hused : id ∉ d.shelf.used.toList) :
    ∃ t' d', (act policy (.sweeping (.room .records epoch) id)).apply d = (.ok t', d') ∧
      Serves (.sweeping (.room .records epoch) id) d t' d' := by
  obtain ⟨p, hp, hkey, hsound⟩ := hid
  have hkind : p.kind = .records := by rw [← p.key_kind, hkey]; rfl
  obtain ⟨hearings, p', a, hsweep, hsift, -⟩ :=
    Arena.sweepPage_spec policy hp hsound.whole (hsound.markable _)
  have hsound' : p'.Sound := hsift.swept.sound hsound (.inl (by simp [hkind]))
  have hkey' : p'.key = .records := hsift.swept.key_eq.trans hkey
  obtain ⟨fits, hfits⟩ := hsound'.whole.hasRoom_ok (r := .records) trivial hkey'
  have hroom : a.memory.hasRoom id 0 = .ok fits := (Memory.hasRoom_eq hsift.page?_self).trans hfits
  have hweigh : ((Aim.room .records epoch).weigh id (survivors hearings).isEmpty
      (countFates hearings)).apply ⟨d.shelf, a⟩ = (.ok (.placing (.room .records epoch) id fits),
        ⟨d.shelf, (a.addBytes (a.memory.allocatedBytes id)).2.reportSweep epoch .inline
          (countFates hearings)⟩) := by
    rw [Aim.weigh, Act.apply_get_bind]
    simp only [Request.records, hroom]
    rfl
  rw [act, Act.apply_bind_ok (Depot.apply_sweepPage hsweep)]
  refine ⟨_, _, hweigh, ⟨⟨none, by simp [held], by simp⟩, ⟨[], by simp, by simp [given]⟩,
    List.Subset.refl _, Nat.le_refl _, fun j q hq hqkey hqsound => ?_⟩,
    ⟨fun j q hq hj => ?_, fun r hr => ?_⟩, ⟨⟨epoch, rfl⟩, fun hflag => ?_⟩, ?_⟩
  · by_cases hne : j = id
    · subst hne
      exact ⟨p', hsift.page?_self, hkey', hsound', fun hheld => absurd (by simp [held]) hheld⟩
    · exact ⟨q, (hsift.page?_of_ne hkind hne).trans hq, hqkey, hqsound, fun _ _ => ⟨rfl, rfl⟩⟩
  · refine (hsift.page?_of_ne hkind ?_).trans hq
    rintro rfl
    rcases hj with hj | hj
    · exact hused hj
    · exact hj (by rwa [Option.some.inj (hq.symm.trans hp)])
  · by_cases hne : r.page = id
    · have hold : p.record? r.index = none := by simpa [Memory.record?, hne, hp] using hr
      have hnew := hsift.swept.record?_eq_none hsound hkind hsift.map_index hold
      change a.memory.record? r = none
      simp [Memory.record?, hne, hsift.page?_self, hnew]
    · exact (Memory.record?_congr (hsift.page?_of_ne hkind hne)).trans hr
  · exact hflag ▸ hroom
  · simp [rank]

theorem serves_placing (hroom : flag = true → d.arena.memory.hasRoom id 0 = .ok true) :
    ∃ t' d', (act policy (.placing (.room .records epoch) id flag)).apply d = (.ok t', d') ∧
      Serves (.placing (.room .records epoch) id flag) d t' d' := by
  refine ⟨.leaving (.room .records epoch) (if flag then some id else none),
    ⟨d.shelf.addUsed id, d.arena⟩,
    rfl, .of_pages (fun _ => rfl) (List.perm_iff_count.mpr fun j => ?_)
    ⟨[id], by simp [Shelf.addUsed], ?_⟩
    (List.Subset.refl _) (Nat.le_refl _) ⟨⟨epoch, rfl⟩, ?_⟩ ?_⟩
  · simp only [held, Shelf.toList_pages, Shelf.addUsed, Array.toList_push, List.count_append,
      Option.toList_none, Option.toList_some, List.count_nil]
    omega
  · cases flag <;> simp [given]
  · cases flag with
    | false => simp
    | true => simpa using hroom rfl
  · simp [rank, Shelf.addUsed]

theorem serves_leaving {result : Option PageId}
    (hroom : ∀ id ∈ result, d.arena.memory.hasRoom id 0 = .ok true) :
    ∃ t' d', (act policy (.leaving (.room .records epoch) result)).apply d = (.ok t', d') ∧
      Serves (.leaving (.room .records epoch) result) d t' d' := by
  cases result with
  | none =>
    refine ⟨_, _, rfl, .of_pages (fun _ => rfl) (.refl _) ⟨[], by simp, by simp [given]⟩
      (List.Subset.refl _) (Nat.le_refl _) ⟨epoch, rfl⟩ ?_⟩
    simp [rank]
  | some id =>
    refine ⟨_, _, rfl,
      .of_pages (fun _ => rfl) (.refl _) ⟨[], by simp, fun _ => Nat.le_add_right _ _⟩
      (List.Subset.refl _) (Nat.le_refl _) (hroom id rfl) ?_⟩
    simp [rank]

theorem serves_reusing (hg : d.Good .records) :
    ∃ t' d', (act policy (.reusing .records)).apply d = (.ok t', d') ∧
      Serves (.reusing .records) d t' d' := by
  rw [act]
  rcases Depot.takeEmpty_last d with ⟨-, heq⟩ | ⟨rest, id, hlisted, heq⟩
  · rw [Act.apply_bind_ok heq]
    refine ⟨_, _, rfl,
      .of_pages (fun _ => rfl) (.refl _) ⟨[], by simp, by simp [given]⟩ (List.Subset.refl _)
      (Nat.le_refl _) rfl ?_⟩
    simp [rank]
  · have hempty : id ∈ d.shelf.empty.toList := by simp [hlisted]
    obtain ⟨p, hp, hkey, hsound⟩ := hg.mapped id (Shelf.mem_pages.mpr (.inl hempty))
    have hroom :=
      hsound.whole.hasRoom_of_empty (r := .records) trivial hkey (hg.vacant id hempty p hp)
    rw [Act.apply_bind_ok heq]
    refine ⟨_, _, rfl, .of_pages (fun _ => rfl) ?_ ⟨[id], by simp, fun _ => Nat.le_add_left _ _⟩ ?_
      (Nat.le_refl _) ((Memory.hasRoom_eq hp).trans hroom) ?_⟩
    · exact (Depot.perm_takeEmpty hlisted).append_right _
    · simp [hlisted]
    · simp [rank]

theorem serves_mapping (d : Depot ρ) :
    ∃ t' d', (act policy (.mapping .records)).apply d = (.ok t', d') ∧
      Serves (.mapping .records) d t' d' := by
  obtain ⟨p, hcreate, hsound, hkey, hblocks, hslots⟩ := Page.create_sound (r := .records) trivial
  obtain ⟨hmap, hpages⟩ := Memory.page?_map (m := d.arena.memory) hcreate
  obtain ⟨shelf, ⟨memory, memo, meter, sweepers, found⟩⟩ := d
  have heq : (mapPage .records).apply (⟨shelf, ⟨memory, memo, meter, sweepers, found⟩⟩ : Depot ρ) =
      (.ok memory.pages.size,
        ⟨shelf, ⟨(memory.map .records).2, memo, meter, sweepers, found⟩⟩) := by
    simp only [mapPage, Act.apply, ExceptT.run, Arena.onMemory, hmap]
  have hnew : (memory.map .records).2.page? memory.pages.size = some p :=
    (Memory.page?_push hpages _).trans (if_pos rfl)
  have hold {j : PageId} {q : Page} (hq : memory.page? j = some q) :
      (memory.map .records).2.page? j = some q := by
    rw [Memory.page?_push hpages, if_neg (Memory.lt_of_page? hq).ne]
    exact hq
  have hnone : memory.page? memory.pages.size = none :=
    Option.eq_none_iff_forall_ne_some.mpr fun q hq => Nat.lt_irrefl _ (Memory.lt_of_page? hq)
  rw [act, Act.apply_bind_ok heq]
  refine ⟨.adding memory.pages.size, _, rfl,
    ⟨⟨some memory.pages.size, by simp [held], fun j hj => ?_⟩,
    ⟨[], by simp, by simp [given]⟩, List.Subset.refl _, Nat.le_refl _,
    fun j q hq hqkey hqsound => ⟨q, hold hq, hqkey, hqsound, fun _ _ => ⟨rfl, rfl⟩⟩⟩,
    ⟨fun j q hq _ => hold hq, fun r hr => ?_⟩, ?_, ?_⟩
  · obtain rfl := Option.some.inj hj
    exact ⟨hnone, p, hnew, hkey, hsound⟩
  · change (memory.map .records).2.record? r = none
    by_cases hne : r.page = memory.pages.size
    · simp [Memory.record?, hne, hnew, hslots]
    · refine (Memory.record?_congr ?_).trans hr
      rw [Memory.page?_push hpages, if_neg hne]
  · exact (Memory.hasRoom_eq hnew).trans
      (hsound.whole.hasRoom_of_empty (r := .records) trivial hkey hblocks)
  · simp [rank]

theorem serves_adding (hroom : d.arena.memory.hasRoom id 0 = .ok true) :
    ∃ t' d', (act policy (.adding id)).apply d = (.ok t', d') ∧ Serves (.adding id) d t' d' := by
  refine ⟨.got id, ⟨d.shelf.addUsed id, d.arena⟩, rfl, .of_pages (fun _ => rfl)
    (List.perm_iff_count.mpr fun j => ?_)
    ⟨[id], by simp [Shelf.addUsed], fun _ => Nat.le_add_left _ _⟩
    (List.Subset.refl _) (Nat.le_refl _) hroom ?_⟩
  · simp only [held, Shelf.toList_pages, Shelf.addUsed, Array.toList_push, List.count_append,
      Option.toList_none, Option.toList_some, List.count_nil]
    omega
  · simp [rank, Shelf.addUsed]

/-- A thread that gets a page of records never fails, and comes closer to a page with room at each
act. -/
theorem serves_act (policy : Policy ρ) (hg : d.Good .records)
    (hheld : ∀ id ∈ t.held, d.arena.memory.Registers id ∧ id ∉ d.shelf.used.toList)
    (ht : t.Fetches d.arena.memory) (hgot : ∀ id, t ≠ .got id) :
    ∃ t' d', (t.act policy).apply d = (.ok t', d') ∧ Serves t d t' d' := by
  cases t with
  | looking r epoch =>
    obtain rfl : r = .records := ht
    exact serves_looking hg
  | seeking aim =>
    obtain ⟨epoch, rfl⟩ := ht
    exact serves_seeking d epoch
  | sweeping aim id =>
    obtain ⟨epoch, rfl⟩ := ht
    obtain ⟨hid, hused⟩ := hheld id rfl
    exact serves_sweeping hid hused
  | placing aim id flag =>
    obtain ⟨⟨epoch, rfl⟩, hroom⟩ := ht
    exact serves_placing hroom
  | leaving aim result =>
    obtain ⟨⟨epoch, rfl⟩, hroom⟩ := ht
    exact serves_leaving hroom
  | reusing r =>
    obtain rfl : r = .records := ht
    exact serves_reusing hg
  | mapping r =>
    obtain rfl : r = .records := ht
    exact serves_mapping d
  | adding id => exact serves_adding ht
  | got id => exact absurd rfl (hgot id)
  | idle => exact ht.elim
  | counted tally => exact ht.elim
  | stuck fault page => exact ht.elim

end Task

end SweptHeap
