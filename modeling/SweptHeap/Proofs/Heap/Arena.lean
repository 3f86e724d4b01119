import Mathlib
import SweptHeap.Arena
import SweptHeap.Proofs.Heap.Memory

/-!
# Sweeping a page in the arena

While a page is away to be swept, the policy may raise flags on records of other pages. `Sifts` says
all that a sweep of one page does, up to the meter, the reports and the count of sweeps.
-/

namespace SweptHeap.Arena

variable {ρ : Type} {policy : Policy ρ} {id : PageId} {a a' a'' : Arena ρ}

/-- The arenas differ at most in their counters and reports. -/
structure Same (a a' : Arena ρ) : Prop where
  pages_eq : a'.memory.pages = a.memory.pages
  memo_eq : a'.memo = a.memo
  found_eq : a'.found = a.found

theorem Same.refl (a : Arena ρ) : Same a a := ⟨rfl, rfl, rfl⟩

theorem Same.trans (h : Same a a') (h' : Same a' a'') : Same a a'' :=
  ⟨h'.pages_eq.trans h.pages_eq, h'.memo_eq.trans h.memo_eq, h'.found_eq.trans h.found_eq⟩

theorem Same.page? (h : Same a a') (id : PageId) : a'.memory.page? id = a.memory.page? id :=
  Memory.page?_congr h.pages_eq id

/-! ### Questions -/

/-- The flags that a policy sees of a block. -/
def flagsOf (m : Memory) (record : Option BlockRef) : Option Flags :=
  record.bind fun r => (m.record? r).map (·.flags)

/-- The question about a block, as the page and the records stand. -/
def questionOf (id : PageId) (s : Sight) (m : Memory) : Question :=
  ⟨⟨id, s.index⟩, s.marked, flagsOf m s.record⟩

theorem ask_eq (policy : Policy ρ) (id : PageId) (s : Sight) (a : Arena ρ) :
    a.ask policy id s =
      let (verdict, memo) := policy.judge (questionOf id s a.memory) a.memo
      (⟨verdict.fate, verdict.unmark⟩, { a with
        memo := memo
        memory := match s.record with
          | none => a.memory
          | some r =>
            if verdict.raised = .none then a.memory else a.memory.raise r verdict.raised }) :=
  rfl

/-- Asking about a block changes no more than records. -/
theorem ask_amends (policy : Policy ρ) (id : PageId) (s : Sight) (a : Arena ρ) :
    a.memory.Amends (a.ask policy id s).2.memory ∧ (a.ask policy id s).2.found = a.found := by
  rw [ask_eq]
  refine ⟨?_, rfl⟩
  cases s.record with
  | none => exact .refl _
  | some r =>
    dsimp only
    split_ifs
    · exact .refl _
    · exact a.memory.amends_modifyRecord r _

theorem asks_amends (policy : Policy ρ) (id : PageId) (p : Page) (s : Sight) (a : Arena ρ) :
    a.memory.Amends (p.asks (ask policy id) (askRecord policy id) s a).2.memory ∧
      (p.asks (ask policy id) (askRecord policy id) s a).2.found = a.found := by
  cases p with
  | uniform q => exact ask_amends policy id s a
  | tiled q => exact ask_amends policy id s a
  | large q => exact ask_amends policy id s a
  | records q =>
    simp only [Page.asks, RecordPage.askSlot]
    cases RecordPage.recordAt q.slots s.index with
    | none => exact ⟨.refl _, rfl⟩
    | some record => exact ⟨.refl _, rfl⟩

theorem hear_amends {p : Page} {sights : List Sight} {hearings : List Hearing} {b c : Arena ρ}
    (h : hear (p.asks (ask policy id) (askRecord policy id)) sights b = (hearings, c)) :
    b.memory.Amends c.memory ∧ c.found = b.found := by
  induction sights generalizing b hearings with
  | nil =>
    obtain ⟨-, rfl⟩ := Prod.mk.inj h
    exact ⟨.refl _, rfl⟩
  | cons s rest ih =>
    obtain ⟨r, b₁, tail, hask, htail, -⟩ := hear_cons h
    have hone := asks_amends policy id p s b
    rw [hask] at hone
    have hrest := ih htail
    exact ⟨hone.1.trans hrest.1, hrest.2.trans hone.2⟩

theorem asks_meter (policy : Policy ρ) (id : PageId) (p : Page) (s : Sight) (a : Arena ρ) :
    (p.asks (ask policy id) (askRecord policy id) s a).2.meter = a.meter := by
  cases p with
  | uniform q => rfl
  | tiled q => rfl
  | large q => rfl
  | records q =>
    simp only [Page.asks, RecordPage.askSlot]
    cases RecordPage.recordAt q.slots s.index <;> rfl

theorem hear_meter {p : Page} {sights : List Sight} {hearings : List Hearing} {b c : Arena ρ}
    (h : hear (p.asks (ask policy id) (askRecord policy id)) sights b = (hearings, c)) :
    c.meter = b.meter := by
  induction sights generalizing b hearings with
  | nil =>
    obtain ⟨-, rfl⟩ := Prod.mk.inj h
    rfl
  | cons s rest ih =>
    obtain ⟨r, b₁, tail, hask, htail, -⟩ := hear_cons h
    have hone := asks_meter policy id p s b
    rw [hask] at hone
    exact (ih htail).trans hone

/-! ### Sweeps -/

/-- The page `p` in the place of `id` was swept, with these hearings, and became `p'`. -/
structure Sifts (policy : Policy ρ) (id : PageId) (p : Page) (hearings : List Hearing) (p' : Page)
    (a a' : Arena ρ) : Prop where
  page_eq : a.memory.page? id = some p
  swept : p.SweptTo hearings p'
  heard : ∃ b c : Arena ρ, b.memory.pages = (a.memory.setPage id none).pages ∧ b.memo = a.memo ∧
    hear (p.asks (ask policy id) (askRecord policy id)) p.sights b = (hearings, c) ∧
    a'.memory.pages = (c.memory.setPage id (some p')).pages ∧ a'.memo = c.memo
  found_eq : a'.found.toList = a.found.toList ++ (toFinalize hearings).map (⟨id, ·⟩)

namespace Sifts

variable {p p' : Page} {hearings : List Hearing}

theorem congr {b b' : Arena ρ} (h : Sifts policy id p hearings p' a a') (hs : Same b a)
    (hs' : Same a' b') : Sifts policy id p hearings p' b b' := by
  obtain ⟨x, y, hx, hmemo, hhear, hy, hmemo'⟩ := h.heard
  refine ⟨(hs.page? id).symm.trans h.page_eq, h.swept,
    ⟨x, y, ?_, hmemo.trans hs.memo_eq, hhear, hs'.pages_eq.trans hy, hs'.memo_eq.trans hmemo'⟩, ?_⟩
  · rw [hx, Memory.setPage, Memory.setPage, hs.pages_eq]
  · rw [hs'.found_eq, h.found_eq, hs.found_eq]

theorem size_eq (h : Sifts policy id p hearings p' a a') :
    a'.memory.pages.size = a.memory.pages.size := by
  obtain ⟨b, c, hb, -, hhear, hc, -⟩ := h.heard
  have hamends := (hear_amends hhear).1
  rw [hc, Memory.size_setPage, hamends.size_eq, hb, Memory.size_setPage]

theorem page?_self (h : Sifts policy id p hearings p' a a') : a'.memory.page? id = some p' := by
  obtain ⟨b, c, hb, -, hhear, hc, -⟩ := h.heard
  have hamends := (hear_amends hhear).1
  have hid : id < c.memory.pages.size := by
    rw [hamends.size_eq, hb, Memory.size_setPage]
    exact Memory.lt_of_page? h.page_eq
  rw [Memory.page?_congr hc, Memory.page?_setPage hid, if_pos rfl]

theorem others (h : Sifts policy id p hearings p' a a') {j : PageId} (hj : j ≠ id) :
    Option.Rel Page.Alike (a.memory.page? j) (a'.memory.page? j) := by
  obtain ⟨b, c, hb, -, hhear, hc, -⟩ := h.heard
  have hamends := (hear_amends hhear).1
  have hid : id < a.memory.pages.size := Memory.lt_of_page? h.page_eq
  have hid' : id < c.memory.pages.size := by
    rw [hamends.size_eq, hb, Memory.size_setPage]
    exact hid
  have hpages := hamends.pages j
  rw [Memory.page?_congr hb, Memory.page?_setPage hid, if_neg hj] at hpages
  rw [Memory.page?_congr hc, Memory.page?_setPage hid', if_neg hj]
  exact hpages

theorem map_index (h : Sifts policy id p hearings p' a a') :
    hearings.map (·.1.index) = p.blocks.toList := by
  obtain ⟨b, c, -, -, hhear, -, -⟩ := h.heard
  rw [← p.map_index_sights, ← map_fst_of_hear hhear]
  simp

end Sifts

theorem toList_foldl_push (id : PageId) (queued : List Nat) (items : Array BlockRef) :
    (queued.foldl (fun items index => items.push ⟨id, index⟩) items).toList =
      items.toList ++ queued.map (⟨id, ·⟩) := by
  induction queued generalizing items with
  | nil => simp
  | cons i rest ih => simp

theorem sweepPage_spec {p : Page} (policy : Policy ρ) (hp : a.memory.page? id = some p)
    (hs : p.Whole) (hmark : p.Markable (ask policy id)) :
    ∃ hearings p' a', a.sweepPage policy id =
        (.ok ((survivors hearings).isEmpty, countFates hearings), a') ∧
      Sifts policy id p hearings p' a a' ∧ a'.meter = a.meter := by
  obtain ⟨memory, memo, meter, sweepers, found⟩ := a
  obtain ⟨hearings, c, p', hhear, hswept, hsweep⟩ :=
    hs.sweep (ask policy id) hmark (askRecord policy id)
    ⟨memory.setPage id none, memo, meter, sweepers, found⟩
  have hfound := (hear_amends hhear).2
  have hmeter := hear_meter hhear
  obtain ⟨memory', memo', meter', sweepers', ⟨items⟩⟩ := c
  refine ⟨hearings, p', ⟨memory'.restore id p', memo', meter', sweepers',
    ⟨(toFinalize hearings).foldl (fun items index => items.push ⟨id, index⟩) items⟩⟩,
    ?_, ⟨hp, hswept, ⟨⟨memory.setPage id none, memo, meter, sweepers, found⟩,
      ⟨memory', memo', meter', sweepers', ⟨items⟩⟩, rfl, rfl, hhear, rfl, rfl⟩, ?_⟩, hmeter⟩
  · simp only [sweepPage, Memory.borrow_eq, show memory.page? id = some p from hp, hsweep]
    simp
  · simp only [Handoff.toList] at hfound ⊢
    rw [toList_foldl_push, ← hfound]

end SweptHeap.Arena
