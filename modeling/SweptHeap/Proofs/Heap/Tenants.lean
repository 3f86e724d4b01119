import Mathlib
import SweptHeap.Heap.Traverse
import SweptHeap.Proofs.Heap.Allocation

/-!
# The blocks and records of a heap

What can be seen of a heap from outside: its blocks and records (`tenantsOn`), the cells of a block
(`content`), what a record says, which pages wait for the sweep, and the blocks on their way to
their finalizers (`due`). A step of housekeeping either changes none of this (`Quiet`) or sweeps one
page that was waiting (`Sweeps`).
-/

namespace SweptHeap

/-- A block or a record. -/
inductive Tenant where
  | block (b : BlockRef)
  | record (r : BlockRef)
  deriving DecidableEq

def Tenant.ref : Tenant → BlockRef
  | block b => b
  | record r => r

@[simp] theorem Tenant.ref_block (b : BlockRef) : (block b).ref = b := rfl

@[simp] theorem Tenant.ref_record (r : BlockRef) : (record r).ref = r := rfl

/-- What is at index `i` of a page of this kind. -/
def PageKind.tenant (kind : PageKind) (id : PageId) (i : Nat) : Tenant :=
  match kind with
  | .records => .record ⟨id, i⟩
  | _ => .block ⟨id, i⟩

@[simp] theorem PageKind.ref_tenant (kind : PageKind) (id : PageId) (i : Nat) :
    (kind.tenant id i).ref = ⟨id, i⟩ := by
  cases kind <;> rfl

theorem PageKind.tenant_inj {kind : PageKind} {id : PageId} {i j : Nat} :
    kind.tenant id i = kind.tenant id j ↔ i = j :=
  ⟨fun h => by simpa using congrArg Tenant.ref h, fun h => by rw [h]⟩

theorem PageKind.tenant_of_ne {kind : PageKind} (h : kind ≠ .records) (id : PageId) (i : Nat) :
    kind.tenant id i = .block ⟨id, i⟩ := by
  cases kind with
  | records => exact absurd rfl h
  | uniform => rfl
  | tiled => rfl
  | large => rfl

namespace Page

variable {p p' : Page} {i j k : Nat}

def tenants (p : Page) (id : PageId) : List Tenant := p.blocks.toList.map (p.kind.tenant id)

/-- The cells of the block at index `i`. -/
def content (p : Page) (i : Nat) : List Cell :=
  (List.range (p.blockCells i)).map fun k => p.cells.getD (i + k) .zero

theorem kind_eq_of_key (h : p'.key = p.key) : p'.kind = p.kind := by
  rw [← p'.key_kind, h, p.key_kind]

@[simp] theorem length_content (p : Page) (i : Nat) : (p.content i).length = p.blockCells i := by
  simp [content]

theorem content_congr (hextent : p'.blockCells i = p.blockCells i)
    (hcells : ∀ k < p.blockCells i, p'.cells[i + k]? = p.cells[i + k]?) :
    p'.content i = p.content i := by
  rw [content, content, hextent]
  refine List.map_congr_left fun k hk => ?_
  rw [Array.getD_eq_getD_getElem?, Array.getD_eq_getD_getElem?, hcells k (List.mem_range.mp hk)]

/-- One cell of the block has changed. -/
theorem content_set {c : Cell} (hextent : p'.blockCells i = p.blockCells i)
    (hcells : ∀ k' < p.blockCells i, p'.cells[i + k']? =
      if k' = k then some c else p.cells[i + k']?) :
    p'.content i = (p.content i).set k c := by
  refine List.ext_getElem (by simp [hextent]) fun n hn hn' => ?_
  replace hn : n < p.blockCells i := by simpa [hextent] using hn
  simp only [content, List.getElem_map, List.getElem_range, List.getElem_set,
    Array.getD_eq_getD_getElem?, hcells n hn]
  by_cases hk : k = n
  · simp [hk]
  · simp [hk, Ne.symm hk]

theorem Alike.content_eq (h : p.Alike p') (i : Nat) : p'.content i = p.content i :=
  content_congr (h.extent_eq i) fun _ _ => by rw [h.cells_eq]

theorem Alike.tenants_eq (h : p.Alike p') (id : PageId) : p'.tenants id = p.tenants id := by
  rw [tenants, tenants, h.blocks_eq, h.kind_eq]

theorem Keeps.content_eq (h : p.Keeps p') (i : Nat) : p'.content i = p.content i :=
  content_congr (h.extent_eq i) fun _ _ => by rw [h.cells_eq]

theorem Keeps.tenants_eq (h : p.Keeps p') (id : PageId) : p'.tenants id = p.tenants id := by
  rw [tenants, tenants, h.blocks_eq, kind_eq_of_key h.key_eq]

theorem Grown.content_eq (h : p.Grown i p') (hj : j ∈ p.blocks.toList) :
    p'.content j = p.content j :=
  content_congr (h.kept j hj).1 (h.kept j hj).2

theorem Gives.content_eq {n : Nat} (h : p.Gives n i p') :
    p'.content i = List.replicate n .zero := by
  refine List.ext_getElem (by simp [h.extent]) fun k hk _ => ?_
  have hzero := h.zero k (by simpa [h.extent] using hk)
  simp [content, hzero]

theorem Written.content_eq {c : Cell} (h : p.Written (i + k) c p') (hs : p.Sound)
    (hi : i ∈ p.blocks.toList) (hk : k < p.blockCells i) (hj : j ∈ p.blocks.toList) :
    p'.content j = if j = i then (p.content i).set k c else p.content j := by
  split_ifs with he
  · subst he
    refine content_set (h.extent_eq j hj) fun k' _ => ?_
    rw [h.cells_eq]
    simp
  · refine content_congr (h.extent_eq j hj) fun k' hk' => ?_
    rw [h.cells_eq, if_neg]
    have := hs.blocks_apart hj hi he
    omega

/-- A spared block keeps its cells, but for the mark if that is cleared. -/
theorem SweptTo.content_eq {hearings : List Hearing} (h : p.SweptTo hearings p') {x : Hearing}
    (hx : x ∈ hearings) (hs : x.2.spares) : p'.content x.1.index =
      if x.2.unmark then (p.content x.1.index).set 0 .zero else p.content x.1.index := by
  obtain ⟨hextent, hcells, -⟩ := h.kept x hx hs
  split_ifs with hu
  · refine content_set hextent fun k hk => ?_
    simpa [hu] using hcells k hk
  · refine content_congr hextent fun k hk => ?_
    simpa [hu] using hcells k hk

/-- In a sound page, the records there are make up its tenants. -/
theorem Sound.record_iff (h : p.Sound) (id : PageId) :
    (∃ record, p.record? i = some record) ↔ Tenant.record ⟨id, i⟩ ∈ p.tenants id := by
  cases p with
  | records q =>
    obtain ⟨free, hq⟩ := h
    change (∃ record, q.record? i = some record) ↔ _
    rw [← hq.mem_blocks]
    simp [tenants, kind, PageKind.tenant, blocks]
  | uniform q => simp [record?, tenants, kind, PageKind.tenant]
  | tiled q => simp [record?, tenants, kind, PageKind.tenant]
  | large q => simp [record?, tenants, kind, PageKind.tenant]

theorem Sound.tenants_nodup (h : p.Sound) (id : PageId) : (p.tenants id).Nodup :=
  h.blocks_nodup.map fun _ _ he => PageKind.tenant_inj.mp he

end Page

namespace Heap

variable {ρ : Type} {policy : Policy ρ} {h h' h'' : Heap ρ} {k r : Request}
  {id : PageId} {p p' : Page} {b : BlockRef} {t : Tenant}

def tenantsOn (h : Heap ρ) (id : PageId) : List Tenant :=
  (h.arena.memory.page? id).elim [] (·.tenants id)

/-- The block or record is allocated. -/
def Holds (h : Heap ρ) (t : Tenant) : Prop := t ∈ h.tenantsOn t.ref.page

/-- The cells of an allocated block. -/
def content (h : Heap ρ) (b : BlockRef) : List Cell :=
  (h.arena.memory.page? b.page).elim [] (·.content b.index)

def record? (h : Heap ρ) (r : BlockRef) : Option Record := h.arena.memory.record? r

/-- The page waits for the sweep. -/
def Waiting (h : Heap ρ) (id : PageId) : Prop :=
  ∃ k ∈ allRequests, id ∈ (h.shelf k).unswept.toList

/-- Blocks on their way to their finalizers: those handed over, then those that sweeps found
since. -/
def due (h : Heap ρ) : List BlockRef := h.pending.toList ++ h.arena.found.toList

theorem tenantsOn_eq (hp : h.arena.memory.page? id = some p) : h.tenantsOn id = p.tenants id := by
  rw [tenantsOn, hp]
  rfl

theorem content_eq (hp : h.arena.memory.page? b.page = some p) :
    h.content b = p.content b.index := by
  rw [content, hp]
  rfl

theorem record?_eq (hp : h.arena.memory.page? b.page = some p) :
    h.record? b = p.record? b.index := by
  rw [record?, Memory.record?, hp]
  rfl

theorem ref_of_mem (ht : t ∈ h.tenantsOn id) : t.ref.page = id := by
  rw [tenantsOn] at ht
  cases hp : h.arena.memory.page? id with
  | none => simp [hp] at ht
  | some p =>
    rw [hp] at ht
    obtain ⟨i, -, rfl⟩ := List.mem_map.mp ht
    simp

theorem holds_iff : h.Holds t ↔ ∃ p, h.arena.memory.page? t.ref.page = some p ∧
    t = p.kind.tenant t.ref.page t.ref.index ∧ t.ref.index ∈ p.blocks.toList := by
  rw [Holds, tenantsOn]
  cases hp : h.arena.memory.page? t.ref.page with
  | none => simp
  | some p =>
    simp only [Option.elim_some, Page.tenants, List.mem_map, Option.some.injEq, exists_eq_left']
    constructor
    · rintro ⟨i, hi, he⟩
      obtain rfl : i = t.ref.index := by simpa using congrArg (fun t => t.ref.index) he
      exact ⟨he.symm, hi⟩
    · rintro ⟨he, hi⟩
      exact ⟨t.ref.index, hi, he.symm⟩

/-- An allocated block is on a page of blocks. -/
theorem holds_block : h.Holds (.block b) ↔ ∃ p, h.arena.memory.page? b.page = some p ∧
    p.kind ≠ .records ∧ b.index ∈ p.blocks.toList := by
  have hkind (p : Page) : Tenant.block b = p.kind.tenant b.page b.index ↔ p.kind ≠ .records := by
    cases p.kind <;> simp [PageKind.tenant]
  simp only [holds_iff, Tenant.ref_block, hkind]

theorem holds_record : h.Holds (.record b) ↔ ∃ p, h.arena.memory.page? b.page = some p ∧
    p.kind = .records ∧ b.index ∈ p.blocks.toList := by
  have hkind (p : Page) : Tenant.record b = p.kind.tenant b.page b.index ↔ p.kind = .records := by
    cases p.kind <;> simp [PageKind.tenant]
  simp only [holds_iff, Tenant.ref_record, hkind]

/-- Work on pages of records leaves blocks alone. -/
theorem Spares.block (hspares : h.Spares .records h') (hheld : h.Holds (.block b)) :
    h'.Holds (.block b) ∧ h'.content b = h.content b ∧
      h'.arena.memory.recordOf b = h.arena.memory.recordOf b := by
  obtain ⟨p, hp, hkind, hindex⟩ := holds_block.mp hheld
  obtain ⟨p', hp', hab⟩ := hspares _ p hp fun hkey => hkind (by rw [← p.key_kind, hkey]; rfl)
  refine ⟨holds_block.mpr ⟨p', hp', hab.kind_eq ▸ hkind, hab.blocks_eq ▸ hindex⟩, ?_, ?_⟩
  · rw [content_eq hp', content_eq hp, hab.content_eq]
  · rw [Memory.recordOf, Memory.recordOf, Memory.cell, Memory.cell]
    change Cell.toLink ((h'.arena.memory.page? b.page).elim _ _) =
      Cell.toLink ((h.arena.memory.page? b.page).elim _ _)
    rw [hp', hp]
    simp [hab.cells_eq]

theorem Sound.tenantsOn_nodup (hs : h.Sound) (id : PageId) : (h.tenantsOn id).Nodup := by
  rw [tenantsOn]
  cases hp : h.arena.memory.page? id with
  | none => exact List.nodup_nil
  | some p => exact (hs.page_sound hp).tenants_nodup id

/-- What records there are, are allocated. -/
theorem Sound.record_iff (hs : h.Sound) (r : BlockRef) :
    (∃ record, h.record? r = some record) ↔ h.Holds (.record r) := by
  rw [Holds, tenantsOn, record?, Memory.record?]
  change _ ↔ Tenant.record r ∈ (h.arena.memory.page? r.page).elim _ _
  cases hp : h.arena.memory.page? r.page with
  | none => simp
  | some p => exact (hs.page_sound hp).record_iff r.page

theorem not_waiting_iff : (∀ id, ¬h.Waiting id) ↔ ∀ k ∈ allRequests, (h.shelf k).unswept = #[] := by
  constructor
  · intro hnone k hk
    rw [← Array.toList_eq_nil_iff, List.eq_nil_iff_forall_not_mem]
    exact fun id hid => hnone id ⟨k, hk, hid⟩
  · rintro hempty id ⟨k, hk, hid⟩
    rw [hempty k hk] at hid
    cases hid

/-- A page waits on the shelf that it belongs on. -/
theorem Sound.waiting_iff (hs : h.Sound) (hp : h.arena.memory.page? id = some p) :
    h.Waiting id ↔ id ∈ (h.shelf p.key).unswept.toList := by
  refine ⟨fun ⟨k, hk, hid⟩ => ?_, fun hid => ⟨p.key, (hs.placed id p hp).1, hid⟩⟩
  obtain ⟨q, hq, hkey, -⟩ := hs.key_of_mem hk (Shelf.mem_pages.mpr (.inr (.inr (.inr hid))))
  rwa [Option.some.inj (hp.symm.trans hq), hkey]

theorem Sound.not_waiting_of_used (hs : h.Sound) (hp : h.arena.memory.page? id = some p)
    (hused : id ∈ (h.shelf p.key).used.toList) : ¬h.Waiting id := by
  rw [hs.waiting_iff hp]
  intro hid
  have hcount := List.nodup_iff_count_le_one.mp (hs.good _ (hs.placed id p hp).1).nodup id
  have hone := List.count_pos_iff.mpr hused
  have htwo := List.count_pos_iff.mpr hid
  simp only [depot, Shelf.toList_pages, List.count_append] at hcount
  omega

/-- The same blocks and records, with the same pages waiting and the same finalizers due. -/
structure Steady (h h' : Heap ρ) : Prop where
  tenants_eq : ∀ id, h'.tenantsOn id = h.tenantsOn id
  waiting_iff : ∀ id, h'.Waiting id ↔ h.Waiting id
  memo_eq : h'.arena.memo = h.arena.memo
  due_eq : h'.due = h.due

/-- Nothing to be seen has changed. -/
structure Quiet (h h' : Heap ρ) : Prop extends Steady h h' where
  content_eq : ∀ b, h.Holds (.block b) → h'.content b = h.content b
  record_eq : ∀ r, h'.record? r = h.record? r

/-- The page `p` at `id` no longer waits: it was swept with these hearings. -/
structure Sweeps (policy : Policy ρ) (id : PageId) (p : Page) (hearings : List Hearing)
    (h h' : Heap ρ) : Prop where
  page_eq : h.arena.memory.page? id = some p
  waiting : h.Waiting id
  waiting_iff : ∀ j, h'.Waiting j ↔ h.Waiting j ∧ j ≠ id
  tenants_self : h'.tenantsOn id = (survivors hearings).map (p.kind.tenant id)
  tenants_other : ∀ j ≠ id, h'.tenantsOn j = h.tenantsOn j
  content_self : ∀ x ∈ hearings, x.2.spares → h'.content ⟨id, x.1.index⟩ =
    if x.2.unmark then (h.content ⟨id, x.1.index⟩).set 0 .zero else h.content ⟨id, x.1.index⟩
  content_other : ∀ b, b.page ≠ id → h'.content b = h.content b
  record_self : ∀ x ∈ hearings, x.2.spares →
    h'.record? ⟨id, x.1.index⟩ = h.record? ⟨id, x.1.index⟩
  heard : ∃ a c : Arena ρ,
    (∀ j, a.memory.page? j = if j = id then none else h.arena.memory.page? j) ∧
    a.memo = h.arena.memo ∧
    hear (p.asks (Arena.ask policy id) (Arena.askRecord policy id)) p.sights a = (hearings, c) ∧
    h'.arena.memo = c.memo ∧ ∀ r, r.page ≠ id → h'.record? r = c.memory.record? r
  due_eq : h'.due = h.due ++ (toFinalize hearings).map (⟨id, ·⟩)

theorem Steady.refl (h : Heap ρ) : Steady h h := ⟨fun _ => rfl, fun _ => Iff.rfl, rfl, rfl⟩

theorem Steady.trans (hq : Steady h h') (hq' : Steady h' h'') : Steady h h'' :=
  ⟨fun id => (hq'.tenants_eq id).trans (hq.tenants_eq id),
    fun id => (hq'.waiting_iff id).trans (hq.waiting_iff id), hq'.memo_eq.trans hq.memo_eq,
    hq'.due_eq.trans hq.due_eq⟩

theorem Quiet.refl (h : Heap ρ) : Quiet h h := ⟨.refl h, fun _ _ => rfl, fun _ => rfl⟩

theorem Steady.holds_iff (hq : Steady h h') (t : Tenant) : h'.Holds t ↔ h.Holds t := by
  rw [Holds, Holds, hq.tenants_eq]

/-! ### What housekeeping can be seen to do -/

theorem waiting_setDepot (hs : h.Sound) (hk : k ∈ allRequests) (d : Depot ρ) (j : PageId) :
    (h.setDepot k d).Waiting j ↔ j ∈ d.shelf.unswept.toList ∨
      ∃ k' ∈ allRequests, k' ≠ k ∧ j ∈ (h.shelf k').unswept.toList := by
  constructor
  · rintro ⟨k', hk', hj⟩
    rw [shelf_setDepot hs.size_eq hk hk'] at hj
    split_ifs at hj with he
    · exact .inl hj
    · exact .inr ⟨k', hk', he, hj⟩
  · rintro (hj | ⟨k', hk', he, hj⟩)
    · exact ⟨k, hk, by rwa [shelf_setDepot hs.size_eq hk hk, if_pos rfl]⟩
    · exact ⟨k', hk', by rwa [shelf_setDepot hs.size_eq hk hk', if_neg he]⟩

theorem waiting_setDepot_of_eq (hs : h.Sound) (hk : k ∈ allRequests) {d : Depot ρ}
    (hu : d.shelf.unswept = (h.shelf k).unswept) (j : PageId) :
    (h.setDepot k d).Waiting j ↔ h.Waiting j := by
  rw [waiting_setDepot hs hk, hu]
  constructor
  · rintro (hj | ⟨k', hk', -, hj⟩)
    · exact ⟨k, hk, hj⟩
    · exact ⟨k', hk', hj⟩
  · rintro ⟨k', hk', hj⟩
    by_cases he : k' = k
    · exact .inl (he ▸ hj)
    · exact .inr ⟨k', hk', he, hj⟩

/-- The last unswept page of a shelf is taken off. -/
theorem waiting_setDepot_pop (hs : h.Sound) (hk : k ∈ allRequests) {d : Depot ρ}
    {rest : Array PageId} (hw : (h.shelf k).unswept = rest.push id) (hu : d.shelf.unswept = rest)
    (j : PageId) : (h.setDepot k d).Waiting j ↔ h.Waiting j ∧ j ≠ id := by
  have hnot : id ∉ rest.toList := ((hs.good k hk).not_mem_of_waiting hw).2.2.2
  have hid : id ∈ (h.shelf k).pages.toList := Shelf.mem_pages.mpr (by simp [hw])
  obtain ⟨p, hp, hkey, -⟩ := hs.key_of_mem hk hid
  rw [waiting_setDepot hs hk, hu]
  constructor
  · rintro (hj | ⟨k', hk', hne, hj⟩)
    · refine ⟨⟨k, hk, by simp only [hw, Array.toList_push, List.mem_append, hj, true_or]⟩, ?_⟩
      rintro rfl
      exact hnot hj
    · refine ⟨⟨k', hk', hj⟩, ?_⟩
      rintro rfl
      obtain ⟨q, hq, hqkey, -⟩ := hs.key_of_mem hk' (Shelf.mem_pages.mpr (.inr (.inr (.inr hj))))
      exact hne (hqkey.symm.trans (Option.some.inj (hq.symm.trans hp) ▸ hkey))
  · rintro ⟨⟨k', hk', hj⟩, hne⟩
    by_cases he : k' = k
    · subst he
      rw [hw, Array.toList_push] at hj
      exact .inl (by simpa [hne] using hj)
    · exact .inr ⟨k', hk', he, hj⟩

/-- The pages have not changed. -/
theorem quiet_of_pages (hpages : ∀ j, h'.arena.memory.page? j = h.arena.memory.page? j)
    (hwaiting : ∀ j, h'.Waiting j ↔ h.Waiting j) (hmemo : h'.arena.memo = h.arena.memo)
    (hdue : h'.due = h.due) : Quiet h h' :=
  ⟨⟨fun j => by rw [tenantsOn, tenantsOn, hpages], hwaiting, hmemo, hdue⟩,
    fun b _ => by rw [content, content, hpages],
    fun r => by rw [record?, record?, Memory.record?, Memory.record?, hpages]⟩

/-- A page without a block has come or gone. -/
theorem quiet_of_vacant (id : PageId) (hs : h.Sound) (hs' : h'.Sound)
    (hother : ∀ j ≠ id, h'.arena.memory.page? j = h.arena.memory.page? j)
    (hvacant : h.tenantsOn id = []) (hvacant' : h'.tenantsOn id = [])
    (hwaiting : ∀ j, h'.Waiting j ↔ h.Waiting j) (hmemo : h'.arena.memo = h.arena.memo)
    (hdue : h'.due = h.due) : Quiet h h' := by
  refine ⟨⟨fun j => ?_, hwaiting, hmemo, hdue⟩, fun b hb => ?_, fun r => ?_⟩
  · by_cases hj : j = id
    · rw [hj, hvacant, hvacant']
    · rw [tenantsOn, tenantsOn, hother j hj]
  · have hj : b.page ≠ id := fun he => by
      rw [Holds, Tenant.ref_block, he, hvacant] at hb
      cases hb
    rw [content, content, hother _ hj]
  · by_cases hj : r.page = id
    · have hnone {g : Heap ρ} (hg : g.Sound) (hv : g.tenantsOn id = []) : g.record? r = none := by
        cases hrec : g.record? r with
        | none => rfl
        | some record =>
          have hheld := (hg.record_iff r).mp ⟨record, hrec⟩
          rw [Holds, Tenant.ref_record, hj, hv] at hheld
          cases hheld
      rw [hnone hs hvacant, hnone hs' hvacant']
    · rw [record?, record?, Memory.record?, Memory.record?, hother _ hj]

/-- A sweep in the arena, as seen from the heap. -/
theorem sweeps_of_sifts {hearings : List Hearing} {a : Arena ρ}
    (hsift : Arena.Sifts policy id p hearings p' h.arena a) (hwaiting : h.Waiting id)
    (hwaiting' : ∀ j, h'.Waiting j ↔ h.Waiting j ∧ j ≠ id)
    (hself : h'.tenantsOn id = (survivors hearings).map (p.kind.tenant id))
    (hkept : survivors hearings ≠ [] → h'.arena.memory.page? id = some p')
    (hother : ∀ j ≠ id, h'.arena.memory.page? j = a.memory.page? j)
    (hmemo : h'.arena.memo = a.memo) (hfound : h'.arena.found = a.found)
    (hpending : h'.pending = h.pending) : Sweeps policy id p hearings h h' := by
  have hmem {x : Hearing} (hx : x ∈ hearings) (hspares : x.2.spares) :
      h'.arena.memory.page? id = some p' :=
    hkept (List.ne_nil_of_mem (mem_survivors.mpr ⟨x, hx, hspares, rfl⟩))
  have halike (j : PageId) (hj : j ≠ id) :
      Option.Rel Page.Alike (h.arena.memory.page? j) (h'.arena.memory.page? j) := by
    rw [hother j hj]
    exact hsift.others hj
  refine ⟨hsift.page_eq, hwaiting, hwaiting', hself, fun j hj => ?_, fun x hx hspares => ?_,
    fun b hb => ?_, fun x hx hspares => ?_, ?_, ?_⟩
  · have hab := halike j hj
    rw [tenantsOn, tenantsOn]
    generalize h.arena.memory.page? j = u, h'.arena.memory.page? j = v at hab
    cases hab with
    | none => rfl
    | some hab => exact hab.tenants_eq j
  · rw [content_eq (b := ⟨id, x.1.index⟩) (hmem hx hspares),
      content_eq (b := ⟨id, x.1.index⟩) hsift.page_eq]
    exact hsift.swept.content_eq hx hspares
  · have hab := halike b.page hb
    rw [content, content]
    generalize h.arena.memory.page? b.page = u, h'.arena.memory.page? b.page = v at hab
    cases hab with
    | none => rfl
    | some hab => exact hab.content_eq b.index
  · rw [record?_eq (b := ⟨id, x.1.index⟩) (hmem hx hspares),
      record?_eq (b := ⟨id, x.1.index⟩) hsift.page_eq]
    exact (hsift.swept.kept x hx hspares).2.2
  · obtain ⟨b, c, hb, hbmemo, hhear, hc, hcmemo⟩ := hsift.heard
    have hid := Memory.lt_of_page? hsift.page_eq
    refine ⟨b, c, fun j => ?_, hbmemo, hhear, hmemo.trans hcmemo, fun r hr => ?_⟩
    · rw [Memory.page?_congr hb, Memory.page?_setPage hid]
    · have hid' : id < c.memory.pages.size := by
        rw [(Arena.hear_amends hhear).1.size_eq, hb, Memory.size_setPage]
        exact hid
      rw [record?, Memory.record?, Memory.record?, hother _ hr, Memory.page?_congr hc,
        Memory.page?_setPage hid', if_neg hr]
  · rw [due, due, hpending, hfound, hsift.found_eq, List.append_assoc]

/-- A step of housekeeping either cannot be seen, or it sweeps a page that was waiting. -/
theorem Tidy.quiet_or_sweeps (ht : Tidy policy h h') (hs : h.Sound) :
    Quiet h h' ∨ ∃ id p hearings, Sweeps policy id p hearings h h' := by
  have hs' := ht.sound hs
  cases ht with
  | @shelf k d hk hstep =>
    have harena : (h.setDepot k d).arena = d.arena := setDepot_arena d
    have hpages (j : PageId) : (h.setDepot k d).arena.memory.page? j = d.arena.memory.page? j := by
      rw [harena]
    have hdue (hfound : d.arena.found = h.arena.found) : (h.setDepot k d).due = h.due := by
      rw [due, due, harena, setDepot_pending, hfound]
    cases hstep with
    | relist hunswept hperm hempty hused =>
      exact .inl (quiet_of_pages (fun j => by rw [harena]; rfl)
        (waiting_setDepot_of_eq hs hk hunswept) (by rw [harena]; rfl) (hdue rfl))
    | @sift rest id p p' hearings a s hw hsift hfit hplaced =>
      have hpage : (h.setDepot k ⟨s, a⟩).arena.memory.page? id = some p' := by
        rw [harena]
        exact hsift.page?_self
      refine .inr ⟨id, p, hearings, sweeps_of_sifts hsift ⟨k, hk, ?_⟩ ?_ ?_ (fun _ => hpage)
        (fun j _ => by rw [harena]) (by rw [harena]) (by rw [harena]) (setDepot_pending _)⟩
      · simp [show (h.shelf k).unswept = rest.push id from hw]
      · exact waiting_setDepot_pop hs hk hw (by rcases hplaced with rfl | rfl | ⟨-, rfl⟩ <;> rfl)
      · rw [tenantsOn_eq hpage, Page.tenants, hsift.swept.blocks_eq,
          Page.kind_eq_of_key hsift.swept.key_eq]
    | @discard rest id p p' hearings a b hw hsift hvacant hunmapped =>
      have hpage := fun j =>
        (hpages j).trans ((hunmapped.page? j).trans (Memory.page?_unmap a.memory id j))
      refine .inr ⟨id, p, hearings, sweeps_of_sifts hsift ⟨k, hk, ?_⟩ ?_ ?_ (absurd hvacant)
        (fun j hj => (hpage j).trans (if_neg hj)) ?_ ?_ (setDepot_pending _)⟩
      · simp [show (h.shelf k).unswept = rest.push id from hw]
      · exact waiting_setDepot_pop hs hk hw rfl
      · rw [tenantsOn, hpage, if_pos rfl, hvacant]
        rfl
      · rw [harena]
        exact hunmapped.memo_eq
      · rw [harena]
        exact hunmapped.found_eq
    | @map r p a hvalid hkey hcreated hpush hmemo hfound =>
      obtain ⟨q, hq, -, -, hblocks, -⟩ := Page.create_sound hvalid
      obtain rfl : q = p := Except.ok.inj (hq.symm.trans hcreated)
      have hpage := fun j => (hpages j).trans (Memory.page?_push hpush j)
      refine .inl (quiet_of_vacant h.arena.memory.pages.size hs hs'
        (fun j hj => (hpage j).trans (if_neg hj)) ?_ ?_ (waiting_setDepot_of_eq hs hk rfl) ?_
        (hdue hfound))
      · cases hold : h.arena.memory.page? h.arena.memory.pages.size with
        | none => rw [tenantsOn, hold]; rfl
        | some q => exact absurd (Memory.lt_of_page? hold) (Nat.lt_irrefl _)
      · refine (tenantsOn_eq ((hpage _).trans (if_pos rfl))).trans ?_
        rw [Page.tenants, hblocks]
        rfl
      · rw [harena]
        exact hmemo
    | @unmap id empty a hperm hunmapped =>
      have hpage := fun j =>
        (hpages j).trans ((hunmapped.page? j).trans (Memory.page?_unmap h.arena.memory id j))
      have hid : id ∈ (h.shelf k).empty.toList := hperm.symm.subset List.mem_cons_self
      obtain ⟨p, hp, -, -⟩ := hs.key_of_mem hk (Shelf.mem_pages.mpr (.inl hid))
      refine .inl (quiet_of_vacant id hs hs' (fun j hj => (hpage j).trans (if_neg hj)) ?_ ?_
        (waiting_setDepot_of_eq hs hk rfl) ?_ (hdue hunmapped.found_eq))
      · rw [tenantsOn_eq hp, Page.tenants, (hs.good k hk).vacant id hid p hp]
        rfl
      · rw [tenantsOn, hpage, if_pos rfl]
        rfl
      · rw [harena]
        exact hunmapped.memo_eq
    | idle hsame =>
      exact .inl (quiet_of_pages (fun j => by rw [harena]; exact hsame.page? j)
        (waiting_setDepot_of_eq hs hk rfl) (by rw [harena]; exact hsame.memo_eq)
        (hdue hsame.found_eq))
  | @keep id p p' hp hkeeps =>
    have hpage := page?_setPage hp p'
    refine .inl ⟨⟨fun j => ?_, fun _ => Iff.rfl, rfl, rfl⟩, fun b _ => ?_, fun r => ?_⟩
    · rw [tenantsOn, hpage]
      split_ifs with hj
      · rw [hj, tenantsOn_eq hp]
        exact hkeeps.tenants_eq id
      · rfl
    · rw [content, hpage]
      split_ifs with hj
      · rw [content_eq (hj ▸ hp)]
        exact hkeeps.content_eq b.index
      · rfl
    · rw [record?, Memory.record?, hpage]
      split_ifs with hj
      · rw [record?_eq (hj ▸ hp)]
        exact hkeeps.record_eq r.index
      · rfl
  | flush =>
    exact .inl (quiet_of_pages (fun _ => rfl) (fun _ => Iff.rfl) rfl
      (by simp [due, Handoff.toList, Handoff.merge]))
  | idle hsame =>
    exact .inl (quiet_of_pages hsame.page? (fun _ => Iff.rfl) hsame.memo_eq
      (by rw [due, due, hsame.found_eq]))

end Heap

end SweptHeap
