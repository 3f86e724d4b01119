import Mathlib
import SweptHeap.Proofs.Heap.Tenants

/-!
# What can be seen of the other operations

A heap gets a new block or record, a cell is written, a record is changed, a cycle begins. For each
of these: what becomes of the blocks and records there are.
-/

namespace SweptHeap.Heap

variable {ρ : Type} {policy : Policy ρ} {h h' h'' : Heap ρ} {id : PageId} {p p' : Page}
  {b r : BlockRef} {t : Tenant} {k n : Nat}

/-! ### New blocks and records -/

/-- The page is mapped, and allocators may use it. -/
def Uses (h : Heap ρ) (id : PageId) : Prop :=
  ∃ p, h.arena.memory.page? id = some p ∧ id ∈ (h.shelf p.key).used.toList

/-- The block or record `t` is new, and nothing else has changed. -/
structure Welcomes (t : Tenant) (h h' : Heap ρ) : Prop where
  fresh : ¬h.Holds t
  used : h.Uses t.ref.page
  tenants_self : (h'.tenantsOn t.ref.page).Perm (t :: h.tenantsOn t.ref.page)
  tenants_other : ∀ id ≠ t.ref.page, h'.tenantsOn id = h.tenantsOn id
  /-- The page was swept in this cycle already. -/
  swept : ¬h.Waiting t.ref.page
  waiting_iff : ∀ id, h'.Waiting id ↔ h.Waiting id
  content_eq : ∀ b, h.Holds (.block b) → h'.content b = h.content b
  record_eq : ∀ r, t ≠ .record r → h'.record? r = h.record? r
  memo_eq : h'.arena.memo = h.arena.memo
  due_eq : h'.due = h.due

theorem Welcomes.holds_iff (hw : Welcomes t h h') (t' : Tenant) :
    h'.Holds t' ↔ t' = t ∨ h.Holds t' := by
  rw [Holds, Holds]
  by_cases hpage : t'.ref.page = t.ref.page
  · rw [hpage, hw.tenants_self.mem_iff, List.mem_cons]
  · rw [hw.tenants_other _ hpage]
    have hne : t' ≠ t := fun he => hpage (he ▸ rfl)
    simp [hne]

theorem Gets.welcomes (hg : Gets Page.Grown h b h') (hs : h.Sound)
    (hp : h.arena.memory.page? b.page = some p) :
    Welcomes (p.kind.tenant b.page b.index) h h' := by
  obtain ⟨q, p', hq, hused, hgrown, a, hsame, rfl⟩ := hg
  obtain rfl : p = q := Option.some.inj (hp.symm.trans hq)
  have hpage (j : PageId) :
      a.memory.page? j = if j = b.page then some p' else h.arena.memory.page? j :=
    (hsame.page? j).trans (page?_setPage hp p' j)
  have htenants : h.tenantsOn b.page = p.tenants b.page := tenantsOn_eq hp
  have hkind := Page.kind_eq_of_key hgrown.key_eq
  refine ⟨?_, by rw [PageKind.ref_tenant]; exact ⟨p, hp, hused⟩, ?_, ?_, ?_, fun _ => Iff.rfl,
    fun c hc => ?_, fun r hr => ?_, hsame.memo_eq, ?_⟩
  · rw [Holds, PageKind.ref_tenant, htenants, Page.tenants, List.mem_map]
    rintro ⟨j, hj, he⟩
    exact hgrown.fresh (PageKind.tenant_inj.mp he ▸ hj)
  · rw [PageKind.ref_tenant, htenants, tenantsOn_eq ((hpage _).trans (if_pos rfl)), Page.tenants,
      Page.tenants, hkind]
    simpa using hgrown.blocks_perm.map (p.kind.tenant b.page)
  · intro id hid
    rw [PageKind.ref_tenant] at hid
    rw [tenantsOn, tenantsOn]
    change Option.elim (a.memory.page? id) _ _ = _
    rw [hpage, if_neg hid]
  · rw [PageKind.ref_tenant]
    exact hs.not_waiting_of_used hp hused
  · rw [content, content]
    change Option.elim (a.memory.page? c.page) _ _ = _
    rw [hpage]
    split_ifs with hc'
    · obtain ⟨q, hq, -, hindex⟩ := holds_block.mp hc
      obtain rfl : p = q := Option.some.inj ((hc' ▸ hp).symm.trans hq)
      rw [hq]
      exact hgrown.content_eq hindex
    · rfl
  · rw [record?, record?, Memory.record?, Memory.record?, hpage]
    split_ifs with hr'
    · rw [hr', hp]
      by_cases hindex : r.index = b.index
      · have hne : p.kind ≠ .records := by
          intro hk
          obtain ⟨page, index⟩ := r
          obtain rfl : page = b.page := hr'
          obtain rfl : index = b.index := hindex
          rw [hk] at hr
          exact hr rfl
        have hnone {q : Page} (hk : q.kind ≠ .records) (i : Nat) : q.record? i = none := by
          cases q with
          | records q => exact absurd rfl hk
          | uniform q => rfl
          | tiled q => rfl
          | large q => rfl
        exact (hnone (hkind ▸ hne) _).trans (hnone hne _).symm
      · exact hgrown.record_eq _ hindex
    · rfl
  · rw [due, due, hsame.found_eq]
    rfl

theorem Gets.welcomes_block (hg : Gets (Page.Gives · n) h b h') (hs : h.Sound) (hn : 0 < n) :
    Welcomes (.block b) h h' ∧ h'.content b = List.replicate n .zero := by
  have hgrown : Gets Page.Grown h b h' := hg.mono fun _ _ _ hx => hx.toGrown
  obtain ⟨p, p', hp, hused, hgives, a, hsame, rfl⟩ := hg
  refine ⟨?_, ?_⟩
  · have hw := hgrown.welcomes hs hp
    rwa [PageKind.tenant_of_ne (hgives.kind_ne hn)] at hw
  · rw [← hgives.content_eq]
    exact content_eq ((hsame.page? _).trans ((page?_setPage hp p' _).trans (if_pos rfl)))

theorem Gets.welcomes_record {record : Record} (hg : Gets (Page.Enrolls · record) h r h')
    (hs : h.Sound) : Welcomes (.record r) h h' ∧ h'.record? r = some record := by
  have hgrown : Gets Page.Grown h r h' := hg.mono fun _ _ _ hx => hx.toGrown
  obtain ⟨p, p', hp, hused, henrolls, a, hsame, rfl⟩ := hg
  refine ⟨?_, ?_⟩
  · have hw := hgrown.welcomes hs hp
    rwa [henrolls.kind_eq] at hw
  · rw [← henrolls.enrolled]
    exact record?_eq ((hsame.page? _).trans ((page?_setPage hp p' _).trans (if_pos rfl)))

/-! ### Writes and changes of records -/

theorem length_content (hp : h.arena.memory.page? b.page = some p) :
    (h.content b).length = p.blockCells b.index := by
  rw [content_eq hp, Page.length_content]

/-- A cell of an allocated block is written. -/
structure Writes (b : BlockRef) (k : Nat) (c : Cell) (h h' : Heap ρ) :
    Prop extends Steady h h' where
  sound : h'.Sound
  content_eq : ∀ b', h.Holds (.block b') →
    h'.content b' = if b' = b then (h.content b).set k c else h.content b'
  record_eq : ∀ r, h'.record? r = h.record? r
  advances : Advances h h'

theorem write_spec (hs : h.Sound) (hb : h.Holds (.block b)) (hk : k < (h.content b).length)
    (c : Cell) : Writes b k c h (h.write ⟨b.page, b.index + k⟩ c) := by
  obtain ⟨p, hp, hkind, hindex⟩ := holds_block.mp hb
  rw [length_content hp] at hk
  have hsound := hs.page_sound hp
  have hw := hsound.setCell hkind hindex hk c
  obtain ⟨p', hp'⟩ : ∃ p', p' = p.modifyCells fun cells => cells.setIfInBounds (b.index + k) c :=
    ⟨_, rfl⟩
  rw [← hp'] at hw
  have hmemory : (h.write ⟨b.page, b.index + k⟩ c).arena.memory =
      h.arena.memory.setPage b.page (some p') := by
    change h.arena.memory.modifyPage b.page _ = _
    rw [Memory.modifyPage, Memory.borrow_eq, hp, hp']
    simp only [Memory.restore_eq, Memory.setPage_setPage]
  have hset : h.write ⟨b.page, b.index + k⟩ c = h.setPage b.page p' := by
    rw [setPage, ← hmemory]
    rfl
  rw [hset]
  have hpage := page?_setPage hp p'
  refine ⟨⟨fun j => ?_, fun _ => Iff.rfl, rfl, rfl⟩, hs.setPage hp hw.key_eq hw.sound fun he => ?_,
    fun b' hb' => ?_, fun r => ?_, .of_shelf (fun _ => rfl) rfl⟩
  · rw [tenantsOn, hpage]
    split_ifs with hj
    · rw [hj, tenantsOn_eq hp]
      change p'.tenants b.page = p.tenants b.page
      rw [Page.tenants, Page.tenants, hw.blocks_eq, Page.kind_eq_of_key hw.key_eq]
    · rfl
  · rw [hw.blocks_eq]
    exact (hs.good _ (hs.placed _ p hp).1).vacant _ he p hp
  · obtain ⟨q, hq, -, hindex'⟩ := holds_block.mp hb'
    rw [content, hpage]
    by_cases hj : b'.page = b.page
    · obtain rfl : p = q := Option.some.inj ((hj ▸ hp).symm.trans hq)
      rw [if_pos hj, content_eq hp, content_eq hq]
      have hiff : b' = b ↔ b'.index = b.index := by
        obtain ⟨page, index⟩ := b
        obtain ⟨page', index'⟩ := b'
        simp only [BlockRef.mk.injEq]
        exact ⟨And.right, fun he => ⟨hj, he⟩⟩
      simp only [hiff]
      exact hw.content_eq hsound hindex hk hindex'
    · have hne : b' ≠ b := fun he => hj (he ▸ rfl)
      rw [if_neg hj, if_neg hne]
      rfl
  · rw [record?, Memory.record?, hpage]
    split_ifs with hj
    · rw [record?_eq (hj ▸ hp)]
      exact hw.record_eq r.index
    · rfl

/-- What a record says has changed. -/
structure Amends (r : BlockRef) (f : Record → Record) (h h' : Heap ρ) : Prop
    extends Steady h h' where
  sound : h.Sound → h'.Sound
  content_eq : ∀ b, h'.content b = h.content b
  record_eq : ∀ r', h'.record? r' = if r' = r then (h.record? r').map f else h.record? r'
  advances : Advances h h'

theorem amend_spec (h : Heap ρ) (r : BlockRef) (f : Record → Record) :
    Amends r f h (h.amend r f) := by
  have hamends := h.arena.memory.amends_modifyRecord r f
  have hpages (j : PageId) : Option.Rel Page.Alike (h.arena.memory.page? j)
      ((h.amend r f).arena.memory.page? j) := hamends.pages j
  refine ⟨⟨fun j => ?_, fun _ => Iff.rfl, rfl, rfl⟩, fun hs => hs.amends hamends, fun b => ?_,
    fun r' => h.arena.memory.record?_modifyRecord r r' f, .of_shelf (fun _ => rfl) rfl⟩
  · have hab := hpages j
    rw [tenantsOn, tenantsOn]
    generalize h.arena.memory.page? j = u, (h.amend r f).arena.memory.page? j = v at hab
    cases hab with
    | none => rfl
    | some hab => exact hab.tenants_eq j
  · have hab := hpages b.page
    rw [content, content]
    generalize h.arena.memory.page? b.page = u, (h.amend r f).arena.memory.page? b.page = v at hab
    cases hab with
    | none => rfl
    | some hab => exact hab.content_eq b.index

/-! ### The start of a cycle -/

theorem Prepared.page? (hp : Prepared h h') (j : PageId) :
    h'.arena.memory.page? j = h.arena.memory.page? j := hp.same.page? j

/-- Whatever is mapped waits for the sweep. -/
theorem Prepared.waiting (hp : Prepared h h') (hs : h.Sound) (hs' : h'.Sound)
    (hempty : ∀ k ∈ allRequests, (h.shelf k).unswept = #[]) (ht : h'.Holds t) :
    h'.Waiting t.ref.page := by
  rw [Holds, tenantsOn] at ht
  cases hpage : h'.arena.memory.page? t.ref.page with
  | none => simp [hpage] at ht
  | some p =>
    have hpage' := (hp.page? _).symm.trans hpage
    obtain ⟨hkey, hmem⟩ := hs.placed _ p hpage'
    rw [hs'.waiting_iff hpage, hp.shelf_eq _ hkey]
    rw [Shelf.mem_pages, hempty _ hkey] at hmem
    simp only [Array.toList_append, List.mem_append]
    rcases hmem with he | hr | hu | hw
    · exact .inr he
    · exact .inl (.inl hr)
    · exact .inl (.inr hu)
    · cases hw

theorem Prepared.tenants_eq (hp : Prepared h h') (id : PageId) :
    h'.tenantsOn id = h.tenantsOn id := by
  rw [tenantsOn, tenantsOn, hp.page?]

theorem Prepared.content_eq (hp : Prepared h h') (b : BlockRef) : h'.content b = h.content b := by
  rw [content, content, hp.page?]

theorem Prepared.record_eq (hp : Prepared h h') (r : BlockRef) : h'.record? r = h.record? r := by
  rw [record?, record?, Memory.record?, Memory.record?, hp.page?]

theorem Prepared.due_eq (hp : Prepared h h') : h'.due = h.due := by
  rw [due, due, hp.pending_eq, hp.same.found_eq]

end SweptHeap.Heap
