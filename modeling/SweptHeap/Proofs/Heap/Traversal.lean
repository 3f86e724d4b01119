import Mathlib
import SweptHeap.Proofs.Heap.Effects

/-!
# Traversals list every block and record once

In a sound heap, the traversals of the blocks and of the records list all that is allocated, and
nothing twice.
-/

namespace SweptHeap.Heap

variable {ρ : Type} {h : Heap ρ} {k : Request} {id : PageId} {p : Page} {b : BlockRef}

/-- A fold that appends to an array appends all at once. -/
theorem toList_foldl_append {α β : Type} {f : Array β → α → Array β} {g : α → List β}
    (hf : ∀ found x, (f found x).toList = found.toList ++ g x) (xs : List α) (found : Array β) :
    (xs.foldl f found).toList = found.toList ++ xs.flatMap g := by
  induction xs generalizing found with
  | nil => simp
  | cons x rest ih => rw [List.foldl_cons, ih, hf, List.flatMap_cons, List.append_assoc]

/-- The blocks or records on a shelf. -/
def refsOn (h : Heap ρ) (k : Request) : List BlockRef :=
  (h.pagesOn k).flatMap fun x => x.2.blocks.toList.map (⟨x.1, ·⟩)

theorem toList_foldl_page (found : Array BlockRef) (x : PageId × Page) :
    (x.2.blocks.foldl (fun found index => found.push ⟨x.1, index⟩) found).toList =
      found.toList ++ x.2.blocks.toList.map (⟨x.1, ·⟩) := by
  rw [← Array.foldl_toList, Arena.toList_foldl_push]

theorem toList_blocks (h : Heap ρ) : h.blocks.toList = blockRequests.flatMap h.refsOn := by
  rw [blocks, toList_foldl_append fun found k =>
    toList_foldl_append toList_foldl_page (h.pagesOn k) found]
  rfl

theorem toList_recordRefs (h : Heap ρ) : h.recordRefs.toList = h.refsOn .records := by
  rw [recordRefs, toList_foldl_append toList_foldl_page]
  rfl

theorem mem_pagesOn {x : PageId × Page} : x ∈ h.pagesOn k ↔
    x.1 ∈ (h.shelf k).pages.toList ∧ h.arena.memory.page? x.1 = some x.2 := by
  obtain ⟨id, p⟩ := x
  simp [pagesOn]

theorem Sound.mem_refsOn (hs : h.Sound) (hk : k ∈ allRequests) : b ∈ h.refsOn k ↔
    ∃ p, h.arena.memory.page? b.page = some p ∧ p.key = k ∧ b.index ∈ p.blocks.toList := by
  rw [refsOn, List.mem_flatMap]
  constructor
  · rintro ⟨⟨id, p⟩, hx, hb⟩
    obtain ⟨hid, hp⟩ := mem_pagesOn.mp hx
    obtain ⟨i, hi, rfl⟩ := List.mem_map.mp hb
    obtain ⟨q, hq, hkey, -⟩ := hs.key_of_mem hk hid
    obtain rfl : p = q := Option.some.inj (hp.symm.trans hq)
    exact ⟨p, hp, hkey, hi⟩
  · rintro ⟨p, hp, rfl, hi⟩
    exact ⟨(b.page, p), mem_pagesOn.mpr ⟨(hs.placed _ p hp).2, hp⟩,
      List.mem_map.mpr ⟨b.index, hi, rfl⟩⟩

theorem Sound.refsOn_nodup (hs : h.Sound) (hk : k ∈ allRequests) : (h.refsOn k).Nodup := by
  have hnodup : ((h.pagesOn k).map Prod.fst).Nodup := by
    have hsub : ((h.pagesOn k).map Prod.fst).Sublist (h.shelf k).pages.toList := by
      rw [pagesOn, List.map_filterMap]
      generalize (h.shelf k).pages.toList = ids
      induction ids with
      | nil => simp
      | cons id rest ih =>
        cases hp : h.arena.memory.page? id with
        | none => simpa [hp] using ih.cons id
        | some p => simpa [hp] using ih.cons_cons id
    exact hsub.nodup (hs.good k hk).nodup
  rw [refsOn, List.nodup_flatMap]
  refine ⟨fun x hx => ?_, ?_⟩
  · obtain ⟨-, hp⟩ := mem_pagesOn.mp hx
    exact (hs.page_sound hp).blocks_nodup.map fun i j he => by simpa using he
  · refine (List.pairwise_map.mp hnodup).imp fun {x y} hne => ?_
    intro b hx hy
    obtain ⟨i, -, rfl⟩ := List.mem_map.mp hx
    obtain ⟨j, -, he⟩ := List.mem_map.mp hy
    exact hne (congrArg BlockRef.page he).symm

/-- Everything allocated, as the traversals list it. -/
def tenants (h : Heap ρ) : List Tenant :=
  h.blocks.toList.map .block ++ h.recordRefs.toList.map .record

theorem Sound.mem_tenants (hs : h.Sound) (t : Tenant) : t ∈ h.tenants ↔ h.Holds t := by
  have hrecords : Request.records ∈ allRequests := mem_allRequests.mpr (.inr (.inr (.inr rfl)))
  rw [tenants, List.mem_append]
  cases t with
  | block b =>
    have hne : Tenant.block b ∉ h.recordRefs.toList.map Tenant.record := by simp
    simp only [hne, or_false, List.mem_map, Tenant.block.injEq, exists_eq_right]
    rw [toList_blocks, List.mem_flatMap, holds_block]
    constructor
    · rintro ⟨k, hk, hb⟩
      obtain ⟨hall, hkind⟩ := mem_blockRequests.mp hk
      obtain ⟨p, hp, rfl, hi⟩ := (hs.mem_refsOn hall).mp hb
      exact ⟨p, hp, p.key_kind ▸ hkind, hi⟩
    · rintro ⟨p, hp, hkind, hi⟩
      have hall := (hs.placed _ p hp).1
      exact ⟨p.key, mem_blockRequests.mpr ⟨hall, p.key_kind.symm ▸ hkind⟩,
        (hs.mem_refsOn hall).mpr ⟨p, hp, rfl, hi⟩⟩
  | record r =>
    have hne : Tenant.record r ∉ h.blocks.toList.map Tenant.block := by simp
    simp only [hne, false_or, List.mem_map, Tenant.record.injEq, exists_eq_right]
    have hkey (p : Page) : p.key = .records ↔ p.kind = .records := by
      cases p <;> simp [Page.key, Page.kind, Request.records]
    rw [toList_recordRefs, hs.mem_refsOn hrecords, holds_record]
    simp only [hkey]

theorem Sound.tenants_nodup (hs : h.Sound) : h.tenants.Nodup := by
  have hblocks : h.blocks.toList.Nodup := by
    rw [toList_blocks, List.nodup_flatMap]
    refine ⟨fun k hk => hs.refsOn_nodup (mem_blockRequests.mp hk).1, ?_⟩
    refine blockRequests_nodup.imp_of_mem fun {k k'} hk hk' hne b hb hb' => ?_
    obtain ⟨p, hp, rfl, -⟩ := (hs.mem_refsOn (mem_blockRequests.mp hk).1).mp hb
    obtain ⟨q, hq, rfl, -⟩ := (hs.mem_refsOn (mem_blockRequests.mp hk').1).mp hb'
    rw [Option.some.inj (hp.symm.trans hq)] at hne
    exact hne rfl
  have hrecords : h.recordRefs.toList.Nodup := by
    rw [toList_recordRefs]
    exact hs.refsOn_nodup (mem_allRequests.mpr (.inr (.inr (.inr rfl))))
  refine List.Nodup.append (hblocks.map fun _ _ he => by simpa using he)
    (hrecords.map fun _ _ he => by simpa using he) fun t hb hr => ?_
  obtain ⟨b, -, rfl⟩ := List.mem_map.mp hb
  simp at hr

end SweptHeap.Heap
