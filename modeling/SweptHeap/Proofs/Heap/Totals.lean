import Mathlib
import SweptHeap.Heap.Traverse
import SweptHeap.Proofs.Heap.Tidy

/-!
# The bytes of a heap

The bytes of blocks on all pages that do not wait for the sweep. Work on one shelf changes the total
by what it changes on that shelf.
-/

namespace SweptHeap.Heap

variable {ρ : Type} {policy : Policy ρ} {h h' h'' : Heap ρ} {k r : Request}
  {id : PageId} {p p' : Page}

theorem mem_blockRequests : k ∈ blockRequests ↔ k ∈ allRequests ∧ k.kind ≠ .records := by
  obtain ⟨kind, cells⟩ := k
  rw [mem_allRequests]
  simp only [blockRequests, uniformRequests, List.mem_append, List.mem_map, List.mem_range,
    List.mem_cons, List.not_mem_nil, or_false, Request.mk.injEq, Nat.lt_succ_iff]
  cases kind <;> simp

theorem blockRequests_nodup : blockRequests.Nodup := by
  refine List.nodup_append.mpr ⟨?_, by decide, fun r hr r' hr' he => ?_⟩
  · exact List.nodup_range.map fun m n he => (Request.mk.inj he).2
  · obtain ⟨n, -, rfl⟩ := List.mem_map.mp hr
    simp [← he] at hr'

/-- Bytes of blocks on the pages that do not wait for the sweep. -/
def bytes (h : Heap ρ) : Nat := (blockRequests.map fun k => (h.depot k).bytes).sum

/-- The pages of other shelves than `k` are as they were, but for what records say. -/
def Spares (h : Heap ρ) (k : Request) (h' : Heap ρ) : Prop :=
  ∀ id p, h.arena.memory.page? id = some p → p.key ≠ k →
    ∃ p', h'.arena.memory.page? id = some p' ∧ p.Alike p'

theorem bytes_congr (hdepot : ∀ k ∈ blockRequests, (h'.depot k).bytes = (h.depot k).bytes) :
    h'.bytes = h.bytes := congrArg List.sum (List.map_congr_left hdepot)

theorem bytes_same (hshelf : ∀ k ∈ allRequests, h'.shelf k = h.shelf k)
    (hpages : h'.arena.memory.pages = h.arena.memory.pages) : h'.bytes = h.bytes := by
  refine bytes_congr fun k hk => ?_
  refine Depot.bytes_congr (.of_eq (congrArg Shelf.swept (hshelf k (mem_blockRequests.mp hk).1))) ?_
  exact fun j _ => Memory.allocatedBytes_congr (Memory.page?_congr hpages j)

theorem Spares.depot_bytes (hspares : h.Spares k h') (hs : h.Sound) (hr : r ∈ blockRequests)
    (hne : r ≠ k) (hshelf : h'.shelf r = h.shelf r) : (h'.depot r).bytes = (h.depot r).bytes := by
  obtain ⟨hall, hkind⟩ := mem_blockRequests.mp hr
  refine Depot.bytes_congr (.of_eq (congrArg Shelf.swept hshelf)) fun j hj => ?_
  have hlisted := Depot.mem_pages_of_swept hj
  obtain ⟨q, hq, hkey, -⟩ := hs.key_of_mem hall hlisted
  obtain ⟨q', hq', hab⟩ := hspares j q hq (hkey.trans_ne hne)
  refine (hs.good r hall).allocatedBytes_alike hkind hlisted ?_
  change Option.Rel _ (h.arena.memory.page? j) (h'.arena.memory.page? j)
  rw [hq, hq']
  exact .some hab

/-- What changes on one shelf changes the total. -/
theorem Spares.bytes_add (hspares : h.Spares k h') (hs : h.Sound) (hk : k ∈ blockRequests)
    (hshelf : ∀ r ∈ allRequests, r ≠ k → h'.shelf r = h.shelf r) :
    h'.bytes + (h.depot k).bytes = h.bytes + (h'.depot k).bytes := by
  have hrest : ((blockRequests.erase k).map fun r => (h'.depot r).bytes) =
      (blockRequests.erase k).map fun r => (h.depot r).bytes := by
    refine List.map_congr_left fun r hr => ?_
    rw [blockRequests_nodup.mem_erase_iff] at hr
    obtain ⟨hne, hmem⟩ := hr
    exact hspares.depot_bytes hs hmem hne (hshelf r (mem_blockRequests.mp hmem).1 hne)
  have hsum := List.sum_map_erase (fun r => (h.depot r).bytes) hk
  have hsum' := List.sum_map_erase (fun r => (h'.depot r).bytes) hk
  rw [hrest] at hsum'
  rw [bytes, bytes]
  omega

/-- Records count for nothing. -/
theorem Spares.bytes_eq (hspares : h.Spares k h') (hs : h.Sound) (hk : k.kind = .records)
    (hshelf : ∀ r ∈ allRequests, r ≠ k → h'.shelf r = h.shelf r) : h'.bytes = h.bytes := by
  refine bytes_congr fun r hr => ?_
  obtain ⟨hall, hkind⟩ := mem_blockRequests.mp hr
  have hne : r ≠ k := fun he => hkind (he ▸ hk)
  exact hspares.depot_bytes hs hr hne (hshelf r hall hne)

theorem spares_setDepot {d : Depot ρ} (hs : h.Sound) (hk : k ∈ allRequests)
    (hframe : Depot.Frame (h.depot k) d) : h.Spares k (h.setDepot k d) := by
  intro j q hq hne
  have hj : j ∉ (h.shelf k).pages.toList := fun hj => by
    obtain ⟨q', hq', hkey, -⟩ := hs.key_of_mem hk hj
    exact hne (by rwa [Option.some.inj (hq.symm.trans hq')])
  rw [setDepot_arena]
  exact (hframe.others j q hj hq).2

theorem spares_setPage (hp : h.arena.memory.page? id = some p) (p' : Page) :
    h.Spares p.key (h.setPage id p') := by
  intro j q hq hne
  have hj : j ≠ id := by
    rintro rfl
    exact hne (congrArg Page.key (Option.some.inj (hq.symm.trans hp)))
  exact ⟨q, (page?_setPage hp p' j).trans ((if_neg hj).trans hq), .refl q⟩

/-- A page of blocks that does not wait for the sweep is replaced by another. -/
theorem bytes_setPage (hs : h.Sound) (hp : h.arena.memory.page? id = some p)
    (hk : p.kind ≠ .records) (hid : id ∈ (h.shelf p.key).swept) (p' : Page) :
    (h.setPage id p').bytes + p.allocatedBytes = h.bytes + p'.allocatedBytes := by
  obtain ⟨hkey, -⟩ := hs.placed id p hp
  have hmem : p.key ∈ blockRequests := mem_blockRequests.mpr ⟨hkey, p.key_kind.symm ▸ hk⟩
  have htotal := (spares_setPage hp p').bytes_add hs hmem fun _ _ _ => rfl
  have hnodup : (h.shelf p.key).swept.Nodup := by
    have hall := (hs.good _ hkey).nodup
    rw [← Shelf.swept_append] at hall
    exact (List.nodup_append.mp hall).1
  have hpage := page?_setPage hp p'
  have hrest :
      (((h.shelf p.key).swept.erase id).map (h.setPage id p').arena.memory.allocatedBytes) =
      ((h.shelf p.key).swept.erase id).map h.arena.memory.allocatedBytes := by
    refine List.map_congr_left fun j hj => Memory.allocatedBytes_congr ?_
    exact (hpage j).trans (if_neg (hnodup.mem_erase_iff.mp hj).1)
  have hsum := List.sum_map_erase h.arena.memory.allocatedBytes hid
  have hsum' := List.sum_map_erase (h.setPage id p').arena.memory.allocatedBytes hid
  rw [hrest, Memory.allocatedBytes_eq ((hpage id).trans (if_pos rfl))] at hsum'
  rw [Memory.allocatedBytes_eq hp] at hsum
  change p.allocatedBytes + _ = (h.depot p.key).bytes at hsum
  change p'.allocatedBytes + _ = ((h.setPage id p').depot p.key).bytes at hsum'
  omega

/-- A page that gives nothing away weighs what it did. -/
theorem bytes_keep (hs : h.Sound) (hp : h.arena.memory.page? id = some p) (hkeeps : p.Keeps p') :
    (h.setPage id p').bytes = h.bytes := by
  refine bytes_congr fun k hk => Depot.bytes_congr (.refl _) fun j hj => ?_
  have hpage := page?_setPage hp p' j
  by_cases he : j = id
  · subst he
    obtain ⟨hall, hkind⟩ := mem_blockRequests.mp hk
    have hlisted : j ∈ (h.shelf k).pages.toList := Depot.mem_pages_of_swept (d := h.depot k) hj
    obtain ⟨q, hq, hkey, hsound⟩ := hs.key_of_mem hall hlisted
    obtain rfl : p = q := Option.some.inj (hp.symm.trans hq)
    change (h.setPage j p').arena.memory.allocatedBytes j = h.arena.memory.allocatedBytes j
    rw [Memory.allocatedBytes_eq hp, Memory.allocatedBytes_eq (hpage.trans (if_pos rfl))]
    refine hsound.allocatedBytes_congr hkeeps.sound ?_ ?_ (by rw [hkeeps.blocks_eq])
      fun i _ => hkeeps.extent_eq i
    · rw [← p.key_kind, ← p'.key_kind, hkeeps.key_eq]
    · rwa [← p.key_kind, hkey]
  · exact Memory.allocatedBytes_congr (hpage.trans (if_neg he))

/-! ### The meter -/

/-- The meter has counted what pages of blocks were added to those that do not wait. -/
def Charges (h h' : Heap ρ) : Prop :=
  ∃ n, h.arena.meter.Counts n h'.arena.meter ∧ h'.bytes = h.bytes + n

theorem Charges.of_eq (hmeter : h'.arena.meter = h.arena.meter) (hbytes : h'.bytes = h.bytes) :
    Charges h h' := ⟨0, .of_eq hmeter, hbytes.trans (Nat.add_zero _).symm⟩

theorem Charges.refl (h : Heap ρ) : Charges h h := .of_eq rfl rfl

theorem Charges.trans (hc : Charges h h') (hc' : Charges h' h'') : Charges h h'' := by
  obtain ⟨n, hcounts, hbytes⟩ := hc
  obtain ⟨n', hcounts', hbytes'⟩ := hc'
  exact ⟨n + n', hcounts.trans hcounts', by rw [hbytes', hbytes, Nat.add_assoc]⟩

/-- The tally has counted what pages of blocks were added to those that do not wait. -/
structure Tallies (tally tally' : Tally) (h h' : Heap ρ) : Prop where
  meter_eq : h'.arena.meter = h.arena.meter
  bytes_eq : h'.bytes + tally.liveBytes = h.bytes + tally'.liveBytes

theorem Tallies.refl (tally : Tally) (h : Heap ρ) : Tallies tally tally h h := ⟨rfl, rfl⟩

theorem Tallies.trans {tally tally' tally'' : Tally} (ht : Tallies tally tally' h h')
    (ht' : Tallies tally' tally'' h' h'') : Tallies tally tally'' h h'' := by
  refine ⟨ht'.meter_eq.trans ht.meter_eq, ?_⟩
  have hbytes := ht.bytes_eq
  have hbytes' := ht'.bytes_eq
  omega

/-- Adding the tally to the meter settles the account. -/
theorem Tallies.charges {tally : Tally} (ht : Tallies {} tally h h') {a : Arena ρ}
    (hpages : a.memory.pages = h'.arena.memory.pages)
    (hmeter : a.meter = (h'.arena.meter.add tally.liveBytes).2) :
    Charges h { h' with arena := a } := by
  have hsame : bytes { h' with arena := a } = h'.bytes := bytes_same (fun _ _ => rfl) hpages
  refine ⟨tally.liveBytes, ?_, ?_⟩
  · rw [show ({ h' with arena := a } : Heap ρ).arena.meter = _ from hmeter, ← ht.meter_eq]
    exact Meter.counts_add _ _
  · have hbytes : h'.bytes + 0 = h.bytes + tally.liveBytes := ht.bytes_eq
    rw [hsame, ← hbytes, Nat.add_zero]

section Depot

variable {d : Depot ρ} (hs : h.Sound) (hk : k ∈ blockRequests)
  (htidies : Depot.Tidies policy k (h.depot k) d)

include hs hk htidies

theorem bytes_setDepot : (h.setDepot k d).bytes + (h.depot k).bytes = h.bytes + d.bytes := by
  have hall := (mem_blockRequests.mp hk).1
  have htotal :=
    (spares_setDepot hs hall (Depot.Tidies.frame htidies (hs.good k hall))).bytes_add hs hk
    fun r hr hne => by rw [shelf_setDepot hs.size_eq hall hr, if_neg hne]
  rwa [depot_setDepot hs.size_eq hall] at htotal

theorem Charges.of_depot (hc : Depot.Charges k (h.depot k) d) : Charges h (h.setDepot k d) := by
  obtain ⟨n, hcounts, hbytes⟩ := hc (mem_blockRequests.mp hk).2
  refine ⟨n, ?_, ?_⟩
  · rw [setDepot_arena]
    exact hcounts
  · have htotal := bytes_setDepot hs hk htidies
    omega

theorem Tallies.of_depot {tally tally' : Tally} (ht : Depot.Tallies k tally tally' (h.depot k) d) :
    Tallies tally tally' h (h.setDepot k d) := by
  have hbytes := ht.bytes_eq (mem_blockRequests.mp hk).2
  refine ⟨?_, ?_⟩
  · rw [setDepot_arena]
    exact ht.meter_eq
  · have htotal := bytes_setDepot hs hk htidies
    omega

end Depot

end SweptHeap.Heap
