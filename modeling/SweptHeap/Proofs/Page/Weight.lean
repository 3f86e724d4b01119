import Mathlib
import SweptHeap.Proofs.Page.Kinds

/-!
# The bytes of a page

A sound page of blocks counts as many bytes as its blocks take, headers of tiles included. So pages
with the same blocks count the same, and a new block adds what it takes.
-/

namespace SweptHeap

theorem UniformPage.Sound.length_blocks {p : UniformPage} {free : List Nat} (h : p.Sound free) :
    p.blocks.toList.length = p.capacity - free.length := by
  have hperm : (p.places.filter (· ∈ free)).Perm free := by
    refine (List.perm_ext_iff_of_nodup (h.places_nodup.filter _) h.free_nodup).mpr fun c => ?_
    simpa using h.places_of_mem
  have hlength : p.places.length = p.capacity := List.length_range' ..
  have hsplit := List.length_eq_length_filter_add (l := p.places) fun c => decide (c ∈ free)
  rw [h.toList_blocks]
  have hfree := hperm.length_eq
  simp only [decide_not] at hsplit ⊢
  omega

theorem TiledPage.span_filter {cells : Array Cell} {cell : Nat} {tiles : List TileHeader}
    (h : Tiling cells cell tiles) : span (tiles.filter (·.allocated)) =
      ((dataOf cell tiles).map fun i => (headerAt cells (i - 1)).size).sum := by
  induction tiles generalizing cell with
  | nil => rfl
  | cons t rest ih =>
    have hrest := ih h.2.2.2
    cases ht : t.allocated with
    | false => simpa [dataOf, ht] using hrest
    | true => simp [dataOf, ht, hrest, h.headerAt]

namespace Page

variable {p p' : Page} {i n : Nat}

/-- Bytes that the block at index `i` takes. -/
def footprint (p : Page) (i : Nat) : Nat :=
  (p.blockCells i + if p.kind = .tiled then 1 else 0) * cellBytes

theorem Sound.allocatedBytes_eq (h : p.Sound) (hk : p.kind ≠ .records) :
    p.allocatedBytes = (p.blocks.toList.map p.footprint).sum := by
  cases p with
  | uniform q =>
    obtain ⟨free, hq⟩ := h
    have hmap : q.blocks.toList.map (footprint (.uniform q)) =
        q.blocks.toList.map fun _ => q.blockSize * cellBytes := rfl
    change q.allocatedBytes = (q.blocks.toList.map (footprint (.uniform q))).sum
    rw [hmap, List.map_const', List.sum_replicate, hq.length_blocks, hq.bytes_eq]
    rfl
  | tiled q =>
    obtain ⟨⟨tiles, hq⟩, hpos⟩ := h
    change q.allocatedBytes = (q.blocks.toList.map (footprint (.tiled q))).sum
    rw [hq.bytes_eq, TiledPage.bytesOf, TiledPage.span_filter hq.tiling, ← hq.toList_blocks,
      ← List.sum_map_mul_right]
    refine congrArg List.sum (List.map_congr_left fun i hi => ?_)
    have hcells : 0 < (TiledPage.headerAt q.cells (i - 1)).size - 1 := hpos i hi
    change _ = ((TiledPage.headerAt q.cells (i - 1)).size - 1 + 1) * cellBytes
    rw [Nat.sub_add_cancel (by omega)]
  | large q =>
    change q.allocatedBytes = (q.blocks.toList.map (footprint (.large q))).sum
    rw [LargePage.allocatedBytes, LargePage.blocks]
    cases q.allocated with
    | false => rfl
    | true => simp [footprint, blockCells, kind, LargePage.capacityBytes]
  | records q => exact absurd rfl hk

/-- Pages with the same blocks count the same bytes. -/
theorem Sound.allocatedBytes_congr (h : p.Sound) (h' : p'.Sound) (hkind : p'.kind = p.kind)
    (hk : p.kind ≠ .records) (hblocks : p'.blocks.toList = p.blocks.toList)
    (hextent : ∀ i ∈ p.blocks.toList, p'.blockCells i = p.blockCells i) :
    p'.allocatedBytes = p.allocatedBytes := by
  rw [h.allocatedBytes_eq hk, h'.allocatedBytes_eq (hkind ▸ hk), hblocks]
  refine congrArg List.sum (List.map_congr_left fun i hi => ?_)
  rw [footprint, footprint, hkind, hextent i hi]

theorem Sound.allocatedBytes_of_empty (h : p.Sound) (hk : p.kind ≠ .records)
    (hblocks : p.blocks.toList = []) : p.allocatedBytes = 0 := by
  rw [h.allocatedBytes_eq hk, hblocks, List.map_nil, List.sum_nil]

theorem Gives.allocatedBytes_eq (hg : p.Gives n i p') (h : p.Sound) (hn : 0 < n) :
    p'.allocatedBytes = p.allocatedBytes + (n + if p.kind = .tiled then 1 else 0) * cellBytes := by
  have hk := hg.kind_ne hn
  have hkind : p'.kind = p.kind := by rw [← p'.key_kind, hg.key_eq, p.key_kind]
  have hold : p.blocks.toList.map p'.footprint = p.blocks.toList.map p.footprint :=
    List.map_congr_left fun j hj => by rw [footprint, footprint, hkind, (hg.kept j hj).1]
  have hnew : p'.footprint i = (n + if p.kind = .tiled then 1 else 0) * cellBytes := by
    rw [footprint, hkind, hg.extent]
  calc p'.allocatedBytes = (p'.blocks.toList.map p'.footprint).sum :=
        hg.sound.allocatedBytes_eq (hkind ▸ hk)
    _ = ((i :: p.blocks.toList).map p'.footprint).sum := (hg.blocks_perm.map _).sum_eq
    _ = p'.footprint i + (p.blocks.toList.map p.footprint).sum := by
      rw [List.map_cons, List.sum_cons, hold]
    _ = p.allocatedBytes + (n + if p.kind = .tiled then 1 else 0) * cellBytes := by
      rw [hnew, ← h.allocatedBytes_eq hk, Nat.add_comm]

end Page

end SweptHeap
