import Mathlib
import SweptHeap.Proofs.NextFit

/-!
# Sweeping merges what is free

After a sweep, the blocks that were not answered dead stand where they stood, and the free blocks
are the gaps between them. A `Gap` is said without the two passes of the sweep: it is a stretch of
cells that no block covers and that cannot be made longer. On every sound page the free blocks are
the gaps, since free blocks do not touch; what a sweep adds is which blocks are left.
-/

namespace SweptHeap.TiledPage

variable {ε : Type} {p : TiledPage} {tiles : List TileHeader} {blocks : List (Nat × TileHeader)}

/-- The cell lies behind the sentinel and in none of the blocks. -/
def Uncovered (blocks : List (Nat × TileHeader)) (i : Nat) : Prop :=
  0 < i ∧ i < tiledCells ∧ ∀ x ∈ blocks, i < x.1 ∨ x.1 + x.2.size ≤ i

/-- A stretch of such cells that is as long as can be. -/
structure Gap (blocks : List (Nat × TileHeader)) (first size : Nat) : Prop where
  size_pos : 0 < size
  inside : ∀ i, first ≤ i → i < first + size → Uncovered blocks i
  before : ¬Uncovered blocks (first - 1)
  behind : ¬Uncovered blocks (first + size)

/-- Two gaps with a common cell are the same. -/
theorem Gap.eq_of_common {first size first' size' i : Nat} (h : Gap blocks first size)
    (h' : Gap blocks first' size') (hi : first ≤ i ∧ i < first + size)
    (hi' : first' ≤ i ∧ i < first' + size') : first = first' ∧ size = size' := by
  have hfirst : first = first' := by
    rcases Nat.lt_trichotomy first first' with hlt | he | hlt
    · exact absurd (h.inside (first' - 1) (by omega) (by omega)) h'.before
    · exact he
    · exact absurd (h'.inside (first - 1) (by omega) (by omega)) h.before
  subst hfirst
  refine ⟨rfl, ?_⟩
  rcases Nat.lt_trichotomy size size' with hlt | he | hlt
  · exact absurd (h'.inside (first + size) (by omega) (by omega)) h.behind
  · exact he
  · exact absurd (h.inside (first + size') (by omega) (by omega)) h'.behind

/-- The allocated blocks of a page. -/
def taken (p : TiledPage) : List (Nat × TileHeader) := p.scan.filter (·.2.allocated)

/-- A cell that no allocated block covers belongs to a free one. -/
theorem Sound.free_of_uncovered (h : p.Sound tiles) {i : Nat} (hi : Uncovered p.taken i) :
    ∃ x ∈ p.scan, x.2.allocated = false ∧ x.1 ≤ i ∧ i < x.1 + x.2.size := by
  obtain ⟨hpos, hlt, hout⟩ := hi
  have hspan : i < 1 + span tiles := hlt.trans_eq h.filled.symm
  obtain ⟨x, hx, hlow, hhigh⟩ := placed_covers hpos hspan
  rw [← h.scan_eq] at hx
  refine ⟨x, hx, Bool.eq_false_iff.mpr fun hall => ?_, hlow, hhigh⟩
  have := hout x (List.mem_filter.mpr ⟨hx, hall⟩)
  omega

theorem Sound.gap_of_free (h : p.Sound tiles) {first size : Nat}
    (hx : (first, ⟨false, size⟩) ∈ p.scan) : Gap p.taken first size := by
  have hplaced : (first, ⟨false, size⟩) ∈ placed 1 tiles := h.scan_eq ▸ hx
  have hpos := h.tiling.size_pos
  obtain ⟨hmem, hfirst, hend⟩ := placed_bounds hplaced
  have hsize : 0 < size := hpos _ hmem
  replace hend : first + size ≤ tiledCells := hend.trans_eq h.filled
  have hapart (y : Nat × TileHeader) (hy : y ∈ p.scan) := placed_apart hplaced (h.scan_eq ▸ hy)
  have htouch (x y : Nat × TileHeader) (hx : x ∈ p.scan) (hy : y ∈ p.scan) :=
    h.parted.of_touching hpos (h.scan_eq ▸ hx : x ∈ placed 1 tiles) (h.scan_eq ▸ hy)
  refine ⟨hsize, fun i hlow hhigh => ⟨by omega, by omega, fun y hy => ?_⟩, fun hbefore => ?_,
    fun hbehind => ?_⟩
  · obtain ⟨hy, hall⟩ := List.mem_filter.mp hy
    rcases hapart y hy with rfl | hle | hle
    · cases hall
    · exact .inl (hhigh.trans_le hle)
    · exact .inr (hle.trans hlow)
  · -- A free block in front of this one would touch it.
    obtain ⟨y, hy, hfree, hlow, hhigh⟩ := h.free_of_uncovered hbefore
    have hlt := hbefore.1
    rcases hapart y hy with rfl | hle | hle
    · simp only at hlow
      omega
    · simp only at hle
      omega
    · have := htouch y _ hy hx (by simp only at hle ⊢; omega)
      simp [hfree] at this
  · obtain ⟨y, hy, hfree, hlow, hhigh⟩ := h.free_of_uncovered hbehind
    rcases hapart y hy with rfl | hle | hle
    · simp only at hhigh
      omega
    · have := htouch _ y hx hy (by simp only at hle ⊢; omega)
      simp [hfree] at this
    · simp only at hle
      omega

/-- The free blocks are the gaps between the allocated ones. -/
theorem Sound.mem_free_iff (h : p.Sound tiles) {first size : Nat} :
    (first, ⟨false, size⟩) ∈ p.scan ↔ Gap p.taken first size := by
  refine ⟨h.gap_of_free, fun hgap => ?_⟩
  have hcell := hgap.inside first (Nat.le_refl _) (by have := hgap.size_pos; omega)
  obtain ⟨⟨first', allocated, size'⟩, hx, hfree, hin⟩ := h.free_of_uncovered hcell
  obtain rfl : allocated = false := hfree
  obtain ⟨rfl, rfl⟩ :=
    hgap.eq_of_common (h.gap_of_free hx) ⟨Nat.le_refl _, by have := hgap.size_pos; omega⟩ hin
  exact hx

/-! ### The cursor -/

/-- The cursor stands at the first of the largest free blocks, or nowhere if there is none. -/
def AtLargest (blocks : List (Nat × TileHeader)) (cursor : Nat) : Prop :=
  (cursor = 0 ∧ ∀ x ∈ blocks, x.2.allocated = true) ∨
    ∃ x ∈ blocks, x.1 = cursor ∧ x.2.allocated = false ∧ ∀ y ∈ blocks, y.2.allocated = false →
      y.2.size < x.2.size ∨ (y.2.size = x.2.size ∧ x.1 ≤ y.1)

theorem atLargest_largest (hpos : ∀ t ∈ tiles, 0 < t.size) :
    AtLargest (placed 1 tiles) (largest 1 tiles (0, 0)).1 := by
  have hle := (le_largest 1 tiles (0, 0)).2
  rcases largest_cases 1 tiles (0, 0) with he | ⟨front, t, back, rfl, hfree, he, -, hfront⟩
  · rw [he] at hle ⊢
    refine .inl ⟨rfl, fun x hx => ?_⟩
    have hmem := (placed_bounds hx).1
    by_contra hx
    have := hle _ hmem (Bool.eq_false_iff.mpr hx)
    have := hpos _ hmem
    omega
  · rw [he] at hle ⊢
    refine .inr ⟨(1 + span front, t), mem_placed.mpr ⟨front, t, back, rfl, rfl⟩, rfl, hfree,
      fun y hy hyfree => ?_⟩
    have hmem := (placed_bounds hy).1
    rw [placed_append] at hy
    rcases List.mem_append.mp hy with hy | hy
    · exact .inl (hfront _ (placed_bounds hy).1 hyfree)
    · exact (hle _ hmem hyfree).lt_or_eq.imp_right fun heq => ⟨heq, (placed_bounds hy).2.1⟩

/-! ### The blocks that are left -/

theorem filter_placed_coalesce (cell n : Nat) (tiles : List TileHeader) :
    (placed cell (coalesce n tiles)).filter (·.2.allocated) =
      (placed (cell + n) tiles).filter (·.2.allocated) := by
  have hfree (cell n : Nat) : (placed cell (freeTile n)).filter (·.2.allocated) = [] := by
    unfold freeTile
    split_ifs <;> simp [placed]
  induction tiles generalizing cell n with
  | nil => simp [coalesce, hfree, placed]
  | cons t rest ih =>
    rw [coalesce]
    split_ifs with ht
    · simp [placed_append, placed, hfree, ht, ih]
    · rw [ih, placed, List.filter_cons_of_neg (by exact ht), Nat.add_assoc]

/-- A hearing frees the tile of its block, or leaves it alone. -/
theorem filter_placed_judged {cell : Nat} {hearings : List Hearing} (hpos : ∀ t ∈ tiles, 0 < t.size)
    (h : hearings.map (·.1.index) = dataOf cell tiles) :
    (placed cell (judged tiles hearings)).filter (·.2.allocated) =
      (placed cell tiles).filter fun x => x.2.allocated && x.1 + 1 ∉ condemned hearings := by
  induction tiles generalizing cell hearings with
  | nil => simp [judged, placed]
  | cons t rest ih =>
    have hsize := hpos t List.mem_cons_self
    have hrest : ∀ u ∈ rest, 0 < u.size := fun u hu => hpos u (List.mem_cons_of_mem _ hu)
    cases ht : t.allocated with
    | false =>
      rw [dataOf, if_neg (by simp [ht])] at h
      rw [judged_free ht, placed, placed, List.filter_cons_of_neg (by simp [ht]),
        List.filter_cons_of_neg (by simp [ht]), ih hrest h]
    | true =>
      rw [dataOf, if_pos ht] at h
      cases hearings with
      | nil => simp at h
      | cons x hearings =>
        obtain ⟨hx, htail⟩ := List.cons_eq_cons.mp h
        have hmem (i : Nat) : i ∈ condemned (x :: hearings) ↔
            x.2.spares = false ∧ cell + 1 = i ∨ i ∈ condemned hearings := by
          simp [mem_condemned, hx]
        have hself : cell + 1 ∉ condemned hearings := fun hc => by
          obtain ⟨y, hy, -, he⟩ := mem_condemned.mp hc
          have hbehind : y.1.index ∈ dataOf (cell + t.size) rest := htail ▸ List.mem_map_of_mem hy
          have := lt_of_mem_dataOf hbehind
          omega
        -- The blocks behind this one have other indices.
        have hothers : (placed (cell + t.size) rest).filter (fun y =>
              y.2.allocated && y.1 + 1 ∉ condemned (x :: hearings)) =
            (placed (cell + t.size) rest).filter fun y =>
              y.2.allocated && y.1 + 1 ∉ condemned hearings := by
          refine List.filter_congr fun y hy => ?_
          have hlow := (placed_bounds hy).2.1
          simp only [hmem, show cell + 1 ≠ y.1 + 1 by omega, and_false, false_or]
        rw [judged, if_pos ht, placed, placed]
        cases hs : x.2.spares with
        | false =>
          rw [List.filter_cons_of_neg (by simp), List.filter_cons_of_neg (by simp [hmem, hs]),
            hothers, ih hrest htail]
        | true =>
          rw [List.filter_cons_of_pos rfl, List.filter_cons_of_pos (by simp [hmem, hs, ht, hself]),
            hothers, ih hrest htail, ← ht]

/-- The allocated blocks that were not answered dead. -/
def remaining (p : TiledPage) (hearings : List Hearing) : List (Nat × TileHeader) :=
  p.taken.filter (·.1 + 1 ∉ condemned hearings)

theorem Sound.taken_swept {hearings : List Hearing} {p' : TiledPage} (h : p.Sound tiles)
    (hswept : p.SweptTo tiles hearings p') (hindex : hearings.map (·.1.index) = p.blocks.toList) :
    p'.taken = p.remaining hearings := by
  rw [h.toList_blocks] at hindex
  rw [taken, hswept.sound.scan_eq, filter_placed_coalesce, Nat.add_zero,
    filter_placed_judged h.tiling.size_pos hindex, remaining, taken, h.scan_eq, List.filter_filter]
  exact List.filter_congr fun x _ => Bool.and_comm _ _

theorem Sound.map_taken (h : p.Sound tiles) : p.taken.map (·.1 + 1) = p.blocks.toList := by
  rw [taken, h.scan_eq, ← dataOf_eq, h.toList_blocks]

/-! ### Sweeps -/

/-- A sweep asks about the allocated blocks, once each and in order. Those not answered dead stay
where they are with what they hold, but for a mark that is cleared on the way, and are counted; the
gaps between them are the free blocks; the cursor goes to the first of the largest gaps; and a page
with nothing left has room for the largest block there can be. -/
theorem sweep_merges (h : Reached p) (ask : Sight → ε → Ruling × ε)
    (hmark : p.Markable ask) (env : ε) :
    ∃ hearings env' p', hear ask (p.taken.map fun x => sightAt p.cells (x.1 + 1)) env =
      (hearings, env') ∧
      p.sweep ask env = ⟨p', env', countFates hearings, (toFinalize hearings).toArray,
        (p.remaining hearings).isEmpty, none⟩ ∧
      p'.taken = p.remaining hearings ∧
      (∀ x ∈ hearings, x.2.fate ≠ .dead → ∀ i < p.blockCells x.1.index, p'.cells[x.1.index + i]? =
        if i = 0 ∧ x.2.unmark = true then some .zero else p.cells[x.1.index + i]?) ∧
      (∀ first size, (first, ⟨false, size⟩) ∈ p'.scan ↔ Gap (p.remaining hearings) first size) ∧
      AtLargest p'.scan p'.cursor ∧
      p'.allocatedBytes = cellBytes * ((p.remaining hearings).map (·.2.size)).sum ∧
      (p.remaining hearings = [] → p'.hasRoom largestTiled = .ok true) := by
  obtain ⟨tiles, hp⟩ := h.sound
  obtain ⟨hearings, env', p', hheard, hswept, heq⟩ := hp.sweep ask hmark env
  have hindex : hearings.map (·.1.index) = p.blocks.toList := by
    have := congrArg (List.map Sight.index) (map_fst_of_hear hheard)
    simpa [sightAt, Function.comp_def] using this
  have htaken := hp.taken_swept hswept hindex
  have hsurvivors : survivors hearings = (p.remaining hearings).map (·.1 + 1) := by
    rw [← htaken, hswept.sound.map_taken, hswept.blocks_eq]
  refine ⟨hearings, env', p', ?_, ?_, htaken, fun x hx hlive => ?_, fun first size => ?_,
    ?_, ?_, fun hnone => ?_⟩
  · rwa [← hp.map_taken, List.map_map] at hheard
  · rw [heq, hsurvivors, List.isEmpty_map]
  · exact (hswept.kept x hx (decide_eq_true hlive)).2
  · rw [← htaken]
    exact hswept.sound.mem_free_iff
  · rw [hswept.sound.scan_eq, hswept.cursor_eq]
    exact atLargest_largest hswept.sound.tiling.size_pos
  · rw [← htaken, taken, hswept.sound.scan_eq, ← bytesOf_eq]
    exact hswept.sound.bytes_eq
  · have hblocks : p'.blocks.toList = [] := by
      rw [hswept.blocks_eq, hsurvivors, hnone, List.map_nil]
    have hp' := hswept.sound
    rw [hp'.eq_single hblocks] at hp'
    rw [hp'.hasRoom_eq (by decide)]
    rfl

/-- The first of two blocks is dead, and what it took goes to the free block in front of it. -/
theorem sweep_merges_pair : ∃ p p', Reached p ∧
    p.scan = [(1, ⟨false, 32756⟩), (32757, ⟨true, 3⟩), (32760, ⟨true, 5⟩)] ∧
    p.sweep (fun s n => (⟨if s.index = 32758 then .dead else .finalize, true⟩, n + 1)) 0 =
      ⟨p', 2, ⟨0, 1, 1, 0⟩, #[32761], false, none⟩ ∧
    p'.taken = [(32760, ⟨true, 5⟩)] ∧ (1, ⟨false, 32759⟩) ∈ p'.scan ∧ p'.allocatedBytes = 40 := by
  have hfirst : Sound (create.allocate 4).2 [⟨false, 32759⟩, ⟨true, 5⟩] :=
    allocate_fresh (by decide)
  have hp : Sound ((create.allocate 4).2.allocate 2).2 [⟨false, 32756⟩, ⟨true, 3⟩, ⟨true, 5⟩] :=
    hfirst.allocate_head (by simp) (by decide) rfl
  have hr : Reached ((create.allocate 4).2.allocate 2).2 :=
    .allocate (.allocate .create (by decide)) (by decide)
  generalize ((create.allocate 4).2.allocate 2).2 = p at hp hr
  have htaken : p.taken = [(32757, ⟨true, 3⟩), (32760, ⟨true, 5⟩)] := by
    rw [taken, hp.scan_eq]
    rfl
  have hmark :
      p.Markable fun s n => (⟨if s.index = 32758 then .dead else .finalize, true⟩, n + 1) := by
    intro i hi hzero
    obtain ⟨front, t, back, he, -, rfl⟩ := hp.mem_blocks.mp hi
    have hthree : ∀ u ∈ [⟨false, 32756⟩, ⟨true, 3⟩, (⟨true, 5⟩ : TileHeader)], 3 ≤ u.size := by
      decide
    rw [he] at hp hthree
    have := hthree t (by simp)
    rw [hp.blockCells_eq] at hzero
    omega
  obtain ⟨hearings, env', p', hheard, heq, hleft, -, hfree, -, hbytes, -⟩ := sweep_merges hr
    (fun s n => (⟨if s.index = 32758 then .dead else .finalize, true⟩, n + 1)) hmark 0
  rw [htaken] at hheard
  obtain rfl :
      [(sightAt p.cells 32758, ⟨.dead, true⟩), (sightAt p.cells 32761, ⟨.finalize, true⟩)] =
        hearings :=
    congrArg Prod.fst hheard
  obtain rfl : 2 = env' := congrArg Prod.snd hheard
  have hremaining : p.remaining
      [(sightAt p.cells 32758, ⟨.dead, true⟩), (sightAt p.cells 32761, ⟨.finalize, true⟩)] =
        [(32760, ⟨true, 5⟩)] := by
    rw [remaining, htaken]
    rfl
  rw [hremaining] at heq hleft hbytes
  refine ⟨p, p', hr, hp.scan_eq, heq, hleft, (hfree 1 32759).mpr ?_, hbytes⟩
  rw [hremaining]
  have hcells : tiledCells = 32765 := rfl
  refine ⟨by decide, fun i hlow hhigh => ⟨by omega, by omega, ?_⟩, fun hbefore => ?_,
    fun hbehind => ?_⟩
  · simp
    omega
  · exact absurd hbefore.1 (by decide)
  · simpa using hbehind.2.2 _ List.mem_cons_self

end SweptHeap.TiledPage
