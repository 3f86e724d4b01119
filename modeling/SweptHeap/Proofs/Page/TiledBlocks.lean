import Mathlib
import SweptHeap.Proofs.Page.Tiling

/-!
# Blocks of a tiled page

A tiled page is `Sound` for a list of tiles when the tiles fill it behind the sentinel, no two free
ones touch, and the cursor stands at a tile or nowhere. Allocation splits a free tile that fits,
which it finds whenever there is one, and leaves all other tiles alone.
-/

namespace SweptHeap.TiledPage

/-- The cursor stands at none of the tiles, or in front of one. -/
def AtTile (tiles : List TileHeader) (cursor : Nat) : Prop :=
  cursor = 0 ∨ cursor ∈ starts 1 tiles

/-- One of two neighbours is allocated. -/
def Parted (tiles : List TileHeader) : Prop :=
  tiles.IsChain fun t u => t.allocated = true ∨ u.allocated = true

/-- Bytes of the allocated tiles. -/
def bytesOf (tiles : List TileHeader) : Nat := span (tiles.filter (·.allocated)) * cellBytes

structure Sound (p : TiledPage) (tiles : List TileHeader) : Prop where
  length_eq : p.cells.size = tiledCells
  sentinel : p.cells[0]? = some .zero
  tiling : Tiling p.cells 1 tiles
  filled : 1 + span tiles = tiledCells
  parted : Parted tiles
  cursor : AtTile tiles p.cursor
  bytes_eq : p.allocatedBytes = bytesOf tiles

variable {p : TiledPage} {tiles front back : List TileHeader} {t : TileHeader} {need : Nat}

namespace Sound

theorem length_lt (h : p.Sound tiles) : tiles.length < tiledCells := by
  have := h.tiling.length_le
  have := h.filled
  omega

theorem toList_blocks (h : p.Sound tiles) : p.blocks.toList = dataOf 1 tiles := by
  rw [blocks, toList_blocksFrom #[] h.tiling h.filled h.length_lt]
  simp

theorem hasRoom_eq (h : p.Sound tiles) {cells : Nat} (hn : cells + 1 < countLimit) :
    p.hasRoom cells = .ok (tiles.any (Fits (cells + 1))) := by
  rw [hasRoom, needed, if_pos hn]
  simp only [Except.map, fitsFrom_eq h.tiling h.filled h.length_lt]

theorem tile (h : p.Sound (front ++ t :: back)) : Tiling p.cells (1 + span front) (t :: back) :=
  (tiling_append.mp h.tiling).2

theorem tile_le (h : p.Sound (front ++ t :: back)) : 1 + span front + t.size ≤ tiledCells := by
  have := h.filled
  rw [span_append, span_cons] at this
  omega

theorem blockCells_eq (h : p.Sound (front ++ t :: back)) :
    p.blockCells (1 + span front + 1) = t.size - 1 := by
  rw [blockCells, Nat.add_sub_cancel, h.tile.headerAt]

end Sound

theorem create_sound : create.Sound [⟨false, tiledCells - 1⟩] := by
  have hcells : tiledCells = 32765 := rfl
  refine ⟨by simp [create], ?_, ⟨?_, ?_, ?_, trivial⟩, ?_, by simp [Parted], ?_, rfl⟩
  · simp [create, hcells]
  · simp [create, hcells]
  · simp [hcells]
  · intro _ i h1 h2
    simp only [hcells] at h2
    rw [create, Array.getElem?_setIfInBounds, if_neg (by omega), Array.getElem?_replicate,
      if_pos (by omega)]
  · simp [hcells]
  · exact .inr (by simp [starts, create])

/-- A free tile after `need` cells were split off its end. -/
def carved (t : TileHeader) (need : Nat) : List TileHeader :=
  if t.size = need then [⟨true, need⟩] else [⟨false, t.size - need⟩, ⟨true, need⟩]

theorem fits_iff : Fits need t = true ↔ t.allocated = false ∧ need ≤ t.size := by
  simp [Fits]

theorem span_carved (h : need ≤ t.size) : span (carved t need) = t.size := by
  unfold carved
  split_ifs with he
  · simp [he]
  · simp only [span_cons, span_nil]
    omega

/-- The allocated tile is the last one of a carved tile. -/
theorem carved_eq (t : TileHeader) (need : Nat) :
    ∃ pre, carved t need = pre ++ [⟨true, need⟩] ∧ span pre = t.size - need ∧
      ∀ cell, dataOf cell pre = [] := by
  unfold carved
  split_ifs with he
  · exact ⟨[], rfl, by simp [he], fun _ => rfl⟩
  · exact ⟨[⟨false, t.size - need⟩], rfl, by simp, fun _ => by simp [dataOf]⟩

theorem parted_carved (hfree : t.allocated = false) (h : Parted (front ++ t :: back)) :
    Parted (front ++ carved t need ++ back) := by
  unfold Parted at h ⊢
  rw [List.isChain_append, List.isChain_cons] at h
  obtain ⟨hfront, ⟨hnext, hback⟩, hlast⟩ := h
  have hlast' : ∀ x ∈ front.getLast?, x.allocated = true := by
    intro x hx
    have := hlast x hx t (by simp)
    simpa [hfree] using this
  have hcarved : (carved t need).IsChain fun t u => t.allocated = true ∨ u.allocated = true := by
    unfold carved
    split_ifs <;> simp
  have hend : ∀ x ∈ (carved t need).getLast?, x.allocated = true := by
    unfold carved
    split_ifs <;> simp
  rw [List.append_assoc, List.isChain_append, List.isChain_append]
  refine ⟨hfront, ⟨hcarved, hback, fun x hx y _ => .inl (hend x hx)⟩, fun x hx y _ =>
    .inl (hlast' x hx)⟩

theorem bytesOf_carved (hfree : t.allocated = false) :
    bytesOf (front ++ carved t need ++ back) = bytesOf (front ++ t :: back) + need * cellBytes := by
  have hcarved : span ((carved t need).filter (·.allocated)) = need := by
    unfold carved
    split_ifs <;> simp
  simp only [bytesOf, List.filter_append, span_append, hcarved,
    List.filter_cons_of_neg (p := fun t : TileHeader => t.allocated)
    (by simp [hfree] : ¬ t.allocated)]
  ring

theorem atTile_carved {cursor : Nat} (hfit : need ≤ t.size)
    (h : AtTile (front ++ t :: back) cursor) : AtTile (front ++ carved t need ++ back) cursor := by
  rcases h with rfl | h
  · exact .inl rfl
  · right
    have hhead : 1 + span front ∈ starts (1 + span front) (carved t need) := by
      unfold carved
      split_ifs <;> simp [starts]
    rw [starts_append, starts, List.mem_append, List.mem_cons] at h
    rw [List.append_assoc, starts_append, starts_append, span_carved hfit, List.mem_append,
      List.mem_append]
    rcases h with h | rfl | h
    · exact .inl h
    · exact .inr (.inl hhead)
    · exact .inr (.inr h)

/-- The page with `need` cells split off the end of the tile `t`. -/
structure CarvedTo (p : TiledPage) (front : List TileHeader) (t : TileHeader)
    (back : List TileHeader) (need : Nat) (p' : TiledPage) : Prop where
  sound : p'.Sound (front ++ carved t need ++ back)
  outside : ∀ i, i < 1 + span front ∨ 1 + span front + t.size ≤ i → p'.cells[i]? = p.cells[i]?
  zero : ∀ i, 1 + span front + (t.size - need) < i → i < 1 + span front + t.size →
    p'.cells[i]? = some .zero

/-- The headers of a carved tile, written into its cells. -/
theorem tiling_carved {cells : Array Cell} {cell : Nat} (h : Tiling cells cell [t])
    (hfit : Fits need t = true) (hneed : 0 < need) (hroom : cell + t.size ≤ cells.size) :
    let cells' := (if t.size - need = 0 then cells
      else cells.setIfInBounds cell (.header ⟨false, t.size - need⟩)).setIfInBounds
        (cell + (t.size - need)) (.header ⟨true, need⟩)
    cells'.size = cells.size ∧ Tiling cells' cell (carved t need) ∧
      ∀ i, i < cell ∨ cell + t.size ≤ i ∨ cell + (t.size - need) < i → cells'[i]? = cells[i]? := by
  obtain ⟨hfree, hle⟩ := fits_iff.mp hfit
  have hzero := h.2.2.1 hfree
  intro cells'
  by_cases hrest : t.size - need = 0
  · have hcells : cells' = cells.setIfInBounds cell (.header ⟨true, need⟩) := by
      simp [cells', hrest]
    refine ⟨by simp [hcells], ?_, fun i hi => ?_⟩
    · rw [carved, if_pos (by omega), hcells]
      refine ⟨?_, hneed, by simp, trivial⟩
      simp [show cell < cells.size by omega]
    · rw [hcells, Array.getElem?_setIfInBounds, if_neg (by omega)]
  · have hcells : cells' = (cells.setIfInBounds cell (.header ⟨false, t.size - need⟩)).setIfInBounds
        (cell + (t.size - need)) (.header ⟨true, need⟩) := by
      simp [cells', hrest]
    refine ⟨by simp [hcells], ?_, fun i hi => ?_⟩
    · rw [carved, if_neg (by omega), hcells]
      refine ⟨?_,
        by show 0 < t.size - need; omega, fun _ i h1 h2 => ?_, ?_, hneed, by simp, trivial⟩
      · rw [Array.getElem?_setIfInBounds, if_neg (by omega), Array.getElem?_setIfInBounds,
          if_pos rfl, if_pos (by omega)]
      · replace h2 : i < cell + (t.size - need) := h2
        rw [Array.getElem?_setIfInBounds, if_neg (by omega), Array.getElem?_setIfInBounds,
          if_neg (by omega)]
        exact hzero i h1 (by omega)
      · simp only [Array.getElem?_setIfInBounds, if_true, Array.size_setIfInBounds]
        rw [if_pos (by omega)]
    · rw [hcells, Array.getElem?_setIfInBounds, if_neg (by omega), Array.getElem?_setIfInBounds,
        if_neg (by omega)]

theorem Sound.carve (h : p.Sound (front ++ t :: back)) (hfit : Fits need t = true)
    (hneed : 0 < need) :
    ∃ p', p.carve (1 + span front) need =
        (.ok (some (1 + span front + (t.size - need) + 1)), p') ∧
      p.CarvedTo front t back need p' := by
  obtain ⟨hfree, hle⟩ := fits_iff.mp hfit
  have hend := h.tile_le
  have hpos := h.tile.2.1
  have hone : Tiling p.cells (1 + span front) [t] := ⟨h.tile.1, hpos, h.tile.2.2.1, trivial⟩
  have hroom : 1 + span front + t.size ≤ p.cells.size := by rw [h.length_eq]; exact hend
  obtain ⟨hsize, htiles, hother⟩ := tiling_carved hone hfit hneed hroom
  refine ⟨⟨(if t.size - need = 0 then p.cells
      else p.cells.setIfInBounds (1 + span front) (.header ⟨false, t.size - need⟩)).setIfInBounds
        (1 + span front + (t.size - need)) (.header ⟨true, need⟩), p.cursor,
        p.allocatedBytes + need * cellBytes⟩, ?_, ?_, ?_, ?_⟩
  · simp only [TiledPage.carve, h.tile.headerAt, hfree]
    rw [if_neg (by omega), if_neg (by simp; omega), if_neg (by omega)]
  · obtain ⟨hfront, hback⟩ := tiling_append.mp h.tiling
    refine ⟨hsize.trans h.length_eq, ?_, ?_, ?_, parted_carved hfree h.parted,
      atTile_carved hle h.cursor, ?_⟩
    · rw [hother 0 (by omega)]
      exact h.sentinel
    · rw [List.append_assoc, tiling_append, tiling_append, span_carved hle]
      refine ⟨hfront.congr fun i h1 h2 => hother i (by omega), htiles, ?_⟩
      exact hback.2.2.2.congr fun i h1 h2 => hother i (by omega)
    · have := h.filled
      simp only [span_append, span_cons, span_carved hle] at this ⊢
      omega
    · rw [bytesOf_carved hfree, ← h.bytes_eq]
  · exact fun i hi => hother i (by omega)
  · intro i h1 h2
    rw [hother i (by omega)]
    exact h.tile.2.2.1 hfree i (by omega) h2

/-- The tiles before the place where the search begins, and those behind it. -/
theorem AtTile.split {cursor : Nat} (h : AtTile tiles cursor) :
    ∃ front back, tiles = front ++ back ∧ max cursor 1 = 1 + span front := by
  rcases h with rfl | h
  · exact ⟨[], tiles, rfl, rfl⟩
  · obtain ⟨front, t, back, rfl, rfl⟩ := mem_starts.mp h
    exact ⟨front, t :: back, rfl, by omega⟩

theorem Sound.nextCursor_eq (h : p.Sound (front ++ back)) (hc : max p.cursor 1 = 1 + span front) :
    p.nextCursor need = (firstFit need (1 + span front) back).getD
      (largest 1 front (largest (1 + span front) back (0, 0))).1 := by
  obtain ⟨hfront, hback⟩ := tiling_append.mp h.tiling
  have hfilled := h.filled
  have hlen := h.length_lt
  rw [span_append] at hfilled
  rw [List.length_append] at hlen
  rw [nextCursor]
  simp only [hc]
  rw [search_eq (0, 0) hback (by omega) (by omega)]
  cases firstFit need (1 + span front) back with
  | some k => rfl
  | none =>
    simp only [Option.getD_none]
    rw [largestFree_eq _ hfront rfl (by omega)]

/-- The tile from which next-fit takes `need` cells, of the tiles that fit: the one under the
cursor, else the first one behind the cursor, else the first of the largest free tiles of the
page. -/
inductive Chosen (need cursor : Nat) (tiles : List (Nat × TileHeader)) (x : Nat × TileHeader) : Prop
  | here (h : x.1 = cursor)
  | behind (h : cursor < x.1) (first : ∀ y ∈ tiles, Fits need y.2 = true → cursor ≤ y.1 → x.1 ≤ y.1)
  | wrapped (none : ∀ y ∈ tiles, Fits need y.2 = true → y.1 < cursor)
      (largest : ∀ y ∈ tiles, y.2.allocated = false →
        y.2.size < x.2.size ∨ (y.2.size = x.2.size ∧ x.1 ≤ y.1))

/-- If some free tile is large enough, the cursor moves to one that is. -/
theorem Sound.nextCursor_fits (h : p.Sound tiles) (hneed : 0 < need)
    (hany : tiles.any (Fits need) = true) :
    ∃ front t back, tiles = front ++ t :: back ∧ Fits need t = true ∧
      p.nextCursor need = 1 + span front ∧
      Chosen need p.cursor (placed 1 tiles) (1 + span front, t) := by
  have hpos := h.tiling.size_pos
  obtain ⟨front, back, rfl, hc⟩ := h.cursor.split
  rw [h.nextCursor_eq hc, placed_append]
  -- The tiles of the front part lie before the cursor.
  have hfront : ∀ y ∈ placed 1 front, y.1 < p.cursor := fun y hy => by
    have := placed_bounds hy
    have := hpos y.2 (List.mem_append_left _ this.1)
    omega
  cases hfirst : firstFit need (1 + span front) back with
  | some k =>
    obtain ⟨front', t, back', rfl, hfit, rfl, hno⟩ := firstFit_eq_some hfirst
    refine ⟨front ++ front', t, back', by simp, hfit, by simp [Nat.add_assoc], ?_⟩
    rw [span_append, ← Nat.add_assoc]
    rcases (show p.cursor ≤ 1 + span front + span front' by omega).eq_or_lt with he | hlt
    · exact .here he.symm
    refine .behind hlt fun y hy hyfit hle => ?_
    rcases List.mem_append.mp hy with hy | hy
    · exact absurd (hfront y hy) (Nat.not_lt.mpr hle)
    rw [placed_append] at hy
    rcases List.mem_append.mp hy with hy | hy
    · simp [hno _ (placed_bounds hy).1] at hyfit
    · exact (placed_bounds hy).2.1
  | none =>
    have hnone := firstFit_eq_none.mp hfirst
    rw [List.any_append, hnone, Bool.or_false] at hany
    obtain ⟨u, hu, hfit⟩ := List.any_eq_true.mp hany
    obtain ⟨hfree, hle⟩ := fits_iff.mp hfit
    have hbest : (largest (1 + span front) back (0, 0)).2 < need := by
      rcases largest_cases (1 + span front) back (0, 0) with he | ⟨f, t, b, rfl, ht, he, -⟩
      · rw [he]
        exact hneed
      · rw [he]
        have := List.any_eq_false.mp hnone t (by simp)
        simpa [Fits, ht] using this
    have hreach := (le_largest 1 front (largest (1 + span front) back (0, 0))).2 u hu hfree
    rcases largest_cases 1 front (largest (1 + span front) back (0, 0)) with
      he | ⟨f, t, b, rfl, ht, he, hbehind, hbefore⟩
    · rw [he] at hreach
      omega
    · rw [he] at hreach
      refine ⟨f, t, b ++ back, by simp, fits_iff.mpr ⟨ht, Nat.le_trans hle hreach⟩, ?_, ?_⟩
      · rw [Option.getD_none, he]
      refine .wrapped (fun y hy hyfit => ?_) fun y hy hyfree => ?_
      · rcases List.mem_append.mp hy with hy | hy
        · exact hfront y hy
        · exact absurd hyfit (List.any_eq_false.mp hnone _ (placed_bounds hy).1)
      · rcases List.mem_append.mp hy with hy | hy
        · have hsize :=
            (le_largest 1 _ (largest (1 + span (f ++ t :: b)) back (0, 0))).2 _ (placed_bounds hy).1
            hyfree
          rw [he] at hsize
          rw [placed_append] at hy
          rcases List.mem_append.mp hy with hy | hy
          · exact .inl (hbefore _ (placed_bounds hy).1 hyfree)
          · exact hsize.lt_or_eq.imp_right fun heq => ⟨heq, (placed_bounds hy).2.1⟩
        · have hsize :=
            (le_largest (1 + span (f ++ t :: b)) back (0, 0)).2 _ (placed_bounds hy).1 hyfree
          exact .inl (hsize.trans_lt hbehind)

theorem Sound.nextCursor_atTile (h : p.Sound tiles) (need : Nat) :
    AtTile tiles (p.nextCursor need) := by
  obtain ⟨front, back, rfl, hc⟩ := h.cursor.split
  rw [h.nextCursor_eq hc]
  have hback {k : Nat} (hk : k ∈ starts (1 + span front) back) : AtTile (front ++ back) k :=
    .inr (by rw [starts_append]; exact List.mem_append_right _ hk)
  cases hfirst : firstFit need (1 + span front) back with
  | some k =>
    obtain ⟨front', t, back', rfl, -, rfl, -⟩ := firstFit_eq_some hfirst
    exact hback (mem_starts.mpr ⟨front', t, back', rfl, rfl⟩)
  | none =>
    rw [Option.getD_none]
    rcases largest_cases 1 front (largest (1 + span front) back (0, 0)) with
      he | ⟨f, t, b, rfl, -, he, -⟩
    · rw [he]
      rcases largest_cases (1 + span front) back (0, 0) with he | ⟨f, t, b, rfl, -, he, -⟩
      · rw [he]
        exact .inl rfl
      · rw [he]
        exact hback (mem_starts.mpr ⟨f, t, b, rfl, rfl⟩)
    · rw [he]
      exact .inr (mem_starts.mpr ⟨f, t, b ++ back, by simp, rfl⟩)

/-- A cursor that stands nowhere, or at a tile that does not fit, gives nothing. -/
theorem Sound.carve_none (h : p.Sound tiles) (hneed : 0 < need) {cell : Nat}
    (hc : cell = 0 ∨ ∃ front t back, tiles = front ++ t :: back ∧ Fits need t = false ∧
      cell = 1 + span front) : p.carve cell need = (.ok none, p) := by
  rcases hc with rfl | ⟨front, t, back, rfl, hfit, rfl⟩
  · have hzero : headerAt p.cells 0 = ⟨false, 0⟩ := by
      simp [headerAt, Array.getD_eq_getD_getElem?, h.sentinel]
    simp [TiledPage.carve, hzero, hneed]
  · have hend := h.tile_le
    simp only [TiledPage.carve, h.tile.headerAt]
    rw [if_neg (by omega), if_pos]
    simp only [Fits, Bool.and_eq_false_iff, Bool.not_eq_false', decide_eq_false_iff_not,
      Nat.not_le] at hfit
    simpa using hfit

theorem Sound.withCursor (h : p.Sound tiles) {cursor : Nat} (hc : AtTile tiles cursor) :
    Sound { p with cursor := cursor } tiles :=
  ⟨h.length_eq, h.sentinel, h.tiling, h.filled, h.parted, hc, h.bytes_eq⟩

/-- The tile under the cursor, and whether it fits. -/
theorem AtTile.cases {cursor : Nat} (h : AtTile tiles cursor) (need : Nat) :
    (∃ front t back, tiles = front ++ t :: back ∧ Fits need t = true ∧ cursor = 1 + span front) ∨
      (cursor = 0 ∨ ∃ front t back, tiles = front ++ t :: back ∧ Fits need t = false ∧
        cursor = 1 + span front) := by
  rcases h with rfl | h
  · exact .inr (.inl rfl)
  · obtain ⟨front, t, back, rfl, rfl⟩ := mem_starts.mp h
    cases hfit : Fits need t with
    | true => exact .inl ⟨front, t, back, rfl, hfit, rfl⟩
    | false => exact .inr (.inr ⟨front, t, back, rfl, hfit, rfl⟩)

theorem Sound.allocate_some (h : p.Sound tiles) {cells : Nat} (hn : cells + 1 < countLimit)
    (hany : tiles.any (Fits (cells + 1)) = true) :
    ∃ front t back p', tiles = front ++ t :: back ∧ Fits (cells + 1) t = true ∧
      p.allocate cells = (.ok (some (1 + span front + (t.size - (cells + 1)) + 1)), p') ∧
      p.CarvedTo front t back (cells + 1) p' ∧
      Chosen (cells + 1) p.cursor (placed 1 tiles) (1 + span front, t) := by
  rw [allocate, needed, if_pos hn]
  dsimp only
  rcases h.cursor.cases (cells + 1) with ⟨front, t, back, rfl, hfit, hc⟩ | hno
  · obtain ⟨p', hcarve, hp'⟩ := h.carve hfit (Nat.succ_pos _)
    exact ⟨front, t, back, p', rfl, hfit, by rw [hc, hcarve], hp', .here hc.symm⟩
  · rw [h.carve_none (Nat.succ_pos _) hno]
    dsimp only
    obtain ⟨front, t, back, rfl, hfit, hc, hchosen⟩ := h.nextCursor_fits (Nat.succ_pos _) hany
    have h' := h.withCursor (h.nextCursor_atTile (cells + 1))
    obtain ⟨p', hcarve, hp'⟩ := h'.carve hfit (Nat.succ_pos _)
    exact ⟨front, t, back, p', rfl, hfit, by rw [hc] at hcarve ⊢; exact hcarve,
      ⟨hp'.sound, hp'.outside, hp'.zero⟩, hchosen⟩

theorem Sound.allocate_none (h : p.Sound tiles) {cells : Nat} (hn : cells + 1 < countLimit)
    (hany : tiles.any (Fits (cells + 1)) = false) :
    ∃ cursor, p.allocate cells = (.ok none, { p with cursor := cursor }) ∧
      Sound { p with cursor := cursor } tiles := by
  have hno {cursor : Nat} (hc : AtTile tiles cursor) := (hc.cases (cells + 1)).resolve_left (by
    rintro ⟨front, t, back, rfl, hfit, -⟩
    simp [hfit] at hany)
  have h' := h.withCursor (h.nextCursor_atTile (cells + 1))
  refine ⟨p.nextCursor (cells + 1), ?_, h'⟩
  rw [allocate, needed, if_pos hn]
  dsimp only
  rw [h.carve_none (Nat.succ_pos _) (hno h.cursor)]
  dsimp only
  exact h'.carve_none (Nat.succ_pos _) (hno h'.cursor)

/-! ### Blocks and headers -/

theorem Sound.mem_blocks (h : p.Sound tiles) {i : Nat} : i ∈ p.blocks.toList ↔
    ∃ front t back, tiles = front ++ t :: back ∧ t.allocated = true ∧ i = 1 + span front + 1 := by
  rw [h.toList_blocks, mem_dataOf]

/-- Two tiles of a list are the same, or one ends before the other begins. -/
theorem tiles_apart {front' back' : List TileHeader} {u : TileHeader}
    (h : front ++ t :: back = front' ++ u :: back') :
    (front = front' ∧ t = u ∧ back = back') ∨ span front + t.size ≤ span front' ∨
      span front' + u.size ≤ span front := by
  rcases List.append_eq_append_iff.mp h with ⟨mid, rfl, hmid⟩ | ⟨mid, rfl, hmid⟩
  · cases mid with
    | nil =>
      obtain ⟨rfl, rfl⟩ := List.cons_eq_cons.mp hmid
      exact .inl ⟨by simp, rfl, rfl⟩
    | cons v mid =>
      obtain ⟨rfl, -⟩ := List.cons_eq_cons.mp hmid
      refine .inr (.inl ?_)
      rw [span_append, span_cons]
      omega
  · cases mid with
    | nil =>
      obtain ⟨rfl, rfl⟩ := List.cons_eq_cons.mp hmid
      exact .inl ⟨by simp, rfl, rfl⟩
    | cons v mid =>
      obtain ⟨rfl, -⟩ := List.cons_eq_cons.mp hmid
      refine .inr (.inr ?_)
      rw [span_append, span_cons]
      omega

theorem Sound.apart (h : p.Sound tiles) {i j : Nat} (hi : i ∈ p.blocks.toList)
    (hj : j ∈ p.blocks.toList) (hne : i ≠ j) :
    i + p.blockCells i ≤ j ∨ j + p.blockCells j ≤ i := by
  obtain ⟨front, t, back, rfl, -, rfl⟩ := h.mem_blocks.mp hi
  obtain ⟨front', u, back', he, -, rfl⟩ := h.mem_blocks.mp hj
  have ht := h.tile.2.1
  rw [h.blockCells_eq]
  rw [he] at h
  have hu := h.tile.2.1
  rw [h.blockCells_eq]
  rcases tiles_apart he with ⟨rfl, -, -⟩ | hle | hle
  · exact absurd rfl hne
  · omega
  · omega

theorem Sound.block_le (h : p.Sound tiles) {i : Nat} (hi : i ∈ p.blocks.toList) :
    i + p.blockCells i ≤ p.cells.size := by
  obtain ⟨front, t, back, rfl, -, rfl⟩ := h.mem_blocks.mp hi
  have := h.tile_le
  have := h.tile.2.1
  rw [h.blockCells_eq, h.length_eq]
  omega

theorem Sound.blocks_nodup (h : p.Sound tiles) : p.blocks.toList.Nodup := by
  rw [h.toList_blocks]
  suffices ∀ cell, Tiling p.cells cell tiles → (dataOf cell tiles).Nodup from this 1 h.tiling
  clear h
  induction tiles with
  | nil => simp [dataOf]
  | cons t rest ih =>
    intro cell h
    have hrest := ih (cell + t.size) h.2.2.2
    rw [dataOf]
    split_ifs
    · refine List.nodup_cons.mpr ⟨fun hmem => ?_, hrest⟩
      obtain ⟨front, u, back, -, -, he⟩ := mem_dataOf.mp hmem
      have := h.2.1
      omega
    · exact hrest

def headersFrom (cells : Array Cell) : (left cell : Nat) → List Nat
  | 0, _ => []
  | left + 1, cell =>
    if tiledCells ≤ cell then []
    else cell :: headersFrom cells left (cell + (headerAt cells cell).size)

/-- The cells of the page that hold a header, the sentinel among them. -/
def headers (p : TiledPage) : List Nat := 0 :: headersFrom p.cells tiledCells 1

theorem headersFrom_eq {cells : Array Cell} {cell left : Nat} (h : Tiling cells cell tiles)
    (hend : cell + span tiles = tiledCells) (hleft : tiles.length < left) :
    headersFrom cells left cell = starts cell tiles := by
  induction tiles generalizing cell left with
  | nil =>
    obtain ⟨left, rfl⟩ : ∃ n, left = n + 1 := ⟨left - 1, by simp at hleft; omega⟩
    rw [span_nil, Nat.add_zero] at hend
    simp [headersFrom, hend, starts]
  | cons t rest ih =>
    obtain ⟨left, rfl⟩ : ∃ n, left = n + 1 := ⟨left - 1, by omega⟩
    rw [span_cons] at hend
    have hpos := h.2.1
    rw [headersFrom, if_neg (by omega), h.headerAt, starts,
      ih h.2.2.2 (by omega) (by simpa using hleft)]

theorem Sound.headers_apart (h : p.Sound tiles) {i c : Nat} (hi : i ∈ p.blocks.toList)
    (hc : c ∈ p.headers) : c < i ∨ i + p.blockCells i ≤ c := by
  obtain ⟨front, t, back, rfl, -, rfl⟩ := h.mem_blocks.mp hi
  rw [headers, headersFrom_eq h.tiling h.filled h.length_lt] at hc
  rcases List.mem_cons.mp hc with rfl | hc
  · omega
  · obtain ⟨front', u, back', he, rfl⟩ := mem_starts.mp hc
    have ht := h.tile.2.1
    rw [h.blockCells_eq]
    rw [he] at h
    have hu := h.tile.2.1
    rcases tiles_apart he with ⟨rfl, -, -⟩ | hle | hle
    · omega
    · omega
    · omega

/-- The data of a block may change in any way. -/
theorem Sound.setCell (h : p.Sound tiles) {i j : Nat} (hi : i ∈ p.blocks.toList)
    (hj : j < p.blockCells i) (c : Cell) :
    Sound { p with cells := p.cells.setIfInBounds (i + j) c } tiles := by
  obtain ⟨front, t, back, rfl, ht, rfl⟩ := h.mem_blocks.mp hi
  obtain ⟨hfront, hback⟩ := tiling_append.mp h.tiling
  have hother (k : Nat) (hk : k ≠ 1 + span front + 1 + j) :
      (p.cells.setIfInBounds (1 + span front + 1 + j) c)[k]? = p.cells[k]? := by
    rw [Array.getElem?_setIfInBounds, if_neg (Ne.symm hk)]
  rw [h.blockCells_eq] at hj
  refine ⟨by simpa using h.length_eq, ?_, ?_, h.filled, h.parted, h.cursor, h.bytes_eq⟩
  · exact (hother 0 (by omega)).trans h.sentinel
  · refine tiling_append.mpr ⟨hfront.congr fun k _ hk => hother k (by omega), ?_, hback.2.1,
      by simp [ht], hback.2.2.2.congr fun k hk _ => hother k (by omega)⟩
    exact (hother _ (by omega)).trans hback.1

/-- Without blocks, a page is one free tile. -/
theorem Sound.eq_single (h : p.Sound tiles) (hb : p.blocks.toList = []) :
    tiles = [⟨false, tiledCells - 1⟩] := by
  have hfree : ∀ t ∈ tiles, t.allocated = false := by
    intro t ht
    obtain ⟨front, back, rfl⟩ := List.append_of_mem ht
    by_contra hne
    have : 1 + span front + 1 ∈ p.blocks.toList :=
      h.mem_blocks.mpr ⟨front, t, back, rfl, by simpa using hne, rfl⟩
    simp [hb] at this
  have hfilled := h.filled
  match tiles, h.parted with
  | [], _ => simp [tiledCells, pageBytes, PageKind.headerBytes, cellBytes] at hfilled
  | [⟨allocated, size⟩], _ =>
    obtain rfl : allocated = false := hfree _ List.mem_cons_self
    have : 1 + size = tiledCells := by simpa using hfilled
    simp only [List.cons.injEq, TileHeader.mk.injEq, true_and, and_true]
    omega
  | t :: u :: rest, hp =>
    have := (List.isChain_cons_cons.mp hp).1
    simp [hfree t List.mem_cons_self, hfree u (by simp)] at this

end SweptHeap.TiledPage
