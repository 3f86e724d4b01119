import Mathlib
import SweptHeap.Page.Tiled

/-!
# Tilings

The headers of a tiled page name the tiles one after the other. `Tiling` says that a list of headers
lies in the cells from some cell on, each in front of its tile, and that free tiles are zero behind
their headers. The scans of the page, for blocks, for room or for a place to take a block from, are
functions of that list.
-/

namespace SweptHeap.TiledPage

/-- Number of cells that tiles take up. -/
def span (tiles : List TileHeader) : Nat := (tiles.map TileHeader.size).sum

@[simp] theorem span_nil : span [] = 0 := rfl

@[simp] theorem span_cons (t : TileHeader) (rest : List TileHeader) :
    span (t :: rest) = t.size + span rest := by simp [span]

@[simp] theorem span_append (xs ys : List TileHeader) : span (xs ++ ys) = span xs + span ys := by
  simp [span]

/-- The cells from `cell` on are tiled by the headers. -/
def Tiling (cells : Array Cell) : (cell : Nat) → List TileHeader → Prop
  | _, [] => True
  | cell, t :: rest =>
    cells[cell]? = some (.header t) ∧ 0 < t.size ∧
      (t.allocated = false → ∀ i, cell < i → i < cell + t.size → cells[i]? = some .zero) ∧
      Tiling cells (cell + t.size) rest

variable {cells cells' : Array Cell} {cell : Nat} {t : TileHeader}
  {tiles rest xs ys : List TileHeader}

theorem tiling_append :
    Tiling cells cell (xs ++ ys) ↔ Tiling cells cell xs ∧ Tiling cells (cell + span xs) ys := by
  induction xs generalizing cell with
  | nil => simp [Tiling]
  | cons t xs ih => simp [Tiling, ih, Nat.add_assoc, and_assoc]

theorem Tiling.congr (h : Tiling cells cell tiles)
    (he : ∀ i, cell ≤ i → i < cell + span tiles → cells'[i]? = cells[i]?) :
    Tiling cells' cell tiles := by
  induction tiles generalizing cell with
  | nil => trivial
  | cons t rest ih =>
    obtain ⟨hhead, hpos, hzero, htail⟩ := h
    rw [span_cons] at he
    refine ⟨(he cell (Nat.le_refl _) (by omega)).trans hhead, hpos, fun hf i h1 h2 => ?_,
      ih htail fun i h1 h2 => he i (by omega) (by omega)⟩
    exact (he i (by omega) (by omega)).trans (hzero hf i h1 h2)

theorem Tiling.headerAt (h : Tiling cells cell (t :: rest)) : headerAt cells cell = t := by
  simp [TiledPage.headerAt, Array.getD_eq_getD_getElem?, h.1]

theorem Tiling.length_le (h : Tiling cells cell tiles) : tiles.length ≤ span tiles := by
  induction tiles generalizing cell with
  | nil => simp
  | cons t rest ih =>
    have := ih h.2.2.2
    have := h.2.1
    rw [span_cons, List.length_cons]
    omega

theorem Tiling.size_pos (h : Tiling cells cell tiles) : ∀ t ∈ tiles, 0 < t.size := by
  induction tiles generalizing cell with
  | nil => simp
  | cons t rest ih =>
    intro u hu
    rcases List.mem_cons.mp hu with rfl | hu
    · exact h.2.1
    · exact ih h.2.2.2 u hu

/-- The first data cells of the allocated tiles. -/
def dataOf : (cell : Nat) → List TileHeader → List Nat
  | _, [] => []
  | cell, t :: rest =>
    if t.allocated then (cell + 1) :: dataOf (cell + t.size) rest else dataOf (cell + t.size) rest

theorem dataOf_append (cell : Nat) (xs ys : List TileHeader) :
    dataOf cell (xs ++ ys) = dataOf cell xs ++ dataOf (cell + span xs) ys := by
  induction xs generalizing cell with
  | nil => simp [dataOf]
  | cons t xs ih => by_cases ht : t.allocated <;> simp [dataOf, ht, ih, Nat.add_assoc]

/-- An allocated tile begins right in front of its data. -/
theorem mem_dataOf {i : Nat} : i ∈ dataOf cell tiles ↔
    ∃ front t back, tiles = front ++ t :: back ∧ t.allocated = true ∧
      i = cell + span front + 1 := by
  constructor
  · induction tiles generalizing cell with
    | nil => simp [dataOf]
    | cons t rest ih =>
      intro hi
      have hdeeper (hi : i ∈ dataOf (cell + t.size) rest) : ∃ front u back,
          t :: rest = front ++ u :: back ∧ u.allocated = true ∧ i = cell + span front + 1 := by
        obtain ⟨front, u, back, rfl, hu, rfl⟩ := ih hi
        exact ⟨t :: front, u, back, rfl, hu, by rw [span_cons, ← Nat.add_assoc]⟩
      by_cases ht : t.allocated
      · rw [dataOf, if_pos ht] at hi
        rcases List.mem_cons.mp hi with rfl | hi
        · exact ⟨[], t, rest, rfl, ht, by simp⟩
        · exact hdeeper hi
      · rw [dataOf, if_neg ht] at hi
        exact hdeeper hi
  · rintro ⟨front, t, back, rfl, ht, rfl⟩
    rw [dataOf_append]
    simp [dataOf, ht]

/-- The cells with the headers of the tiles. -/
def starts : (cell : Nat) → List TileHeader → List Nat
  | _, [] => []
  | cell, t :: rest => cell :: starts (cell + t.size) rest

theorem starts_append (cell : Nat) (xs ys : List TileHeader) :
    starts cell (xs ++ ys) = starts cell xs ++ starts (cell + span xs) ys := by
  induction xs generalizing cell with
  | nil => simp [starts]
  | cons t xs ih => simp [starts, ih, Nat.add_assoc]

theorem mem_starts {i : Nat} : i ∈ starts cell tiles ↔
    ∃ front t back, tiles = front ++ t :: back ∧ i = cell + span front := by
  constructor
  · induction tiles generalizing cell with
    | nil => simp [starts]
    | cons t rest ih =>
      intro hi
      rcases List.mem_cons.mp hi with rfl | hi
      · exact ⟨[], t, rest, rfl, by simp⟩
      · obtain ⟨front, u, back, rfl, rfl⟩ := ih hi
        exact ⟨t :: front, u, back, rfl, by rw [span_cons, ← Nat.add_assoc]⟩
  · rintro ⟨front, t, back, rfl, rfl⟩
    rw [starts_append]
    simp [starts]

/-- The tiles, each with the cell of its header. -/
def placed : (cell : Nat) → List TileHeader → List (Nat × TileHeader)
  | _, [] => []
  | cell, t :: rest => (cell, t) :: placed (cell + t.size) rest

theorem placed_append (cell : Nat) (xs ys : List TileHeader) :
    placed cell (xs ++ ys) = placed cell xs ++ placed (cell + span xs) ys := by
  induction xs generalizing cell with
  | nil => simp [placed]
  | cons t xs ih => simp [placed, ih, Nat.add_assoc]

theorem mem_placed {x : Nat × TileHeader} : x ∈ placed cell tiles ↔
    ∃ front t back, tiles = front ++ t :: back ∧ x = (cell + span front, t) := by
  constructor
  · induction tiles generalizing cell with
    | nil => simp [placed]
    | cons t rest ih =>
      intro hx
      rcases List.mem_cons.mp hx with rfl | hx
      · exact ⟨[], t, rest, rfl, by simp⟩
      · obtain ⟨front, u, back, rfl, rfl⟩ := ih hx
        exact ⟨t :: front, u, back, rfl, by rw [span_cons, ← Nat.add_assoc]⟩
  · rintro ⟨front, t, back, rfl, rfl⟩
    rw [placed_append]
    simp [placed]

theorem placed_bounds {x : Nat × TileHeader} (h : x ∈ placed cell tiles) :
    x.2 ∈ tiles ∧ cell ≤ x.1 ∧ x.1 + x.2.size ≤ cell + span tiles := by
  obtain ⟨front, t, back, rfl, rfl⟩ := mem_placed.mp h
  refine ⟨by simp, Nat.le_add_right _ _, ?_⟩
  simp only [span_append, span_cons]
  omega

theorem toList_blocksFrom {left : Nat} (found : Array Nat) (h : Tiling cells cell tiles)
    (hend : cell + span tiles = tiledCells) (hleft : tiles.length < left) :
    (blocksFrom cells left cell found).toList = found.toList ++ dataOf cell tiles := by
  induction tiles generalizing cell left found with
  | nil =>
    obtain ⟨left, rfl⟩ : ∃ n, left = n + 1 := ⟨left - 1, by simp at hleft; omega⟩
    rw [span_nil, Nat.add_zero] at hend
    simp [blocksFrom, hend, dataOf]
  | cons t rest ih =>
    obtain ⟨left, rfl⟩ : ∃ n, left = n + 1 := ⟨left - 1, by omega⟩
    rw [span_cons] at hend
    have hpos := h.2.1
    rw [blocksFrom, if_neg (by omega)]
    simp only [h.headerAt]
    rw [ih _ h.2.2.2 (by omega) (by simp at hleft; omega)]
    by_cases ht : t.allocated <;> simp [ht, dataOf]

/-- Whether a free tile has `need` cells. -/
def Fits (need : Nat) (t : TileHeader) : Bool := !t.allocated && need ≤ t.size

theorem fitsFrom_eq {need left : Nat} (h : Tiling cells cell tiles)
    (hend : cell + span tiles = tiledCells) (hleft : tiles.length < left) :
    fitsFrom cells need left cell = tiles.any (Fits need) := by
  induction tiles generalizing cell left with
  | nil =>
    obtain ⟨left, rfl⟩ : ∃ n, left = n + 1 := ⟨left - 1, by simp at hleft; omega⟩
    rw [span_nil, Nat.add_zero] at hend
    simp [fitsFrom, hend]
  | cons t rest ih =>
    obtain ⟨left, rfl⟩ : ∃ n, left = n + 1 := ⟨left - 1, by omega⟩
    rw [span_cons] at hend
    have hpos := h.2.1
    rw [fitsFrom, if_neg (by omega)]
    simp only [h.headerAt]
    rw [ih h.2.2.2 (by omega) (by simp at hleft; omega)]
    by_cases hf : Fits need t
    · have : (!t.allocated && decide (need ≤ t.size)) = true := hf
      simp [hf, this]
    · have : (!t.allocated && decide (need ≤ t.size)) = false := by simpa [Fits] using hf
      simp [hf, this]

/-- The first free tile of `need` cells. -/
def firstFit (need : Nat) : (cell : Nat) → List TileHeader → Option Nat
  | _, [] => none
  | cell, t :: rest => if Fits need t then some cell else firstFit need (cell + t.size) rest

/-- The first of the largest free tiles with its size, if larger than `best`. -/
def largest : (cell : Nat) → List TileHeader → (best : Nat × Nat) → Nat × Nat
  | _, [], best => best
  | cell, t :: rest, best =>
    largest (cell + t.size) rest
      (if !t.allocated && best.2 < t.size then (cell, t.size) else best)

theorem firstFit_eq_none {need : Nat} :
    firstFit need cell tiles = none ↔ tiles.any (Fits need) = false := by
  induction tiles generalizing cell with
  | nil => simp [firstFit]
  | cons t rest ih => by_cases ht : Fits need t <;> simp [firstFit, ht, ih]

theorem firstFit_eq_some {need k : Nat} (h : firstFit need cell tiles = some k) :
    ∃ front t back, tiles = front ++ t :: back ∧ Fits need t = true ∧ k = cell + span front ∧
      ∀ u ∈ front, Fits need u = false := by
  induction tiles generalizing cell with
  | nil => simp [firstFit] at h
  | cons t rest ih =>
    by_cases ht : Fits need t
    · rw [firstFit, if_pos ht] at h
      exact ⟨[], t, rest, rfl, ht, (Option.some.inj h).symm, by simp⟩
    · rw [firstFit, if_neg ht] at h
      obtain ⟨front, u, back, rfl, hu, rfl, hfront⟩ := ih h
      refine ⟨t :: front, u, back, rfl, hu, by rw [span_cons, Nat.add_assoc], ?_⟩
      exact List.forall_mem_cons.mpr ⟨Bool.eq_false_iff.mpr ht, hfront⟩

/-- The largest tile so far gives way to a free tile that is larger. -/
theorem le_larger (cell : Nat) (t : TileHeader) (best : Nat × Nat) :
    best.2 ≤ (if !t.allocated && best.2 < t.size then (cell, t.size) else best).2 ∧
      (t.allocated = false →
        t.size ≤ (if !t.allocated && best.2 < t.size then (cell, t.size) else best).2) := by
  split_ifs with hc
  · simp only [Bool.and_eq_true, decide_eq_true_eq] at hc
    exact ⟨Nat.le_of_lt hc.2, fun _ => Nat.le_refl _⟩
  · exact ⟨Nat.le_refl _, fun hfree => by simpa [hfree] using hc⟩

theorem le_largest (cell : Nat) (tiles : List TileHeader) (best : Nat × Nat) :
    best.2 ≤ (largest cell tiles best).2 ∧
      ∀ t ∈ tiles, t.allocated = false → t.size ≤ (largest cell tiles best).2 := by
  induction tiles generalizing cell best with
  | nil => simp [largest]
  | cons t rest ih =>
    obtain ⟨hlow, hhead⟩ := le_larger cell t best
    obtain ⟨hbest, hrest⟩ := ih (cell + t.size)
      (if !t.allocated && best.2 < t.size then (cell, t.size) else best)
    rw [largest]
    refine ⟨hlow.trans hbest, fun u hu hfree => ?_⟩
    rcases List.mem_cons.mp hu with rfl | hu
    · exact (hhead hfree).trans hbest
    · exact hrest u hu hfree

/-- The largest free tile is the one given, or the first of the largest ones of the list. -/
theorem largest_cases (cell : Nat) (tiles : List TileHeader) (best : Nat × Nat) :
    largest cell tiles best = best ∨
      ∃ front t back, tiles = front ++ t :: back ∧ t.allocated = false ∧
        largest cell tiles best = (cell + span front, t.size) ∧ best.2 < t.size ∧
        ∀ u ∈ front, u.allocated = false → u.size < t.size := by
  induction tiles generalizing cell best with
  | nil => exact .inl rfl
  | cons t rest ih =>
    rw [largest]
    obtain ⟨hlow, hhead⟩ := le_larger cell t best
    rcases ih (cell + t.size)
      (if !t.allocated && best.2 < t.size then (cell, t.size) else best) with h | h
    · rw [h]
      split_ifs with hc
      · simp only [Bool.and_eq_true, Bool.not_eq_true', decide_eq_true_eq] at hc
        exact .inr ⟨[], t, rest, rfl, hc.1, by simp, hc.2, by simp⟩
      · exact .inl rfl
    · obtain ⟨front, u, back, rfl, hu, he, hlt, hfront⟩ := h
      refine .inr ⟨t :: front, u, back, rfl, hu,
        by rw [he, span_cons, Nat.add_assoc], hlow.trans_lt hlt, ?_⟩
      exact List.forall_mem_cons.mpr ⟨fun hfree => (hhead hfree).trans_lt hlt, hfront⟩

theorem search_eq {need left : Nat} (best : Nat × Nat) (h : Tiling cells cell tiles)
    (hend : cell + span tiles = tiledCells) (hleft : tiles.length < left) :
    search cells need tiledCells left cell best =
      match firstFit need cell tiles with
      | some k => .fits k
      | none => .largest (largest cell tiles best).1 (largest cell tiles best).2 := by
  induction tiles generalizing cell left best with
  | nil =>
    obtain ⟨left, rfl⟩ : ∃ n, left = n + 1 := ⟨left - 1, by simp at hleft; omega⟩
    rw [span_nil, Nat.add_zero] at hend
    simp [search, hend, firstFit, largest]
  | cons t rest ih =>
    obtain ⟨left, rfl⟩ : ∃ n, left = n + 1 := ⟨left - 1, by omega⟩
    rw [span_cons] at hend
    have hpos := h.2.1
    have hend' : cell + t.size + span rest = tiledCells := by omega
    have hleft' : rest.length < left := by simpa using hleft
    have hrec := fun best => ih best h.2.2.2 hend' hleft'
    rw [search, if_neg (by omega)]
    simp only [h.headerAt, hrec]
    by_cases ht : t.allocated
    · simp [ht, firstFit, Fits, largest]
    · by_cases hn : need ≤ t.size
      · simp [ht, hn, firstFit, Fits]
      · simp [ht, hn, firstFit, Fits, largest]

theorem largestFree_eq {stop left : Nat} (best : Nat × Nat) (h : Tiling cells cell tiles)
    (hend : cell + span tiles = stop) (hleft : tiles.length < left) :
    largestFree cells stop left cell best = largest cell tiles best := by
  induction tiles generalizing cell left best with
  | nil =>
    obtain ⟨left, rfl⟩ : ∃ n, left = n + 1 := ⟨left - 1, by simp at hleft; omega⟩
    rw [span_nil, Nat.add_zero] at hend
    simp [largestFree, hend, largest]
  | cons t rest ih =>
    obtain ⟨left, rfl⟩ : ∃ n, left = n + 1 := ⟨left - 1, by omega⟩
    rw [span_cons] at hend
    have hpos := h.2.1
    have hend' : cell + t.size + span rest = stop := by omega
    have hleft' : rest.length < left := by simpa using hleft
    have hrec := fun best => ih best h.2.2.2 hend' hleft'
    rw [largestFree, if_neg (by omega)]
    simp only [h.headerAt, hrec, largest]

end SweptHeap.TiledPage
