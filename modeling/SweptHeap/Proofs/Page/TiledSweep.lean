import Mathlib
import SweptHeap.Proofs.Page.Hearing
import SweptHeap.Proofs.Page.TiledBlocks

/-!
# Sweeping a tiled page

The first pass asks about the allocated tiles and frees the dead ones where they stand; the second
pass merges free neighbours. In terms of the list of tiles, `judged` is the first pass and
`coalesce` the second.
-/

namespace SweptHeap.TiledPage

variable {ε : Type} {ask : Sight → ε → Ruling × ε}

/-- The tiles after the hearings of the allocated ones. -/
def judged : List TileHeader → List Hearing → List TileHeader
  | [], _ => []
  | t :: rest, [] => t :: judged rest []
  | t :: rest, h :: hearings =>
    if t.allocated then ⟨h.2.spares, t.size⟩ :: judged rest hearings
    else t :: judged rest (h :: hearings)

/-- Nobody clears the mark of a block that has no cell for it. -/
def Markable (ask : Sight → ε → Ruling × ε) (p : TiledPage) : Prop :=
  ∀ i ∈ p.blocks.toList, p.blockCells i = 0 → ∀ s env, s.index = i → (ask s env).1.unmark = false

/-- The same, tile by tile from `cell` on. -/
def MarkableFrom (ask : Sight → ε → Ruling × ε) : (cell : Nat) → List TileHeader → Prop
  | _, [] => True
  | cell, t :: rest =>
    (t.allocated = true → t.size < 2 → ∀ s env, s.index = cell + 1 → (ask s env).1.unmark = false) ∧
      MarkableFrom ask (cell + t.size) rest

variable {cell : Nat} {t : TileHeader} {tiles rest : List TileHeader} {hearings : List Hearing}

theorem judged_free (ht : t.allocated = false) :
    judged (t :: rest) hearings = t :: judged rest hearings := by
  cases hearings <;> simp [judged, ht]

theorem MarkableFrom.head {s : Sight} {env env' : ε} {r : Ruling}
    (h : MarkableFrom ask cell (t :: rest)) (ht : t.allocated = true) (hs : s.index = cell + 1)
    (hask : ask s env = (r, env')) : 2 ≤ t.size ∨ r.unmark = false := by
  refine or_iff_not_imp_left.mpr fun hsize => ?_
  have := h.1 ht (Nat.lt_of_not_le hsize) s env hs
  rwa [hask] at this

theorem markableFrom_of_split (h : ∀ front t back, tiles = front ++ t :: back → t.allocated = true →
    t.size < 2 → ∀ s env, s.index = cell + span front + 1 → (ask s env).1.unmark = false) :
    MarkableFrom ask cell tiles := by
  induction tiles generalizing cell with
  | nil => trivial
  | cons t rest ih =>
    refine ⟨h [] t rest rfl, ih fun front u back he hu hsize s env hs => ?_⟩
    refine h (t :: front) u back (by rw [he]; rfl) hu hsize s env ?_
    rw [hs, span_cons, Nat.add_assoc cell]

theorem Sound.markableFrom {p : TiledPage} (hp : p.Sound tiles) (h : Markable ask p) :
    MarkableFrom ask 1 tiles := by
  refine markableFrom_of_split ?_
  rintro front t back rfl ht hsize s env hs
  refine h _ (hp.mem_blocks.mpr ⟨front, t, back, rfl, ht, rfl⟩) ?_ s env hs
  rw [hp.blockCells_eq]
  omega

theorem lt_of_mem_dataOf {i : Nat} (h : i ∈ dataOf cell tiles) : cell < i := by
  obtain ⟨front, t, back, -, -, rfl⟩ := mem_dataOf.mp h
  omega

theorem bytesOf_append (xs ys : List TileHeader) :
    bytesOf (xs ++ ys) = bytesOf xs + bytesOf ys := by
  simp only [bytesOf, List.filter_append, span_append, Nat.add_mul]

namespace Walk

variable {w : Walk ε}

/-- What one hearing does to the tile of the block. -/
structure Judged (w : Walk ε) (cell size : Nat) (r : Ruling) (env' : ε) (w' : Walk ε) : Prop where
  env_eq : w'.env = env'
  length_eq : w'.cells.size = w.cells.size
  outside : ∀ i, i < cell ∨ cell + size ≤ i → w'.cells[i]? = w.cells[i]?
  tile : Tiling w'.cells cell [⟨r.spares, size⟩]
  kept : r.spares → ∀ i, cell ≤ i → i < cell + size → w'.cells[i]? =
    if i = cell + 1 ∧ r.unmark then some .zero else w.cells[i]?
  bytes_eq : w'.liveBytes = w.liveBytes + bytesOf [⟨r.spares, size⟩]
  tally_eq : w'.tally = w.tally.count r.fate
  queued_eq : w'.queued.toList = w.queued.toList ++ toFinalize [(sightAt w.cells (cell + 1), r)]

theorem judge_spec {r : Ruling} {env' : ε} (h : Tiling w.cells cell (t :: rest))
    (ht : t.allocated = true) (hroom : cell + t.size ≤ w.cells.size)
    (hmark : 2 ≤ t.size ∨ r.unmark = false)
    (hask : ask (sightAt w.cells (cell + 1)) w.env = (r, env')) :
    Judged w cell t.size r env' (w.judge ask cell t.size) := by
  obtain ⟨cells, env, liveBytes, tally, queued⟩ := w
  have hpos := h.2.1
  have hhead : cells[cell]? = some (.header t) := h.1
  replace hroom : cell + t.size ≤ cells.size := hroom
  simp only [sightAt] at hask
  -- A block that stays is the same block, up to its mark.
  have spared {fate : Fate} (hlive : r.fate ≠ .dead) (hf : r.fate = fate) :
      Judged ⟨cells, env, liveBytes, tally, queued⟩ cell t.size r env'
        ⟨if r.unmark then cells.setIfInBounds (cell + 1) .zero else cells, env',
          liveBytes + t.size * cellBytes, tally.count fate,
          if fate = .finalize then queued.push (cell + 1) else queued⟩ := by
    have hspares : r.spares = true := by simp [Ruling.spares, hlive]
    have hcells (i : Nat) (hi : i < cell + t.size) :
        (if r.unmark then cells.setIfInBounds (cell + 1) .zero else cells)[i]? =
          if i = cell + 1 ∧ r.unmark then some .zero else cells[i]? := by
      cases r.unmark with
      | false => simp
      | true => simp only [if_true, Array.getElem?_setIfInBounds]; grind
    refine ⟨rfl, by cases r.unmark <;> simp, fun i hi => ?_, ?_, fun _ i _ hi =>
      hcells i hi, ?_, by rw [hf], ?_⟩
    · cases hu : r.unmark with
      | false => rfl
      | true =>
        have hsize := hmark.resolve_right (by simp [hu])
        simp only [if_true]
        rw [Array.getElem?_setIfInBounds, if_neg (by omega)]
    · refine ⟨?_, hpos, by simp [hspares], trivial⟩
      rw [hcells cell (by omega), if_neg (by omega), hhead, hspares, ← ht]
    · simp [hspares, bytesOf]
    · by_cases hfin : fate = .finalize <;> simp [toFinalize, hf, hfin, sightAt]
  cases hf : r.fate with
  | dead =>
    have hspares : r.spares = false := by simp [Ruling.spares, hf]
    have hcells (i : Nat) :
        ((zeroCells cells (cell + 1) (t.size - 1)).setIfInBounds cell
          (.header ⟨false, t.size⟩))[i]? =
        if i = cell then some (.header ⟨false, t.size⟩)
        else if cell < i ∧ i < cell + t.size then some .zero else cells[i]? := by
      rw [Array.getElem?_setIfInBounds, getElem?_zeroCells, size_zeroCells]
      grind
    simp only [Walk.judge, hask, hf]
    refine ⟨rfl, by simp, fun i hi => ?_, ?_, ?_, ?_, by simp [hf], by simp [toFinalize, hf]⟩
    · rw [hcells, if_neg (by omega), if_neg (by omega)]
    · rw [hspares]
      refine ⟨by rw [hcells, if_pos rfl], hpos, fun _ i h1 h2 => ?_, trivial⟩
      rw [hcells, if_neg (by omega), if_pos ⟨h1, h2⟩]
    · simp [hspares]
    · simp [hspares, bytesOf]
  | live =>
    simp only [Walk.judge, hask, hf]
    exact spared (by simp [hf]) hf
  | finalize =>
    simp only [Walk.judge, hask, hf]
    exact spared (by simp [hf]) hf

/-- What the first pass does to the tiles from `cell` on. -/
structure Heard (w : Walk ε) (cell : Nat) (tiles : List TileHeader) (hearings : List Hearing)
    (w' : Walk ε) : Prop where
  length_eq : w'.cells.size = w.cells.size
  before : ∀ i < cell, w'.cells[i]? = w.cells[i]?
  tiling : Tiling w'.cells cell (judged tiles hearings)
  kept : ∀ h ∈ hearings, h.2.spares → ∀ i, h.1.index - 1 ≤ i →
    i < h.1.index - 1 + (headerAt w.cells (h.1.index - 1)).size →
    w'.cells[i]? = if i = h.1.index ∧ h.2.unmark then some .zero else w.cells[i]?
  bytes_eq : w'.liveBytes = w.liveBytes + bytesOf (judged tiles hearings)
  tally_eq : w'.tally = hearings.foldl (fun t h => t.count h.2.fate) w.tally
  queued_eq : w'.queued.toList = w.queued.toList ++ toFinalize hearings

theorem Heard.passFree {w' : Walk ε} (h : Tiling w.cells cell (t :: rest))
    (ht : t.allocated = false) (hrest : Heard w (cell + t.size) rest hearings w') :
    Heard w cell (t :: rest) hearings w' := by
  have hpos := h.2.1
  refine ⟨hrest.length_eq, fun i hi => hrest.before i (by omega), ?_, hrest.kept, ?_,
    hrest.tally_eq, hrest.queued_eq⟩
  · rw [judged_free ht]
    refine ⟨(hrest.before cell (by omega)).trans h.1, hpos, fun _ i h1 h2 => ?_, hrest.tiling⟩
    rw [hrest.before i h2]
    exact h.2.2.1 ht i h1 h2
  · rw [judged_free ht, hrest.bytes_eq]
    simp [bytesOf, ht]

theorem Heard.judge {r : Ruling} {env' : ε} {w₁ w₂ : Walk ε}
    (h : Tiling w.cells cell (t :: rest)) (ht : t.allocated = true)
    (h₁ : Judged w cell t.size r env' w₁) (h₂ : Heard w₁ (cell + t.size) rest hearings w₂)
    (hbehind : ∀ h ∈ hearings, cell + t.size < h.1.index) :
    Heard w cell (t :: rest) ((sightAt w.cells (cell + 1), r) :: hearings) w₂ := by
  have hpos := h.2.1
  have hjudged : judged (t :: rest) ((sightAt w.cells (cell + 1), r) :: hearings) =
      ⟨r.spares, t.size⟩ :: judged rest hearings := by simp [judged, ht]
  refine ⟨h₂.length_eq.trans h₁.length_eq, fun i hi => ?_, ?_, ?_, ?_, ?_, ?_⟩
  · rw [h₂.before i (by omega), h₁.outside i (.inl hi)]
  · rw [hjudged]
    obtain ⟨hhead, -, hzero, -⟩ := h₁.tile
    refine ⟨(h₂.before cell (by omega)).trans hhead, hpos, fun hf i h1 h2 => ?_, h₂.tiling⟩
    rw [h₂.before i h2]
    exact hzero hf i h1 h2
  · intro x hx hspares i hlow hi
    rcases List.mem_cons.mp hx with rfl | hx
    · replace hlow : cell ≤ i := hlow
      replace hi : i < cell + (headerAt w.cells cell).size := hi
      rw [h.headerAt] at hi
      rw [h₂.before _ (by omega), h₁.kept hspares i hlow hi]
      rfl
    · have hlt := hbehind x hx
      have hheader : headerAt w₁.cells (x.1.index - 1) = headerAt w.cells (x.1.index - 1) := by
        simp only [headerAt, Array.getD_eq_getD_getElem?]
        rw [h₁.outside _ (.inr (by omega))]
      rw [h₂.kept x hx hspares i hlow (by rw [hheader]; exact hi), h₁.outside _ (.inr (by omega))]
  · rw [hjudged, h₂.bytes_eq, h₁.bytes_eq, Nat.add_assoc, ← bytesOf_append]
    rfl
  · rw [h₂.tally_eq, h₁.tally_eq]
    rfl
  · rw [h₂.queued_eq, h₁.queued_eq, List.append_assoc, ← toFinalize_append]
    rfl

theorem run_spec {left : Nat} (h : Tiling w.cells cell tiles)
    (hend : cell + span tiles = tiledCells) (hsize : w.cells.size = tiledCells)
    (hmark : MarkableFrom ask cell tiles) (hleft : tiles.length < left) :
    ∃ hearings, hear ask ((dataOf cell tiles).map (sightAt w.cells)) w.env =
        (hearings, (Walk.run ask left cell w).env) ∧
      Heard w cell tiles hearings (Walk.run ask left cell w) := by
  induction tiles generalizing cell left w with
  | nil =>
    obtain ⟨left, rfl⟩ : ∃ n, left = n + 1 := ⟨left - 1, by simp at hleft; omega⟩
    rw [span_nil, Nat.add_zero] at hend
    rw [Walk.run, if_pos (by omega)]
    exact ⟨[], rfl, rfl, fun _ _ => rfl, trivial, by simp, by simp [judged, bytesOf], rfl, by simp⟩
  | cons t rest ih =>
    obtain ⟨left, rfl⟩ : ∃ n, left = n + 1 := ⟨left - 1, by omega⟩
    rw [span_cons] at hend
    have hpos := h.2.1
    rw [Walk.run, if_neg (by omega)]
    simp only [h.headerAt]
    cases ht : t.allocated with
    | false =>
      obtain ⟨hearings, hhear, hrest⟩ := ih h.2.2.2 (by omega) hsize hmark.2
        (by simpa using hleft)
      refine ⟨hearings, ?_, hrest.passFree h ht⟩
      rw [dataOf, if_neg (by simp [ht])]
      exact hhear
    | true =>
      obtain ⟨r, env', hask⟩ : ∃ r env', ask (sightAt w.cells (cell + 1)) w.env = (r, env') :=
        ⟨_, _, rfl⟩
      have h₁ := judge_spec h ht (by omega) (hmark.head ht rfl hask) hask
      have htail : Tiling (w.judge ask cell t.size).cells (cell + t.size) rest :=
        h.2.2.2.congr fun i h1 _ => h₁.outside i (.inr h1)
      obtain ⟨hearings, hhear, hrest⟩ := ih htail (by omega) (h₁.length_eq.trans hsize)
        hmark.2 (by simpa using hleft)
      have hsights : (dataOf (cell + t.size) rest).map (sightAt (w.judge ask cell t.size).cells) =
          (dataOf (cell + t.size) rest).map (sightAt w.cells) := by
        refine List.map_congr_left fun i hi => ?_
        have hlt := lt_of_mem_dataOf hi
        exact sightAt_congr (h₁.outside i (.inr (by omega))) (h₁.outside _ (.inr (by omega)))
      refine ⟨_, ?_, hrest.judge h ht h₁ fun x hx => ?_⟩
      · rw [hsights, h₁.env_eq] at hhear
        rw [dataOf, if_pos ht, List.map_cons, hear, hask]
        simp only [hhear, if_true]
      · have hmem := List.mem_map_of_mem (f := Prod.fst) hx
        rw [map_fst_of_hear hhear, List.mem_map] at hmem
        obtain ⟨i, hi, he⟩ := hmem
        rw [← he]
        exact lt_of_mem_dataOf hi

end Walk

/-! ### Merging free neighbours -/

/-- The free tile of `n` cells, if any. -/
def freeTile (n : Nat) : List TileHeader := if n = 0 then [] else [⟨false, n⟩]

/-- The tiles with free neighbours merged, behind `n` free cells. -/
def coalesce : (n : Nat) → List TileHeader → List TileHeader
  | n, [] => freeTile n
  | n, t :: rest =>
    if t.allocated then freeTile n ++ t :: coalesce 0 rest else coalesce (n + t.size) rest

@[simp] theorem span_freeTile (n : Nat) : span (freeTile n) = n := by
  unfold freeTile
  split_ifs with h <;> simp [h]

@[simp] theorem dataOf_freeTile (cell n : Nat) : dataOf cell (freeTile n) = [] := by
  unfold freeTile
  split_ifs <;> simp [dataOf]

theorem span_coalesce (n : Nat) (tiles : List TileHeader) :
    span (coalesce n tiles) = n + span tiles := by
  induction tiles generalizing n with
  | nil => simp [coalesce]
  | cons t rest ih =>
    rw [coalesce]
    split_ifs
    · simp [ih]
    · rw [ih, span_cons, Nat.add_assoc]

theorem dataOf_coalesce (cell n : Nat) (tiles : List TileHeader) :
    dataOf cell (coalesce n tiles) = dataOf (cell + n) tiles := by
  induction tiles generalizing cell n with
  | nil => simp [coalesce, dataOf]
  | cons t rest ih =>
    rw [coalesce, dataOf]
    split_ifs with ht
    · simp [dataOf_append, dataOf, ht, ih]
    · rw [ih, Nat.add_assoc]

theorem filter_coalesce (n : Nat) (tiles : List TileHeader) :
    (coalesce n tiles).filter (·.allocated) = tiles.filter (·.allocated) := by
  have hfree (n : Nat) : (freeTile n).filter (·.allocated) = [] := by
    unfold freeTile
    split_ifs <;> simp
  induction tiles generalizing n with
  | nil => simp [coalesce, hfree]
  | cons t rest ih =>
    rw [coalesce]
    split_ifs with ht
    · simp [hfree, ht, ih]
    · rw [ih, List.filter_cons_of_neg ht]

theorem parted_coalesce (n : Nat) (tiles : List TileHeader) : Parted (coalesce n tiles) := by
  induction tiles generalizing n with
  | nil =>
    unfold coalesce freeTile
    split_ifs <;> simp [Parted]
  | cons t rest ih =>
    rw [coalesce]
    split_ifs with ht
    · have htail : Parted (t :: coalesce 0 rest) :=
        List.isChain_cons.mpr ⟨fun u _ => .inl ht, ih 0⟩
      unfold freeTile
      split_ifs
      · exact htail
      · exact List.isChain_cons.mpr ⟨fun u hu => .inr (by simp at hu; rw [← hu, ht]), htail⟩
    · exact ih _

/-- Free cells grow by the free tiles right behind them. -/
theorem coalesce_pos {n : Nat} (hn : 0 < n) (tiles : List TileHeader) :
    coalesce n tiles =
      ⟨false, n + span (tiles.takeWhile (!·.allocated))⟩ ::
        coalesce 0 (tiles.dropWhile (!·.allocated)) := by
  induction tiles generalizing n with
  | nil => simp [coalesce, freeTile, Nat.ne_of_gt hn]
  | cons t rest ih =>
    rw [coalesce]
    cases ht : t.allocated with
    | true => simp [ht, freeTile, Nat.ne_of_gt hn, coalesce]
    | false =>
      rw [if_neg (by simp), ih (by omega)]
      simp [ht, Nat.add_assoc]

theorem coalesce_free (ht : t.allocated = false) (hpos : 0 < t.size) :
    coalesce 0 (t :: rest) =
      ⟨false, t.size + span (rest.takeWhile (!·.allocated))⟩ ::
        coalesce 0 (rest.dropWhile (!·.allocated)) := by
  rw [coalesce, if_neg (by simp [ht]), Nat.zero_add, coalesce_pos hpos]

/-- The cell belongs to a free tile. -/
def InFree : (cell : Nat) → List TileHeader → Nat → Prop
  | _, [], _ => False
  | cell, t :: rest, i =>
    (t.allocated = false ∧ cell ≤ i ∧ i < cell + t.size) ∨ InFree (cell + t.size) rest i

theorem inFree_append {xs ys : List TileHeader} {i : Nat} :
    InFree cell (xs ++ ys) i ↔ InFree cell xs i ∨ InFree (cell + span xs) ys i := by
  induction xs generalizing cell with
  | nil => simp [InFree]
  | cons t xs ih => simp [InFree, ih, or_assoc, Nat.add_assoc]

theorem InFree.bounds {i : Nat} (h : InFree cell tiles i) : cell ≤ i ∧ i < cell + span tiles := by
  induction tiles generalizing cell with
  | nil => exact h.elim
  | cons t rest ih =>
    rw [span_cons]
    rcases h with h | h
    · omega
    · have := ih h
      omega

theorem not_inFree_of_allocated {front back : List TileHeader} {i : Nat} (ht : t.allocated = true)
    (h1 : cell + span front ≤ i) (h2 : i < cell + span front + t.size) :
    ¬ InFree cell (front ++ t :: back) i := by
  rw [inFree_append, InFree]
  rintro (h | h | h)
  · have := h.bounds
    omega
  · simp [ht] at h
  · have := h.bounds
    omega

theorem inFree_takeWhile {i : Nat} :
    InFree cell (tiles.takeWhile (!·.allocated)) i ↔
      cell ≤ i ∧ i < cell + span (tiles.takeWhile (!·.allocated)) := by
  refine ⟨InFree.bounds, ?_⟩
  induction tiles generalizing cell with
  | nil => simp only [List.takeWhile_nil, span_nil]; omega
  | cons t rest ih =>
    cases ht : t.allocated with
    | true => simp [ht]
    | false =>
      simp only [ht, Bool.not_false, List.takeWhile_cons_of_pos, span_cons, InFree, true_and]
      intro h
      by_cases hi : i < cell + t.size
      · exact .inl ⟨h.1, hi⟩
      · exact .inr (ih ⟨by omega, by omega⟩)

theorem absorb_spec {cells : Array Cell} {size left : Nat} (h : Tiling cells (cell + size) tiles)
    (hend : cell + size + span tiles = tiledCells) (hleft : tiles.length < left) :
    ∃ cells', absorb cell left size cells =
        (size + span (tiles.takeWhile (!·.allocated)), cells') ∧
      cells'.size = cells.size ∧
      ∀ i, cells'[i]? = if cell + size ≤ i ∧ i < cell + size + span (tiles.takeWhile (!·.allocated))
        then some .zero else cells[i]? := by
  induction tiles generalizing size left cells with
  | nil =>
    obtain ⟨left, rfl⟩ : ∃ n, left = n + 1 := ⟨left - 1, by simp at hleft; omega⟩
    rw [span_nil, Nat.add_zero] at hend
    rw [absorb, if_pos (by omega)]
    refine ⟨cells, by simp, rfl, fun i => ?_⟩
    rw [if_neg (by simp)]
  | cons u rest ih =>
    obtain ⟨left, rfl⟩ : ∃ n, left = n + 1 := ⟨left - 1, by omega⟩
    rw [span_cons] at hend
    have hpos := h.2.1
    have hin : cell + size < cells.size := (Array.getElem?_eq_some_iff.mp h.1).1
    rw [absorb, if_neg (by omega)]
    simp only [h.headerAt]
    cases hu : u.allocated with
    | true =>
      refine ⟨cells, by simp [hu], rfl, fun i => ?_⟩
      rw [if_neg (by simp [hu])]
    | false =>
      have hrest :
          Tiling (cells.setIfInBounds (cell + size) .zero) (cell + (size + u.size)) rest := by
        rw [← Nat.add_assoc]
        exact h.2.2.2.congr fun i h1 _ => by
          rw [Array.getElem?_setIfInBounds, if_neg (by omega)]
      obtain ⟨cells', heq, hsize, hcells⟩ := ih hrest (by omega) (by simpa using hleft)
      refine ⟨cells', ?_, by rw [hsize, Array.size_setIfInBounds], fun i => ?_⟩
      · simpa [hu, Nat.add_assoc] using heq
      · rw [hcells, Array.getElem?_setIfInBounds]
        simp only [hu, Bool.not_false, List.takeWhile_cons_of_pos, span_cons]
        -- The header of `u` is erased here, its data were zero before.
        by_cases hi : cell + size < i ∧ i < cell + size + u.size
        · rw [if_neg (by omega), if_neg (by omega), if_pos (by omega), h.2.2.1 hu i hi.1 hi.2]
        · grind

/-- What merging does to the tiles from `cell` on. -/
structure Merged (cells : Array Cell) (cell : Nat) (tiles : List TileHeader) (cells' : Array Cell) :
    Prop where
  length_eq : cells'.size = cells.size
  tiling : Tiling cells' cell (coalesce 0 tiles)
  outside : ∀ i, ¬ InFree cell tiles i → cells'[i]? = cells[i]?

theorem Merged.passAllocated {cells cells' : Array Cell} (h : Tiling cells cell (t :: rest))
    (ht : t.allocated = true) (hrest : Merged cells (cell + t.size) rest cells') :
    Merged cells cell (t :: rest) cells' := by
  have hpos := h.2.1
  refine ⟨hrest.length_eq, ?_, fun i hi => hrest.outside i fun hf => hi (.inr hf)⟩
  rw [coalesce, if_pos ht]
  refine ⟨?_, hpos, by simp [ht], hrest.tiling⟩
  rw [hrest.outside cell fun hf => by have := hf.bounds; omega]
  exact h.1

theorem Merged.passFree {cells cells₁ cells' : Array Cell} {size : Nat}
    (h : Tiling cells cell (t :: rest)) (ht : t.allocated = false)
    (hsize : size = t.size + span (rest.takeWhile (!·.allocated)))
    (hlen : cells₁.size = cells.size)
    (h₁ : ∀ i, cells₁[i]? = if cell + t.size ≤ i ∧ i < cell + size then some .zero else cells[i]?)
    (hrest : Merged (cells₁.setIfInBounds cell (.header ⟨false, size⟩)) (cell + size)
      (rest.dropWhile (!·.allocated)) cells') :
    Merged cells cell (t :: rest) cells' := by
  have hpos := h.2.1
  have hin : cell < cells.size := (Array.getElem?_eq_some_iff.mp h.1).1
  have hbefore (i : Nat) (hi : i < cell + size) :
      cells'[i]? = (cells₁.setIfInBounds cell (.header ⟨false, size⟩))[i]? :=
    hrest.outside i fun hf => by have := hf.bounds; omega
  refine ⟨by rw [hrest.length_eq, Array.size_setIfInBounds, hlen], ?_, fun i hi => ?_⟩
  · rw [coalesce_free ht hpos, ← hsize]
    refine ⟨?_, by show 0 < size; omega, fun _ i hlow hhigh => ?_, hrest.tiling⟩
    · rw [hbefore cell (by omega), Array.getElem?_setIfInBounds, if_pos rfl,
        if_pos (by omega)]
    · rw [hbefore i hhigh, Array.getElem?_setIfInBounds, if_neg (by omega), h₁]
      split_ifs with hc
      · rfl
      · exact h.2.2.1 ht i hlow (by change i < cell + size at hhigh; omega)
  · rw [InFree, ← List.takeWhile_append_dropWhile (p := (!·.allocated)) (l := rest),
      inFree_append, inFree_takeWhile] at hi
    push Not at hi
    obtain ⟨hhead, hrun, hdrop⟩ := hi
    have hhead := hhead ht
    have hout : i < cell ∨ cell + size ≤ i := by omega
    rw [hrest.outside i (by rwa [hsize, ← Nat.add_assoc]), Array.getElem?_setIfInBounds,
      if_neg (by omega), h₁, if_neg (by omega)]

theorem mergeFrom_spec {left : Nat} (best : Nat × Nat) {cells : Array Cell}
    (h : Tiling cells cell tiles) (hend : cell + span tiles = tiledCells)
    (hleft : tiles.length < left) :
    ∃ cells', mergeFrom left cell best cells = (largest cell (coalesce 0 tiles) best, cells') ∧
      Merged cells cell tiles cells' := by
  induction left generalizing cell best cells tiles with
  | zero => omega
  | succ left ih =>
    cases tiles with
    | nil =>
      rw [span_nil, Nat.add_zero] at hend
      rw [mergeFrom, if_pos (by omega)]
      exact ⟨cells, rfl, rfl, trivial, fun _ _ => rfl⟩
    | cons t rest =>
      have hpos := h.2.1
      have hlen := h.length_le
      rw [span_cons] at hend hlen
      rw [List.length_cons] at hleft hlen
      rw [mergeFrom, if_neg (by omega)]
      simp only [h.headerAt]
      cases ht : t.allocated with
      | true =>
        obtain ⟨cells', heq, hmerged⟩ := ih best h.2.2.2 (by omega) (by omega)
        refine ⟨cells', ?_, hmerged.passAllocated h ht⟩
        simp [heq, coalesce, freeTile, ht, largest]
      | false =>
        obtain ⟨cells₁, habsorb, hsize₁, h₁⟩ := absorb_spec h.2.2.2 (by omega)
          (by omega : rest.length < tiledCells)
        have hrun := List.takeWhile_append_dropWhile (p := (!·.allocated)) (l := rest)
        have hspan := congrArg span hrun
        have hcount := congrArg List.length hrun
        rw [span_append] at hspan
        rw [List.length_append] at hcount
        have hdrop := h.2.2.2
        rw [← hrun, tiling_append] at hdrop
        simp only [habsorb, Bool.false_eq_true, if_false]
        set size := t.size + span (rest.takeWhile (!·.allocated)) with hsize
        have htail : Tiling (cells₁.setIfInBounds cell (.header ⟨false, size⟩)) (cell + size)
            (rest.dropWhile (!·.allocated)) := by
          rw [hsize, ← Nat.add_assoc]
          refine hdrop.2.congr fun i hlow _ => ?_
          rw [Array.getElem?_setIfInBounds, if_neg (by omega), h₁, if_neg (by omega)]
        obtain ⟨cells', heq, hmerged⟩ := ih (if best.2 < size then (cell, size) else best) htail
          (by omega) (by omega)
        refine ⟨cells', ?_, .passFree h ht hsize hsize₁ (fun i => ?_) hmerged⟩
        · rw [heq, coalesce_free ht hpos, ← hsize]
          simp [largest]
        · rw [h₁, hsize, ← Nat.add_assoc]

/-! ### The two passes together -/

theorem span_judged (tiles : List TileHeader) (hearings : List Hearing) :
    span (judged tiles hearings) = span tiles := by
  induction tiles generalizing hearings with
  | nil => rfl
  | cons t rest ih =>
    cases hearings with
    | nil => simp [judged, ih]
    | cons h hearings =>
      rw [judged]
      split_ifs <;> simp [ih]

theorem length_judged (tiles : List TileHeader) (hearings : List Hearing) :
    (judged tiles hearings).length = tiles.length := by
  induction tiles generalizing hearings with
  | nil => rfl
  | cons t rest ih =>
    cases hearings with
    | nil => simp [judged, ih]
    | cons h hearings =>
      rw [judged]
      split_ifs <;> simp [ih]

/-- The survivors are the blocks of the judged tiles. -/
theorem dataOf_judged (h : hearings.map (·.1.index) = dataOf cell tiles) :
    dataOf cell (judged tiles hearings) = survivors hearings := by
  induction tiles generalizing cell hearings with
  | nil =>
    obtain rfl : hearings = [] := by simpa [dataOf] using h
    rfl
  | cons t rest ih =>
    cases ht : t.allocated with
    | false =>
      rw [dataOf, if_neg (by simp [ht])] at h
      rw [judged_free ht, dataOf, if_neg (by simp [ht]), ih h]
    | true =>
      rw [dataOf, if_pos ht] at h
      cases hearings with
      | nil => simp at h
      | cons x hearings =>
        obtain ⟨hx, hrest⟩ := List.cons_eq_cons.mp h
        cases hs : x.2.spares <;> simp [judged, ht, dataOf, ih hrest, survivors, hs, hx]

theorem bytesOf_eq_zero {cells : Array Cell} (h : Tiling cells cell tiles) :
    bytesOf tiles = 0 ↔ dataOf cell tiles = [] := by
  induction tiles generalizing cell with
  | nil => simp [bytesOf, dataOf]
  | cons t rest ih =>
    have hpos := h.2.1
    have hrest := ih h.2.2.2
    cases ht : t.allocated with
    | false => simpa [bytesOf, dataOf, ht] using hrest
    | true => simp [bytesOf, dataOf, ht, cellBytes]; omega

theorem atTile_largest (tiles : List TileHeader) : AtTile tiles (largest 1 tiles (0, 0)).1 := by
  rcases largest_cases 1 tiles (0, 0) with h | ⟨front, t, back, rfl, -, h, -⟩
  · exact .inl (by rw [h])
  · exact .inr (mem_starts.mpr ⟨front, t, back, rfl, by rw [h]⟩)

/-- What a sweep makes of a page. -/
structure SweptTo (p : TiledPage) (tiles : List TileHeader) (hearings : List Hearing)
    (p' : TiledPage) : Prop where
  sound : p'.Sound (coalesce 0 (judged tiles hearings))
  blocks_eq : p'.blocks.toList = survivors hearings
  cursor_eq : p'.cursor = (largest 1 (coalesce 0 (judged tiles hearings)) (0, 0)).1
  kept : ∀ h ∈ hearings, h.2.spares → p'.blockCells h.1.index = p.blockCells h.1.index ∧
    ∀ i < p.blockCells h.1.index, p'.cells[h.1.index + i]? =
      if i = 0 ∧ h.2.unmark then some .zero else p.cells[h.1.index + i]?

variable {p : TiledPage} {env : ε} {w : Walk ε} {cells' : Array Cell}

/-- A block that survives the first pass stands in an allocated tile, which merging leaves alone. -/
theorem not_inFree_of_survivor {cells : Array Cell} {i : Nat} {h : Hearing}
    (hidx : hearings.map (·.1.index) = dataOf 1 tiles) (hh : h ∈ hearings) (hs : h.2.spares = true)
    (htiling : Tiling cells 1 (judged tiles hearings)) (hlow : h.1.index - 1 ≤ i)
    (hhigh : i < h.1.index - 1 + (headerAt cells (h.1.index - 1)).size) :
    ¬ InFree 1 (judged tiles hearings) i := by
  have hmem : h.1.index ∈ dataOf 1 (judged tiles hearings) := by
    rw [dataOf_judged hidx]
    exact mem_survivors.mpr ⟨h, hh, hs, rfl⟩
  obtain ⟨front, t, back, he, ht, hi⟩ := mem_dataOf.mp hmem
  rw [he] at htiling ⊢
  rw [hi, Nat.add_sub_cancel] at hlow hhigh
  rw [(tiling_append.mp htiling).2.headerAt] at hhigh
  exact not_inFree_of_allocated ht hlow hhigh

/-- The tile of a survivor, after both passes. -/
theorem tile_kept {h : Hearing} (hp : p.Sound tiles)
    (hidx : hearings.map (·.1.index) = dataOf 1 tiles)
    (hw : Walk.Heard ⟨p.cells, env, 0, {}, #[]⟩ 1 tiles hearings w)
    (hm : Merged w.cells 1 (judged tiles hearings) cells') (hh : h ∈ hearings)
    (hs : h.2.spares = true) {i : Nat} (hlow : h.1.index - 1 ≤ i)
    (hhigh : i < h.1.index - 1 + (headerAt p.cells (h.1.index - 1)).size) :
    cells'[i]? = if i = h.1.index ∧ h.2.unmark then some .zero else p.cells[i]? := by
  have hmem : h.1.index ∈ dataOf 1 tiles := hidx ▸ List.mem_map_of_mem hh
  obtain ⟨front, t, back, rfl, -, hi⟩ := mem_dataOf.mp hmem
  have hheader : headerAt w.cells (h.1.index - 1) = headerAt p.cells (h.1.index - 1) := by
    simp only [headerAt, Array.getD_eq_getD_getElem?]
    rw [hw.kept h hh hs _ (Nat.le_refl _) (Nat.lt_of_le_of_lt hlow hhigh), if_neg (by omega)]
  rw [hm.outside i
    (not_inFree_of_survivor hidx hh hs hw.tiling hlow (by rw [hheader]; exact hhigh)),
    hw.kept h hh hs i hlow hhigh]

theorem Sound.sweptTo (hp : p.Sound tiles) (hidx : hearings.map (·.1.index) = dataOf 1 tiles)
    (hw : Walk.Heard ⟨p.cells, env, 0, {}, #[]⟩ 1 tiles hearings w)
    (hm : Merged w.cells 1 (judged tiles hearings) cells') :
    p.SweptTo tiles hearings
      ⟨cells', (largest 1 (coalesce 0 (judged tiles hearings)) (0, 0)).1, w.liveBytes⟩ := by
  have hzero : cells'[0]? = some .zero := by
    rw [hm.outside 0 fun hf => by have := hf.bounds; omega, hw.before 0 (by omega)]
    exact hp.sentinel
  have hbytes : w.liveBytes = bytesOf (coalesce 0 (judged tiles hearings)) := by
    rw [hw.bytes_eq, bytesOf, bytesOf, filter_coalesce]
    exact Nat.zero_add _
  have hsound : Sound ⟨cells', (largest 1 (coalesce 0 (judged tiles hearings)) (0, 0)).1,
      w.liveBytes⟩ (coalesce 0 (judged tiles hearings)) :=
    ⟨hm.length_eq.trans (hw.length_eq.trans hp.length_eq), hzero, hm.tiling,
      by rw [span_coalesce, span_judged, Nat.zero_add, hp.filled], parted_coalesce _ _,
      atTile_largest _, hbytes⟩
  refine ⟨hsound, ?_, rfl, fun h hh hs => ?_⟩
  · rw [hsound.toList_blocks, dataOf_coalesce, dataOf_judged hidx]
  · have hmem : h.1.index ∈ dataOf 1 tiles := hidx ▸ List.mem_map_of_mem hh
    have hpos := lt_of_mem_dataOf hmem
    have hsize : 0 < (headerAt p.cells (h.1.index - 1)).size := by
      obtain ⟨front, t, back, rfl, -, hi⟩ := mem_dataOf.mp hmem
      rw [hi, Nat.add_sub_cancel, hp.tile.headerAt]
      exact hp.tile.2.1
    refine ⟨?_, fun i hi => ?_⟩
    · simp only [blockCells, headerAt, Array.getD_eq_getD_getElem?]
      rw [tile_kept hp hidx hw hm hh hs (Nat.le_refl _) (by omega), if_neg (by omega)]
    · rw [blockCells] at hi
      rw [tile_kept hp hidx hw hm hh hs (by omega) (by omega)]
      simp

theorem Sound.sweep (hp : p.Sound tiles) (ask : Sight → ε → Ruling × ε) (hmark : Markable ask p)
    (env : ε) :
    ∃ hearings env' p', hear ask (p.blocks.toList.map (sightAt p.cells)) env = (hearings, env') ∧
      p.SweptTo tiles hearings p' ∧
      p.sweep ask env = ⟨p', env', countFates hearings, (toFinalize hearings).toArray,
        (survivors hearings).isEmpty, none⟩ := by
  obtain ⟨hearings, hhear, hw⟩ := Walk.run_spec (w := ⟨p.cells, env, 0, {}, #[]⟩) hp.tiling
    hp.filled hp.length_eq (hp.markableFrom hmark) hp.length_lt
  obtain ⟨cells', hmerge, hm⟩ := mergeFrom_spec (0, 0) hw.tiling
    (by rw [span_judged]; exact hp.filled) (by rw [length_judged]; exact hp.length_lt)
  have hidx : hearings.map (·.1.index) = dataOf 1 tiles := by
    have := congrArg (List.map Sight.index) (map_fst_of_hear hhear)
    simpa [sightAt, Function.comp_def] using this
  refine ⟨hearings, _, _, by rw [hp.toList_blocks]; exact hhear, hp.sweptTo hidx hw hm, ?_⟩
  have hqueued := hw.queued_eq
  have htally := hw.tally_eq
  have hempty : (Walk.run ask tiledCells 1 ⟨p.cells, env, 0, {}, #[]⟩).liveBytes = 0 ↔
      survivors hearings = [] := by
    rw [hw.bytes_eq, ← dataOf_judged hidx, ← bytesOf_eq_zero hw.tiling]
    simp
  rw [TiledPage.sweep]
  generalize Walk.run ask tiledCells 1 ⟨p.cells, env, 0, {}, #[]⟩ = w at *
  obtain ⟨cells, env', liveBytes, tally, queued⟩ := w
  simp only at hmerge hqueued htally hempty ⊢
  rw [hmerge]
  simp only [htally, countFates, Swept.mk.injEq, true_and, and_true]
  exact ⟨Array.toList_inj.mp (by simpa using hqueued), by rw [Bool.eq_iff_iff]; simpa using hempty⟩

end SweptHeap.TiledPage
