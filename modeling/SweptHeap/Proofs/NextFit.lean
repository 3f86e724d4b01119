import Mathlib
import SweptHeap.Proofs.Page.TiledSweep

/-!
# Next-fit

A tiled page finds its blocks only by their headers, one after the other. `scan` does nothing but
that: it lists the blocks from the first to the last, free or not. Whatever was done to the page
since it was created, the blocks of the scan tile it, no two free ones touch, and what is free is
cleared. So the search of an allocation, which begins at the cursor and goes round, misses no block
that a plain look at the scan would find.
-/

namespace SweptHeap.TiledPage

variable {cells : Array Cell} {cell : Nat} {p : TiledPage} {tiles : List TileHeader}

/-- The blocks from `cell` on, each with the cell of its header. -/
def scanFrom (cells : Array Cell) : (left cell : Nat) → List (Nat × TileHeader)
  | 0, _ => []
  | left + 1, cell =>
    if tiledCells ≤ cell then []
    else (cell, headerAt cells cell) :: scanFrom cells left (cell + (headerAt cells cell).size)

/-- The blocks of the page, free or allocated, in order. -/
def scan (p : TiledPage) : List (Nat × TileHeader) := scanFrom p.cells tiledCells 1

theorem scanFrom_eq {left : Nat} (h : Tiling cells cell tiles)
    (hend : cell + span tiles = tiledCells) (hleft : tiles.length < left) :
    scanFrom cells left cell = placed cell tiles := by
  induction tiles generalizing cell left with
  | nil =>
    obtain ⟨left, rfl⟩ : ∃ n, left = n + 1 := ⟨left - 1, by simp at hleft; omega⟩
    rw [span_nil, Nat.add_zero] at hend
    simp [scanFrom, hend, placed]
  | cons t rest ih =>
    obtain ⟨left, rfl⟩ : ∃ n, left = n + 1 := ⟨left - 1, by omega⟩
    rw [span_cons] at hend
    have hpos := h.2.1
    rw [scanFrom, if_neg (by omega), h.headerAt, placed,
      ih h.2.2.2 (by omega) (by simpa using hleft)]

theorem Sound.scan_eq (h : p.Sound tiles) : p.scan = placed 1 tiles :=
  scanFrom_eq h.tiling h.filled h.length_lt

/-! ### What the scan shows -/

theorem dataOf_eq (cell : Nat) (tiles : List TileHeader) :
    dataOf cell tiles = ((placed cell tiles).filter (·.2.allocated)).map (·.1 + 1) := by
  induction tiles generalizing cell with
  | nil => rfl
  | cons t rest ih =>
    rw [dataOf, placed, ih]
    cases ht : t.allocated <;> simp [ht]

theorem bytesOf_eq (cell : Nat) (tiles : List TileHeader) :
    bytesOf tiles = cellBytes *
      (((placed cell tiles).filter (·.2.allocated)).map (·.2.size)).sum := by
  induction tiles generalizing cell with
  | nil => rfl
  | cons t rest ih =>
    have hrest := ih (cell + t.size)
    rw [bytesOf, Nat.mul_comm] at hrest ⊢
    rw [placed]
    cases ht : t.allocated with
    | false => simpa [ht] using hrest
    | true => simp [ht, Nat.mul_add, hrest]

theorem any_fits {need : Nat} : tiles.any (Fits need) = true ↔
    ∃ x ∈ placed cell tiles, x.2.allocated = false ∧ need ≤ x.2.size := by
  rw [List.any_eq_true]
  constructor
  · rintro ⟨t, ht, hfit⟩
    obtain ⟨front, back, rfl⟩ := List.append_of_mem ht
    exact ⟨(cell + span front, t), mem_placed.mpr ⟨front, t, back, rfl, rfl⟩, fits_iff.mp hfit⟩
  · rintro ⟨x, hx, hfit⟩
    exact ⟨x.2, (placed_bounds hx).1, fits_iff.mpr hfit⟩

theorem placed_covers {i : Nat} (hlow : cell ≤ i) (hhigh : i < cell + span tiles) :
    ∃ x ∈ placed cell tiles, x.1 ≤ i ∧ i < x.1 + x.2.size := by
  induction tiles generalizing cell with
  | nil => simp at hhigh; omega
  | cons t rest ih =>
    rw [span_cons] at hhigh
    by_cases hi : i < cell + t.size
    · exact ⟨(cell, t), List.mem_cons_self, hlow, hi⟩
    · obtain ⟨x, hx, hin⟩ := ih (Nat.not_lt.mp hi) (by omega)
      exact ⟨x, List.mem_cons_of_mem _ hx, hin⟩

/-- Two tiles are the same, or one ends before the other begins. -/
theorem placed_apart {x y : Nat × TileHeader} (hx : x ∈ placed cell tiles)
    (hy : y ∈ placed cell tiles) : x = y ∨ x.1 + x.2.size ≤ y.1 ∨ y.1 + y.2.size ≤ x.1 := by
  obtain ⟨front, t, back, rfl, rfl⟩ := mem_placed.mp hx
  obtain ⟨front', u, back', he, rfl⟩ := mem_placed.mp hy
  rcases tiles_apart he with ⟨rfl, rfl, -⟩ | h | h
  · exact .inl rfl
  · exact .inr (.inl (by simp only; omega))
  · exact .inr (.inr (by simp only; omega))

/-- Free tiles do not touch. -/
theorem Parted.of_touching (hparted : Parted tiles) (hpos : ∀ t ∈ tiles, 0 < t.size)
    {x y : Nat × TileHeader} (hx : x ∈ placed cell tiles) (hy : y ∈ placed cell tiles)
    (htouch : x.1 + x.2.size = y.1) : x.2.allocated = true ∨ y.2.allocated = true := by
  induction tiles generalizing cell with
  | nil => simp [placed] at hx
  | cons t rest ih =>
    have hrest : ∀ u ∈ rest, 0 < u.size := fun u hu => hpos u (List.mem_cons_of_mem _ hu)
    have hhead := hpos t List.mem_cons_self
    rcases List.mem_cons.mp hx with rfl | hx <;> rcases List.mem_cons.mp hy with rfl | hy
    · simp only at htouch
      omega
    · -- The tile behind the first one is the head of the rest.
      cases rest with
      | nil => simp [placed] at hy
      | cons u rest =>
        rcases List.mem_cons.mp hy with rfl | hy
        · exact (List.isChain_cons_cons.mp hparted).1
        · have := (placed_bounds hy).2.1
          have := hrest u List.mem_cons_self
          simp only at htouch
          omega
    · have := placed_bounds hx
      have := hrest _ this.1
      simp only at htouch
      omega
    · exact ih hparted.tail hrest hx hy

theorem tiledFrom_of_parted {left : Nat} (h : Tiling cells cell tiles)
    (hend : cell + span tiles = tiledCells) (hparted : Parted tiles) {afterFree : Bool}
    (hafter : afterFree = true → ∀ t ∈ tiles.head?, t.allocated = true)
    (hleft : tiles.length < left) : tiledFrom cells true left cell afterFree = true := by
  induction tiles generalizing cell left afterFree with
  | nil =>
    obtain ⟨left, rfl⟩ : ∃ n, left = n + 1 := ⟨left - 1, by simp at hleft; omega⟩
    rw [span_nil, Nat.add_zero] at hend
    simp [tiledFrom, hend]
  | cons t rest ih =>
    obtain ⟨left, rfl⟩ : ∃ n, left = n + 1 := ⟨left - 1, by omega⟩
    rw [span_cons] at hend
    have hpos := h.2.1
    have hnext : (!t.allocated) = true → ∀ u ∈ rest.head?, u.allocated = true := fun hfree u hu =>
      ((List.isChain_cons.mp hparted).1 u hu).resolve_left (by simpa using hfree)
    rw [tiledFrom, if_neg (by omega)]
    simp only [h.headerAt]
    rw [if_neg (Nat.ne_of_gt hpos), if_neg]
    · exact ih h.2.2.2 (by omega) hparted.tail hnext (by simpa using hleft)
    · cases afterFree with
      | false => simp
      | true => simp [hafter rfl t rfl]

theorem Sound.isTiled (h : p.Sound tiles) : p.isTiled true = true := by
  have hzero : (headerAt p.cells 0).size = 0 := by
    simp [headerAt, Array.getD_eq_getD_getElem?, h.sentinel]
  rw [TiledPage.isTiled, Bool.and_eq_true, decide_eq_true_iff]
  exact ⟨hzero, tiledFrom_of_parted h.tiling h.filled h.parted (by simp) h.length_lt⟩

/-! ### Runs -/

/-- A page after some calls. Requests are counts, and whoever answers a sweep or writes to a block
stays inside the block. -/
inductive Reached : TiledPage → Prop
  | create : Reached .create
  | allocate {p : TiledPage} {n : Nat} (h : Reached p) (hn : n + 1 < countLimit) :
      Reached (p.allocate n).2
  | sweep {ε : Type} (ask : Sight → ε → Ruling × ε) (env : ε) {p : TiledPage} (h : Reached p)
      (hmark : p.Markable ask) : Reached (p.sweep ask env).page
  | write (c : Cell) {p : TiledPage} {i k : Nat} (h : Reached p) (hi : i ∈ p.blocks.toList)
      (hk : k < p.blockCells i) : Reached { p with cells := p.cells.setIfInBounds (i + k) c }

theorem Reached.sound (h : Reached p) : ∃ tiles, p.Sound tiles := by
  induction h with
  | create => exact ⟨_, create_sound⟩
  | @allocate p n _ hn ih =>
    obtain ⟨tiles, hp⟩ := ih
    cases hany : tiles.any (Fits (n + 1)) with
    | true =>
      obtain ⟨front, t, back, p', -, -, heq, hcarved, -⟩ := hp.allocate_some hn hany
      rw [heq]
      exact ⟨_, hcarved.sound⟩
    | false =>
      obtain ⟨cursor, heq, hp'⟩ := hp.allocate_none hn hany
      rw [heq]
      exact ⟨tiles, hp'⟩
  | sweep ask env _ hmark ih =>
    obtain ⟨tiles, hp⟩ := ih
    obtain ⟨hearings, env', p', -, hswept, heq⟩ := hp.sweep ask hmark env
    rw [heq]
    exact ⟨_, hswept.sound⟩
  | write c _ hi hk ih =>
    obtain ⟨tiles, hp⟩ := ih
    exact ⟨tiles, hp.setCell hi hk c⟩

/-- What is seen of a page by going from header to header. -/
structure Tidy (p : TiledPage) : Prop where
  tiled : p.isTiled true = true
  sentinel : p.cells[0]? = some .zero
  size_pos : ∀ x ∈ p.scan, 0 < x.2.size
  covered : ∀ i, 0 < i → i < tiledCells → ∃! x, x ∈ p.scan ∧ x.1 ≤ i ∧ i < x.1 + x.2.size
  inside : ∀ x ∈ p.scan, 0 < x.1 ∧ x.1 + x.2.size ≤ tiledCells
  parted : ∀ x ∈ p.scan, ∀ y ∈ p.scan, x.1 + x.2.size = y.1 →
    x.2.allocated = true ∨ y.2.allocated = true
  cursor : p.cursor = 0 ∨ ∃ x ∈ p.scan, x.1 = p.cursor
  zero : ∀ x ∈ p.scan, x.2.allocated = false → ∀ i, x.1 < i → i < x.1 + x.2.size →
    p.cells[i]? = some .zero
  allocatedBytes_eq : p.allocatedBytes = cellBytes *
    ((p.scan.filter (·.2.allocated)).map (·.2.size)).sum
  toList_blocks : p.blocks.toList = (p.scan.filter (·.2.allocated)).map (·.1 + 1)
  allocate_ok : ∀ n, n + 1 < countLimit → ∃ block, (p.allocate n).1 = .ok block
  hasRoom_ok : ∀ n, n + 1 < countLimit → ∃ room, p.hasRoom n = .ok room
  sweep_ok : ∀ (ε : Type) (ask : Sight → ε → Ruling × ε) (env : ε), (p.sweep ask env).fault = none

theorem Sound.allocate_ok (h : p.Sound tiles) {n : Nat} (hn : n + 1 < countLimit) :
    ∃ block, (p.allocate n).1 = .ok block := by
  cases hany : tiles.any (Fits (n + 1)) with
  | true =>
    obtain ⟨_, _, _, _, -, -, heq, -⟩ := h.allocate_some hn hany
    exact ⟨_, by rw [heq]⟩
  | false =>
    obtain ⟨_, heq, -⟩ := h.allocate_none hn hany
    exact ⟨_, by rw [heq]⟩

/-- Where the first block is the only free one, it is the one that gives its end. -/
theorem Sound.allocate_head {t : TileHeader} {back : List TileHeader} (h : p.Sound (t :: back))
    (hback : ∀ u ∈ back, u.allocated = true) {n : Nat} (hn : n + 1 < countLimit)
    (hfit : Fits (n + 1) t = true) : Sound (p.allocate n).2 (carved t (n + 1) ++ back) := by
  obtain ⟨front, u, rest, p', hsplit, hfit', heq, hcarved, -⟩ :=
    h.allocate_some hn (by rw [List.any_cons, hfit, Bool.true_or])
  rw [heq]
  cases front with
  | nil =>
    obtain ⟨rfl, rfl⟩ := List.cons_eq_cons.mp hsplit
    exact hcarved.sound
  | cons v front =>
    have hu : u.allocated = true := hback u (by rw [(List.cons_eq_cons.mp hsplit).2]; simp)
    simp [Fits, hu] at hfit'

/-- A fresh page gives the end of its only block. -/
theorem allocate_fresh {n : Nat} (hn : n + 1 < tiledCells) :
    Sound (create.allocate n).2 (carved ⟨false, tiledCells - 1⟩ (n + 1)) := by
  have hfit : Fits (n + 1) ⟨false, tiledCells - 1⟩ = true := fits_iff.mpr ⟨rfl, by simp only; omega⟩
  simpa using create_sound.allocate_head (by simp) (hn.trans (by decide)) hfit

/-- Whatever is allocated, written and swept, the blocks tile the page, no two free ones touch, what
is free is cleared and what is counted is there. -/
theorem tiling_kept (h : Reached p) : p.Tidy := by
  obtain ⟨tiles, hp⟩ := h.sound
  have hscan := hp.scan_eq
  have hpos := hp.tiling.size_pos
  refine ⟨hp.isTiled, hp.sentinel, fun x hx => ?_, fun i hlow hhigh => ?_, fun x hx => ?_,
    fun x hx y hy => ?_, ?_, fun x hx hfree => ?_, ?_, ?_, fun n hn => hp.allocate_ok hn,
    fun n hn => ⟨_, hp.hasRoom_eq hn⟩, fun _ _ _ => rfl⟩
  · exact hpos _ (placed_bounds (hscan ▸ hx)).1
  · rw [hscan]
    obtain ⟨x, hx, hin⟩ := placed_covers hlow (hhigh.trans_eq hp.filled.symm)
    refine ⟨x, ⟨hx, hin⟩, fun y ⟨hy, hiny⟩ => ?_⟩
    rcases placed_apart hx hy with he | hlt | hlt
    · exact he.symm
    · omega
    · omega
  · have := placed_bounds (hscan ▸ hx)
    have := hp.filled
    omega
  · rw [hscan] at hx hy
    exact hp.parted.of_touching hpos hx hy
  · refine hp.cursor.imp_right fun hc => ?_
    obtain ⟨front, t, back, he, hc⟩ := mem_starts.mp hc
    exact ⟨(1 + span front, t),
      by rw [hscan]; exact mem_placed.mpr ⟨front, t, back, he, rfl⟩, hc.symm⟩
  · obtain ⟨front, t, back, rfl, rfl⟩ := mem_placed.mp (hscan ▸ hx)
    exact hp.tile.2.2.1 hfree
  · rw [hscan, hp.bytes_eq, ← bytesOf_eq]
  · rw [hscan, hp.toList_blocks, dataOf_eq]

/-- A block is taken and marked, and a sweep clears the mark. -/
theorem tiling_kept_marked : ∃ p, Reached p ∧ p.blocks.toList = [32761] ∧
    p.cells[32761]? = some .mark ∧
    p.Tidy ∧ (p.sweep (fun _ n => (⟨.live, true⟩, n + 1)) 0).page.Tidy := by
  have hp : Sound (create.allocate 4).2 ([⟨false, 32759⟩] ++ [⟨true, 5⟩]) :=
    allocate_fresh (by decide)
  have hi : 32761 ∈ (create.allocate 4).2.blocks.toList := by
    rw [hp.toList_blocks]
    decide
  have hk : 0 < (create.allocate 4).2.blockCells 32761 := hp.blockCells_eq.symm ▸ Nat.zero_lt_succ 3
  have hw := hp.setCell hi hk .mark
  have hr : Reached _ := .write .mark (.allocate .create (by decide)) hi hk
  refine ⟨_, hr, hw.toList_blocks, ?_, tiling_kept hr,
    tiling_kept (.sweep _ _ hr fun i hi hzero => ?_)⟩
  · simp [hp.length_eq, show tiledCells = 32765 from rfl]
  · obtain rfl : i = 32761 := by simpa [hw.toList_blocks, dataOf] using hi
    exact absurd (hw.blockCells_eq.symm.trans hzero) (by decide)

/-- Next-fit gives a block exactly if there is room, and takes it from the end of a free block that
the plain scan would name; without room it leaves all blocks as they are. -/
theorem next_fit_agrees (h : Reached p) {n : Nat} (hn : n + 1 < countLimit) :
    (∃ room, p.hasRoom n = .ok room ∧
      (room = true ↔ ∃ x ∈ p.scan, x.2.allocated = false ∧ n + 1 ≤ x.2.size)) ∧
    (p.hasRoom n = .ok true → ∃ before x after p', p.scan = before ++ x :: after ∧
      x.2.allocated = false ∧ n + 1 ≤ x.2.size ∧ Chosen (n + 1) p.cursor p.scan x ∧
      p.allocate n = (.ok (some (x.1 + (x.2.size - (n + 1)) + 1)), p') ∧
      p'.scan = before ++ placed x.1 (carved x.2 (n + 1)) ++ after ∧
      (∀ i < n, p'.cells[x.1 + (x.2.size - (n + 1)) + 1 + i]? = some .zero) ∧
      (∀ i, i < x.1 ∨ x.1 + x.2.size ≤ i → p'.cells[i]? = p.cells[i]?)) ∧
    (p.hasRoom n = .ok false → ∃ p', p.allocate n = (.ok none, p') ∧
      p'.cells = p.cells ∧ p'.allocatedBytes = p.allocatedBytes ∧
      ∀ m, p'.hasRoom m = p.hasRoom m) := by
  obtain ⟨tiles, hp⟩ := h.sound
  rw [hp.hasRoom_eq hn]
  refine ⟨⟨_, rfl, ?_⟩, fun hroom => ?_, fun hroom => ?_⟩
  · rw [hp.scan_eq]
    exact any_fits
  · obtain ⟨front, t, back, p', rfl, hfit, heq, hcarved, hchosen⟩ :=
      hp.allocate_some hn (Except.ok.inj hroom)
    obtain ⟨hfree, hle⟩ := fits_iff.mp hfit
    refine ⟨placed 1 front, (1 + span front, t), placed (1 + span front + t.size) back, p',
      ?_, hfree, hle, hp.scan_eq ▸ hchosen, heq, ?_, fun i hi => ?_, hcarved.outside⟩
    · rw [hp.scan_eq, placed_append, placed]
    · rw [hcarved.sound.scan_eq, placed_append, placed_append, span_append,
        span_carved hle, Nat.add_assoc 1]
    · exact hcarved.zero _ (by simp only; omega) (by simp only; omega)
  · obtain ⟨cursor, heq, -⟩ := hp.allocate_none hn (Except.ok.inj hroom)
    exact ⟨_, heq, rfl, rfl, fun _ => rfl⟩

/-- Behind a first block, the rest of the page is taken whole, and then nothing is left. -/
theorem next_fit_agrees_full :
    ∃ p p' p'', Reached p ∧ p.scan = [(1, ⟨false, 32759⟩), (32760, ⟨true, 5⟩)] ∧
    p.allocate 32758 = (.ok (some 2), p') ∧ p'.scan = [(1, ⟨true, 32759⟩), (32760, ⟨true, 5⟩)] ∧
    p'.allocate 0 = (.ok none, p'') ∧ p''.cells = p'.cells := by
  have hr : Reached (create.allocate 4).2 := .allocate .create (by decide)
  have hscan : (create.allocate 4).2.scan = [(1, ⟨false, 32759⟩), (32760, ⟨true, 5⟩)] :=
    (allocate_fresh (n := 4) (by decide)).scan_eq
  obtain ⟨⟨room, hroom, hiff⟩, hsome, -⟩ := next_fit_agrees hr (n := 32758) (by decide)
  obtain rfl : room = true := hiff.mpr ⟨(1, ⟨false, 32759⟩), by simp [hscan], rfl, Nat.le_refl _⟩
  obtain ⟨before, x, after, p', hsplit, hfree, -, -, heq, hscan', -⟩ := hsome hroom
  -- The free block is the first one.
  rw [hscan] at hsplit
  match before, hsplit with
  | [], hsplit =>
    obtain ⟨rfl, rfl⟩ := List.cons_eq_cons.mp hsplit
    have hr' : Reached p' := by simpa [heq] using hr.allocate (n := 32758) (by decide)
    obtain ⟨⟨room, hroom', hiff'⟩, -, hnone⟩ := next_fit_agrees hr' (n := 0) (by decide)
    replace hscan' : p'.scan = [(1, ⟨true, 32759⟩), (32760, ⟨true, 5⟩)] := hscan'
    obtain rfl : room = false := by
      rw [Bool.eq_false_iff, ne_eq, hiff', hscan']
      simp
    obtain ⟨p'', heq', hcells, -⟩ := hnone hroom'
    exact ⟨_, p', p'', hr, hscan, heq, hscan', heq', hcells⟩
  | [y], hsplit =>
    obtain ⟨rfl, -⟩ : (32760, ⟨true, 5⟩) = x ∧ _ :=
      List.cons_eq_cons.mp (List.cons_eq_cons.mp hsplit).2
    cases hfree
  | _ :: _ :: before, hsplit => simp at hsplit

end SweptHeap.TiledPage
