import Mathlib
import SweptHeap.Page.Basic
import SweptHeap.Proofs.Page.RecordSlots
import SweptHeap.Proofs.Page.TiledSweep
import SweptHeap.Proofs.Page.UniformSweep

/-!
# Sound pages of every kind

What the heap may rely on, whatever the kind of a page: where its blocks lie, and what an
allocation, a write, a change of a record and a sweep make of them.
-/

namespace SweptHeap

/-- The request that names the shelf of a request. -/
def Request.key (r : Request) : Request :=
  match r.kind with
  | .uniform => r
  | kind => ⟨kind, 0⟩

/-- A request that its kind of page can serve. -/
def Request.Valid (r : Request) : Prop :=
  match r.kind with
  | .uniform => 0 < r.cells ∧ r.cells ≤ largestUniform
  | .tiled => 0 < r.cells ∧ r.cells ≤ largestTiled
  | .large => largestTiled < r.cells
  | .records => True

/-- A request that shares its page with others. A tiled page also gives blocks without a cell. -/
def Request.Shared (r : Request) : Prop :=
  match r.kind with
  | .uniform => 0 < r.cells ∧ r.cells ≤ largestUniform
  | .tiled => r.cells ≤ largestTiled
  | .large => False
  | .records => True

theorem Request.Valid.shared {r : Request} (h : r.Valid) (hlarge : r.kind ≠ .large) : r.Shared := by
  obtain ⟨kind, cells⟩ := r
  cases kind with
  | uniform => exact h
  | tiled => exact h.2
  | large => exact absurd rfl hlarge
  | records => trivial

@[simp] theorem Request.key_kind (r : Request) : r.key.kind = r.kind := by
  obtain ⟨kind, cells⟩ := r
  cases kind <;> rfl

@[simp] theorem Request.key_key (r : Request) : r.key.key = r.key := by
  obtain ⟨kind, cells⟩ := r
  cases kind <;> rfl

namespace Page

/-- The shelf that a page belongs on. -/
def key : Page → Request
  | uniform p => ⟨.uniform, p.blockSize⟩
  | tiled _ => ⟨.tiled, 0⟩
  | large _ => ⟨.large, 0⟩
  | records _ => ⟨.records, 0⟩

def Sound : Page → Prop
  | uniform p => ∃ free, p.Sound free
  | tiled p => (∃ tiles, p.Sound tiles) ∧ ∀ i ∈ p.blocks.toList, 0 < p.blockCells i
  | large p => largestTiled < p.cells.size ∧
      (p.allocated = false → ∀ i < p.cells.size, p.cells[i]? = some .zero)
  | records p => ∃ free, p.Sound free

/-- Like `Sound`, but the blocks of a tiled page may be without a cell. -/
def Whole : Page → Prop
  | tiled p => ∃ tiles, p.Sound tiles
  | p => p.Sound

/-- The cells in which the page keeps something for itself: links between free blocks, and headers
of tiles. -/
def reserved : Page → List Nat
  | uniform p => p.links
  | tiled p => p.headers
  | large _ => []
  | records _ => []

variable {p p' : Page} {i j c : Nat}

theorem key_kind (p : Page) : p.key.kind = p.kind := by cases p <;> rfl

theorem exists_records (hk : p.kind = .records) : ∃ q, p = .records q := by
  cases p with
  | records q => exact ⟨q, rfl⟩
  | uniform q => cases hk
  | tiled q => cases hk
  | large q => cases hk

theorem Sound.whole (h : p.Sound) : p.Whole := by
  cases p with
  | tiled q => exact h.1
  | uniform q => exact h
  | large q => exact h
  | records q => exact h

/-! ### Where the blocks lie -/

theorem Sound.blocks_nodup (h : p.Sound) : p.blocks.toList.Nodup := by
  cases p with
  | uniform p =>
    obtain ⟨free, h⟩ := h
    change p.blocks.toList.Nodup
    rw [h.toList_blocks]
    exact h.places_nodup.filter _
  | tiled p =>
    obtain ⟨⟨tiles, h⟩, -⟩ := h
    exact h.blocks_nodup
  | large p =>
    change p.blocks.toList.Nodup
    rw [LargePage.blocks]
    split_ifs <;> simp
  | records p =>
    change p.blocks.toList.Nodup
    rw [RecordPage.toList_blocks]
    exact List.nodup_range.filter _

theorem Sound.blockCells_pos (h : p.Sound) (hk : p.kind ≠ .records) (hi : i ∈ p.blocks.toList) :
    0 < p.blockCells i := by
  cases p with
  | uniform p =>
    obtain ⟨free, h⟩ := h
    exact h.size_pos
  | tiled p => exact h.2 i hi
  | large p => exact Nat.zero_lt_of_lt h.1
  | records p => exact absurd rfl hk

theorem Sound.block_le (h : p.Sound) (hk : p.kind ≠ .records) (hi : i ∈ p.blocks.toList) :
    i + p.blockCells i ≤ p.cells.size := by
  cases p with
  | uniform p =>
    obtain ⟨free, h⟩ := h
    exact h.block_le hi
  | tiled p =>
    obtain ⟨⟨tiles, h⟩, -⟩ := h
    exact h.block_le hi
  | large p =>
    have : i = 0 := by
      simp only [blocks, LargePage.blocks] at hi
      split_ifs at hi <;> simp_all
    simp [this, blockCells, cells]
  | records p => exact absurd rfl hk

theorem Sound.blocks_apart (h : p.Sound) (hi : i ∈ p.blocks.toList) (hj : j ∈ p.blocks.toList)
    (hne : i ≠ j) : i + p.blockCells i ≤ j ∨ j + p.blockCells j ≤ i := by
  cases p with
  | uniform p =>
    obtain ⟨free, h⟩ := h
    exact h.apart (h.mem_blocks.mp hi).1 (h.mem_blocks.mp hj).1 hne
  | tiled p =>
    obtain ⟨⟨tiles, h⟩, -⟩ := h
    exact h.apart hi hj hne
  | large p =>
    simp only [blocks, LargePage.blocks] at hi hj
    split_ifs at hi hj <;> simp_all
  | records p =>
    simp only [blockCells]
    omega

theorem Sound.reserved_apart (h : p.Sound) (hi : i ∈ p.blocks.toList) (hc : c ∈ p.reserved) :
    c < i ∨ i + p.blockCells i ≤ c := by
  cases p with
  | uniform p =>
    obtain ⟨free, h⟩ := h
    have hfree := h.mem_free_of_mem_links hc
    have hne : i ≠ c := by
      rintro rfl
      exact (h.mem_blocks.mp hi).2 hfree
    rcases h.apart (h.mem_blocks.mp hi).1 (h.places_of_mem hfree) hne with hle | hle
    · exact .inr hle
    · have := h.size_pos
      exact .inl (by omega)
  | tiled p =>
    obtain ⟨⟨tiles, h⟩, -⟩ := h
    exact h.headers_apart hi hc
  | large p => simp [reserved] at hc
  | records p => simp [reserved] at hc

/-- The cells of a page lie in its region, behind the header. -/
theorem Sound.cells_le_region (h : p.Sound) :
    p.kind.headerBytes + p.cells.size * cellBytes ≤ p.regionBytes := by
  cases p with
  | uniform p =>
    obtain ⟨free, h⟩ := h
    simp [cells, h.length_eq, kind, regionBytes, uniformCells, PageKind.headerBytes, pageBytes,
      cellBytes]
  | tiled p =>
    obtain ⟨⟨tiles, h⟩, -⟩ := h
    simp [cells, h.length_eq, kind, regionBytes, tiledCells, PageKind.headerBytes, pageBytes,
      cellBytes]
  | large p => exact Nat.le_refl _
  | records p => simp [cells, kind, regionBytes, PageKind.headerBytes, pageBytes]

/-! ### Allocations -/

/-- The page has one block or record more, and nothing else about its blocks has changed. -/
structure Grown (p : Page) (i : Nat) (p' : Page) : Prop where
  sound : p'.Sound
  key_eq : p'.key = p.key
  fresh : i ∉ p.blocks.toList
  blocks_perm : p'.blocks.toList.Perm (i :: p.blocks.toList)
  kept : ∀ j ∈ p.blocks.toList, p'.blockCells j = p.blockCells j ∧
    ∀ k < p.blockCells j, p'.cells[j + k]? = p.cells[j + k]?
  record_eq : ∀ j ≠ i, p'.record? j = p.record? j

/-- The new block has `n` cells, all of them zero. -/
structure Gives (p : Page) (n i : Nat) (p' : Page) : Prop extends Grown p i p' where
  extent : p'.blockCells i = n
  zero : ∀ k < n, p'.cells[i + k]? = some .zero

structure Enrolls (p : Page) (record : Record) (i : Nat) (p' : Page) : Prop
    extends Grown p i p' where
  enrolled : p'.record? i = some record

theorem Enrolls.kind_eq {record : Record} (h : p.Enrolls record i p') : p.kind = .records := by
  rw [← p.key_kind, ← h.key_eq, key_kind]
  have henrolled := h.enrolled
  cases p' with
  | records q => rfl
  | uniform q => cases henrolled
  | tiled q => cases henrolled
  | large q => cases henrolled

theorem Gives.kind_ne {n : Nat} (h : p.Gives n i p') (hn : 0 < n) : p.kind ≠ .records := by
  rw [← p.key_kind, ← h.key_eq, key_kind]
  have hzero := h.zero 0 hn
  cases p' with
  | records q => simp [cells] at hzero
  | uniform q => simp [kind]
  | tiled q => simp [kind]
  | large q => simp [kind]

/-- The page has the same blocks and the same cells. -/
structure Keeps (p p' : Page) : Prop where
  sound : p'.Sound
  key_eq : p'.key = p.key
  blocks_eq : p'.blocks = p.blocks
  cells_eq : p'.cells = p.cells
  extent_eq : ∀ i, p'.blockCells i = p.blockCells i
  record_eq : ∀ i, p'.record? i = p.record? i

theorem Keeps.refl (h : p.Sound) : p.Keeps p := ⟨h, rfl, rfl, rfl, fun _ => rfl, fun _ => rfl⟩

theorem Keeps.trans {p'' : Page} (h : p.Keeps p') (h' : p'.Keeps p'') : p.Keeps p'' :=
  ⟨h'.sound, h'.key_eq.trans h.key_eq, h'.blocks_eq.trans h.blocks_eq, h'.cells_eq.trans h.cells_eq,
    fun i => (h'.extent_eq i).trans (h.extent_eq i),
    fun i => (h'.record_eq i).trans (h.record_eq i)⟩

theorem gives_uniform {q q' : UniformPage} {rest : List Nat} (h : q.Sound (i :: rest))
    (h' : q'.Sound rest) (hq : ∃ r, q' = q.claim i r) :
    (uniform q).Gives q.blockSize i (uniform q') := by
  obtain ⟨r, rfl⟩ := hq
  have hi : i ∈ q.places := h.places_of_mem List.mem_cons_self
  have hfresh : i ∉ q.blocks.toList := fun hm => (h.mem_blocks.mp hm).2 List.mem_cons_self
  have hcells (k : Nat) (hk : k ≠ i) : (q.claim i r).cells[k]? = q.cells[k]? := by
    simp [UniformPage.claim, Ne.symm hk]
  refine ⟨⟨⟨rest, h'⟩, rfl, hfresh, ?_, fun j hj => ⟨rfl, fun k hk => ?_⟩, fun _ _ => rfl⟩, rfl,
    fun k hk => ?_⟩
  · have hplaces : (q.claim i r).places = q.places := rfl
    change (q.claim i r).blocks.toList.Perm (i :: q.blocks.toList)
    refine (List.perm_ext_iff_of_nodup ?_ ?_).mpr fun c => ?_
    · rw [h'.toList_blocks]
      exact h'.places_nodup.filter _
    · refine List.nodup_cons.mpr ⟨hfresh, ?_⟩
      rw [h.toList_blocks]
      exact h.places_nodup.filter _
    · have hnd := (List.nodup_cons.mp h.free_nodup).1
      rw [h'.mem_blocks, hplaces, List.mem_cons, h.mem_blocks, List.mem_cons]
      by_cases hc : c = i
      · simp [hc, hi, hnd]
      · simp [hc]
  · refine hcells _ (Ne.symm ?_)
    have hj' := (h.mem_blocks.mp hj).1
    exact UniformPage.apart_of_dvd (h.mem_places.mp hi).1 (h.mem_places.mp hj').1
      (fun he => hfresh (he ▸ hj)) hk
  · have hlt : i < q.cells.size := by
      have := h.add_size_le hi
      have := h.limit_le
      have := h.size_pos
      rw [h.length_eq]
      omega
    rcases Nat.eq_zero_or_pos k with rfl | hpos
    · simp [cells, UniformPage.claim, hlt]
    · change (q.claim i r).cells[i + k]? = _
      rw [hcells _ (by omega)]
      exact h.clean i List.mem_cons_self k hpos hk

theorem gives_tiled {q q' : TiledPage} {front back : List TileHeader} {t : TileHeader} {n : Nat}
    (hq : (tiled q).Sound) (h : q.Sound (front ++ t :: back)) (hn : 0 < n)
    (hfit : TiledPage.Fits (n + 1) t = true) (h' : q.CarvedTo front t back (n + 1) q') :
    (tiled q).Gives n (1 + TiledPage.span front + (t.size - (n + 1)) + 1) (tiled q') := by
  obtain ⟨hfree, hle⟩ := TiledPage.fits_iff.mp hfit
  obtain ⟨pre, hcarved, hspan, hpre⟩ := TiledPage.carved_eq t (n + 1)
  have hold : q.blocks.toList = TiledPage.dataOf 1 front ++
      TiledPage.dataOf (1 + TiledPage.span front + t.size) back := by
    rw [h.toList_blocks, TiledPage.dataOf_append, TiledPage.dataOf, if_neg (by simp [hfree])]
  have hnew : q'.blocks.toList = TiledPage.dataOf 1 front ++
      (1 + TiledPage.span front + (t.size - (n + 1)) + 1) ::
        TiledPage.dataOf (1 + TiledPage.span front + t.size) back := by
    rw [h'.sound.toList_blocks, hcarved]
    simp only [TiledPage.dataOf_append, hpre, TiledPage.dataOf, TiledPage.span_append, hspan,
      TiledPage.span_cons, TiledPage.span_nil]
    simp [Nat.add_assoc, Nat.sub_add_cancel hle]
  have hkept : ∀ j ∈ q.blocks.toList, q'.blockCells j = q.blockCells j ∧
      ∀ k < q.blockCells j, q'.cells[j + k]? = q.cells[j + k]? := by
    intro j hj
    obtain ⟨front', u, back', he, hu, rfl⟩ := h.mem_blocks.mp hj
    have hsound := he ▸ h
    have hpos := hsound.tile.2.1
    rw [hsound.blockCells_eq]
    -- The carved tile was free, so it is not the tile of `j`.
    have hapart : TiledPage.span front' + u.size ≤ TiledPage.span front ∨
        TiledPage.span front + t.size ≤ TiledPage.span front' := by
      rcases TiledPage.tiles_apart he with ⟨-, rfl, -⟩ | hle | hle
      · simp [hfree] at hu
      · exact .inr hle
      · exact .inl hle
    refine ⟨?_, fun k hk => h'.outside _ (by omega)⟩
    rw [TiledPage.blockCells, Nat.add_sub_cancel, TiledPage.headerAt,
      Array.getD_eq_getD_getElem?, h'.outside _ (by omega), hsound.tile.1]
    rfl
  have hextent : q'.blockCells (1 + TiledPage.span front + (t.size - (n + 1)) + 1) = n := by
    have hsound := h'.sound
    rw [hcarved, ← List.append_assoc, List.append_assoc (front ++ pre)] at hsound
    have := hsound.blockCells_eq
    rwa [TiledPage.span_append, hspan, ← Nat.add_assoc] at this
  have hperm : q'.blocks.toList.Perm
      ((1 + TiledPage.span front + (t.size - (n + 1)) + 1) :: q.blocks.toList) := by
    rw [hold, hnew]
    exact List.perm_middle
  refine ⟨⟨⟨⟨_, h'.sound⟩, fun j hj => ?_⟩, rfl, ?_, hperm, hkept, fun _ _ => rfl⟩, hextent,
    fun k hk => h'.zero _ (by omega) (by omega)⟩
  · rcases List.mem_cons.mp (hperm.subset hj) with rfl | hj
    · rwa [hextent]
    · rw [(hkept j hj).1]
      exact hq.2 j hj
  · exact (List.nodup_cons.mp (hperm.nodup_iff.mp h'.sound.blocks_nodup)).1

/-- A uniform or tiled page gives a block exactly if it says that it has room. -/
theorem Sound.allocate {r : Request} (h : p.Sound) (hr : r.Valid) (hk : p.key = r.key)
    (hkind : r.kind = .uniform ∨ r.kind = .tiled) :
    (∃ i p', p.hasRoom r.cells = .ok true ∧ p.allocate r.cells = (.ok (some i), p') ∧
        p.Gives r.cells i p') ∨
      ∃ p', p.hasRoom r.cells = .ok false ∧ p.allocate r.cells = (.ok none, p') ∧ p.Keeps p' := by
  obtain ⟨kind, n⟩ := r
  cases p with
  | uniform q =>
    obtain ⟨free, hq⟩ := h
    cases free with
    | nil =>
      have hroom : q.hasRoom = false := by simpa using hq.hasRoom_iff
      exact .inr ⟨uniform q, by simp [hasRoom, hroom], by simp [allocate, hq.allocate_nil],
        .refl ⟨[], hq⟩⟩
    | cons i rest =>
      obtain ⟨f, heq, hsound⟩ := hq.allocate_cons
      have hroom : q.hasRoom = true := hq.hasRoom_iff.mpr (by simp)
      obtain rfl : q.blockSize = n := by
        cases kind <;> simp_all [key, Request.key]
      exact .inl ⟨i, uniform (q.claim i f), by simp [hasRoom, hroom], by simp [allocate, heq],
        gives_uniform hq hsound ⟨f, rfl⟩⟩
  | tiled q =>
    obtain ⟨tiles, hq⟩ := h.1
    obtain rfl : kind = .tiled := by cases kind <;> simp_all [key, Request.key]
    obtain ⟨hpos, hle⟩ := hr
    have hn : n + 1 < countLimit := by
      simp only [largestTiled, tiledCells, pageBytes, PageKind.headerBytes, cellBytes] at hle
      simp only [countLimit]
      omega
    cases hany : tiles.any (TiledPage.Fits (n + 1)) with
    | true =>
      obtain ⟨front, t, back, q', rfl, hfit, heq, hcarved, -⟩ := hq.allocate_some hn hany
      exact .inl ⟨_, tiled q', by simp [hasRoom, hq.hasRoom_eq hn, hany], by simp [allocate, heq],
        gives_tiled h hq hpos hfit hcarved⟩
    | false =>
      obtain ⟨cursor, heq, hsound⟩ := hq.allocate_none hn hany
      refine .inr ⟨tiled { q with cursor := cursor }, by simp [hasRoom, hq.hasRoom_eq hn, hany],
        by simp [allocate, heq], ⟨⟨tiles, hsound⟩, h.2⟩, rfl, rfl, rfl, fun _ => rfl, fun _ => rfl⟩
  | large q => cases kind <;> simp_all [key, Request.key]
  | records q => cases kind <;> simp_all [key, Request.key]

/-- A page of records enrolls a record exactly if it says that it has room. -/
theorem Sound.enroll (h : p.Sound) (hk : p.kind = .records) (n : Nat) (record : Record) :
    (∃ i p', p.hasRoom n = .ok true ∧ p.enroll record = (.ok (some i), p') ∧
        p.Enrolls record i p') ∨
      p.hasRoom n = .ok false ∧ p.enroll record = (.ok none, p) := by
  cases p with
  | uniform q => cases hk
  | tiled q => cases hk
  | large q => cases hk
  | records q =>
    obtain ⟨free, hq⟩ := h
    cases free with
    | nil =>
      have hroom : q.hasRoom = false := by simpa using hq.hasRoom_iff
      exact .inr ⟨by simp [hasRoom, hroom], by simp [Page.enroll, hq.allocate_nil]⟩
    | cons i rest =>
      obtain ⟨q', heq, hsound, hrec⟩ := hq.allocate_cons record
      have hroom : q.hasRoom = true := hq.hasRoom_iff.mpr (by simp)
      have hnone : q.record? i = none := by
        have := ((hq.vacant i).mp List.mem_cons_self).2
        exact RecordPage.held_eq_false.mp this
      have hfresh : i ∉ q.blocks.toList := fun hm => by
        obtain ⟨_, hi⟩ := hq.mem_blocks.mp hm
        rw [hnone] at hi
        cases hi
      refine .inl ⟨i, records q', by simp [hasRoom, hroom], by simp [Page.enroll, heq],
        ⟨⟨rest, hsound⟩, rfl, hfresh, ?_,
          fun j _ => ⟨rfl, fun k hk => absurd hk (Nat.not_lt_zero k)⟩,
          fun j hj => (hrec j).trans (if_neg hj)⟩, (hrec i).trans (if_pos rfl)⟩
      refine (List.perm_ext_iff_of_nodup (Sound.blocks_nodup (p := records q') ⟨rest, hsound⟩)
        (List.nodup_cons.mpr ⟨hfresh, Sound.blocks_nodup (p := records q) ⟨_, hq⟩⟩)).mpr fun c => ?_
      change c ∈ q'.blocks.toList ↔ c ∈ i :: q.blocks.toList
      rw [hsound.mem_blocks, List.mem_cons, hq.mem_blocks, hrec]
      by_cases hc : c = i <;> simp [hc]

theorem Whole.hasRoom_of_empty {r : Request} (h : p.Whole) (hr : r.Shared) (hk : p.key = r.key)
    (hb : p.blocks.toList = []) : p.hasRoom r.cells = .ok true := by
  obtain ⟨kind, n⟩ := r
  cases p with
  | uniform q =>
    obtain ⟨free, hq⟩ := h
    have hlimit : 0 < q.limit := by
      have hle := hq.size_le
      have hpos := hq.size_pos
      have huniform : largestUniform ≤ uniformCells := by decide
      have hcap : 0 < uniformCells / q.blockSize := Nat.div_pos (by omega) hpos
      rw [hq.limit_eq]
      exact Nat.mul_pos hcap hpos
    have hzero : 0 ∈ q.places := hq.mem_places.mpr ⟨Nat.dvd_zero _, hlimit⟩
    have hfree : 0 ∈ free := by
      by_contra hn
      have : 0 ∈ q.blocks.toList := hq.mem_blocks.mpr ⟨hzero, hn⟩
      simp [show q.blocks.toList = [] from hb] at this
    simp [hasRoom, hq.hasRoom_iff.mpr (List.ne_nil_of_mem hfree)]
  | tiled q =>
    obtain ⟨tiles, hq⟩ := h
    obtain rfl : kind = .tiled := by cases kind <;> simp_all [key, Request.key]
    have hle : n ≤ tiledCells - 2 := hr
    obtain rfl := hq.eq_single hb
    have hcells : tiledCells = 32765 := rfl
    have hn : n + 1 < countLimit := by
      simp only [countLimit]
      omega
    have hfit : n + 1 ≤ tiledCells - 1 := by omega
    simp [hasRoom, hq.hasRoom_eq hn, TiledPage.Fits, hfit]
  | large q => cases kind <;> simp_all [key, Request.key, Request.Shared]
  | records q =>
    obtain ⟨free, hq⟩ := h
    have hroom : free ≠ [] := by
      rintro rfl
      have hheld : ¬ (0 < recordSlots ∧ RecordPage.held q.slots 0 = false) := by
        simpa using (hq.vacant 0).not.mp
      have hrec : ∃ record, q.record? 0 = some record := by
        have hpos : 0 < recordSlots := by decide
        simp only [hpos, true_and, Bool.not_eq_false] at hheld
        exact Option.isSome_iff_exists.mp hheld
      have := hq.mem_blocks.mpr hrec
      simp [show q.blocks.toList = [] from hb] at this
    simp [hasRoom, hq.hasRoom_iff.mpr hroom]

theorem create_sound {r : Request} (hr : r.Valid) :
    ∃ p, create r = .ok p ∧ p.Sound ∧ p.key = r.key ∧ p.blocks.toList = [] ∧
      ∀ i, p.record? i = none := by
  obtain ⟨kind, n⟩ := r
  cases kind with
  | uniform =>
    obtain ⟨q, heq, rfl, hq⟩ := UniformPage.create_sound hr.1 hr.2
    refine ⟨uniform q, by simp [create, heq, Except.map], ⟨_, hq⟩, rfl, ?_, fun _ => rfl⟩
    change q.blocks.toList = []
    rw [hq.toList_blocks]
    simp
  | tiled =>
    have hq := TiledPage.create_sound
    have hblocks : TiledPage.create.blocks.toList = [] := by
      rw [hq.toList_blocks]
      simp [TiledPage.dataOf]
    exact ⟨tiled .create, rfl, ⟨⟨_, hq⟩, by simp [hblocks]⟩, rfl, hblocks, fun _ => rfl⟩
  | large =>
    replace hr : largestTiled < n := hr
    refine ⟨large ⟨Array.replicate n .zero, false⟩, ?_, ⟨by simpa using hr, fun _ i hi => ?_⟩, rfl,
      by simp [blocks, LargePage.blocks], fun _ => rfl⟩
    · simp [create, LargePage.create, hr, Except.map]
    · rw [Array.getElem?_replicate, if_pos (by simpa using hi)]
  | records =>
    obtain ⟨hq, hrec⟩ := RecordPage.create_sound
    refine ⟨records .create, rfl, ⟨_, hq⟩, rfl, ?_, hrec⟩
    refine List.eq_nil_iff_forall_not_mem.mpr fun i hi => ?_
    obtain ⟨record, hi⟩ := hq.mem_blocks.mp hi
    simp [hrec] at hi

/-- A new page for a large block gives that block. -/
theorem allocate_large {n : Nat} (hn : largestTiled < n) :
    ∃ p p', create ⟨.large, n⟩ = .ok p ∧ p.allocate n = (.ok (some 0), p') ∧ p.Gives n 0 p' := by
  refine ⟨large ⟨Array.replicate n .zero, false⟩, large ⟨Array.replicate n .zero, true⟩, ?_, rfl,
    ⟨⟨by simpa using hn, by simp⟩, rfl, ?_, ?_, ?_, fun _ _ => rfl⟩, ?_, fun k hk => ?_⟩
  · simp [create, LargePage.create, hn, Except.map]
  · simp [blocks, LargePage.blocks]
  · simp [blocks, LargePage.blocks]
  · simp [blocks, LargePage.blocks]
  · simp [blockCells]
  · simp only [cells, Nat.zero_add]
    rw [Array.getElem?_replicate, if_pos hk]

/-! ### Writes -/

/-- The page has the same blocks, and cell `i` holds `c`. -/
structure Written (p : Page) (i : Nat) (c : Cell) (p' : Page) : Prop where
  sound : p'.Sound
  key_eq : p'.key = p.key
  blocks_eq : p'.blocks.toList = p.blocks.toList
  extent_eq : ∀ j ∈ p.blocks.toList, p'.blockCells j = p.blockCells j
  cells_eq : ∀ j, p'.cells[j]? = if j = i then some c else p.cells[j]?
  record_eq : ∀ j, p'.record? j = p.record? j

/-- A write into a block changes nothing but its cell. -/
theorem Sound.setCell (h : p.Sound) (hk : p.kind ≠ .records) (hi : i ∈ p.blocks.toList)
    (hj : j < p.blockCells i) (c : Cell) :
    p.Written (i + j) c (p.modifyCells fun cells => cells.setIfInBounds (i + j) c) := by
  have hlt : i + j < p.cells.size := by
    have := h.block_le hk hi
    omega
  have hcells (k : Nat) : (p.cells.setIfInBounds (i + j) c)[k]? =
      if k = i + j then some c else p.cells[k]? := by
    rw [Array.getElem?_setIfInBounds]
    by_cases hkij : i + j = k
    · rw [if_pos hkij, if_pos hlt, if_pos hkij.symm]
    · rw [if_neg hkij, if_neg (Ne.symm hkij)]
  cases p with
  | uniform q =>
    obtain ⟨free, hq⟩ := h
    obtain ⟨hplace, hfree⟩ := hq.mem_blocks.mp hi
    have hsound : UniformPage.Sound { q with cells := q.cells.setIfInBounds (i + j) c } free := by
      refine hq.withCells (by simp) fun d hd k hk => (hcells _).trans (if_neg ?_)
      have := hq.apart hplace (hq.places_of_mem hd) (fun he => hfree (he ▸ hd))
      replace hj : j < q.blockSize := hj
      omega
    refine ⟨⟨free, hsound⟩, rfl, ?_, fun _ _ => rfl, hcells, fun _ => rfl⟩
    exact hsound.toList_blocks.trans hq.toList_blocks.symm
  | tiled q =>
    obtain ⟨⟨tiles, hq⟩, hpos⟩ := h
    have hsound := hq.setCell hi hj c
    have hblocks :
        TiledPage.blocks { q with cells := q.cells.setIfInBounds (i + j) c } = q.blocks :=
      Array.toList_inj.mp (hsound.toList_blocks.trans hq.toList_blocks.symm)
    have hextent : ∀ k ∈ q.blocks.toList,
        TiledPage.blockCells { q with cells := q.cells.setIfInBounds (i + j) c } k =
          q.blockCells k := by
      intro k hk
      obtain ⟨front, t, back, rfl, ht, rfl⟩ := hq.mem_blocks.mp hk
      rw [hsound.blockCells_eq, hq.blockCells_eq]
    refine ⟨⟨⟨tiles, hsound⟩, fun k hk => ?_⟩, rfl, congrArg Array.toList hblocks, hextent, hcells,
      fun _ => rfl⟩
    rw [hblocks] at hk
    rw [hextent k hk]
    exact hpos k hk
  | large q =>
    have hall : q.allocated = true := by
      simp only [blocks, LargePage.blocks] at hi
      split_ifs at hi with ha
      · exact ha
      · simp at hi
    exact ⟨⟨by simpa using h.1, by simp [hall]⟩, rfl, rfl,
      fun _ _ => by simp [blockCells, modifyCells],
      hcells, fun _ => rfl⟩
  | records q => exact absurd rfl hk

/-- The page is the same but for what a record says. -/
structure Amended (p : Page) (i : Nat) (f : Record → Record) (p' : Page) : Prop where
  sound : p.Sound → p'.Sound
  whole : p.Whole → p'.Whole
  key_eq : p'.key = p.key
  blocks_eq : p'.blocks.toList = p.blocks.toList
  extent_eq : ∀ j, p'.blockCells j = p.blockCells j
  cells_eq : p'.cells = p.cells
  record_eq : ∀ j, p'.record? j = if j = i then (p.record? j).map f else p.record? j

theorem amended_modifyRecord (p : Page) (i : Nat) (f : Record → Record) :
    p.Amended i f (p.modifyRecord i f) := by
  cases p with
  | records q =>
    have hrec (j : Nat) : (q.modifyRecord i f).record? j =
        if j = i then (q.record? j).map f else q.record? j :=
      RecordPage.recordAt_modify f q.slots i j
    refine ⟨fun ⟨free, hq⟩ => ⟨free, hq.modifyRecord i f⟩,
      fun ⟨free, hq⟩ => ⟨free, hq.modifyRecord i f⟩, rfl, ?_, fun _ => rfl, rfl, hrec⟩
    change (q.modifyRecord i f).blocks.toList = q.blocks.toList
    rw [RecordPage.toList_blocks, RecordPage.toList_blocks]
    refine List.filter_congr fun j _ => ?_
    rw [RecordPage.held, RecordPage.held, ← RecordPage.record?_eq, ← RecordPage.record?_eq, hrec]
    split_ifs <;> simp
  | uniform q =>
    exact ⟨id, id, rfl, rfl, fun _ => rfl, rfl, fun _ => by simp [record?, modifyRecord]⟩
  | tiled q => exact ⟨id, id, rfl, rfl, fun _ => rfl, rfl, fun _ => by simp [record?, modifyRecord]⟩
  | large q => exact ⟨id, id, rfl, rfl, fun _ => rfl, rfl, fun _ => by simp [record?, modifyRecord]⟩

/-! ### Sweeps -/

variable {ε : Type}

/-- What a sweep shows of the blocks, in the order of the page. -/
def sights : Page → List Sight
  | records p => p.blocks.toList.map RecordPage.slotSight
  | p => p.blocks.toList.map (sightAt p.cells)

/-- Whoever answers about the blocks of this page. -/
def asks (ask : Sight → ε → Ruling × ε) (askRecord : Nat → Record → ε → Fate × ε) :
    Page → Sight → ε → Ruling × ε
  | records p => RecordPage.askSlot askRecord p.slots
  | _ => ask

theorem sights_of_block (hk : p.kind ≠ .records) :
    p.sights = p.blocks.toList.map (sightAt p.cells) := by
  cases p with
  | records q => exact absurd rfl hk
  | _ => rfl

/-- The blocks of a page of blocks are asked about as blocks. -/
theorem asks_of_block (hk : p.kind ≠ .records) (ask : Sight → ε → Ruling × ε)
    (askRecord : Nat → Record → ε → Fate × ε) : p.asks ask askRecord = ask := by
  cases p with
  | records q => exact absurd rfl hk
  | _ => rfl

theorem record?_of_block (hk : p.kind ≠ .records) (i : Nat) : p.record? i = none := by
  cases p with
  | records q => exact absurd rfl hk
  | _ => rfl

/-- Nobody clears the mark of a block that has no cell for it. Only tiled pages have such blocks. -/
def Markable (ask : Sight → ε → Ruling × ε) : Page → Prop
  | tiled p => p.Markable ask
  | _ => True

theorem Sound.markable (h : p.Sound) (ask : Sight → ε → Ruling × ε) : p.Markable ask := by
  cases p with
  | tiled q => exact fun i hi hzero => absurd hzero (h.2 i hi).ne'
  | _ => trivial

/-- The page after the hearings. A large page without its block is not fit for use again. -/
structure SweptTo (p : Page) (hearings : List Hearing) (p' : Page) : Prop where
  sound : p.Sound → p.kind ≠ .large ∨ survivors hearings ≠ [] → p'.Sound
  whole : p.kind ≠ .large ∨ survivors hearings ≠ [] → p'.Whole
  key_eq : p'.key = p.key
  blocks_eq : p'.blocks.toList = survivors hearings
  kept : ∀ h ∈ hearings, h.2.spares → p'.blockCells h.1.index = p.blockCells h.1.index ∧
    (∀ k < p.blockCells h.1.index, p'.cells[h.1.index + k]? =
      if k = 0 ∧ h.2.unmark then some .zero else p.cells[h.1.index + k]?) ∧
    p'.record? h.1.index = p.record? h.1.index

theorem map_index_sights (p : Page) : p.sights.map Sight.index = p.blocks.toList := by
  cases p <;> simp [sights, sightAt, RecordPage.slotSight, Function.comp_def, blocks]

theorem sweep_large {q : LargePage} (h : (large q).Sound) (ask : Sight → ε → Ruling × ε) (env : ε) :
    ∃ hearings env' q', hear ask (q.blocks.toList.map (sightAt q.cells)) env = (hearings, env') ∧
      (large q).SweptTo hearings (large q') ∧
      q.sweep ask env = ⟨q', env', countFates hearings, (toFinalize hearings).toArray,
        (survivors hearings).isEmpty, none⟩ := by
  obtain ⟨cells, allocated⟩ := q
  cases allocated with
  | false =>
    exact ⟨[], env, ⟨cells, false⟩, rfl, ⟨fun _ _ => h, fun _ => h, rfl, rfl, by simp⟩, rfl⟩
  | true =>
    have hsize : 0 < cells.size := Nat.zero_lt_of_lt h.1
    obtain ⟨r, env', hask⟩ : ∃ r env', ask (sightAt cells 0) env = (r, env') := ⟨_, _, rfl⟩
    have hcells (k : Nat) : (if r.unmark then cells.setIfInBounds 0 .zero else cells)[k]? =
        if k = 0 ∧ r.unmark then some .zero else cells[k]? := by
      cases r.unmark with
      | false => simp
      | true =>
        simp only [if_true, Array.getElem?_setIfInBounds]
        by_cases hk : k = 0
        · simp [hk, hsize]
        · simp [hk, Ne.symm hk]
    have hlen : (if r.unmark then cells.setIfInBounds 0 .zero else cells).size = cells.size := by
      split_ifs <;> simp
    have hhear : hear ask [sightAt cells 0] env = ([(sightAt cells 0, r)], env') := by
      simp [hear, hask]
    simp only [sightAt] at hask
    refine ⟨[(sightAt cells 0, r)], env',
      ⟨if r.unmark then cells.setIfInBounds 0 .zero else cells, r.spares⟩, hhear, ?_, ?_⟩
    · have hfit (hs : (large ⟨cells, true⟩).kind ≠ .large ∨ survivors [(sightAt cells 0, r)] ≠ []) :
          (large ⟨if r.unmark then cells.setIfInBounds 0 .zero else cells, r.spares⟩).Sound := by
        refine ⟨by rw [hlen]; exact h.1, fun hdead => ?_⟩
        replace hdead : r.spares = false := hdead
        rcases hs with hs | hs
        · exact absurd rfl hs
        · simp [survivors, hdead] at hs
      refine ⟨fun _ => hfit, hfit, rfl, ?_, fun x hx hs => ?_⟩
      · cases hs : r.spares <;> simp [blocks, LargePage.blocks, survivors, hs, sightAt]
      · obtain rfl := List.mem_singleton.mp hx
        refine ⟨hlen, fun k _ => ?_, rfl⟩
        have hindex : (sightAt cells 0).index + k = k := Nat.zero_add k
        rw [hindex]
        exact hcells k
    · simp only [LargePage.sweep, hask]
      cases hf : r.fate <;>
        simp [Ruling.spares, hf, countFates, toFinalize, survivors, sightAt]

theorem Whole.sweep (h : p.Whole) (ask : Sight → ε → Ruling × ε) (hmark : p.Markable ask)
    (askRecord : Nat → Record → ε → Fate × ε) (env : ε) :
    ∃ hearings env' p', hear (p.asks ask askRecord) p.sights env = (hearings, env') ∧
      p.SweptTo hearings p' ∧
      p.sweep ask askRecord env = ⟨p', env', countFates hearings, (toFinalize hearings).toArray,
        (survivors hearings).isEmpty, none⟩ := by
  cases p with
  | uniform q =>
    obtain ⟨free, hq⟩ := h
    obtain ⟨hearings, env', q', hhear, hq', heq⟩ := hq.sweep ask env
    refine ⟨hearings, env', uniform q', hhear,
      ⟨fun _ _ => ⟨_, hq'.sound⟩, fun _ => ⟨_, hq'.sound⟩, ?_, hq'.blocks_eq,
        fun x hx hs => ⟨hq'.size_eq, hq'.kept x hx hs, rfl⟩⟩, by simp [Page.sweep, heq]⟩
    simp [key, hq'.size_eq]
  | tiled q =>
    obtain ⟨tiles, hq⟩ := h
    obtain ⟨hearings, env', q', hhear, hq', heq⟩ := hq.sweep ask hmark env
    refine ⟨hearings, env', tiled q', hhear, ⟨fun hsound _ => ⟨⟨_, hq'.sound⟩, fun i hi => ?_⟩,
      fun _ => ⟨_, hq'.sound⟩, rfl, hq'.blocks_eq,
      fun x hx hs => ⟨(hq'.kept x hx hs).1, (hq'.kept x hx hs).2, rfl⟩⟩, by simp [Page.sweep, heq]⟩
    rw [hq'.blocks_eq] at hi
    obtain ⟨x, hx, hs, rfl⟩ := mem_survivors.mp hi
    rw [(hq'.kept x hx hs).1]
    refine hsound.2 _ ?_
    have hmem := List.mem_map_of_mem (f := fun h : Hearing => h.1) hx
    rw [map_fst_of_hear hhear] at hmem
    obtain ⟨j, hj, he⟩ := List.mem_map.mp hmem
    rw [← he]
    exact hj
  | large q =>
    obtain ⟨hearings, env', q', hhear, hq', heq⟩ := sweep_large h ask env
    exact ⟨hearings, env', large q', hhear, hq', by simp [Page.sweep, heq]⟩
  | records q =>
    obtain ⟨free, hq⟩ := h
    obtain ⟨hearings, env', q', hhear, hq', heq⟩ := hq.sweep askRecord env
    exact ⟨hearings, env', records q', hhear,
      ⟨fun _ _ => ⟨_, hq'.sound⟩, fun _ => ⟨_, hq'.sound⟩, rfl, hq'.blocks_eq,
        fun x hx hs => ⟨rfl, fun k hk => absurd hk (Nat.not_lt_zero k), hq'.kept x hx hs⟩⟩,
      by simp [Page.sweep, heq]⟩

theorem Sound.sweep (h : p.Sound) (ask : Sight → ε → Ruling × ε)
    (askRecord : Nat → Record → ε → Fate × ε) (env : ε) :
    ∃ hearings env' p', hear (p.asks ask askRecord) p.sights env = (hearings, env') ∧
      p.SweptTo hearings p' ∧
      p.sweep ask askRecord env = ⟨p', env', countFates hearings, (toFinalize hearings).toArray,
        (survivors hearings).isEmpty, none⟩ :=
  h.whole.sweep ask (h.markable ask) askRecord env

end Page

end SweptHeap
