import Mathlib
import SweptHeap.Proofs.Page.UniformChain

/-!
# Blocks of a uniform page

A uniform page is `Sound` for a list of free blocks when its chain stands for that list and a free
block holds nothing but links. Then the list is all there is to know about the page: allocation
takes its head, the allocated blocks are the others, and the page has room exactly if the list is
not empty.
-/

namespace SweptHeap.UniformPage

structure Sound (p : UniformPage) (free : List Nat) : Prop where
  size_pos : 0 < p.blockSize
  size_le : p.blockSize ≤ largestUniform
  limit_eq : p.limit = uniformCells / p.blockSize * p.blockSize
  length_eq : p.cells.size = uniformCells
  chain : Chain p.cells p.blockSize p.limit p.free.first p.free.last free
  /-- Behind its first cell, which a link may take, a free block is zero. -/
  clean : ∀ c ∈ free, ∀ i, 0 < i → i < p.blockSize → p.cells[c + i]? = some .zero
  bytes_eq : p.allocatedBytes = (p.capacity - free.length) * p.blockBytes

variable {p : UniformPage} {free : List Nat} {c : Nat}

/-- The first cells of all blocks, allocated or not. -/
def places (p : UniformPage) : List Nat := List.range' 0 p.capacity p.blockSize

/-- Blocks that do not begin together have no cell in common. -/
theorem apart_of_dvd {size a b i : Nat} (ha : size ∣ a) (hb : size ∣ b) (hne : a ≠ b)
    (hi : i < size) : a ≠ b + i := by
  rintro rfl
  have hdvd : size ∣ i := (Nat.dvd_add_right hb).mp ha
  have hzero : i = 0 := Nat.eq_zero_of_dvd_of_lt hdvd hi
  exact hne (by omega)

theorem add_le_of_dvd {size a b : Nat} (ha : size ∣ a) (hb : size ∣ b) (hlt : a < b) :
    a + size ≤ b := by
  have hdvd : size ∣ b - a := Nat.dvd_sub hb ha
  have := Nat.le_of_dvd (by omega) hdvd
  omega

namespace Sound

theorem dvd_limit (h : p.Sound free) : p.blockSize ∣ p.limit := h.limit_eq ▸ Nat.dvd_mul_left _ _

theorem capacity_mul (h : p.Sound free) : p.blockSize * p.capacity = p.limit :=
  Nat.mul_div_cancel' h.dvd_limit

theorem limit_le (h : p.Sound free) : p.limit ≤ uniformCells := by
  rw [h.limit_eq]
  exact Nat.div_mul_le_self _ _

theorem mem_places (h : p.Sound free) : c ∈ p.places ↔ p.blockSize ∣ c ∧ c < p.limit := by
  rw [places, List.mem_range']
  constructor
  · rintro ⟨i, hi, rfl⟩
    rw [Nat.zero_add, ← h.capacity_mul]
    exact ⟨Nat.dvd_mul_right _ _, Nat.mul_lt_mul_of_pos_left hi h.size_pos⟩
  · rintro ⟨⟨i, rfl⟩, hlt⟩
    rw [← h.capacity_mul] at hlt
    exact ⟨i, Nat.lt_of_mul_lt_mul_left hlt, by omega⟩

theorem places_of_mem (h : p.Sound free) (hc : c ∈ free) : c ∈ p.places :=
  h.mem_places.mpr ⟨h.chain.dvd_of_mem h.dvd_limit c hc, h.chain.lt_limit h.size_pos c hc⟩

theorem add_size_le (h : p.Sound free) (hc : c ∈ p.places) : c + p.blockSize ≤ p.limit :=
  add_le_of_dvd (h.mem_places.mp hc).1 h.dvd_limit (h.mem_places.mp hc).2

theorem places_nodup (h : p.Sound free) : p.places.Nodup :=
  List.nodup_range' p.blockSize h.size_pos

theorem free_nodup (h : p.Sound free) : free.Nodup :=
  (h.chain.pairwise_lt h.size_pos).imp fun hlt => Nat.ne_of_lt hlt

theorem free_subperm (h : p.Sound free) : free.Subperm p.places :=
  List.subperm_of_subset h.free_nodup fun _ hc => h.places_of_mem hc

theorem length_free_le (h : p.Sound free) : free.length ≤ p.capacity := by
  have := h.free_subperm.length_le
  rwa [places, List.length_range'] at this

theorem hasRoom_iff (h : p.Sound free) : p.hasRoom = true ↔ free ≠ [] := by
  rw [hasRoom, decide_eq_true_iff]
  exact h.chain.first_lt_limit_iff

theorem allocate_nil (h : p.Sound []) : p.allocate = (.ok none, p) := by
  have hge : p.limit ≤ p.free.first := by
    have := h.chain.first_lt_limit_iff
    simp only [ne_eq, not_true_eq_false, iff_false, Nat.not_lt] at this
    exact this
  have hle := h.chain.last_le_limit
  have hb : decide (p.free.first < p.free.last) = false := by simp; omega
  simp [allocate, hb, hge]

end Sound

theorem Chain.pop {cells : Array Cell} {size limit first last : Nat} {rest : List Nat}
    (h : Chain cells size limit first last (c :: rest)) :
    c = first ∧ ((first < last ∧ Chain cells size limit (first + size) last rest) ∨
      (first = last ∧ last < limit ∧ ∃ next, cells[last]? = some (.range next) ∧
        last < next.first ∧ Chain cells size limit next.first next.last rest)) := by
  cases h with
  | bump hlt hc => exact ⟨rfl, .inl ⟨hlt, hc⟩⟩
  | jump hlt _ hr hn hc => exact ⟨rfl, .inr ⟨rfl, hlt, _, hr, hn, hc⟩⟩

theorem rangeAt_of_getElem? {next : FreeRange} (h : p.cells[c]? = some (.range next)) :
    p.rangeAt c = next := by
  simp [rangeAt, Array.getD_eq_getD_getElem?, h]

/-- Taking the head of the free list keeps a page sound for the rest. -/
theorem Sound.claim {rest : List Nat} {r : FreeRange} (h : p.Sound (c :: rest))
    (hc : Chain p.cells p.blockSize p.limit r.first r.last rest) : (p.claim c r).Sound rest := by
  have hnd := List.nodup_cons.mp h.free_nodup
  have hdvd := h.chain.dvd_of_mem h.dvd_limit
  have hlen := h.length_free_le
  refine ⟨h.size_pos, h.size_le, h.limit_eq, ?_, ?_, ?_, ?_⟩
  · simpa [UniformPage.claim] using h.length_eq
  · refine hc.congr fun d hd => ?_
    have hne : c ≠ d := fun he => hnd.1 (he ▸ hd)
    simp [UniformPage.claim, hne]
  · intro d hd i hi hlt
    have hne : c ≠ d + i := apart_of_dvd (hdvd c List.mem_cons_self)
      (hdvd d (List.mem_cons_of_mem _ hd)) (fun he => hnd.1 (he ▸ hd)) hlt
    simpa [UniformPage.claim, Array.getElem?_setIfInBounds, hne] using
      h.clean d (List.mem_cons_of_mem _ hd) i hi hlt
  · have hcap : (p.claim c r).capacity = p.capacity := rfl
    have hbytes : (p.claim c r).blockBytes = p.blockBytes := rfl
    simp only [List.length_cons] at hlen
    rw [hcap, hbytes]
    simp only [UniformPage.claim, h.bytes_eq, List.length_cons]
    rw [show p.capacity - rest.length = p.capacity - (rest.length + 1) + 1 by omega, Nat.succ_mul]
    rfl

theorem Sound.allocate_cons {rest : List Nat} (h : p.Sound (c :: rest)) :
    ∃ r, p.allocate = (.ok (some c), p.claim c r) ∧ (p.claim c r).Sound rest := by
  obtain ⟨rfl, ⟨hlt, hc⟩ | ⟨heq, hlt, next, hr, -, hc⟩⟩ := h.chain.pop
  · refine ⟨⟨p.free.first + p.blockSize, p.free.last⟩, ?_, h.claim hc⟩
    have hle := h.chain.first_le_limit
    simp [allocate, hlt, Nat.not_lt.mpr hle]
  · refine ⟨next, ?_, h.claim hc⟩
    rw [← heq] at hlt hr
    simp [allocate, ← heq, Nat.not_le.mpr hlt, Nat.not_lt.mpr (Nat.le_of_lt hlt),
      rangeAt_of_getElem? hr]

/-- A free run at the front of a stretch of blocks hides nothing behind it. -/
theorem filter_behind_run {size : Nat} (hs : 0 < size) (first k j : Nat) (rest : List Nat) :
    (List.range' first (k + j) size).filter (· ∉ List.range' first k size ++ rest) =
      (List.range' (first + size * k) j size).filter (· ∉ rest) := by
  have hparts : List.range' first (k + j) size =
      List.range' first k size ++ List.range' (first + size * k) j size := List.range'_append.symm
  have hfront : (List.range' first k size).filter (· ∉ List.range' first k size ++ rest) = [] :=
    List.filter_eq_nil_iff.mpr fun x hx => by simp [hx]
  rw [hparts, List.filter_append, hfront, List.nil_append]
  apply List.filter_congr
  intro x hx
  have hnot : x ∉ List.range' first k size := by
    intro hmem
    obtain ⟨i, _, rfl⟩ := List.mem_range'.mp hx
    obtain ⟨i', hi', he⟩ := List.mem_range'.mp hmem
    have := Nat.mul_lt_mul_of_pos_left hi' hs
    omega
  simp [hnot]

/-- Blocks that are counted from `cell` on, if `free` lists the free ones among them. -/
theorem toList_blocksFrom (hs : 0 < p.blockSize) (hl : p.blockSize ∣ p.limit) {left cell n : Nat}
    {r : FreeRange} (found : Array Nat)
    (hc : Chain p.cells p.blockSize p.limit r.first r.last free)
    (hd : p.blockSize ∣ cell) (hle : cell ≤ r.first) (hn : p.limit = cell + p.blockSize * n)
    (hleft : n < left) :
    (p.blocksFrom left cell r found).toList =
      found.toList ++ (List.range' cell n p.blockSize).filter (· ∉ free) := by
  induction left generalizing cell n r free found with
  | zero => omega
  | succ left ih =>
    unfold blocksFrom
    rcases Nat.eq_zero_or_pos n with rfl | hpos
    · simp [hn]
    obtain ⟨m, rfl⟩ : ∃ m, n = m + 1 := ⟨n - 1, by omega⟩
    have hlim : ¬ p.limit ≤ cell := by
      rw [hn, Nat.mul_succ]; omega
    rw [if_neg hlim]
    split
    · rename_i hlt
      have hnot : cell ∉ free := fun hmem => by
        have := hc.first_le_of_mem cell hmem
        omega
      have hstep := add_le_of_dvd hd (hc.dvd_first hl) hlt
      rw [ih (n := m) (found.push cell) hc (Nat.dvd_add hd (Nat.dvd_refl _)) hstep
        (by rw [hn, Nat.mul_succ]; omega) (by omega), List.range'_succ]
      simp [hnot]
    · rename_i hge
      obtain rfl : cell = r.first := by omega
      split
      · rename_i hend
        -- the range reaches the limit, so everything from here on is free
        obtain ⟨k, hk, rfl⟩ := hc.split_last hend
        obtain rfl : k = m + 1 := Nat.eq_of_mul_eq_mul_left hs (by omega)
        simp
      · rename_i hend
        obtain ⟨k, next, rest, hlast, rfl, hr, hlt, hc'⟩ := hc.split (by omega)
        have hd' : p.blockSize ∣ r.last := by
          rw [hlast]
          exact Nat.dvd_add hd (Nat.dvd_mul_right _ _)
        have hstep := add_le_of_dvd hd' (hc'.dvd_first hl) hlt
        have hfit : k + 1 ≤ m + 1 := by
          have h1 := add_le_of_dvd hd' hl (by omega)
          rw [hn, hlast] at h1
          have h2 : p.blockSize * (k + 1) ≤ p.blockSize * (m + 1) := by
            rw [Nat.mul_succ]; omega
          exact Nat.le_of_mul_le_mul_left h2 hs
        obtain ⟨j, hj⟩ : ∃ j, m + 1 = k + 1 + j := ⟨m - k, by omega⟩
        have hcell : r.last + p.blockSize = r.first + p.blockSize * (k + 1) := by
          rw [Nat.mul_succ]; omega
        rw [rangeAt_of_getElem? hr, hj, filter_behind_run hs, hcell]
        refine ih (n := j) found hc' ?_ ?_ ?_ (by omega)
        · exact Nat.dvd_add hd (Nat.dvd_mul_right _ _)
        · rw [← hcell]
          exact hstep
        · rw [hn, hj, Nat.mul_add]
          omega

theorem Sound.toList_blocks (h : p.Sound free) :
    p.blocks.toList = p.places.filter (· ∉ free) := by
  rw [blocks, toList_blocksFrom h.size_pos h.dvd_limit #[] h.chain (Nat.dvd_zero _) (Nat.zero_le _)
    (by rw [Nat.zero_add, h.capacity_mul]) (Nat.lt_succ_self _)]
  simp [places]

theorem Sound.mem_blocks (h : p.Sound free) : c ∈ p.blocks.toList ↔ c ∈ p.places ∧ c ∉ free := by
  simp [h.toList_blocks]

/-- Cells outside the free blocks may change in any way. -/
theorem Sound.withCells {cells : Array Cell} (h : p.Sound free) (hsize : cells.size = p.cells.size)
    (he : ∀ c ∈ free, ∀ i < p.blockSize, cells[c + i]? = p.cells[c + i]?) :
    Sound { p with cells := cells } free := by
  refine ⟨h.size_pos, h.size_le, h.limit_eq, hsize.trans h.length_eq, ?_, ?_, h.bytes_eq⟩
  · exact h.chain.congr fun c hc => he c hc 0 h.size_pos
  · intro c hc i hi hlt
    exact (he c hc i hlt).trans (h.clean c hc i hi hlt)

theorem create_sound {size : Nat} (hs : 0 < size) (hle : size ≤ largestUniform) :
    ∃ p, create size = .ok p ∧ p.blockSize = size ∧ p.Sound p.places := by
  have hcap : uniformCells / size * size / size = uniformCells / size := Nat.mul_div_cancel _ hs
  refine ⟨_, by rw [create, if_pos ⟨hs, hle⟩], rfl, hs, hle, rfl, by simp, ?_, ?_, ?_⟩
  · have : Chain (Array.replicate uniformCells .zero) size _ _ _ _ :=
      Chain.tail hs (uniformCells / size) 0
    simpa only [places, capacity, hcap, Nat.zero_add, Nat.mul_comm size] using this
  · intro c hc i _ hlt
    replace hlt : i < size := hlt
    obtain ⟨k, hk, rfl⟩ := List.mem_range'.mp hc
    simp only [capacity, hcap] at hk
    have hfit : size * (k + 1) ≤ uniformCells / size * size := by
      rw [Nat.mul_comm]
      exact Nat.mul_le_mul_right _ hk
    have hroom := Nat.div_mul_le_self uniformCells size
    rw [Nat.mul_succ] at hfit
    simp only [Nat.zero_add]
    rw [Array.getElem?_replicate, if_pos (by omega)]
  · simp [places, capacity, hcap]

/-- Blocks are apart: each lies in front of the page's limit and shares no cell with another. -/
theorem Sound.block_le (h : p.Sound free) (hc : c ∈ p.blocks.toList) :
    c + p.blockSize ≤ p.cells.size := by
  have := h.add_size_le (h.mem_blocks.mp hc).1
  have := h.limit_le
  rw [h.length_eq]
  omega

theorem Sound.apart {d : Nat} (h : p.Sound free) (hc : c ∈ p.places) (hd : d ∈ p.places)
    (hne : c ≠ d) : c + p.blockSize ≤ d ∨ d + p.blockSize ≤ c := by
  have hdc := (h.mem_places.mp hc).1
  have hdd := (h.mem_places.mp hd).1
  rcases Nat.lt_or_gt_of_ne hne with hlt | hlt
  · exact .inl (add_le_of_dvd hdc hdd hlt)
  · exact .inr (add_le_of_dvd hdd hdc hlt)

/-- The free blocks that hold a range, from the range `r` on. -/
def linksFrom (p : UniformPage) : (left : Nat) → FreeRange → List Nat
  | 0, _ => []
  | left + 1, r =>
    if r.last < p.limit then r.last :: p.linksFrom left (p.rangeAt r.last) else []

/-- The cells of the page that hold a range of free blocks. -/
def links (p : UniformPage) : List Nat := p.linksFrom p.capacity p.free

theorem mem_free_of_mem_linksFrom {left : Nat} {r : FreeRange}
    (hc : Chain p.cells p.blockSize p.limit r.first r.last free) (hmem : c ∈ p.linksFrom left r) :
    c ∈ free := by
  induction left generalizing r free with
  | zero => simp [linksFrom] at hmem
  | succ left ih =>
    unfold linksFrom at hmem
    split at hmem
    · rename_i hlt
      obtain ⟨n, next, rest, hlast, rfl, hr, -, hc'⟩ := hc.split hlt
      rw [rangeAt_of_getElem? hr] at hmem
      rcases List.mem_cons.mp hmem with rfl | hmem
      · refine List.mem_append_left _ (List.mem_range'.mpr ⟨n, by omega, hlast⟩)
      · exact List.mem_append_right _ (ih hc' hmem)
    · simp at hmem

theorem Sound.mem_free_of_mem_links (h : p.Sound free) (hmem : c ∈ p.links) : c ∈ free :=
  mem_free_of_mem_linksFrom h.chain hmem

end SweptHeap.UniformPage
