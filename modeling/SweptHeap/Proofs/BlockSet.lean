import Mathlib
import SweptHeap.Proofs.Page.Kinds

/-!
# A uniform page as a set of blocks

All there is to know about a uniform page is which of its blocks are handed out, whatever chain of
ranges holds the others. `Reached` keeps that set of indices beside the page from call to call: an
allocation adds the block that it gives, a sweep takes away the blocks that it hears are dead, and
what is written into blocks that are handed out changes nothing. `Bears` is the invariant that ties
the page to the set.
-/

namespace SweptHeap.UniformPage

variable {ε : Type} {size : Nat} {p : UniformPage} {A B : Finset Nat}

/-- First cells of the blocks of a set, in the order of the page. -/
def firstCells (size : Nat) (A : Finset Nat) : List Nat := A.sort.map (size * ·)

theorem mem_firstCells {c : Nat} : c ∈ firstCells size A ↔ ∃ k ∈ A, size * k = c := by
  simp [firstCells]

theorem mul_mem_firstCells (hs : 0 < size) {k : Nat} : size * k ∈ firstCells size A ↔ k ∈ A := by
  rw [mem_firstCells]
  constructor
  · rintro ⟨j, hj, he⟩
    exact Nat.eq_of_mul_eq_mul_left hs he ▸ hj
  · exact fun hk => ⟨k, hk, rfl⟩

theorem pairwise_firstCells (hs : 0 < size) (A : Finset Nat) :
    (firstCells size A).Pairwise (· < ·) :=
  A.sortedLT_sort.pairwise.map _ fun _ _ hlt => Nat.mul_lt_mul_of_pos_left hlt hs

@[simp] theorem length_firstCells (size : Nat) (A : Finset Nat) :
    (firstCells size A).length = A.card := by
  simp [firstCells]

/-- An ascending list with the right members is the list of the first cells. -/
theorem eq_firstCells (hs : 0 < size) {cells : List Nat} (hsorted : cells.Pairwise (· < ·))
    (hmem : ∀ c, c ∈ cells ↔ ∃ k ∈ A, size * k = c) : cells = firstCells size A :=
  hsorted.eq_of_mem_iff (pairwise_firstCells hs A) fun c => (hmem c).trans mem_firstCells.symm

theorem places_eq (hs : 0 < p.blockSize) :
    p.places = firstCells p.blockSize (Finset.range p.capacity) := by
  refine eq_firstCells hs (List.pairwise_lt_range' _ hs) fun c => ?_
  simp [places, List.mem_range', eq_comm]

theorem filter_firstCells (hs : 0 < size) (A : Finset Nat) (q : Nat → Bool) :
    (firstCells size A).filter q = firstCells size (A.filter fun k => q (size * k)) := by
  refine eq_firstCells hs ((pairwise_firstCells hs A).filter _) fun c => ?_
  rw [List.mem_filter, mem_firstCells]
  constructor
  · rintro ⟨⟨k, hk, rfl⟩, hq⟩
    exact ⟨k, Finset.mem_filter.mpr ⟨hk, hq⟩, rfl⟩
  · rintro ⟨k, hk, rfl⟩
    obtain ⟨hk, hq⟩ := Finset.mem_filter.mp hk
    exact ⟨⟨k, hk, rfl⟩, hq⟩

/-- Of the blocks that are heard, those that are not reclaimed survive. -/
theorem survivors_eq (hs : 0 < size) {cells : Array Cell} {ask : Sight → ε → Ruling × ε}
    {env env' : ε} {hearings : List Hearing}
    (hheard : hear ask ((firstCells size A).map (sightAt cells)) env = (hearings, env')) :
    survivors hearings = firstCells size (A.filter fun k => size * k ∉ condemned hearings) := by
  have hindices : hearings.map (·.1.index) = firstCells size A := by
    have := congrArg (List.map Sight.index) (map_fst_of_hear hheard)
    simpa [sightAt, Function.comp_def] using this
  have hnodup : (hearings.map (·.1.index)).Nodup :=
    hindices ▸ (pairwise_firstCells hs A).imp fun hlt => Nat.ne_of_lt hlt
  rw [← filter_not_condemned hnodup, hindices, filter_firstCells hs]
  simp

/-- The block that an allocation hands out, if any. -/
def granted (size : Nat) : Except Fault (Option Nat) → Finset Nat
  | .ok (some c) => {c / size}
  | _ => ∅

/-- A page of blocks of `size` cells after some calls, and the blocks that are handed out. -/
inductive Reached (size : Nat) : UniformPage → Finset Nat → Prop
  | create {p : UniformPage} (h : UniformPage.create size = .ok p) : Reached size p ∅
  | allocate {p : UniformPage} {A : Finset Nat} (h : Reached size p A) :
      Reached size p.allocate.2 (A ∪ granted size p.allocate.1)
  | sweep {ε : Type} (ask : Sight → ε → Ruling × ε) (env : ε) {p : UniformPage} {A : Finset Nat}
      (h : Reached size p A) : Reached size (p.sweep ask env).page (A.filter fun k =>
        size * k ∉ condemned (hear ask ((firstCells size A).map (sightAt p.cells)) env).1)
  | write (c : Cell) {p : UniformPage} {A : Finset Nat} {k i : Nat}
      (h : Reached size p A) (hk : k ∈ A) (hi : i < size) :
      Reached size { p with cells := p.cells.setIfInBounds (size * k + i) c } A

/-- The page with the blocks of `A` handed out and all others free. -/
structure Bears (p : UniformPage) (size : Nat) (A : Finset Nat) : Prop where
  size_eq : p.blockSize = size
  lt_capacity : ∀ k ∈ A, k < p.capacity
  sound : p.Sound (firstCells size (Finset.range p.capacity \ A))

namespace Bears

theorem size_pos (h : p.Bears size A) : 0 < size := h.size_eq ▸ h.sound.size_pos

theorem capacity_eq (h : p.Bears size A) : p.capacity = uniformCells / size := by
  rw [capacity, h.sound.limit_eq, h.size_eq, Nat.mul_div_cancel _ h.size_pos]

/-- A free list with the right members is the list of the blocks that are not handed out. -/
theorem of_sound {free : List Nat} (hsound : p.Sound free) (hlt : ∀ k ∈ A, k < p.capacity)
    (hmem : ∀ k < p.capacity, p.blockSize * k ∈ free ↔ k ∉ A) : p.Bears p.blockSize A := by
  have hs := hsound.size_pos
  have hfree : free = firstCells p.blockSize (Finset.range p.capacity \ A) := by
    refine eq_firstCells hs (hsound.chain.pairwise_lt hs) fun c => ⟨fun hc => ?_, ?_⟩
    · obtain ⟨k, hk, rfl⟩ := mem_firstCells.mp (places_eq hs ▸ hsound.places_of_mem hc)
      have hlt := Finset.mem_range.mp hk
      exact ⟨k, Finset.mem_sdiff.mpr ⟨hk, (hmem k hlt).mp hc⟩, rfl⟩
    · rintro ⟨k, hk, rfl⟩
      obtain ⟨hlt, hnot⟩ := Finset.mem_sdiff.mp hk
      exact (hmem k (Finset.mem_range.mp hlt)).mpr hnot
  exact ⟨rfl, hlt, hfree ▸ hsound⟩

theorem toList_blocks (h : p.Bears size A) : p.blocks.toList = firstCells size A := by
  obtain ⟨rfl, hlt, hsound⟩ := h
  have hs := hsound.size_pos
  rw [hsound.toList_blocks, places_eq hs]
  refine eq_firstCells hs ((pairwise_firstCells hs _).filter _) fun c => ?_
  rw [List.mem_filter, mem_firstCells]
  constructor
  · rintro ⟨⟨k, hk, rfl⟩, hnot⟩
    rw [decide_eq_true_iff, mul_mem_firstCells hs, Finset.mem_sdiff, not_and, not_not] at hnot
    exact ⟨k, hnot hk, rfl⟩
  · rintro ⟨k, hk, rfl⟩
    refine ⟨⟨k, Finset.mem_range.mpr (hlt k hk), rfl⟩, decide_eq_true fun hmem => ?_⟩
    exact (Finset.mem_sdiff.mp ((mul_mem_firstCells hs).mp hmem)).2 hk

theorem allocatedBytes_eq (h : p.Bears size A) : p.allocatedBytes = A.card * p.blockBytes := by
  have hsub : A ⊆ Finset.range p.capacity := fun k hk => Finset.mem_range.mpr (h.lt_capacity k hk)
  have hcard := Finset.card_le_card hsub
  rw [Finset.card_range] at hcard
  rw [h.sound.bytes_eq, length_firstCells, Finset.card_sdiff_of_subset hsub, Finset.card_range,
    Nat.sub_sub_self hcard]

/-- The free list is empty exactly if all blocks are handed out. -/
theorem free_eq_nil (h : p.Bears size A) :
    firstCells size (Finset.range p.capacity \ A) = [] ↔ A = Finset.range p.capacity := by
  rw [← List.length_eq_zero_iff, length_firstCells, Finset.card_eq_zero,
    Finset.sdiff_eq_empty_iff_subset]
  have hsub : A ⊆ Finset.range p.capacity := fun k hk => Finset.mem_range.mpr (h.lt_capacity k hk)
  exact ⟨fun hle => Finset.Subset.antisymm hsub hle, fun he => he ▸ Finset.Subset.refl _⟩

theorem hasRoom_iff (h : p.Bears size A) : p.hasRoom = true ↔ A ≠ Finset.range p.capacity :=
  h.sound.hasRoom_iff.trans (not_congr h.free_eq_nil)

theorem allocate_full (h : p.Bears size A) (hfull : A = Finset.range p.capacity) :
    p.allocate = (.ok none, p) := by
  have hsound := h.sound
  rw [h.free_eq_nil.mpr hfull] at hsound
  exact hsound.allocate_nil

/-- The lowest block that is not handed out is the next one. -/
theorem allocate_room (h : p.Bears size A) (hroom : A ≠ Finset.range p.capacity) :
    ∃ k p', k < p.capacity ∧ IsLeast {j | j ∉ A} k ∧ p.allocate = (.ok (some (size * k)), p') ∧
      p'.Bears size (insert k A) ∧ (Page.uniform p).Gives size (size * k) (Page.uniform p') := by
  obtain ⟨rfl, hlt, hsound⟩ := h
  have hs := hsound.size_pos
  obtain ⟨c, rest, hfree⟩ :=
    List.exists_cons_of_ne_nil (mt (free_eq_nil ⟨rfl, hlt, hsound⟩).mp hroom)
  obtain ⟨k, hk, rfl⟩ := mem_firstCells.mp (hfree ▸ List.mem_cons_self)
  obtain ⟨hk, hnot⟩ := Finset.mem_sdiff.mp hk
  have hin (j : Nat) : p.blockSize * j ∈ p.blockSize * k :: rest ↔ j < p.capacity ∧ j ∉ A := by
    rw [← hfree, mul_mem_firstCells hs, Finset.mem_sdiff, Finset.mem_range]
  rw [hfree] at hsound
  obtain ⟨r, halloc, hsound'⟩ := hsound.allocate_cons
  obtain ⟨hfirst, -⟩ := List.pairwise_cons.mp (hsound.chain.pairwise_lt hs)
  refine ⟨k, p.claim (p.blockSize * k) r, Finset.mem_range.mp hk,
    ⟨hnot, fun j hj => ?_⟩, halloc, ?_, Page.gives_uniform hsound hsound' ⟨r, rfl⟩⟩
  · -- A block that is not handed out is in the free list, at its head or behind it.
    by_contra hlow
    have hlow : j < k := Nat.lt_of_not_le hlow
    have hmem := (hin j).mpr ⟨hlow.trans (Finset.mem_range.mp hk), hj⟩
    have hmul := Nat.mul_lt_mul_of_pos_left hlow hs
    rcases List.mem_cons.mp hmem with he | hmem
    · omega
    · have := hfirst _ hmem
      omega
  · have hhead := (List.nodup_cons.mp hsound.free_nodup).1
    refine of_sound hsound' (fun j hj => ?_) fun j hj => ?_
    · rcases Finset.mem_insert.mp hj with rfl | hj
      · exact Finset.mem_range.mp hk
      · exact hlt j hj
    · have hj := hin j
      change p.blockSize * j ∈ rest ↔ _
      by_cases he : j = k
      · subst he
        simpa using hhead
      · have hne : p.blockSize * j ≠ p.blockSize * k :=
          fun heq => he (Nat.eq_of_mul_eq_mul_left hs heq)
        rw [Finset.mem_insert, not_or, and_iff_right he]
        rw [List.mem_cons, or_iff_right hne] at hj
        exact hj.trans (and_iff_right ‹_›)

theorem sweep (h : p.Bears size A) (ask : Sight → ε → Ruling × ε) (env : ε) :
    ∃ hearings env' p', hear ask ((firstCells size A).map (sightAt p.cells)) env =
      (hearings, env') ∧
      p.sweep ask env = ⟨p', env', countFates hearings, (toFinalize hearings).toArray,
        (survivors hearings).isEmpty, none⟩ ∧
      p.SweptTo hearings p' ∧ p'.Bears size (A.filter fun k => size * k ∉ condemned hearings) := by
  obtain ⟨hearings, env', p', hheard, hswept, heq⟩ := h.sound.sweep ask env
  rw [h.toList_blocks] at hheard
  have hs := h.size_pos
  have hsize : p'.blockSize = size := hswept.size_eq.trans h.size_eq
  have hcap : p'.capacity = p.capacity := by
    rw [capacity, capacity, hswept.sound.limit_eq, h.sound.limit_eq, hswept.size_eq]
  refine ⟨hearings, env', p', hheard, heq, hswept,
    hsize ▸ of_sound hswept.sound (fun k hk => ?_) fun k hk => ?_⟩
  · rw [hcap]
    exact h.lt_capacity k (Finset.mem_filter.mp hk).1
  · rw [survivors_eq hs hheard, places_eq h.sound.size_pos, hsize, h.size_eq]
    simp [mul_mem_firstCells hs, hcap ▸ hk, imp_iff_not_or]

theorem write (h : p.Bears size A) {k i : Nat} (hk : k ∈ A) (hi : i < size) (c : Cell) :
    Bears { p with cells := p.cells.setIfInBounds (size * k + i) c } size A := by
  refine ⟨h.size_eq, h.lt_capacity,
    h.sound.withCells (Array.size_setIfInBounds ..) fun d hd j hj => ?_⟩
  obtain ⟨n, hn, rfl⟩ := mem_firstCells.mp hd
  have hne : n ≠ k := fun he => (Finset.mem_sdiff.mp hn).2 (he ▸ hk)
  rw [h.size_eq] at hj
  rw [Array.getElem?_setIfInBounds, if_neg]
  intro he
  rcases Nat.lt_or_gt_of_ne hne with hlt | hlt
  · have := add_le_of_dvd (Nat.dvd_mul_right size n) (Nat.dvd_mul_right size k)
      (Nat.mul_lt_mul_of_pos_left hlt h.size_pos)
    omega
  · have := add_le_of_dvd (Nat.dvd_mul_right size k) (Nat.dvd_mul_right size n)
      (Nat.mul_lt_mul_of_pos_left hlt h.size_pos)
    omega

end Bears

theorem create_bears (h : create size = .ok p) : p.Bears size ∅ := by
  have hsize : 0 < size ∧ size ≤ largestUniform := by
    by_contra hno
    rw [create, if_neg hno] at h
    cases h
  obtain ⟨p', hp', rfl, hsound⟩ := create_sound hsize.1 hsize.2
  obtain rfl := Except.ok.inj (h.symm.trans hp')
  have hs := hsound.size_pos
  exact .of_sound hsound (by simp) fun k hk => by simp [places_eq hs, mul_mem_firstCells hs, hk]

theorem Reached.bears (h : Reached size p A) : p.Bears size A := by
  induction h with
  | create h => exact create_bears h
  | @allocate p A _ ih =>
    by_cases hfull : A = Finset.range p.capacity
    · rw [ih.allocate_full hfull]
      simpa [granted] using ih
    · obtain ⟨k, p', -, -, halloc, hbears, -⟩ := ih.allocate_room hfull
      rw [halloc]
      simpa [granted, Nat.mul_div_cancel_left _ ih.size_pos, Finset.union_comm A,
        ← Finset.insert_eq] using hbears
  | sweep ask env _ ih =>
    obtain ⟨hearings, env', p', hheard, heq, -, hbears⟩ := ih.sweep ask env
    rw [heq, hheard]
    exact hbears
  | write c _ hk hi ih => exact ih.write hk hi c

/-- A page never parts from the set of the blocks that are handed out. It lists them in order and
counts their bytes, and it has room unless they are all of its blocks. Then an allocation gives
nothing and changes nothing; else it gives the lowest block that is left, cleared, and touches no
other that is handed out. -/
theorem refines_block_set (h : Reached size p A) :
    p.capacity = uniformCells / size ∧ (∀ k ∈ A, k < p.capacity) ∧
    p.blocks.toList = A.sort.map (size * ·) ∧
    p.allocatedBytes = A.card * (size * cellBytes) ∧
    (p.hasRoom = true ↔ A ≠ Finset.range p.capacity) ∧
    (p.allocate = (.ok none, p) ↔ A = Finset.range p.capacity) ∧
    (A ≠ Finset.range p.capacity → ∃ k p', k < p.capacity ∧ IsLeast {j | j ∉ A} k ∧
      p.allocate = (.ok (some (size * k)), p') ∧
      p'.blocks.toList = (insert k A).sort.map (size * ·) ∧
      (∀ i < size, p'.cells[size * k + i]? = some .zero) ∧
      ∀ j ∈ A, ∀ i < size, p'.cells[size * j + i]? = p.cells[size * j + i]?) := by
  have hp := h.bears
  refine ⟨hp.capacity_eq, hp.lt_capacity, hp.toList_blocks, ?_, hp.hasRoom_iff,
    ⟨fun hnone => ?_, hp.allocate_full⟩, fun hroom => ?_⟩
  · rw [hp.allocatedBytes_eq, blockBytes, hp.size_eq]
  · by_contra hroom
    obtain ⟨k, p', -, -, halloc, -⟩ := hp.allocate_room hroom
    simp [hnone] at halloc
  · obtain ⟨k, p', hk, hleast, halloc, hbears, hgives⟩ := hp.allocate_room hroom
    refine ⟨k, p', hk, hleast, halloc, hbears.toList_blocks, hgives.zero, fun j hj i hi => ?_⟩
    have hblock : size * j ∈ p.blocks.toList := by
      rw [hp.toList_blocks]
      exact (mul_mem_firstCells hp.size_pos).mpr hj
    exact (hgives.kept _ hblock).2 i (hp.size_eq.symm ▸ hi)

/-- Two blocks are handed out, and the second one is written to. -/
theorem reached_pair : ∃ p, Reached 128 p (Finset.range 2) := by
  have hfresh : Reached 128 ⟨Array.replicate uniformCells .zero, 128, 32640, ⟨0, 32640⟩, 0⟩ ∅ :=
    .create rfl
  exact ⟨_, hfresh.allocate.allocate.write (.word 7) (k := 1) (i := 3) (by decide) (by decide)⟩

theorem refines_block_set_pair : ∃ p p', Reached 128 p (Finset.range 2) ∧
    p.blocks.toList = [0, 128] ∧ p.allocatedBytes = 2048 ∧ p.hasRoom = true ∧
      p.allocate = (.ok (some 256), p') ∧
    p'.blocks.toList = [0, 128, 256] := by
  obtain ⟨p, h⟩ := reached_pair
  obtain ⟨hcap, -, hblocks, hbytes, hroom, -, hallocate⟩ := refines_block_set h
  have hnot : Finset.range 2 ≠ Finset.range p.capacity := fun he => by
    have hcard := congrArg Finset.card he
    rw [hcap, Finset.card_range, Finset.card_range] at hcard
    exact absurd hcard (by decide)
  obtain ⟨k, p', -, hleast, halloc, hblocks', -⟩ := hallocate hnot
  have htwo : IsLeast {j | j ∉ Finset.range 2} 2 :=
    ⟨by simp, fun j hj => not_lt.mp (by simpa using hj)⟩
  obtain rfl := hleast.unique htwo
  rw [Finset.sort_range] at hblocks
  rw [← Finset.range_add_one, Finset.sort_range] at hblocks'
  exact ⟨p, p', h, hblocks, hbytes, hroom.mpr hnot, halloc, hblocks'⟩

/-- A sweep asks about the blocks that are handed out, once each and in order. Those not reclaimed
stay where they are with what they hold, but for a mark that is cleared on the way; the chain of
ranges stands for all others and ends at the limit; and no block is met out of turn, nor a range
written beyond the limit. -/
theorem sweep_in_place (h : Reached size p A) (ask : Sight → ε → Ruling × ε) (env : ε) :
    ∃ hearings env' p', hear ask ((A.sort.map (size * ·)).map (sightAt p.cells)) env =
      (hearings, env') ∧
      let left := A.filter fun k => size * k ∉ condemned hearings
      p.sweep ask env =
        ⟨p', env', countFates hearings, (toFinalize hearings).toArray, left = ∅, none⟩ ∧
      p'.blocks.toList = left.sort.map (size * ·) ∧
      (∀ x ∈ hearings, x.2.fate ≠ .dead → ∀ i < size, p'.cells[x.1.index + i]? =
        if i = 0 ∧ x.2.unmark = true then some .zero else p.cells[x.1.index + i]?) ∧
      p'.limit = p.limit ∧ Chain p'.cells size p.limit p'.free.first p'.free.last
        ((Finset.range p.capacity \ left).sort.map (size * ·)) ∧
      p'.allocatedBytes = left.card * (size * cellBytes) ∧
      ∀ k ≤ p.capacity, ∃ w, Walk.advance ask k 0 ⟨p, env, p.free, none, none, 0, {}, #[]⟩ =
        (.ok (), w) ∧ ∀ l ∈ w.link, l < p.limit := by
  have hp := h.bears
  obtain ⟨hearings, env', p', hheard, heq, hswept, hp'⟩ := hp.sweep ask env
  have hlimit : p'.limit = p.limit := by
    rw [hswept.sound.limit_eq, hp.sound.limit_eq, hswept.size_eq]
  have hcap : p'.capacity = p.capacity := hp'.capacity_eq.trans hp.capacity_eq.symm
  have hempty : (survivors hearings).isEmpty =
      decide ((A.filter fun k => size * k ∉ condemned hearings) = ∅) := by
    rw [survivors_eq hp.size_pos hheard, Bool.eq_iff_iff, List.isEmpty_iff, decide_eq_true_iff,
      ← List.length_eq_zero_iff, length_firstCells, Finset.card_eq_zero]
  refine ⟨hearings, env', p', hheard, hempty ▸ heq, hp'.toList_blocks,
    fun x hx hlive i hi => ?_, hlimit, ?_, ?_, fun k hk => ?_⟩
  · exact hswept.kept x hx (decide_eq_true hlive) i (hp.size_eq.symm ▸ hi)
  · have hchain := hp'.sound.chain
    rwa [hp'.size_eq, hlimit, hcap] at hchain
  · rw [hp'.allocatedBytes_eq, blockBytes, hp'.size_eq]
  · have hstart : Walk.Inv ask p _ env 0 [] _ := .start hp.sound env
    obtain ⟨heard, w, hrun, hw⟩ := hstart.advance hp.sound ((Nat.zero_add k).trans_le hk)
    refine ⟨w, hrun, fun l hl => (hw.link_lt hl).trans_le ?_⟩
    rw [← hp.sound.capacity_mul, Nat.zero_add]
    exact Nat.mul_le_mul_left _ hk

/-- The first of two blocks is dead, the other is to be finalized. -/
theorem sweep_in_place_pair : ∃ p p', Reached 128 p (Finset.range 2) ∧
    p.sweep (fun s n => (⟨if s.index = 0 then .dead else .finalize, false⟩, n + 1)) 0 =
      ⟨p', 2, ⟨0, 1, 1, 0⟩, #[128], false, none⟩ ∧
    p'.blocks.toList = [128] ∧ p'.allocatedBytes = 1024 := by
  obtain ⟨p, h⟩ := reached_pair
  obtain ⟨hearings, env', p', hheard, heq, hblocks, -, -, -, hbytes, -⟩ := sweep_in_place h
    (fun s n => (⟨if s.index = 0 then .dead else .finalize, false⟩, n + 1)) 0
  -- The two questions, and what is left after the answers.
  rw [Finset.sort_range] at hheard
  obtain rfl :
      [(sightAt p.cells 0, ⟨.dead, false⟩), (sightAt p.cells 128, ⟨.finalize, false⟩)] = hearings :=
    congrArg Prod.fst hheard
  obtain rfl : 2 = env' := congrArg Prod.snd hheard
  have hleft : ((Finset.range 2).filter fun k => 128 * k ∉ [0]) = {1} := by decide
  have hdead :
      condemned [(sightAt p.cells 0, ⟨.dead, false⟩), (sightAt p.cells 128, ⟨.finalize, false⟩)] =
        [0] := rfl
  simp only [hdead, hleft, Finset.sort_singleton] at heq hblocks hbytes
  exact ⟨p, p', h, heq, hblocks, hbytes⟩

end SweptHeap.UniformPage
