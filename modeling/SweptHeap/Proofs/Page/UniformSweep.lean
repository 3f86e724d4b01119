import Mathlib
import SweptHeap.Proofs.Page.Hearing
import SweptHeap.Proofs.Page.UniformBlocks

/-!
# Sweeping a uniform page

The sweep walks over the page once. Behind the walk stands the chain under construction, of which
the last link is still open; ahead of it nothing has changed, so the old chain can still be read
there. `Walk.Inv` says so for a walk that stands before block `k`, and the sweep's results follow
when the walk has passed the last block.
-/

namespace SweptHeap.UniformPage

variable {ε : Type} {ask : Sight → ε → Ruling × ε}

/-- The chain under construction: a segment up to the open link, if there is one. -/
def Linked (size cell : Nat) (page : UniformPage) : Option Nat → List Nat → Prop
  | none, chained => chained = []
  | some link, chained =>
    link < cell ∧ Segment page.cells size link page.free.first page.free.last chained

/-- The run of free blocks that ends at `cell`, behind the open link. -/
def Running (size cell : Nat) (link : Option Nat) : Option FreeRange → List Nat → Prop
  | none, run => run = []
  | some r, run => size ∣ r.first ∧ (∀ l ∈ link, l < r.first) ∧
      ∃ n, r.last = r.first + size * n ∧ cell = r.last + size ∧
        run = List.range' r.first (n + 1) size

theorem Linked.mono {size cell cell' : Nat} {page : UniformPage} {link : Option Nat}
    {chained : List Nat} (h : Linked size cell page link chained) (hle : cell ≤ cell') :
    Linked size cell' page link chained := by
  cases link with
  | none => exact h
  | some l => exact ⟨Nat.lt_of_lt_of_le h.1 hle, h.2⟩

theorem Linked.lt {size cell l : Nat} {page : UniformPage} {link : Option Nat}
    {chained : List Nat} (h : Linked size cell page link chained) (hl : l ∈ link) : l < cell := by
  obtain rfl : link = some l := hl
  exact h.1

namespace Walk

variable {w : Walk ε} {size cell : Nat} {freed : List Nat}

/-- The blocks before `cell` that are free from now on are `freed`. -/
def Built (size cell : Nat) (freed : List Nat) (w : Walk ε) : Prop :=
  ∃ chained run, freed = chained ++ run ∧ Linked size cell w.page w.link chained ∧
    Running size cell w.link w.run run

theorem Built.passFree (h : w.Built size cell freed) (hd : size ∣ cell) :
    (w.passFree cell).Built size (cell + size) (freed ++ [cell]) := by
  obtain ⟨page, env, old, link, run, live, tally, queued⟩ := w
  obtain ⟨chained, blocks, rfl, hlink, hrun⟩ := h
  cases run with
  | none =>
    obtain rfl : blocks = [] := hrun
    exact ⟨chained, [cell], by simp, hlink.mono (Nat.le_add_right _ _), hd,
      fun l hl => hlink.lt hl, 0, by simp, rfl, by simp⟩
  | some r =>
    obtain ⟨hdvd, hbehind, n, hlast, hcell, rfl⟩ := hrun
    have hnext : cell = r.first + size * (n + 1) := by rw [Nat.mul_succ]; omega
    refine ⟨chained, List.range' r.first (n + 1 + 1) size, ?_,
      hlink.mono (Nat.le_add_right _ _), hdvd, hbehind, n + 1, hnext, rfl, rfl⟩
    rw [List.append_assoc, hnext, ← List.range'_concat]

/-- Writing the run into the open link makes the end of the run the open link. -/
theorem Built.chain {r : FreeRange} {chained run : List Nat} (hs : 0 < size)
    (hlink : Linked size cell w.page w.link chained)
    (hrun : Running size cell w.link (some r) run) (hbound : cell ≤ w.page.cells.size) :
    Linked size cell (w.chain r).page (w.chain r).link (chained ++ run) := by
  obtain ⟨page, env, old, link, _, live, tally, queued⟩ := w
  obtain ⟨hdvd, hbehind, n, hlast, hcell, rfl⟩ := hrun
  have hseg (cells : Array Cell) :
      Segment cells size r.last r.first r.last (List.range' r.first (n + 1) size) :=
    hlast ▸ Segment.run hs n hdvd
  cases link with
  | none =>
    obtain rfl : chained = [] := hlink
    exact ⟨by omega, hseg _⟩
  | some link =>
    obtain ⟨hlt, hfront⟩ := hlink
    have hfront' : Segment (page.cells.setIfInBounds link (.range r)) size link page.free.first
        page.free.last chained := hfront.congr fun c _ hne => by simp [Ne.symm hne]
    have hin : link < page.cells.size := Nat.lt_of_lt_of_le hlt hbound
    exact ⟨by omega, hfront'.append (by simp [hin]) (hbehind link rfl) (hseg _)⟩

theorem Built.passLive (h : w.Built size cell freed) (hs : 0 < size)
    (hbound : cell ≤ w.page.cells.size) : w.passLive.Built size (cell + size) freed := by
  obtain ⟨page, env, old, link, run, live, tally, queued⟩ := w
  obtain ⟨chained, blocks, rfl, hlink, hrun⟩ := h
  cases run with
  | none =>
    obtain rfl : blocks = [] := hrun
    exact ⟨chained, [], rfl, hlink.mono (Nat.le_add_right _ _), rfl⟩
  | some r =>
    refine ⟨chained ++ blocks, [], (List.append_nil _).symm, ?_, by cases link <;> rfl⟩
    exact (Built.chain (w := ⟨page, env, old, link, none, live + 1, tally, queued⟩) hs hlink hrun
      hbound).mono (Nat.le_add_right _ _)

/-- What a walk keeps while it works on its chain. -/
structure Same (w w' : Walk ε) : Prop where
  size_eq : w'.page.blockSize = w.page.blockSize
  limit_eq : w'.page.limit = w.page.limit
  length_eq : w'.page.cells.size = w.page.cells.size
  env_eq : w'.env = w.env
  old_eq : w'.old = w.old
  tally_eq : w'.tally = w.tally
  queued_eq : w'.queued = w.queued

theorem same_chain (w : Walk ε) (r : FreeRange) : Same w (w.chain r) := by
  obtain ⟨page, env, old, link, run, live, tally, queued⟩ := w
  cases link <;> constructor <;> simp [Walk.chain]

theorem same_passFree (w : Walk ε) (cell : Nat) : Same w (w.passFree cell) := by
  obtain ⟨page, env, old, link, run, live, tally, queued⟩ := w
  cases run <;> constructor <;> rfl

theorem same_passLive (w : Walk ε) : Same w w.passLive := by
  obtain ⟨page, env, old, link, run, live, tally, queued⟩ := w
  cases run with
  | none => constructor <;> rfl
  | some r =>
    have h := same_chain (⟨page, env, old, link, none, live + 1, tally, queued⟩ : Walk ε) r
    exact ⟨h.size_eq, h.limit_eq, h.length_eq, h.env_eq, h.old_eq, h.tally_eq, h.queued_eq⟩

@[simp] theorem cells_passFree (w : Walk ε) (cell : Nat) :
    (w.passFree cell).page.cells = w.page.cells := by
  obtain ⟨page, env, old, link, run, live, tally, queued⟩ := w
  cases run <;> rfl

@[simp] theorem live_passFree (w : Walk ε) (cell : Nat) : (w.passFree cell).live = w.live := by
  obtain ⟨page, env, old, link, run, live, tally, queued⟩ := w
  cases run <;> rfl

@[simp] theorem live_passLive (w : Walk ε) : w.passLive.live = w.live + 1 := by
  obtain ⟨page, env, old, link, run, live, tally, queued⟩ := w
  cases run <;> cases link <;> rfl

/-- Only a free block is ever written to. -/
theorem getElem?_chain {r : FreeRange} {chained : List Nat} {i : Nat}
    (hlink : Linked size cell w.page w.link chained) (hi : i ∉ chained) :
    (w.chain r).page.cells[i]? = w.page.cells[i]? := by
  obtain ⟨page, env, old, link, run, live, tally, queued⟩ := w
  cases link with
  | none => rfl
  | some link =>
    have hne : link ≠ i := fun he => hi (he ▸ hlink.2.link_mem)
    simp [Walk.chain, hne]

theorem Built.getElem?_passLive {i : Nat} (h : w.Built size cell freed) (hi : i ∉ freed) :
    w.passLive.page.cells[i]? = w.page.cells[i]? := by
  obtain ⟨page, env, old, link, run, live, tally, queued⟩ := w
  obtain ⟨chained, blocks, rfl, hlink, hrun⟩ := h
  cases run with
  | none => rfl
  | some r =>
    exact getElem?_chain (w := ⟨page, env, old, link, none, live + 1, tally, queued⟩) hlink
      fun hmem => hi (List.mem_append_left _ hmem)

/-- Before block `k` of the sweep of `p`: what was heard, and which blocks are free from now on. -/
structure Inv (ask : Sight → ε → Ruling × ε) (p : UniformPage) (free : List Nat) (env : ε) (k : Nat)
    (hearings : List Hearing) (w : Walk ε) : Prop where
  size_eq : w.page.blockSize = p.blockSize
  limit_eq : w.page.limit = p.limit
  length_eq : w.page.cells.size = p.cells.size
  /-- Nothing has changed ahead. -/
  ahead : ∀ i, p.blockSize * k ≤ i → w.page.cells[i]? = p.cells[i]?
  old : Chain p.cells p.blockSize p.limit (max (p.blockSize * k) w.old.first) w.old.last
    (free.filter (p.blockSize * k ≤ ·))
  heard : hear ask (((List.range' 0 k p.blockSize).filter (· ∉ free)).map (sightAt p.cells)) env =
    (hearings, w.env)
  built : w.Built p.blockSize (p.blockSize * k)
    ((List.range' 0 k p.blockSize).filter (· ∉ survivors hearings))
  clean : ∀ c ∈ List.range' 0 k p.blockSize, c ∉ survivors hearings → ∀ i, 0 < i →
    i < p.blockSize → w.page.cells[c + i]? = some .zero
  kept : ∀ h ∈ hearings, h.2.spares → ∀ i < p.blockSize, w.page.cells[h.1.index + i]? =
    if i = 0 ∧ h.2.unmark then some .zero else p.cells[h.1.index + i]?
  live_eq : w.live = (survivors hearings).length
  tally_eq : w.tally = countFates hearings
  queued_eq : w.queued.toList = toFinalize hearings

variable {p : UniformPage} {free : List Nat} {env : ε} {k : Nat} {hearings : List Hearing}

/-- What a walk meets at a block, by the old chain: an allocated block, a free block inside a range,
or the end of a range. -/
theorem old_cases (hs : 0 < size) {limit : Nat} (hl : size ∣ limit) {cells : Array Cell}
    {old : FreeRange} (hd : size ∣ cell) (hlt : cell < limit)
    (h : Chain cells size limit (max cell old.first) old.last (free.filter (cell ≤ ·))) :
    (cell < old.first ∧ cell ∉ free ∧ Chain cells size limit (max (cell + size) old.first) old.last
      (free.filter (cell + size ≤ ·))) ∨
    (old.first ≤ cell ∧ cell ∈ free ∧
      ((cell < old.last ∧ Chain cells size limit (max (cell + size) old.first) old.last
          (free.filter (cell + size ≤ ·))) ∨
        (cell = old.last ∧ ∃ next, cells[cell]? = some (.range next) ∧
          Chain cells size limit (max (cell + size) next.first) next.last
            (free.filter (cell + size ≤ ·))))) := by
  rcases Nat.lt_or_ge cell old.first with hbefore | hin
  · rw [max_eq_right (Nat.le_of_lt hbefore)] at h
    have hstep := add_le_of_dvd hd (h.dvd_first hl) hbefore
    have hlow : ∀ x ∈ free, cell ≤ x → old.first ≤ x := fun x hx hle =>
      h.first_le_of_mem x (by simp [hx, hle])
    refine .inl ⟨hbefore, fun hmem => ?_, ?_⟩
    · have := hlow cell hmem (Nat.le_refl _)
      omega
    · rw [max_eq_right hstep]
      have hsame : free.filter (cell + size ≤ ·) = free.filter (cell ≤ ·) := by
        apply List.filter_congr
        intro x hx
        rw [decide_eq_decide]
        exact ⟨fun _ => by omega, fun hle => by have := hlow x hx hle; omega⟩
      rwa [hsame]
  · rw [max_eq_left hin] at h
    obtain ⟨x, rest, hrest⟩ : ∃ x rest, free.filter (cell ≤ ·) = x :: rest :=
      List.exists_cons_of_ne_nil (h.first_lt_limit_iff.mp hlt)
    have hmem : x ∈ free := (List.mem_filter.mp (hrest ▸ List.mem_cons_self)).1
    have hsorted := hrest ▸ h.pairwise_lt hs
    have hdvd := hrest ▸ h.dvd_of_mem hl
    rw [hrest] at h
    obtain ⟨rfl, hcases⟩ := h.pop
    have hnext : free.filter (x + size ≤ ·) = rest := by
      have hdeep : free.filter (x + size ≤ ·) =
          (free.filter (x ≤ ·)).filter (x + size ≤ ·) := by
        rw [List.filter_filter]
        apply List.filter_congr
        intro y _
        rw [Bool.eq_iff_iff]
        simp only [decide_eq_true_eq, Bool.and_eq_true]
        omega
      rw [hdeep, hrest, List.filter_cons_of_neg (by simp; omega), List.filter_eq_self]
      intro y hy
      have hlt := (List.pairwise_cons.mp hsorted).1 y hy
      exact decide_eq_true (add_le_of_dvd (hdvd x List.mem_cons_self)
        (hdvd y (List.mem_cons_of_mem _ hy)) hlt)
    rw [hnext]
    refine .inr ⟨hin, hmem, ?_⟩
    rcases hcases with ⟨hlast, hc⟩ | ⟨rfl, _, next, hr, hlast, hc⟩
    · exact .inl ⟨hlast, by rwa [max_eq_left (by omega)]⟩
    · have hstep := add_le_of_dvd hd (hc.dvd_first hl) hlast
      exact .inr ⟨rfl, next, hr, by rwa [max_eq_right hstep]⟩

theorem Inv.indices (h : Inv ask p free env k hearings w) :
    hearings.map (·.1.index) = (List.range' 0 k p.blockSize).filter (· ∉ free) := by
  have hsights := map_fst_hear ask
    (((List.range' 0 k p.blockSize).filter (· ∉ free)).map (sightAt p.cells)) env
  rw [h.heard] at hsights
  have := congrArg (List.map Sight.index) hsights
  simpa [Function.comp_def, sightAt] using this

theorem Inv.index_mem (h : Inv ask p free env k hearings w) {x : Hearing} (hx : x ∈ hearings) :
    x.1.index ∈ List.range' 0 k p.blockSize := by
  have hmem : x.1.index ∈ hearings.map (·.1.index) := List.mem_map_of_mem hx
  rw [h.indices] at hmem
  exact (List.mem_filter.mp hmem).1

theorem Inv.survivor_mem (h : Inv ask p free env k hearings w) {c : Nat}
    (hc : c ∈ survivors hearings) : c ∈ List.range' 0 k p.blockSize := by
  obtain ⟨x, hx, -, rfl⟩ := mem_survivors.mp hc
  exact h.index_mem hx

theorem range'_lt {c : Nat} (hc : c ∈ List.range' 0 k size) :
    size ∣ c ∧ c + size ≤ size * k := by
  obtain ⟨i, hi, rfl⟩ := List.mem_range'.mp hc
  rw [Nat.zero_add]
  refine ⟨Nat.dvd_mul_right _ _, ?_⟩
  rw [← Nat.mul_succ]
  exact Nat.mul_le_mul_left _ hi

/-- Of the cells of a block only the first one can begin a block. -/
theorem eq_zero_of_mem_range' {c i : Nat} (hd : size ∣ c) (hi : i < size)
    (hmem : c + i ∈ List.range' 0 k size) : i = 0 :=
  Nat.eq_zero_of_dvd_of_lt ((Nat.dvd_add_right hd).mp (range'_lt hmem).1) hi

theorem range'_concat_mul (size k : Nat) :
    List.range' 0 (k + 1) size = List.range' 0 k size ++ [size * k] := by
  rw [List.range'_concat, Nat.zero_add]

theorem Inv.not_survivor (hp : p.Sound free) (h : Inv ask p free env k hearings w) :
    p.blockSize * k ∉ survivors hearings := fun hc => by
  have := (range'_lt (h.survivor_mem hc)).2
  have := hp.size_pos
  omega

theorem Inv.room (hp : p.Sound free) (h : Inv ask p free env k hearings w) (hk : k < p.capacity) :
    p.blockSize * k + p.blockSize ≤ w.page.cells.size := by
  have hblocks := Nat.mul_le_mul_left p.blockSize hk
  have hlimit := hp.limit_le
  rw [h.length_eq, hp.length_eq]
  rw [hp.capacity_mul, Nat.mul_succ] at hblocks
  omega

theorem Inv.sight_eq (h : Inv ask p free env k hearings w) :
    sightAt w.page.cells (p.blockSize * k) = sightAt p.cells (p.blockSize * k) :=
  sightAt_congr (h.ahead _ (Nat.le_refl _)) (h.ahead _ (Nat.le_add_right _ _))

/-- A free block is passed, with what is known of the rest of the old chain. -/
theorem Inv.passFree (hp : p.Sound free) (h : Inv ask p free env k hearings w) {old : FreeRange}
    (hmem : p.blockSize * k ∈ free)
    (hold : Chain p.cells p.blockSize p.limit (max (p.blockSize * k + p.blockSize) old.first)
      old.last (free.filter (p.blockSize * k + p.blockSize ≤ ·))) :
    Inv ask p free env (k + 1) hearings ({ w with old := old }.passFree (p.blockSize * k)) := by
  have hnot := h.not_survivor hp
  have hsame := same_passFree { w with old := old } (p.blockSize * k)
  have hrange := range'_concat_mul p.blockSize k
  have hnext : p.blockSize * (k + 1) = p.blockSize * k + p.blockSize := Nat.mul_succ _ _
  refine ⟨hsame.size_eq.trans h.size_eq, hsame.limit_eq.trans h.limit_eq,
    hsame.length_eq.trans h.length_eq, ?_, ?_, ?_, ?_, ?_, ?_, ?_, hsame.tally_eq.trans h.tally_eq,
    ?_⟩
  · intro i hi
    rw [cells_passFree]
    exact h.ahead i (by omega)
  · rw [hsame.old_eq, hnext]
    exact hold
  · rw [hrange, List.filter_append, List.filter_cons_of_neg (by simpa using hmem), List.filter_nil,
      List.append_nil, hsame.env_eq]
    exact h.heard
  · rw [hnext, hrange, List.filter_append, List.filter_cons_of_pos (by simpa using hnot),
      List.filter_nil]
    exact Built.passFree h.built (Nat.dvd_mul_right _ _)
  · intro c hc hfree i hi hlt
    rw [cells_passFree]
    rw [hrange] at hc
    rcases List.mem_append.mp hc with hc | hc
    · exact h.clean c hc hfree i hi hlt
    · rw [List.mem_singleton.mp hc]
      exact (h.ahead _ (Nat.le_add_right _ _)).trans (hp.clean _ hmem i hi hlt)
  · rw [cells_passFree]
    exact h.kept
  · rw [live_passFree]
    exact h.live_eq
  · rw [hsame.queued_eq]
    exact h.queued_eq

/-- The walk that has cleared the dead block at `cell`, before it passes it. -/
def clear (cell : Nat) (r : Ruling) (env : ε) (w : Walk ε) : Walk ε :=
  { w with
    page := { w.page with cells := zeroCells w.page.cells cell w.page.blockSize }
    env := env
    tally := w.tally.count r.fate }

/-- The walk that has spared the block at `cell`, before it passes it. -/
def spare (cell : Nat) (r : Ruling) (env : ε) (w : Walk ε) : Walk ε :=
  { w with
    page := { w.page with
      cells := if r.unmark then w.page.cells.setIfInBounds cell .zero else w.page.cells }
    env := env
    tally := w.tally.count r.fate
    queued := if r.fate = .finalize then w.queued.push cell else w.queued }

theorem judge_dead {r : Ruling} {env' : ε}
    (hask : ask (sightAt w.page.cells cell) w.env = (r, env')) (hr : r.fate = .dead) :
    w.judge ask cell = (w.clear cell r env').passFree cell := by
  obtain ⟨⟨cells, size, limit, free, bytes⟩, env, old, link, run, live, tally, queued⟩ := w
  simp only [sightAt] at hask
  simp only [Walk.judge, hask, hr, clear]

theorem judge_spared {r : Ruling} {env' : ε}
    (hask : ask (sightAt w.page.cells cell) w.env = (r, env')) (hr : r.fate ≠ .dead) :
    w.judge ask cell = (w.spare cell r env').passLive := by
  obtain ⟨⟨cells, size, limit, free, bytes⟩, env, old, link, run, live, tally, queued⟩ := w
  simp only [sightAt] at hask
  cases hf : r.fate with
  | dead => exact absurd hf hr
  | live => simp only [Walk.judge, hask, hf, spare]
  | finalize => simp only [Walk.judge, hask, hf, spare]

/-- The cleared cells are those of the block, and nothing outside it. -/
theorem getElem?_clear (r : Ruling) (env : ε) (hin : cell + w.page.blockSize ≤ w.page.cells.size)
    (i : Nat) : (w.clear cell r env).page.cells[i]? =
      if cell ≤ i ∧ i < cell + w.page.blockSize then some .zero else w.page.cells[i]? := by
  rw [clear, getElem?_zeroCells]
  split_ifs with h1 h2 h2
  · rfl
  · exact absurd ⟨h1.1, h1.2.1⟩ h2
  · exact absurd ⟨h2.1, h2.2, by omega⟩ h1
  · rfl

theorem size_spare (cell : Nat) (r : Ruling) (env : ε) (w : Walk ε) :
    (w.spare cell r env).page.cells.size = w.page.cells.size := by
  by_cases hu : r.unmark <;> simp [spare, hu]

/-- A spared block loses its mark, if at all anything. -/
theorem getElem?_spare (r : Ruling) (env : ε) (hin : cell < w.page.cells.size) (i : Nat) :
    (w.spare cell r env).page.cells[i]? =
      if i = cell ∧ r.unmark then some .zero else w.page.cells[i]? := by
  by_cases hu : r.unmark
  · by_cases hi : i = cell
    · simp [spare, hu, hi, hin]
    · simp [spare, hu, hi, Ne.symm hi]
  · simp [spare, hu]

/-- The chain under construction does not mind what becomes of the cells from `cell` on. -/
theorem Built.withCells {cells : Array Cell} (h : w.Built size cell freed)
    (he : ∀ i < cell, cells[i]? = w.page.cells[i]?) {env : ε} {tally : Tally}
    {queued : Array Nat} :
    Walk.Built size cell freed { w with
      page := { w.page with cells := cells }, env := env, tally := tally, queued := queued } := by
  obtain ⟨page, _, old, link, run, live, _, _⟩ := w
  obtain ⟨chained, blocks, rfl, hlink, hrun⟩ := h
  refine ⟨chained, blocks, rfl, ?_, hrun⟩
  cases link with
  | none => exact hlink
  | some l =>
    refine ⟨hlink.1, hlink.2.congr fun c hc _ => he c ?_⟩
    exact Nat.lt_of_le_of_lt (hlink.2.le_link c hc) hlink.1

theorem heard_concat {r : Ruling} {env' : ε} (hnot : size * k ∉ free) {cells : Array Cell}
    (hheard : hear ask (((List.range' 0 k size).filter (· ∉ free)).map (sightAt cells)) env =
      (hearings, w.env))
    (hask : ask (sightAt cells (size * k)) w.env = (r, env')) :
    hear ask (((List.range' 0 (k + 1) size).filter (· ∉ free)).map (sightAt cells)) env =
      (hearings ++ [(sightAt cells (size * k), r)], env') := by
  rw [range'_concat_mul, List.filter_append, List.filter_cons_of_pos (by simpa using hnot),
    List.filter_nil, List.map_append, hear_append, hheard]
  simp only [List.map_cons, List.map_nil, hear, hask]

/-- A block is judged dead: it is zeroed and passed as a free one. -/
theorem Inv.judgeDead (hp : p.Sound free) (h : Inv ask p free env k hearings w)
    (hk : k < p.capacity) (hnot : p.blockSize * k ∉ free)
    (hold : Chain p.cells p.blockSize p.limit (max (p.blockSize * k + p.blockSize) w.old.first)
      w.old.last (free.filter (p.blockSize * k + p.blockSize ≤ ·))) {r : Ruling} {env' : ε}
    (hask : ask (sightAt p.cells (p.blockSize * k)) w.env = (r, env')) (hr : r.fate = .dead) :
    Inv ask p free env (k + 1) (hearings ++ [(sightAt p.cells (p.blockSize * k), r)])
      (w.judge ask (p.blockSize * k)) := by
  have hsurv : survivors (hearings ++ [(sightAt p.cells (p.blockSize * k), r)]) =
      survivors hearings := by
    simp [survivors, Ruling.spares, hr]
  have hnotS := h.not_survivor hp
  have hrange := range'_concat_mul p.blockSize k
  have hnext : p.blockSize * (k + 1) = p.blockSize * k + p.blockSize := Nat.mul_succ _ _
  have hroom := h.room hp hk
  have hcells (i : Nat) : (w.clear (p.blockSize * k) r env').page.cells[i]? =
      if p.blockSize * k ≤ i ∧ i < p.blockSize * k + p.blockSize then some .zero
      else w.page.cells[i]? := by
    rw [getElem?_clear r env' (by rw [h.size_eq]; omega), h.size_eq]
  rw [judge_dead (by rw [h.sight_eq]; exact hask) hr]
  have hsame := same_passFree (w.clear (p.blockSize * k) r env') (p.blockSize * k)
  refine ⟨hsame.size_eq.trans h.size_eq, hsame.limit_eq.trans h.limit_eq, ?_, ?_, ?_, ?_, ?_, ?_,
    ?_, ?_, ?_, ?_⟩
  · rw [hsame.length_eq, clear, size_zeroCells]
    exact h.length_eq
  · intro i hi
    rw [cells_passFree, hcells, if_neg (by omega)]
    exact h.ahead i (by omega)
  · rw [hsame.old_eq, hnext]
    exact hold
  · rw [hsame.env_eq]
    exact heard_concat hnot h.heard hask
  · rw [hsurv, hnext, hrange, List.filter_append, List.filter_cons_of_pos (by simpa using hnotS),
      List.filter_nil]
    refine Built.passFree (Built.withCells h.built fun i hi => ?_) (Nat.dvd_mul_right _ _)
    exact (hcells i).trans (if_neg (by omega))
  · intro c hc hfree i hi hlt
    rw [hsurv] at hfree
    rw [cells_passFree, hcells]
    rw [hrange] at hc
    rcases List.mem_append.mp hc with hc | hc
    · have := (range'_lt hc).2
      rw [if_neg (by omega)]
      exact h.clean c hc hfree i hi hlt
    · rw [List.mem_singleton.mp hc, if_pos (by omega)]
  · intro x hx hspares i hi
    rcases List.mem_append.mp hx with hx | hx
    · have := (range'_lt (h.index_mem hx)).2
      rw [cells_passFree, hcells, if_neg (by omega)]
      exact h.kept x hx hspares i hi
    · rw [List.mem_singleton.mp hx] at hspares
      simp [Ruling.spares, hr] at hspares
  · rw [live_passFree, hsurv]
    exact h.live_eq
  · rw [hsame.tally_eq, countFates_concat, ← h.tally_eq]
    rfl
  · rw [hsame.queued_eq, toFinalize_append, ← h.queued_eq]
    simp [clear, toFinalize, hr]

/-- A block is spared: it stays as it is, but for its mark. -/
theorem Inv.judgeSpared (hp : p.Sound free) (h : Inv ask p free env k hearings w)
    (hk : k < p.capacity) (hnot : p.blockSize * k ∉ free)
    (hold : Chain p.cells p.blockSize p.limit (max (p.blockSize * k + p.blockSize) w.old.first)
      w.old.last (free.filter (p.blockSize * k + p.blockSize ≤ ·))) {r : Ruling} {env' : ε}
    (hask : ask (sightAt p.cells (p.blockSize * k)) w.env = (r, env')) (hr : r.fate ≠ .dead) :
    Inv ask p free env (k + 1) (hearings ++ [(sightAt p.cells (p.blockSize * k), r)])
      (w.judge ask (p.blockSize * k)) := by
  have hs := hp.size_pos
  have hsurv : survivors (hearings ++ [(sightAt p.cells (p.blockSize * k), r)]) =
      survivors hearings ++ [p.blockSize * k] := by
    simp [survivors, Ruling.spares, hr, sightAt]
  have hrange := range'_concat_mul p.blockSize k
  have hnext : p.blockSize * (k + 1) = p.blockSize * k + p.blockSize := Nat.mul_succ _ _
  have hroom := h.room hp hk
  have hfreed : (List.range' 0 (k + 1) p.blockSize).filter
      (· ∉ survivors (hearings ++ [(sightAt p.cells (p.blockSize * k), r)])) =
      (List.range' 0 k p.blockSize).filter (· ∉ survivors hearings) := by
    rw [hsurv, hrange, List.filter_append, List.filter_cons_of_neg (by simp), List.filter_nil,
      List.append_nil]
    apply List.filter_congr
    intro x hx
    have := (range'_lt hx).2
    have hne : x ≠ p.blockSize * k := by omega
    simp [hne]
  have hlen := size_spare (p.blockSize * k) r env' w
  have hcells := getElem?_spare (w := w) r env' (by omega : p.blockSize * k < w.page.cells.size)
  have hbuilt : (w.spare (p.blockSize * k) r env').Built p.blockSize (p.blockSize * k)
      ((List.range' 0 k p.blockSize).filter (· ∉ survivors hearings)) :=
    Built.withCells h.built fun i hi => (hcells i).trans (if_neg (by omega))
  -- the open link lies in a free block behind the walk
  have hbehind (i : Nat) (hi : i ∉ (List.range' 0 k p.blockSize).filter (· ∉ survivors hearings)) :
      (w.spare (p.blockSize * k) r env').passLive.page.cells[i]? =
        if i = p.blockSize * k ∧ r.unmark then some .zero else w.page.cells[i]? :=
    (hbuilt.getElem?_passLive hi).trans (hcells i)
  rw [judge_spared (by rw [h.sight_eq]; exact hask) hr]
  have hsame := same_passLive (w.spare (p.blockSize * k) r env')
  refine ⟨hsame.size_eq.trans h.size_eq, hsame.limit_eq.trans h.limit_eq, ?_, ?_, ?_, ?_, ?_, ?_,
    ?_, ?_, ?_, ?_⟩
  · exact hsame.length_eq.trans (hlen.trans h.length_eq)
  · intro i hi
    rw [hbehind i, if_neg (by omega)]
    · exact h.ahead i (by omega)
    · intro hmem
      have := (range'_lt (List.mem_filter.mp hmem).1).2
      omega
  · rw [hsame.old_eq, hnext]
    exact hold
  · rw [hsame.env_eq]
    exact heard_concat hnot h.heard hask
  · rw [hfreed, hnext]
    exact Built.passLive hbuilt hs (by rw [hlen]; omega)
  · intro c hc hfree i hi hlt
    rw [hsurv] at hfree
    simp only [List.mem_append, List.mem_singleton, not_or] at hfree
    rw [hrange] at hc
    rcases List.mem_append.mp hc with hc | hc
    · have hrun := range'_lt hc
      rw [hbehind (c + i), if_neg (by omega)]
      · exact h.clean c hc hfree.1 i hi hlt
      · intro hmem
        have := eq_zero_of_mem_range' hrun.1 hlt (List.mem_filter.mp hmem).1
        omega
    · exact absurd (List.mem_singleton.mp hc) hfree.2
  · intro x hx hspares i hi
    rcases List.mem_append.mp hx with hx | hx
    · have hrun := range'_lt (h.index_mem hx)
      rw [hbehind (x.1.index + i), if_neg (by omega)]
      · exact h.kept x hx hspares i hi
      · intro hmem
        obtain rfl := eq_zero_of_mem_range' hrun.1 hi (List.mem_filter.mp hmem).1
        have hsurvives : x.1.index ∈ survivors hearings := mem_survivors.mpr ⟨x, hx, hspares, rfl⟩
        simp [hsurvives] at hmem
    · obtain rfl := List.mem_singleton.mp hx
      show (w.spare (p.blockSize * k) r env').passLive.page.cells[p.blockSize * k + i]? =
        if i = 0 ∧ r.unmark = true then some .zero else p.cells[p.blockSize * k + i]?
      rw [hbehind (p.blockSize * k + i), h.ahead _ (Nat.le_add_right _ _)]
      · simp
      · intro hmem
        have := (range'_lt (List.mem_filter.mp hmem).1).2
        omega
  · rw [live_passLive, hsurv, List.length_append, ← h.live_eq]
    rfl
  · rw [hsame.tally_eq, countFates_concat, ← h.tally_eq]
    rfl
  · rw [hsame.queued_eq, toFinalize_append, ← h.queued_eq]
    by_cases hf : r.fate = .finalize <;> simp [spare, toFinalize, hf, sightAt]

theorem Inv.start (hp : p.Sound free) (env : ε) :
    Inv ask p free env 0 [] ⟨p, env, p.free, none, none, 0, {}, #[]⟩ := by
  refine ⟨rfl, rfl, rfl, fun _ _ => rfl, ?_, rfl, ⟨[], [], rfl, rfl, rfl⟩, ?_, ?_, rfl, rfl, rfl⟩
  · simpa using hp.chain
  · simp
  · simp

theorem Inv.step (hp : p.Sound free) (h : Inv ask p free env k hearings w) (hk : k < p.capacity) :
    ∃ hearings' w', w.step ask (p.blockSize * k) = (.ok (), w') ∧
      Inv ask p free env (k + 1) hearings' w' := by
  have hlt : p.blockSize * k < p.limit := by
    rw [← hp.capacity_mul]
    exact Nat.mul_lt_mul_of_pos_left hk hp.size_pos
  rcases old_cases hp.size_pos hp.dvd_limit (Nat.dvd_mul_right _ _) hlt h.old with
    ⟨hbefore, hnot, hold⟩ | ⟨hin, hmem, ⟨hlast, hold⟩ | ⟨hlast, next, hr, hold⟩⟩
  · rcases hask : ask (sightAt p.cells (p.blockSize * k)) w.env with ⟨r, env'⟩
    refine ⟨hearings ++ [(sightAt p.cells (p.blockSize * k), r)], _,
      by rw [Walk.step, if_pos hbefore], ?_⟩
    by_cases hdead : r.fate = .dead
    · exact h.judgeDead hp hk hnot hold hask hdead
    · exact h.judgeSpared hp hk hnot hold hask hdead
  · refine ⟨hearings, _, ?_, h.passFree hp hmem hold⟩
    rw [Walk.step, if_neg (Nat.not_lt.mpr hin), if_pos hlast]
  · have hread : w.page.rangeAt (p.blockSize * k) = next := by
      rw [← h.ahead _ (Nat.le_refl _)] at hr
      exact rangeAt_of_getElem? hr
    refine ⟨hearings, _, ?_, h.passFree hp hmem hold⟩
    rw [Walk.step, if_neg (Nat.not_lt.mpr hin), if_neg (by omega), if_pos hlast, hread]

theorem Inv.advance (hp : p.Sound free) (h : Inv ask p free env k hearings w) {left : Nat}
    (hk : k + left ≤ p.capacity) :
    ∃ hearings' w', Walk.advance ask left (p.blockSize * k) w = (.ok (), w') ∧
      Inv ask p free env (k + left) hearings' w' := by
  induction left generalizing k hearings w with
  | zero => exact ⟨hearings, w, rfl, h⟩
  | succ left ih =>
    obtain ⟨hearings', w', hstep, h'⟩ := h.step hp (by omega)
    obtain ⟨hearings'', w'', hrun, h''⟩ := ih h' (by omega)
    rw [Nat.add_right_comm] at h''
    refine ⟨hearings'', w'', ?_, h''⟩
    rw [Walk.advance, hstep]
    simp only [h'.size_eq]
    rwa [← Nat.mul_succ]

/-- The place for the next range lies behind the walk. -/
theorem Inv.link_lt (h : Inv ask p free env k hearings w) {l : Nat} (hl : l ∈ w.link) :
    l < p.blockSize * k := by
  obtain ⟨chained, run, -, hlink, -⟩ := h.built
  exact hlink.lt hl

/-- The range that ends the chain. -/
def lastRange (w : Walk ε) : FreeRange := ⟨w.run.elim w.page.limit (·.first), w.page.limit⟩

/-- The walk that has counted the bytes in use, before it closes its chain. -/
def counted (w : Walk ε) : Walk ε :=
  { w with page := { w.page with allocatedBytes := w.live * w.page.blockBytes }, run := none }

theorem finish_eq (w : Walk ε) : w.finish = w.counted.chain w.lastRange := by
  obtain ⟨page, env, old, link, run, live, tally, queued⟩ := w
  cases run <;> rfl

theorem Built.lastRange {chained run : List Nat} (hs : 0 < size)
    (hlink : Linked size w.page.limit w.page w.link chained)
    (hrun : Running size w.page.limit w.link w.run run) (cells : Array Cell) :
    Chain cells size w.page.limit w.lastRange.first w.lastRange.last run ∧
      ∀ l ∈ w.link, l < w.lastRange.first := by
  obtain ⟨page, env, old, link, range, live, tally, queued⟩ := w
  cases range with
  | none =>
    obtain rfl : run = [] := hrun
    exact ⟨.done, fun l hl => hlink.lt hl⟩
  | some r =>
    obtain ⟨_, hbehind, n, hlast, hcell, rfl⟩ := hrun
    have hend : page.limit = r.first + size * (n + 1) := by
      rw [Nat.mul_succ]
      exact hcell.trans (by omega)
    refine ⟨?_, hbehind⟩
    simp only [Walk.lastRange, Option.elim_some, hend]
    exact Chain.tail hs (n + 1) r.first

/-- At the limit, the open link and the last run close into a chain of all that is free. -/
theorem Built.finish (hs : 0 < size) (h : w.Built size w.page.limit freed)
    (hbound : w.page.limit ≤ w.page.cells.size) :
    Chain w.finish.page.cells size w.page.limit w.finish.page.free.first w.finish.page.free.last
      freed := by
  obtain ⟨chained, run, rfl, hlink, hrun⟩ := h
  have hlast := fun cells => Built.lastRange hs hlink hrun cells
  rw [finish_eq]
  generalize w.lastRange = r at hlast ⊢
  obtain ⟨page, env, old, link, range, live, tally, queued⟩ := w
  cases link with
  | none =>
    obtain rfl : chained = [] := hlink
    exact (hlast _).1
  | some l =>
    obtain ⟨hlt, hseg⟩ := hlink
    have hin : l < page.cells.size := Nat.lt_of_lt_of_le hlt hbound
    have hseg' : Segment (page.cells.setIfInBounds l (.range r)) size l page.free.first
        page.free.last chained := hseg.congr fun c _ hne => by simp [Ne.symm hne]
    exact hseg'.close hlt (by simp [hin]) ((hlast #[]).2 l rfl) (hlast _).1

theorem Built.getElem?_finish {i : Nat} (h : w.Built size cell freed) (hi : i ∉ freed) :
    w.finish.page.cells[i]? = w.page.cells[i]? := by
  obtain ⟨chained, run, rfl, hlink, -⟩ := h
  rw [finish_eq]
  have hlink' : Linked size cell w.counted.page w.counted.link chained := by
    obtain ⟨page, env, old, link, range, live, tally, queued⟩ := w
    cases link <;> exact hlink
  exact getElem?_chain hlink' fun hmem => hi (List.mem_append_left _ hmem)

theorem live_finish (w : Walk ε) : w.finish.live = w.live := by
  obtain ⟨page, env, old, link, range, live, tally, queued⟩ := w
  cases link <;> rfl

theorem allocatedBytes_finish (w : Walk ε) :
    w.finish.page.allocatedBytes = w.live * w.page.blockBytes := by
  obtain ⟨page, env, old, link, range, live, tally, queued⟩ := w
  cases link <;> rfl

theorem same_finish (w : Walk ε) : Same w w.finish := by
  have h := same_chain w.counted w.lastRange
  rw [← finish_eq] at h
  exact ⟨h.size_eq, h.limit_eq, h.length_eq, h.env_eq, h.old_eq, h.tally_eq, h.queued_eq⟩

end Walk

variable {p : UniformPage} {free : List Nat}

/-- A sweep asks about the allocated blocks in the order of the page. It keeps those that are spared
where they are, frees the others, and finds the page empty if it spared none. -/
structure SweptTo (p : UniformPage) (hearings : List Hearing) (p' : UniformPage) : Prop where
  sound : p'.Sound (p.places.filter (· ∉ survivors hearings))
  size_eq : p'.blockSize = p.blockSize
  blocks_eq : p'.blocks.toList = survivors hearings
  kept : ∀ h ∈ hearings, h.2.spares → ∀ i < p.blockSize, p'.cells[h.1.index + i]? =
    if i = 0 ∧ h.2.unmark then some .zero else p.cells[h.1.index + i]?

/-- A part of a list without repetition is what its members filter out of the list. -/
theorem filter_mem_of_sublist {part whole : List Nat} (hsub : part.Sublist whole)
    (hnd : whole.Nodup) : whole.filter (· ∈ part) = part := by
  have hpart : part.Sublist (whole.filter (· ∈ part)) := by
    have := hsub.filter (· ∈ part)
    rwa [List.filter_eq_self.mpr (by simp)] at this
  have hlen : (whole.filter (· ∈ part)).length ≤ part.length :=
    (List.subperm_of_subset (hnd.filter _) fun x hx =>
      by simpa using (List.mem_filter.mp hx).2).length_le
  exact (hpart.eq_of_length_le hlen).symm

theorem filter_not_filter (whole part : List Nat) :
    whole.filter (· ∉ whole.filter (· ∉ part)) = whole.filter (· ∈ part) := by
  apply List.filter_congr
  intro x hx
  simp [hx]

theorem length_filter_not {whole part : List Nat} (hsub : part.Sublist whole) (hnd : whole.Nodup) :
    (whole.filter (· ∉ part)).length = whole.length - part.length := by
  have hsum := List.length_eq_length_filter_add (l := whole) (· ∈ part)
  rw [filter_mem_of_sublist hsub hnd] at hsum
  simp only [decide_not] at hsum ⊢
  omega

theorem Walk.Inv.survivors_sublist {w : Walk ε} {env : ε} {hearings : List Hearing}
    (h : Walk.Inv ask p free env p.capacity hearings w) :
    (survivors hearings).Sublist p.places := by
  refine (SweptHeap.survivors_sublist hearings).trans ?_
  rw [h.indices]
  exact List.filter_sublist

/-- The page behind the last block of a walk. -/
theorem Walk.Inv.sweptTo {w : Walk ε} {env : ε} {hearings : List Hearing} (hp : p.Sound free)
    (h : Walk.Inv ask p free env p.capacity hearings w) : p.SweptTo hearings w.finish.page := by
  have hsame := w.same_finish
  have hsub := h.survivors_sublist
  have hbuilt := h.built
  rw [hp.capacity_mul.trans h.limit_eq.symm] at hbuilt
  have hbound : w.page.limit ≤ w.page.cells.size := by
    rw [h.limit_eq, h.length_eq, hp.length_eq]
    exact hp.limit_le
  have hsize : w.finish.page.blockSize = p.blockSize := hsame.size_eq.trans h.size_eq
  have hlimit : w.finish.page.limit = p.limit := hsame.limit_eq.trans h.limit_eq
  have hcap : w.finish.page.capacity = p.capacity := by rw [capacity, capacity, hlimit, hsize]
  have hplaces : w.finish.page.places = p.places := by rw [places, places, hcap, hsize]
  -- behind its first cell a block is not written to when the chain is closed
  have hinside : ∀ c ∈ p.places, ∀ i, i < p.blockSize → (0 < i ∨ c ∈ survivors hearings) →
      w.finish.page.cells[c + i]? = w.page.cells[c + i]? := by
    intro c hc i hi hor
    refine hbuilt.getElem?_finish fun hmem => ?_
    have hzero := Walk.eq_zero_of_mem_range' (hp.mem_places.mp hc).1 hi (List.mem_filter.mp hmem).1
    rcases hor with hpos | hsurv
    · omega
    · subst hzero
      simp [hsurv] at hmem
  have hsound : w.finish.page.Sound (p.places.filter (· ∉ survivors hearings)) := by
    refine ⟨hsize ▸ hp.size_pos, hsize ▸ hp.size_le, ?_, ?_, ?_, ?_, ?_⟩
    · rw [hlimit, hsize]
      exact hp.limit_eq
    · exact (hsame.length_eq.trans h.length_eq).trans hp.length_eq
    · rw [hsize, hlimit, ← h.limit_eq]
      exact hbuilt.finish hp.size_pos hbound
    · intro c hc i hi hlt
      rw [hsize] at hlt
      obtain ⟨hplace, hdead⟩ := List.mem_filter.mp hc
      rw [hinside c hplace i hlt (.inl hi)]
      exact h.clean c hplace (by simpa using hdead) i hi hlt
    · rw [hcap, length_filter_not hsub hp.places_nodup, w.allocatedBytes_finish, h.live_eq]
      have hle := hsub.length_le
      simp only [places, List.length_range'] at hle ⊢
      have hbytes : w.finish.page.blockBytes = w.page.blockBytes := by
        rw [blockBytes, blockBytes, hsame.size_eq]
      rw [hbytes]
      congr 1
      omega
  refine ⟨hsound, hsize, ?_, ?_⟩
  · rw [hsound.toList_blocks, hplaces, filter_not_filter,
      filter_mem_of_sublist hsub hp.places_nodup]
  · intro x hx hspares i hi
    have hsurv : x.1.index ∈ survivors hearings := mem_survivors.mpr ⟨x, hx, hspares, rfl⟩
    rw [hinside _ (hsub.subset hsurv) i hi (.inr hsurv)]
    exact h.kept x hx hspares i hi

theorem Sound.sweep (hp : p.Sound free) (ask : Sight → ε → Ruling × ε) (env : ε) :
    ∃ hearings env' p', hear ask (p.blocks.toList.map (sightAt p.cells)) env = (hearings, env') ∧
      p.SweptTo hearings p' ∧
      p.sweep ask env = ⟨p', env', countFates hearings, (toFinalize hearings).toArray,
        (survivors hearings).isEmpty, none⟩ := by
  have hstart : Walk.Inv ask p free env 0 [] _ := Walk.Inv.start hp env
  obtain ⟨hearings, w, hrun, h⟩ := hstart.advance hp (Nat.zero_add p.capacity).le
  rw [Nat.zero_add] at h
  refine ⟨hearings, w.env, w.finish.page, ?_, h.sweptTo hp, ?_⟩
  · rw [hp.toList_blocks]
    exact h.heard
  · have hsame := w.same_finish
    have hqueued : w.queued = (toFinalize hearings).toArray := by
      rw [← h.queued_eq]
    rw [Nat.mul_zero] at hrun
    simp only [UniformPage.sweep, hrun, hsame.env_eq, hsame.tally_eq, hsame.queued_eq, h.tally_eq,
      hqueued, Walk.live_finish, h.live_eq]
    congr 1
    cases survivors hearings <;> rfl

end SweptHeap.UniformPage
