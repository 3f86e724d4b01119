import Mathlib
import SweptHeap.Proofs.Heap.Totals

/-!
# Operations of a sound heap

Every operation of a sound heap ends well and amounts to housekeeping, apart from the start of a
cycle, which hands all pages to the sweep.
-/

namespace SweptHeap

namespace Heap

variable {ρ : Type} {policy : Policy ρ} {h h' h'' : Heap ρ} {k r : Request} {id : PageId} {p : Page}

/-! ### What housekeeping leaves alone -/

theorem Tidy.lists (ht : Tidy policy h h') (hsize : h.uniform.size = largestUniform + 1)
    (hk : k ∈ allRequests) :
    (h'.shelf k).unswept.toList ⊆ (h.shelf k).unswept.toList ∧
      (h.shelf k).used.toList ⊆ (h'.shelf k).used.toList := by
  cases ht with
  | @shelf k' d hk' hstep =>
    rw [shelf_setDepot hsize hk' hk]
    split_ifs with he
    · rw [he]
      exact ⟨hstep.unswept_subset, hstep.used_subset⟩
    · exact ⟨List.Subset.refl _, List.Subset.refl _⟩
  | keep => exact ⟨List.Subset.refl _, List.Subset.refl _⟩
  | flush => exact ⟨List.Subset.refl _, List.Subset.refl _⟩
  | idle => exact ⟨List.Subset.refl _, List.Subset.refl _⟩

theorem Tidy.epoch_eq (ht : Tidy policy h h') : h'.epoch = h.epoch := by
  cases ht <;> simp [setPage]

theorem Tidies.epoch_eq (ht : Tidies policy h h') : h'.epoch = h.epoch := by
  induction ht with
  | refl => rfl
  | tail _ hstep ih => exact hstep.epoch_eq.trans ih

theorem Tidies.lists (ht : Tidies policy h h') (hs : h.Sound) (hk : k ∈ allRequests) :
    (h'.shelf k).unswept.toList ⊆ (h.shelf k).unswept.toList ∧
      (h.shelf k).used.toList ⊆ (h'.shelf k).used.toList := by
  induction ht with
  | refl => exact ⟨List.Subset.refl _, List.Subset.refl _⟩
  | tail hts hstep ih =>
    have hone := hstep.lists (Tidies.sound hts hs).size_eq hk
    exact ⟨List.Subset.trans hone.1 ih.1, List.Subset.trans ih.2 hone.2⟩

/-! ### Shelves at work -/

theorem setDepot_setDepot (d d' : Depot ρ) : (h.setDepot k d).setDepot k d' = h.setDepot k d' := by
  obtain ⟨kind, cells⟩ := k
  cases kind <;> simp [setDepot]

theorem setDepot_depot (h : Heap ρ) (k : Request) : h.setDepot k (h.depot k) = h := by
  obtain ⟨kind, cells⟩ := k
  cases kind with
  | uniform =>
    simp only [setDepot, depot, shelf]
    have huniform : h.uniform.setIfInBounds cells (h.uniform.getD cells {}) = h.uniform := by
      refine Array.ext_getElem? fun i => ?_
      rw [Array.getElem?_setIfInBounds]
      split_ifs with hi hlt
      · subst hi
        simp [Array.getElem?_eq_getElem hlt]
      · subst hi
        exact (Array.getElem?_eq_none (Nat.not_lt.mp hlt)).symm
      · rfl
    rw [huniform]
  | tiled => rfl
  | large => rfl
  | records => rfl

theorem Tidies.of_depot (hsize : h.uniform.size = largestUniform + 1) (hk : k ∈ allRequests)
    {d : Depot ρ} (ht : Depot.Tidies policy k (h.depot k) d) :
    Tidies policy h (h.setDepot k d) := by
  induction ht with
  | refl =>
    rw [setDepot_depot]
  | @tail b c _ hstep ih =>
    refine ih.tail ?_
    rw [← setDepot_setDepot (h := h) (k := k) b c]
    refine .shelf hk ?_
    rwa [depot_setDepot hsize hk]

/-- A page with room for the request that allocators may use. -/
def Offers (h : Heap ρ) (r : Request) (id : PageId) : Prop :=
  id ∈ (h.shelf r).used.toList ∧
    ∃ p, h.arena.memory.page? id = some p ∧ p.hasRoom r.cells = .ok true

/-- No allocator uses the page. -/
def Unused (h : Heap ρ) (id : PageId) : Prop := ∀ k ∈ allRequests, id ∉ (h.shelf k).used.toList

/-- The heap looks for a page on the shelf of the request. -/
theorem apply_getPage (hr : r.Shared) {result : Except Fault PageId} {d : Depot ρ}
    (heq : (Depot.getPage policy r h.epoch).apply (h.depot r) = (result, d)) :
    (getPage policy r).apply h = (result, h.setDepot r d) := by
  have hrequest : ¬(r.kind = .uniform ∧ ¬(0 < r.cells ∧ r.cells ≤ largestUniform)) := by
    rintro ⟨hkind, hcells⟩
    obtain ⟨kind, cells⟩ := r
    obtain rfl : kind = .uniform := hkind
    exact hcells hr
  rw [getPage, if_neg hrequest]
  dsimp only
  rw [Act.apply_get_bind, apply_atShelf heq]

theorem getPage_spec (policy : Policy ρ) (hs : h.Sound) (hr : r.Valid) (hlarge : r.kind ≠ .large) :
    ∃ id h', (getPage policy r).apply h = (.ok id, h') ∧ Tidies policy h h' ∧ h'.Offers r id ∧
      h.Spares r.key h' ∧ h.Unused id ∧ (r.kind ≠ .records → h.Charges h') ∧
      ∃ d, Depot.Delivers policy r (h.depot r.key) id d ∧ h' = h.setDepot r.key d := by
  have hk := key_mem_of_valid hr
  have hdepot : h.depot r = h.depot r.key := by rw [depot, depot, shelf_key]
  obtain ⟨id, d, heq, htidies, hcharges, ⟨hused, hoffers⟩, hunused, hdelivers⟩ :=
    Depot.getPage_spec policy (hs.good _ hk) hr rfl (by rwa [Request.key_kind]) h.epoch
  have hframe := Depot.Tidies.frame htidies (hs.good _ hk)
  have hother {j : PageId} {p : Page} (hp : h.arena.memory.page? j = some p) (hne : p.key ≠ r.key) :
      j ∉ (h.shelf r.key).pages.toList := fun hj => by
    obtain ⟨q, hq, hqkey, -⟩ := hs.key_of_mem hk hj
    exact hne (by rwa [Option.some.inj (hp.symm.trans hq)])
  refine ⟨id, h.setDepot r.key d, ?_, .of_depot hs.size_eq hk htidies, ⟨?_, ?_⟩,
    spares_setDepot hs hk hframe, fun k hk' hid => ?_, fun hkind => ?_, d, hdelivers, rfl⟩
  · rw [← hdepot] at heq
    rw [setDepot_key, apply_getPage (hr.shared hlarge) heq]
  · rw [← shelf_key, shelf_setDepot hs.size_eq hk hk, if_pos rfl]
    exact hused
  · rw [setDepot_arena]
    exact hoffers
  · by_cases hkey : k = r.key
    · exact hunused (hkey ▸ hid)
    · -- A page that is used elsewhere stays off this shelf.
      obtain ⟨p, hp, hpkey, -⟩ := hs.key_of_mem hk' (Shelf.mem_pages.mpr (.inr (.inr (.inl hid))))
      exact (hframe.others id p (hother hp (hpkey ▸ hkey)) hp).1
        (Shelf.mem_pages.mpr (.inr (.inr (.inl hused))))
  · exact .of_depot hs (mem_blockRequests.mpr ⟨hk, r.key_kind.symm ▸ hkind⟩) htidies hcharges

theorem newLarge_spec (policy : Policy ρ) (hs : h.Sound) {n : Nat} (hn : largestTiled < n) :
    ∃ id p h', Page.create ⟨.large, n⟩ = .ok p ∧ (newLarge n).apply h = (.ok id, h') ∧
      Tidies policy h h' ∧ id ∈ (h'.shelf ⟨.large, 0⟩).used.toList ∧
      h'.arena.memory.page? id = some p ∧ h'.arena.found = h.arena.found ∧ h.Charges h' := by
  have hr : Request.Valid ⟨.large, n⟩ := hn
  have hk : (⟨.large, 0⟩ : Request) ∈ allRequests := key_mem_of_valid hr
  obtain ⟨p, a, hp, heq, hpage, htidy, hcharges, hfound⟩ :=
    Depot.newPage_spec policy (hs.good _ hk) hr rfl
  have hcharges' :=
    Charges.of_depot hs (mem_blockRequests.mpr ⟨hk, by simp⟩) (.single htidy) hcharges
  refine ⟨_, p, _, hp, apply_atShelf heq, .of_depot hs.size_eq hk (.single htidy), ?_, ?_, hfound,
    hcharges'⟩
  · change _ ∈ ((h.shelf ⟨.large, 0⟩).addUsed _).used.toList
    simp [Shelf.addUsed]
  · rw [setDepot_arena]
    exact hpage

/-! ### Sweeps -/

theorem apply_onArena {α : Type} (f : Arena ρ → α × Arena ρ) (h : Heap ρ) :
    (onArena f).apply h = (.ok (f h.arena).1, { h with arena := (f h.arena).2 }) := rfl

theorem apply_modifyArena (f : Arena ρ → Arena ρ) (h : Heap ρ) :
    (modifyArena f).apply h = (.ok (), { h with arena := f h.arena }) := rfl

/-- Once a shelf has no unswept page, housekeeping gives it none. -/
theorem Tidies.unswept_eq_empty (ht : Tidies policy h h') (hs : h.Sound) (hk : k ∈ allRequests)
    (hempty : (h.shelf k).unswept = #[]) : (h'.shelf k).unswept = #[] := by
  have hsub := (Tidies.lists ht hs hk).1
  rw [hempty] at hsub
  exact Array.toList_eq_nil_iff.mp (List.eq_nil_of_subset_nil hsub)

theorem sweepShelves_spec (policy : Policy ρ) {requests : List Request} (hs : h.Sound)
    (hr : ∀ k ∈ requests, k ∈ blockRequests ∧ k.kind ≠ .large) (tally : Tally) :
    ∃ tally' h', (sweepShelves policy requests tally).apply h = (.ok tally', h') ∧
      Tidies policy h h' ∧ Tallies tally tally' h h' ∧
      ∀ k ∈ requests, (h'.shelf k).unswept = #[] := by
  induction requests generalizing h tally with
  | nil => exact ⟨tally, h, rfl, .refl, .refl tally h, by simp⟩
  | cons k rest ih =>
    obtain ⟨hblock, hlarge⟩ := hr k List.mem_cons_self
    have hk := (mem_blockRequests.mp hblock).1
    obtain ⟨tally₁, d, heq, htidies, htallies, hdone⟩ :=
      Depot.sweep_spec policy (hs.good k hk) hlarge tally
    have htidies₁ : Tidies policy h (h.setDepot k d) := .of_depot hs.size_eq hk htidies
    have hs₁ := Tidies.sound htidies₁ hs
    obtain ⟨tally₂, h₂, heq₂, htidies₂, htallies₂, hdone₂⟩ :=
      ih hs₁ (fun k' hk' => hr k' (List.mem_cons_of_mem _ hk')) tally₁
    refine ⟨tally₂, h₂, ?_, htidies₁.trans htidies₂,
      (Tallies.of_depot hs hblock htidies htallies).trans htallies₂, fun k' hk' => ?_⟩
    · rw [sweepShelves, Act.apply_bind_ok (apply_atShelf heq), heq₂]
    · rcases List.mem_cons.mp hk' with rfl | hk'
      · refine Tidies.unswept_eq_empty htidies₂ hs₁ hk ?_
        rw [shelf_setDepot hs.size_eq hk hk, if_pos rfl, hdone]
      · exact hdone₂ k' hk'

theorem mem_of_uniform (hk : k ∈ uniformRequests) : k ∈ blockRequests ∧ k.kind ≠ .large := by
  refine ⟨List.mem_append_left _ hk, ?_⟩
  obtain ⟨n, -, rfl⟩ := List.mem_map.mp hk
  simp

/-- A sweep leaves no page waiting, and the meter has counted what it kept. -/
theorem sweep_charges (policy : Policy ρ) (hs : h.Sound) (epoch : Int) :
    ∃ h', (sweep policy epoch).apply h =
        (.ok h'.arena.found, { h' with arena := { h'.arena with found := {} } }) ∧
      Tidies policy h h' ∧ (∀ k ∈ allRequests, (h'.shelf k).unswept = #[]) ∧ h.Charges h' := by
  have hsmall : ∀ k ∈ uniformRequests ++ [(⟨.tiled, 0⟩ : Request)],
      k ∈ blockRequests ∧ k.kind ≠ .large := by
    intro k hk
    rcases List.mem_append.mp hk with hk | hk
    · exact mem_of_uniform hk
    · obtain rfl := List.mem_singleton.mp hk
      exact ⟨by simp [blockRequests], by simp⟩
  have hlarge : (⟨.large, 0⟩ : Request) ∈ allRequests :=
    mem_allRequests.mpr (.inr (.inr (.inl rfl)))
  have hrecords : (⟨.records, 0⟩ : Request) ∈ allRequests :=
    mem_allRequests.mpr (.inr (.inr (.inr rfl)))
  obtain ⟨tally₁, h₁, heq₁, ht₁, htallies₁, hdone₁⟩ := sweepShelves_spec policy hs hsmall {}
  have hs₁ := Tidies.sound ht₁ hs
  obtain ⟨tally₂, d₂, heq₂, ht₂, htallies₂, hdone₂⟩ :=
    Depot.sweepAndFree_spec policy (hs₁.good _ hlarge) .large tally₁
  have htidies₂ : Tidies policy h₁ (h₁.setDepot ⟨.large, 0⟩ d₂) := .of_depot hs₁.size_eq hlarge ht₂
  -- The bytes that survive are counted and reported before the records are swept.
  obtain ⟨h₃, hh₃⟩ : ∃ h₃ : Heap ρ, h₃ = { h₁.setDepot ⟨.large, 0⟩ d₂ with
      arena := ((d₂.arena.addBytes tally₂.liveBytes).2.reportSweep epoch .objects tally₂) } :=
        ⟨_, rfl⟩
  have htidies₃ : Tidies policy (h₁.setDepot ⟨.large, 0⟩ d₂) h₃ := by
    rw [hh₃]
    exact .single (.idle (by rw [setDepot_arena]; exact ⟨rfl, rfl, rfl⟩))
  have hcharges₃ : h.Charges h₃ := by
    have hblock : (⟨.large, 0⟩ : Request) ∈ blockRequests := mem_blockRequests.mpr ⟨hlarge, by simp⟩
    rw [hh₃]
    refine (htallies₁.trans (.of_depot hs₁ hblock ht₂ htallies₂)).charges ?_ ?_ <;>
      · rw [setDepot_arena]
        rfl
  have hs₂ := Tidies.sound htidies₂ hs₁
  have hs₃ := Tidies.sound htidies₃ hs₂
  obtain ⟨tally₄, d₄, heq₄, ht₄, htallies₄, hdone₄⟩ :=
    Depot.sweep_spec policy (hs₃.good _ hrecords) (by simp) {}
  have htidies₄ : Tidies policy h₃ (h₃.setDepot ⟨.records, 0⟩ d₄) :=
    .of_depot hs₃.size_eq hrecords ht₄
  have hs₄ := Tidies.sound htidies₄ hs₃
  refine ⟨{ h₃.setDepot ⟨.records, 0⟩ d₄ with arena := d₄.arena.reportSweep epoch .records tally₄ },
    ?_, ((ht₁.trans htidies₂).trans (htidies₃.trans htidies₄)).tail (.idle ?_), fun k hk => ?_,
    hcharges₃.trans (.of_eq htallies₄.meter_eq ?_)⟩
  · rw [sweep, Act.apply_bind_ok heq₁, Act.apply_bind_ok (apply_atShelf heq₂),
      Act.apply_bind_ok (apply_onArena _ _), Act.apply_bind_ok (apply_modifyArena _ _)]
    dsimp only
    rw [setDepot_arena, ← hh₃, Act.apply_bind_ok (apply_atShelf heq₄),
      Act.apply_bind_ok (apply_modifyArena _ _), setDepot_arena]
    rfl
  · rw [setDepot_arena]
    exact ⟨rfl, rfl, rfl⟩
  · change ((h₃.setDepot ⟨.records, 0⟩ d₄).shelf k).unswept = #[]
    -- What was emptied by a sweep stays empty during the later ones.
    have hlater := htidies₃.trans htidies₄
    rcases List.mem_append.mp hk with hk' | hk'
    · exact Tidies.unswept_eq_empty (htidies₂.trans hlater) hs₁ hk
        (hdone₁ k (List.mem_append_left _ hk'))
    · rcases List.mem_cons.mp hk' with rfl | hk'
      · exact Tidies.unswept_eq_empty (htidies₂.trans hlater) hs₁ hk (hdone₁ _ (by simp))
      · rcases List.mem_cons.mp hk' with rfl | hk'
        · refine Tidies.unswept_eq_empty hlater hs₂ hk ?_
          rw [shelf_setDepot hs₁.size_eq hlarge hlarge, if_pos rfl, hdone₂]
        · obtain rfl := List.mem_singleton.mp hk'
          rw [shelf_setDepot hs₃.size_eq hrecords hrecords, if_pos rfl, hdone₄]
  · -- Records count for nothing.
    have hframe := Depot.Tidies.frame ht₄ (hs₃.good _ hrecords)
    have hbytes := (spares_setDepot hs₃ hrecords hframe).bytes_eq hs₃ rfl
      fun r hr hne => by rw [shelf_setDepot hs₃.size_eq hrecords hr, if_neg hne]
    refine Eq.trans (b := (h₃.setDepot ⟨.records, 0⟩ d₄).bytes)
      (bytes_same (fun _ _ => rfl) ?_) hbytes
    rw [setDepot_arena]
    rfl

theorem sweep_spec (policy : Policy ρ) (hs : h.Sound) (epoch : Int) :
    ∃ h', (sweep policy epoch).apply h =
        (.ok h'.arena.found, { h' with arena := { h'.arena with found := {} } }) ∧
      Tidies policy h h' ∧ ∀ k ∈ allRequests, (h'.shelf k).unswept = #[] := by
  obtain ⟨h', heq, htidies, hdone, -⟩ := sweep_charges policy hs epoch
  exact ⟨h', heq, htidies, hdone⟩

theorem assist_spec (policy : Policy ρ) (hs : h.Sound) (epoch : Int) :
    ∃ h', (assist policy epoch).apply h =
        (.ok h'.arena.found, { h' with arena := { h'.arena with found := {} } }) ∧
      Tidies policy h h' ∧ h.Charges h' := by
  obtain ⟨tally, h₁, heq, htidies, htallies, -⟩ := sweepShelves_spec policy hs
    (fun k (hk : k ∈ uniformRequests.reverse) => mem_of_uniform (List.mem_reverse.mp hk)) {}
  refine ⟨{ h₁ with
    arena := (h₁.arena.addBytes tally.liveBytes).2.reportSweep epoch .assist tally },
    ?_, htidies.tail (.idle ⟨rfl, rfl, rfl⟩), htallies.charges rfl rfl⟩
  rw [assist, Act.apply_bind_ok heq, Act.apply_bind_ok (apply_onArena _ _),
    Act.apply_bind_ok (apply_modifyArena _ _)]
  rfl

theorem releaseEach_spec (policy : Policy ρ) {requests : List Request} (hs : h.Sound)
    (hr : ∀ k ∈ requests, k ∈ allRequests) (keep : Nat) :
    ∃ counts h', Act.apply (requests.mapM fun r => atShelf r (Depot.releaseEmpty keep)) h =
        (.ok counts, h') ∧ Tidies policy h h' ∧ h'.arena.found = h.arena.found ∧ h.Charges h' := by
  induction requests generalizing h with
  | nil => exact ⟨[], h, rfl, .refl, rfl, .refl h⟩
  | cons k rest ih =>
    have hk := hr k List.mem_cons_self
    obtain ⟨count, d, heq, htidies, hcharges, hfound, hmeter⟩ :=
      Depot.releaseEmpty_spec policy k (h.depot k) keep
    have htidies₁ : Tidies policy h (h.setDepot k d) := .of_depot hs.size_eq hk htidies
    have hcharges₁ : h.Charges (h.setDepot k d) := by
      by_cases hkind : k.kind = .records
      · have hframe := Depot.Tidies.frame htidies (hs.good k hk)
        refine .of_eq (by rwa [setDepot_arena])
          ((spares_setDepot hs hk hframe).bytes_eq hs hkind ?_)
        exact fun r hr hne => by rw [shelf_setDepot hs.size_eq hk hr, if_neg hne]
      · exact .of_depot hs (mem_blockRequests.mpr ⟨hk, hkind⟩) htidies (hcharges (hs.good k hk))
    obtain ⟨counts, h₂, heq₂, htidies₂, hfound₂, hcharges₂⟩ :=
      ih (Tidies.sound htidies₁ hs) fun k' hk' => hr k' (List.mem_cons_of_mem _ hk')
    refine ⟨count :: counts, h₂, ?_, htidies₁.trans htidies₂, ?_, hcharges₁.trans hcharges₂⟩
    · rw [List.mapM_cons, Act.apply_bind_ok (apply_atShelf heq), Act.apply_bind_ok heq₂]
      rfl
    · rw [hfound₂, setDepot_arena]
      exact hfound

theorem release_spec (policy : Policy ρ) (hs : h.Sound) (keep : Nat) :
    ∃ released h', (release keep).apply h = (.ok released, h') ∧ Tidies policy h h' ∧
      h'.arena.found = h.arena.found ∧ h.Charges h' := by
  have hmem : ∀ k ∈ retainingRequests, k ∈ allRequests := by
    intro k hk
    simp only [retainingRequests, allRequests, List.mem_append, List.mem_cons] at hk ⊢
    tauto
  obtain ⟨counts, h₁, heq, htidies, hfound, hcharges⟩ := releaseEach_spec policy hs hmem keep
  rw [release, Act.apply_bind_ok heq]
  dsimp only
  split_ifs
  · rw [Act.apply_bind_ok (apply_modifyArena _ _)]
    exact ⟨_, _, rfl, htidies.tail (.idle ⟨rfl, rfl, rfl⟩), hfound,
      hcharges.trans (.of_eq rfl (bytes_same (fun _ _ => rfl) rfl))⟩
  · exact ⟨_, _, rfl, htidies, hfound, hcharges⟩

/-! ### The start of a cycle -/

/-- Every page waits for the sweep, and the pages are as they were. -/
structure Prepared (h h' : Heap ρ) : Prop where
  size_eq : h'.uniform.size = h.uniform.size
  shelf_eq : ∀ k ∈ allRequests, h'.shelf k =
    { unswept := (h.shelf k).ready ++ (h.shelf k).used ++ (h.shelf k).empty }
  same : Arena.Same h.arena h'.arena
  allocated_eq : h'.allocatedBytes = 0
  pending_eq : h'.pending = h.pending
  epoch_eq : h'.epoch = h.epoch + 1

theorem prepareEach_spec {requests : List Request} (hsize : h.uniform.size = largestUniform + 1)
    (hr : ∀ k ∈ requests, k ∈ allRequests) (hnodup : requests.Nodup)
    (hempty : ∀ k ∈ requests, (h.shelf k).unswept = #[]) :
    ∃ h', Act.apply (requests.forM fun r => atShelf r Depot.prepare) h = (.ok (), h') ∧
      h'.uniform.size = h.uniform.size ∧ h'.arena = h.arena ∧ h'.pending = h.pending ∧
      h'.epoch = h.epoch ∧ ∀ k ∈ allRequests, h'.shelf k = if k ∈ requests then
        { unswept := (h.shelf k).ready ++ (h.shelf k).used ++ (h.shelf k).empty }
        else h.shelf k := by
  induction requests generalizing h with
  | nil => exact ⟨h, rfl, rfl, rfl, rfl, rfl, by simp⟩
  | cons r rest ih =>
    have hmem := hr r List.mem_cons_self
    obtain ⟨hnot, hrest⟩ := List.nodup_cons.mp hnodup
    have heq : Depot.prepare.apply (h.depot r) = (.ok (), ⟨{ unswept := (h.shelf r).ready ++
        (h.shelf r).used ++ (h.shelf r).empty }, h.arena⟩) := by
      simp only [Act.apply, ExceptT.run, Depot.prepare, depot, Shelf.prepare,
        hempty r List.mem_cons_self]
      rfl
    have hshelf (k : Request) (hk : k ∈ allRequests) := shelf_setDepot hsize hmem hk
      ⟨{ unswept := (h.shelf r).ready ++ (h.shelf r).used ++ (h.shelf r).empty }, h.arena⟩
    obtain ⟨h₂, heq₂, hsize₂, harena₂, hpending₂, hepoch₂, hshelf₂⟩ := ih
      ((size_setDepot _).trans hsize) (fun k hk => hr k (List.mem_cons_of_mem _ hk)) hrest
      (fun k hk => by
        have hne : k ≠ r := fun he => hnot (he ▸ hk)
        rw [hshelf k (hr k (List.mem_cons_of_mem _ hk)), if_neg hne]
        exact hempty k (List.mem_cons_of_mem _ hk))
    refine ⟨h₂, ?_, hsize₂.trans (size_setDepot _), harena₂.trans (setDepot_arena _),
      hpending₂.trans (setDepot_pending _), hepoch₂.trans (setDepot_epoch _), fun k hk => ?_⟩
    · rw [List.forM, Act.apply_bind_ok (apply_atShelf heq), heq₂]
    · rw [hshelf₂ k hk, hshelf k hk]
      by_cases hkr : k = r
      · subst hkr
        simp [hnot]
      · simp [hkr]

theorem allRequests_nodup : allRequests.Nodup := by decide +kernel

theorem prepare_spec (hs : h.Sound) (hempty : ∀ k ∈ allRequests, (h.shelf k).unswept = #[]) :
    ∃ h', prepare.apply h = (.ok (), h') ∧ Prepared h h' := by
  obtain ⟨h₁, heq, hsize, harena, hpending, hepoch, hshelf⟩ :=
    prepareEach_spec (h := { h with epoch := h.epoch + 1 }) hs.size_eq (fun k hk => hk)
      allRequests_nodup hempty
  refine ⟨{ h₁ with
    arena := Arena.report (.prepared h₁.epoch) { h₁.arena with meter := h₁.arena.meter.reset } },
    ?_, hsize, fun k hk => ?_, ?_, rfl, hpending, hepoch⟩
  · rw [prepare, Act.apply_bind_ok (Act.apply_modify _), Act.apply_bind_ok heq,
      Act.apply_bind_ok (apply_modifyArena _ _), Act.apply_get_bind]
    rfl
  · exact (hshelf k hk).trans (if_pos hk)
  · rw [show h₁.arena = h.arena from harena]
    exact ⟨rfl, rfl, rfl⟩

theorem Prepared.sound (hp : Prepared h h') (hs : h.Sound)
    (hempty : ∀ k ∈ allRequests, (h.shelf k).unswept = #[]) : h'.Sound := by
  have hperm : ∀ k ∈ allRequests, (h'.shelf k).pages.toList.Perm (h.shelf k).pages.toList := by
    intro k hk
    rw [hp.shelf_eq k hk]
    exact Depot.perm_prepare (hempty k hk)
  refine ⟨hp.size_eq.trans hs.size_eq, fun k hk => ?_, fun id p hpage => ?_⟩
  · have hg := hs.good k hk
    refine ⟨(hperm k hk).nodup_iff.mpr hg.nodup, fun id hid => ?_, fun id hid => ?_⟩
    · rw [show (h'.depot k).arena = h'.arena from rfl, hp.same.page?]
      exact hg.mapped id ((hperm k hk).subset hid)
    · change id ∈ (h'.shelf k).empty.toList at hid
      rw [hp.shelf_eq k hk] at hid
      simp at hid
  · rw [hp.same.page?] at hpage
    obtain ⟨hkey, hmem⟩ := hs.placed id p hpage
    exact ⟨hkey, (hperm _ hkey).symm.subset hmem⟩

end Heap

end SweptHeap
