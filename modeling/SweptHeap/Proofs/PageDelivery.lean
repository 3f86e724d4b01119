import Mathlib
import SweptHeap.Proofs.Heap.Allocation

/-!
# A page for every request

The pages of a store are handed out, used, swept and released, in any order. Whatever happened to
them, a request that the store can serve gets a page that gives what was asked for. So whoever asks
never has to ask twice. A new page is mapped only as a last resort.
-/

namespace SweptHeap.Depot

variable {ρ : Type} {policy : Policy ρ} {k r : Request} {d d' : Depot ρ}
  {id : PageId} {ids : List PageId} {P : Page → Prop}

/-! ### Stores -/

/-- A store of pages for the requests `k` after some calls. Counts fit into words, whoever writes to
a block stays inside it, and nobody clears the mark of a block without a cell. -/
inductive Reached (k : Request) : Depot ρ → Prop
  | start (a : Arena ρ) : Reached k ⟨{}, a⟩
  | getPage (policy : Policy ρ) (epoch : Int) {d : Depot ρ} {r : Request}
      (h : Reached k d) (hr : r.Shared) (hk : r.key = k) (hh : Heeds policy d) :
      Reached k ((Depot.getPage policy r epoch).apply d).2
  | prepare {d : Depot ρ} (h : Reached k d) (hdone : d.shelf.unswept = #[]) :
      Reached k (prepare.apply d).2
  | sweep (policy : Policy ρ) (tally : Tally) {d : Depot ρ} (h : Reached k d)
      (hh : Heeds policy d) : Reached k ((Depot.sweep policy tally).apply d).2
  | releaseEmpty (keep : Nat) {d : Depot ρ} (h : Reached k d) :
      Reached k ((releaseEmpty keep).apply d).2
  | allocate {d : Depot ρ} {id : PageId} {n : Nat} (h : Reached k d)
      (hid : id ∈ d.shelf.used.toList) (hn : n + 1 < countLimit) :
      Reached k ⟨d.shelf, (d.arena.onMemory (Memory.allocate id n)).2⟩
  | enroll (record : Record) {d : Depot ρ} {id : PageId} (h : Reached k d)
      (hid : id ∈ d.shelf.used.toList) :
      Reached k ⟨d.shelf, (d.arena.onMemory (Memory.enroll id record)).2⟩
  | write (c : Cell) {d : Depot ρ} {id : PageId} {p : Page} {i j : Nat} (h : Reached k d)
      (hp : d.arena.memory.page? id = some p) (hi : i ∈ p.blocks.toList) (hj : j < p.blockCells i) :
      Reached k ⟨d.shelf, d.arena.modifyMemory (·.setCell ⟨id, i + j⟩ c)⟩
  | amend (b : BlockRef) (f : Record → Record) {d : Depot ρ} (h : Reached k d) :
      Reached k ⟨d.shelf, d.arena.modifyMemory (·.modifyRecord b f)⟩
  /-- Others use the same memory. -/
  | elsewhere {d : Depot ρ} {a : Arena ρ} (h : Reached k d)
      (hpages : ∀ id ∈ d.shelf.pages.toList, a.memory.page? id = d.arena.memory.page? id) :
      Reached k ⟨d.shelf, a⟩

theorem Kept.congr (hg : Kept P k d) (hP : Page.Lasting P) {a : Arena ρ}
    (hpages : ∀ j ∈ d.shelf.pages.toList,
      Option.Rel Page.Alike (d.arena.memory.page? j) (a.memory.page? j)) :
    Kept P k ⟨d.shelf, a⟩ := by
  refine ⟨hg.nodup, fun j hj => ?_, fun j hj p' hp' => ?_⟩
  · obtain ⟨p, hp, hkey, hpage⟩ := hg.mapped j hj
    obtain ⟨p', hp', hab⟩ := rel_alike_some (hpages j hj) hp
    exact ⟨p', hp', hab.key_eq.trans hkey, hP.alike hab hpage⟩
  · obtain ⟨p, hp, hab⟩ := rel_alike_some_right (hpages j (Shelf.mem_pages.mpr (.inl hj))) hp'
    rw [hab.blocks_eq]
    exact hg.vacant j hj p hp

/-- A page that is not listed as empty is replaced by another. -/
theorem Kept.setPage (hg : Kept P k d) (hP : Page.Lasting P) {p p' : Page} {a : Arena ρ}
    (hp : d.arena.memory.page? id = some p) (hkey : p'.key = p.key) (hp' : P p')
    (hid : id ∉ d.shelf.empty.toList)
    (hpages : ∀ j, a.memory.page? j = if j = id then some p' else d.arena.memory.page? j) :
    Kept P k ⟨d.shelf, a⟩ := by
  have hchange : Changes id d ⟨d.shelf, a⟩ := by
    refine ⟨fun j hj => ?_, fun j _ => Iff.rfl, hg.nodup, fun j _ hj => hj⟩
    rw [hpages, if_neg hj]
    exact rel_refl _
  refine hchange.kept hP hg (fun hlisted => ?_) fun hempty => absurd hempty hid
  obtain ⟨q, hq, hqkey, -⟩ := hg.mapped id hlisted
  obtain rfl : p = q := Option.some.inj (hp.symm.trans hq)
  exact ⟨p', (hpages id).trans (if_pos rfl), hkey.trans hqkey, hp'⟩

theorem Reached.kept (h : Reached k d) (hlarge : k.kind ≠ .large) : Kept Page.Whole k d := by
  have hP := Page.lasting_whole
  induction h with
  | start a => exact ⟨List.nodup_nil, by simp [Shelf.pages], by simp⟩
  | getPage policy epoch h hr hk hh ih =>
    obtain ⟨id, d', heq, hdelivers⟩ := getPage_delivers policy ih hh hr hk epoch
    rw [heq]
    exact Tidies.kept (hdelivers.tidies hr hk) hP ih
  | @prepare d h hdone ih =>
    have hprepare : Depot.prepare.apply d =
        (.ok (), ⟨{ unswept := d.shelf.ready ++ d.shelf.used ++ d.shelf.empty }, d.arena⟩) := by
      simp only [Depot.prepare, Act.apply, ExceptT.run, Shelf.prepare, hdone,
        Array.isEmpty_empty, if_true]
    have hperm := perm_prepare hdone
    rw [hprepare]
    exact ⟨hperm.nodup_iff.mpr ih.nodup, fun j hj => ih.mapped j (hperm.subset hj), by simp⟩
  | @sweep policy tally d h hh ih =>
    obtain ⟨tally', d', heq, htidies, -⟩ := sweepLeft_spec ih hh hlarge d.shelf.unswept.size tally
    rw [Depot.sweep, Act.apply_get_bind, heq]
    exact Tidies.kept htidies hP ih
  | @releaseEmpty keep d h ih =>
    obtain ⟨count, d', heq, htidies, -⟩ := releaseEmpty_spec .byMark k d keep
    rw [heq]
    exact Tidies.kept htidies hP ih
  | @allocate d id n h hid hn ih =>
    obtain ⟨p, hp, hkey, hwhole⟩ := ih.mapped id (Shelf.mem_pages.mpr (.inr (.inr (.inl hid))))
    obtain ⟨result, p', heq, hwhole', hkey', -⟩ :=
      hwhole.allocate (by rwa [← p.key_kind, hkey]) hn
    refine ih.setPage hP hp hkey' hwhole' (fun he => ih.not_used (.inr (.inl he)) hid) fun j => ?_
    change (Memory.allocate id n d.arena.memory).2.page? j = _
    rw [Memory.allocate_eq hp heq, Memory.page?_setPage (Memory.lt_of_page? hp)]
  | @enroll record d id h hid ih =>
    obtain ⟨p, hp, hkey, hwhole⟩ := ih.mapped id (Shelf.mem_pages.mpr (.inr (.inr (.inl hid))))
    obtain ⟨result, p', heq, hwhole', hkey', -⟩ := hwhole.enroll (n := 0) record
    refine ih.setPage hP hp hkey' hwhole' (fun he => ih.not_used (.inr (.inl he)) hid) fun j => ?_
    change (Memory.enroll id record d.arena.memory).2.page? j = _
    rw [Memory.enroll_eq hp heq, Memory.page?_setPage (Memory.lt_of_page? hp)]
  | @write c d id p i j h hp hi hj ih =>
    by_cases hlisted : id ∈ d.shelf.pages.toList
    · obtain ⟨q, hq, hkey, hwhole⟩ := ih.mapped id hlisted
      obtain rfl : p = q := Option.some.inj (hp.symm.trans hq)
      refine ih.setPage hP hp (p.key_modifyCells _) (hwhole.setCell hi hj c)
        (fun he => ?_) fun l => ?_
      · rw [ih.vacant id he p hp] at hi
        cases hi
      · refine (Memory.page?_modifyPage ..).trans ?_
        split_ifs with hl
        · rw [hl, hp]
          rfl
        · rfl
    · refine ih.congr hP fun l hl => ?_
      have hne : l ≠ id := fun he => hlisted (he ▸ hl)
      rw [show (d.arena.modifyMemory (·.setCell ⟨id, i + j⟩ c)).memory.page? l =
        d.arena.memory.page? l from (Memory.page?_modifyPage ..).trans (if_neg hne)]
      exact rel_refl _
  | amend b f h ih => exact ih.congr hP fun j _ => (Memory.amends_modifyRecord _ b f).pages j
  | elsewhere h hpages ih =>
    refine ih.congr hP fun j hj => ?_
    rw [hpages j hj]
    exact rel_refl _

/-! ### Where pages come from -/

/-- The pages that were swept in vain are used from then on, and a page is new only if there was no
other. -/
theorem Delivers.sources (h : Delivers policy r d id d') :
    ∃ ids d₁, Searches policy r ids d d₁ ∧ ids ⊆ d'.shelf.used.toList ∧
      (d.shelf.unswept.toList.reverse = ids ++ d'.shelf.unswept.toList.reverse ∨
        d.shelf.unswept.toList.reverse = ids ++ id :: d'.shelf.unswept.toList.reverse) ∧
      (id ∈ d.shelf.pages.toList ∧ d'.arena.memory.pages.size = d.arena.memory.pages.size ∨
        id = d.arena.memory.pages.size ∧
          d'.arena.memory.pages.size = d.arena.memory.pages.size + 1 ∧
          (∀ j ∈ d.shelf.ready.toList, d.arena.memory.hasRoom j r.cells = .ok false) ∧
          d.shelf.empty = #[] ∧ ids = d.shelf.unswept.toList.reverse) := by
  cases h with
  | @ready i id hlisted hroom =>
    have hmem : id ∈ d.shelf.ready.toList := by
      obtain ⟨hlt, rfl⟩ := Array.getElem?_eq_some_iff.mp hlisted
      simp
    exact ⟨[], d, .nil d, List.nil_subset _, .inl rfl,
      .inl ⟨Shelf.mem_pages.mpr (.inr (.inl hmem)), rfl⟩⟩
  | swept hfull hsearches hdrafts hroom =>
    obtain ⟨hunswept, hused, -, hsize⟩ := hsearches.lists
    obtain ⟨hunswept', hused', -, hsize'⟩ := hdrafts.lists
    rw [hunswept'] at hunswept
    refine ⟨_, _, hsearches, ?_, .inr hunswept, .inl ⟨?_, hsize'.trans hsize⟩⟩
    · rw [hused', hused]
      exact List.Subset.trans (List.subset_append_right _ _) (List.subset_append_left _ _)
    · have hmem : id ∈ d.shelf.unswept.toList.reverse := by simp [hunswept]
      exact Shelf.mem_pages.mpr (.inr (.inr (.inr (List.mem_reverse.mp hmem))))
  | @empty d₁ ids rest id hfull hsearches hdone hlisted =>
    obtain ⟨hunswept, hused, hempty, hsize⟩ := hsearches.lists
    refine ⟨ids, d₁, hsearches, ?_, .inl hunswept, .inl ⟨Shelf.mem_pages.mpr (.inl ?_), hsize⟩⟩
    · rw [Array.toList_push, hused]
      exact List.Subset.trans (List.subset_append_right _ _) (List.subset_append_left _ _)
    · rw [← hempty, hlisted]
      simp
  | @new d₁ ids p a hfull hsearches hdone hnone hcreated hpages hmemo hmeter hfound =>
    obtain ⟨hunswept, hused, hempty, hsize⟩ := hsearches.lists
    refine ⟨ids, d₁, hsearches, ?_, .inl hunswept,
      .inr ⟨hsize, ?_, hfull, hempty.symm.trans hnone, ?_⟩⟩
    · rw [Shelf.addUsed, Array.toList_push, hused]
      exact List.Subset.trans (List.subset_append_right _ _) (List.subset_append_left _ _)
    · rw [hpages, Array.size_push, hsize]
    · simpa [hdone] using hunswept.symm

/-! ### Whoever asks -/

/-- A page that gives what was asked for ends the search for one. -/
theorem refill_eq {h : Heap ρ} {take : PageId → Memory → Except Fault (Option BlockRef) × Memory}
    {b : BlockRef} {m : Memory} (hr : r.Shared)
    (heq : (getPage policy r h.epoch).apply (h.depot r) = (.ok id, d))
    (htake : take id d.arena.memory = (.ok (some b), m)) (a : Allocator) :
    ∃ desk, ∀ attempts, (Allocator.refill policy r take (attempts + 1)).apply ⟨h, a⟩ =
      (.ok b, desk) := by
  have hmemory : (Allocator.flushed (h.setDepot r d)).arena.memory = d.arena.memory := by
    rw [Allocator.flushed, Heap.setDepot_arena]
  obtain ⟨desk, htaken⟩ : ∃ desk, (Allocator.onMemory (take id)).apply
      ⟨Allocator.flushed (h.setDepot r d), Allocator.cache r id a⟩ = (.ok (some b), desk) :=
    ⟨_, by rw [Allocator.apply_onMemory, hmemory, htake]⟩
  refine ⟨desk, fun attempts => ?_⟩
  rw [Allocator.refill, Act.apply_bind_ok (Allocator.apply_onHeap (Heap.apply_getPage hr heq)),
    Act.apply_bind_ok Allocator.flush_eq, Act.apply_bind_ok (Allocator.apply_modifySelf _),
    Act.apply_bind_ok htaken]
  rfl

/-- A store gives a page for every request that it can serve. The page is used now and gives what is
asked for, at the first attempt. The pages that were swept on the way without finding room are used
now as well, and a new page is mapped only if no ready page has room, none is empty, and all that
waited were swept in vain. -/
theorem Reached.served (hd : Reached k d) (hr : r.Shared) (hk : r.key = k) (policy : Policy ρ)
    (hh : Heeds policy d) (epoch : Int) (record : Record) :
    ∃ id d', (Depot.getPage policy r epoch).apply d = (.ok id, d') ∧ id ∈ d'.shelf.used.toList ∧
      (∃ i m, r.take record id d'.arena.memory = (.ok (some ⟨id, i⟩), m)) ∧
      (∃ ids d₁, Searches policy r ids d d₁ ∧ ids ⊆ d'.shelf.used.toList ∧
        (d.shelf.unswept.toList.reverse = ids ++ d'.shelf.unswept.toList.reverse ∨
          d.shelf.unswept.toList.reverse = ids ++ id :: d'.shelf.unswept.toList.reverse) ∧
        (id ∈ d.shelf.pages.toList ∧ d'.arena.memory.pages.size = d.arena.memory.pages.size ∨
          id = d.arena.memory.pages.size ∧
            d'.arena.memory.pages.size = d.arena.memory.pages.size + 1 ∧
            (∀ j ∈ d.shelf.ready.toList, d.arena.memory.hasRoom j r.cells = .ok false) ∧
            d.shelf.empty = #[] ∧ ids = d.shelf.unswept.toList.reverse)) ∧
      ∀ (h : Heap ρ) (a : Allocator), h.depot r = d → (h.epoch : Int) = epoch →
        ∃ i desk, ∀ attempts,
          (Allocator.refill policy r (r.take record) (attempts + 1)).apply ⟨h, a⟩ =
          (.ok ⟨id, i⟩, desk) := by
  have hg := hd.kept (hr.key_kind_ne hk)
  obtain ⟨id, d', heq, hdelivers⟩ := getPage_delivers policy hg hh hr hk epoch
  have hg' := Tidies.kept (hdelivers.tidies hr hk) Page.lasting_whole hg
  obtain ⟨hused, p, hp, hroom⟩ := hdelivers.offers hg hr hk
  obtain ⟨q, hq, hkey, hwhole⟩ := hg'.mapped id (Shelf.mem_pages.mpr (.inr (.inr (.inl hused))))
  obtain rfl : p = q := Option.some.inj (hp.symm.trans hq)
  obtain ⟨i, p', htake⟩ := hwhole.take hp hr (hkey.trans hk.symm) hroom record
  refine ⟨id, d', heq, hused, ⟨i, _, htake⟩, hdelivers.sources, fun h a hdepot hepoch => ⟨i, ?_⟩⟩
  subst hdepot hepoch
  exact refill_eq hr heq htake a

/-- Lets everything live and clears no mark. -/
def sparing : Policy Unit := ⟨fun _ m => (⟨.live, false, .none⟩, m), fun _ _ m => (.live, m), .none⟩

theorem heeds_sparing (d : Depot Unit) : Heeds sparing d := by
  intro id _ p _
  cases p with
  | tiled q => exact fun _ _ _ _ _ _ => rfl
  | _ => trivial

/-- A store with one tiled page, which is used. -/
def opened : Depot Unit := ((getPage sparing ⟨.tiled, 0⟩ 0).apply ⟨{}, { memo := () }⟩).2

/-- The page holds a block without a cell and waits for the sweep. -/
def closed : Depot Unit :=
  (prepare.apply ⟨opened.shelf, (opened.arena.onMemory (Memory.allocate 0 0)).2⟩).2

theorem reached_closed : Reached ⟨.tiled, 0⟩ closed := by
  have hopened : Reached ⟨.tiled, 0⟩ opened :=
    .getPage sparing 0 (.start _) (Nat.zero_le _) rfl (heeds_sparing _)
  have hused : 0 ∈ opened.shelf.used.toList := by decide
  exact .prepare (hopened.allocate hused (by decide)) rfl

/-- The largest request finds a page although the only one has to be swept first and keeps its
block. -/
theorem Reached.served_closed : closed.shelf = { unswept := #[0] } ∧
    Request.Shared ⟨.tiled, largestTiled⟩ ∧ Reached ⟨.tiled, 0⟩ closed ∧ Heeds sparing closed ∧
    ∃ id d', (Depot.getPage sparing ⟨.tiled, largestTiled⟩ 1).apply closed = (.ok id, d') ∧
      id ∈ d'.shelf.used.toList ∧ (id = 0 ∨ id = 1) ∧
      ∃ i m, Memory.allocate id largestTiled d'.arena.memory = (.ok (some ⟨id, i⟩), m) := by
  have hr : Request.Shared ⟨.tiled, largestTiled⟩ := Nat.le_refl _
  have hshelf : closed.shelf = { unswept := #[0] } := by decide
  have hsize : closed.arena.memory.pages.size = 1 := by decide +kernel
  obtain ⟨id, d', heq, hused, ⟨i, m, htake⟩, ⟨ids, d₁, -, -, -, hsource⟩, -⟩ :=
    reached_closed.served hr rfl sparing (heeds_sparing _) 1 ⟨none, .none⟩
  refine ⟨hshelf, hr, reached_closed, heeds_sparing _, id, d', heq, hused, ?_, i, m, htake⟩
  rcases hsource with ⟨hlisted, -⟩ | ⟨hnew, -⟩
  · rw [hshelf] at hlisted
    exact .inl (by simpa [Shelf.pages] using hlisted)
  · exact .inr (hnew.trans hsize)

end SweptHeap.Depot
