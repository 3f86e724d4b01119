import Mathlib
import SweptHeap.Proofs.Heap.Bytes
import SweptHeap.Proofs.Page.Sharing

/-!
# Where a page comes from

A page for a request is a ready one with room, or else one that has room once it is swept, or else
an empty one, or else a new one. `Delivers` says which, and what becomes of the pages that are swept
on the way: each of them is counted and used from then on, with room or without.
-/

namespace SweptHeap.Depot

variable {ρ : Type} {policy : Policy ρ} {k r : Request} {d d' d'' : Depot ρ}
  {id : PageId} {P : Page → Prop}

theorem apply_onShelf {α : Type} (f : Shelf → α × Shelf) (d : Depot ρ) :
    (onShelf f).apply d = (.ok (f d.shelf).1, ⟨(f d.shelf).2, d.arena⟩) := rfl

theorem apply_modifyShelf (f : Shelf → Shelf) (d : Depot ρ) :
    (modifyShelf f).apply d = (.ok (), ⟨f d.shelf, d.arena⟩) := rfl

theorem apply_modifyArena (f : Arena ρ → Arena ρ) (d : Depot ρ) :
    (modifyArena f).apply d = (.ok (), ⟨d.shelf, f d.arena⟩) := rfl

theorem apply_takeUnswept_nil (h : d.shelf.unswept = #[]) :
    takeUnswept.apply d = (.ok none, d) := by
  obtain ⟨shelf, arena⟩ := d
  simp only [Act.apply, ExceptT.run, takeUnswept, Shelf.takeUnswept,
    show shelf.unswept = #[] from h]
  rfl

theorem apply_takeUnswept_push {rest : Array PageId} (h : d.shelf.unswept = rest.push id) :
    takeUnswept.apply d = (.ok (some id), ⟨{ d.shelf with unswept := rest },
      { d.arena with sweepers := d.arena.sweepers + 1 }⟩) := by
  obtain ⟨shelf, arena⟩ := d
  simp only [Act.apply, ExceptT.run, takeUnswept, Shelf.takeUnswept,
    show shelf.unswept = rest.push id from h, Array.back?_push, Array.pop_push]

theorem apply_sweepPage {result : Except Fault (Bool × Tally)} {a : Arena ρ}
    (h : d.arena.sweepPage policy id = (result, a)) :
    (sweepPage policy id).apply d = (result, ⟨d.shelf, a⟩) := by
  simp only [Act.apply, ExceptT.run, sweepPage, h]

theorem apply_allocatedBytes (d : Depot ρ) :
    (allocatedBytes id).apply d = (.ok (d.arena.memory.allocatedBytes id), d) := rfl

theorem apply_endSweep (d : Depot ρ) : endSweep.apply d =
    (.ok (), ⟨d.shelf, { d.arena with sweepers := d.arena.sweepers - 1 }⟩) := rfl

/-- The end of an inline sweep: the page is counted, reported and used from now on. -/
theorem apply_toUsed {β : Type} (id : PageId) (s : Shelf) (a : Arena ρ) (epoch : Int)
    (tally : Tally) :
    ∃ b, Arena.Same a b ∧ a.meter.Counts (b.memory.allocatedBytes id) b.meter ∧
      ∀ next : Act (Depot ρ) β, Act.apply (do
        let bytes ← allocatedBytes id
        let _ ← onArena (·.addBytes bytes)
        modifyArena (·.reportSweep epoch .inline tally)
        modifyShelf (·.addUsed id)
        endSweep
        next) ⟨s, a⟩ = next.apply ⟨s.addUsed id, b⟩ := by
  refine ⟨_, ?_, ?_, fun _ => rfl⟩
  · exact ⟨rfl, rfl, rfl⟩
  · exact a.meter.counts_add _

theorem unswept_cases (s : Shelf) :
    s.unswept = #[] ∨ ∃ (rest : Array PageId) (id : PageId), s.unswept = rest.push id := by
  obtain ⟨empty, ready, used, ⟨l⟩⟩ := s
  rcases List.eq_nil_or_concat' l with rfl | ⟨rest, id, rfl⟩
  · exact .inl rfl
  · exact .inr ⟨⟨rest⟩, id, by simp⟩

/-! ### Sweeps on demand -/

/-- Nobody clears the mark of a block that has no cell for it, on any page that waits for the
sweep. -/
def Heeds (policy : Policy ρ) (d : Depot ρ) : Prop :=
  ∀ id ∈ d.shelf.unswept.toList, ∀ p, d.arena.memory.page? id = some p →
    p.Markable (Arena.ask policy id)

theorem Good.whole (hg : Good k d) : Kept Page.Whole k d := by
  refine ⟨hg.nodup, fun id hid => ?_, hg.vacant⟩
  obtain ⟨p, hp, hkey, hsound⟩ := hg.mapped id hid
  exact ⟨p, hp, hkey, hsound.whole⟩

theorem Good.heeds (hg : Good k d) (policy : Policy ρ) : Heeds policy d := by
  intro id hid p hp
  obtain ⟨q, hq, -, hsound⟩ := hg.mapped id (Shelf.mem_pages.mpr (.inr (.inr (.inr hid))))
  obtain rfl : p = q := Option.some.inj (hp.symm.trans hq)
  exact hsound.markable _

/-- The unswept page at the end of the list is swept, and nothing else has happened yet. -/
theorem sweepPage_last (hg : Kept Page.Whole k d) (hh : Heeds policy d) {rest : Array PageId}
    (hw : d.shelf.unswept = rest.push id) :
    ∃ p hearings p' a, p.key = k ∧ Arena.Sifts policy id p hearings p' d.arena a ∧
      a.meter = d.arena.meter ∧ ∀ s,
        (sweepPage policy id).apply ⟨s, { d.arena with sweepers := d.arena.sweepers + 1 }⟩ =
        (.ok ((survivors hearings).isEmpty, countFates hearings), ⟨s, a⟩) := by
  have hid : id ∈ d.shelf.unswept.toList := by simp [hw]
  obtain ⟨p, hp, hkey, hwhole⟩ := hg.mapped id (Shelf.mem_pages.mpr (.inr (.inr (.inr hid))))
  obtain ⟨hearings, p', a, hsweep, hsift, hmeter⟩ := Arena.sweepPage_spec policy
    (a := { d.arena with sweepers := d.arena.sweepers + 1 }) hp hwhole (hh id hid p hp)
  exact ⟨p, hearings, p', a, hkey, hsift.congr ⟨rfl, rfl, rfl⟩ (.refl a), hmeter,
    fun s => apply_sweepPage hsweep⟩

/-- The unswept page at the end of the list is swept on demand: it is counted and used from now
on. -/
inductive Drafts (policy : Policy ρ) (id : PageId) : Depot ρ → Depot ρ → Prop
  | intro {d : Depot ρ} {rest : Array PageId} {p p' : Page} {hearings : List Hearing} {a : Arena ρ}
      (waiting : d.shelf.unswept = rest.push id)
      (swept : Arena.Sifts policy id p hearings p' d.arena a)
      (counted : d.arena.meter.Counts p'.allocatedBytes a.meter) :
      Drafts policy id d ⟨{ d.shelf with unswept := rest }.addUsed id, a⟩

/-- The pages are swept on demand, one after the other, and none of them has room then. -/
inductive Searches (policy : Policy ρ) (r : Request) : List PageId → Depot ρ → Depot ρ → Prop
  | nil (d : Depot ρ) : Searches policy r [] d d
  | cons {id : PageId} {ids : List PageId} {d d' d'' : Depot ρ} (drafts : Drafts policy id d d')
      (full : d'.arena.memory.hasRoom id r.cells = .ok false)
      (searches : Searches policy r ids d' d'') : Searches policy r (id :: ids) d d''

/-- A page for the request, and where it comes from. -/
inductive Delivers (policy : Policy ρ) (r : Request) : Depot ρ → PageId → Depot ρ → Prop
  /-- A ready page has room. -/
  | ready {d : Depot ρ} {i : Nat} {id : PageId} (listed : d.shelf.ready[i]? = some id)
      (room : d.arena.memory.hasRoom id r.cells = .ok true) :
      Delivers policy r d id
        ⟨{ d.shelf with ready := Shelf.removeAt d.shelf.ready i, used := d.shelf.used.push id },
          d.arena⟩
  /-- A page has room after its sweep. -/
  | swept {d d' d'' : Depot ρ} {ids : List PageId} {id : PageId}
      (full : ∀ j ∈ d.shelf.ready.toList, d.arena.memory.hasRoom j r.cells = .ok false)
      (searches : Searches policy r ids d d') (drafts : Drafts policy id d' d'')
      (room : d''.arena.memory.hasRoom id r.cells = .ok true) : Delivers policy r d id d''
  /-- Nothing is left to sweep, and there is an empty page. -/
  | empty {d d' : Depot ρ} {ids : List PageId} {rest : Array PageId} {id : PageId}
      (full : ∀ j ∈ d.shelf.ready.toList, d.arena.memory.hasRoom j r.cells = .ok false)
      (searches : Searches policy r ids d d') (done : d'.shelf.unswept = #[])
      (listed : d'.shelf.empty = rest.push id) :
      Delivers policy r d id
        ⟨{ d'.shelf with empty := rest, used := d'.shelf.used.push id }, d'.arena⟩
  /-- Nothing is left to sweep, and there is no empty page. -/
  | new {d d' : Depot ρ} {ids : List PageId} {p : Page} {a : Arena ρ}
      (full : ∀ j ∈ d.shelf.ready.toList, d.arena.memory.hasRoom j r.cells = .ok false)
      (searches : Searches policy r ids d d') (done : d'.shelf.unswept = #[])
      (none : d'.shelf.empty = #[]) (created : Page.create r = .ok p)
      (pages : a.memory.pages = d'.arena.memory.pages.push (some p))
      (memo_eq : a.memo = d'.arena.memo) (meter_eq : a.meter = d'.arena.meter)
      (found_eq : a.found = d'.arena.found) :
      Delivers policy r d d'.arena.memory.pages.size
      ⟨d'.shelf.addUsed d'.arena.memory.pages.size, a⟩

/-! ### Lists -/

theorem Drafts.lists (h : Drafts policy id d d') :
    d.shelf.unswept.toList.reverse = id :: d'.shelf.unswept.toList.reverse ∧
      d'.shelf.used.toList = d.shelf.used.toList ++ [id] ∧ d'.shelf.empty = d.shelf.empty ∧
      d'.arena.memory.pages.size = d.arena.memory.pages.size := by
  obtain ⟨hw, hsift, -⟩ := h
  refine ⟨?_, ?_, rfl, hsift.size_eq⟩
  · simp [hw, Shelf.addUsed]
  · simp [Shelf.addUsed]

/-- A page waits once. -/
theorem Good.nodup_unswept (hg : Good k d) : d.shelf.unswept.toList.reverse.Nodup := by
  have hall := hg.nodup
  rw [← Shelf.swept_append] at hall
  exact List.nodup_reverse.mpr (List.nodup_append.mp hall).2.1

theorem Searches.lists {ids : List PageId} (h : Searches policy r ids d d') :
    d.shelf.unswept.toList.reverse = ids ++ d'.shelf.unswept.toList.reverse ∧
      d'.shelf.used.toList = d.shelf.used.toList ++ ids ∧ d'.shelf.empty = d.shelf.empty ∧
      d'.arena.memory.pages.size = d.arena.memory.pages.size := by
  induction h with
  | nil d => simp
  | cons hdrafts _ _ ih =>
    obtain ⟨hunswept, hused, hempty, hsize⟩ := hdrafts.lists
    obtain ⟨hunswept', hused', hempty', hsize'⟩ := ih
    refine ⟨by rw [hunswept, hunswept', List.cons_append], ?_, hempty'.trans hempty,
      hsize'.trans hsize⟩
    rw [hused', hused, List.append_assoc, List.singleton_append]

/-! ### Housekeeping -/

theorem perm_takeReady {s : Shelf} {i : Nat} (h : s.ready[i]? = some id) :
    (Shelf.pages { s with ready := Shelf.removeAt s.ready i, used := s.used.push id }).toList.Perm
      s.pages.toList := by
  refine List.perm_iff_count.mpr fun j => ?_
  have hcount := (Shelf.removeAt_perm h).count_eq j
  simp only [Shelf.toList_pages, Array.toList_push, List.count_append, List.count_cons,
    List.count_nil] at hcount ⊢
  omega

theorem perm_takeEmpty {s : Shelf} {rest : Array PageId} (h : s.empty = rest.push id) :
    (Shelf.pages { s with empty := rest, used := s.used.push id }).toList.Perm s.pages.toList := by
  refine List.perm_iff_count.mpr fun j => ?_
  simp only [Shelf.toList_pages, h, Array.toList_push, List.count_append]
  omega

/-- All pages wait once a collection has begun. -/
theorem perm_prepare {s : Shelf} (h : s.unswept = #[]) :
    (Shelf.pages { unswept := s.ready ++ s.used ++ s.empty }).toList.Perm s.pages.toList := by
  refine List.perm_iff_count.mpr fun j => ?_
  simp only [Shelf.toList_pages, h, Array.toList_append, List.count_append, List.count_nil]
  omega

theorem Drafts.tidy (h : Drafts policy id d d') (hlarge : k.kind ≠ .large) :
    Tidy policy k d d' := by
  obtain ⟨hw, hsift, -⟩ := h
  exact .sift hw hsift (.inl hlarge) (.inl rfl)

/-- A page that keeps waiting is the same but for what its records say. -/
theorem Tidy.heeds (h : Tidy policy k d d') (hg : Kept P k d) {judge : Policy ρ}
    (hh : Heeds judge d) : Heeds judge d' := by
  intro j hj p' hp'
  obtain ⟨p, hp, hab⟩ : ∃ p, d.arena.memory.page? j = some p ∧ p.Alike p' := by
    cases h with
    | relist => exact ⟨p', hp', .refl p'⟩
    | @sift rest id p q hearings a s hw hsift hfit hplaced =>
      have hne : j ≠ id := by
        rintro rfl
        refine (hg.not_mem_of_waiting hw).2.2.2 ?_
        rcases hplaced with rfl | rfl | ⟨-, rfl⟩ <;> exact hj
      exact rel_alike_some_right (hsift.others hne) hp'
    | @discard rest id p q hearings a b hw hsift hvacant hunmapped =>
      have hne : j ≠ id := by
        rintro rfl
        exact (hg.not_mem_of_waiting hw).2.2.2 hj
      rw [hunmapped.page?] at hp'
      replace hp' := (Memory.page?_unmap a.memory id j).symm.trans hp'
      rw [if_neg hne] at hp'
      exact rel_alike_some_right (hsift.others hne) hp'
    | map hvalid hkey hcreated hpages =>
      have hlt := hg.lt_size (Shelf.mem_pages.mpr (.inr (.inr (.inr hj))))
      rw [Memory.page?_push hpages, if_neg (Nat.ne_of_lt hlt)] at hp'
      exact ⟨p', hp', .refl p'⟩
    | @unmap id empty a hperm hunmapped =>
      have hne : j ≠ id := by
        rintro rfl
        have hcount := List.nodup_iff_count_le_one.mp hg.nodup j
        have hempty := List.count_pos_iff.mpr (hperm.symm.subset List.mem_cons_self)
        have hwaits := List.count_pos_iff.mpr hj
        simp only [Shelf.toList_pages, List.count_append] at hcount hwaits
        omega
      rw [hunmapped.page?] at hp'
      replace hp' := (Memory.page?_unmap d.arena.memory id j).symm.trans hp'
      rw [if_neg hne] at hp'
      exact ⟨p', hp', .refl p'⟩
    | idle hsame => exact ⟨p', (hsame.page? j).symm.trans hp', .refl p'⟩
  exact hab.markable (hh j (h.unswept_subset hj) p hp)

theorem Searches.tidies {ids : List PageId} (h : Searches policy r ids d d')
    (hlarge : k.kind ≠ .large) : Tidies policy k d d' := by
  induction h with
  | nil d => exact .refl
  | cons hdrafts _ _ ih => exact .head (hdrafts.tidy hlarge) ih

theorem Delivers.tidies (h : Delivers policy r d id d') (hr : r.Shared) (hk : r.key = k) :
    Tidies policy k d d' := by
  have hlarge := hr.key_kind_ne hk
  cases h with
  | ready hlisted hroom =>
    exact .single (.relist rfl (perm_takeReady hlisted) (List.Subset.refl _) (by simp))
  | swept hfull hsearches hdrafts hroom =>
    exact (hsearches.tidies hlarge).tail (hdrafts.tidy hlarge)
  | empty hfull hsearches hdone hlisted =>
    exact (hsearches.tidies hlarge).tail
      (.relist rfl (perm_takeEmpty hlisted) (by simp [hlisted]) (by simp))
  | new hfull hsearches hdone hnone hcreated hpages hmemo hmeter hfound =>
    obtain ⟨r', hvalid, hkey, hcreate⟩ := hr.exists_valid
    exact (hsearches.tidies hlarge).tail
      (.map hvalid (hkey.trans hk) (hcreate.trans hcreated) hpages hmemo hfound)

/-- A page with room for the request that allocators may use. -/
def Offers (d : Depot ρ) (r : Request) (id : PageId) : Prop :=
  id ∈ d.shelf.used.toList ∧
    ∃ p, d.arena.memory.page? id = some p ∧ p.hasRoom r.cells = .ok true

theorem Kept.offers (hg : Kept P k d) (hid : id ∈ d.shelf.used.toList)
    (hroom : d.arena.memory.hasRoom id r.cells = .ok true) : d.Offers r id := by
  obtain ⟨p, hp, -⟩ := hg.mapped id (Shelf.mem_pages.mpr (.inr (.inr (.inl hid))))
  exact ⟨hid, p, hp, (Memory.hasRoom_eq hp).symm.trans hroom⟩

/-- The page that is handed out has room. -/
theorem Delivers.offers (h : Delivers policy r d id d') (hg : Kept Page.Whole k d) (hr : r.Shared)
    (hk : r.key = k) : d'.Offers r id := by
  have hg' : Kept Page.Whole k d' := Tidies.kept (h.tidies hr hk) Page.lasting_whole hg
  have hlarge := hr.key_kind_ne hk
  cases h with
  | ready hlisted hroom => exact hg'.offers (by simp) hroom
  | swept hfull hsearches hdrafts hroom =>
    refine hg'.offers ?_ hroom
    obtain ⟨hw, hsift, -⟩ := hdrafts
    simp [Shelf.addUsed]
  | @empty d₁ ids rest id hfull hsearches hdone hlisted =>
    have hg₁ := Tidies.kept (hsearches.tidies hlarge) Page.lasting_whole hg
    have hid : id ∈ d₁.shelf.empty.toList := by simp [hlisted]
    obtain ⟨p, hp, hkey, hwhole⟩ := hg₁.mapped id (Shelf.mem_pages.mpr (.inl hid))
    exact ⟨by simp, p, hp, hwhole.hasRoom_of_empty hr (hkey.trans hk.symm) (hg₁.vacant id hid p hp)⟩
  | @new d₁ ids p a hfull hsearches hdone hnone hcreated hpages hmemo hmeter hfound =>
    obtain ⟨q, hq, hwhole, hkey, hblocks⟩ := Page.create_whole hr
    obtain rfl : q = p := Except.ok.inj (hq.symm.trans hcreated)
    exact ⟨by simp [Shelf.addUsed], q, (Memory.page?_push hpages _).trans (if_pos rfl),
      hwhole.hasRoom_of_empty hr hkey hblocks⟩

/-- Nobody used the page before. -/
theorem Delivers.unused (h : Delivers policy r d id d') (hg : Kept Page.Whole k d) (hr : r.Shared)
    (hk : r.key = k) : id ∉ d.shelf.used.toList := by
  have hlarge := hr.key_kind_ne hk
  have hkept {d₁ : Depot ρ} {ids : List PageId} (hs : Searches policy r ids d d₁) :
      Kept Page.Whole k d₁ :=
    Tidies.kept (hs.tidies hlarge) Page.lasting_whole hg
  cases h with
  | @ready i id hlisted hroom =>
    refine hg.not_used (.inl ?_)
    obtain ⟨hlt, rfl⟩ := Array.getElem?_eq_some_iff.mp hlisted
    simp
  | swept hfull hsearches hdrafts hroom =>
    obtain ⟨hw, hsift, -⟩ := hdrafts
    exact fun hused => (hkept hsearches).not_used (.inr (.inr (by simp [hw])))
      (Tidies.used_subset (hsearches.tidies hlarge) hused)
  | empty hfull hsearches hdone hlisted =>
    exact fun hused => (hkept hsearches).not_used (.inr (.inl (by simp [hlisted])))
      (Tidies.used_subset (hsearches.tidies hlarge) hused)
  | new hfull hsearches hdone hnone hcreated hpages hmemo hmeter hfound =>
    intro hused
    have hlisted := Tidies.used_subset (hsearches.tidies hlarge) hused
    exact Nat.lt_irrefl _
      ((hkept hsearches).lt_size (Shelf.mem_pages.mpr (.inr (.inr (.inl hlisted)))))

/-! ### The search -/

theorem takeReady_room (hg : Kept Page.Whole k d) (hr : r.Shared) (hk : r.key = k) :
    (takeReady r).apply d = (.ok none, d) ∧
        (∀ j ∈ d.shelf.ready.toList, d.arena.memory.hasRoom j r.cells = .ok false) ∨
      ∃ i id, (takeReady r).apply d = (.ok (some id),
          ⟨{ d.shelf with ready := Shelf.removeAt d.shelf.ready i, used := d.shelf.used.push id },
            d.arena⟩) ∧
        d.shelf.ready[i]? = some id ∧ d.arena.memory.hasRoom id r.cells = .ok true := by
  have hroom : ∀ id ∈ d.shelf.ready.toList, ∃ b, d.arena.memory.hasRoom id r.cells = .ok b := by
    intro id hid
    obtain ⟨p, hp, hkey, hwhole⟩ := hg.mapped id (Shelf.mem_pages.mpr (.inr (.inl hid)))
    obtain ⟨b, hb⟩ := hwhole.hasRoom_ok hr (hkey.trans hk.symm)
    exact ⟨b, (Memory.hasRoom_eq hp).trans hb⟩
  obtain ⟨shelf, arena⟩ := d
  rcases Shelf.lastWithRoom_spec shelf.ready.size hroom (Nat.le_refl _) with
    ⟨hlast, hfull⟩ | ⟨i, id, hlast, hget, hb⟩
  · refine .inl ⟨?_, fun j hj => hfull j (by simpa [← Array.length_toList] using hj)⟩
    simp only [Act.apply, ExceptT.run, takeReady, Shelf.takeReady, hlast]
  · refine .inr ⟨i, id, ?_, hget, hb⟩
    simp only [Act.apply, ExceptT.run, takeReady, Shelf.takeReady, hlast, hget]

theorem sweepForRoom_cases (hg : Kept Page.Whole k d) (hh : Heeds policy d)
    (hr : r.Shared) (hk : r.key = k) (epoch : Int) {left : Nat}
    (hleft : d.shelf.unswept.size ≤ left) :
    (∃ ids d', (sweepForRoom policy r epoch left).apply d = (.ok none, d') ∧
      Searches policy r ids d d' ∧
        d'.shelf.unswept = #[]) ∨
      ∃ ids id d' d'', (sweepForRoom policy r epoch left).apply d = (.ok (some id), d'') ∧
        Searches policy r ids d d' ∧ Drafts policy id d' d'' ∧
        d''.arena.memory.hasRoom id r.cells = .ok true := by
  have hlarge := hr.key_kind_ne hk
  induction left generalizing d with
  | zero => exact .inl ⟨[], d, rfl, .nil d, Array.size_eq_zero_iff.mp (Nat.le_zero.mp hleft)⟩
  | succ left ih =>
    rw [sweepForRoom]
    rcases unswept_cases d.shelf with hw | ⟨rest, id, hw⟩
    · rw [Act.apply_bind_ok (apply_takeUnswept_nil hw)]
      exact .inl ⟨[], d, rfl, .nil d, hw⟩
    · obtain ⟨p, hearings, p', a, hkey, hsift, hmeter, hsweep⟩ := sweepPage_last hg hh hw
      rw [Act.apply_bind_ok (apply_takeUnswept_push hw)]
      dsimp only
      rw [Act.apply_bind_ok (hsweep _)]
      dsimp only
      have hkind : p.kind ≠ .large := by rwa [← Page.key_kind, hkey]
      obtain ⟨room, hroom⟩ := (hsift.swept.whole (.inl hkind)).hasRoom_ok hr
        (hsift.swept.key_eq.trans (hkey.trans hk.symm))
      rw [Act.apply_get_bind, show a.memory.hasRoom id r.cells = .ok room from
        (Memory.hasRoom_eq hsift.page?_self).trans hroom]
      obtain ⟨b, hsame, hcounts, heq⟩ := apply_toUsed id { d.shelf with unswept := rest } a epoch
        (countFates hearings)
      have hself := (hsame.page? id).trans hsift.page?_self
      have hroom' : b.memory.hasRoom id r.cells = .ok room := (Memory.hasRoom_eq hself).trans hroom
      have hdrafts : Drafts policy id d ⟨{ d.shelf with unswept := rest }.addUsed id, b⟩ := by
        refine .intro hw (hsift.congr (.refl _) hsame) ?_
        rwa [hmeter, Memory.allocatedBytes_eq hself] at hcounts
      dsimp only
      rw [heq]
      cases room with
      | true => exact .inr ⟨[], id, d, _, rfl, .nil d, hdrafts, hroom'⟩
      | false =>
        have hstep := hdrafts.tidy hlarge
        have hleft' : rest.size ≤ left := by simpa [hw] using hleft
        rcases ih (hstep.kept_frame Page.lasting_whole hg).1 (hstep.heeds hg hh) hleft' with
          ⟨ids, d', heq', hsearches, hdone⟩ | ⟨ids, j, d', d'', heq', hsearches, hdrafts', hj⟩
        · exact .inl ⟨id :: ids, d', heq', .cons hdrafts hroom' hsearches, hdone⟩
        · exact .inr ⟨id :: ids, j, d', d'', heq', .cons hdrafts hroom' hsearches, hdrafts', hj⟩

theorem takeEmpty_last (d : Depot ρ) :
    d.shelf.empty = #[] ∧ (onShelf (·.takeEmpty)).apply d = (.ok none, d) ∨
      ∃ rest id, d.shelf.empty = rest.push id ∧ (onShelf (·.takeEmpty)).apply d = (.ok (some id),
        ⟨{ d.shelf with empty := rest, used := d.shelf.used.push id }, d.arena⟩) := by
  obtain ⟨⟨⟨empty⟩, ready, used, unswept⟩, arena⟩ := d
  rcases List.eq_nil_or_concat' empty with rfl | ⟨rest, id, rfl⟩
  · exact .inl ⟨rfl, rfl⟩
  · refine .inr ⟨⟨rest⟩, id, by simp, ?_⟩
    rw [apply_onShelf]
    simp [Shelf.takeEmpty]

theorem apply_newPage {p : Page} (hp : Page.create r = .ok p) (d : Depot ρ) :
    ∃ a, (newPage r).apply d =
        (.ok d.arena.memory.pages.size, ⟨d.shelf.addUsed d.arena.memory.pages.size, a⟩) ∧
      a.memory.pages = d.arena.memory.pages.push (some p) ∧ a.memo = d.arena.memo ∧
      a.meter = d.arena.meter ∧ a.found = d.arena.found := by
  obtain ⟨hmap, hpages⟩ := Memory.page?_map (m := d.arena.memory) hp
  obtain ⟨shelf, ⟨memory, memo, meter, sweepers, found⟩⟩ := d
  refine ⟨⟨(memory.map r).2, memo, meter, sweepers, found⟩, ?_, hpages, rfl, rfl, rfl⟩
  simp only [Act.apply, ExceptT.run, newPage, Arena.onMemory]
  rw [show memory.map r = (.ok memory.pages.size, (memory.map r).2) from Prod.ext hmap rfl]

theorem getPage_delivers (policy : Policy ρ) (hg : Kept Page.Whole k d) (hh : Heeds policy d)
    (hr : r.Shared) (hk : r.key = k) (epoch : Int) :
    ∃ id d', (getPage policy r epoch).apply d = (.ok id, d') ∧ Delivers policy r d id d' := by
  rw [getPage]
  rcases takeReady_room hg hr hk with ⟨hready, hfull⟩ | ⟨i, id, hready, hlisted, hroom⟩
  · rw [Act.apply_bind_ok hready]
    dsimp only
    rw [Act.apply_get_bind]
    rcases sweepForRoom_cases hg hh hr hk epoch (Nat.le_refl d.shelf.unswept.size) with
      ⟨ids, d₁, hswept, hsearches, hdone⟩ | ⟨ids, id, d₁, d₂, hswept, hsearches, hdrafts, hroom⟩
    · rw [Act.apply_bind_ok hswept]
      dsimp only
      rcases takeEmpty_last d₁ with ⟨hnone, hempty⟩ | ⟨rest, id, hlisted, hempty⟩
      · obtain ⟨p, hp, -⟩ := Page.create_whole hr
        obtain ⟨a, hnew, hpages, hmemo, hmeter, hfound⟩ := apply_newPage hp d₁
        rw [Act.apply_bind_ok hempty]
        exact ⟨_, _, hnew, .new hfull hsearches hdone hnone hp hpages hmemo hmeter hfound⟩
      · rw [Act.apply_bind_ok hempty]
        exact ⟨id, _, rfl, .empty hfull hsearches hdone hlisted⟩
    · rw [Act.apply_bind_ok hswept]
      exact ⟨id, d₂, rfl, .swept hfull hsearches hdrafts hroom⟩
  · rw [Act.apply_bind_ok hready]
    exact ⟨id, _, rfl, .ready hlisted hroom⟩

end SweptHeap.Depot
