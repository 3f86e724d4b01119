import Mathlib
import SweptHeap.Proofs.Heap.Delivery

/-!
# Operations of a depot

Every operation of a depot that is `Good` is a sequence of steps of housekeeping, and the meter
counts the bytes of the pages that are swept on demand.
-/

namespace SweptHeap.Depot

variable {ρ : Type} {policy : Policy ρ} {k : Request} {d d' d'' : Depot ρ} {id : PageId}

/-- The unswept page at the end of the list is swept, and nothing else has happened yet. -/
theorem sweepPage_waiting (hg : Good k d) {rest : Array PageId}
    (hw : d.shelf.unswept = rest.push id) (policy : Policy ρ) :
    ∃ p hearings p' a, p.key = k ∧ p.Sound ∧ Arena.Sifts policy id p hearings p' d.arena a ∧
      a.meter = d.arena.meter ∧ ∀ s,
        (sweepPage policy id).apply ⟨s, { d.arena with sweepers := d.arena.sweepers + 1 }⟩ =
        (.ok ((survivors hearings).isEmpty, countFates hearings), ⟨s, a⟩) := by
  obtain ⟨p, hearings, p', a, hkey, hsift, hrest⟩ := sweepPage_last hg.whole (hg.heeds policy) hw
  obtain ⟨q, hq, -, hsound⟩ := hg.mapped id (Shelf.mem_pages.mpr (by simp [hw]))
  obtain rfl : p = q := Option.some.inj (hsift.page_eq.symm.trans hq)
  exact ⟨p, hearings, p', a, hkey, hsound, hsift, hrest⟩

variable {r : Request}

theorem newPage_spec (policy : Policy ρ) (hg : Good k d) (hr : r.Valid) (hk : r.key = k) :
    ∃ p a, Page.create r = .ok p ∧ (newPage r).apply d =
        (.ok d.arena.memory.pages.size, ⟨d.shelf.addUsed d.arena.memory.pages.size, a⟩) ∧
      a.memory.page? d.arena.memory.pages.size = some p ∧
      Tidy policy k d ⟨d.shelf.addUsed d.arena.memory.pages.size, a⟩ ∧
      Charges k d ⟨d.shelf.addUsed d.arena.memory.pages.size, a⟩ ∧ a.found = d.arena.found := by
  obtain ⟨p, hp, -⟩ := Page.create_sound hr
  obtain ⟨a, hnew, hpages, hmemo, hmeter, hfound⟩ := apply_newPage hp d
  exact ⟨p, a, hp, hnew, (Memory.page?_push hpages _).trans (if_pos rfl),
    .map hr hk hp hpages hmemo hfound,
    .of_eq hmeter fun hkind => bytes_map hg hkind hr hk hp hpages, hfound⟩

theorem Drafts.charges (h : Drafts policy id d d') (hg : Good k d) : Charges k d d' := by
  obtain ⟨hw, hsift, hcounts⟩ := h
  intro hk
  refine ⟨_, hcounts, ?_⟩
  rw [bytes_sift hg hk hw hsift (.inl rfl), Memory.allocatedBytes_eq hsift.page?_self]

theorem Searches.charges {ids : List PageId} (h : Searches policy r ids d d') (hg : Good k d)
    (hlarge : k.kind ≠ .large) : Charges k d d' := by
  induction h with
  | nil d => exact .refl k d
  | cons hdrafts _ _ ih =>
    exact (hdrafts.charges hg).trans (ih ((hdrafts.tidy hlarge).good_frame hg).1)

theorem Delivers.charges (h : Delivers policy r d id d') (hg : Good k d)
    (hr : r.Shared) (hk : r.key = k) : Charges k d d' := by
  have hlarge := hr.key_kind_ne hk
  have hgood {d₁ : Depot ρ} {ids : List PageId} (hs : Searches policy r ids d d₁) : Good k d₁ :=
    Tidies.good (hs.tidies hlarge) hg
  cases h with
  | ready hlisted hroom => exact .of_eq rfl fun _ => bytes_relist _ rfl (perm_takeReady hlisted)
  | swept hfull hsearches hdrafts hroom =>
    exact (hsearches.charges hg hlarge).trans (hdrafts.charges (hgood hsearches))
  | empty hfull hsearches hdone hlisted =>
    exact (hsearches.charges hg hlarge).trans
      (.of_eq rfl fun _ => bytes_relist _ rfl (perm_takeEmpty hlisted))
  | new hfull hsearches hdone hnone hcreated hpages hmemo hmeter hfound =>
    obtain ⟨r', hvalid, hkey, hcreate⟩ := hr.exists_valid
    exact (hsearches.charges hg hlarge).trans (.of_eq hmeter fun hkind =>
      bytes_map (hgood hsearches) hkind hvalid (hkey.trans hk) (hcreate.trans hcreated) hpages)

/-- The page that is handed out has room, and nobody used it before. -/
theorem getPage_spec (policy : Policy ρ) (hg : Good k d) (hr : r.Valid) (hk : r.key = k)
    (hlarge : k.kind ≠ .large) (epoch : Int) :
    ∃ id d', (getPage policy r epoch).apply d = (.ok id, d') ∧ Tidies policy k d d' ∧
      Charges k d d' ∧ d'.Offers r id ∧ id ∉ d.shelf.used.toList ∧ Delivers policy r d id d' := by
  have hshared : r.Shared := hr.shared (by rwa [← r.key_kind, hk])
  obtain ⟨id, d', heq, hdelivers⟩ :=
    getPage_delivers policy hg.whole (hg.heeds policy) hshared hk epoch
  exact ⟨id, d', heq, hdelivers.tidies hshared hk, hdelivers.charges hg hshared hk,
    hdelivers.offers hg.whole hshared hk, hdelivers.unused hg.whole hshared hk, hdelivers⟩

theorem sweepLeft_spec (hg : Kept Page.Whole k d) (hh : Heeds policy d) (hlarge : k.kind ≠ .large)
    (left : Nat) (tally : Tally) :
    ∃ tally' d', (sweepLeft policy left tally).apply d = (.ok tally', d') ∧
      Tidies policy k d d' ∧ (Good k d → Tallies k tally tally' d d') ∧
      (d.shelf.unswept.size ≤ left → d'.shelf.unswept = #[]) := by
  induction left generalizing d tally with
  | zero =>
    exact ⟨tally, d, rfl, .refl, fun _ => .refl k tally d,
      fun h => Array.size_eq_zero_iff.mp (Nat.le_zero.mp h)⟩
  | succ left ih =>
    rw [sweepLeft]
    rcases unswept_cases d.shelf with hw | ⟨rest, id, hw⟩
    · rw [Act.apply_bind_ok (apply_takeUnswept_nil hw)]
      exact ⟨tally, d, rfl, .refl, fun _ => .refl k tally d, fun _ => hw⟩
    · obtain ⟨p, hearings, p', a, hkey, hsift, hmeter, hsweep⟩ := sweepPage_last hg hh hw
      rw [Act.apply_bind_ok (apply_takeUnswept_push hw)]
      dsimp only
      rw [Act.apply_bind_ok (hsweep _)]
      dsimp only
      rw [Act.apply_bind_ok (apply_allocatedBytes _)]
      have hsame : Arena.Same a { a with sweepers := a.sweepers - 1 } := ⟨rfl, rfl, rfl⟩
      replace hsift := hsift.congr (.refl _) hsame
      have hsize : d.shelf.unswept.size = rest.size + 1 := by simp [hw]
      cases hempty : (survivors hearings).isEmpty with
      | true =>
        have hvacant := List.isEmpty_iff.mp hempty
        simp only [if_true]
        rw [Act.apply_bind_ok (apply_modifyShelf _ _), Act.apply_bind_ok (apply_endSweep _)]
        have hstep : Tidy policy k d ⟨{ d.shelf with unswept := rest }.addEmpty id,
            { a with sweepers := a.sweepers - 1 }⟩ :=
          .sift hw hsift (.inl hlarge) (.inr (.inr ⟨hvacant, rfl⟩))
        obtain ⟨tally', d', heq, htidies, htallies, hdone⟩ := ih
          (hstep.kept_frame Page.lasting_whole hg).1 (hstep.heeds hg hh)
          ((tally.add (countFates hearings)).addLive (a.memory.allocatedBytes id))
        exact ⟨tally', d', heq, .head hstep htidies, fun hgood =>
          (tallies_sift hgood tally hw hsift hmeter (.inr (.inr rfl))).trans
            (htallies (hstep.good_frame hgood).1), fun h => hdone (by
          simp only [Shelf.addEmpty]
          omega)⟩
      | false =>
        simp only [Bool.false_eq_true, if_false]
        rw [Act.apply_bind_ok (apply_modifyShelf _ _), Act.apply_bind_ok (apply_endSweep _)]
        have hstep : Tidy policy k d ⟨{ d.shelf with unswept := rest }.addReady id,
            { a with sweepers := a.sweepers - 1 }⟩ :=
          .sift hw hsift (.inl hlarge) (.inr (.inl rfl))
        obtain ⟨tally', d', heq, htidies, htallies, hdone⟩ := ih
          (hstep.kept_frame Page.lasting_whole hg).1 (hstep.heeds hg hh)
          ((tally.add (countFates hearings)).addLive (a.memory.allocatedBytes id))
        exact ⟨tally', d', heq, .head hstep htidies, fun hgood =>
          (tallies_sift hgood tally hw hsift hmeter (.inr (.inl rfl))).trans
            (htallies (hstep.good_frame hgood).1), fun h => hdone (by
          simp only [Shelf.addReady]
          omega)⟩

theorem sweep_spec (policy : Policy ρ) (hg : Good k d) (hlarge : k.kind ≠ .large) (tally : Tally) :
    ∃ tally' d', (sweep policy tally).apply d = (.ok tally', d') ∧ Tidies policy k d d' ∧
      Tallies k tally tally' d d' ∧ d'.shelf.unswept = #[] := by
  obtain ⟨tally', d', heq, htidies, htallies, hdone⟩ :=
    sweepLeft_spec hg.whole (hg.heeds policy) hlarge d.shelf.unswept.size tally
  exact ⟨tally', d',
    by rw [sweep, Act.apply_get_bind, heq], htidies, htallies hg, hdone (Nat.le_refl _)⟩

theorem sweepFreeing_spec (policy : Policy ρ) (hg : Good k d) (left freed : Nat) (tally : Tally) :
    ∃ result d', (sweepFreeing policy left freed tally).apply d = (.ok result, d') ∧
      Tidies policy k d d' ∧ Tallies k tally result.1 d d' ∧
      (d.shelf.unswept.size ≤ left → d'.shelf.unswept = #[]) := by
  induction left generalizing d freed tally with
  | zero =>
    exact ⟨(tally, freed), d, rfl, .refl, .refl k tally d,
      fun h => Array.size_eq_zero_iff.mp (Nat.le_zero.mp h)⟩
  | succ left ih =>
    rw [sweepFreeing]
    rcases unswept_cases d.shelf with hw | ⟨rest, id, hw⟩
    · rw [Act.apply_bind_ok (apply_takeUnswept_nil hw)]
      exact ⟨(tally, freed), d, rfl, .refl, .refl k tally d, fun _ => hw⟩
    · obtain ⟨p, hearings, p', a, hkey, hsound, hsift, hmeter, hsweep⟩ :=
        sweepPage_waiting hg hw policy
      rw [Act.apply_bind_ok (apply_takeUnswept_push hw)]
      dsimp only
      rw [Act.apply_bind_ok (hsweep _)]
      dsimp only
      have hsize : d.shelf.unswept.size = rest.size + 1 := by simp [hw]
      cases hempty : (survivors hearings).isEmpty with
      | true =>
        have hvacant := List.isEmpty_iff.mp hempty
        simp only [if_true]
        rw [Act.apply_bind_ok (apply_modifyArena _ _), Act.apply_bind_ok (apply_endSweep _)]
        have hsame : Arena.Same (a.modifyMemory (·.unmap id))
            { a.modifyMemory (·.unmap id) with sweepers := a.sweepers - 1 } := ⟨rfl, rfl, rfl⟩
        have hstep : Tidy policy k d ⟨{ d.shelf with unswept := rest },
            { a.modifyMemory (·.unmap id) with sweepers := a.sweepers - 1 }⟩ :=
          .discard hw hsift hvacant hsame
        have htallies := tallies_discard hg tally hw hsift hsame hmeter
        obtain ⟨result, d', heq, htidies, htallies', hdone⟩ :=
          ih (hstep.good_frame hg).1 (freed + 1) (tally.add (countFates hearings))
        exact ⟨result, d', heq, .head hstep htidies, htallies.trans htallies', fun h => hdone (by
          dsimp only
          omega)⟩
      | false =>
        have hkept : survivors hearings ≠ [] := fun h => by simp [h] at hempty
        simp only [Bool.false_eq_true, if_false]
        rw [Act.apply_bind_ok (apply_allocatedBytes _), Act.apply_bind_ok (apply_modifyShelf _ _),
          Act.apply_bind_ok (apply_endSweep _)]
        have hsame : Arena.Same a { a with sweepers := a.sweepers - 1 } := ⟨rfl, rfl, rfl⟩
        have hstep : Tidy policy k d ⟨{ d.shelf with unswept := rest }.addReady id,
            { a with sweepers := a.sweepers - 1 }⟩ :=
          .sift hw (hsift.congr (.refl _) hsame) (.inr hkept) (.inr (.inl rfl))
        have htallies := tallies_sift hg tally hw (hsift.congr (.refl _) hsame) hmeter
          (.inr (.inl rfl))
        obtain ⟨result, d', heq, htidies, htallies', hdone⟩ := ih (hstep.good_frame hg).1 freed
          ((tally.add (countFates hearings)).addLive (a.memory.allocatedBytes id))
        exact ⟨result, d', heq, .head hstep htidies, htallies.trans htallies', fun h => hdone (by
          simp only [Shelf.addReady]
          omega)⟩

theorem sweepAndFree_spec (policy : Policy ρ) (hg : Good k d) (kind : PageKind) (tally : Tally) :
    ∃ tally' d', (sweepAndFree policy kind tally).apply d = (.ok tally', d') ∧
      Tidies policy k d d' ∧ Tallies k tally tally' d d' ∧ d'.shelf.unswept = #[] := by
  obtain ⟨⟨tally', freed⟩, d', heq, htidies, htallies, hdone⟩ :=
    sweepFreeing_spec policy hg d.shelf.unswept.size 0 tally
  rw [sweepAndFree, Act.apply_get_bind, Act.apply_bind_ok heq]
  by_cases hfreed : 0 < freed
  · refine ⟨tally', ⟨d'.shelf, d'.arena.report (.freed kind freed)⟩, ?_,
      htidies.tail (.idle ⟨rfl, rfl, rfl⟩), htallies.trans ⟨rfl, fun _ => rfl⟩,
      hdone (Nat.le_refl _)⟩
    simp only [hfreed, if_true]
    rw [Act.apply_bind_ok (apply_modifyArena _ _)]
    rfl
  · exact ⟨tally', d',
      by simp only [hfreed, if_false]; rfl, htidies, htallies, hdone (Nat.le_refl _)⟩

/-- The pages of a list are unmapped one after the other. -/
theorem unmap_tidies (policy : Policy ρ) (ids : List PageId) (s : Shelf) (a : Arena ρ)
    (empty : Array PageId) (h : s.empty.toList = empty.toList ++ ids) :
    Tidies policy k ⟨s, a⟩ ⟨{ s with empty := empty },
        ids.foldl (fun a id => a.modifyMemory (·.unmap id)) a⟩ ∧
      (Good k ⟨s, a⟩ → Charges k ⟨s, a⟩ ⟨{ s with empty := empty },
        ids.foldl (fun a id => a.modifyMemory (·.unmap id)) a⟩) := by
  induction ids generalizing s a with
  | nil =>
    obtain rfl : s.empty = empty := Array.toList_inj.mp (by simpa using h)
    exact ⟨.refl, fun _ => .refl k _⟩
  | cons id rest ih =>
    have hperm : s.empty.toList.Perm (id :: (empty ++ rest.toArray).toList) := by
      rw [h, Array.toList_append]
      exact List.perm_middle
    have hstep : Tidy policy k ⟨s, a⟩ ⟨{ s with empty := empty ++ rest.toArray },
        a.modifyMemory (·.unmap id)⟩ := .unmap hperm (.refl _)
    obtain ⟨htidies, hcharges⟩ := ih { s with empty := empty ++ rest.toArray }
      (a.modifyMemory (·.unmap id)) (by simp)
    refine ⟨.head hstep htidies, fun hg => ?_⟩
    have hunmap : Charges k ⟨s, a⟩ ⟨{ s with empty := empty ++ rest.toArray },
        a.modifyMemory (·.unmap id)⟩ := .of_eq rfl fun hk => bytes_unmap hg hk hperm (.refl _)
    exact hunmap.trans (hcharges (hstep.good_frame hg).1)

theorem releaseEmpty_spec (policy : Policy ρ) (k : Request) (d : Depot ρ) (keep : Nat) :
    ∃ count d', (releaseEmpty keep).apply d = (.ok count, d') ∧ Tidies policy k d d' ∧
      (Good k d → Charges k d d') ∧ d'.arena.found = d.arena.found ∧
      d'.arena.meter = d.arena.meter := by
  obtain ⟨shelf, arena⟩ := d
  have hkept (ids : List PageId) (a : Arena ρ) :
      (ids.foldl (fun a id => a.modifyMemory (·.unmap id)) a).found = a.found ∧
        (ids.foldl (fun a id => a.modifyMemory (·.unmap id)) a).meter = a.meter := by
    induction ids generalizing a with
    | nil => exact ⟨rfl, rfl⟩
    | cons id rest ih => exact ih _
  rw [releaseEmpty, Act.apply_bind_ok (apply_onShelf _ _), unmapAll,
    Act.apply_bind_ok (apply_modifyArena _ _)]
  refine ⟨_, _, rfl, ?_⟩
  simp only [Shelf.takeSurplus]
  rw [← Array.foldl_toList]
  obtain ⟨htidies, hcharges⟩ :=
    unmap_tidies (k := k) policy (shelf.empty.drop keep).toList shelf arena
    (shelf.empty.take keep) (by
      simp only [Array.take_eq_extract, Array.drop_eq_extract, Array.toList_extract]
      simp [List.take_of_length_le])
  exact ⟨htidies, hcharges, hkept _ _⟩

end SweptHeap.Depot
