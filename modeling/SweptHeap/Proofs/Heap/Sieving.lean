import Mathlib
import SweptHeap.Proofs.Heap.Operations
import SweptHeap.Proofs.Page.Reciting

/-!
# Sweeps, page by page

The sweep of a shelf takes one page after the other. `Sieves` says all that becomes of the shelf and
of the memory when one page is taken, swept and put in its place.
-/

namespace SweptHeap

variable {ρ : Type} {policy : Policy ρ} {k : Request} {id : PageId} {p : Page}
  {hearings : List Hearing}

/-- What the sweep of a page of blocks puts in its place. -/
theorem Arena.page?_sweepPage {a : Arena ρ} (policy : Policy ρ) (hp : a.memory.page? id = some p)
    (hs : p.Sound) (hk : p.kind ≠ .records) :
    (a.sweepPage policy id).2.memory.page? id = some (p.after
      (hear (Arena.ask policy id) p.sights { a with memory := a.memory.setPage id none }).1) := by
  obtain ⟨memory, memo, meter, sweepers, found⟩ := a
  have hpage := hs.sweep_page hk (ask policy id) (askRecord policy id)
    ⟨memory.setPage id none, memo, meter, sweepers, found⟩
  have hsize : (p.sweep (ask policy id) (askRecord policy id)
      ⟨memory.setPage id none, memo, meter, sweepers, found⟩).env.memory.pages.size =
        memory.pages.size := by
    obtain ⟨hearings, c, p', hhear, -, hsweep⟩ := hs.sweep (ask policy id) (askRecord policy id)
      ⟨memory.setPage id none, memo, meter, sweepers, found⟩
    rw [hsweep, (hear_amends hhear).1.size_eq, Memory.size_setPage]
  have hid : id < memory.pages.size := Memory.lt_of_page? hp
  simp only [sweepPage, Memory.borrow_eq, show memory.page? id = some p from hp]
  rw [← hpage]
  generalize p.sweep (ask policy id) (askRecord policy id) _ = done at hsize ⊢
  obtain ⟨p', ⟨memory', memo', meter', sweepers', ⟨items⟩⟩, tally, queued, empty, fault⟩ := done
  have hrestored : (memory'.restore id p').page? id = some p' := by
    rw [Memory.restore_eq, Memory.page?_setPage (hid.trans_eq hsize.symm), if_pos rfl]
  cases fault <;> exact hrestored

namespace Depot

variable {d d' : Depot ρ}

/-- One page of the shelf `k` was taken, swept with these hearings and put in its place. A large
page without its block is unmapped. -/
structure Sieves (policy : Policy ρ) (k : Request) (id : PageId) (p : Page)
    (hearings : List Hearing) (d d' : Depot ρ) : Prop where
  tidy : Tidy policy k d d'
  key_eq : p.key = k
  sound : p.Sound
  unswept_eq : d.shelf.unswept = d'.shelf.unswept.push id
  empty_eq : d'.shelf.empty =
    if k.kind ≠ .large ∧ survivors hearings = [] then d.shelf.empty.push id else d.shelf.empty
  ready_eq : d'.shelf.ready = if survivors hearings = [] then d.shelf.ready
  else d.shelf.ready.push id
  used_eq : d'.shelf.used = d.shelf.used
  sifted : ∃ p' a, Arena.Sifts policy id p hearings p' d.arena a ∧ d'.arena.found = a.found ∧
    (∀ j ≠ id, d'.arena.memory.page? j = a.memory.page? j) ∧
    (k.kind ≠ .large → d'.arena.memory.page? id = some p')
  page_eq : k.kind ≠ .records → ∃ e : Arena ρ, e.memory.pages =
    (d.arena.memory.setPage id none).pages ∧
    d'.arena.memory.page? id = if k.kind = .large ∧ survivors hearings = [] then none
      else some (p.after (hear (Arena.ask policy id) p.sights e).1)

theorem Sieves.found_eq (h : Sieves policy k id p hearings d d') :
    d'.arena.found.toList = d.arena.found.toList ++ (toFinalize hearings).map (⟨id, ·⟩) := by
  obtain ⟨p', a, hsift, hfound, -⟩ := h.sifted
  rw [hfound, hsift.found_eq]

theorem Sieves.size_eq (h : Sieves policy k id p hearings d d') {n : Nat}
    (hn : d.shelf.unswept.size = n + 1) : d'.shelf.unswept.size = n := by
  rw [h.unswept_eq, Array.size_push] at hn
  exact Nat.succ.inj hn

/-- The page as the sweep leaves it, before it is put in its place. -/
theorem page?_of_waiting (hg : Good k d) {rest : Array PageId} (hw : d.shelf.unswept = rest.push id)
    (hp : d.arena.memory.page? id = some p) (hk : k.kind ≠ .records) {a : Arena ρ}
    {result : Except Fault (Bool × Tally)} (hsweep : ∀ s,
      (sweepPage policy id).apply ⟨s, { d.arena with sweepers := d.arena.sweepers + 1 }⟩ =
        (result, ⟨s, a⟩)) :
    ∃ e : Arena ρ, e.memory.pages = (d.arena.memory.setPage id none).pages ∧
      a.memory.page? id = some (p.after (hear (Arena.ask policy id) p.sights e).1) := by
  obtain ⟨q, hq, hkey, hsound⟩ := hg.mapped id (Shelf.mem_pages.mpr (by simp [hw]))
  obtain rfl : p = q := Option.some.inj (hp.symm.trans hq)
  have hkind : p.kind ≠ .records := by rwa [← Page.key_kind, hkey]
  have hswept :
      (Arena.sweepPage policy id { d.arena with sweepers := d.arena.sweepers + 1 }).2 = a :=
    congrArg (fun done => done.2.arena) (hsweep {})
  have hpage :=
    Arena.page?_sweepPage (a := { d.arena with sweepers := d.arena.sweepers + 1 }) policy hp
    hsound hkind
  rw [hswept] at hpage
  exact ⟨_, rfl, hpage⟩

/-- The sweep of a shelf begins with its last unswept page. -/
theorem sweepLeft_page (policy : Policy ρ) (hg : Good k d) (hlarge : k.kind ≠ .large)
    {rest : Array PageId} (hw : d.shelf.unswept = rest.push id) (tally : Tally) :
    ∃ p hearings tally' d', Sieves policy k id p hearings d d' ∧ Tallies k tally tally' d d' ∧
      ∀ left, (sweepLeft policy (left + 1) tally).apply d =
        (sweepLeft policy left tally').apply d' := by
  obtain ⟨p, hearings, p', a, hkey, hsound, hsift, hmeter, hsweep⟩ := sweepPage_waiting hg hw policy
  have hpage (hk : k.kind ≠ .records) := page?_of_waiting hg hw hsift.page_eq hk hsweep
  have hsame : Arena.Same a { a with sweepers := a.sweepers - 1 } := ⟨rfl, rfl, rfl⟩
  have hsift' := hsift.congr (.refl _) hsame
  have hsifted : ∃ p' b, Arena.Sifts policy id p hearings p' d.arena b ∧
      ({ a with sweepers := a.sweepers - 1 } : Arena ρ).found = b.found ∧
      (∀ j ≠ id, a.memory.page? j = b.memory.page? j) ∧
      (k.kind ≠ .large → a.memory.page? id = some p') :=
    ⟨p', _, hsift', rfl, fun _ _ => rfl, fun _ => hsift'.page?_self⟩
  have hmapped (hk : k.kind ≠ .records) : ∃ e : Arena ρ,
      e.memory.pages = (d.arena.memory.setPage id none).pages ∧
      a.memory.page? id = if k.kind = .large ∧ survivors hearings = [] then none
        else some (p.after (hear (Arena.ask policy id) p.sights e).1) := by
    obtain ⟨e, he, hself⟩ := hpage hk
    exact ⟨e, he, by rw [if_neg fun h => hlarge h.1, hself]⟩
  have hstart (left : Nat) : (sweepLeft policy (left + 1) tally).apply d =
      Act.apply (do
        if (survivors hearings).isEmpty then modifyShelf (·.addEmpty id)
        else modifyShelf (·.addReady id)
        endSweep
        sweepLeft policy left
          ((tally.add (countFates hearings)).addLive (a.memory.allocatedBytes id)))
        ⟨{ d.shelf with unswept := rest }, a⟩ := by
    rw [sweepLeft, Act.apply_bind_ok (apply_takeUnswept_push hw)]
    dsimp only
    rw [Act.apply_bind_ok (hsweep _)]
    dsimp only
    rw [Act.apply_bind_ok (apply_allocatedBytes _)]
  cases hempty : (survivors hearings).isEmpty with
  | true =>
    have hvacant := List.isEmpty_iff.mp hempty
    refine ⟨p, hearings, _, ⟨{ d.shelf with unswept := rest }.addEmpty id,
      { a with sweepers := a.sweepers - 1 }⟩,
      ⟨.sift hw hsift' (.inl hlarge) (.inr (.inr ⟨hvacant, rfl⟩)), hkey, hsound, hw, ?_, ?_, rfl,
        hsifted, hmapped⟩,
      tallies_sift hg tally hw hsift' hmeter (.inr (.inr rfl)), fun left => ?_⟩
    · rw [if_pos ⟨hlarge, hvacant⟩]
      rfl
    · rw [if_pos hvacant]
      rfl
    · rw [hstart, hempty]
      simp only [if_true]
      rw [Act.apply_bind_ok (apply_modifyShelf _ _), Act.apply_bind_ok (apply_endSweep _)]
  | false =>
    have hkept : survivors hearings ≠ [] := fun h => by simp [h] at hempty
    refine ⟨p, hearings, _, ⟨{ d.shelf with unswept := rest }.addReady id,
      { a with sweepers := a.sweepers - 1 }⟩,
      ⟨.sift hw hsift' (.inl hlarge) (.inr (.inl rfl)), hkey, hsound, hw, ?_, ?_, rfl, hsifted,
        hmapped⟩,
      tallies_sift hg tally hw hsift' hmeter (.inr (.inl rfl)), fun left => ?_⟩
    · rw [if_neg fun h => hkept h.2]
      rfl
    · rw [if_neg hkept]
      rfl
    · rw [hstart, hempty]
      simp only [Bool.false_eq_true, if_false]
      rw [Act.apply_bind_ok (apply_modifyShelf _ _), Act.apply_bind_ok (apply_endSweep _)]

/-- The same for large pages. -/
theorem sweepFreeing_page (policy : Policy ρ) (hg : Good k d) (hlarge : k.kind = .large)
    {rest : Array PageId} (hw : d.shelf.unswept = rest.push id) (freed : Nat) (tally : Tally) :
    ∃ p hearings freed' tally' d', Sieves policy k id p hearings d d' ∧
      Tallies k tally tally' d d' ∧ ∀ left, (sweepFreeing policy (left + 1) freed tally).apply d =
        (sweepFreeing policy left freed' tally').apply d' := by
  obtain ⟨p, hearings, p', a, hkey, hsound, hsift, hmeter, hsweep⟩ := sweepPage_waiting hg hw policy
  have hpage (hk : k.kind ≠ .records) := page?_of_waiting hg hw hsift.page_eq hk hsweep
  have hstart (left : Nat) : (sweepFreeing policy (left + 1) freed tally).apply d =
      Act.apply (if (survivors hearings).isEmpty then do
          modifyArena (·.modifyMemory (·.unmap id))
          endSweep
          sweepFreeing policy left (freed + 1) (tally.add (countFates hearings))
        else do
          let bytes ← allocatedBytes id
          modifyShelf (·.addReady id)
          endSweep
          sweepFreeing policy left freed ((tally.add (countFates hearings)).addLive bytes))
        ⟨{ d.shelf with unswept := rest }, a⟩ := by
    rw [sweepFreeing, Act.apply_bind_ok (apply_takeUnswept_push hw)]
    dsimp only
    rw [Act.apply_bind_ok (hsweep _)]
  cases hempty : (survivors hearings).isEmpty with
  | true =>
    have hvacant := List.isEmpty_iff.mp hempty
    have hsame : Arena.Same (a.modifyMemory (·.unmap id))
        { a.modifyMemory (·.unmap id) with sweepers := a.sweepers - 1 } := ⟨rfl, rfl, rfl⟩
    have hunmapped (j : PageId) := Memory.page?_unmap a.memory id j
    refine ⟨p, hearings, freed + 1, _, ⟨{ d.shelf with unswept := rest },
      { a.modifyMemory (·.unmap id) with sweepers := a.sweepers - 1 }⟩,
      ⟨.discard hw hsift hvacant hsame, hkey, hsound, hw, ?_, ?_, rfl,
        ⟨p', a, hsift, rfl, fun j hj => (hunmapped j).trans (if_neg hj), absurd hlarge⟩,
        fun hk => ?_⟩,
      tallies_discard hg tally hw hsift hsame hmeter, fun left => ?_⟩
    · rw [if_neg fun h => h.1 hlarge]
    · rw [if_pos hvacant]
    · obtain ⟨e, he, -⟩ := hpage hk
      refine ⟨e, he, ?_⟩
      rw [if_pos ⟨hlarge, hvacant⟩]
      exact (hunmapped id).trans (if_pos rfl)
    · rw [hstart, hempty]
      simp only [if_true]
      rw [Act.apply_bind_ok (apply_modifyArena _ _), Act.apply_bind_ok (apply_endSweep _)]
      rfl
  | false =>
    have hkept : survivors hearings ≠ [] := fun h => by simp [h] at hempty
    have hsame : Arena.Same a { a with sweepers := a.sweepers - 1 } := ⟨rfl, rfl, rfl⟩
    have hsift' := hsift.congr (.refl _) hsame
    refine ⟨p, hearings, freed, _, ⟨{ d.shelf with unswept := rest }.addReady id,
      { a with sweepers := a.sweepers - 1 }⟩,
      ⟨.sift hw hsift' (.inr hkept) (.inr (.inl rfl)), hkey, hsound, hw, ?_, ?_, rfl,
        ⟨p', _, hsift', rfl, fun _ _ => rfl, fun _ => hsift'.page?_self⟩, fun hk => ?_⟩,
      tallies_sift hg tally hw hsift' hmeter (.inr (.inl rfl)), fun left => ?_⟩
    · rw [if_neg fun h => hkept h.2]
      rfl
    · rw [if_neg hkept]
      rfl
    · obtain ⟨e, he, hself⟩ := hpage hk
      refine ⟨e, he, ?_⟩
      rw [if_neg fun h => hkept h.2]
      exact hself
    · rw [hstart, hempty]
      simp only [Bool.false_eq_true, if_false]
      rw [Act.apply_bind_ok (apply_allocatedBytes _), Act.apply_bind_ok (apply_modifyShelf _ _),
        Act.apply_bind_ok (apply_endSweep _)]

end Depot

end SweptHeap
