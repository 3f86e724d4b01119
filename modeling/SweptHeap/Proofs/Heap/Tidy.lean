import Mathlib
import SweptHeap.Heap.Cycle
import SweptHeap.Proofs.Heap.Supply

/-!
# Sound heaps

A heap is sound when each of its shelves is, and every mapped page is on the shelf that it belongs
on. Housekeeping on one shelf cannot disturb another one, because the pages of a shelf tell by their
kind and block size where they belong.
-/

namespace SweptHeap.Heap

variable {ρ : Type} {policy : Policy ρ} {h h' h'' : Heap ρ} {k k' r : Request}

/-! ### Shelves -/

theorem mem_allRequests : k ∈ allRequests ↔
    (k.kind = .uniform ∧ k.cells ≤ largestUniform) ∨ k = ⟨.tiled, 0⟩ ∨ k = ⟨.large, 0⟩ ∨
      k = ⟨.records, 0⟩ := by
  obtain ⟨kind, cells⟩ := k
  simp only [allRequests, uniformRequests, List.mem_append, List.mem_map, List.mem_range,
    List.mem_cons, List.not_mem_nil, or_false, Request.mk.injEq, Nat.lt_succ_iff]
  constructor
  · rintro (⟨n, hn, rfl, rfl⟩ | hother)
    · exact .inl ⟨rfl, hn⟩
    · exact .inr hother
  · rintro (⟨rfl, hn⟩ | hother)
    · exact .inl ⟨cells, hn, rfl, rfl⟩
    · exact .inr hother

theorem key_eq_of_mem (hk : k ∈ allRequests) : k.key = k := by
  obtain ⟨kind, cells⟩ := k
  rcases mem_allRequests.mp hk with ⟨rfl, -⟩ | he | he | he
  · rfl
  all_goals
    rw [he]
    rfl

theorem key_mem_of_valid (hr : r.Valid) : r.key ∈ allRequests := by
  obtain ⟨kind, cells⟩ := r
  rw [mem_allRequests]
  cases kind with
  | uniform => exact .inl ⟨rfl, hr.2⟩
  | tiled => exact .inr (.inl rfl)
  | large => exact .inr (.inr (.inl rfl))
  | records => exact .inr (.inr (.inr rfl))

/-- A shelf in its arena. -/
def depot (h : Heap ρ) (r : Request) : Depot ρ := ⟨h.shelf r, h.arena⟩

def setDepot (r : Request) (d : Depot ρ) (h : Heap ρ) : Heap ρ :=
  match r.kind with
  | .uniform => { h with arena := d.arena, uniform := h.uniform.setIfInBounds r.cells d.shelf }
  | .tiled => { h with arena := d.arena, tiled := d.shelf }
  | .large => { h with arena := d.arena, large := d.shelf }
  | .records => { h with arena := d.arena, records := d.shelf }

theorem shelf_key (h : Heap ρ) (r : Request) : h.shelf r.key = h.shelf r := by
  obtain ⟨kind, cells⟩ := r
  cases kind <;> rfl

theorem setDepot_key (h : Heap ρ) (r : Request) (d : Depot ρ) :
    h.setDepot r.key d = h.setDepot r d := by
  obtain ⟨kind, cells⟩ := r
  cases kind <;> rfl

@[simp] theorem setDepot_arena (d : Depot ρ) : (h.setDepot r d).arena = d.arena := by
  obtain ⟨kind, cells⟩ := r
  cases kind <;> rfl

@[simp] theorem setDepot_pending (d : Depot ρ) : (h.setDepot r d).pending = h.pending := by
  obtain ⟨kind, cells⟩ := r
  cases kind <;> rfl

@[simp] theorem setDepot_epoch (d : Depot ρ) : (h.setDepot r d).epoch = h.epoch := by
  obtain ⟨kind, cells⟩ := r
  cases kind <;> rfl

@[simp] theorem size_setDepot (d : Depot ρ) : (h.setDepot r d).uniform.size = h.uniform.size := by
  obtain ⟨kind, cells⟩ := r
  cases kind <;> simp [setDepot]

theorem shelf_setDepot (hsize : h.uniform.size = largestUniform + 1) (hk : k ∈ allRequests)
    (hk' : k' ∈ allRequests) (d : Depot ρ) :
    (h.setDepot k d).shelf k' = if k' = k then d.shelf else h.shelf k' := by
  obtain ⟨kind, cells⟩ := k
  obtain ⟨kind', cells'⟩ := k'
  rcases mem_allRequests.mp hk with ⟨rfl, hn⟩ | he | he | he
  · rcases mem_allRequests.mp hk' with ⟨rfl, hn'⟩ | he | he | he
    · replace hn : cells ≤ largestUniform := hn
      simp only [setDepot, shelf, Array.getD_eq_getD_getElem?, Array.getElem?_setIfInBounds,
        Request.mk.injEq, true_and]
      by_cases hc : cells = cells'
      · subst hc
        rw [if_pos rfl, if_pos (by omega), if_pos rfl]
        rfl
      · rw [if_neg hc, if_neg (Ne.symm hc)]
    all_goals
      obtain ⟨rfl, rfl⟩ := Request.mk.inj he
      simp [setDepot, shelf]
  all_goals
    obtain ⟨rfl, rfl⟩ := Request.mk.inj he
    rcases mem_allRequests.mp hk' with ⟨rfl, hn'⟩ | he' | he' | he'
    · simp [setDepot, shelf]
    all_goals
      obtain ⟨rfl, rfl⟩ := Request.mk.inj he'
      simp [setDepot, shelf]

theorem depot_setDepot (hsize : h.uniform.size = largestUniform + 1) (hk : k ∈ allRequests)
    (d : Depot ρ) : (h.setDepot k d).depot k = d := by
  rw [depot, shelf_setDepot hsize hk hk, if_pos rfl, setDepot_arena]

theorem apply_atShelf {α : Type} {act : Act (Depot ρ) α} {result : Except Fault α} {d : Depot ρ}
    (heq : act.apply (h.depot r) = (result, d)) :
    (atShelf r act).apply h = (result, h.setDepot r d) := by
  obtain ⟨kind, cells⟩ := r
  cases kind <;> simp only [depot, shelf] at heq <;>
    simp only [Act.apply, ExceptT.run] at heq <;>
    simp only [Act.apply, ExceptT.run, atShelf, setDepot, heq]

/-! ### Soundness -/

structure Sound (h : Heap ρ) : Prop where
  size_eq : h.uniform.size = largestUniform + 1
  good : ∀ k ∈ allRequests, Depot.Good k (h.depot k)
  placed : ∀ id p, h.arena.memory.page? id = some p →
    p.key ∈ allRequests ∧ id ∈ (h.shelf p.key).pages.toList

variable {id : PageId} {p p' : Page}

theorem Sound.page_sound (hs : h.Sound) (hp : h.arena.memory.page? id = some p) : p.Sound := by
  obtain ⟨hkey, hmem⟩ := hs.placed id p hp
  obtain ⟨q, hq, -, hsound⟩ := (hs.good p.key hkey).mapped id hmem
  obtain rfl : q = p := Option.some.inj (hq.symm.trans hp)
  exact hsound

/-- A page on a shelf belongs there. -/
theorem Sound.key_of_mem (hs : h.Sound) (hk : k ∈ allRequests)
    (hid : id ∈ (h.shelf k).pages.toList) :
    ∃ p, h.arena.memory.page? id = some p ∧ p.key = k ∧ p.Sound :=
  (hs.good k hk).mapped id hid

theorem shelf_new (memo : ρ) (hk : k ∈ allRequests) : (new memo).shelf k = {} := by
  obtain ⟨kind, cells⟩ := k
  rcases mem_allRequests.mp hk with ⟨rfl, hn⟩ | he | he | he
  · replace hn : cells ≤ largestUniform := hn
    simp only [shelf, new, Array.getD_eq_getD_getElem?]
    rw [Array.getElem?_replicate, if_pos (by omega)]
    rfl
  all_goals
    rw [he]
    rfl

theorem sound_new (memo : ρ) : (new memo).Sound := by
  have hpages (k : Request) (hk : k ∈ allRequests) : ((new memo).shelf k).pages.toList = [] := by
    rw [shelf_new _ hk]
    rfl
  refine ⟨by simp [new], fun k hk => ⟨?_, fun id hid => ?_, fun id hid => ?_⟩, fun id p hp => ?_⟩
  · change ((new memo).shelf k).pages.toList.Nodup
    rw [hpages k hk]
    exact List.nodup_nil
  · change id ∈ ((new memo).shelf k).pages.toList at hid
    simp [hpages k hk] at hid
  · change id ∈ ((new memo).shelf k).empty.toList at hid
    simp [shelf_new memo hk] at hid
  · simp [Memory.page?, new] at hp

/-- Up to what records say, the pages are the same. -/
theorem Sound.amends (hs : h.Sound) {a : Arena ρ} (hm : h.arena.memory.Amends a.memory) :
    Sound { h with arena := a } := by
  refine ⟨hs.size_eq, fun k hk => ?_, fun id p' hp' => ?_⟩
  · have hg := hs.good k hk
    refine ⟨hg.nodup, fun id hid => ?_, fun id hid p' hp' => ?_⟩
    · obtain ⟨p, hp, hkey, hsound⟩ := hg.mapped id hid
      obtain ⟨p', hp', hab⟩ := hm.image hp
      exact ⟨p', hp', hab.key_eq.trans hkey, hab.sound hsound⟩
    · obtain ⟨p, hp, hab⟩ := hm.preimage hp'
      rw [hab.blocks_eq]
      exact hg.vacant id hid p hp
  · obtain ⟨p, hp, hab⟩ := hm.preimage hp'
    rw [hab.key_eq]
    exact hs.placed id p hp

/-- The heap with another page in the place of `id`. -/
def setPage (id : PageId) (p : Page) (h : Heap ρ) : Heap ρ :=
  { h with arena := { h.arena with memory := h.arena.memory.setPage id (some p) } }

theorem page?_setPage (hp : h.arena.memory.page? id = some p) (p' : Page) (j : PageId) :
    (h.setPage id p').arena.memory.page? j =
      if j = id then some p' else h.arena.memory.page? j :=
  Memory.page?_setPage (Memory.lt_of_page? hp) (some p') j

theorem Sound.setPage (hs : h.Sound) (hp : h.arena.memory.page? id = some p)
    (hkey : p'.key = p.key) (hsound : p'.Sound)
    (hvacant : id ∈ (h.shelf p.key).empty.toList → p'.blocks.toList = []) :
    (h.setPage id p').Sound := by
  have hpage := page?_setPage hp p'
  refine ⟨hs.size_eq, fun k hk => ?_, fun j q hq => ?_⟩
  · have hg := hs.good k hk
    refine ⟨hg.nodup, fun j hj => ?_, fun j hj q hq => ?_⟩
    · obtain ⟨q, hq, hqkey, hqsound⟩ := hg.mapped j hj
      by_cases he : j = id
      · subst he
        obtain rfl : p = q := Option.some.inj (hp.symm.trans hq)
        exact ⟨p', (hpage j).trans (if_pos rfl), hkey.trans hqkey, hsound⟩
      · exact ⟨q, (hpage j).trans ((if_neg he).trans hq), hqkey, hqsound⟩
    · change (h.setPage id p').arena.memory.page? j = some q at hq
      rw [hpage j] at hq
      by_cases he : j = id
      · subst he
        rw [if_pos rfl] at hq
        obtain rfl := Option.some.inj hq
        refine hvacant ?_
        obtain ⟨q, hq', hqkey, -⟩ := hg.mapped j (Shelf.mem_pages.mpr (.inl hj))
        obtain rfl : p = q := Option.some.inj (hp.symm.trans hq')
        rw [hqkey]
        exact hj
      · rw [if_neg he] at hq
        exact hg.vacant j hj q hq
  · rw [hpage j] at hq
    split_ifs at hq with he
    · obtain rfl := Option.some.inj hq
      rw [hkey, he]
      exact hs.placed id p hp
    · exact hs.placed j q hq

/-! ### Housekeeping -/

/-- One step of housekeeping in a heap. -/
inductive Tidy (policy : Policy ρ) : Heap ρ → Heap ρ → Prop
  | shelf {h : Heap ρ} {k : Request} {d : Depot ρ} (mem : k ∈ allRequests)
      (step : Depot.Tidy policy k (h.depot k) d) : Tidy policy h (h.setDepot k d)
  /-- A page is asked for a block that it has no room for. -/
  | keep {h : Heap ρ} {id : PageId} {p p' : Page} (page : h.arena.memory.page? id = some p)
      (keeps : p.Keeps p') : Tidy policy h (h.setPage id p')
  /-- What sweeps have found is passed on. -/
  | flush {h : Heap ρ} : Tidy policy h { h with
      arena := { h.arena with found := {} }
      pending := h.pending.merge h.arena.found }
  | idle {h : Heap ρ} {a : Arena ρ} (same : Arena.Same h.arena a) :
      Tidy policy h { h with arena := a }

abbrev Tidies (policy : Policy ρ) : Heap ρ → Heap ρ → Prop := Relation.ReflTransGen (Tidy policy)

theorem Tidy.sound (ht : Tidy policy h h') (hs : h.Sound) : h'.Sound := by
  cases ht with
  | @shelf k d hk hstep =>
    obtain ⟨hgood, hframe⟩ := hstep.good_frame (hs.good k hk)
    have hshelf (k' : Request) (hk' : k' ∈ allRequests) :
        (h.setDepot k d).shelf k' = if k' = k then d.shelf else h.shelf k' :=
      shelf_setDepot hs.size_eq hk hk' d
    have hother {k' : Request} (hk' : k' ∈ allRequests) (hne : k' ≠ k) {j : PageId}
        (hj : j ∈ (h.shelf k').pages.toList) : j ∉ (h.shelf k).pages.toList := by
      intro hj'
      obtain ⟨q, hq, hqkey, -⟩ := hs.key_of_mem hk' hj
      obtain ⟨q', hq', hqkey', -⟩ := hs.key_of_mem hk hj'
      obtain rfl : q = q' := Option.some.inj (hq.symm.trans hq')
      exact hne (hqkey.symm.trans hqkey')
    refine ⟨by simpa using hs.size_eq, fun k' hk' => ?_, fun j q' hq' => ?_⟩
    · have hdepot : (h.setDepot k d).depot k' =
        ⟨if k' = k then d.shelf else h.shelf k', d.arena⟩ := by
        rw [depot, hshelf k' hk', setDepot_arena]
      rw [hdepot]
      by_cases he : k' = k
      · rw [if_pos he, he]
        exact hgood
      · rw [if_neg he]
        have hg := hs.good k' hk'
        have hkept {j : PageId} (hj : j ∈ (h.shelf k').pages.toList) {q : Page}
            (hq : h.arena.memory.page? j = some q) :
            ∃ q', d.arena.memory.page? j = some q' ∧ q.Alike q' :=
          (hframe.others j q (hother hk' he hj) hq).2
        refine ⟨hg.nodup, fun j hj => ?_, fun j hj q' hq' => ?_⟩
        · obtain ⟨q, hq, hqkey, hqsound⟩ := hg.mapped j hj
          obtain ⟨q', hq', hab⟩ := hkept hj hq
          exact ⟨q', hq', hab.key_eq.trans hqkey, hab.sound hqsound⟩
        · have hmem : j ∈ (h.shelf k').pages.toList := Shelf.mem_pages.mpr (.inl hj)
          obtain ⟨q, hq, -, -⟩ := hg.mapped j hmem
          obtain ⟨q'', hq'', hab⟩ := hkept hmem hq
          obtain rfl : q'' = q' := Option.some.inj (hq''.symm.trans hq')
          rw [hab.blocks_eq]
          exact hg.vacant j hj q hq
    · rw [setDepot_arena] at hq'
      rcases hframe.back j q' hq' with hj | ⟨hj, q, hq, hab⟩
      · obtain ⟨q'', hq'', hqkey, -⟩ := hgood.mapped j hj
        obtain rfl : q'' = q' := Option.some.inj (hq''.symm.trans hq')
        rw [hqkey, hshelf k hk, if_pos rfl]
        exact ⟨hk, hj⟩
      · obtain ⟨hqkey, hmem⟩ := hs.placed j q hq
        rw [hab.key_eq, hshelf q.key hqkey, if_neg (fun he => hj (by rw [depot, ← he]; exact hmem))]
        exact ⟨hqkey, hmem⟩
  | @keep id p p' hp hkeeps =>
    refine hs.setPage hp hkeeps.key_eq hkeeps.sound fun hid => ?_
    rw [hkeeps.blocks_eq]
    exact (hs.good p.key (hs.placed id p hp).1).vacant id hid p hp
  | flush =>
    have := hs.amends (a := { h.arena with found := {} }) (.refl _)
    exact ⟨this.size_eq, this.good, this.placed⟩
  | idle hsame => exact hs.amends (.of_eq hsame.pages_eq)

theorem Tidies.sound (ht : Tidies policy h h') (hs : h.Sound) : h'.Sound := by
  induction ht with
  | refl => exact hs
  | tail _ hstep ih => exact hstep.sound ih

end SweptHeap.Heap
