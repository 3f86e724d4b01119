import Mathlib
import SweptHeap.Allocator
import SweptHeap.Proofs.Heap.Operations

/-!
# Allocators at work

An allocator takes blocks and records from pages that the current cycle has handed out. Whatever an
allocator of a sound heap is asked for, it gets, after some housekeeping (`Allocates`). The pages
that it keeps for later stay among the used ones for as long as its epoch is the heap's (`Valid`),
and a page that it begins to keep was used by nobody (`Follows`).
-/

namespace SweptHeap

namespace Heap

variable {ρ : Type} {policy : Policy ρ} {h h' h'' : Heap ρ} {k r : Request}
  {id : PageId} {p p' : Page}

/-- The heaps differ at most in counters and reports. -/
def Same (h h' : Heap ρ) : Prop := ∃ a, Arena.Same h.arena a ∧ h' = { h with arena := a }

theorem Same.refl (h : Heap ρ) : Same h h := ⟨h.arena, .refl _, rfl⟩

theorem Same.trans (hs : Same h h') (hs' : Same h' h'') : Same h h'' := by
  obtain ⟨a, ha, rfl⟩ := hs
  obtain ⟨b, hb, rfl⟩ := hs'
  exact ⟨b, ha.trans hb, rfl⟩

theorem Same.tidy (hs : Same h h') : Tidy policy h h' := by
  obtain ⟨a, ha, rfl⟩ := hs
  exact .idle ha

theorem Same.bytes_eq (hs : Same h h') : h'.bytes = h.bytes := by
  obtain ⟨a, ha, rfl⟩ := hs
  exact bytes_same (fun _ _ => rfl) ha.pages_eq

theorem Same.sound (hs : Same h h') (hh : h.Sound) : h'.Sound := by
  obtain ⟨a, ha, rfl⟩ := hs
  exact hh.amends (.of_eq ha.pages_eq)

/-- Pages may have been asked in vain, what was found may have been passed on, and nothing else has
happened. -/
structure Rests (h h' : Heap ρ) : Prop where
  pages : ∀ id p, h.arena.memory.page? id = some p →
    ∃ p', h'.arena.memory.page? id = some p' ∧ p.Keeps p'
  shelf_eq : ∀ k, h'.shelf k = h.shelf k
  memo_eq : h'.arena.memo = h.arena.memo
  meter_eq : h'.arena.meter = h.arena.meter

theorem Rests.refl (hs : h.Sound) : Rests h h :=
  ⟨fun _ p hp => ⟨p, hp, .refl (hs.page_sound hp)⟩, fun _ => rfl, rfl, rfl⟩

theorem Rests.trans (hr : Rests h h') (hr' : Rests h' h'') : Rests h h'' := by
  refine ⟨fun id p hp => ?_, fun k => (hr'.shelf_eq k).trans (hr.shelf_eq k),
    hr'.memo_eq.trans hr.memo_eq, hr'.meter_eq.trans hr.meter_eq⟩
  obtain ⟨p', hp', hkeeps⟩ := hr.pages id p hp
  obtain ⟨p'', hp'', hkeeps'⟩ := hr'.pages id p' hp'
  exact ⟨p'', hp'', hkeeps.trans hkeeps'⟩

theorem Rests.good (hr : Rests h h') (hg : Depot.Good k (h.depot k)) :
    Depot.Good k (h'.depot k) := by
  have hshelf : (h'.depot k).shelf = (h.depot k).shelf := hr.shelf_eq k
  refine ⟨hshelf.symm ▸ hg.nodup, fun j hj => ?_, fun j hj p₁ hp₁ => ?_⟩
  · obtain ⟨p, hp, hkey, -⟩ := hg.mapped j (hshelf ▸ hj)
    obtain ⟨p', hp', hkeeps⟩ := hr.pages j p hp
    exact ⟨p', hp', hkeeps.key_eq.trans hkey, hkeeps.sound⟩
  · rw [hshelf] at hj
    obtain ⟨p, hp, -⟩ := hg.mapped j (Shelf.mem_pages.mpr (.inl hj))
    obtain ⟨p', hp', hkeeps⟩ := hr.pages j p hp
    obtain rfl : p' = p₁ := Option.some.inj (hp'.symm.trans hp₁)
    rw [hkeeps.blocks_eq]
    exact hg.vacant j hj p hp

theorem rests_setPage (hs : h.Sound) (hp : h.arena.memory.page? id = some p) (hkeeps : p.Keeps p') :
    Rests h (h.setPage id p') := by
  refine ⟨fun j q hq => ?_, fun _ => rfl, rfl, rfl⟩
  rw [page?_setPage hp]
  split_ifs with hj
  · obtain rfl : p = q := Option.some.inj (hp.symm.trans (hj ▸ hq))
    exact ⟨p', rfl, hkeeps⟩
  · exact ⟨q, hq, .refl (hs.page_sound hq)⟩

/-- A used page gives up a place, in the way of `take`. -/
def Gets (take : Page → Nat → Page → Prop) (h : Heap ρ) (b : BlockRef) (h' : Heap ρ) : Prop :=
  ∃ p p', h.arena.memory.page? b.page = some p ∧ b.page ∈ (h.shelf p.key).used.toList ∧
    take p b.index p' ∧ Same (h.setPage b.page p') h'

theorem Gets.mono {take take' : Page → Nat → Page → Prop} {b : BlockRef} (hg : Gets take h b h')
    (himp : ∀ p i p', take p i p' → take' p i p') : Gets take' h b h' := by
  obtain ⟨p, p', hp, hused, htake, hsame⟩ := hg
  exact ⟨p, p', hp, hused, himp _ _ _ htake, hsame⟩

/-- A block adds to the total what it takes. -/
theorem Gets.bytes_eq {take : Page → Nat → Page → Prop} {b : BlockRef} {n : Nat}
    (hg : Gets take h b h') (hs : h.Sound) (hkind : ∀ p i p', take p i p' → p.kind ≠ .records)
    (hbytes : ∀ p i p', p.Sound → take p i p' → p'.allocatedBytes = p.allocatedBytes + n) :
    h'.bytes = h.bytes + n := by
  obtain ⟨p, p', hp, hused, htake, hsame⟩ := hg
  have hself := hsame.bytes_eq
  have hpage := bytes_setPage hs hp (hkind _ _ _ htake) (Shelf.mem_swept.mpr (.inr (.inr hused))) p'
  rw [hbytes p _ p' (hs.page_sound hp) htake] at hpage
  omega

theorem Gets.sound {b : BlockRef} (hg : Gets Page.Grown h b h') (hs : h.Sound) : h'.Sound := by
  obtain ⟨p, p', hp, hused, hgrown, hsame⟩ := hg
  refine hsame.sound (hs.setPage hp hgrown.key_eq hgrown.sound fun hempty => ?_)
  have hcount := List.nodup_iff_count_le_one.mp (hs.good _ (hs.placed _ p hp).1).nodup b.page
  have hone := List.count_pos_iff.mpr hused
  have htwo := List.count_pos_iff.mpr hempty
  simp only [depot, Shelf.toList_pages, List.count_append] at hcount
  omega

/-- The heap with another cell. -/
def write (b : BlockRef) (c : Cell) (h : Heap ρ) : Heap ρ :=
  { h with arena := h.arena.modifyMemory (·.setCell b c) }

/-- The heap with a record changed. -/
def amend (r : BlockRef) (f : Record → Record) (h : Heap ρ) : Heap ρ :=
  { h with arena := h.arena.modifyMemory (·.modifyRecord r f) }

/-- Used pages stay used until the next cycle begins. -/
structure Advances (h h' : Heap ρ) : Prop where
  epoch_le : h.epoch ≤ h'.epoch
  used : h'.epoch = h.epoch → ∀ k ∈ allRequests,
    (h.shelf k).used.toList ⊆ (h'.shelf k).used.toList

theorem Advances.trans (ha : Advances h h') (ha' : Advances h' h'') : Advances h h'' := by
  refine ⟨ha.epoch_le.trans ha'.epoch_le, fun he k hk => ?_⟩
  have h₁ := ha.epoch_le
  have h₂ := ha'.epoch_le
  exact List.Subset.trans (ha.used (by omega) k hk) (ha'.used (by omega) k hk)

theorem Tidies.advances (ht : Tidies policy h h') (hs : h.Sound) : Advances h h' :=
  ⟨ht.epoch_eq.ge, fun _ _ hk => (ht.lists hs hk).2⟩

theorem Advances.of_shelf (hshelf : ∀ k, h'.shelf k = h.shelf k) (hepoch : h'.epoch = h.epoch) :
    Advances h h' :=
  ⟨hepoch.ge, fun _ k _ => by rw [hshelf k]; exact List.Subset.refl _⟩

theorem Gets.advances {take : Page → Nat → Page → Prop} {b : BlockRef} (hg : Gets take h b h') :
    Advances h h' := by
  obtain ⟨p, p', hp, hused, htake, a, ha, rfl⟩ := hg
  exact .of_shelf (fun _ => rfl) rfl

theorem Gets.epoch_eq {take : Page → Nat → Page → Prop} {b : BlockRef} (hg : Gets take h b h') :
    h'.epoch = h.epoch := by
  obtain ⟨p, p', hp, hused, htake, a, ha, rfl⟩ := hg
  rfl

theorem submit_eq (h : Heap ρ) (q : Handoff BlockRef) :
    (submit q).apply h = (.ok (), { h with pending := h.pending.merge q }) := by
  rw [submit, Act.apply_modify]
  split_ifs with hempty
  · have hitems : q.items = #[] := by simpa [Handoff.isEmpty] using hempty
    rw [Handoff.merge, hitems, Array.append_empty]
  · rfl

theorem Prepared.advances (hp : Prepared h h') : Advances h h' :=
  ⟨by rw [hp.epoch_eq]; omega, fun he => by rw [hp.epoch_eq] at he; omega⟩

end Heap

namespace Allocator

open Heap (Tidies Gets Same Advances Rests)

variable {ρ : Type} {policy : Policy ρ} {h h' : Heap ρ} {a a' : Allocator}
  {r : Request} {id : PageId} {take : PageId → Memory → Except Fault (Option BlockRef) × Memory}
  {way : Page → Nat → Page → Prop}

/-- What an allocator keeps for later is its own, unless a cycle has begun. -/
structure Valid (h : Heap ρ) (a : Allocator) : Prop where
  size_eq : a.uniform.size = largestUniform + 1
  epoch_le : a.epoch ≤ h.epoch
  owns : a.epoch = h.epoch → ∀ r id, cached r a = some id → id ∈ (h.shelf r).used.toList

/-- A new allocator keeps no page. -/
theorem cached_new (h : Heap ρ) (r : Request) : cached r (new h) = none := by
  obtain ⟨kind, cells⟩ := r
  cases kind with
  | uniform =>
    simp only [Allocator.cached, new, Array.getD_eq_getD_getElem?, Array.getElem?_replicate]
    split_ifs <;> rfl
  | tiled => rfl
  | large => rfl
  | records => rfl

theorem valid_new (h : Heap ρ) : Valid h (new h) := by
  refine ⟨by simp [new], Nat.le_refl _, fun _ r id hc => ?_⟩
  rw [cached_new] at hc
  cases hc

/-- A request whose page can be cached names a shelf. -/
theorem Valid.key_mem (ha : Valid h a) (hc : cached r a = some id) : r.key ∈ Heap.allRequests := by
  obtain ⟨kind, cells⟩ := r
  rw [Heap.mem_allRequests]
  cases kind with
  | uniform =>
    refine .inl ⟨rfl, ?_⟩
    change cells ≤ largestUniform
    by_contra hlt
    have hsize := ha.size_eq
    simp only [Allocator.cached, Array.getD_eq_getD_getElem?] at hc
    rw [Array.getElem?_eq_none (by omega)] at hc
    cases hc
  | tiled => exact .inr (.inl rfl)
  | large => cases hc
  | records => exact .inr (.inr (.inr rfl))

theorem Valid.advances (ha : Valid h a) (had : Advances h h') : Valid h' a := by
  refine ⟨ha.size_eq, ha.epoch_le.trans had.epoch_le, fun he r id hc => ?_⟩
  have hle := ha.epoch_le
  have hle' := had.epoch_le
  have hused := had.used (by omega) r.key (ha.key_mem hc)
  rw [Heap.shelf_key, Heap.shelf_key] at hused
  exact hused (ha.owns (by omega) r id hc)

/-- The bytes that an allocator counts do not matter. -/
theorem Valid.congr (ha : Valid h a) (huniform : a'.uniform = a.uniform)
    (htiled : a'.tiled = a.tiled) (hrecords : a'.records = a.records)
    (hepoch : a'.epoch = a.epoch) : Valid h a' := by
  have hcached (r : Request) : cached r a' = cached r a := by
    simp only [Allocator.cached, huniform, htiled, hrecords]
  exact ⟨by rw [huniform, ha.size_eq], by rw [hepoch]; exact ha.epoch_le,
    fun he r id hc => ha.owns (hepoch ▸ he) r id (hcached r ▸ hc)⟩

theorem cached_cache {r' : Request} {id' : PageId} (hc : cached r' (cache r id a) = some id') :
    cached r' a = some id' ∨ id' = id ∧ r'.key = r.key := by
  obtain ⟨kind, cells⟩ := r
  obtain ⟨kind', cells'⟩ := r'
  cases kind <;> cases kind' <;> try exact .inl hc
  · simp only [cached, cache, Array.getD_eq_getD_getElem?, Array.getElem?_setIfInBounds] at hc ⊢
    by_cases hcells : cells = cells'
    · subst hcells
      rw [if_pos rfl] at hc
      split_ifs at hc
      · exact .inr ⟨(Option.some.inj hc).symm, rfl⟩
      · cases hc
    · rw [if_neg hcells] at hc
      exact .inl hc
  · exact .inr ⟨(Option.some.inj hc).symm, rfl⟩
  · exact .inr ⟨(Option.some.inj hc).symm, rfl⟩

theorem cache_same : (cache r id a).epoch = a.epoch ∧ (cache r id a).localBytes = a.localBytes := by
  obtain ⟨kind, cells⟩ := r
  cases kind <;> exact ⟨rfl, rfl⟩

theorem Valid.cache (ha : Valid h a) (hid : id ∈ (h.shelf r).used.toList) :
    Valid h (Allocator.cache r id a) := by
  have hepoch : (Allocator.cache r id a).epoch = a.epoch := cache_same.1
  have hsize : (Allocator.cache r id a).uniform.size = a.uniform.size := by
    obtain ⟨kind, cells⟩ := r
    cases kind <;> simp [Allocator.cache]
  refine ⟨hsize.trans ha.size_eq, hepoch.trans_le ha.epoch_le, fun he r' id' hc => ?_⟩
  rcases cached_cache hc with hc | ⟨rfl, hkey⟩
  · exact ha.owns (hepoch ▸ he) r' id' hc
  · rwa [← Heap.shelf_key, hkey, Heap.shelf_key]

/-- What an allocator keeps, it kept before as its own, or nobody used it then. -/
structure Follows (h : Heap ρ) (a : Allocator) (h' : Heap ρ) (a' : Allocator) : Prop where
  valid : Valid h' a'
  kept : a'.epoch = h'.epoch → ∀ r id, cached r a' = some id →
    a.epoch = h.epoch ∧ cached r a = some id ∨ h.Unused id

/-- An allocator that keeps the same pages. -/
theorem Follows.of_cached (ha : Valid h' a') (he : a'.epoch = h'.epoch → a.epoch = h.epoch)
    (hcached : ∀ r, cached r a' = cached r a) : Follows h a h' a' :=
  ⟨ha, fun he' r _ hc => .inl ⟨he he', (hcached r).symm.trans hc⟩⟩

theorem Follows.trans {h₁ : Heap ρ} {a₁ : Allocator} (hf : Follows h a h₁ a₁)
    (hf' : Follows h₁ a₁ h' a') (had : Advances h h₁) (he : h₁.epoch = h.epoch) :
    Follows h a h' a' := by
  refine ⟨hf'.valid, fun he' r id hc => ?_⟩
  rcases hf'.kept he' r id hc with ⟨he₁, hc₁⟩ | hunused
  · exact hf.kept he₁ r id hc₁
  · exact .inr fun k hk hid => hunused k hk (had.used he k hk hid)

theorem Follows.advances {h'' : Heap ρ} (hf : Follows h a h' a') (had : Advances h' h'') :
    Follows h a h'' a' := by
  refine ⟨hf.valid.advances had, fun he => hf.kept ?_⟩
  have hle := hf.valid.epoch_le
  have hle' := had.epoch_le
  omega

theorem Follows.congr {a'' : Allocator} (hf : Follows h a h' a')
    (huniform : a''.uniform = a'.uniform) (htiled : a''.tiled = a'.tiled)
    (hrecords : a''.records = a'.records) (hepoch : a''.epoch = a'.epoch) : Follows h a h' a'' := by
  refine ⟨hf.valid.congr huniform htiled hrecords hepoch, fun he r id hc => ?_⟩
  refine hf.kept (hepoch.symm.trans he) r id ?_
  simpa only [Allocator.cached, huniform, htiled, hrecords] using hc

/-- Two allocators that are both up to date keep no page in common. -/
def Apart (h : Heap ρ) (a a' : Allocator) : Prop :=
  a.epoch = h.epoch → a'.epoch = h.epoch → ∀ r r' id, cached r a = some id → cached r' a' ≠ some id

theorem Apart.symm (hapart : Apart h a a') : Apart h a' a :=
  fun he' he r r' id hc hc' => hapart he he' r' r id hc' hc

theorem Apart.advances (hapart : Apart h a a') (ha : Valid h a) (ha' : Valid h a')
    (had : Advances h h') : Apart h' a a' := by
  intro he he'
  have hle := ha.epoch_le
  have hle' := ha'.epoch_le
  have hepoch := had.epoch_le
  exact hapart (by omega) (by omega)

/-- An allocator that was apart from `a` and has not worked is apart from what `a` has become. -/
theorem Follows.apart {b : Allocator} (hf : Follows h a h' a')
    (hb : Valid h b) (had : Advances h h') (hapart : Apart h b a) : Apart h' b a' := by
  intro he he' r r' id hc hc'
  have hle := hb.epoch_le
  have hepoch := had.epoch_le
  have hbh : b.epoch = h.epoch := by omega
  rcases hf.kept he' r' id hc' with ⟨hah, hca⟩ | hunused
  · exact hapart hbh hah r r' id hc hca
  · refine hunused r.key (hb.key_mem hc) ?_
    rw [Heap.shelf_key]
    exact hb.owns hbh r id hc

/-- The bytes that an allocator has handed out and the meter has not counted. -/
def owed (h : Heap ρ) (a : Allocator) : Nat := if a.epoch = h.epoch then a.localBytes else 0

theorem owed_eq (he : a.epoch = h.epoch) : a.owed h = a.localBytes := if_pos he

/-- What the meter and the allocator have counted is what pages of blocks have gained. -/
def Balances (h : Heap ρ) (a : Allocator) (h' : Heap ρ) (a' : Allocator) : Prop :=
  ∃ n, h.arena.meter.Counts n h'.arena.meter ∧ h'.bytes + a.owed h = h.bytes + n + a'.owed h'

theorem Balances.of_charges (hc : h.Charges h') (howed : a'.owed h' = a.owed h) :
    Balances h a h' a' := by
  obtain ⟨n, hcounts, hbytes⟩ := hc
  exact ⟨n, hcounts, by omega⟩

theorem Balances.trans {h₁ : Heap ρ} {a₁ : Allocator} (hb : Balances h a h₁ a₁)
    (hb' : Balances h₁ a₁ h' a') : Balances h a h' a' := by
  obtain ⟨n, hcounts, hbytes⟩ := hb
  obtain ⟨n', hcounts', hbytes'⟩ := hb'
  exact ⟨n + n', hcounts.trans hcounts', by omega⟩

/-- An allocator has served a block. -/
structure Serves (h : Heap ρ) (a : Allocator) (h' : Heap ρ) (a' : Allocator) : Prop
    extends Follows h a h' a' where
  balances : Balances h a h' a'

/-! ### Pieces -/

theorem apply_onHeap {α : Type} {act : Act (Heap ρ) α} {result : Except Fault α}
    (heq : act.apply h = (result, h')) : (onHeap act).apply ⟨h, a⟩ = (result, ⟨h', a⟩) := by
  simp only [Act.apply, ExceptT.run] at heq
  simp only [Act.apply, ExceptT.run, onHeap, heq]

theorem apply_modifySelf (f : Allocator → Allocator) :
    (modifySelf f).apply (⟨h, a⟩ : Desk ρ) = (.ok (), ⟨h, f a⟩) := rfl

theorem apply_onMemory {α : Type} (f : Memory → Except Fault α × Memory) :
    (onMemory f).apply (⟨h, a⟩ : Desk ρ) = ((f h.arena.memory).1,
      ⟨{ h with arena := { h.arena with memory := (f h.arena.memory).2 } }, a⟩) := rfl

theorem apply_attempts : attempts.apply (⟨h, a⟩ : Desk ρ) =
    (.ok (h.arena.memory.pages.size + 2), ⟨h, a⟩) := rfl

/-- The heap after what sweeps have found is passed on. -/
def flushed (h : Heap ρ) : Heap ρ :=
  { h with arena := { h.arena with found := {} }, pending := h.pending.merge h.arena.found }

theorem flush_eq : flush.apply (⟨h, a⟩ : Desk ρ) = (.ok (), ⟨flushed h, a⟩) := by
  rw [flush, Heap.takeFound, Act.apply_bind_ok (apply_onHeap (Heap.apply_onArena _ _))]
  exact apply_onHeap (Heap.submit_eq _ _)

theorem flushed_tidies (policy : Policy ρ) (h : Heap ρ) : Tidies policy h (flushed h) :=
  .single .flush

theorem flushed_rests (hs : h.Sound) : h.Rests (flushed h) :=
  ⟨(Rests.refl hs).pages, fun _ => rfl, rfl, rfl⟩

theorem flushed_charges (h : Heap ρ) : h.Charges (flushed h) :=
  .of_eq rfl (Heap.bytes_same (fun _ _ => rfl) rfl)

theorem commit_spec (ha : Valid h a) :
    ∃ h' a', commit.apply (⟨h, a⟩ : Desk ρ) = (.ok (), ⟨h', a'⟩) ∧
    Same h h' ∧ Valid h' a' ∧ a'.epoch = a.epoch ∧ (∀ r, cached r a' = cached r a) ∧
    a'.localBytes = 0 ∧ h.arena.meter.Counts a.localBytes h'.arena.meter := by
  have hsame : Same h { h with arena := (h.arena.addBytes a.localBytes).2 } :=
    ⟨(h.arena.addBytes a.localBytes).2, ⟨rfl, rfl, rfl⟩, rfl⟩
  have hvalid : Valid { h with arena := (h.arena.addBytes a.localBytes).2 } a :=
    ha.advances (.of_shelf (fun _ => rfl) rfl)
  rw [commit, Act.apply_get_bind, Act.apply_bind_ok (apply_modifySelf _),
    Act.apply_bind_ok (apply_onHeap (Heap.apply_onArena _ _))]
  split_ifs
  · exact ⟨_, _, apply_modifySelf _, hsame, hvalid.congr rfl rfl rfl rfl, rfl, fun _ => rfl, rfl,
      Meter.counts_add _ _⟩
  · exact ⟨_, _, rfl, hsame, hvalid.congr rfl rfl rfl rfl, rfl, fun _ => rfl,
      rfl, Meter.counts_add _ _⟩

/-- An allocator that is up to date passes its bytes on to the meter. -/
theorem balances_commit (hsame : Same h h') (he : a.epoch = h.epoch) (he' : a'.epoch = a.epoch)
    (hlocal : a'.localBytes = 0) (hcounts : h.arena.meter.Counts a.localBytes h'.arena.meter) :
    Balances h a h' a' := by
  have hepoch : h'.epoch = h.epoch := by
    obtain ⟨b, -, rfl⟩ := hsame
    rfl
  refine ⟨a.localBytes, hcounts, ?_⟩
  rw [hsame.bytes_eq, owed_eq he, owed_eq (he'.trans (he.trans hepoch.symm)), hlocal, Nat.add_zero]

/-- An allocator that has missed the start of a cycle forgets its pages. -/
theorem sync_spec (ha : Valid h a) : ∃ h' a', sync.apply (⟨h, a⟩ : Desk ρ) = (.ok (), ⟨h', a'⟩) ∧
    (h' = h ∨ h' = flushed h) ∧ Follows h a h' a' ∧ a'.epoch = h'.epoch ∧ Balances h a h' a' := by
  rw [sync, Act.apply_get_bind, Act.apply_get_bind]
  dsimp only
  split_ifs with he
  · rw [Act.apply_bind_ok (apply_modifySelf _), flush_eq]
    refine ⟨_, _, rfl, .inr rfl, ⟨(valid_new (flushed h)).congr rfl rfl rfl rfl,
      fun _ r id hc => ?_⟩, rfl, .of_charges (flushed_charges h) ?_⟩
    · cases (cached_new h r).symm.trans hc
    · exact (owed_eq rfl).trans (if_neg he).symm
  · exact ⟨h, a, rfl, .inl rfl, .of_cached ha id fun _ => rfl, not_not.mp he,
      .of_charges (.refl h) rfl⟩

/-- `take` asks a page for what `r` requests; it gets it, in this way, if the page has room. -/
def Taking (r : Request) (take : PageId → Memory → Except Fault (Option BlockRef) × Memory)
    (way : Page → Nat → Page → Prop) : Prop :=
  ∀ (m : Memory) (id : PageId) (p : Page), m.page? id = some p → p.Sound → p.key = r.key →
    (∃ i p', p.hasRoom r.cells = .ok true ∧
      take id m = (.ok (some ⟨id, i⟩), m.setPage id (some p')) ∧ way p i p') ∨
    ∃ p', p.hasRoom r.cells = .ok false ∧
      take id m = (.ok none, m.setPage id (some p')) ∧ p.Keeps p'

theorem taking_allocate (hr : r.Valid) (hkind : r.kind = .uniform ∨ r.kind = .tiled) :
    Taking r (fun id => Memory.allocate id r.cells) fun p i p' =>
      p.key = r.key ∧ p.Gives r.cells i p' := by
  intro m id p hp hs hk
  rcases hs.allocate hr hk hkind with ⟨i, p', hroom, heq, hgives⟩ | ⟨p', hroom, heq, hkeeps⟩
  · exact .inl ⟨i, p', hroom, Memory.allocate_eq hp heq, hk, hgives⟩
  · exact .inr ⟨p', hroom, Memory.allocate_eq hp heq, hkeeps⟩

theorem taking_enroll (record : Record) :
    Taking .records (fun id => Memory.enroll id record) (Page.Enrolls · record) := by
  intro m id p hp hs hk
  have hkind : p.kind = .records := by rw [← p.key_kind, hk]; rfl
  rcases hs.enroll hkind 0 record with ⟨i, p', hroom, heq, henrolls⟩ | ⟨hroom, heq⟩
  · exact .inl ⟨i, p', hroom, Memory.enroll_eq hp heq, henrolls⟩
  · exact .inr ⟨p, hroom, Memory.enroll_eq hp heq, .refl hs⟩

/-- A page among the used ones of its shelf. -/
theorem mem_used (hs : h.Sound) (hr : r.Valid) (hid : id ∈ (h.shelf r).used.toList) :
    ∃ p, h.arena.memory.page? id = some p ∧ p.key = r.key ∧ p.Sound := by
  rw [← Heap.shelf_key] at hid
  exact hs.key_of_mem (Heap.key_mem_of_valid hr) (Shelf.mem_pages.mpr (.inr (.inr (.inl hid))))

theorem fromCache_spec (policy : Policy ρ) (ht : Taking r take way) (hr : r.Valid) (hs : h.Sound)
    (ha : Valid h a) (he : a.epoch = h.epoch) :
    (∃ h', (fromCache r take).apply (⟨h, a⟩ : Desk ρ) = (.ok none, ⟨h', a⟩) ∧
        Tidies policy h h' ∧ h'.arena.found = h.arena.found ∧ h.Spares r.key h' ∧ h.Charges h' ∧
        h.Rests h') ∨
      ∃ b h', (fromCache r take).apply (⟨h, a⟩ : Desk ρ) = (.ok (some b), ⟨h', a⟩) ∧
        Gets way h b h' ∧ h'.arena.meter = h.arena.meter ∧ cached r a = some b.page := by
  rw [fromCache, Act.apply_get_bind]
  dsimp only
  cases hc : cached r a with
  | none => exact .inl ⟨h, rfl, .refl, rfl, fun _ p hp _ => ⟨p, hp, .refl p⟩, .refl h, .refl hs⟩
  | some id =>
    have hid := ha.owns he r id hc
    obtain ⟨p, hp, hkey, hsound⟩ := mem_used hs hr hid
    dsimp only
    rw [apply_onMemory]
    rcases ht _ id p hp hsound hkey with ⟨i, p', -, heq, hway⟩ | ⟨p', -, heq, hkeeps⟩
    · rw [heq]
      refine .inr ⟨⟨id, i⟩, h.setPage id p', rfl, ⟨p, p', hp, ?_, hway, .refl _⟩, rfl, rfl⟩
      rwa [hkey, Heap.shelf_key]
    · rw [heq]
      refine .inl ⟨h.setPage id p', rfl, .single (.keep hp hkeeps), rfl, ?_, .of_eq rfl ?_,
        Heap.rests_setPage hs hp hkeeps⟩
      · rw [← hkey]
        exact Heap.spares_setPage hp p'
      · exact Heap.bytes_keep hs hp hkeeps

/-- A page that has been asked for gives what it was asked for, at the first attempt. -/
theorem refill_spec (policy : Policy ρ) (ht : Taking r take way) (hr : r.Valid)
    (hlarge : r.kind ≠ .large) (hs : h.Sound) (ha : Valid h a) (he : a.epoch = h.epoch)
    (attempts : Nat) : ∃ b h₁ h' a',
      (refill policy r take (attempts + 1)).apply ⟨h, a⟩ = (.ok b, ⟨h', a'⟩) ∧
      Tidies policy h h₁ ∧ h₁.arena.found = {} ∧ h.Spares r.key h₁ ∧ Gets way h₁ b h' ∧
      Follows h a h₁ a' ∧ (r.kind ≠ .records → h.Charges h₁) ∧ h'.arena.meter = h₁.arena.meter ∧
      a'.epoch = a.epoch ∧ a'.localBytes = a.localBytes ∧
      ∃ d, Depot.Delivers policy r (h.depot r.key) b.page d ∧
      h₁ = flushed (h.setDepot r.key d) := by
  obtain ⟨id, h₁, heq, htidies, ⟨hused, p, hp, hroom⟩, hspares, hunused,
    hcharges, d, hdelivers, hset⟩ :=
    Heap.getPage_spec policy hs hr hlarge
  have htidies' := htidies.trans (flushed_tidies policy h₁)
  obtain ⟨q, hq, hkey, hsound⟩ := mem_used (Tidies.sound htidies hs) hr hused
  obtain rfl : p = q := Option.some.inj (hp.symm.trans hq)
  have hfollows : Follows h a (flushed h₁) (cache r id a) := by
    refine ⟨(ha.advances (Tidies.advances htidies' hs)).cache hused, fun _ r' id' hc => ?_⟩
    rcases cached_cache hc with hc | ⟨rfl, -⟩
    · exact .inl ⟨he, hc⟩
    · exact .inr hunused
  rw [refill, Act.apply_bind_ok (apply_onHeap heq), Act.apply_bind_ok flush_eq,
    Act.apply_bind_ok (apply_modifySelf _)]
  rcases ht _ id p hp hsound hkey with ⟨i, p', -, htake, hway⟩ | ⟨p', hfull, -, -⟩
  · have htaken : (onMemory (take id)).apply ⟨flushed h₁, cache r id a⟩ =
        (.ok (some ⟨id, i⟩), ⟨(flushed h₁).setPage id p', cache r id a⟩) := by
      rw [apply_onMemory, show (flushed h₁).arena.memory = h₁.arena.memory from rfl, htake]
      rfl
    refine ⟨⟨id, i⟩, flushed h₁, (flushed h₁).setPage id p', cache r id a, ?_,
      htidies', rfl, hspares, ⟨p, p', hp, ?_, hway, .refl _⟩, hfollows,
      fun hk => (hcharges hk).trans (flushed_charges h₁), rfl,
      cache_same.1, cache_same.2, d, hdelivers, by rw [hset]⟩
    · rw [Act.apply_bind_ok htaken]
      rfl
    · rw [hkey, Heap.shelf_key]
      exact hused
  · rw [hfull] at hroom
    cases hroom

/-! ### Blocks -/

/-- Housekeeping, and then a place is taken in the way of `way`. -/
def Allocates (policy : Policy ρ) (way : Page → Nat → Page → Prop) (h : Heap ρ) (b : BlockRef)
    (h' : Heap ρ) : Prop :=
  ∃ h₁, Tidies policy h h₁ ∧ (h.arena.found = {} → h₁.arena.found = {}) ∧ Gets way h₁ b h'

/-- Bytes that a block of the request takes, with the header of its tile. -/
def weight (r : Request) : Nat := (r.cells + if r.kind = .tiled then 1 else 0) * cellBytes

theorem gets_bytes {b : BlockRef} (hs : h.Sound) (hr : 0 < r.cells)
    (hgets : Gets (fun p i p' => p.key = r.key ∧ p.Gives r.cells i p') h b h') :
    h'.bytes = h.bytes + weight r := by
  refine hgets.bytes_eq hs (fun p i p' hway => hway.2.kind_ne hr) fun p i p' hp hway => ?_
  have hkind : p.kind = r.kind := by rw [← p.key_kind, hway.1, r.key_kind]
  rw [hway.2.allocatedBytes_eq hp hr, weight, hkind]

/-- An allocator counts the block that it takes. -/
theorem balances_gets {b : BlockRef} (hs : h.Sound) (hr : 0 < r.cells)
    (hgets : Gets (fun p i p' => p.key = r.key ∧ p.Gives r.cells i p') h b h')
    (hmeter : h'.arena.meter = h.arena.meter) (he : a.epoch = h.epoch) :
    Balances h a h' { a with localBytes := a.localBytes + weight r } := by
  have hepoch := hgets.epoch_eq
  refine ⟨0, .of_eq hmeter, ?_⟩
  have howed : owed h' { a with localBytes := a.localBytes + weight r } = a.localBytes + weight r :=
    owed_eq (he.trans hepoch.symm)
  rw [gets_bytes hs hr hgets, owed_eq he, howed]
  omega

theorem allocateShared_spec (policy : Policy ρ) (hr : r.Valid)
    (hkind : r.kind = .uniform ∨ r.kind = .tiled) (hs : h.Sound) (ha : Valid h a)
    (he : a.epoch = h.epoch) :
    ∃ b h' a', (allocateShared policy r (weight r)).apply ⟨h, a⟩ = (.ok b, ⟨h', a'⟩) ∧
      Allocates policy (Page.Gives · r.cells) h b h' ∧ Serves h a h' a' := by
  have ht := taking_allocate hr hkind
  have hpos : 0 < r.cells := by
    obtain ⟨kind, cells⟩ := r
    rcases hkind with hkind | hkind <;>
      · obtain rfl : kind = _ := hkind
        exact hr.1
  rw [allocateShared]
  rcases fromCache_spec policy ht hr hs ha he with
    ⟨h₁, heq, htidies, hfound, -, hcharges, -⟩ | ⟨b, h', heq, hgets, hmeter, -⟩
  · rw [Act.apply_bind_ok heq]
    have hh₁ := Tidies.epoch_eq htidies
    obtain ⟨h₂, a₂, hcommit, hsame, hvalid₂, hepoch₂, hcached₂, hlocal₂, hcounts₂⟩ :=
      commit_spec (ha.advances (Tidies.advances htidies hs))
    have htidies₂ := htidies.tail hsame.tidy
    have hh₂ := Tidies.epoch_eq htidies₂
    have hs₂ := Tidies.sound htidies₂ hs
    obtain ⟨b, h₃, h', a', hrefill, htidies₃, hfound₃, -, hgets, hfollows,
      hcharges₃, hmeter, hepoch',
        hlocal', -⟩ :=
      refill_spec policy ht hr (by rcases hkind with hk | hk <;> simp [hk]) hs₂ hvalid₂
        (by rw [hepoch₂, hh₂, he]) (h₂.arena.memory.pages.size + 1)
    have hfollows' : Follows h a h₃ a' :=
      (Follows.of_cached hvalid₂ (fun _ => he) hcached₂).trans hfollows
        (Tidies.advances htidies₂ hs) hh₂
    have hbalances₁ : Balances h a h₁ a := .of_charges hcharges (by rw [owed, owed, hh₁])
    have hbalances₂ : Balances h a h₂ a₂ :=
      hbalances₁.trans (balances_commit hsame (he.trans hh₁.symm) hepoch₂ hlocal₂ hcounts₂)
    have hbalances₃ : Balances h₂ a₂ h₃ a' := by
      refine .of_charges (hcharges₃ (by rcases hkind with hk | hk <;> simp [hk])) ?_
      rw [owed, owed, hepoch', hlocal', Tidies.epoch_eq htidies₃]
    have hepoch₃ : a'.epoch = h₃.epoch := by
      rw [hepoch', hepoch₂, he, Tidies.epoch_eq htidies₃, hh₂]
    refine ⟨b, h', { a' with localBytes := a'.localBytes + weight r }, ?_,
      ⟨h₃, htidies₂.trans htidies₃, fun _ => hfound₃, hgets.mono fun _ _ _ hway => hway.2⟩,
      (hfollows'.advances hgets.advances).congr rfl rfl rfl rfl,
      (hbalances₂.trans hbalances₃).trans
        (balances_gets (Tidies.sound htidies₃ hs₂) hpos hgets hmeter hepoch₃)⟩
    dsimp only
    rw [Act.apply_bind_ok hcommit, Act.apply_bind_ok apply_attempts, Act.apply_bind_ok hrefill]
    rfl
  · rw [Act.apply_bind_ok heq]
    exact ⟨b, h', { a with localBytes := a.localBytes + weight r }, rfl,
      ⟨h, .refl, id, hgets.mono fun _ _ _ hway => hway.2⟩,
      .of_cached ((ha.advances hgets.advances).congr rfl rfl rfl rfl) (fun _ => he) fun _ => rfl,
      balances_gets hs hpos hgets hmeter he⟩

theorem allocateLarge_spec (policy : Policy ρ) {n : Nat} (hn : largestTiled < n) (hs : h.Sound)
    (ha : Valid h a) (he : a.epoch = h.epoch) :
    ∃ b h' a', (allocateLarge n).apply (⟨h, a⟩ : Desk ρ) = (.ok b, ⟨h', a'⟩) ∧
      Allocates policy (Page.Gives · n) h b h' ∧ Serves h a h' a' := by
  obtain ⟨id, p, h₁, hcreate, heq, htidies, hused, hpage, hfound, hcharges⟩ :=
    Heap.newLarge_spec policy hs hn
  obtain ⟨q, p', hq, hallocate, hgives⟩ := Page.allocate_large hn
  obtain rfl : p = q := Except.ok.inj (hcreate.symm.trans hq)
  have hkey : p.key = ⟨.large, 0⟩ := by
    obtain ⟨q, hq', -, hkey, -⟩ := Page.create_sound (r := ⟨.large, n⟩) hn
    rw [Except.ok.inj (hcreate.symm.trans hq')]
    exact hkey
  have hsame : Same (h₁.setPage id p') (h₁.setPage id p') := .refl _
  have hgets : Gets (fun p i p' => p.key = Request.key ⟨.large, n⟩ ∧ p.Gives n i p') h₁ ⟨id, 0⟩
      (h₁.setPage id p') := ⟨p, p', hpage, by rwa [hkey], ⟨hkey, hgives⟩, hsame⟩
  have hvalid := (ha.advances (Tidies.advances htidies hs)).advances hgets.advances
  obtain ⟨h₂, a₂, hcommit, hsame₂, hvalid₂, hepoch₂, hcached₂, hlocal₂, hcounts₂⟩ :=
    commit_spec (a := { a with localBytes := a.localBytes + n * cellBytes })
      (hvalid.congr rfl rfl rfl rfl)
  have hh₁ := Tidies.epoch_eq htidies
  have hbalances₁ : Balances h a h₁ a := .of_charges hcharges (by rw [owed, owed, hh₁])
  have hbalances₂ : Balances h₁ a (h₁.setPage id p')
      { a with localBytes := a.localBytes + n * cellBytes } :=
    balances_gets (r := ⟨.large, n⟩) (Tidies.sound htidies hs) (Nat.zero_lt_of_lt hn) hgets rfl
      (he.trans hh₁.symm)
  refine ⟨⟨id, 0⟩, h₂, a₂, ?_, ⟨h₁, htidies, fun hf => hfound.trans hf, p, p', hpage, by rwa [hkey],
    hgives, hsame₂⟩, .of_cached hvalid₂ (fun _ => he) hcached₂, (hbalances₁.trans hbalances₂).trans
    (balances_commit hsame₂ (he.trans hh₁.symm) hepoch₂ hlocal₂ hcounts₂)⟩
  have htaken : (onMemory (Memory.allocate id n)).apply ⟨h₁, a⟩ =
      (.ok (some ⟨id, 0⟩), ⟨h₁.setPage id p', a⟩) := by
    rw [apply_onMemory, Memory.allocate_eq hpage hallocate]
    rfl
  rw [allocateLarge, Act.apply_bind_ok (apply_onHeap heq), Act.apply_bind_ok htaken]
  dsimp only
  rw [addLocal, Act.apply_bind_ok (apply_modifySelf _), Act.apply_bind_ok hcommit]
  rfl

/-- An allocation gives a block of as many cells as the bytes need, and of at least one. -/
theorem allocate_spec (policy : Policy ρ) (hs : h.Sound) (ha : Valid h a) (bytes : Nat) :
    ∃ b h' a', (allocate policy bytes).apply ⟨h, a⟩ = (.ok b, ⟨h', a'⟩) ∧
      Allocates policy (Page.Gives · (max (cellsFor bytes) 1)) h b h' ∧ Serves h a h' a' := by
  obtain ⟨h₁, a₁, hsync, hcases, hfollows, hepoch, hbalances⟩ := sync_spec ha
  have htidies : Tidies policy h h₁ ∧ (h.arena.found = {} → h₁.arena.found = {}) := by
    rcases hcases with rfl | rfl
    · exact ⟨.refl, id⟩
    · exact ⟨flushed_tidies policy h, fun _ => rfl⟩
  have hs₁ := Tidies.sound htidies.1 hs
  rw [allocate, Act.apply_bind_ok hsync]
  obtain ⟨n, hn⟩ : ∃ n, n = max (cellsFor bytes) 1 := ⟨_, rfl⟩
  have hpos : 0 < n := by omega
  -- What is served after the flush is served as a whole.
  have hafter {act : Act (Desk ρ) BlockRef} (hact : ∃ b h' a',
      act.apply ⟨h₁, a₁⟩ = (.ok b, ⟨h', a'⟩) ∧
      Allocates policy (Page.Gives · n) h₁ b h' ∧ Serves h₁ a₁ h' a') :
      ∃ b h' a', act.apply ⟨h₁, a₁⟩ = (.ok b, ⟨h', a'⟩) ∧
        Allocates policy (Page.Gives · n) h b h' ∧ Serves h a h' a' := by
    obtain ⟨b, h', a', heq, ⟨h₂, ht, hfound, hgets⟩, hserves⟩ := hact
    exact ⟨b, h', a', heq, ⟨h₂, htidies.1.trans ht, fun hf => hfound (htidies.2 hf), hgets⟩,
      hfollows.trans hserves.toFollows (Tidies.advances htidies.1 hs) (Tidies.epoch_eq htidies.1),
      hbalances.trans hserves.balances⟩
  -- The three size classes are served by pages of three kinds.
  rw [← hn]
  refine hafter ?_
  rw [SizeClass.ofBytes, SizeClass.ofCells, ← hn]
  by_cases huniform : n ≤ largestUniform
  · simp only [huniform, if_true]
    exact allocateShared_spec (r := ⟨.uniform, n⟩) policy ⟨hpos, huniform⟩ (.inl rfl) hs₁
      hfollows.valid hepoch
  · by_cases htiled : n ≤ largestTiled
    · simp only [huniform, htiled, if_true, if_false]
      exact allocateShared_spec (r := ⟨.tiled, n⟩) policy ⟨hpos, htiled⟩ (.inr rfl) hs₁
        hfollows.valid hepoch
    · simp only [huniform, htiled, if_false]
      exact allocateLarge_spec policy (by omega) hs₁ hfollows.valid hepoch

/-! ### Objects -/

theorem apply_lift {σ α : Type} (e : Except Fault α) (s : σ) :
    Act.apply (liftM e : Act σ α) s = (e, s) := rfl

/-- Cells of an object with `payload` bytes. -/
def objectCells (payload : Nat) : Nat := max (cellsFor (payload + objectHeaderBytes)) 1

theorem two_le_objectCells (payload : Nat) : 2 ≤ objectCells payload := by
  simp only [objectCells, cellsFor, objectHeaderBytes, cellBytes]
  omega

theorem createObject_spec (policy : Policy ρ) {payload : Nat}
    (hlt : payload + objectHeaderBytes < wordLimit) (hs : h.Sound) (ha : Valid h a) :
    ∃ b h' a', (createObject policy payload).apply ⟨h, a⟩ = (.ok b, ⟨h', a'⟩) ∧
      Allocates policy (Page.Gives · (objectCells payload)) h b h' ∧ Serves h a h' a' := by
  obtain ⟨b, h', a', heq, hall, hserves⟩ := allocate_spec policy hs ha (payload + objectHeaderBytes)
  refine ⟨b, h', a', ?_, hall, hserves⟩
  rw [createObject, Act.apply_bind_ok (apply_lift _ _ |>.trans (by rw [objectBytes, if_pos hlt])),
    heq]

theorem createObject_error (policy : Policy ρ) {payload : Nat}
    (hge : ¬payload + objectHeaderBytes < wordLimit) :
    (createObject policy payload).apply (⟨h, a⟩ : Desk ρ) = (.error .objectSize, ⟨h, a⟩) := by
  rw [createObject, Act.apply_bind_error
    (apply_lift _ _ |>.trans (by rw [objectBytes, if_neg hge]))]

/-- Bytes behind the header of an array. -/
def arrayBytes (element count : Nat) : Nat := element * count + arrayLengthBytes

theorem three_le_arrayCells (element count : Nat) : 3 ≤ objectCells (arrayBytes element count) := by
  simp only [objectCells, arrayBytes, arrayLengthBytes, cellsFor, objectHeaderBytes, cellBytes]
  omega

theorem createArray_spec (policy : Policy ρ) {element count : Nat}
    (hlt : arrayBytes element count + objectHeaderBytes < wordLimit)
    (hs : h.Sound) (ha : Valid h a) : ∃ b h₁ a', (createArray policy element count).apply ⟨h, a⟩ =
        (.ok b, ⟨h₁.write b.payloadCell (.word count.toUInt64), a'⟩) ∧
      Allocates policy (Page.Gives · (objectCells (arrayBytes element count))) h b h₁ ∧
      Serves h a h₁ a' := by
  obtain ⟨b, h₁, a', heq, hall, hserves⟩ := createObject_spec policy hlt hs ha
  have hpayload : arrayPayload element count = .ok (arrayBytes element count) :=
    if_pos (Nat.lt_of_le_of_lt (Nat.le_add_right (arrayBytes element count) _) hlt)
  refine ⟨b, h₁, a', ?_, hall, hserves⟩
  rw [createArray, Act.apply_bind_ok (apply_lift _ _ |>.trans (by rw [hpayload])),
    Act.apply_bind_ok heq]
  rfl

theorem createArray_error (policy : Policy ρ) {element count : Nat}
    (hge : ¬arrayBytes element count + objectHeaderBytes < wordLimit) :
    ∃ fault, (fault = .objectSize ∨ fault = .arraySize) ∧
      (createArray policy element count).apply (⟨h, a⟩ : Desk ρ) = (.error fault, ⟨h, a⟩) := by
  by_cases hlt : arrayBytes element count < wordLimit
  · refine ⟨.objectSize, .inl rfl, ?_⟩
    have hpayload : arrayPayload element count = .ok (arrayBytes element count) := if_pos hlt
    rw [createArray, Act.apply_bind_ok (apply_lift _ _ |>.trans (by rw [hpayload])),
      Act.apply_bind_error (createObject_error policy hge)]
  · refine ⟨.arraySize, .inr rfl, ?_⟩
    have hpayload : arrayPayload element count = .error .arraySize := if_neg hlt
    rw [createArray, Act.apply_bind_error (apply_lift _ _ |>.trans (by rw [hpayload]))]

/-! ### Records -/

/-- Where the page of a new record comes from: the allocator has kept it for later, or has asked for
it. -/
inductive Finds (policy : Policy ρ) (h : Heap ρ) (a : Allocator) (id : PageId) : Heap ρ → Prop
  | kept {h' : Heap ρ} (rests : h.Rests h') (epoch_eq : a.epoch = h.epoch)
      (cached_eq : cached .records a = some id) : Finds policy h a id h'
  | delivered {h' : Heap ρ} {d : Depot ρ} (rests : h.Rests h')
      (delivers : Depot.Delivers policy .records (h'.depot .records) id d) :
      Finds policy h a id (flushed (h'.setDepot .records d))

theorem allocateRecord_spec (policy : Policy ρ) (object : BlockRef) (flags : Flags) (hs : h.Sound)
    (ha : Valid h a) (he : a.epoch = h.epoch) :
    ∃ r h₁ h' a', (allocateRecord policy object flags).apply ⟨h, a⟩ = (.ok r, ⟨h', a'⟩) ∧
      Tidies policy h h₁ ∧ (h.arena.found = {} → h₁.arena.found = {}) ∧ h.Spares .records h₁ ∧
      Gets (Page.Enrolls · ⟨some object, flags⟩) h₁ r h' ∧ Follows h a h' a' ∧
      h'.arena.meter = h₁.arena.meter ∧ Finds policy h a r.page h₁ := by
  have ht := taking_enroll ⟨some object, flags⟩
  have hr : Request.Valid .records := trivial
  rw [allocateRecord]
  rcases fromCache_spec policy ht hr hs ha he with
    ⟨h₁, heq, htidies, hfound, hspares, -, hrests⟩ | ⟨r, h', heq, hgets, hmeter, hcached⟩
  · rw [Act.apply_bind_ok heq]
    have had := Tidies.advances htidies hs
    have hh₁ := Tidies.epoch_eq htidies
    obtain ⟨r, h₂, h', a', hrefill, htidies₂, hfound₂, hspares₂, hgets, hfollows, -,
      hmeter, -, -, d, hdelivers,
        rfl⟩ :=
      refill_spec policy ht hr (by simp [Request.records]) (Tidies.sound htidies hs)
        (ha.advances had) (he.trans hh₁.symm) (h₁.arena.memory.pages.size + 1)
    have hfollows' :=
      (Follows.of_cached (ha.advances had) (fun _ => he) fun _ => rfl).trans hfollows had hh₁
    refine ⟨r, _, h', a', ?_, htidies.trans htidies₂, fun _ => hfound₂, ?_, hgets,
      hfollows'.advances hgets.advances, hmeter, .delivered hrests hdelivers⟩
    · dsimp only
      rw [Act.apply_bind_ok apply_attempts, hrefill]
    · intro id p hp hne
      obtain ⟨p₁, hp₁, hab⟩ := hspares id p hp hne
      obtain ⟨p₂, hp₂, hab'⟩ := hspares₂ id p₁ hp₁ (hab.key_eq ▸ hne)
      exact ⟨p₂, hp₂, hab.trans hab'⟩
  · rw [Act.apply_bind_ok heq]
    exact ⟨r, h, h', a, rfl, .refl, id, fun _ p hp _ => ⟨p, hp, .refl p⟩, hgets,
      .of_cached (ha.advances hgets.advances) (fun _ => he) fun _ => rfl, hmeter,
      .kept (.refl hs) he hcached⟩

/-- An object that has a record keeps it, with more flags raised. -/
theorem createRecord_some (policy : Policy ρ) {object r : BlockRef}
    (hr : h.arena.memory.recordOf object = some r) (withFinalizer : Bool) :
    (createRecord policy object withFinalizer).apply ⟨h, a⟩ =
      (.ok r, ⟨h.amend r (·.raise (Flags.initial withFinalizer)), a⟩) := by
  rw [createRecord, Act.apply_get_bind]
  simp only [hr]
  rfl

/-- An object without a record gets one. The sweeps on the way touch pages of records only, so that
the object is still there without a record when the new one is linked. -/
theorem createRecord_none (policy : Policy ρ) {object : BlockRef} {p : Page}
    (hr : h.arena.memory.recordOf object = none) (hp : h.arena.memory.page? object.page = some p)
    (hkind : p.kind ≠ .records) (withFinalizer : Bool) (hs : h.Sound) (ha : Valid h a) :
    ∃ r h₁ h₂ a', (createRecord policy object withFinalizer).apply ⟨h, a⟩ =
        (.ok r, ⟨h₂.write object.linkCell (.link r), a'⟩) ∧
      Tidies policy h h₁ ∧ (h.arena.found = {} → h₁.arena.found = {}) ∧ h.Spares .records h₁ ∧
      Gets (Page.Enrolls · ⟨some object, Flags.initial withFinalizer⟩) h₁ r h₂ ∧
      Follows h a h₂ a' ∧ h₂.arena.meter = h₁.arena.meter ∧ Finds policy h a r.page h₁ := by
  obtain ⟨h₀, a₀, hsync, hcases, hfollows₀, hepoch₀, -⟩ := sync_spec ha
  have hpages₀ : h₀.arena.memory = h.arena.memory := by rcases hcases with rfl | rfl <;> rfl
  have htidies₀ : Tidies policy h h₀ ∧ (h.arena.found = {} → h₀.arena.found = {}) := by
    rcases hcases with rfl | rfl
    · exact ⟨.refl, id⟩
    · exact ⟨flushed_tidies policy h, fun _ => rfl⟩
  have hrests₀ : h.Rests h₀ := by
    rcases hcases with rfl | rfl
    · exact .refl hs
    · exact flushed_rests hs
  obtain ⟨r, h₁, h₂, a', heq, htidies, hfound, hspares, hgets, hfollows, hmeter, hfinds⟩ :=
    allocateRecord_spec policy object (Flags.initial withFinalizer) (Tidies.sound htidies₀.1 hs)
      hfollows₀.valid hepoch₀
  have hspares' : h.Spares .records h₁ := by
    intro id q hq
    exact hspares id q (by rwa [hpages₀])
  have hnone : h₂.arena.memory.recordOf object = none := by
    obtain ⟨p₁, hp₁, hab⟩ := hspares' _ p hp fun hkey => hkind (by rw [← p.key_kind, hkey]; rfl)
    obtain ⟨q, q', hq, -, henrolls, b, hsame, rfl⟩ := hgets
    have hne : object.page ≠ r.page := by
      intro he
      obtain rfl : p₁ = q := Option.some.inj (hp₁.symm.trans (he ▸ hq))
      exact hkind (hab.kind_eq ▸ henrolls.kind_eq)
    have hpage : b.memory.page? object.page = some p₁ := by
      rw [hsame.page?]
      exact (Heap.page?_setPage hq q' _).trans ((if_neg hne).trans hp₁)
    rw [Memory.recordOf, Memory.cell] at hr ⊢
    change Cell.toLink ((b.memory.page? object.page).elim _ _) = none
    change Cell.toLink ((h.arena.memory.page? object.page).elim _ _) = none at hr
    rw [hp] at hr
    rw [hpage]
    simpa [hab.cells_eq] using hr
  refine ⟨r, h₁, h₂, a', ?_, htidies₀.1.trans htidies, fun hf => hfound (htidies₀.2 hf),
    hspares', hgets,
    hfollows₀.trans hfollows (Tidies.advances htidies₀.1 hs) (Tidies.epoch_eq htidies₀.1),
    hmeter, ?_⟩
  · rw [createRecord, Act.apply_get_bind]
    simp only [hr]
    rw [Act.apply_bind_ok hsync, Act.apply_bind_ok heq, apply_onMemory]
    simp only [publish, Memory.link, hnone]
    rfl
  · cases hfinds with
    | delivered hrests hdelivers => exact .delivered (hrests₀.trans hrests) hdelivers
    | kept hrests hepoch hcached =>
      -- An allocator that had to catch up keeps no page.
      rcases hfollows₀.kept hepoch₀ .records r.page hcached with ⟨he, hc⟩ | hunused
      · exact .kept (hrests₀.trans hrests) he hc
      · have hused := hfollows₀.valid.owns hepoch₀ .records r.page hcached
        rw [hrests₀.shelf_eq] at hused
        exact absurd hused (hunused _ (Heap.key_mem_of_valid (r := .records) trivial))

theorem close_spec (policy : Policy ρ) (ha : Valid h a) :
    ∃ h' a', close.apply (⟨h, a⟩ : Desk ρ) = (.ok (), ⟨h', a'⟩) ∧ Tidies policy h h' ∧
      h'.arena.found = {} ∧ h'.bytes = h.bytes ∧
      h.arena.meter.Counts (a.owed h) h'.arena.meter := by
  rw [close, Act.apply_get_bind, Act.apply_get_bind]
  dsimp only
  split_ifs with he
  · obtain ⟨h₁, a₁, hcommit, hsame, -, -, -, -, hcounts⟩ := commit_spec ha
    rw [Act.apply_bind_ok hcommit]
    refine ⟨flushed h₁, a₁, flush_eq, .tail (.single hsame.tidy) .flush, rfl, ?_, ?_⟩
    · exact (Heap.bytes_same (fun _ _ => rfl) rfl).trans hsame.bytes_eq
    · rw [owed_eq he.symm]
      exact hcounts
  · refine ⟨flushed h, a, flush_eq, .single .flush, rfl, Heap.bytes_same (fun _ _ => rfl) rfl, ?_⟩
    rw [owed, if_neg (Ne.symm he)]
    exact .refl _

end Allocator

end SweptHeap
