import Mathlib
import SweptHeap.Proofs.Heap.Allocation

/-!
# Watching the meter

Between two cycles no page waits for the sweep, so the meter moves only when an allocator adds its
own bytes to it. Whatever an allocator is asked for, if this takes the meter across the target, then
the allocator has noticed, also if the request fails.
-/

namespace SweptHeap

namespace Act

variable {σ α β : Type} {R R' : σ → σ → Prop}

/-- Wherever the operation starts, it ends in relation `R` to there, whether it fails or not. -/
def Within (R : σ → σ → Prop) (act : Act σ α) : Prop := ∀ s, R s (act.apply s).2

theorem within_pure [Std.Refl R] (a : α) : (pure a : Act σ α).Within R := fun s => Std.Refl.refl s

theorem within_get [Std.Refl R] : (get : Act σ σ).Within R := fun s => Std.Refl.refl s

theorem within_throw [Std.Refl R] (e : Fault) : (throw e : Act σ α).Within R :=
  fun s => Std.Refl.refl s

theorem Within.bind [IsTrans σ R] {x : Act σ α} {f : α → Act σ β} (hx : x.Within R)
    (hf : ∀ a, (f a).Within R) : (x >>= f).Within R := by
  intro s
  rw [apply_bind]
  have hs := hx s
  generalize x.apply s = done at hs
  obtain ⟨r, s'⟩ := done
  cases r with
  | error e => exact hs
  | ok a => exact IsTrans.trans _ _ _ hs (hf a s')

theorem Within.mono {act : Act σ α} (h : act.Within R) (himp : ∀ s s', R s s' → R' s s') :
    act.Within R' := fun s => himp _ _ (h s)

end Act

/-- The bytes went from below the target to the target or beyond. -/
def Meter.Crosses (m m' : Meter) : Prop := m.allocated < m.target ∧ m'.target ≤ m'.allocated

/-- The meter says so when an addition crosses the target. -/
theorem Meter.add_of_crosses {m : Meter} {n : Nat} (h : m.Crosses (m.add n).2) :
    (m.add n).1 = true := by
  obtain ⟨hbelow, habove⟩ := h
  have hmod : (m.allocated + n) % wordLimit ≤ m.allocated + n := Nat.mod_le _ _
  have hlt : (m.allocated + n) % wordLimit < wordLimit := Nat.mod_lt _ (by decide)
  simp only [add] at habove ⊢
  simp only [Bool.and_eq_true, decide_eq_true_eq]
  omega

variable {ρ : Type}

open Act

/-! ### Shelves on which nothing waits -/

namespace Depot

variable {d : Depot ρ}

/-- Nothing waits for the sweep and nothing comes to wait, and the arena stands still but for its
memory. -/
def Still (d d' : Depot ρ) : Prop :=
  d.shelf.unswept = #[] → d'.shelf.unswept = #[] ∧
    d'.arena = { d.arena with memory := d'.arena.memory }

instance : Std.Refl (@Still ρ) := ⟨fun _ h => ⟨h, rfl⟩⟩

instance : IsTrans (Depot ρ) Still where
  trans _ _ _ h h' hwait := by
    obtain ⟨hshelf, harena⟩ := h hwait
    obtain ⟨hshelf', harena'⟩ := h' hshelf
    rw [harena] at harena'
    exact ⟨hshelf', harena'⟩

theorem still_takeReady (r : Request) : (takeReady r : Act (Depot ρ) _).Within Still := by
  intro d hwait
  refine ⟨?_, rfl⟩
  change (Shelf.takeReady _ d.shelf).2.unswept = #[]
  unfold Shelf.takeReady
  grind

/-- There is no page to sweep. -/
theorem still_sweepForRoom (policy : Policy ρ) (r : Request) (epoch : Int) (left : Nat) :
    (sweepForRoom policy r epoch left).Within Still := by
  cases left with
  | zero => exact within_pure _
  | succ left =>
    intro d hwait
    have htake : takeUnswept.apply d = (.ok none, d) := by
      simp only [takeUnswept, Act.apply, ExceptT.run, Shelf.takeUnswept, hwait]
      rfl
    rw [sweepForRoom, apply_bind_ok htake]
    exact ⟨hwait, rfl⟩

theorem still_takeEmpty : (onShelf Shelf.takeEmpty : Act (Depot ρ) _).Within Still := by
  intro d hwait
  refine ⟨?_, rfl⟩
  change d.shelf.takeEmpty.2.unswept = #[]
  unfold Shelf.takeEmpty
  grind

theorem still_newPage (r : Request) : (newPage r : Act (Depot ρ) _).Within Still := by
  intro d hwait
  obtain ⟨shelf, arena⟩ := d
  simp only [newPage, Act.apply, ExceptT.run, Arena.onMemory]
  cases (Memory.map r arena.memory).1 with
  | ok id => exact ⟨hwait, rfl⟩
  | error e => exact ⟨hwait, rfl⟩

theorem still_getPage (policy : Policy ρ) (r : Request) (epoch : Int) :
    (getPage policy r epoch).Within Still := by
  refine (still_takeReady r).bind fun ready => ?_
  cases ready with
  | some id => exact within_pure _
  | none =>
    refine within_get.bind fun d => (still_sweepForRoom policy r epoch _).bind fun swept => ?_
    cases swept with
    | some id => exact within_pure _
    | none =>
      refine still_takeEmpty.bind fun empty => ?_
      cases empty with
      | some id => exact within_pure _
      | none => exact still_newPage r

end Depot

namespace Heap

variable {h h' : Heap ρ} {k r : Request}

/-- No page waits for the sweep. -/
def Settled (h : Heap ρ) : Prop := ∀ k ∈ allRequests, (h.shelf k).unswept = #[]

def Still (h h' : Heap ρ) : Prop := h.Settled → h'.Settled ∧ h'.arena.meter = h.arena.meter

instance : Std.Refl (@Still ρ) := ⟨fun _ h => ⟨h, rfl⟩⟩

instance : IsTrans (Heap ρ) Still where
  trans _ _ _ h h' hsettled :=
    ⟨(h' (h hsettled).1).1, (h' (h hsettled).1).2.trans (h hsettled).2⟩

theorem settled_new (memo : ρ) : (new memo).Settled := fun k hk => by rw [shelf_new memo hk]

/-- On a shelf where nothing waits nothing comes to wait. -/
theorem unswept_setDepot {d : Depot ρ} (hd : (h.shelf r).unswept = #[] → d.shelf.unswept = #[])
    (hk : (h.shelf k).unswept = #[]) : ((h.setDepot r d).shelf k).unswept = #[] := by
  obtain ⟨kind, cells⟩ := r
  obtain ⟨kind', cells'⟩ := k
  cases kind <;> cases kind' <;>
    simp only [Heap.setDepot, shelf, Array.getD_eq_getD_getElem?,
      Array.getElem?_setIfInBounds] at hd hk ⊢ <;>
    grind

theorem Settled.setDepot (hs : h.Settled) {d : Depot ρ} (hd : d.shelf.unswept = #[]) (r : Request) :
    (h.setDepot r d).Settled :=
  fun k hk => unswept_setDepot (fun _ => hd) (hs k hk)

theorem still_atShelf {α : Type} {act : Act (Depot ρ) α} (hact : act.Within Depot.Still)
    (hr : r.key ∈ allRequests) : (atShelf r act).Within Still := by
  intro h hs
  have hwait : (h.depot r).shelf.unswept = #[] := by
    rw [depot, ← shelf_key]
    exact hs r.key hr
  obtain ⟨hshelf, harena⟩ := hact (h.depot r) hwait
  have heq : (atShelf r act).apply h =
      ((act.apply (h.depot r)).1, h.setDepot r (act.apply (h.depot r)).2) :=
    apply_atShelf rfl
  rw [heq]
  refine ⟨hs.setDepot hshelf r, ?_⟩
  rw [setDepot_arena, harena]
  rfl

theorem still_getPage (policy : Policy ρ) (r : Request) : (getPage policy r).Within Still := by
  unfold getPage
  split_ifs with hr
  · intro h hs
    dsimp only
    rw [apply_bind_error (apply_throw _)]
    exact ⟨hs, rfl⟩
  · refine within_get.bind fun h => still_atShelf (Depot.still_getPage policy r _) ?_
    obtain ⟨kind, cells⟩ := r
    rw [mem_allRequests]
    cases kind with
    | uniform =>
      have hcells : 0 < cells ∧ cells ≤ largestUniform := by simpa using hr
      exact .inl ⟨rfl, hcells.2⟩
    | tiled => exact .inr (.inl rfl)
    | large => exact .inr (.inr (.inl rfl))
    | records => exact .inr (.inr (.inr rfl))

theorem still_newLarge (cells : Nat) : (newLarge cells : Act (Heap ρ) _).Within Still :=
  still_atShelf (Depot.still_newPage _) (mem_allRequests.mpr (.inr (.inr (.inl rfl))))

end Heap

/-! ### Allocators -/

namespace Desk

/-- Nothing waits for the sweep, and neither the meter nor what the allocator has noticed
changes. -/
def Still (d d' : Desk ρ) : Prop :=
  d.heap.Settled → d'.heap.Settled ∧ d'.heap.arena.meter = d.heap.arena.meter ∧
    d'.allocator.requested = d.allocator.requested

instance : Std.Refl (@Still ρ) := ⟨fun _ h => ⟨h, rfl, rfl⟩⟩

instance : IsTrans (Desk ρ) Still where
  trans _ _ _ h h' hsettled := by
    obtain ⟨hs, hmeter, hrequested⟩ := h hsettled
    obtain ⟨hs', hmeter', hrequested'⟩ := h' hs
    exact ⟨hs', hmeter'.trans hmeter, hrequested'.trans hrequested⟩

/-- An allocator that takes the meter across the target notices, and forgets nothing. -/
structure Alert (d d' : Desk ρ) : Prop where
  target_eq : d'.heap.arena.meter.target = d.heap.arena.meter.target
  kept : d.allocator.requested = true → d'.allocator.requested = true
  noticed : d.heap.arena.meter.Crosses d'.heap.arena.meter → d'.allocator.requested = true

/-- Nothing waits for the sweep, and the allocator is alert. -/
def Watches (d d' : Desk ρ) : Prop := d.heap.Settled → d'.heap.Settled ∧ Alert d d'

instance : Std.Refl (@Watches ρ) :=
  ⟨fun _ h => ⟨h, rfl, id, fun hcross => absurd hcross.2 (Nat.not_le.mpr hcross.1)⟩⟩

instance : IsTrans (Desk ρ) Watches where
  trans d d₁ d₂ h h' hsettled := by
    obtain ⟨hs, halert⟩ := h hsettled
    obtain ⟨hs', halert'⟩ := h' hs
    refine ⟨hs', halert'.target_eq.trans halert.target_eq, halert'.kept ∘ halert.kept,
      fun hcross => ?_⟩
    -- The first part crosses the target, or the second one does.
    by_cases hbelow : d₁.heap.arena.meter.allocated < d₁.heap.arena.meter.target
    · exact halert'.noticed ⟨hbelow, hcross.2⟩
    · exact halert'.kept (halert.noticed ⟨hcross.1, Nat.not_lt.mp hbelow⟩)

theorem Still.watches {d d' : Desk ρ} (h : Still d d') : Watches d d' := by
  intro hsettled
  obtain ⟨hs, hmeter, hrequested⟩ := h hsettled
  refine ⟨hs, by rw [hmeter], fun hr => hrequested.trans hr, fun hcross => ?_⟩
  rw [hmeter] at hcross
  exact absurd hcross.2 (Nat.not_le.mpr hcross.1)

end Desk

namespace Allocator

open Desk (Still Watches)

variable {α : Type} {take : PageId → Memory → Except Fault (Option BlockRef) × Memory}

theorem still_onHeap {act : Act (Heap ρ) α} (hact : act.Within Heap.Still) :
    (onHeap act).Within Still := fun d hsettled =>
  ⟨(hact d.heap hsettled).1, (hact d.heap hsettled).2, rfl⟩

theorem still_onMemory (f : Memory → Except Fault α × Memory) :
    (onMemory f : Act (Desk ρ) α).Within Still := fun _ hsettled => ⟨hsettled, rfl, rfl⟩

theorem still_modifySelf {f : Allocator → Allocator} (hf : ∀ a, (f a).requested = a.requested) :
    (modifySelf f : Act (Desk ρ) _).Within Still :=
    fun d hsettled => ⟨hsettled, rfl, hf d.allocator⟩

theorem still_flush : (flush : Act (Desk ρ) _).Within Still := by
  intro d hsettled
  obtain ⟨h, a⟩ := d
  rw [flush_eq]
  exact ⟨hsettled, rfl, rfl⟩

theorem requested_cache (r : Request) (id : PageId) (a : Allocator) :
    (cache r id a).requested = a.requested := by
  unfold cache
  split <;> rfl

section Within

/-! What an allocator does about a page or a record is made of a few acts. What holds of them holds
of all. -/

variable {R : Desk ρ → Desk ρ → Prop} [Std.Refl R] [IsTrans (Desk ρ) R]
  {policy : Policy ρ} {r : Request}

theorem within_sync (hflush : (flush : Act (Desk ρ) _).Within R)
    (hself : ∀ f : Allocator → Allocator, (∀ a, (f a).requested = a.requested) →
      (modifySelf f : Act (Desk ρ) _).Within R) : (sync : Act (Desk ρ) _).Within R := by
  refine within_get.bind fun d => within_get.bind fun d' => ?_
  split_ifs
  · exact Within.bind (hself _ fun _ => rfl) fun _ => hflush
  · exact within_pure _

theorem within_attempts : (attempts : Act (Desk ρ) _).Within R :=
  within_get.bind fun _ => within_pure _

theorem within_fromCache (htake : ∀ id, (onMemory (take id) : Act (Desk ρ) _).Within R) :
    (fromCache r take : Act (Desk ρ) _).Within R := by
  refine within_get.bind fun d => ?_
  split
  · exact within_pure _
  · exact htake _

theorem within_refill (hget : (onHeap (Heap.getPage policy r)).Within R)
    (hflush : (flush : Act (Desk ρ) _).Within R)
    (hself : ∀ f : Allocator → Allocator, (∀ a, (f a).requested = a.requested) →
      (modifySelf f : Act (Desk ρ) _).Within R)
    (htake : ∀ id, (onMemory (take id) : Act (Desk ρ) _).Within R) (attempts : Nat) :
    (refill policy r take attempts).Within R := by
  induction attempts with
  | zero => exact within_throw _
  | succ attempts ih =>
    refine hget.bind fun id => hflush.bind fun _ => ?_
    refine (hself _ (requested_cache r id)).bind fun _ => (htake id).bind fun b => ?_
    cases b with
    | some b => exact within_pure _
    | none => exact ih

theorem within_createRecord (hget : (onHeap (Heap.getPage policy .records)).Within R)
    (hflush : (flush : Act (Desk ρ) _).Within R)
    (hself : ∀ f : Allocator → Allocator, (∀ a, (f a).requested = a.requested) →
      (modifySelf f : Act (Desk ρ) _).Within R)
    (hmemory : ∀ {β : Type} (f : Memory → Except Fault β × Memory),
      (onMemory f : Act (Desk ρ) β).Within R)
    (object : BlockRef) (withFinalizer : Bool) :
    (createRecord policy object withFinalizer).Within R := by
  have hrecord (flags : Flags) : (allocateRecord policy object flags).Within R := by
    refine (within_fromCache fun _ => hmemory _).bind fun r => ?_
    cases r with
    | some r => exact within_pure _
    | none =>
      exact within_attempts.bind fun n => within_refill hget hflush hself (fun _ => hmemory _) n
  refine within_get.bind fun d => ?_
  dsimp only
  split
  · exact (hmemory _).bind fun _ => within_pure _
  · exact (within_sync hflush hself).bind fun _ => (hrecord _).bind fun _ => hmemory _

end Within

/-- What is added to the meter is noticed. -/
theorem watches_commit : (commit : Act (Desk ρ) _).Within Watches := by
  intro d hsettled
  obtain ⟨h, a⟩ := d
  rw [commit, apply_get_bind, apply_bind_ok (apply_modifySelf _),
    apply_bind_ok (apply_onHeap (Heap.apply_onArena _ _))]
  split_ifs with hcrossed
  · exact ⟨hsettled, rfl, fun _ => rfl, fun _ => rfl⟩
  · exact ⟨hsettled, rfl, id, fun hcross => absurd (Meter.add_of_crosses hcross) hcrossed⟩

theorem watches_still {act : Act (Desk ρ) α} (h : act.Within Still) : act.Within Watches :=
  h.mono fun _ _ => Desk.Still.watches

theorem watches_addLocal (bytes : Nat) : (addLocal bytes : Act (Desk ρ) _).Within Watches :=
  watches_still (still_modifySelf fun _ => rfl)

theorem watches_allocateShared (policy : Policy ρ) (r : Request) (bytes : Nat) :
    (allocateShared policy r bytes).Within Watches := by
  refine (watches_still (within_fromCache fun _ => still_onMemory _)).bind fun b => ?_
  cases b with
  | some b => exact (watches_addLocal bytes).bind fun _ => within_pure _
  | none =>
    refine watches_commit.bind fun _ => (watches_still within_attempts).bind fun n => ?_
    refine (watches_still (within_refill (still_onHeap (Heap.still_getPage policy r)) still_flush
      (fun _ hf => still_modifySelf hf) (fun _ => still_onMemory _) n)).bind fun b => ?_
    exact (watches_addLocal bytes).bind fun _ => within_pure _

theorem watches_allocateLarge (cells : Nat) :
    (allocateLarge cells : Act (Desk ρ) _).Within Watches := by
  refine (watches_still (still_onHeap (Heap.still_newLarge cells))).bind fun id => ?_
  refine (watches_still (still_onMemory _)).bind fun b => ?_
  cases b with
  | none => exact within_throw _
  | some b =>
    exact (watches_addLocal _).bind fun _ => watches_commit.bind fun _ => within_pure _

theorem watches_allocate (policy : Policy ρ) (bytes : Nat) :
    (allocate policy bytes).Within Watches := by
  refine (watches_still (within_sync still_flush fun _ hf => still_modifySelf hf)).bind fun _ => ?_
  split
  · exact watches_allocateShared policy _ _
  · exact watches_allocateShared policy _ _
  · exact watches_allocateLarge _

theorem still_lift (e : Except Fault α) : (liftM e : Act (Desk ρ) α).Within Still :=
  fun _ hsettled => ⟨hsettled, rfl, rfl⟩

theorem watches_createObject (policy : Policy ρ) (payload : Nat) :
    (createObject policy payload).Within Watches :=
  (watches_still (still_lift _)).bind fun _ => watches_allocate policy _

theorem watches_createArray (policy : Policy ρ) (element count : Nat) :
    (createArray policy element count).Within Watches := by
  refine (watches_still (still_lift _)).bind fun payload => ?_
  refine (watches_createObject policy payload).bind fun array => ?_
  exact (watches_still (still_onMemory _)).bind fun _ => within_pure _

/-- Records are not counted. -/
theorem still_createRecord (policy : Policy ρ) (object : BlockRef) (withFinalizer : Bool) :
    (createRecord policy object withFinalizer).Within Still :=
  within_createRecord (still_onHeap (Heap.still_getPage policy .records)) still_flush
    (fun _ hf => still_modifySelf hf) still_onMemory object withFinalizer

end Allocator

end SweptHeap
