import Mathlib
import SweptHeap.Proofs.Heap.Watch
import SweptHeap.Proofs.HeapSystem.ObjectMoves

/-!
# The first record of an object

Between two cycles, an object gets its first record without any sweep: the shelves of blocks stay as
they are, nobody begins or ends a sweep and nothing becomes due.
-/

namespace SweptHeap

variable {ρ : Type}

open Act

/-! ### Other shelves -/

namespace Heap

variable {h h' h'' : Heap ρ}

/-- Nothing waits for the sweep, no sweep begins or ends, and only the shelf of records changes. -/
def Aside (h h' : Heap ρ) : Prop :=
  h.Settled → h'.Settled ∧ h'.arena.sweepers = h.arena.sweepers ∧
    ∀ k : Request, k.kind ≠ .records → h'.shelf k = h.shelf k

instance : Std.Refl (@Aside ρ) := ⟨fun _ h => ⟨h, rfl, fun _ _ => rfl⟩⟩

instance : IsTrans (Heap ρ) Aside where
  trans _ _ _ h h' hsettled := by
    obtain ⟨hs, hsweepers, hshelf⟩ := h hsettled
    obtain ⟨hs', hsweepers', hshelf'⟩ := h' hs
    exact ⟨hs', hsweepers'.trans hsweepers, fun k hk => (hshelf' k hk).trans (hshelf k hk)⟩

theorem shelf_setDepot_records (h : Heap ρ) (d : Depot ρ) {k : Request} (hk : k.kind ≠ .records) :
    (h.setDepot .records d).shelf k = h.shelf k := by
  obtain ⟨kind, cells⟩ := k
  cases kind with
  | records => exact absurd rfl hk
  | _ => rfl

theorem aside_getPage (policy : Policy ρ) : (getPage policy .records).Within Aside := by
  intro h hsettled
  obtain ⟨hshelf, harena⟩ := Depot.still_getPage policy .records h.epoch (h.depot .records)
    (hsettled _ (mem_allRequests.mpr (.inr (.inr (.inr rfl)))))
  generalize hgot : (Depot.getPage policy .records h.epoch).apply (h.depot .records) =
    got at hshelf harena
  have heq : (getPage policy .records).apply h = (got.1, h.setDepot .records got.2) :=
    apply_getPage (r := .records) trivial hgot
  rw [heq]
  refine ⟨hsettled.setDepot hshelf .records, ?_, fun k hk => shelf_setDepot_records h got.2 hk⟩
  rw [setDepot_arena, harena]
  rfl

theorem Quiet.trans (hq : Quiet h h') (hq' : Quiet h' h'') : Quiet h h'' :=
  ⟨hq.toSteady.trans hq'.toSteady,
    fun b hb => (hq'.content_eq b ((hq.holds_iff _).mpr hb)).trans (hq.content_eq b hb),
    fun r => (hq'.record_eq r).trans (hq.record_eq r)⟩

/-- Without pages that wait, housekeeping cannot be seen. -/
theorem Tidies.quiet {policy : Policy ρ} (ht : Tidies policy h h') (hs : h.Sound)
    (hsettled : h.Settled) : Quiet h h' := by
  induction ht with
  | refl => exact .refl h
  | @tail h₁ h₂ htidies hstep ih =>
    rcases hstep.quiet_or_sweeps (Tidies.sound htidies hs) with hq | ⟨id, p, hearings, hsweeps⟩
    · exact ih.trans hq
    · exact absurd ((ih.waiting_iff id).mp hsweeps.waiting) (not_waiting_iff.mpr hsettled id)

end Heap

/-- While a record gets its place, pages of blocks wait as before. -/
theorem Allocator.Finds.waiting {policy : Policy ρ} {h h₁ : Heap ρ} {a : Allocator} {id j : PageId}
    {p : Page} (hf : Finds policy h a id h₁) (hs : h.Sound) (hp : h.arena.memory.page? j = some p)
    (hkind : p.kind ≠ .records) (hw : h.Waiting j) : h₁.Waiting j := by
  obtain ⟨k, hk, hj⟩ := hw
  obtain ⟨q, hq, rfl, -⟩ := hs.key_of_mem hk (Shelf.mem_pages.mpr (.inr (.inr (.inr hj))))
  obtain rfl : p = q := Option.some.inj (hp.symm.trans hq)
  have hshelf : h₁.shelf p.key = h.shelf p.key := by
    cases hf with
    | kept hrests => exact hrests.shelf_eq _
    | @delivered h' d hrests =>
      exact (Heap.shelf_setDepot_records h' d (by rwa [p.key_kind])).trans (hrests.shelf_eq _)
  exact ⟨_, hk, hshelf ▸ hj⟩

namespace Desk

def Aside (d d' : Desk ρ) : Prop := d.heap.Aside d'.heap

instance : Std.Refl (@Aside ρ) := ⟨fun d => Std.Refl.refl d.heap⟩

instance : IsTrans (Desk ρ) Aside where
  trans d _ _ h h' := IsTrans.trans (r := Heap.Aside) d.heap _ _ h h'

end Desk

theorem Allocator.aside_createRecord (policy : Policy ρ) (object : BlockRef)
    (withFinalizer : Bool) : (createRecord policy object withFinalizer).Within Desk.Aside := by
  refine within_createRecord (fun d => Heap.aside_getPage policy d.heap)
    (fun d => ?_) (fun f _ d => ?_) (fun f d => ?_) object withFinalizer
  · obtain ⟨h, a⟩ := d
    rw [flush_eq]
    exact fun hsettled => ⟨hsettled, rfl, fun _ _ => rfl⟩
  · exact fun hsettled => ⟨hsettled, rfl, fun _ _ => rfl⟩
  · exact fun hsettled => ⟨hsettled, rfl, fun _ _ => rfl⟩

namespace HeapSystem

variable {o : HeapSystem ρ} {object : BlockRef} {x : Object} {i : Nat}

theorem aside_welcome (tenant : BlockRef → Tenant)
    {done : Except Fault (Option BlockRef) × HeapSystem ρ} (h : o.heap.Aside done.2.heap) :
    o.heap.Aside (welcome tenant done).2.heap := by
  obtain ⟨result, o'⟩ := done
  rcases result with e | _ | b
  · exact h
  · exact h
  · exact h

theorem aside_createRecord (policy : Policy ρ) (o : HeapSystem ρ) (i : Nat) (object : BlockRef)
    (withFinalizer : Bool) :
    o.heap.Aside (o.step policy (.createRecord i object withFinalizer)).2.heap := by
  have hdesk : o.heap.Aside
      (o.atDesk i (Allocator.createRecord policy.noting object withFinalizer)).2.heap := by
    rw [atDesk]
    cases o.allocators[i]? with
    | none => exact Std.Refl.refl _
    | some a =>
      have haside := Allocator.aside_createRecord policy.noting object withFinalizer ⟨o.heap, a⟩
      dsimp only
      generalize (Allocator.createRecord policy.noting object withFinalizer).apply ⟨o.heap, a⟩ =
        done at haside
      exact haside
  rw [step]
  cases o.heap.arena.memory.recordOf object with
  | none => exact aside_welcome _ hdesk
  | some r => exact hdesk

/-- An object without a record gets one while no page waits, and the others stay as they are. -/
theorem step_enroll (ho : o.Sound) (hsettled : o.heap.Settled) {withFinalizer : Bool}
    (ha : o.Admits (.createRecord i object withFinalizer)) (hx : o.heap.Depicts object x)
    (hbare : x.record = none) :
    ∃ r o', o.step .byMark (.createRecord i object withFinalizer) = (.ok (some r), o') ∧
      o'.allocators.length = o.allocators.length ∧ o'.heap.due = o.heap.due ∧
      o'.heap.Depicts object { x with record := some (r, ⟨some object, .initial withFinalizer⟩) } ∧
      ∀ b y, b ≠ object → o.heap.Depicts b y → o'.heap.Depicts b y := by
  obtain ⟨r, h, a, heq, hattaches, -⟩ := step_createRecord .byMark ho ha
  cases hattaches with
  | raise _ _ hlinked => cases (hx.recordOf_none hbare).symm.trans hlinked
  | @enroll h₁ h₂ htidies hheld hheader _ hgets =>
    have hs₁ := Heap.Tidies.sound htidies ho.heap
    have hquiet := Heap.Tidies.quiet htidies ho.heap hsettled
    obtain ⟨-, hwrites⟩ := record_linked hs₁ hheld hheader hgets
    have hw := (hgets.welcomes_record hs₁).1
    refine ⟨r, _, heq, List.length_set, ?_, depicts_enrolled (hquiet.depicts hx) hheader hgets hs₁,
      fun b y hne hy =>
        depicts_note (hwrites.depicts_other hne (hw.depicts hs₁ (hquiet.depicts hy)))⟩
    exact hwrites.due_eq.trans (hw.due_eq.trans hquiet.due_eq)

end HeapSystem

end SweptHeap
