import Mathlib
import SweptHeap.Proofs.Heap.Traversal
import SweptHeap.Proofs.HeapSystem.Moves

/-!
# Byte accounting

As long as nobody takes records, the meter and the allocators have together counted the bytes of the
blocks on all pages that do not wait for the sweep. An allocator of an earlier epoch is left out:
what it handed out is on pages that were given to the sweep, which counts it if it survives.
-/

namespace SweptHeap

/-- The operation takes no record and leaves the meter to the heap. -/
def Op.Plain : Op → Prop
  | .createRecord _ _ _ => False
  | .gauge _ => False
  | _ => True

theorem Page.allocatedBytes_modifyCells (p : Page) {f : Array Cell → Array Cell}
    (hf : ∀ cells, (f cells).size = cells.size) :
    (p.modifyCells f).allocatedBytes = p.allocatedBytes := by
  cases p with
  | large q =>
    simp [modifyCells, allocatedBytes, LargePage.allocatedBytes, LargePage.capacityBytes, hf]
  | _ => rfl

theorem Page.allocatedBytes_modifyRecord (p : Page) (i : Nat) (f : Record → Record) :
    (p.modifyRecord i f).allocatedBytes = p.allocatedBytes := by cases p <;> rfl

theorem Memory.allocatedBytes_modifyPage {f : Page → Page}
    (hf : ∀ p, (f p).allocatedBytes = p.allocatedBytes) (m : Memory) (id j : PageId) :
    (m.modifyPage id f).allocatedBytes j = m.allocatedBytes j := by
  rw [allocatedBytes, page?_modifyPage, allocatedBytes]
  split_ifs
  · cases m.page? j with
    | none => rfl
    | some p => exact hf p
  · rfl

namespace Heap

variable {ρ : Type} {h h' h'' : Heap ρ}

/-- Whatever happened has nothing to do with bytes. -/
structure Levels (h h' : Heap ρ) : Prop where
  bytes_eq : h'.bytes = h.bytes
  meter_eq : h'.arena.meter = h.arena.meter
  epoch_eq : h'.epoch = h.epoch

theorem Levels.refl (h : Heap ρ) : Levels h h := ⟨rfl, rfl, rfl⟩

theorem Levels.trans (hl : Levels h h') (hl' : Levels h' h'') : Levels h h'' :=
  ⟨hl'.bytes_eq.trans hl.bytes_eq, hl'.meter_eq.trans hl.meter_eq, hl'.epoch_eq.trans hl.epoch_eq⟩

theorem levels_modifyPage (h : Heap ρ) (id : PageId) {f : Page → Page}
    (hf : ∀ p, (f p).allocatedBytes = p.allocatedBytes) :
    Levels h { h with arena := h.arena.modifyMemory (·.modifyPage id f) } := by
  refine ⟨bytes_congr fun k _ => Depot.bytes_congr (.refl _) fun j _ => ?_, rfl, rfl⟩
  exact Memory.allocatedBytes_modifyPage hf _ id j

theorem levels_write (h : Heap ρ) (b : BlockRef) (c : Cell) : Levels h (h.write b c) :=
  h.levels_modifyPage b.page fun p => p.allocatedBytes_modifyCells fun _ =>
    Array.size_setIfInBounds ..

theorem levels_amend (h : Heap ρ) (r : BlockRef) (f : Record → Record) : Levels h (h.amend r f) :=
  h.levels_modifyPage r.page fun p => p.allocatedBytes_modifyRecord _ f

theorem levels_same (hshelf : ∀ k ∈ allRequests, h'.shelf k = h.shelf k)
    (hpages : h'.arena.memory.pages = h.arena.memory.pages)
    (hmeter : h'.arena.meter = h.arena.meter) (hepoch : h'.epoch = h.epoch) : Levels h h' :=
  ⟨bytes_same hshelf hpages, hmeter, hepoch⟩

theorem levels_note {ρ : Type} (h : Heap (Diary ρ)) (n : Note) : Levels h (h.note n) :=
  levels_same (fun _ _ => rfl) rfl rfl rfl

theorem Prepared.bytes_eq (hp : Prepared h h') : h'.bytes = 0 := by
  refine List.sum_eq_zero fun n hn => ?_
  obtain ⟨k, hk, rfl⟩ := List.mem_map.mp hn
  rw [Depot.bytes, show (h'.depot k).shelf = h'.shelf k from rfl,
    hp.shelf_eq k (mem_blockRequests.mp hk).1]
  rfl

theorem Allocates.epoch_eq {policy : Policy ρ} {way : Page → Nat → Page → Prop} {b : BlockRef}
    (ha : Allocator.Allocates policy way h b h') : h'.epoch = h.epoch := by
  obtain ⟨h₁, htidies, -, hgets⟩ := ha
  exact hgets.epoch_eq.trans (Tidies.epoch_eq htidies)

end Heap

namespace HeapSystem

variable {ρ : Type} {o o' : HeapSystem ρ} {h h' : Heap (Diary ρ)} {a : Allocator} {i : Nat}

/-- The bytes that allocators of this epoch have handed out and the meter has not counted. -/
def owed (o : HeapSystem ρ) : Nat := (o.allocators.map (·.owed o.heap)).sum

/-- The meter, if it did not wrap around, and the allocators have counted what there is. -/
def Balanced (o : HeapSystem ρ) : Prop :=
  ∃ count, o.heap.allocatedBytes = count % wordLimit ∧ count + o.owed = o.heap.bytes

theorem owed_congr (hallocators : o'.allocators = o.allocators)
    (hepoch : o'.heap.epoch = o.heap.epoch) : o'.owed = o.owed := by
  rw [owed, owed, hallocators]
  refine congrArg List.sum (List.map_congr_left fun a _ => ?_)
  rw [Allocator.owed, Allocator.owed, hepoch]

theorem owed_eraseIdx (hi : i < o.allocators.length) :
    o.owed = o.allocators[i].owed o.heap + owed { o with allocators := o.allocators.eraseIdx i } :=
  (((List.getElem_cons_eraseIdx_perm hi).map _).sum_eq).symm

theorem owed_set (hi : i < o.allocators.length) (a : Allocator) :
    owed { o with allocators := o.allocators.set i a } =
      a.owed o.heap + owed { o with allocators := o.allocators.eraseIdx i } :=
  ((List.set_perm_cons_eraseIdx hi a).map _).sum_eq

theorem balanced_new (memo : ρ) : (new memo).Balanced := by
  refine ⟨0, rfl, ?_⟩
  have hzero : (new memo).heap.bytes = 0 := by
    refine List.sum_eq_zero fun n hn => ?_
    obtain ⟨k, hk, rfl⟩ := List.mem_map.mp hn
    rw [Depot.bytes, show ((new memo).heap.depot k).shelf = (Heap.new _).shelf k from rfl,
      Heap.shelf_new _ (Heap.mem_blockRequests.mp hk).1]
    rfl
  rw [hzero]
  rfl

theorem Balanced.charge (hb : o.Balanced) (hc : o.heap.Charges o'.heap)
    (hepoch : o'.heap.epoch = o.heap.epoch) (hallocators : o'.allocators = o.allocators) :
    o'.Balanced := by
  obtain ⟨count, hcount, hbytes⟩ := hb
  obtain ⟨n, hcounts, hbytes'⟩ := hc
  refine ⟨count + n, hcounts count hcount, ?_⟩
  rw [owed_congr hallocators hepoch, hbytes', ← hbytes]
  omega

theorem Balanced.level (hb : o.Balanced) (hl : Heap.Levels o.heap o'.heap)
    (hallocators : o'.allocators = o.allocators) : o'.Balanced :=
  hb.charge (.of_eq hl.meter_eq hl.bytes_eq) hl.epoch_eq hallocators

/-- An allocator has served a block, and then things have happened that have nothing to do with
bytes. -/
theorem Balanced.serve (hb : o.Balanced) (hi : i < o.allocators.length)
    (hserves : Allocator.Balances o.heap o.allocators[i] h a) (hepoch : h.epoch = o.heap.epoch)
    (hl : Heap.Levels h h') :
    Balanced { o with heap := h', allocators := o.allocators.set i a } := by
  obtain ⟨count, hcount, hbytes⟩ := hb
  obtain ⟨n, hcounts, hbytes'⟩ := hserves
  have hserved : Balanced { o with heap := h, allocators := o.allocators.set i a } := by
    refine ⟨count + n, hcounts count hcount, ?_⟩
    have hrest : owed { o with heap := h, allocators := o.allocators.eraseIdx i } =
        owed { o with allocators := o.allocators.eraseIdx i } := owed_congr rfl hepoch
    have hset := owed_set (o := { o with heap := h }) hi a
    have herase := owed_eraseIdx hi
    dsimp only at hset ⊢
    omega
  exact hserved.level hl rfl

theorem balanced_prepare (ho : o.Sound) (hp : Heap.Prepared o.heap h) :
    Balanced { o with heap := h } := by
  refine ⟨0, hp.allocated_eq, ?_⟩
  have hnone : owed { o with heap := h } = 0 := by
    refine List.sum_eq_zero fun n hn => ?_
    obtain ⟨a, ha, rfl⟩ := List.mem_map.mp hn
    have hle := (ho.valid a ha).epoch_le
    exact if_neg fun he => by
      rw [show ({ o with heap := h } : HeapSystem ρ).heap.epoch = _ from hp.epoch_eq] at he
      omega
  rw [hnone]
  exact hp.bytes_eq.symm

theorem Balanced.step (policy : Policy ρ) (hb : o.Balanced) (ho : o.Sound) {op : Op}
    (ha : o.Admits op) (hplain : op.Plain) : (o.step policy op).2.Balanced := by
  cases op with
  | enlist =>
    obtain ⟨count, hcount, hbytes⟩ := hb
    refine ⟨count, hcount, ?_⟩
    have hnew : owed { o with allocators := o.allocators ++ [.new o.heap] } = o.owed := by
      rw [owed, List.map_append, List.sum_append, List.map_singleton, List.sum_singleton, owed]
      exact congrArg _ (Allocator.owed_eq rfl)
    exact hnew.symm ▸ hbytes
  | allocate i bytes =>
    obtain ⟨b, h, a, hall, hserves, heq⟩ := step_allocate policy ho ha bytes
    rw [heq]
    exact hb.serve ha hserves.balances (Heap.Allocates.epoch_eq hall) (h.levels_note _)
  | createObject i payload =>
    rcases step_createObject policy ho ha payload with heq | ⟨b, h, a, hall, hserves, heq⟩ <;>
      rw [heq]
    · exact hb
    · exact hb.serve ha hserves.balances (Heap.Allocates.epoch_eq hall) (h.levels_note _)
  | createArray i element count =>
    rcases step_createArray policy ho ha element count with
      ⟨fault, -, heq⟩ | ⟨b, h, a, hall, hserves, heq⟩ <;> rw [heq]
    · exact hb
    · exact hb.serve ha hserves.balances (Heap.Allocates.epoch_eq hall)
        ((h.levels_note _).trans (Heap.levels_write _ _ _))
  | createRecord => exact hplain.elim
  | close i =>
    obtain ⟨h, heq, -, -, hepoch, hbytes', hcounts⟩ := step_close policy ho ha
    rw [heq]
    obtain ⟨count, hcount, hbytes⟩ := hb
    refine ⟨_, hcounts count hcount, ?_⟩
    have hrest : owed { o with heap := h, allocators := o.allocators.eraseIdx i } =
        owed { o with allocators := o.allocators.eraseIdx i } := owed_congr rfl hepoch
    have herase := owed_eraseIdx ha
    dsimp only
    omega
  | prepare =>
    obtain ⟨h, hp, heq, -⟩ := step_prepare policy ho ha
    rw [heq]
    exact balanced_prepare ho hp
  | sweep epoch =>
    obtain ⟨h, heq, htidies, -, hcharges⟩ := Heap.sweep_charges policy.noting ho.heap epoch
    obtain ⟨o', heq', -, -, rfl⟩ := step_receive policy False ho htidies heq
    rw [HeapSystem.step, heq']
    have hswept : Balanced { o with heap := h } :=
      hb.charge hcharges (Heap.Tidies.epoch_eq htidies) rfl
    exact hswept.level (Heap.levels_same (fun _ _ => rfl) rfl rfl rfl) rfl
  | assist epoch =>
    obtain ⟨h, heq, htidies, hcharges⟩ := Heap.assist_spec policy.noting ho.heap epoch
    obtain ⟨o', heq', -, -, rfl⟩ := step_receive policy False ho htidies heq
    rw [HeapSystem.step, heq']
    have hswept : Balanced { o with heap := h } :=
      hb.charge hcharges (Heap.Tidies.epoch_eq htidies) rfl
    exact hswept.level (Heap.levels_same (fun _ _ => rfl) rfl rfl rfl) rfl
  | release keep =>
    obtain ⟨released, h, heq, htidies, -, hcharges⟩ := Heap.release_spec policy.noting ho.heap keep
    have heq' : o.step policy (.release keep) = (.ok none, { o with heap := h }) := by
      simp only [HeapSystem.step, atHeap, heq]
      rfl
    rw [heq']
    exact hb.charge hcharges (Heap.Tidies.epoch_eq htidies) rfl
  | write b k c => exact hb.level (o.heap.levels_write _ c) rfl
  | mark b =>
    refine hb.level ?_ rfl
    change Heap.Levels o.heap
      { o.heap with arena := o.heap.arena.modifyMemory fun m => (m.mark b).2 }
    rcases mark_cases o.heap.arena.memory b with hm | hm
    · rw [show o.heap.arena.modifyMemory (fun m => (m.mark b).2) = o.heap.arena by
        simp only [Arena.modifyMemory, hm]]
      exact .refl _
    · rw [show o.heap.arena.modifyMemory (fun m => (m.mark b).2) =
          o.heap.arena.modifyMemory (·.setCell ⟨b.page, b.index + 0⟩ .mark) by
        simp only [Arena.modifyMemory, hm]]
      exact o.heap.levels_write _ _
  | amend r f => exact hb.level (o.heap.levels_amend r f) rfl
  | gauge => exact hplain.elim
  | takeRequest i =>
    have hi : i < o.allocators.length := ha
    have heq : (o.step policy (.takeRequest i)).2 = { o with
        allocators := o.allocators.set i { o.allocators[i] with requested := false } } := by
      simp only [HeapSystem.step, List.getElem?_eq_getElem hi]
      rfl
    rw [heq]
    exact hb.serve hi (.of_charges (.refl _) rfl) rfl (.refl _)
  | submit i =>
    have heq : (o.step policy (.submit i)).2 = { o with
        heap := { o.heap with pending := o.heap.pending.merge o.returned[i] }
        returned := o.returned.eraseIdx i } := by
      simp only [HeapSystem.step, List.getElem?_eq_getElem (show i < o.returned.length from ha),
        atHeap, Heap.submit_eq]
      rfl
    rw [heq]
    exact hb.level (Heap.levels_same (fun _ _ => rfl) rfl rfl rfl) rfl
  | extract => exact hb.level (Heap.levels_same (fun _ _ => rfl) rfl rfl rfl) rfl
  | tell b =>
    refine hb.level (Heap.Levels.trans ?_ (Heap.levels_note _ _)) rfl
    rcases noteFinalized_cases policy.noting b o.heap with ⟨he, -⟩ | ⟨r, -, he⟩ <;> rw [he]
    · exact .refl _
    · exact o.heap.levels_amend r _

theorem ReachedBy.balanced (hr : ReachedBy (fun _ _ op => op.Plain) o) : o.Balanced := by
  induction hr with
  | start memo => exact balanced_new memo
  | step hreached hadmits hplain ih => exact ih.step _ hreached.reached.sound hadmits hplain

end HeapSystem

/-! ### The census -/

namespace Heap

variable {ρ : Type} {h : Heap ρ}

theorem allocated_foldl {α : Type} (f : α → Occupancy) (xs : List α) (total : Occupancy) :
    (xs.foldl (fun total x => total.add (f x)) total).allocated =
      total.allocated + (xs.map fun x => (f x).allocated).sum := by
  induction xs generalizing total with
  | nil => rfl
  | cons x rest ih =>
    rw [List.foldl_cons, ih, List.map_cons, List.sum_cons, ← Nat.add_assoc]
    rfl

/-- When no page waits, the census counts the pages that do not wait. -/
theorem Sound.census_eq (hs : h.Sound) (hswept : ∀ k ∈ blockRequests, (h.shelf k).unswept = #[]) :
    h.census.objects.allocated = h.bytes := by
  have hshelf {k : Request} (hk : k ∈ blockRequests) :
      ((h.pagesOn k).map fun x => x.2.occupancy.allocated).sum = (h.depot k).bytes := by
    have hlisted : (h.shelf k).pages.toList = (h.shelf k).swept := by
      rw [← Shelf.swept_append, hswept k hk, Array.toList_empty, List.append_nil]
    rw [pagesOn, hlisted, Depot.bytes, List.map_filterMap]
    refine Eq.trans (b := ((h.shelf k).swept.filterMap fun id =>
      some (h.arena.memory.allocatedBytes id)).sum) (congrArg List.sum ?_) ?_
    · refine List.filterMap_congr fun id hid => ?_
      obtain ⟨p, hp, -⟩ := hs.key_of_mem (mem_blockRequests.mp hk).1 (hlisted.symm ▸ hid)
      rw [Memory.allocatedBytes_eq hp, hp]
      rfl
    · rw [List.filterMap_eq_map']
      rfl
  have htotal (requests : List Request) (hsub : requests ⊆ blockRequests) (total : Occupancy) :
      (requests.foldl (fun total r =>
        (h.pagesOn r).foldl (fun total x => total.add x.2.occupancy) total) total).allocated =
        total.allocated + (requests.map fun k => (h.depot k).bytes).sum := by
    induction requests generalizing total with
    | nil => rfl
    | cons k rest ih =>
      obtain ⟨hk, hrest⟩ := List.cons_subset.mp hsub
      rw [List.foldl_cons, ih hrest, allocated_foldl, hshelf hk, List.map_cons, List.sum_cons,
        Nat.add_assoc]
  exact (htotal blockRequests (List.Subset.refl _) {}).trans (Nat.zero_add _)

end Heap

namespace HeapSystem

variable {ρ : Type} {o : HeapSystem ρ}

/-- The heap's count, with what allocators of this epoch have not reported yet, is the number of
bytes on the pages of blocks that do not wait for the sweep. -/
theorem bytes_accounted (hreached : ReachedBy (fun _ _ op => op.Plain) o)
    (htotal : o.heap.bytes < wordLimit) :
    o.heap.allocatedBytes + o.owed = o.heap.bytes ∧
      ((∀ k ∈ Heap.blockRequests, (o.heap.shelf k).unswept = #[]) →
        o.heap.allocatedBytes + o.owed = o.heap.census.objects.allocated) := by
  obtain ⟨count, hcount, hbytes⟩ := hreached.balanced
  have hsum : o.heap.allocatedBytes + o.owed = o.heap.bytes := by
    rw [hcount, Nat.mod_eq_of_lt (by omega), hbytes]
  exact ⟨hsum, fun hswept => hsum.trans (hreached.reached.sound.heap.census_eq hswept).symm⟩

/-- The page of the first object waits for the sweep; the second object was made since. -/
theorem bytes_accounted_small :
    let o := run (Policy.byMark (ρ := Unit))
      [.enlist, .createObject 0 16, .prepare, .createObject 0 40] (new ())
    (ReachedBy (fun _ _ op => op.Plain) o ∧ o.heap.bytes < wordLimit) ∧
      o.heap.allocatedBytes + o.owed = o.heap.bytes ∧
      ((∀ k ∈ Heap.blockRequests, (o.heap.shelf k).unswept = #[]) →
        o.heap.allocatedBytes + o.owed = o.heap.census.objects.allocated) := by
  intro o
  have hstart : ReachedBy (fun _ _ op => op.Plain) (run (Policy.byMark (ρ := Unit)) [] (new ())) :=
    .start ()
  have henlisted := hstart.concat (show Admits _ .enlist from trivial) trivial
  have hprepare : ∀ k ∈ Heap.allRequests, ((run (Policy.byMark (ρ := Unit))
      [.enlist, .createObject 0 16] (new ())).heap.shelf k).unswept = #[] := by decide +kernel
  have hdesk : 0 < (run (Policy.byMark (ρ := Unit)) [.enlist, .createObject 0 16, .prepare]
      (new ())).allocators.length := by decide +kernel
  have hmade := henlisted.concat (show Admits _ (.createObject 0 16) from Nat.zero_lt_one) trivial
  have hprepared := hmade.concat (show Admits _ .prepare from hprepare) trivial
  have hreached : ReachedBy (fun _ _ op => op.Plain) o :=
    hprepared.concat (show Admits _ (.createObject 0 40) from hdesk) trivial
  have htotal : o.heap.bytes < wordLimit := by decide +kernel
  exact ⟨⟨hreached, htotal⟩, bytes_accounted hreached htotal⟩

end HeapSystem

end SweptHeap
