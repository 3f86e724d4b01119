import Mathlib
import SweptHeap.Proofs.RecordRace.Basic
import SweptHeap.Proofs.Heap.Allocation
import SweptHeap.Proofs.SharedDepot.Alone

/-!
# A race with one caller

A caller that nobody disturbs does, step by step, what `Allocator.createRecord` does in one go: it
returns the same record, and leaves the same heap and the same allocator. From the moment when it
has a slot, it does what `Allocator.publish` does, also when it finds another record linked.
-/

namespace SweptHeap

variable {ρ : Type}

/-! ### Two changes of a record -/

theorem RecordPage.modifyRecord_modifyRecord (p : RecordPage) (i : Nat) (f g : Record → Record) :
    (p.modifyRecord i f).modifyRecord i g = p.modifyRecord i (g ∘ f) := by
  simp only [modifyRecord, mk.injEq, and_true]
  refine Array.ext_getElem? fun j => ?_
  simp only [Array.getElem?_modify]
  split_ifs
  · simp [Option.map_map, Function.comp_def]
  · rfl

theorem Page.modifyRecord_modifyRecord (p : Page) (i : Nat) (f g : Record → Record) :
    (p.modifyRecord i f).modifyRecord i g = p.modifyRecord i (g ∘ f) := by
  cases p with
  | records p => exact congrArg records (p.modifyRecord_modifyRecord i f g)
  | _ => rfl

namespace Memory

theorem modifyPage_eq (m : Memory) (id : PageId) (f : Page → Page) :
    m.modifyPage id f = m.setPage id ((m.page? id).map f) := by
  rw [modifyPage, borrow_eq]
  cases m.page? id with
  | none => rfl
  | some p =>
    dsimp only
    rw [restore_eq, setPage_setPage]
    rfl

theorem modifyRecord_modifyRecord (m : Memory) (r : BlockRef) (f g : Record → Record) :
    (m.modifyRecord r f).modifyRecord r g = m.modifyRecord r (g ∘ f) := by
  rw [modifyRecord, modifyPage_eq, modifyRecord, page?_modifyPage, if_pos rfl,
    modifyPage_eq, setPage_setPage, modifyRecord, modifyPage_eq, Option.map_map]
  congr 2
  exact funext fun p => p.modifyRecord_modifyRecord r.index f g

end Memory

/-- A thread that is stuck stays so. -/
theorem Task.eq_of_stuck_comes {policy : Policy ρ} {e : Fault} {held : Option PageId} {d : Depot ρ}
    {x : Task × Depot ρ} (hcomes : Comes policy (.stuck e held, d) x) : x = (.stuck e held, d) := by
  induction hcomes with
  | refl => rfl
  | tail _ hacts ih =>
    subst ih
    exact hacts

namespace RecordRace

variable {policy : Policy ρ} {object : BlockRef} {flags : Flags} {h : Heap ρ} {a : Allocator}

namespace Stage

variable {s s' : Stage} {d d' : Desk ρ}

/-- One step of the only caller. -/
def Acts (policy : Policy ρ) (object : BlockRef) (flags : Flags) (x x' : Stage × Desk ρ) : Prop :=
  x' = (next ((x.1.act policy object flags).apply x.2).1,
    ((x.1.act policy object flags).apply x.2).2)

/-- The steps of the only caller, one after the other. -/
abbrev Comes (policy : Policy ρ) (object : BlockRef) (flags : Flags) :
    Stage × Desk ρ → Stage × Desk ρ → Prop :=
  Relation.ReflTransGen (Acts policy object flags)

theorem acts_ok (heq : (s.act policy object flags).apply d = (.ok s', d')) :
    Acts policy object flags (s, d) (s', d') := by
  rw [Acts, heq]
  rfl

/-- The caller gets its page as any thread does. -/
theorem comes_fetching {t : Task} {id : PageId} {d : Depot ρ}
    (hcomes : Task.Comes policy (t, h.depot .records) (.got id, d))
    (hsize : h.uniform.size = largestUniform + 1) :
    Comes policy object flags (.fetching t, ⟨h, a⟩) (.fetching (.got id),
      ⟨h.setDepot .records d, a⟩) := by
  generalize hx : (t, h.depot .records) = x at hcomes
  induction hcomes using Relation.ReflTransGen.head_induction_on generalizing t h with
  | refl =>
    obtain ⟨rfl, rfl⟩ := Prod.mk.inj hx
    rw [Heap.setDepot_depot]
  | @head x y hacts hcomes ih =>
    subst hx
    by_cases hgot : ∃ j, t = .got j
    · obtain ⟨j, rfl⟩ := hgot
      exact ih hsize hacts.symm
    · cases hdone : (t.act policy).apply (h.depot .records) with
      | mk result d₁ =>
        cases result with
        | error e =>
          rw [hacts.trans (Task.acts_error hdone).symm] at hcomes
          cases Task.eq_of_stuck_comes hcomes
        | ok t₁ =>
          have hact : Acts policy object flags (.fetching t, ⟨h, a⟩)
              (.fetching t₁, ⟨h.setDepot .records d₁, a⟩) := by
            refine acts_ok ?_
            rw [act, fetch_eq fun j he => hgot ⟨j, he⟩,
              Act.apply_bind_ok (Allocator.apply_onHeap (Heap.apply_atShelf (r := .records) hdone))]
            rfl
          have hdepot : (h.setDepot .records d₁).depot .records = d₁ :=
            Heap.depot_setDepot hsize (Heap.key_mem_of_valid (r := .records) trivial) d₁
          have hrest := ih (h := h.setDepot .records d₁) ((Heap.size_setDepot _).trans hsize)
            (by rw [hdepot, hacts.trans (Task.acts_ok hdone).symm])
          rw [Heap.setDepot_setDepot] at hrest
          exact .head hact hrest

/-- The page that a caller gets has a free slot. -/
theorem getPage_enroll (policy : Policy ρ) (record : Record) (hs : h.Sound) :
    ∃ id d r m, (Depot.getPage policy .records h.epoch).apply (h.depot .records) = (.ok id, d) ∧
      (Heap.getPage policy .records).apply h = (.ok id, h.setDepot .records d) ∧
      Memory.enroll id record (h.setDepot .records d).arena.memory = (.ok (some r), m) := by
  obtain ⟨id, h₁, hget, htidies, ⟨hused, p, hp, hroom⟩, -⟩ :=
    Heap.getPage_spec policy hs (r := .records) trivial (by simp [Request.records])
  cases hdone : (Depot.getPage policy .records h.epoch).apply (h.depot .records) with
  | mk result d =>
    obtain ⟨rfl, rfl⟩ :=
      Prod.mk.inj ((Heap.apply_getPage (r := .records) trivial hdone).symm.trans hget)
    obtain ⟨q, hq, hkey, hsound⟩ :=
      Allocator.mem_used (r := .records) (Heap.Tidies.sound htidies hs) trivial hused
    obtain rfl : p = q := Option.some.inj (hp.symm.trans hq)
    rcases Allocator.taking_enroll record _ id p hp hsound hkey with
      ⟨i, p', -, htake, -⟩ | ⟨p', hfull, -, -⟩
    · exact ⟨id, d, ⟨id, i⟩, _, rfl, hget, htake⟩
    · cases hfull.symm.trans hroom

/-- A caller that keeps no page with a free slot gets one, and takes a slot there. -/
theorem comes_refill (policy : Policy ρ) (object : BlockRef) (flags : Flags)
    (hs : h.Sound) (a : Allocator) (attempts : Nat) :
    ∃ r d, (Allocator.refill policy .records (fun id => Memory.enroll id ⟨some object, flags⟩)
        (attempts + 1)).apply ⟨h, a⟩ = (.ok r, d) ∧
      Comes policy object flags (.fetching (.looking .records h.epoch), ⟨h, a⟩)
        (.linking r, d) := by
  obtain ⟨id, d, r, m, hdone, hget, hslot⟩ := getPage_enroll policy ⟨some object, flags⟩ hs
  have hdoes :
      Task.Does policy (.looking .records h.epoch) .got (Depot.getPage policy .records h.epoch)
      (h.depot .records) := Task.does_getPage _
  obtain ⟨t, hcomes, hshows⟩ := hdoes
  rw [hdone] at hcomes hshows
  obtain rfl : t = .got id := hshows
  have hflush : (act policy object flags (.fetching (.got id))).apply ⟨h.setDepot .records d, a⟩ =
      (.ok (.enrolling id), ⟨Allocator.flushed (h.setDepot .records d), a⟩) := by
    rw [act, fetch, Act.apply_bind_ok Allocator.flush_eq]
    rfl
  obtain ⟨desk, htaken⟩ : ∃ desk, (Allocator.onMemory (Memory.enroll id ⟨some object, flags⟩)).apply
      ⟨Allocator.flushed (h.setDepot .records d), Allocator.cache .records id a⟩ =
        (.ok (some r), desk) :=
    ⟨_, by rw [Allocator.apply_onMemory, Allocator.flushed, hslot]⟩
  have henroll : (act policy object flags (.enrolling id)).apply
      ⟨Allocator.flushed (h.setDepot .records d), a⟩ = (.ok (.linking r), desk) := by
    rw [act, Act.apply_bind_ok (Allocator.apply_modifySelf _), Act.apply_bind_ok htaken]
    rfl
  refine ⟨r, desk, ?_,
    ((comes_fetching hcomes hs.size_eq).tail (acts_ok hflush)).tail (acts_ok henroll)⟩
  rw [Allocator.refill, Act.apply_bind_ok (Allocator.apply_onHeap hget),
    Act.apply_bind_ok Allocator.flush_eq,
    Act.apply_bind_ok (Allocator.apply_modifySelf _), Act.apply_bind_ok htaken]
  rfl

theorem comes_allocateRecord (policy : Policy ρ) (object : BlockRef) (flags : Flags) (hs : h.Sound)
    (ha : a.Valid h) (he : a.epoch = h.epoch) :
    ∃ r d, (Allocator.allocateRecord policy object flags).apply ⟨h, a⟩ = (.ok r, d) ∧
      Comes policy object flags (.trying, ⟨h, a⟩) (.linking r, d) := by
  rw [Allocator.allocateRecord]
  rcases Allocator.fromCache_spec policy (Allocator.taking_enroll ⟨some object, flags⟩)
    trivial hs ha he with
    ⟨h₁, hnone, htidies, -⟩ | ⟨r, h₁, hsome, -⟩
  · obtain ⟨r, d, hrefill, hcomes⟩ :=
      comes_refill policy object flags (Heap.Tidies.sound htidies hs) a
      (h₁.arena.memory.pages.size + 1)
    have htry : (act policy object flags .trying).apply ⟨h, a⟩ =
        (.ok (.fetching (.looking .records h₁.epoch)), ⟨h₁, a⟩) := by
      rw [act, Act.apply_bind_ok hnone]
      rfl
    refine ⟨r, d, ?_, .head (acts_ok htry) hcomes⟩
    rw [Act.apply_bind_ok hnone]
    dsimp only
    rw [Act.apply_bind_ok Allocator.apply_attempts, hrefill]
  · have htry : (act policy object flags .trying).apply ⟨h, a⟩ = (.ok (.linking r), ⟨h₁, a⟩) := by
      rw [act, Act.apply_bind_ok hsome]
      rfl
    refine ⟨r, ⟨h₁, a⟩, ?_, .single (acts_ok htry)⟩
    rw [Act.apply_bind_ok hsome]
    rfl

/-- With a slot for its record, the caller publishes it. -/
theorem comes_publish (policy : Policy ρ) (object r : BlockRef) (flags : Flags)
    (h : Heap ρ) (a : Allocator) : Comes policy object flags (.linking r, ⟨h, a⟩)
      (.returned (Allocator.publish object r flags h.arena.memory).1,
        ⟨{ h with arena := { h.arena with
        memory := (Allocator.publish object r flags h.arena.memory).2 } }, a⟩) := by
  cases hlink : h.arena.memory.recordOf object with
  | none =>
    simp only [Allocator.publish, Memory.link, hlink]
    exact .single (acts_ok (apply_linking_none hlink))
  | some w =>
    -- The record is detached in two steps.
    have hdetach :
        (h.arena.memory.modifyRecord r fun record => { record with base := none }).raise r
        .sweepable = h.arena.memory.modifyRecord r Record.detach :=
      Memory.modifyRecord_modifyRecord _ _ _ _
    refine .head (acts_ok (apply_linking_some hlink))
      (.head (acts_ok rfl) (.head (acts_ok rfl) (.single (acts_ok ?_))))
    rw [act, Allocator.apply_onMemory]
    dsimp only
    rw [hdetach]
    simp only [Allocator.publish, Memory.link, hlink]

/-- The caller does what the allocator does in one go. -/
theorem comes_createRecord (policy : Policy ρ) (object : BlockRef) (withFinalizer : Bool)
    (hs : h.Sound) (ha : a.Valid h) :
    ∃ w d, (Allocator.createRecord policy object withFinalizer).apply ⟨h, a⟩ = (.ok w, d) ∧
      Comes policy object (.initial withFinalizer) (.reading, ⟨h, a⟩) (.returned w, d) := by
  rw [Allocator.createRecord, Act.apply_get_bind]
  cases hlink : h.arena.memory.recordOf object with
  | some w =>
    dsimp only
    exact ⟨w, _, rfl, .head (acts_ok (apply_reading_some hlink)) (.single (acts_ok rfl))⟩
  | none =>
    obtain ⟨h₁, a₁, hsync, hcases, hfollows, hepoch, -⟩ := Allocator.sync_spec ha
    have hs₁ : h₁.Sound := by
      rcases hcases with rfl | rfl
      · exact hs
      · exact Heap.Tidies.sound (Allocator.flushed_tidies policy h) hs
    have hsynced : (act policy object (.initial withFinalizer) .syncing).apply ⟨h, a⟩ =
        (.ok .trying, ⟨h₁, a₁⟩) := by
      rw [act, Act.apply_bind_ok hsync]
      rfl
    obtain ⟨r, ⟨h₂, a₂⟩, hslot, hcomes⟩ :=
      comes_allocateRecord policy object (.initial withFinalizer) hs₁ hfollows.valid hepoch
    dsimp only
    refine ⟨_, _, ?_, .head (acts_ok (apply_reading_none hlink)) (.head (acts_ok hsynced)
      (hcomes.trans (comes_publish policy object r (.initial withFinalizer) h₂ a₂)))⟩
    rw [Act.apply_bind_ok hsync, Act.apply_bind_ok hslot, Allocator.apply_onMemory]

end Stage

/-- A race with one caller, at this desk. -/
def lone (object : BlockRef) (withFinalizer : Bool) (stage : Stage) (taken : List BlockRef)
    (d : Desk ρ) : RecordRace ρ :=
  ⟨{ d.heap with arena := { d.heap.arena with found := {} } }, object,
    [⟨d.allocator, withFinalizer, stage, taken, d.heap.arena.found⟩]⟩

theorem run_of_comes {withFinalizer : Bool} {s s' : Stage} {d d' : Desk ρ}
    (hcomes : Stage.Comes policy object (.initial withFinalizer) (s, d) (s', d'))
    (taken : List BlockRef) :
    ∃ n taken', run policy (List.replicate n 0) (lone object withFinalizer s taken d) =
      lone object withFinalizer s' taken' d' := by
  generalize hx : (s, d) = x at hcomes
  induction hcomes using Relation.ReflTransGen.head_induction_on generalizing s d taken with
  | refl =>
    obtain ⟨rfl, rfl⟩ := Prod.mk.inj hx
    exact ⟨0, taken, rfl⟩
  | @head x y hacts _ ih =>
    subst hx
    obtain ⟨n, taken', hrun⟩ := ih (taken ++ y.1.fresh.toList) rfl
    refine ⟨n + 1, taken', ?_⟩
    rw [← hrun, hacts]
    rfl

/-- One caller alone returns the record that the allocator returns, and leaves the heap and the
allocator as they are then. -/
theorem run_alone (policy : Policy ρ) (object : BlockRef) (withFinalizer : Bool) (hs : h.Sound)
    (ha : a.Valid h) (hfound : h.arena.found = {}) :
    ∃ n taken w d, (Allocator.createRecord policy object withFinalizer).apply ⟨h, a⟩ = (.ok w, d) ∧
      run policy (List.replicate n 0) (new h object [(a, withFinalizer)]) =
        lone object withFinalizer (.returned w) taken d := by
  obtain ⟨w, d, hdone, hcomes⟩ := Stage.comes_createRecord policy object withFinalizer hs ha
  obtain ⟨n, taken, hrun⟩ := run_of_comes hcomes []
  refine ⟨n, taken, w, d, hdone, hrun ▸ congrArg (run policy (List.replicate n 0)) ?_⟩
  rw [lone, hfound]
  obtain ⟨⟨memory, memo, meter, sweepers, found⟩, uniform, tiled, large, records, pending, epoch⟩ :=
    h
  obtain rfl : found = {} := hfound
  rfl

end RecordRace

end SweptHeap
