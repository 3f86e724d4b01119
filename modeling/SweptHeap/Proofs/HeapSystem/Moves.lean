import Mathlib
import SweptHeap.Proofs.HeapSystem.Basic

/-!
# Operations as sequences of moves

A move is the least that can happen in a heap with allocators: a step of housekeeping, a new block
or record, a written cell, raised flags, a handoff that goes from one place to the next. Every
operation but the start of a cycle is a sequence of moves, so what all moves preserve is preserved
by every run.

In a civil heap all blocks are objects. Their marks come and go, but only an operation on records
touches their links or their records, and only allocated objects are reported as finalized.
-/

namespace SweptHeap

namespace Heap

variable {ρ : Type} {h h' : Heap (Diary ρ)}

theorem Sound.note (hs : h.Sound) (n : Note) : (h.note n).Sound := hs.amends (.refl _)

theorem note_advances (h : Heap (Diary ρ)) (n : Note) : Advances h (h.note n) :=
  .of_shelf (fun _ => rfl) rfl

@[simp] theorem notes_note (h : Heap (Diary ρ)) (n : Note) :
    (h.note n).notes = h.notes ++ [n] := rfl

end Heap

namespace HeapSystem

variable {ρ : Type} {policy : Policy ρ} {civil : Prop} {o o' o'' : HeapSystem ρ}

/-- The state after a finalizer has run. -/
def tell (policy : Policy ρ) (b : BlockRef) (o : HeapSystem ρ) : HeapSystem ρ :=
  { o with
    heap := { o.heap with arena := o.heap.arena.noteFinalized policy.noting b }.note (.told b)
    told := o.told ++ [b] }

inductive Move (policy : Policy ρ) (civil : Prop) : HeapSystem ρ → HeapSystem ρ → Prop
  | tidy {o : HeapSystem ρ} {h : Heap (Diary ρ)} (step : Heap.Tidy policy.noting o.heap h) :
      Move policy civil o { o with heap := h }
  | block {o : HeapSystem ρ} {n : Nat} {b : BlockRef} {h : Heap (Diary ρ)} (pos : 0 < n)
      (object : civil → 2 ≤ n) (gets : Heap.Gets (Page.Gives · n) o.heap b h) :
      Move policy civil o { o with heap := h.note (.born (.block b)) }
  | write {o : HeapSystem ρ} {b : BlockRef} {k : Nat} {c : Cell} (held : o.heap.Holds (.block b))
      (inside : k < (o.heap.content b).length)
      (behind : civil → 2 ≤ k ∨ k = 0 ∧ (c = .zero ∨ c = .mark)) :
      Move policy civil o { o with heap := o.heap.write ⟨b.page, b.index + k⟩ c }
  /-- An object without a record gets one. -/
  | record {o : HeapSystem ρ} {object r : BlockRef} {withFinalizer : Bool} {h : Heap (Diary ρ)}
      (held : o.heap.Holds (.block object)) (header : 2 ≤ (o.heap.content object).length)
      (bare : o.heap.arena.memory.recordOf object = none)
      (gets : Heap.Gets (Page.Enrolls · ⟨some object, .initial withFinalizer⟩) o.heap r h) :
      Move policy civil o
        { o with heap := (h.write object.linkCell (.link r)).note (.born (.record r)) }
  /-- The record of an object gets a finalizer. -/
  | raise {o : HeapSystem ρ} {object r : BlockRef} {withFinalizer : Bool}
      (held : o.heap.Holds (.block object)) (header : 2 ≤ (o.heap.content object).length)
      (linked : o.heap.arena.memory.recordOf object = some r) :
      Move policy civil o { o with heap := o.heap.amend r (·.raise (.initial withFinalizer)) }
  | amend {o : HeapSystem ρ} {r : BlockRef} {f : Record → Record} (rude : ¬civil) :
      Move policy civil o { o with heap := o.heap.amend r f }
  | tell {o : HeapSystem ρ} {b : BlockRef} (held : civil → o.heap.Holds (.block b)) :
      Move policy civil o (o.tell policy b)
  /-- A sweep returns what has been found. -/
  | receive {o : HeapSystem ρ} : Move policy civil o { o with
      heap := { o.heap with arena := { o.heap.arena with found := {} } }
      returned := o.returned ++ [o.heap.arena.found] }
  | submit {o : HeapSystem ρ} {i : Nat} {q : Handoff BlockRef} (queue : o.returned[i]? = some q) :
      Move policy civil o { o with
        heap := { o.heap with pending := o.heap.pending.merge q }
        returned := o.returned.eraseIdx i }
  | extract {o : HeapSystem ρ} : Move policy civil o { o with
      heap := { o.heap with pending := {} }
      extracted := o.extracted ++ o.heap.pending.toList }
  /-- Allocators come, go and work. -/
  | allocators {o : HeapSystem ρ} {allocators : List Allocator} :
      Move policy civil o { o with allocators := allocators }

abbrev Moves (policy : Policy ρ) (civil : Prop) : HeapSystem ρ → HeapSystem ρ → Prop :=
  Relation.ReflTransGen (Move policy civil)

/-- Between operations. -/
structure Sound (o : HeapSystem ρ) : Prop where
  heap : o.heap.Sound
  found_eq : o.heap.arena.found = {}
  valid : ∀ a ∈ o.allocators, a.Valid o.heap
  apart : o.allocators.Pairwise (Allocator.Apart o.heap)

theorem sound_new (memo : ρ) : (new memo).Sound := ⟨Heap.sound_new _, rfl, by simp [new], .nil⟩

/-! ### What moves preserve -/

/-- A finalizer that has run is noted in the record of its object, if there is one. -/
theorem noteFinalized_cases (policy : Policy ρ) (b : BlockRef) (h : Heap ρ) :
    { h with arena := h.arena.noteFinalized policy b } = h ∧
      (h.arena.memory.recordOf b = none ∨ policy.afterFinalizer = .none) ∨
    ∃ r, h.arena.memory.recordOf b = some r ∧
      { h with arena := h.arena.noteFinalized policy b } =
        h.amend r (·.raise policy.afterFinalizer) := by
  rw [Arena.noteFinalized]
  cases hr : h.arena.memory.recordOf b with
  | none => exact .inl ⟨rfl, .inl rfl⟩
  | some r =>
    by_cases hflags : policy.afterFinalizer = .none
    · exact .inl ⟨by simp only [if_pos hflags], .inr hflags⟩
    · refine .inr ⟨r, rfl, ?_⟩
      simp only [if_neg hflags]
      rfl

/-- The object that gets a record is still there once the record is. -/
theorem record_linked {h h' : Heap ρ} {object r : BlockRef} {record : Record} (hs : h.Sound)
    (hheld : h.Holds (.block object)) (htwo : 2 ≤ (h.content object).length)
    (hgets : Heap.Gets (Page.Enrolls · record) h r h') :
    h'.Sound ∧ Heap.Writes object 1 (.link r) h' (h'.write object.linkCell (.link r)) := by
  have hs' : h'.Sound := (hgets.mono fun _ _ _ hx => hx.toGrown).sound hs
  have hw := (hgets.welcomes_record hs).1
  refine ⟨hs', Heap.write_spec hs' ((hw.holds_iff _).mpr (.inr hheld)) ?_ _⟩
  rw [hw.content_eq _ hheld]
  exact htwo

theorem Move.sound (hm : Move policy civil o o') (hs : o.heap.Sound) : o'.heap.Sound := by
  cases hm with
  | tidy hstep => exact hstep.sound hs
  | block hpos hobject hgets =>
    exact ((hgets.mono fun _ _ _ hx => hx.toGrown).sound hs).note _
  | write hheld hinside hbehind => exact (Heap.write_spec hs hheld hinside _).sound
  | record hheld htwo hbare hgets => exact (record_linked hs hheld htwo hgets).2.sound.note _
  | raise => exact (Heap.amend_spec _ _ _).sound hs
  | amend => exact (Heap.amend_spec _ _ _).sound hs
  | @tell b =>
    refine Heap.Sound.note ?_ _
    rcases noteFinalized_cases policy.noting b o.heap with ⟨he, -⟩ | ⟨r, -, he⟩ <;> rw [he]
    · exact hs
    · exact (Heap.amend_spec _ _ _).sound hs
  | receive => exact hs.amends (.refl _)
  | submit => exact ⟨hs.size_eq, hs.good, hs.placed⟩
  | extract => exact ⟨hs.size_eq, hs.good, hs.placed⟩
  | allocators => exact hs

theorem Moves.sound (hm : Moves policy civil o o') (hs : o.heap.Sound) : o'.heap.Sound := by
  induction hm with
  | refl => exact hs
  | tail _ hstep ih => exact hstep.sound ih

/-! ### Operations -/

/-- The operation is fit for a civil heap. -/
def Civil (o : HeapSystem ρ) : Op → Prop
  | .allocate _ _ => False
  | .write _ k c => 2 ≤ k ∨ k = 0 ∧ (c = .zero ∨ c = .mark)
  | .amend _ _ => False
  | .tell b => o.heap.Holds (.block b)
  | _ => True

open Heap (Advances Tidies)

variable {h : Heap (Diary ρ)} {a a' : Allocator} {b : BlockRef} {i n : Nat}

theorem Moves.of_tidies (ht : Tidies policy.noting o.heap h) :
    Moves policy civil o { o with heap := h } := by
  induction ht with
  | refl => exact .refl
  | tail _ hstep ih => exact ih.tail (.tidy hstep)

theorem Sound.advance (ho : o.Sound) (had : Advances o.heap h) (hs : h.Sound)
    (hfound : h.arena.found = {}) : Sound { o with heap := h } := by
  refine ⟨hs, hfound, fun a ha => (ho.valid a ha).advances had, ?_⟩
  exact ho.apart.imp_of_mem fun ha ha' hapart =>
    hapart.advances (ho.valid _ ha) (ho.valid _ ha') had

/-- A move that leaves the shelves and the allocators alone. -/
theorem Sound.move (ho : o.Sound) (hm : Move policy civil o o') (had : Advances o.heap o'.heap)
    (hfound : o'.heap.arena.found = {}) (hallocators : o'.allocators = o.allocators) :
    o'.Sound := by
  have ho' := ho.advance had (hm.sound ho.heap) hfound
  exact ⟨ho'.heap, ho'.found_eq, hallocators ▸ ho'.valid, hallocators ▸ ho'.apart⟩

/-- An allocator has worked, and the heap has advanced meanwhile. -/
theorem Sound.serve (ho : o.Sound) (hi : i < o.allocators.length) (had : Advances o.heap h)
    (ho' : Sound { o with heap := h }) (hf : Allocator.Follows o.heap o.allocators[i] h a) :
    Sound { o with heap := h, allocators := o.allocators.set i a } := by
  refine ⟨ho'.heap, ho'.found_eq, fun a' ha' => ?_,
    List.pairwise_iff_getElem.mpr fun j k hj hk hjk => ?_⟩
  · rcases List.mem_or_eq_of_mem_set ha' with ha' | rfl
    · exact ho'.valid a' ha'
    · exact hf.valid
  · rw [List.length_set] at hj hk
    have hold := List.pairwise_iff_getElem.mp ho.apart
    -- The others keep pages that were in use before.
    have hother {n : Nat} (hn : n < o.allocators.length) (hni : n ≠ i) :
        Allocator.Apart h o.allocators[n] a := by
      refine hf.apart (ho.valid _ (List.getElem_mem hn)) had ?_
      rcases Nat.lt_or_gt_of_ne hni with hlt | hgt
      · exact hold n i hn hi hlt
      · exact (hold i n hi hn hgt).symm
    rw [List.getElem_set, List.getElem_set]
    split_ifs with hij hik hik
    · omega
    · exact (hother hk (Ne.symm hik)).symm
    · exact hother hj (Ne.symm hij)
    · exact List.pairwise_iff_getElem.mp ho'.apart j k hj hk hjk

theorem atDesk_ok {act : Act (Desk (Diary ρ)) BlockRef} (hi : o.allocators[i]? = some a)
    (heq : act.apply ⟨o.heap, a⟩ = (.ok b, ⟨h, a'⟩)) :
    o.atDesk i act = (.ok (some b), { o with heap := h, allocators := o.allocators.set i a' }) := by
  simp only [atDesk, hi, heq]
  rfl

/-- An operation that fails leaves everything as it was. -/
theorem atDesk_error {act : Act (Desk (Diary ρ)) BlockRef} {e : Fault}
    (hi : o.allocators[i]? = some a) (heq : act.apply ⟨o.heap, a⟩ = (.error e, ⟨o.heap, a⟩)) :
    o.atDesk i act = (.error e, o) := by
  obtain ⟨hlt, hget⟩ := List.getElem?_eq_some_iff.mp hi
  have hset : o.allocators.set i a = o.allocators := by
    rw [← hget, List.set_getElem_self]
  simp only [atDesk, hi, heq, hset]
  rfl

/-- An allocated block is noted. -/
theorem allocates_moves (civil : Prop) (ho : o.Sound) (hn : 0 < n) (hobject : civil → 2 ≤ n)
    (hall : Allocator.Allocates policy.noting (Page.Gives · n) o.heap b h) :
    Moves policy civil o { o with heap := h.note (.born (.block b)) } ∧
      Sound { o with heap := h.note (.born (.block b)) } ∧ Advances h (h.note (.born (.block b))) ∧
      Advances o.heap (h.note (.born (.block b))) := by
  obtain ⟨h₁, htidies, hfound, hgets⟩ := hall
  have hs₁ := Tidies.sound htidies ho.heap
  have hs := (hgets.mono fun _ _ _ hx => hx.toGrown).sound hs₁
  have hfound' : h.arena.found = {} := by
    obtain ⟨p, p', -, -, -, c, hsame, rfl⟩ := hgets
    exact hsame.found_eq.trans (hfound ho.found_eq)
  have hnote := Heap.note_advances h (.born (.block b))
  have had := ((Heap.Tidies.advances htidies ho.heap).trans hgets.advances).trans hnote
  exact ⟨Relation.ReflTransGen.tail (Moves.of_tidies htidies)
      (Move.block (o := { o with heap := h₁ }) hn hobject hgets),
    ho.advance had (hs.note _) hfound', hnote, had⟩

theorem step_allocate (policy : Policy ρ) (ho : o.Sound) (hi : i < o.allocators.length)
    (bytes : Nat) : ∃ b h a,
      Allocator.Allocates policy.noting (Page.Gives · (max (cellsFor bytes) 1)) o.heap b h ∧
      Allocator.Serves o.heap o.allocators[i] h a ∧
      o.step policy (.allocate i bytes) = (.ok (some b),
        { o with heap := h.note (.born (.block b)), allocators := o.allocators.set i a }) := by
  have hget := List.getElem?_eq_getElem hi
  obtain ⟨b, h, a, heq, hall, hserves⟩ :=
    Allocator.allocate_spec policy.noting ho.heap (ho.valid _ (List.getElem_mem hi)) bytes
  refine ⟨b, h, a, hall, hserves, ?_⟩
  rw [step, atDesk_ok hget heq]
  rfl

theorem step_createObject (policy : Policy ρ) (ho : o.Sound) (hi : i < o.allocators.length)
    (payload : Nat) : o.step policy (.createObject i payload) = (.error .objectSize, o) ∨
      ∃ b h a,
        Allocator.Allocates policy.noting (Page.Gives · (Allocator.objectCells payload)) o.heap
        b h ∧ Allocator.Serves o.heap o.allocators[i] h a ∧
        o.step policy (.createObject i payload) = (.ok (some b),
          { o with heap := h.note (.born (.block b)), allocators := o.allocators.set i a }) := by
  have hget := List.getElem?_eq_getElem hi
  by_cases hlt : payload + objectHeaderBytes < wordLimit
  · obtain ⟨b, h, a, heq, hall, hserves⟩ := Allocator.createObject_spec policy.noting hlt ho.heap
      (ho.valid _ (List.getElem_mem hi))
    refine .inr ⟨b, h, a, hall, hserves, ?_⟩
    rw [step, atDesk_ok hget heq]
    rfl
  · refine .inl ?_
    rw [step, atDesk_error hget (Allocator.createObject_error _ hlt)]
    rfl

theorem step_createArray (policy : Policy ρ) (ho : o.Sound) (hi : i < o.allocators.length)
    (element count : Nat) :
    (∃ fault, (fault = .objectSize ∨ fault = .arraySize) ∧
      o.step policy (.createArray i element count) = (.error fault, o)) ∨
    ∃ b h a, Allocator.Allocates policy.noting
        (Page.Gives · (Allocator.objectCells (Allocator.arrayBytes element count))) o.heap b h ∧
      Allocator.Serves o.heap o.allocators[i] h a ∧
      o.step policy (.createArray i element count) = (.ok (some b), { o with
        heap := (h.note (.born (.block b))).write ⟨b.page, b.index + 2⟩ (.word count.toUInt64)
        allocators := o.allocators.set i a }) := by
  have hget := List.getElem?_eq_getElem hi
  by_cases hlt : Allocator.arrayBytes element count + objectHeaderBytes < wordLimit
  · obtain ⟨b, h, a, heq, hall, hserves⟩ := Allocator.createArray_spec policy.noting hlt ho.heap
      (ho.valid _ (List.getElem_mem hi))
    refine .inr ⟨b, h, a, hall, hserves, ?_⟩
    rw [step, atDesk_ok hget heq]
    rfl
  · obtain ⟨fault, hfault, heq⟩ := Allocator.createArray_error (h := o.heap) (a := o.allocators[i])
      policy.noting hlt
    refine .inl ⟨fault, hfault, ?_⟩
    rw [step, atDesk_error hget heq]
    rfl

/-- An object gets a record, or its record gets a finalizer. -/
inductive Attaches (policy : Policy ρ) (object : BlockRef) (withFinalizer : Bool)
    (h : Heap (Diary ρ)) (r : BlockRef) : Heap (Diary ρ) → Prop
  | raise (held : h.Holds (.block object)) (header : 2 ≤ (h.content object).length)
      (linked : h.arena.memory.recordOf object = some r) :
      Attaches policy object withFinalizer h r (h.amend r (·.raise (.initial withFinalizer)))
  | enroll {h₁ h₂ : Heap (Diary ρ)} (tidies : Tidies policy.noting h h₁)
      (held : h₁.Holds (.block object)) (header : 2 ≤ (h₁.content object).length)
      (bare : h₁.arena.memory.recordOf object = none)
      (gets : Heap.Gets (Page.Enrolls · ⟨some object, .initial withFinalizer⟩) h₁ r h₂) :
      Attaches policy object withFinalizer h r
        ((h₂.write object.linkCell (.link r)).note (.born (.record r)))

theorem Attaches.moves {object r : BlockRef} {withFinalizer : Bool} (civil : Prop)
    (hat : Attaches policy object withFinalizer o.heap r h) :
    Moves policy civil o { o with heap := h } := by
  cases hat with
  | raise hheld hheader hlinked => exact .single (.raise hheld hheader hlinked)
  | @enroll h₁ h₂ htidies hheld hheader hbare hgets =>
    exact Relation.ReflTransGen.tail (Moves.of_tidies htidies)
      (Move.record (o := { o with heap := h₁ }) hheld hheader hbare hgets)

/-- An object without a record gets one. Only pages of records are swept on the way, so the object
is as it was. -/
theorem step_createRecord_none (policy : Policy ρ) (ho : o.Sound) {object : BlockRef}
    {withFinalizer : Bool} (ha : o.Admits (.createRecord i object withFinalizer))
    (hr : o.heap.arena.memory.recordOf object = none) :
    ∃ r h₁ h₂ a a', o.allocators[i]? = some a ∧
      o.step policy (.createRecord i object withFinalizer) =
        (.ok (some r), { o with
          heap := (h₂.write object.linkCell (.link r)).note (.born (.record r))
          allocators := o.allocators.set i a' }) ∧
      Tidies policy.noting o.heap h₁ ∧ h₁.arena.found = {} ∧
      h₁.Holds (.block object) ∧ 2 ≤ (h₁.content object).length ∧
      h₁.arena.memory.recordOf object = none ∧
      Heap.Gets (Page.Enrolls · ⟨some object, .initial withFinalizer⟩) h₁ r h₂ ∧
      Allocator.Follows o.heap a h₂ a' ∧ h₂.arena.meter = h₁.arena.meter ∧
      Allocator.Finds policy.noting o.heap a r.page h₁ := by
  obtain ⟨hi, hheld, htwo⟩ := ha
  have hget := List.getElem?_eq_getElem hi
  obtain ⟨p, hp, hkind, -⟩ := Heap.holds_block.mp hheld
  obtain ⟨r, h₁, h₂, a', heq, htidies, hfound, hspares, hgets, hfollows, hmeter, hfinds⟩ :=
    Allocator.createRecord_none policy.noting hr hp hkind withFinalizer ho.heap
      (ho.valid _ (List.getElem_mem hi))
  obtain ⟨hheld₁, hcontent, hlink⟩ := hspares.block hheld
  refine ⟨r, h₁, h₂, _, a', hget, ?_, htidies, hfound ho.found_eq, hheld₁, ?_,
    hlink.trans hr, hgets, hfollows, hmeter, hfinds⟩
  · simp only [step, hr]
    rw [atDesk_ok hget heq]
    rfl
  · rwa [hcontent]

theorem step_createRecord (policy : Policy ρ) (ho : o.Sound) {object : BlockRef}
    {withFinalizer : Bool} (ha : o.Admits (.createRecord i object withFinalizer)) :
    ∃ r h a, o.step policy (.createRecord i object withFinalizer) = (.ok (some r),
        { o with heap := h, allocators := o.allocators.set i a }) ∧
      Attaches policy object withFinalizer o.heap r h ∧
      Sound { o with heap := h, allocators := o.allocators.set i a } := by
  obtain ⟨hi, hheld, htwo⟩ := ha
  have hget := List.getElem?_eq_getElem hi
  have hvalid := ho.valid _ (List.getElem_mem hi)
  cases hr : o.heap.arena.memory.recordOf object with
  | some r =>
    have hamends := Heap.amend_spec o.heap r (·.raise (Flags.initial withFinalizer))
    refine ⟨r, _, _, ?_, .raise hheld htwo hr, ho.serve hi hamends.advances
      (ho.advance hamends.advances (hamends.sound ho.heap) ho.found_eq)
      (.of_cached (hvalid.advances hamends.advances) id fun _ => rfl)⟩
    simp only [step, hr]
    exact atDesk_ok hget (Allocator.createRecord_some policy.noting hr withFinalizer)
  | none =>
    obtain ⟨r, h₁, h₂, a, a', hget', heq, htidies, hfound, hheld₁, htwo₁,
      hbare, hgets, hfollows, -⟩ :=
      step_createRecord_none policy ho ⟨hi, hheld, htwo⟩ hr
    obtain rfl : o.allocators[i] = a := Option.some.inj (hget.symm.trans hget')
    have hs₁ := Tidies.sound htidies ho.heap
    obtain ⟨hs₂, hwrites⟩ := record_linked hs₁ hheld₁ htwo₁ hgets
    have hnote := Heap.note_advances (h₂.write object.linkCell (.link r)) (.born (.record r))
    have hlinked := hwrites.advances.trans hnote
    have had := ((Heap.Tidies.advances htidies ho.heap).trans hgets.advances).trans hlinked
    have hfound' : h₂.arena.found = {} := by
      obtain ⟨q, q', -, -, -, c, hsame, rfl⟩ := hgets
      exact hsame.found_eq.trans hfound
    exact ⟨r, (h₂.write object.linkCell (.link r)).note (.born (.record r)), a', heq,
      .enroll htidies hheld₁ htwo₁ hbare hgets,
      ho.serve hi had (ho.advance had (hwrites.sound.note _) hfound') (hfollows.advances hlinked)⟩

theorem step_close (policy : Policy ρ) (ho : o.Sound) (hi : i < o.allocators.length) :
    ∃ h, o.step policy (.close i) =
        (.ok none, { o with heap := h, allocators := o.allocators.eraseIdx i }) ∧
      Tidies policy.noting o.heap h ∧
      Sound { o with heap := h, allocators := o.allocators.eraseIdx i } ∧ h.epoch = o.heap.epoch ∧
      h.bytes = o.heap.bytes ∧
      o.heap.arena.meter.Counts (o.allocators[i].owed o.heap) h.arena.meter := by
  have hget := List.getElem?_eq_getElem hi
  obtain ⟨h, a, heq, htidies, hfound, hbytes, hcounts⟩ :=
    Allocator.close_spec policy.noting (ho.valid _ (List.getElem_mem hi))
  have ho' :=
    ho.advance (Heap.Tidies.advances htidies ho.heap) (Tidies.sound htidies ho.heap) hfound
  refine ⟨h, ?_, htidies, ⟨ho'.heap, hfound, fun a' ha' => ?_, ?_⟩,
    Heap.Tidies.epoch_eq htidies, hbytes, hcounts⟩
  · simp only [step, hget, heq]
    rfl
  · exact ho'.valid a' (List.mem_of_mem_eraseIdx ha')
  · exact ho'.apart.sublist (List.eraseIdx_sublist ..)

theorem step_receive (policy : Policy ρ) (civil : Prop) (ho : o.Sound)
    {act : Act (Heap (Diary ρ)) (Handoff BlockRef)} (ht : Tidies policy.noting o.heap h)
    (heq : act.apply o.heap =
      (.ok h.arena.found, { h with arena := { h.arena with found := {} } })) :
    ∃ o', o.receive act = (.ok none, o') ∧ Moves policy civil o o' ∧ o'.Sound ∧
      o' = { o with
        heap := { h with arena := { h.arena with found := {} } }
        returned := o.returned ++ [h.arena.found] } := by
  have hs := Tidies.sound ht ho.heap
  have had : Advances h { h with arena := { h.arena with found := {} } } :=
    .of_shelf (fun _ => rfl) rfl
  have ho' := ho.advance ((Heap.Tidies.advances ht ho.heap).trans had) (hs.amends (.refl _)) rfl
  refine ⟨_, ?_, .tail (Moves.of_tidies ht) .receive, ⟨ho'.heap, rfl, ho'.valid, ho'.apart⟩, rfl⟩
  simp only [receive, heq]

/-- Marking an object writes its first cell, if it does anything. -/
theorem mark_cases (m : Memory) (b : BlockRef) :
    (m.mark b).2 = m ∨ (m.mark b).2 = m.setCell ⟨b.page, b.index + 0⟩ .mark := by
  rw [Memory.mark]
  split_ifs
  · exact .inr rfl
  · exact .inl rfl

/-- The only faults are those of objects that are too large for a machine word, and these change
nothing. -/
def Graceful (o : HeapSystem ρ) (done : Except Fault (Option BlockRef) × HeapSystem ρ) : Prop :=
  ∀ fault, done.1 = .error fault → (fault = .objectSize ∨ fault = .arraySize) ∧ done.2 = o

theorem graceful_ok {result : Option BlockRef} : Graceful o (.ok result, o') :=
  fun _ he => by cases he

theorem graceful_error {fault : Fault} (hf : fault = .objectSize ∨ fault = .arraySize) :
    Graceful o (.error fault, o) := by
  intro e he
  cases he
  exact ⟨hf, rfl⟩

theorem step_prepare (policy : Policy ρ) (ho : o.Sound) (ha : o.Admits .prepare) :
    ∃ h, Heap.Prepared o.heap h ∧ o.step policy .prepare = (.ok none, { o with heap := h }) ∧
      Sound { o with heap := h } := by
  obtain ⟨h, heq, hp⟩ := Heap.prepare_spec ho.heap ha
  refine ⟨h, hp, ?_,
    ho.advance hp.advances (hp.sound ho.heap ha) (hp.same.found_eq.trans ho.found_eq)⟩
  simp only [step, atHeap, heq]
  rfl

/-- Every operation but the start of a cycle is a sequence of moves, and ends well. -/
theorem step_moves (policy : Policy ρ) (civil : Prop) (ho : o.Sound) {op : Op} (ha : o.Admits op)
    (hc : civil → o.Civil op) (hop : op ≠ .prepare) :
    Moves policy civil o (o.step policy op).2 ∧ (o.step policy op).2.Sound ∧
      Graceful o (o.step policy op) := by
  cases op with
  | enlist =>
    refine ⟨.single .allocators, ⟨ho.heap, ho.found_eq, fun a ha => ?_, ?_⟩, graceful_ok⟩
    · rcases List.mem_append.mp ha with ha | ha
      · exact ho.valid a ha
      · obtain rfl := List.mem_singleton.mp ha
        exact Allocator.valid_new o.heap
    · refine List.pairwise_append.mpr ⟨ho.apart, List.pairwise_singleton _ _, fun a _ a' ha' => ?_⟩
      obtain rfl := List.mem_singleton.mp ha'
      intro _ _ r r' id _ hc
      cases (Allocator.cached_new o.heap r').symm.trans hc
  | allocate i bytes =>
    obtain ⟨b, h, a, hall, hserves, heq⟩ := step_allocate policy ho ha bytes
    obtain ⟨hmoves, hsound, hnote, had⟩ :=
      allocates_moves civil ho (by omega) (fun hciv => (hc hciv).elim) hall
    rw [heq]
    exact ⟨hmoves.tail .allocators, ho.serve ha had hsound (hserves.toFollows.advances hnote),
      graceful_ok⟩
  | createObject i payload =>
    rcases step_createObject policy ho ha payload with heq | ⟨b, h, a, hall, hserves, heq⟩
    · rw [heq]
      exact ⟨.refl, ho, graceful_error (.inl rfl)⟩
    · have htwo := Allocator.two_le_objectCells payload
      obtain ⟨hmoves, hsound, hnote, had⟩ :=
        allocates_moves civil ho (by omega) (fun _ => htwo) hall
      rw [heq]
      exact ⟨hmoves.tail .allocators, ho.serve ha had hsound (hserves.toFollows.advances hnote),
        graceful_ok⟩
  | createArray i element count =>
    rcases step_createArray policy ho ha element count with
      ⟨fault, hfault, heq⟩ | ⟨b, h, a, hall, hserves, heq⟩
    · rw [heq]
      exact ⟨.refl, ho, graceful_error hfault⟩
    · have hthree := Allocator.three_le_arrayCells element count
      obtain ⟨hmoves, hsound, hnote, had⟩ :=
        allocates_moves civil ho (by omega) (fun _ => by omega) hall
      obtain ⟨hheld, hcontent⟩ : (h.note (.born (.block b))).Holds (.block b) ∧
          (h.note (.born (.block b))).content b = List.replicate _ .zero := by
        obtain ⟨h₁, htidies, -, hgets⟩ := hall
        obtain ⟨hw, hzero⟩ := hgets.welcomes_block (Tidies.sound htidies ho.heap) (by omega)
        exact ⟨(hw.holds_iff (.block b)).mpr (.inl rfl), hzero⟩
      have hinside : 2 < ((h.note (.born (.block b))).content b).length := by
        rw [hcontent, List.length_replicate]
        omega
      have hwrites := Heap.write_spec hsound.heap hheld hinside (.word count.toUInt64)
      rw [heq]
      refine ⟨(hmoves.tail (.write hheld hinside fun _ => .inl (Nat.le_refl 2))).tail .allocators,
        ?_, graceful_ok⟩
      exact ho.serve ha (had.trans hwrites.advances)
        (hsound.advance hwrites.advances hwrites.sound hsound.found_eq)
        ((hserves.toFollows.advances hnote).advances hwrites.advances)
  | createRecord i object withFinalizer =>
    obtain ⟨r, h, a, heq, hattaches, hsound⟩ := step_createRecord policy ho ha
    rw [heq]
    exact ⟨(hattaches.moves civil).tail .allocators, hsound, graceful_ok⟩
  | close i =>
    obtain ⟨h, heq, htidies, hsound, -⟩ := step_close policy ho ha
    rw [heq]
    exact ⟨(Moves.of_tidies htidies).tail .allocators, hsound, graceful_ok⟩
  | prepare => exact absurd rfl hop
  | sweep epoch =>
    obtain ⟨h, heq, htidies, -⟩ := Heap.sweep_spec policy.noting ho.heap epoch
    obtain ⟨o', heq', hmoves, hsound, -⟩ := step_receive policy civil ho htidies heq
    rw [step, heq']
    exact ⟨hmoves, hsound, graceful_ok⟩
  | assist epoch =>
    obtain ⟨h, heq, htidies, -⟩ := Heap.assist_spec policy.noting ho.heap epoch
    obtain ⟨o', heq', hmoves, hsound, -⟩ := step_receive policy civil ho htidies heq
    rw [step, heq']
    exact ⟨hmoves, hsound, graceful_ok⟩
  | release keep =>
    obtain ⟨released, h, heq, htidies, hfound, -⟩ := Heap.release_spec policy.noting ho.heap keep
    have heq' : o.step policy (.release keep) = (.ok none, { o with heap := h }) := by
      simp only [step, atHeap, heq]
      rfl
    rw [heq']
    exact ⟨Moves.of_tidies htidies, ho.advance (Heap.Tidies.advances htidies ho.heap)
      (Tidies.sound htidies ho.heap) (hfound.trans ho.found_eq), graceful_ok⟩
  | write b k c =>
    obtain ⟨hheld, hinside⟩ := ha
    have hwrites := Heap.write_spec ho.heap hheld hinside c
    exact ⟨.single (.write hheld hinside fun hciv => hc hciv),
      ho.advance hwrites.advances hwrites.sound ho.found_eq, graceful_ok⟩
  | mark b =>
    have hheld : o.heap.Holds (.block b) := ha
    have hinside : 0 < (o.heap.content b).length := by
      obtain ⟨p, hp, hkind, hindex⟩ := Heap.holds_block.mp hheld
      rw [Heap.length_content hp]
      exact (ho.heap.page_sound hp).blockCells_pos hkind hindex
    have hstep : o.step policy (.mark b) = (.ok none, { o with heap := { o.heap with
        arena := o.heap.arena.modifyMemory fun m => (m.mark b).2 } }) := rfl
    have hcases : (o.step policy (.mark b)).2 = o ∨
        (o.step policy (.mark b)).2 =
          { o with heap := o.heap.write ⟨b.page, b.index + 0⟩ .mark } := by
      rw [hstep]
      rcases mark_cases o.heap.arena.memory b with hm | hm
      · left
        simp only [Arena.modifyMemory, hm]
      · right
        simp only [Arena.modifyMemory, hm]
        rfl
    refine ⟨?_, ?_, by rw [hstep]; exact graceful_ok⟩
    · rcases hcases with he | he <;> rw [he]
      exact .single (.write hheld hinside fun _ => .inr ⟨rfl, .inr rfl⟩)
    · have hwrites := Heap.write_spec ho.heap hheld hinside .mark
      rcases hcases with he | he <;> rw [he]
      · exact ho
      · exact ho.advance hwrites.advances hwrites.sound ho.found_eq
  | amend r f =>
    have hamends := Heap.amend_spec o.heap r f
    exact ⟨.single (.amend hc), ho.advance hamends.advances (hamends.sound ho.heap) ho.found_eq,
      graceful_ok⟩
  | gauge f =>
    exact ⟨.single (.tidy (.idle ⟨rfl, rfl, rfl⟩)), ho.advance (.of_shelf (fun _ => rfl) rfl)
      (ho.heap.amends (.refl _)) ho.found_eq, graceful_ok⟩
  | takeRequest i =>
    have hi : i < o.allocators.length := ha
    have heq : o.step policy (.takeRequest i) = (.ok none, { o with
        allocators := o.allocators.set i { o.allocators[i] with requested := false } }) := by
      simp only [step, List.getElem?_eq_getElem hi]
      rfl
    have hvalid := ho.valid _ (List.getElem_mem hi)
    have hvalid' : ({ o.allocators[i] with requested := false } : Allocator).Valid o.heap :=
      ⟨hvalid.size_eq, hvalid.epoch_le, hvalid.owns⟩
    rw [heq]
    exact ⟨.single .allocators, ho.serve hi (.of_shelf (fun _ => rfl) rfl) ho
      (.of_cached hvalid' id fun _ => rfl), graceful_ok⟩
  | submit i =>
    have hget := List.getElem?_eq_getElem (show i < o.returned.length from ha)
    have heq : o.step policy (.submit i) = (.ok none, { o with
        heap := { o.heap with pending := o.heap.pending.merge o.returned[i] }
        returned := o.returned.eraseIdx i }) := by
      simp only [step, hget, atHeap, Heap.submit_eq]
      rfl
    have hmove : Move policy civil o _ := .submit hget
    rw [heq]
    exact ⟨.single hmove, ho.move hmove (.of_shelf (fun _ => rfl) rfl) ho.found_eq rfl, graceful_ok⟩
  | extract =>
    have hmove : Move policy civil o _ := .extract
    exact ⟨.single hmove, ho.move hmove (.of_shelf (fun _ => rfl) rfl) ho.found_eq rfl, graceful_ok⟩
  | tell b =>
    have hmove : Move policy civil o (o.tell policy b) := .tell fun hciv => hc hciv
    have hfound : (o.tell policy b).heap.arena.found = {} := by
      refine Eq.trans ?_ ho.found_eq
      change ({ o.heap with arena := o.heap.arena.noteFinalized policy.noting b }
        : Heap _).arena.found = o.heap.arena.found
      rcases noteFinalized_cases policy.noting b o.heap with ⟨he, -⟩ | ⟨r, -, he⟩ <;> rw [he]
      rfl
    exact ⟨.single hmove, ho.move hmove (.of_shelf (fun _ => rfl) rfl) hfound rfl, graceful_ok⟩

/-- A run in which no cycle begins is a sequence of moves. -/
theorem run_moves (policy : Policy ρ) (civil : Prop) {admits : HeapSystem ρ → Op → Prop}
    (hadmits : ∀ o op, admits o op → o.Admits op ∧ (civil → o.Civil op)) {ops : List Op}
    (hops : ∀ op ∈ ops, op ≠ .prepare) (ho : o.Sound) (ha : Allows admits policy ops o) :
    Moves policy civil o (run policy ops o) ∧ (run policy ops o).Sound := by
  induction ops generalizing o with
  | nil => exact ⟨.refl, ho⟩
  | cons op ops ih =>
    obtain ⟨hop, hrest⟩ := ha
    obtain ⟨hduty, hcivil⟩ := hadmits o op hop
    obtain ⟨hmoves, hsound, -⟩ :=
      step_moves policy civil ho hduty hcivil (hops op List.mem_cons_self)
    obtain ⟨hmoves', hsound'⟩ := ih (fun op' h => hops op' (List.mem_cons_of_mem _ h)) hsound hrest
    exact ⟨hmoves.trans hmoves', hsound'⟩

theorem Reached.sound (hr : Reached o) : o.Sound := by
  induction hr with
  | start memo => exact sound_new memo
  | step policy op _ ha ih =>
    by_cases hop : op = .prepare
    · subst hop
      obtain ⟨h, -, heq, hs⟩ := step_prepare policy ih ha
      rw [heq]
      exact hs
    · exact (step_moves policy False ih ha False.elim hop).2.1

end HeapSystem

end SweptHeap
