import Mathlib
import SweptHeap.Proofs.HeapSystem.Cycle

/-!
# Every page has one place

A mapped page is on one list of the shelf that it belongs on, and at most one allocator that is up
to date keeps it. So a page is unmapped only when nothing is left on it and nobody keeps it, and
nothing is ever allocated on a page that has been unmapped.
-/

namespace SweptHeap

variable {ρ : Type}

/-! ### Names of pages are not used again -/

/-- Pages that are gone do not come back. -/
structure Memory.Retires (m m' : Memory) : Prop where
  size_le : m.pages.size ≤ m'.pages.size
  gone : ∀ id < m.pages.size, m.page? id = none → m'.page? id = none

namespace Memory.Retires

variable {m m' m'' : Memory}

theorem refl (m : Memory) : m.Retires m := ⟨Nat.le_refl _, fun _ _ h => h⟩

theorem trans (h : m.Retires m') (h' : m'.Retires m'') : m.Retires m'' :=
  ⟨h.size_le.trans h'.size_le, fun id hid hnone =>
    h'.gone id (hid.trans_le h.size_le) (h.gone id hid hnone)⟩

theorem of_eq (h : m'.pages = m.pages) : m.Retires m' :=
  ⟨h ▸ Nat.le_refl _, fun id _ hnone => (page?_congr h id).trans hnone⟩

theorem modifyPage (m : Memory) (id : PageId) (f : Page → Page) :
    m.Retires (m.modifyPage id f) := by
  refine ⟨(m.size_modifyPage id f).ge, fun j _ hnone => ?_⟩
  rw [page?_modifyPage, hnone]
  simp

theorem setPage {id : PageId} {p : Page} (hp : m.page? id = some p) (x : Option Page) :
    m.Retires (m.setPage id x) := by
  refine ⟨(size_setPage x).ge, fun j _ hnone => ?_⟩
  rw [page?_setPage (lt_of_page? hp), if_neg, hnone]
  rintro rfl
  cases hp.symm.trans hnone

theorem unmap (m : Memory) (id : PageId) : m.Retires (m.unmap id) := by
  refine ⟨(m.size_unmap id).ge, fun j _ hnone => ?_⟩
  rw [page?_unmap, hnone, ite_self]

end Memory.Retires

theorem Arena.Sifts.retires {policy : Policy ρ} {id : PageId} {p p' : Page}
    {hearings : List Hearing} {a a' : Arena ρ} (h : Sifts policy id p hearings p' a a') :
    a.memory.Retires a'.memory := by
  refine ⟨h.size_eq.ge, fun j _ hnone => ?_⟩
  have hj : j ≠ id := by
    rintro rfl
    cases h.page_eq.symm.trans hnone
  have hab := h.others hj
  rw [hnone] at hab
  cases hlater : a'.memory.page? j with
  | none => rfl
  | some q =>
    rw [hlater] at hab
    cases hab

theorem Depot.Tidy.retires {policy : Policy ρ} {k : Request} {d d' : Depot ρ}
    (h : Tidy policy k d d') : d.arena.memory.Retires d'.arena.memory := by
  cases h with
  | relist => exact .refl _
  | sift _ hsift => exact hsift.retires
  | discard _ hsift _ hunmapped =>
    exact (hsift.retires.trans (.unmap _ _)).trans (.of_eq hunmapped.pages_eq)
  | map _ _ _ hpages =>
    refine ⟨by rw [hpages, Array.size_push]; exact Nat.le_succ _, fun j hj hnone => ?_⟩
    rw [Memory.page?_push hpages, if_neg (Nat.ne_of_lt hj), hnone]
  | unmap _ hunmapped => exact (Memory.Retires.unmap _ _).trans (.of_eq hunmapped.pages_eq)
  | idle hsame => exact .of_eq hsame.pages_eq

namespace Heap

variable {h h' : Heap ρ}

theorem Tidy.retires {policy : Policy ρ} (ht : Tidy policy h h') :
    h.arena.memory.Retires h'.arena.memory := by
  cases ht with
  | shelf _ hstep =>
    rw [setDepot_arena]
    exact hstep.retires
  | keep hp => exact .setPage hp _
  | flush => exact .refl _
  | idle hsame => exact .of_eq hsame.pages_eq

theorem Gets.retires {take : Page → Nat → Page → Prop} {b : BlockRef} (hg : Gets take h b h') :
    h.arena.memory.Retires h'.arena.memory := by
  obtain ⟨p, p', hp, -, -, a, hsame, rfl⟩ := hg
  exact (Memory.Retires.setPage hp (some p')).trans (.of_eq hsame.pages_eq)

theorem Uses.advances {id : PageId} (hu : h.Uses id) (hs : h.Sound) (hs' : h'.Sound)
    (had : Advances h h') (he : h'.epoch = h.epoch) : h'.Uses id := by
  obtain ⟨p, hp, hused⟩ := hu
  have hkey := (hs.placed id p hp).1
  have hused' := had.used he _ hkey hused
  obtain ⟨p', hp', hkey', -⟩ :=
    hs'.key_of_mem hkey (Shelf.mem_pages.mpr (.inr (.inr (.inl hused'))))
  exact ⟨p', hp', hkey'.symm ▸ hused'⟩

end Heap

namespace HeapSystem

open Heap (Advances)

variable {policy : Policy ρ} {civil : Prop} {o o' o'' : HeapSystem ρ} {notes more : List Note}

/-! ### Operations on pages -/

/-- What an operation that noted `notes` has done to the pages and to what is on them. -/
structure Handles (notes : List Note) (o o' : HeapSystem ρ) : Prop where
  notes_eq : o'.notes = o.notes ++ notes
  retires : o.heap.arena.memory.Retires o'.heap.arena.memory
  balance : ∀ t, o.heap.tally t + (births notes).count t =
    o'.heap.tally t + (reclaimed notes).count t
  uses : ∀ t ∈ births notes, o'.heap.Uses t.ref.page

theorem Handles.refl (o : HeapSystem ρ) : Handles [] o o :=
  ⟨(List.append_nil _).symm, .refl _, fun _ => rfl, by simp [births]⟩

theorem Handles.trans (h : Handles notes o o') (h' : Handles more o' o'')
    (hused : ∀ id, o'.heap.Uses id → o''.heap.Uses id) : Handles (notes ++ more) o o'' := by
  refine ⟨?_, h.retires.trans h'.retires, fun t => ?_, fun t ht => ?_⟩
  · rw [h'.notes_eq, h.notes_eq, List.append_assoc]
  · have hfirst := h.balance t
    have hsecond := h'.balance t
    simp only [births_append, reclaimed_append, List.count_append]
    omega
  · rw [births_append, List.mem_append] at ht
    rcases ht with ht | ht
    · exact hused _ (h.uses t ht)
    · exact h'.uses t ht

theorem Move.advances (hm : Move policy civil o o') (hs : o.heap.Sound) :
    Advances o.heap o'.heap ∧ o'.heap.epoch = o.heap.epoch := by
  cases hm with
  | tidy hstep => exact ⟨Heap.Tidies.advances (.single hstep) hs, hstep.epoch_eq⟩
  | block _ _ hgets =>
    obtain ⟨p, p', -, -, -, a, -, rfl⟩ := hgets
    exact ⟨.of_shelf (fun _ => rfl) rfl, rfl⟩
  | record _ _ _ hgets =>
    obtain ⟨p, p', -, -, -, a, -, rfl⟩ := hgets
    exact ⟨.of_shelf (fun _ => rfl) rfl, rfl⟩
  | _ => exact ⟨.of_shelf (fun _ => rfl) rfl, rfl⟩

theorem Move.retires (hm : Move policy civil o o') :
    o.heap.arena.memory.Retires o'.heap.arena.memory := by
  cases hm with
  | tidy hstep => exact hstep.retires
  | block _ _ hgets => exact hgets.retires
  | write => exact .modifyPage _ _ _
  | record _ _ _ hgets => exact hgets.retires.trans (.modifyPage _ _ _)
  | raise => exact .modifyPage _ _ _
  | amend => exact .modifyPage _ _ _
  | @tell b =>
    change o.heap.arena.memory.Retires
      ({ o.heap with arena := o.heap.arena.noteFinalized policy.noting b } : Heap _).arena.memory
    rcases noteFinalized_cases policy.noting b o.heap with ⟨he, -⟩ | ⟨r, -, he⟩ <;> rw [he]
    · exact .refl _
    · exact .modifyPage _ _ _
  | receive => exact .refl _
  | submit => exact .refl _
  | extract => exact .refl _
  | allocators => exact .refl _

theorem Move.uses (hm : Move policy civil o o') (hs : o.heap.Sound) {id : PageId}
    (hu : o.heap.Uses id) : o'.heap.Uses id := by
  obtain ⟨had, he⟩ := hm.advances hs
  exact hu.advances hs (hm.sound hs) had he

theorem Move.handles (hm : Move policy civil o o') (hs : o.heap.Sound) :
    ∃ notes, Handles notes o o' := by
  cases hm.outcome hs with
  | keeps notes hk =>
    refine ⟨notes, hk.notes_eq, hm.retires, fun t => ?_, by simp [hk.births_eq]⟩
    rw [hk.births_eq, reclaimed, hk.answers_eq, Heap.tally, Heap.tally, hk.tenants_eq]
    rfl
  | @gains t hg =>
    have hbirths : births [Note.born t] = [t] := rfl
    refine ⟨[.born t], hg.notes_eq, hm.retires, fun t' => ?_, fun t' ht' => ?_⟩
    · rw [hg.tally, hbirths, show reclaimed [Note.born t] = [] from rfl,
        List.count_nil, Nat.add_zero]
    · rw [hbirths, List.mem_singleton] at ht'
      rw [ht']
      exact hm.uses hs hg.used
  | @settles id notes hsettles =>
    refine ⟨notes, hsettles.notes_eq, hm.retires, fun t => ?_, by simp [hsettles.births_eq]⟩
    have hasked := count_asked notes t
    rw [hsettles.asked_eq, hsettles.spared_eq, Heap.count_tenantsOn, Heap.count_tenantsOn] at hasked
    rw [hsettles.births_eq, List.count_nil, Nat.add_zero]
    split_ifs at hasked with hid
    · exact hasked
    · have htally : o'.heap.tally t = o.heap.tally t := by
        rw [Heap.tally, hsettles.tenants_other _ hid, Heap.tally]
      omega

theorem Moves.uses (hm : Moves policy civil o o') (hs : o.heap.Sound) {id : PageId}
    (hu : o.heap.Uses id) : o'.heap.Uses id := by
  induction hm with
  | refl => exact hu
  | tail hmoves hstep ih => exact hstep.uses (Moves.sound hmoves hs) ih

theorem Moves.handles (hm : Moves policy civil o o') (hs : o.heap.Sound) :
    ∃ notes, Handles notes o o' := by
  induction hm with
  | refl => exact ⟨[], .refl o⟩
  | tail hmoves hstep ih =>
    obtain ⟨notes, hfirst⟩ := ih
    have hs' := Moves.sound hmoves hs
    obtain ⟨more, hlast⟩ := hstep.handles hs'
    exact ⟨notes ++ more, hfirst.trans hlast fun id hu => hstep.uses hs' hu⟩

/-- An operation ends well or changes nothing, and does not unmap a page in use. -/
theorem step_handles (policy : Policy ρ) (ho : o.Sound) {op : Op} (ha : o.Admits op) :
    Graceful o (o.step policy op) ∧
      (∀ id, o.heap.Uses id → ∃ p, (o.step policy op).2.heap.arena.memory.page? id = some p) ∧
      ∃ notes, Handles notes o (o.step policy op).2 := by
  by_cases hop : op = .prepare
  · subst hop
    obtain ⟨h, hp, heq, -⟩ := step_prepare policy ho ha
    rw [heq]
    refine ⟨graceful_ok, fun id hu => ?_, [], ?_, .of_eq hp.same.pages_eq,
      fun t => ?_, by simp [births]⟩
    · obtain ⟨p, hpage, -⟩ := hu
      exact ⟨p, (hp.page? id).trans hpage⟩
    · exact (congrArg Diary.notes hp.same.memo_eq).trans (List.append_nil _).symm
    · rw [Heap.tally, Heap.tally, hp.tenants_eq]
      rfl
  · obtain ⟨hmoves, -, hgraceful⟩ := step_moves policy False ho ha False.elim hop
    refine ⟨hgraceful, fun id hu => ?_, hmoves.handles ho.heap⟩
    obtain ⟨p, hp, -⟩ := hmoves.uses ho.heap hu
    exact ⟨p, hp⟩

/-! ### Places -/

/-- Every mapped page is listed once, on the shelf of its own kind and block size. Empty pages hold
nothing. What an allocator of this epoch keeps is in use, and no other one keeps it. -/
structure InPlace (o : HeapSystem ρ) : Prop where
  listed : ∀ id p, o.heap.arena.memory.page? id = some p → p.key ∈ Heap.allRequests ∧
    ∀ k ∈ Heap.allRequests, (o.heap.shelf k).pages.toList.count id = if k = p.key then 1 else 0
  mapped : ∀ k ∈ Heap.allRequests, ∀ id ∈ (o.heap.shelf k).pages.toList,
    ∃ p, o.heap.arena.memory.page? id = some p
  vacant : ∀ k ∈ Heap.allRequests, ∀ id ∈ (o.heap.shelf k).empty.toList, o.heap.tenantsOn id = []
  kept : ∀ (i : Nat) a r id, o.allocators[i]? = some a → a.epoch = o.heap.epoch →
    Allocator.cached r a = some id →
    (∃ p, o.heap.arena.memory.page? id = some p ∧ p.key = r.key ∧
      id ∈ (o.heap.shelf p.key).used.toList) ∧
    ∀ (j : Nat) a' r', o.allocators[j]? = some a' → a'.epoch = o.heap.epoch →
      Allocator.cached r' a' = some id → j = i

theorem Sound.kept (ho : o.Sound) {a : Allocator} (ha : a ∈ o.allocators)
    (he : a.epoch = o.heap.epoch) {r : Request} {id : PageId} (hc : a.cached r = some id) :
    ∃ p, o.heap.arena.memory.page? id = some p ∧ p.key = r.key ∧
      id ∈ (o.heap.shelf p.key).used.toList := by
  have hvalid := ho.valid a ha
  have hused := hvalid.owns he r id hc
  rw [← Heap.shelf_key] at hused
  obtain ⟨p, hp, hkey, -⟩ :=
    ho.heap.key_of_mem (hvalid.key_mem hc) (Shelf.mem_pages.mpr (.inr (.inr (.inl hused))))
  exact ⟨p, hp, hkey, hkey ▸ hused⟩

theorem Sound.inPlace (ho : o.Sound) : o.InPlace where
  listed id p hp := by
    obtain ⟨hkey, hmem⟩ := ho.heap.placed id p hp
    refine ⟨hkey, fun k hk => ?_⟩
    split_ifs with he
    · exact List.count_eq_one_of_mem (ho.heap.good k hk).nodup (he ▸ hmem)
    · refine List.count_eq_zero.mpr fun hid => he ?_
      obtain ⟨q, hq, hqkey, -⟩ := ho.heap.key_of_mem hk hid
      rw [← hqkey, Option.some.inj (hp.symm.trans hq)]
  mapped k hk id hid := by
    obtain ⟨p, hp, -⟩ := ho.heap.key_of_mem hk hid
    exact ⟨p, hp⟩
  vacant k hk id hid := by
    obtain ⟨p, hp, -⟩ := ho.heap.key_of_mem hk (Shelf.mem_pages.mpr (.inl hid))
    rw [Heap.tenantsOn_eq hp, Page.tenants, (ho.heap.good k hk).vacant id hid p hp, List.map_nil]
  kept i a r id hi he hc := by
    refine ⟨ho.kept (List.mem_of_getElem? hi) he hc, fun j a' r' hj he' hc' => ?_⟩
    obtain ⟨hilt, rfl⟩ := List.getElem?_eq_some_iff.mp hi
    obtain ⟨hjlt, rfl⟩ := List.getElem?_eq_some_iff.mp hj
    have hapart := List.pairwise_iff_getElem.mp ho.apart
    rcases Nat.lt_trichotomy i j with hlt | heq | hgt
    · exact absurd hc' (hapart i j hilt hjlt hlt he he' r r' id hc)
    · exact heq.symm
    · exact absurd hc (hapart j i hjlt hilt hgt he' he r' r id hc')

/-- What an operation may do to pages. It has noted `notes`. -/
structure Minds (notes : List Note) (o : HeapSystem ρ)
    (done : Except Fault (Option BlockRef) × HeapSystem ρ) : Prop where
  notes_eq : done.2.notes = o.notes ++ notes
  /-- In particular, nobody meets a page that is not there. -/
  fault_eq : ∀ fault, done.1 = .error fault → fault = .objectSize ∨ fault = .arraySize
  /-- Whatever was or came to be on a page that is unmapped was given up as often, and no allocator
  that was up to date kept the page. -/
  unmapped : ∀ id p, o.heap.arena.memory.page? id = some p →
    done.2.heap.arena.memory.page? id = none →
    (∀ t, t.ref.page = id →
      (o.heap.tenantsOn id).count t + (births notes).count t = (reclaimed notes).count t) ∧
    ∀ a ∈ o.allocators, a.epoch = o.heap.epoch → ∀ r, Allocator.cached r a ≠ some id
  retired : ∀ id < o.heap.arena.memory.pages.size, o.heap.arena.memory.page? id = none →
    done.2.heap.arena.memory.page? id = none
  /-- What is new is on a page that is still mapped, and that was mapped before unless it is new. -/
  allocated : ∀ t ∈ births notes,
    (∃ p, done.2.heap.arena.memory.page? t.ref.page = some p) ∧
    (t.ref.page < o.heap.arena.memory.pages.size →
      ∃ p, o.heap.arena.memory.page? t.ref.page = some p)

/-- In every run, each page is in its place, and the next operation leaves to everybody the pages
that they need. -/
theorem page_ownership (policy : Policy ρ) {op : Op} (hreached : Reached o)
    (hadmits : o.Admits op) : o.InPlace ∧ ∃ notes, Minds notes o (o.step policy op) := by
  have ho := hreached.sound
  obtain ⟨hgraceful, hstays, notes, hh⟩ := step_handles policy ho hadmits
  refine ⟨ho.inPlace, notes, hh.notes_eq, fun fault hf => (hgraceful fault hf).1,
    fun id p hp hgone => ⟨fun t ht => ?_, fun a ha he r hc => ?_⟩, hh.retires.gone, fun t ht => ?_⟩
  · have hbalance := hh.balance t
    have hnone : (o.step policy op).2.heap.tally t = 0 := by
      rw [Heap.tally, Heap.tenantsOn, ht, hgone]
      rfl
    rw [hnone, Nat.zero_add, Heap.tally, ht] at hbalance
    exact hbalance
  · obtain ⟨q, hq, -, hused⟩ := ho.kept ha he hc
    obtain ⟨q', hq'⟩ := hstays id ⟨q, hq, hused⟩
    cases hgone.symm.trans hq'
  · obtain ⟨p, hp, -⟩ := hh.uses t ht
    refine ⟨⟨p, hp⟩, fun hlt => ?_⟩
    cases hbefore : o.heap.arena.memory.page? t.ref.page with
    | none => cases (hh.retires.gone _ hlt hbefore).symm.trans hp
    | some q => exact ⟨q, rfl⟩

/-- The sweep of a heap with one large block, which nobody has marked. -/
theorem page_ownership_small :
    let before := run (Policy.byMark (ρ := Unit)) [.enlist, .allocate 0 300000, .prepare] (new ())
    (Reached before ∧ before.Admits (.sweep 1)) ∧
      before.InPlace ∧ ∃ notes, Minds notes before (before.step .byMark (.sweep 1)) := by
  intro before
  have henlisted : Reached ((new ()).step (Policy.byMark (ρ := Unit)) .enlist).2 :=
    .step _ .enlist (.start ()) trivial
  have hfirst : Admits ((new ()).step (Policy.byMark (ρ := Unit)) .enlist).2 (.allocate 0 300000) :=
    Nat.zero_lt_one
  have hswept : Admits (run (Policy.byMark (ρ := Unit)) [.enlist, .allocate 0 300000] (new ()))
      .prepare := by
    obtain ⟨hmoves, -⟩ := step_moves (Policy.byMark (ρ := Unit)) False henlisted.sound hfirst
      False.elim (by simp)
    refine admits_prepare_iff.mpr fun id hw => ?_
    exact not_waiting_new () id (Moves.waiting hmoves henlisted.sound.heap hw)
  have hreached : Reached before := .step _ .prepare (.step _ _ henlisted hfirst) hswept
  exact ⟨⟨hreached, trivial⟩, page_ownership (Policy.byMark (ρ := Unit)) hreached trivial⟩

end HeapSystem

end SweptHeap
