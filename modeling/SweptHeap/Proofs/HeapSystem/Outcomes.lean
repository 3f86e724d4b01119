import Mathlib
import SweptHeap.Proofs.HeapSystem.Diary

/-!
# What moves do to the books

Seen from the diary and from the finalizers that are due, three things can happen in a move: nobody
comes or goes, a block or record is new, or a page is swept.
-/

namespace SweptHeap

@[simp] theorem Handoff.toList_empty {α : Type} : ({} : Handoff α).toList = [] := rfl

namespace HeapSystem

variable {ρ : Type} {policy : Policy ρ} {civil : Prop} {o o' : HeapSystem ρ}

/-- The blocks sent to their finalizers so far, wherever they have got to. -/
def due (o : HeapSystem ρ) : List BlockRef :=
  o.heap.due ++ (o.returned.flatMap Handoff.toList ++ o.extracted)

/-- Nobody comes or goes. -/
structure Keeps (notes : List Note) (o o' : HeapSystem ρ) : Prop where
  tenants_eq : ∀ id, o'.heap.tenantsOn id = o.heap.tenantsOn id
  waiting_iff : ∀ id, o'.heap.Waiting id ↔ o.heap.Waiting id
  notes_eq : o'.notes = o.notes ++ notes
  answers_eq : answers notes = []
  births_eq : births notes = []
  due_perm : o'.due.Perm o.due

/-- The block or record `t` is new, on a page that does not wait for the sweep. -/
structure Gains (t : Tenant) (o o' : HeapSystem ρ) : Prop where
  used : o.heap.Uses t.ref.page
  tenants_self : (o'.heap.tenantsOn t.ref.page).Perm (t :: o.heap.tenantsOn t.ref.page)
  tenants_other : ∀ id ≠ t.ref.page, o'.heap.tenantsOn id = o.heap.tenantsOn id
  swept : ¬o.heap.Waiting t.ref.page
  waiting_iff : ∀ id, o'.heap.Waiting id ↔ o.heap.Waiting id
  notes_eq : o'.notes = o.notes ++ [.born t]
  due_eq : o'.due = o.due

/-- The page `id` is swept: everything on it is asked about, and what is spared remains. -/
structure Settles (id : PageId) (notes : List Note) (o o' : HeapSystem ρ) : Prop where
  waiting : o.heap.Waiting id
  waiting_iff : ∀ j, o'.heap.Waiting j ↔ o.heap.Waiting j ∧ j ≠ id
  tenants_other : ∀ j ≠ id, o'.heap.tenantsOn j = o.heap.tenantsOn j
  notes_eq : o'.notes = o.notes ++ notes
  asked_eq : asked notes = o.heap.tenantsOn id
  spared_eq : spared notes = o'.heap.tenantsOn id
  births_eq : births notes = []
  due_perm : o'.due.Perm (o.due ++ finalizing notes)

inductive Outcome (o o' : HeapSystem ρ) : Prop
  | keeps (notes : List Note) (keeps : Keeps notes o o')
  | gains {t : Tenant} (gains : Gains t o o')
  | settles {id : PageId} {notes : List Note} (settles : Settles id notes o o')

variable {h h' : Heap (Diary ρ)}

theorem keeps_of_steady (hh : Heap.Steady o.heap h) : Keeps [] o { o with heap := h } where
  tenants_eq := hh.tenants_eq
  waiting_iff := hh.waiting_iff
  notes_eq := (congrArg Diary.notes hh.memo_eq).trans (List.append_nil _).symm
  answers_eq := rfl
  births_eq := rfl
  due_perm := .of_eq (congrArg (· ++ _) hh.due_eq)

theorem gains_of_welcomes {t : Tenant} (hw : Heap.Welcomes t o.heap h) (hh : Heap.Steady h h') :
    Gains t o { o with heap := h'.note (.born t) } where
  used := hw.used
  tenants_self := (hh.tenants_eq _).symm ▸ hw.tenants_self
  tenants_other id hid := (hh.tenants_eq id).trans (hw.tenants_other id hid)
  swept := hw.swept
  waiting_iff id := (hh.waiting_iff id).trans (hw.waiting_iff id)
  notes_eq := congrArg (fun memo => memo.notes ++ [.born t]) (hh.memo_eq.trans hw.memo_eq)
  due_eq := congrArg (· ++ _) (hh.due_eq.trans hw.due_eq)

theorem settles_of_sweeps {id : PageId} {p : Page} {hearings : List Hearing} (hs : o.heap.Sound)
    (hsw : Heap.Sweeps policy.noting id p hearings o.heap h) :
    ∃ notes, Settles id notes o { o with heap := h } := by
  obtain ⟨notes, hnotes, hm⟩ := hsw.notes hs
  refine ⟨notes, hsw.waiting, hsw.waiting_iff, hsw.tenants_other, hnotes, ?_, ?_, hm.births_eq, ?_⟩
  · rw [hm.asked_eq, Heap.tenantsOn_eq hsw.page_eq, Page.tenants, ← hsw.map_index, List.map_map]
    rfl
  · rw [hm.spared_eq]
    exact hsw.tenants_self.symm
  · rw [due, due, hsw.due_eq, hm.finalizing_eq, List.append_assoc, List.append_assoc]
    exact (List.perm_append_comm).append_left _

/-- A finalizer that has run leaves everybody where they are. -/
theorem keeps_tell (b : BlockRef) : Keeps [.told b] o (o.tell policy b) := by
  have hsteady : Heap.Steady o.heap
      { o.heap with arena := o.heap.arena.noteFinalized policy.noting b } := by
    rcases noteFinalized_cases policy.noting b o.heap with ⟨he, -⟩ | ⟨r, -, he⟩ <;> rw [he]
    · exact .refl _
    · exact (Heap.amend_spec _ _ _).toSteady
  refine ⟨hsteady.tenants_eq, hsteady.waiting_iff, ?_, rfl, rfl, ?_⟩
  · exact congrArg (fun memo => memo.notes ++ [.told b]) hsteady.memo_eq
  · exact .of_eq (congrArg (· ++ _) hsteady.due_eq)

theorem Move.outcome (hm : Move policy civil o o') (hs : o.heap.Sound) : Outcome o o' := by
  cases hm with
  | tidy hstep =>
    rcases hstep.quiet_or_sweeps hs with hq | ⟨id, p, hearings, hsw⟩
    · exact .keeps _ (keeps_of_steady hq.toSteady)
    · obtain ⟨notes, hsettles⟩ := settles_of_sweeps hs hsw
      exact .settles hsettles
  | block hpos hobject hgets =>
    exact .gains (gains_of_welcomes (hgets.welcomes_block hs hpos).1 (.refl _))
  | write hheld hinside hbehind =>
    exact .keeps _ (keeps_of_steady (Heap.write_spec hs hheld hinside _).toSteady)
  | @record object r withFinalizer h held header bare gets =>
    have hsteady := (record_linked hs held header gets).2.toSteady
    obtain ⟨hw, -⟩ := gets.welcomes_record hs
    exact .gains (gains_of_welcomes hw hsteady)
  | raise => exact .keeps _ (keeps_of_steady (Heap.amend_spec _ _ _).toSteady)
  | amend => exact .keeps _ (keeps_of_steady (Heap.amend_spec _ _ _).toSteady)
  | tell => exact .keeps _ (keeps_tell _)
  | receive =>
    refine .keeps [] ⟨fun _ => rfl, fun _ => Iff.rfl, (List.append_nil _).symm, rfl, rfl, ?_⟩
    rw [List.perm_iff_count]
    intro b
    simp only [due, Heap.due, List.flatMap_append, List.flatMap_singleton, List.count_append,
      Handoff.toList_empty, List.count_nil]
    omega
  | @submit i q hq =>
    refine .keeps [] ⟨fun _ => rfl, fun _ => Iff.rfl, (List.append_nil _).symm, rfl, rfl, ?_⟩
    rw [List.perm_iff_count]
    intro b
    obtain ⟨hi, rfl⟩ := List.getElem?_eq_some_iff.mp hq
    have hperm := ((List.getElem_cons_eraseIdx_perm hi).flatMap_right Handoff.toList).count_eq b
    simp only [List.flatMap_cons, List.count_append] at hperm
    simp only [due, Heap.due, Handoff.toList_merge, List.count_append]
    omega
  | extract =>
    refine .keeps [] ⟨fun _ => rfl, fun _ => Iff.rfl, (List.append_nil _).symm, rfl, rfl, ?_⟩
    rw [List.perm_iff_count]
    intro b
    simp only [due, Heap.due, List.count_append, Handoff.toList_empty, List.count_nil]
    omega
  | allocators =>
    exact .keeps [] ⟨fun _ => rfl, fun _ => Iff.rfl, (List.append_nil _).symm, rfl, rfl, .refl _⟩

/-- Only the start of a cycle makes pages wait. -/
theorem Moves.waiting (hm : Moves policy civil o o') (hs : o.heap.Sound) {id : PageId}
    (hw : o'.heap.Waiting id) : o.heap.Waiting id := by
  induction hm with
  | refl => exact hw
  | tail hmoves hstep ih =>
    refine ih ?_
    cases hstep.outcome (Moves.sound hmoves hs) with
    | keeps _ hk => exact (hk.waiting_iff id).mp hw
    | gains hg => exact (hg.waiting_iff id).mp hw
    | settles hsettles => exact ((hsettles.waiting_iff id).mp hw).1

theorem admits_prepare_iff : o.Admits .prepare ↔ ∀ id, ¬o.heap.Waiting id :=
  Heap.not_waiting_iff.symm

theorem not_waiting_new (memo : ρ) (id : PageId) : ¬(new memo).heap.Waiting id :=
  Heap.not_waiting_iff.mpr (fun _ hk => congrArg Shelf.unswept (Heap.shelf_new _ hk)) id

/-- No page waits before the first cycle has begun. -/
theorem not_waiting_concat {ops : List Op} {op : Op} (hreached : Reached (run policy ops o))
    (ha : (run policy ops o).Admits op) (hop : op ≠ .prepare)
    (hidle : ∀ id, ¬(run policy ops o).heap.Waiting id) (id : PageId) :
    ¬(run policy (ops ++ [op]) o).heap.Waiting id := by
  rw [run_concat]
  obtain ⟨hmoves, -⟩ := step_moves policy False hreached.sound ha False.elim hop
  exact fun hw => hidle id (Moves.waiting hmoves hreached.sound.heap hw)

end HeapSystem

end SweptHeap
