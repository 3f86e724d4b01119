import Mathlib
import SweptHeap.Proofs.Heap.Traversal
import SweptHeap.Proofs.HeapSystem.Outcomes

/-!
# Inside a cycle

While a page waits for the sweep, the cycle has not touched what is on it. Once the page no longer
waits, everything that was on it at the start has been asked about, and what is on it now was spared
or is new.
-/

namespace SweptHeap

variable {ρ : Type}

namespace Heap

variable {h : Heap ρ} {t : Tenant}

/-- How often `t` is allocated. -/
def tally (h : Heap ρ) (t : Tenant) : Nat := (h.tenantsOn t.ref.page).count t

theorem count_tenantsOn (h : Heap ρ) (t : Tenant) (id : PageId) :
    (h.tenantsOn id).count t = if t.ref.page = id then h.tally t else 0 := by
  split_ifs with hid
  · rw [← hid, tally]
  · exact List.count_eq_zero.mpr fun ht => hid (ref_of_mem ht)

theorem tally_pos : 0 < h.tally t ↔ h.Holds t := List.count_pos_iff

theorem Sound.count_tenants (hs : h.Sound) (t : Tenant) : h.tenants.count t = h.tally t := by
  by_cases ht : h.Holds t
  · rw [List.count_eq_one_of_mem hs.tenants_nodup ((hs.mem_tenants t).mpr ht), tally,
      List.count_eq_one_of_mem (hs.tenantsOn_nodup _) ht]
  · rw [List.count_eq_zero.mpr fun hmem => ht ((hs.mem_tenants t).mp hmem), tally,
      List.count_eq_zero.mpr ht]

end Heap

/-- The operation is that of an allocator, which may come and go. -/
def Op.OfAllocator : Op → Prop
  | .enlist => True
  | .allocate _ _ => True
  | .createObject _ _ => True
  | .createArray _ _ _ => True
  | .createRecord _ _ _ => True
  | .close _ => True
  | .takeRequest _ => True
  | _ => False

theorem Op.OfAllocator.ne_prepare {op : Op} (h : op.OfAllocator) : op ≠ .prepare := by
  rintro rfl
  exact h

/-- Nothing is asked about that was noted as new before. -/
def NeverNew (notes : List Note) : Prop :=
  notes.Pairwise fun x y => ∀ t, x = .born t → ∀ fate, y.answer ≠ some (t, fate)

theorem mem_births {notes : List Note} {t : Tenant} : t ∈ births notes ↔ .born t ∈ notes := by
  rw [births, List.mem_filterMap]
  constructor
  · rintro ⟨n, hn, he⟩
    cases n with
    | born t' => exact Option.some.inj he ▸ hn
    | judged q v => cases he
    | judgedRecord r record fate => cases he
    | told b => cases he
  · exact fun ht => ⟨_, ht, rfl⟩

theorem mem_asked_of_answer {notes : List Note} {n : Note} {t : Tenant}
    {fate : Fate} (hn : n ∈ notes) (ha : n.answer = some (t, fate)) : t ∈ asked notes :=
  List.mem_map_of_mem (f := Prod.fst) (List.mem_filterMap.mpr ⟨n, hn, ha⟩)

namespace HeapSystem

variable {policy : Policy ρ} {civil : Prop} {o₀ o o' : HeapSystem ρ} {notes : List Note}

/-- The cycle that began at `o₀` has noted `notes` and come to `o`. -/
structure InCycle (o₀ : HeapSystem ρ) (notes : List Note) (o : HeapSystem ρ) : Prop where
  notes_eq : o.notes = o₀.notes ++ notes
  waiting : ∀ t, o.heap.Waiting t.ref.page → (asked notes).count t = 0 ∧
    (spared notes).count t = 0 ∧ (births notes).count t = 0 ∧ o.heap.tally t = o₀.heap.tally t
  swept : ∀ t, ¬o.heap.Waiting t.ref.page → (asked notes).count t = o₀.heap.tally t ∧
    o.heap.tally t = (spared notes).count t + (births notes).count t
  due_perm : o.due.Perm (o₀.due ++ finalizing notes)
  never : NeverNew notes

theorem Gains.tally {t : Tenant} (hg : Gains t o o') (t' : Tenant) :
    o'.heap.tally t' = o.heap.tally t' + [t].count t' := by
  rw [Heap.tally, Heap.tally]
  by_cases hpage : t'.ref.page = t.ref.page
  · rw [hpage, hg.tenants_self.count_eq]
    simp [List.count_cons]
  · have hne : t ≠ t' := fun he => hpage (he ▸ rfl)
    rw [hg.tenants_other _ hpage]
    simp [hne]

namespace InCycle

/-- A cycle begins with everything waiting. -/
theorem start (hwaiting : ∀ t, o.heap.Holds t → o.heap.Waiting t.ref.page)
    (htally : ∀ t, o.heap.tally t = o₀.heap.tally t) (hnotes : o.notes = o₀.notes)
    (hdue : o.due = o₀.due) : InCycle o₀ [] o where
  notes_eq := by rw [hnotes, List.append_nil]
  waiting t _ := ⟨rfl, rfl, rfl, htally t⟩
  swept t ht := by
    have hzero : o.heap.tally t = 0 :=
      Nat.eq_zero_of_not_pos fun hpos => ht (hwaiting t (Heap.tally_pos.mp hpos))
    exact ⟨hzero.symm.trans (htally t), hzero⟩
  due_perm := by
    rw [hdue]
    exact .of_eq (List.append_nil _).symm
  never := List.Pairwise.nil

/-- Nothing is asked about, and what is new is not on a page that waits. -/
theorem extend (hc : InCycle o₀ notes o) {more : List Note} (hnotes : o'.notes = o.notes ++ more)
    (hanswers : answers more = []) (hwaiting : ∀ id, o'.heap.Waiting id ↔ o.heap.Waiting id)
    (htally : ∀ t, o'.heap.tally t = o.heap.tally t + (births more).count t)
    (hborn : ∀ t ∈ births more, ¬o.heap.Waiting t.ref.page) (hdue : o'.due.Perm o.due) :
    InCycle o₀ (notes ++ more) o' := by
  have hasked : asked (notes ++ more) = asked notes := by simp [asked, hanswers]
  have hspared : spared (notes ++ more) = spared notes := by simp [spared, hanswers]
  have hfinalizing : finalizing (notes ++ more) = finalizing notes := by simp [finalizing, hanswers]
  refine ⟨?_, fun t ht => ?_, fun t ht => ?_, ?_, ?_⟩
  · rw [hnotes, hc.notes_eq, List.append_assoc]
  · have hw := (hwaiting _).mp ht
    obtain ⟨hasked₀, hspared₀, hbirths₀, htally₀⟩ := hc.waiting t hw
    have hnew : (births more).count t = 0 := List.count_eq_zero.mpr fun hmem => hborn t hmem hw
    rw [hasked, hspared, births_append, List.count_append, htally]
    omega
  · obtain ⟨hasked₀, htally₀⟩ := hc.swept t fun hw => ht ((hwaiting _).mpr hw)
    rw [hasked, hspared, births_append, List.count_append, htally]
    omega
  · rw [hfinalizing]
    exact hdue.trans hc.due_perm
  · have hsilent {n : Note} (hn : n ∈ more) (t : Tenant) (fate : Fate) :
        n.answer ≠ some (t, fate) := by
      intro he
      have hmem := mem_asked_of_answer hn he
      rw [asked, hanswers] at hmem
      cases hmem
    refine List.pairwise_append.mpr ⟨hc.never, ?_, fun x _ y hy t _ fate => hsilent hy t fate⟩
    exact List.pairwise_iff_getElem.mpr fun i j _ hj _ t _ fate =>
      hsilent (List.getElem_mem hj) t fate

theorem keeps (hc : InCycle o₀ notes o) {more : List Note} (hk : Keeps more o o') :
    InCycle o₀ (notes ++ more) o' := by
  refine hc.extend hk.notes_eq hk.answers_eq hk.waiting_iff (fun t => ?_)
    (fun t ht => ?_) hk.due_perm
  · rw [hk.births_eq, Heap.tally, Heap.tally, hk.tenants_eq]
    rfl
  · rw [hk.births_eq] at ht
    cases ht

theorem gains (hc : InCycle o₀ notes o) {t : Tenant} (hg : Gains t o o') :
    InCycle o₀ (notes ++ [.born t]) o' := by
  have hbirths : births [Note.born t] = [t] := rfl
  refine hc.extend hg.notes_eq rfl hg.waiting_iff (fun t' => ?_)
    (fun t' ht => ?_) (.of_eq hg.due_eq)
  · rw [hbirths, hg.tally]
  · rw [hbirths, List.mem_singleton] at ht
    exact ht ▸ hg.swept

/-- What is new is not on a page that waits. -/
theorem not_waiting_of_born (hc : InCycle o₀ notes o) {t : Tenant} (ht : .born t ∈ notes) :
    ¬o.heap.Waiting t.ref.page := by
  intro hw
  have hzero := (hc.waiting t hw).2.2.1
  exact List.count_eq_zero.mp hzero (mem_births.mpr ht)

theorem settles (hc : InCycle o₀ notes o) {id : PageId} {more : List Note}
    (hs : Settles id more o o') : InCycle o₀ (notes ++ more) o' := by
  have hpage {n : Note} (hn : n ∈ more) {t : Tenant} {fate : Fate}
      (ha : n.answer = some (t, fate)) : t.ref.page = id :=
    Heap.ref_of_mem (hs.asked_eq ▸ mem_asked_of_answer hn ha)
  refine ⟨?_, fun t ht => ?_, fun t ht => ?_, ?_, ?_⟩
  · rw [hs.notes_eq, hc.notes_eq, List.append_assoc]
  · obtain ⟨hw, hne⟩ := (hs.waiting_iff _).mp ht
    obtain ⟨hasked, hspared, hbirths, htally⟩ := hc.waiting t hw
    have htally' : o'.heap.tally t = o.heap.tally t := by
      rw [Heap.tally, hs.tenants_other _ hne, Heap.tally]
    rw [asked_append, spared_append, births_append, hs.births_eq, hs.asked_eq, hs.spared_eq,
      List.append_nil, List.count_append, List.count_append, Heap.count_tenantsOn,
      Heap.count_tenantsOn, if_neg hne, if_neg hne, htally']
    exact ⟨hasked, hspared, hbirths, htally⟩
  · rw [asked_append, spared_append, births_append, hs.births_eq, hs.asked_eq, hs.spared_eq,
      List.append_nil, List.count_append, List.count_append, Heap.count_tenantsOn,
      Heap.count_tenantsOn]
    by_cases hid : t.ref.page = id
    · obtain ⟨hasked, hspared, hbirths, htally⟩ := hc.waiting t (hid ▸ hs.waiting)
      rw [if_pos hid, if_pos hid]
      omega
    · obtain ⟨hasked, halive⟩ := hc.swept t fun hw => ht ((hs.waiting_iff _).mpr ⟨hw, hid⟩)
      have htally' : o'.heap.tally t = o.heap.tally t := by
        rw [Heap.tally, hs.tenants_other _ hid, Heap.tally]
      rw [if_neg hid, if_neg hid]
      omega
  · rw [finalizing_append, ← List.append_assoc]
    exact hs.due_perm.trans (hc.due_perm.append_right _)
  · refine List.pairwise_append.mpr ⟨hc.never, ?_, fun x hx y hy t hborn fate he => ?_⟩
    · refine List.pairwise_iff_getElem.mpr fun i j hi _ _ t hborn => ?_
      exact absurd (mem_births.mpr (hborn ▸ List.getElem_mem hi)) (hs.births_eq ▸ List.not_mem_nil)
    · exact hc.not_waiting_of_born (hborn ▸ hx) (hpage hy he ▸ hs.waiting)

theorem move (hc : InCycle o₀ notes o) (hm : Move policy civil o o') (hs : o.heap.Sound) :
    ∃ more, InCycle o₀ (notes ++ more) o' := by
  cases hm.outcome hs with
  | keeps more hk => exact ⟨more, hc.keeps hk⟩
  | gains hg => exact ⟨_, hc.gains hg⟩
  | settles hsettles => exact ⟨_, hc.settles hsettles⟩

theorem moves (hc : InCycle o₀ notes o) (hm : Moves policy civil o o') (hs : o.heap.Sound) :
    ∃ more, InCycle o₀ (notes ++ more) o' := by
  induction hm with
  | refl => exact ⟨[], (List.append_nil notes).symm ▸ hc⟩
  | tail hmoves hstep ih =>
    obtain ⟨more, hc'⟩ := ih
    obtain ⟨last, hc''⟩ := hc'.move hstep (Moves.sound hmoves hs)
    exact ⟨more ++ last, List.append_assoc notes more last ▸ hc''⟩

end InCycle

end HeapSystem

end SweptHeap
