import Mathlib
import SweptHeap.Proofs.RecordRace.Steps

/-!
# The pages of a race

Throughout a race no page of records is in two places, and each caller has its own: the page that it
holds off the shelf, the one that it has kept and the one that it has been given. So a caller that
has found a free slot still finds it when it comes to take it, whatever the others do meanwhile.
-/

namespace SweptHeap

/-- Room that was found is still there. -/
theorem Task.Fetches.congr {t : Task} {m m' : Memory} (h : t.Fetches m)
    (hroom : ∀ id, id ∈ t.held.toList ∨ id ∈ t.given → m'.hasRoom id 0 = m.hasRoom id 0) :
    t.Fetches m' := by
  cases t with
  | placing aim id flag =>
    exact ⟨h.1, fun hflag => (hroom id (.inl (by simp [held]))).trans (h.2 hflag)⟩
  | leaving aim result =>
    refine ⟨h.1, fun id hid => (hroom id (.inr ?_)).trans (h.2 id hid)⟩
    obtain rfl : result = some id := hid
    simp [given]
  | adding id => exact (hroom id (.inl (by simp [held]))).trans h
  | got id => exact (hroom id (.inr (by simp [given]))).trans h
  | _ => exact h

namespace RecordRace

variable {ρ : Type} {c : RecordRace ρ} {xs ys : List Caller} {x x' y : Caller}
  {h h' : Heap ρ} {id : PageId}

theorem Stage.Fits.congr {s : Stage} {m m' : Memory} (hs : s.Fits m)
    (hroom : ∀ id, id ∈ s.held ∨ id ∈ s.given → m'.hasRoom id 0 = m.hasRoom id 0) : s.Fits m' := by
  cases s with
  | fetching t => exact Task.Fetches.congr hs hroom
  | enrolling id => exact (hroom id (.inr (by simp [given]))).trans hs
  | _ => exact hs

/-- The link of an object has its cell in every memory. -/
theorem Deed.hosts {object : BlockRef} {flags : Flags} {s : Shelf} {m m' : Memory}
    {stage stage' : Stage} (hd : Deed object flags s m stage m' stage') (hm : m.Hosts object) :
    m'.Hosts object := by
  cases hd with
  | prepare _ _ hreserves =>
    obtain ⟨p, hp, hkind, hlt⟩ := hm
    exact ⟨p, hreserves.page?_eq _ p hp (.inr hkind), hkind, hlt⟩
  | enroll _ _ _ hapart _ => exact hm.congr hapart
  | link => exact (hm.link _).2
  | detach | discard | raise => exact hm.congr (hm.modifyRecord _ _)
  | find | lose | rest => exact hm

/-- The pages of records on the shelf and in the hands of callers. -/
def places (c : RecordRace ρ) : List PageId :=
  c.heap.records.pages.toList ++ c.callers.flatMap (·.stage.held)

/-- What holds of the pages at every moment. -/
structure Stocked (c : RecordRace ρ) : Prop where
  nodup : c.places.Nodup
  sound : ∀ id ∈ c.places, c.heap.arena.memory.Registers id
  vacant : ∀ id ∈ c.heap.records.empty.toList, ∀ p, c.heap.arena.memory.page? id = some p →
    p.blocks.toList = []
  /-- Only pages in use are the callers' own, and each of them only once. -/
  claimed : ∀ id, (c.callers.flatMap (·.claims c.heap.epoch)).count id ≤
    c.heap.records.used.toList.count id
  ready : ∀ x ∈ c.callers, x.Ready c.heap
  hosts : c.heap.arena.memory.Hosts c.object

namespace Stocked

theorem mem_places_of_used (hid : id ∈ c.heap.records.used.toList) : id ∈ c.places :=
  List.mem_append_left _ (Shelf.mem_pages.mpr (.inr (.inr (.inl hid))))

theorem good (hc : c.Stocked) : (c.heap.depot .records).Good .records :=
  ⟨(List.nodup_append.mp hc.nodup).1, fun id hid => hc.sound id (List.mem_append_left _ hid),
    hc.vacant⟩

/-- A page that a caller holds is on no list. -/
theorem not_listed (hc : c.Stocked) (hx : x ∈ c.callers) (hid : id ∈ x.stage.held) :
    id ∉ c.heap.records.pages.toList := fun hlisted =>
  List.disjoint_of_nodup_append hc.nodup hlisted (List.mem_flatMap.mpr ⟨x, hx, hid⟩)

theorem used_of_claims (hc : c.Stocked) (hx : x ∈ c.callers) (hid : id ∈ x.claims c.heap.epoch) :
    id ∈ c.heap.records.used.toList := by
  have hpos := List.count_pos_iff.mpr (List.mem_flatMap.mpr ⟨x, hx, hid⟩)
  exact List.count_pos_iff.mp (hpos.trans_le (hc.claimed id))

theorem works (hc : c.Stocked) (hx : x ∈ c.callers) (policy : Policy ρ) :
    x.Works c.object c.heap (x.act policy c.object c.heap).1 (x.act policy c.object c.heap).2 := by
  refine Caller.works_act policy hc.hosts hc.good (fun id hid => ⟨hc.sound id ?_, fun hused => ?_⟩)
    (fun id hid => hc.used_of_claims hx hid) (hc.ready x hx)
  · exact List.mem_append_right _ (List.mem_flatMap.mpr ⟨x, hx, hid⟩)
  · exact hc.not_listed hx hid (Shelf.mem_pages.mpr (.inr (.inr (.inl hused))))

/-- No page is in two places after a step, and those that are new were not mapped before. -/
theorem places_step (hcallers : c.callers = xs ++ x :: ys) (hw : x.Works c.object c.heap x' h') :
    ∃ mapped : Option PageId,
      (∀ id ∈ mapped, c.heap.arena.memory.page? id = none ∧ h'.arena.memory.Registers id) ∧
      (places ⟨h', c.object, xs ++ x' :: ys⟩).Perm (c.places ++ mapped.toList) := by
  obtain ⟨mapped, hperm, hmapped⟩ := hw.deals.stock
  refine ⟨mapped, hmapped, List.perm_iff_count.mpr fun id => ?_⟩
  have hcount := hperm.count_eq id
  simp only [places, hcallers, List.flatMap_append, List.flatMap_cons,
    List.count_append] at hcount ⊢
  omega

/-- What is another caller's own is not touched. -/
theorem apart (hc : c.Stocked) (hcallers : c.callers = xs ++ x :: ys) (hy : y ∈ xs ∨ y ∈ ys)
    (hid : id ∈ y.stage.held ∨ id ∈ y.claims c.heap.epoch) :
    id ∈ c.places ∧ id ∉ x.stage.held ∧ id ∉ x.claims c.heap.epoch := by
  have hx : x ∈ c.callers := by simp [hcallers]
  have hy' : y ∈ c.callers := by
    rw [hcallers]
    rcases hy with hy | hy <;> simp [hy]
  have hnodup := List.nodup_iff_count_le_one.mp hc.nodup id
  have hclaimed := hc.claimed id
  simp only [places, hcallers, List.flatMap_append, List.flatMap_cons, List.count_append,
    Shelf.toList_pages] at hnodup hclaimed
  have hpos {f : Caller → List PageId} (hmem : id ∈ f y) :
      0 < (xs.flatMap f).count id + (ys.flatMap f).count id := by
    rcases hy with hy | hy
    · exact Nat.add_pos_left (List.count_pos_iff.mpr (List.mem_flatMap.mpr ⟨y, hy, hmem⟩)) _
    · exact Nat.add_pos_right _ (List.count_pos_iff.mpr (List.mem_flatMap.mpr ⟨y, hy, hmem⟩))
  refine ⟨?_, fun hmem => ?_, fun hmem => ?_⟩
  · rcases hid with hid | hid
    · exact List.mem_append_right _ (List.mem_flatMap.mpr ⟨y, hy', hid⟩)
    · exact mem_places_of_used (hc.used_of_claims hy' hid)
  · have hx₁ := List.count_pos_iff.mpr hmem
    rcases hid with hid | hid
    · have := hpos (f := fun y => y.stage.held) hid
      omega
    · have := List.count_pos_iff.mpr (hc.used_of_claims hy' hid)
      omega
  · have hx₁ := List.count_pos_iff.mpr hmem
    rcases hid with hid | hid
    · have := hpos (f := fun y => y.stage.held) hid
      have := List.count_pos_iff.mpr (hc.used_of_claims hx hmem)
      omega
    · have := hpos (f := fun y => y.claims c.heap.epoch) hid
      omega

/-- Other callers are as ready as they were. -/
theorem ready_step (hc : c.Stocked) (hcallers : c.callers = xs ++ x :: ys)
    (hw : x.Works c.object c.heap x' h') (hy : y ∈ xs ∨ y ∈ ys) : y.Ready h' := by
  have hy' : y ∈ c.callers := by
    rw [hcallers]
    rcases hy with hy | hy <;> simp [hy]
  obtain ⟨hfits, hsynced⟩ := hc.ready y hy'
  refine ⟨hfits.congr fun id hid => ?_, fun hs => (hsynced hs).trans hw.epoch_eq.symm⟩
  have hown : id ∈ y.stage.held ∨ id ∈ y.claims c.heap.epoch :=
    hid.imp_right fun hgiven => List.mem_append_right _ hgiven
  obtain ⟨hplace, hheld, hclaims⟩ := hc.apart hcallers hy hown
  obtain ⟨p, hp, hkey, hsound⟩ := hc.sound id hplace
  obtain ⟨p', hp', -, -, hrest⟩ := hw.deals.pages id p hp hkey hsound
  rw [Memory.hasRoom_eq hp, Memory.hasRoom_eq hp', (hrest hheld hclaims).2]

theorem step (hc : c.Stocked) (hcallers : c.callers = xs ++ x :: ys)
    (hw : x.Works c.object c.heap x' h') : Stocked ⟨h', c.object, xs ++ x' :: ys⟩ := by
  have hx : x ∈ c.callers := by simp [hcallers]
  obtain ⟨mapped, hmapped, hperm⟩ := places_step hcallers hw
  refine ⟨?_, fun id hid => ?_, fun id hid p' hp' => ?_, fun id => ?_, fun y hy => ?_,
    hw.deed.hosts hc.hosts⟩
  · refine hperm.nodup_iff.mpr (List.nodup_append.mpr ⟨hc.nodup, by cases mapped <;> simp, ?_⟩)
    rintro id hid j hj rfl
    obtain ⟨p, hp, -⟩ := hc.sound id hid
    cases hp.symm.trans (hmapped id (Option.mem_toList.mp hj)).1
  · rcases List.mem_append.mp (hperm.subset hid) with hold | hnew
    · obtain ⟨p, hp, hkey, hsound⟩ := hc.sound id hold
      obtain ⟨p', hp', hkey', hsound', -⟩ := hw.deals.pages id p hp hkey hsound
      exact ⟨p', hp', hkey', hsound'⟩
    · exact (hmapped id (Option.mem_toList.mp hnew)).2
  · -- An empty page is nobody's own.
    have hempty := hw.deals.empty hid
    have hlisted : id ∈ c.heap.records.pages.toList := Shelf.mem_pages.mpr (.inl hempty)
    obtain ⟨p, hp, hkey, hsound⟩ := hc.sound id (List.mem_append_left _ hlisted)
    obtain ⟨q, hq, -, -, hrest⟩ := hw.deals.pages id p hp hkey hsound
    obtain rfl : q = p' := Option.some.inj (hq.symm.trans hp')
    rw [(hrest (fun hheld => hc.not_listed hx hheld hlisted) fun hclaim => ?_).1]
    · exact hc.vacant id hempty p hp
    · have hused : id ∉ c.heap.records.used.toList :=
        (Depot.good_iff.mp hc.good).not_used (.inr (.inl hempty))
      exact hused (hc.used_of_claims hx hclaim)
  · obtain ⟨added, hused, hgiven⟩ := hw.deals.used
    have hold := hc.claimed id
    have hstep := hgiven id
    simp only [hw.epoch_eq, hused, hcallers, List.flatMap_append, List.flatMap_cons,
      List.count_append] at hold ⊢
    omega
  · rcases List.mem_append.mp hy with hy | hy
    · exact hc.ready_step hcallers hw (.inl hy)
    · rcases List.mem_cons.mp hy with rfl | hy
      · exact hw.ready
      · exact hc.ready_step hcallers hw (.inr hy)

end Stocked

end RecordRace

end SweptHeap
