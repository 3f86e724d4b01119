import Mathlib
import SweptHeap.Shelf.Depot
import SweptHeap.Proofs.Heap.Arena

/-!
# Housekeeping on a shelf

A depot hands out pages, sweeps them, maps new ones and unmaps empty ones. `Tidy` lists what one
such step can do. A good depot lists each of its pages once, all of them are sound and of its own
kind, and the empty ones hold no block. `Kept` says the same of other things than soundness that
pages do not lose.
-/

namespace SweptHeap

namespace Shelf

variable {s : Shelf} {id : PageId}

theorem toList_pages (s : Shelf) :
    s.pages.toList = s.empty.toList ++ s.ready.toList ++ s.used.toList ++ s.unswept.toList := by
  simp [pages]

theorem mem_pages {s : Shelf} {id : PageId} : id ∈ s.pages.toList ↔
    id ∈ s.empty.toList ∨ id ∈ s.ready.toList ∨ id ∈ s.used.toList ∨ id ∈ s.unswept.toList := by
  simp [toList_pages]

/-- The last page fills the gap. -/
theorem removeAt_perm {pages : Array PageId} {i : Nat} (h : pages[i]? = some id) :
    pages.toList.Perm (id :: (removeAt pages i).toList) := by
  obtain ⟨l⟩ := pages
  replace h : l[i]? = some id := by simpa using h
  rcases List.eq_nil_or_concat' l with rfl | ⟨front, last, rfl⟩
  · simp at h
  · have hremove : (removeAt ⟨front ++ [last]⟩ i).toList =
        ((front ++ [last]).set i last).dropLast := by simp [removeAt]
    change (front ++ [last]).Perm _
    rw [hremove]
    by_cases hi : i < front.length
    · rw [List.getElem?_append_left hi] at h
      obtain ⟨-, rfl⟩ := List.getElem?_eq_some_iff.mp h
      rw [List.set_append_left _ _ hi, List.dropLast_concat]
      calc (front ++ [last]).Perm (last :: front) := List.perm_append_singleton last front
        _ |>.Perm (last :: front[i] :: front.eraseIdx i) :=
          (List.getElem_cons_eraseIdx_perm hi).symm.cons _
        _ |>.Perm (front[i] :: last :: front.eraseIdx i) := .swap _ _ _
        _ |>.Perm (front[i] :: front.set i last) :=
          (List.set_perm_cons_eraseIdx hi last).symm.cons _
    · have hlast : i = front.length := by
        have := (List.getElem?_eq_some_iff.mp h).1
        simp at this
        omega
      subst hlast
      obtain rfl : last = id := by simpa using h
      simp

theorem lastWithRoom_spec {room : PageId → Except Fault Bool} {pages : Array PageId} (count : Nat)
    (h : ∀ id ∈ pages.toList, ∃ b, room id = .ok b) (hcount : count ≤ pages.size) :
    lastWithRoom room pages count = .ok none ∧
      (∀ id ∈ pages.toList.take count, room id = .ok false) ∨
      ∃ i id, lastWithRoom room pages count = .ok (some i) ∧ pages[i]? = some id ∧
        room id = .ok true := by
  induction count with
  | zero => exact .inl ⟨rfl, by simp⟩
  | succ n ih =>
    have hget : pages[n]? = some pages[n] := Array.getElem?_eq_getElem hcount
    obtain ⟨b, hb⟩ := h pages[n] (by simp)
    rw [lastWithRoom, hget]
    simp only [hb]
    cases b with
    | true => exact .inr ⟨n, _, rfl, hget, hb⟩
    | false =>
      refine (ih (Nat.le_of_succ_le hcount)).imp_left fun ⟨hlast, hfull⟩ =>
        ⟨hlast, fun id hid => ?_⟩
      rw [List.take_add_one, List.mem_append] at hid
      rcases hid with hid | hid
      · exact hfull id hid
      · obtain rfl : pages[n] = id := Option.some.inj (hget.symm.trans (by simpa using hid))
        exact hb

end Shelf

/-- What holds of new pages and outlasts sweeps and changes of records. A large page that has lost
its block is not fit for use. -/
structure Page.Lasting (P : Page → Prop) : Prop where
  created : ∀ {r p}, r.Valid → create r = .ok p → P p
  alike : ∀ {p p'}, p.Alike p' → P p → P p'
  swept : ∀ {p hearings p'}, p.SweptTo hearings p' → P p → p.kind ≠ .large ∨
    survivors hearings ≠ [] → P p'

theorem Page.lasting_sound : Lasting Sound where
  created hr hp := by
    obtain ⟨q, hq, hsound, -⟩ := create_sound hr
    rwa [Except.ok.inj (hp.symm.trans hq)]
  alike hab := hab.sound
  swept hswept := hswept.sound

theorem Page.lasting_whole : Lasting Whole where
  created hr hp := (lasting_sound.created hr hp).whole
  alike hab := hab.whole
  swept hswept _ := hswept.whole

namespace Depot

variable {ρ : Type} {policy : Policy ρ} {k : Request} {d d' d'' : Depot ρ} {P : Page → Prop}

/-- One step of housekeeping on the shelf `k`. -/
inductive Tidy (policy : Policy ρ) (k : Request) : Depot ρ → Depot ρ → Prop
  /-- Ready or empty pages are handed out. -/
  | relist {d : Depot ρ} {s : Shelf} (unswept : s.unswept = d.shelf.unswept)
      (pages : s.pages.toList.Perm d.shelf.pages.toList)
      (empty : s.empty.toList ⊆ d.shelf.empty.toList)
      (used : d.shelf.used.toList ⊆ s.used.toList) : Tidy policy k d ⟨s, d.arena⟩
  /-- An unswept page is swept and kept. -/
  | sift {d : Depot ρ} {rest : Array PageId} {id : PageId} {p p' : Page} {hearings : List Hearing}
      {a : Arena ρ} {s : Shelf} (waiting : d.shelf.unswept = rest.push id)
      (swept : Arena.Sifts policy id p hearings p' d.arena a)
      (fit : k.kind ≠ .large ∨ survivors hearings ≠ [])
      (placed : s = { d.shelf with unswept := rest }.addUsed id ∨
        s = { d.shelf with unswept := rest }.addReady id ∨
        survivors hearings = [] ∧ s = { d.shelf with unswept := rest }.addEmpty id) :
      Tidy policy k d ⟨s, a⟩
  /-- An unswept page is swept and unmapped, since nothing is left on it. -/
  | discard {d : Depot ρ} {rest : Array PageId} {id : PageId} {p p' : Page}
      {hearings : List Hearing} {a b : Arena ρ} (waiting : d.shelf.unswept = rest.push id)
      (swept : Arena.Sifts policy id p hearings p' d.arena a) (vacant : survivors hearings = [])
      (unmapped : Arena.Same (a.modifyMemory (·.unmap id)) b) :
      Tidy policy k d ⟨{ d.shelf with unswept := rest }, b⟩
  /-- A new page is mapped and handed out. -/
  | map {d : Depot ρ} {r : Request} {p : Page} {a : Arena ρ} (valid : r.Valid) (key_eq : r.key = k)
      (created : Page.create r = .ok p)
      (pages : a.memory.pages = d.arena.memory.pages.push (some p))
      (memo_eq : a.memo = d.arena.memo) (found_eq : a.found = d.arena.found) :
      Tidy policy k d ⟨d.shelf.addUsed d.arena.memory.pages.size, a⟩
  /-- An empty page is unmapped. -/
  | unmap {d : Depot ρ} {id : PageId} {empty : Array PageId} {a : Arena ρ}
      (perm : d.shelf.empty.toList.Perm (id :: empty.toList))
      (unmapped : Arena.Same (d.arena.modifyMemory (·.unmap id)) a) :
      Tidy policy k d ⟨{ d.shelf with empty := empty }, a⟩
  /-- Counters and reports change. -/
  | idle {d : Depot ρ} {a : Arena ρ} (same : Arena.Same d.arena a) : Tidy policy k d ⟨d.shelf, a⟩

/-- Housekeeping, step by step. -/
abbrev Tidies (policy : Policy ρ) (k : Request) : Depot ρ → Depot ρ → Prop :=
  Relation.ReflTransGen (Tidy policy k)

structure Good (k : Request) (d : Depot ρ) : Prop where
  nodup : d.shelf.pages.toList.Nodup
  mapped : ∀ id ∈ d.shelf.pages.toList,
    ∃ p, d.arena.memory.page? id = some p ∧ p.key = k ∧ p.Sound
  vacant : ∀ id ∈ d.shelf.empty.toList, ∀ p, d.arena.memory.page? id = some p → p.blocks.toList = []

/-- Like `Good`, with `P` instead of soundness. -/
structure Kept (P : Page → Prop) (k : Request) (d : Depot ρ) : Prop where
  nodup : d.shelf.pages.toList.Nodup
  mapped : ∀ id ∈ d.shelf.pages.toList, ∃ p, d.arena.memory.page? id = some p ∧ p.key = k ∧ P p
  vacant : ∀ id ∈ d.shelf.empty.toList, ∀ p, d.arena.memory.page? id = some p → p.blocks.toList = []

theorem good_iff : Good k d ↔ Kept Page.Sound k d :=
  ⟨fun h => ⟨h.nodup, h.mapped, h.vacant⟩, fun h => ⟨h.nodup, h.mapped, h.vacant⟩⟩

/-- What a step on a shelf leaves of the pages of other shelves. -/
structure Frame (d d' : Depot ρ) : Prop where
  others : ∀ id p, id ∉ d.shelf.pages.toList → d.arena.memory.page? id = some p →
    id ∉ d'.shelf.pages.toList ∧ ∃ p', d'.arena.memory.page? id = some p' ∧ p.Alike p'
  back : ∀ id p', d'.arena.memory.page? id = some p' → id ∈ d'.shelf.pages.toList ∨
    id ∉ d.shelf.pages.toList ∧ ∃ p, d.arena.memory.page? id = some p ∧ p.Alike p'

/-! ### What a step keeps -/

theorem rel_alike_some {x y : Option Page} (h : Option.Rel Page.Alike x y) {p : Page}
    (hx : x = some p) : ∃ p', y = some p' ∧ p.Alike p' := by
  subst hx
  obtain ⟨hab⟩ := h
  exact ⟨_, rfl, hab⟩

theorem rel_alike_some_right {x y : Option Page} (h : Option.Rel Page.Alike x y) {p' : Page}
    (hy : y = some p') : ∃ p, x = some p ∧ p.Alike p' := by
  subst hy
  obtain ⟨hab⟩ := h
  exact ⟨_, rfl, hab⟩

/-- Nothing but the page `id` has changed, and the shelf lists the other pages as before. -/
structure Changes (id : PageId) (d d' : Depot ρ) : Prop where
  pages : ∀ j ≠ id, Option.Rel Page.Alike (d.arena.memory.page? j) (d'.arena.memory.page? j)
  listed : ∀ j ≠ id, j ∈ d'.shelf.pages.toList ↔ j ∈ d.shelf.pages.toList
  nodup : d'.shelf.pages.toList.Nodup
  empty : ∀ j ≠ id, j ∈ d'.shelf.empty.toList → j ∈ d.shelf.empty.toList

variable {id : PageId}

theorem Changes.kept (h : Changes id d d') (hP : Page.Lasting P) (hg : Kept P k d)
    (hid : id ∈ d'.shelf.pages.toList → ∃ p, d'.arena.memory.page? id = some p ∧ p.key = k ∧ P p)
    (hvacant : id ∈ d'.shelf.empty.toList →
      ∀ p, d'.arena.memory.page? id = some p → p.blocks.toList = []) : Kept P k d' := by
  refine ⟨h.nodup, fun j hj => ?_, fun j hj p' hp' => ?_⟩
  · by_cases he : j = id
    · subst he
      exact hid hj
    · obtain ⟨p, hp, hkey, hsound⟩ := hg.mapped j ((h.listed j he).mp hj)
      obtain ⟨p', hp', hab⟩ := rel_alike_some (h.pages j he) hp
      exact ⟨p', hp', hab.key_eq.trans hkey, hP.alike hab hsound⟩
  · by_cases he : j = id
    · subst he
      exact hvacant hj p' hp'
    · obtain ⟨p, hp, hab⟩ := rel_alike_some_right (h.pages j he) hp'
      rw [hab.blocks_eq]
      exact hg.vacant j (h.empty j he hj) p hp

theorem Changes.frame (h : Changes id d d')
    (hid : id ∈ d.shelf.pages.toList ∨ d.arena.memory.page? id = none)
    (hid' : ∀ p, d'.arena.memory.page? id = some p → id ∈ d'.shelf.pages.toList) : Frame d d' := by
  refine ⟨fun j p hj hp => ?_, fun j p' hp' => ?_⟩
  · have he : j ≠ id := by
      rintro rfl
      rcases hid with hid | hid
      · exact hj hid
      · simp [hid] at hp
    exact ⟨fun hj' => hj ((h.listed j he).mp hj'), rel_alike_some (h.pages j he) hp⟩
  · by_cases he : j = id
    · subst he
      exact .inl (hid' p' hp')
    · by_cases hj : j ∈ d.shelf.pages.toList
      · exact .inl ((h.listed j he).mpr hj)
      · exact .inr ⟨hj, rel_alike_some_right (h.pages j he) hp'⟩

theorem Kept.lt_size (hg : Kept P k d) {j : PageId} (hj : j ∈ d.shelf.pages.toList) :
    j < d.arena.memory.pages.size := by
  obtain ⟨p, hp, -⟩ := hg.mapped j hj
  exact Memory.lt_of_page? hp

theorem Good.lt_size (hg : Good k d) {j : PageId} (hj : j ∈ d.shelf.pages.toList) :
    j < d.arena.memory.pages.size := (good_iff.mp hg).lt_size hj

/-- A page that waits for the sweep is on no other list. -/
theorem Kept.not_mem_of_waiting (hg : Kept P k d) {rest : Array PageId}
    (h : d.shelf.unswept = rest.push id) :
    id ∉ d.shelf.empty.toList ∧ id ∉ d.shelf.ready.toList ∧ id ∉ d.shelf.used.toList ∧
      id ∉ rest.toList := by
  have hcount := List.nodup_iff_count_le_one.mp hg.nodup id
  simp only [Shelf.toList_pages, h, Array.toList_push, List.count_append, List.count_singleton_self]
    at hcount
  refine ⟨?_, ?_, ?_, ?_⟩ <;> exact List.count_eq_zero.mp (by omega)

theorem Good.not_mem_of_waiting (hg : Good k d) {rest : Array PageId}
    (h : d.shelf.unswept = rest.push id) :
    id ∉ d.shelf.empty.toList ∧ id ∉ d.shelf.ready.toList ∧ id ∉ d.shelf.used.toList ∧
      id ∉ rest.toList := (good_iff.mp hg).not_mem_of_waiting h

/-- A page that is on another list is not in use. -/
theorem Kept.not_used (hg : Kept P k d)
    (hid : id ∈ d.shelf.ready.toList ∨ id ∈ d.shelf.empty.toList ∨ id ∈ d.shelf.unswept.toList) :
    id ∉ d.shelf.used.toList := by
  intro hused
  have hcount := List.nodup_iff_count_le_one.mp hg.nodup id
  have hpos := List.count_pos_iff.mpr hused
  simp only [Shelf.toList_pages, List.count_append] at hcount
  rcases hid with hid | hid | hid <;>
    · have hpos' := List.count_pos_iff.mpr hid
      omega

theorem rel_refl (x : Option Page) : Option.Rel Page.Alike x x := by
  cases x with
  | none => exact .none
  | some p => exact .some (.refl p)

/-- Sorting a swept page keeps every page on the shelf. -/
theorem perm_of_placed {s : Shelf} {rest : Array PageId} {vacant : Prop}
    (hw : d.shelf.unswept = rest.push id)
    (hs : s = { d.shelf with unswept := rest }.addUsed id ∨
      s = { d.shelf with unswept := rest }.addReady id ∨
      vacant ∧ s = { d.shelf with unswept := rest }.addEmpty id) :
    s.pages.toList.Perm d.shelf.pages.toList := by
  refine List.perm_iff_count.mpr fun j => ?_
  rcases hs with rfl | rfl | ⟨-, rfl⟩ <;>
    simp only [Shelf.toList_pages, Shelf.addUsed, Shelf.addReady, Shelf.addEmpty, hw,
      Array.toList_push, List.count_append] <;> omega

/-- A page leaves its shelf and the memory. -/
theorem leave (hP : Page.Lasting P) (hg : Kept P k d) (hid : id ∈ d.shelf.pages.toList)
    (hperm : d.shelf.pages.toList.Perm (id :: d'.shelf.pages.toList))
    (hpages : ∀ j ≠ id,
      Option.Rel Page.Alike (d.arena.memory.page? j) (d'.arena.memory.page? j))
    (hgone : d'.arena.memory.page? id = none)
    (hempty : ∀ j ∈ d'.shelf.empty.toList, j ∈ d.shelf.empty.toList) :
    Kept P k d' ∧ Frame d d' := by
  obtain ⟨hnot, hnodup⟩ := List.nodup_cons.mp (hperm.nodup_iff.mp hg.nodup)
  have hchange : Changes id d d' := by
    refine ⟨hpages, fun j hj => ?_, hnodup, fun j _ => hempty j⟩
    rw [hperm.mem_iff, List.mem_cons]
    simp [hj]
  refine ⟨hchange.kept hP hg (fun hmem => absurd hmem hnot) fun hmem =>
    absurd (Shelf.mem_pages.mpr (.inl hmem)) hnot, hchange.frame (.inl hid) fun p hp => ?_⟩
  rw [hgone] at hp
  cases hp

/-- A step of housekeeping keeps what pages do not lose, and leaves the pages of other shelves
alone. -/
theorem Tidy.kept_frame (h : Tidy policy k d d') (hP : Page.Lasting P) (hg : Kept P k d) :
    Kept P k d' ∧ Frame d d' := by
  cases h with
  | relist hunswept hperm hempty hused =>
    refine ⟨⟨hperm.nodup_iff.mpr hg.nodup, fun j hj => hg.mapped j (hperm.subset hj),
      fun j hj => hg.vacant j (hempty hj)⟩,
      fun j p hj hp => ⟨fun hj' => hj (hperm.subset hj'), p, hp, .refl p⟩, fun j p hp => ?_⟩
    by_cases hj : j ∈ d.shelf.pages.toList
    · exact .inl (hperm.symm.subset hj)
    · exact .inr ⟨hj, p, hp, .refl p⟩
  | @sift rest id p p' hearings a s hw hsift hfit hplaced =>
    have hperm := perm_of_placed hw hplaced
    have hid : id ∈ d.shelf.pages.toList := Shelf.mem_pages.mpr (by simp [hw])
    obtain ⟨q, hq, hkey, hsound⟩ := hg.mapped id hid
    obtain rfl : p = q := Option.some.inj (hsift.page_eq.symm.trans hq)
    have hkind : p.kind = k.kind := by rw [← hkey, Page.key_kind]
    have hself := hsift.page?_self
    have hchange : Changes id d ⟨s, a⟩ := by
      refine ⟨fun j hj => hsift.others hj, fun j _ => hperm.mem_iff, hperm.nodup_iff.mpr hg.nodup,
        fun j hj he => ?_⟩
      rcases hplaced with rfl | rfl | ⟨-, rfl⟩
      · exact he
      · exact he
      · simpa [Shelf.addEmpty, hj] using he
    refine ⟨hchange.kept hP hg (fun _ => ⟨p', hself, hsift.swept.key_eq.trans hkey,
      hP.swept hsift.swept hsound (by rwa [hkind])⟩) fun he q hq => ?_,
      hchange.frame (.inl hid) fun _ _ => hperm.symm.subset hid⟩
    obtain rfl : p' = q := Option.some.inj (hself.symm.trans hq)
    rw [hsift.swept.blocks_eq]
    have hnot := (hg.not_mem_of_waiting hw).1
    rcases hplaced with rfl | rfl | ⟨hvacant, -⟩
    · exact absurd he hnot
    · exact absurd he hnot
    · exact hvacant
  | @discard rest id p p' hearings a b hw hsift hvacant hunmapped =>
    have hid : id ∈ d.shelf.pages.toList := Shelf.mem_pages.mpr (by simp [hw])
    have hperm : d.shelf.pages.toList.Perm
        (id :: (Shelf.pages { d.shelf with unswept := rest }).toList) := by
      refine List.perm_iff_count.mpr fun j => ?_
      simp only [Shelf.toList_pages, hw, Array.toList_push, List.count_append, List.count_cons,
        List.count_nil]
      omega
    refine leave hP hg hid hperm (fun j hj => ?_) ?_ fun j he => he
    · rw [hunmapped.page?]
      change Option.Rel _ _ ((a.memory.unmap id).page? j)
      rw [Memory.page?_unmap, if_neg hj]
      exact hsift.others hj
    · rw [hunmapped.page?]
      exact (Memory.page?_unmap _ id id).trans (if_pos rfl)
  | @map r p a hvalid hkey hcreated hpages hmemo hfound =>
    obtain ⟨q, hq, -, hqkey, hblocks, -⟩ := Page.create_sound hvalid
    obtain rfl : q = p := Except.ok.inj (hq.symm.trans hcreated)
    have hnew : d.arena.memory.page? d.arena.memory.pages.size = none := by
      cases hpage : d.arena.memory.page? d.arena.memory.pages.size with
      | none => rfl
      | some q => exact absurd (Memory.lt_of_page? hpage) (Nat.lt_irrefl _)
    have hfresh : d.arena.memory.pages.size ∉ d.shelf.pages.toList := fun hmem =>
      absurd (hg.lt_size hmem) (Nat.lt_irrefl _)
    have hperm : (d.shelf.addUsed d.arena.memory.pages.size).pages.toList.Perm
        (d.arena.memory.pages.size :: d.shelf.pages.toList) := by
      refine List.perm_iff_count.mpr fun j => ?_
      simp only [Shelf.toList_pages, Shelf.addUsed, Array.toList_push, List.count_append,
        List.count_cons, List.count_nil]
      omega
    have hpage := Memory.page?_push hpages
    have hchange : Changes d.arena.memory.pages.size d
        ⟨d.shelf.addUsed d.arena.memory.pages.size, a⟩ := by
      refine ⟨fun j hj => ?_, fun j hj => ?_, hperm.nodup_iff.mpr (List.nodup_cons.mpr
        ⟨hfresh, hg.nodup⟩), fun j _ he => he⟩
      · rw [hpage, if_neg hj]
        exact rel_refl _
      · rw [hperm.mem_iff, List.mem_cons]
        simp [hj]
    have hself := (hpage d.arena.memory.pages.size).trans (if_pos rfl)
    refine ⟨hchange.kept hP hg (fun _ => ⟨q, hself, hqkey.trans hkey, hP.created hvalid hcreated⟩)
      fun he => ?_, hchange.frame (.inr hnew) fun _ _ => hperm.symm.subset List.mem_cons_self⟩
    have hempty : d.arena.memory.pages.size ∈ d.shelf.empty.toList := he
    exact absurd (Shelf.mem_pages.mpr (.inl hempty)) hfresh
  | @unmap id empty a hperm hunmapped =>
    have hid : id ∈ d.shelf.pages.toList :=
      Shelf.mem_pages.mpr (.inl (hperm.symm.subset List.mem_cons_self))
    have hpages : d.shelf.pages.toList.Perm
        (id :: (Shelf.pages { d.shelf with empty := empty }).toList) := by
      rw [Shelf.toList_pages, Shelf.toList_pages]
      simpa using ((hperm.append_right _).append_right _).append_right _
    refine leave hP hg hid hpages (fun j hj => ?_) ?_ fun j he =>
      hperm.symm.subset (List.mem_cons_of_mem _ he)
    · rw [hunmapped.page?]
      change Option.Rel _ _ ((d.arena.memory.unmap id).page? j)
      rw [Memory.page?_unmap, if_neg hj]
      exact rel_refl _
    · rw [hunmapped.page?]
      exact (Memory.page?_unmap _ id id).trans (if_pos rfl)
  | idle hsame =>
    refine ⟨⟨hg.nodup, fun j hj => ?_, fun j hj p hp => ?_⟩, fun j p hj hp => ⟨hj, p, ?_, .refl p⟩,
      fun j p hp => ?_⟩
    · rw [hsame.page?]
      exact hg.mapped j hj
    · rw [hsame.page?] at hp
      exact hg.vacant j hj p hp
    · rwa [hsame.page?]
    · rw [hsame.page?] at hp
      by_cases hj : j ∈ d.shelf.pages.toList
      · exact .inl hj
      · exact .inr ⟨hj, p, hp, .refl p⟩

theorem Tidy.good_frame (h : Tidy policy k d d') (hg : Good k d) : Good k d' ∧ Frame d d' := by
  obtain ⟨hgood, hframe⟩ := h.kept_frame Page.lasting_sound (good_iff.mp hg)
  exact ⟨good_iff.mpr hgood, hframe⟩

theorem Tidies.kept (h : Tidies policy k d d') (hP : Page.Lasting P) (hg : Kept P k d) :
    Kept P k d' := by
  induction h with
  | refl => exact hg
  | tail _ hstep ih => exact (hstep.kept_frame hP ih).1

theorem Tidies.good (h : Tidies policy k d d') (hg : Good k d) : Good k d' :=
  good_iff.mpr (h.kept Page.lasting_sound (good_iff.mp hg))

theorem Frame.trans (h : Frame d d') (h' : Frame d' d'') : Frame d d'' := by
  refine ⟨fun j p hj hp => ?_, fun j p' hp' => ?_⟩
  · obtain ⟨hj', q, hq, hab⟩ := h.others j p hj hp
    obtain ⟨hj'', q', hq', hab'⟩ := h'.others j q hj' hq
    exact ⟨hj'', q', hq', hab.trans hab'⟩
  · rcases h'.back j p' hp' with hj | ⟨hj, q, hq, hab⟩
    · exact .inl hj
    · rcases h.back j q hq with hj' | ⟨hj', q', hq', hab'⟩
      · exact absurd hj' hj
      · exact .inr ⟨hj', q', hq', hab'.trans hab⟩

theorem Tidies.frame (h : Tidies policy k d d') (hg : Good k d) : Frame d d' := by
  induction h with
  | refl =>
    refine ⟨fun j p hj hp => ⟨hj, p, hp, .refl p⟩, fun j p hp => ?_⟩
    by_cases hj : j ∈ d.shelf.pages.toList
    · exact .inl hj
    · exact .inr ⟨hj, p, hp, .refl p⟩
  | tail hts hstep ih => exact ih.trans (hstep.good_frame (Tidies.good hts hg)).2

theorem Tidy.unswept_subset (ht : Tidy policy k d d') :
    d'.shelf.unswept.toList ⊆ d.shelf.unswept.toList := by
  cases ht with
  | relist hunswept => exact fun j hj => by rwa [← hunswept]
  | sift hw hsift hfit hplaced =>
    intro j hj
    rcases hplaced with rfl | rfl | ⟨-, rfl⟩ <;>
      · rw [hw, Array.toList_push]
        exact List.mem_append_left _ hj
  | discard hw =>
    intro j hj
    rw [hw, Array.toList_push]
    exact List.mem_append_left _ hj
  | map => exact List.Subset.refl _
  | unmap => exact List.Subset.refl _
  | idle => exact List.Subset.refl _

theorem Tidy.used_subset (ht : Tidy policy k d d') :
    d.shelf.used.toList ⊆ d'.shelf.used.toList := by
  cases ht with
  | relist _ _ _ hused => exact hused
  | sift hw hsift hfit hplaced =>
    intro j hj
    rcases hplaced with rfl | rfl | ⟨-, rfl⟩
    · simpa [Shelf.addUsed] using .inl (by simpa using hj)
    · exact hj
    · exact hj
  | discard => exact List.Subset.refl _
  | map =>
    intro j hj
    simpa [Shelf.addUsed] using .inl (by simpa using hj)
  | unmap => exact List.Subset.refl _
  | idle => exact List.Subset.refl _

theorem Tidies.used_subset (ht : Tidies policy k d d') :
    d.shelf.used.toList ⊆ d'.shelf.used.toList := by
  induction ht with
  | refl => exact List.Subset.refl _
  | tail _ hstep ih => exact List.Subset.trans ih hstep.used_subset

end Depot

end SweptHeap
