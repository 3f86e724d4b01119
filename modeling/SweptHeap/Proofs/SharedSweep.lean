import Mathlib
import SweptHeap.Proofs.SharedDepot.Acts

/-!
# Threads that share a sweep

Between two collections, any number of threads may take pages from a shelf, map new ones and sweep
those that wait. Two sums stay the same throughout: the pages on the shelf, in the hands of threads
and unmapped are those that were there and those that were mapped since; the pages that wait, that
are about to be swept and that were swept are those that waited in the beginning.
-/

namespace SweptHeap

variable {ρ : Type} {policy : Policy ρ} {d₀ d d' : Depot ρ}

/-- Every page of the shelf is listed once, and is mapped. -/
structure Depot.Stocked (d : Depot ρ) : Prop where
  nodup : d.shelf.pages.toList.Nodup
  mapped : ∀ id ∈ d.shelf.pages.toList, (d.arena.memory.page? id).isSome = true

theorem Depot.Stocked.lt_size (hd : d.Stocked) {id : PageId} (hid : id ∈ d.shelf.pages.toList) :
    id < d.arena.memory.pages.size := by
  obtain ⟨p, hp⟩ := Option.isSome_iff_exists.mp (hd.mapped id hid)
  exact Memory.lt_of_page? hp

/-- Pages that are mapped later are different. -/
theorem Depot.Stocked.nodup_later (hd : d.Stocked) (n : Nat) :
    (d.shelf.pages.toList ++ List.range' d.arena.memory.pages.size n).Nodup := by
  refine List.nodup_append.mpr ⟨hd.nodup, List.nodup_range', fun id hid j hj he => ?_⟩
  exact absurd (hd.lt_size hid) (Nat.not_lt.mpr (he ▸ (List.mem_range'_1.mp hj).1))

/-- The depots of a sound heap are such. -/
theorem Depot.Good.stocked {k : Request} (hg : d.Good k) : d.Stocked :=
  ⟨hg.nodup, fun id hid => by
    obtain ⟨p, hp, -⟩ := hg.mapped id hid
    rw [hp]
    rfl⟩

/-- All pages wait at the start of a collection. -/
theorem Depot.Stocked.prepare (hd : d.Stocked) (hquiet : d.arena.sweepers = 0)
    (h : Depot.prepare.apply d = (.ok (), d₀)) : d₀.Stocked ∧ d₀.arena.sweepers = 0 := by
  obtain ⟨shelf, arena⟩ := d
  simp only [Depot.prepare, Act.apply, ExceptT.run, Shelf.prepare] at h
  split_ifs at h with hempty
  · obtain ⟨-, rfl⟩ := Prod.mk.inj h
    have hperm := Depot.perm_prepare (Array.isEmpty_iff.mp hempty)
    exact ⟨⟨hperm.nodup_iff.mpr hd.nodup, fun id hid => hd.mapped id (hperm.subset hid)⟩, hquiet⟩
  · cases h

namespace SharedDepot

variable {y : SharedDepot ρ} {t t' : Task} {xs ys : List Task}

/-- The pages on the shelf and in the hands of threads. -/
def places (y : SharedDepot ρ) : List PageId :=
  y.depot.shelf.pages.toList ++ y.tasks.filterMap Task.held

/-- The shared depot came from the depot `d₀` by the work of its threads. -/
structure Kept (d₀ : Depot ρ) (y : SharedDepot ρ) : Prop where
  size_le : d₀.arena.memory.pages.size ≤ y.depot.arena.memory.pages.size
  stock : (y.places ++ y.freed).Perm
    (d₀.shelf.pages.toList ++ List.range' d₀.arena.memory.pages.size
    (y.depot.arena.memory.pages.size - d₀.arena.memory.pages.size))
  waiting : (y.depot.shelf.unswept.toList ++ y.tasks.filterMap Task.sweeps ++ y.swept).Perm
    d₀.shelf.unswept.toList
  sweepers : y.depot.arena.sweepers = y.tasks.countP Task.isSweeping
  mapped : ∀ id ∈ y.places, (y.depot.arena.memory.page? id).isSome = true
  unmapped : ∀ id ∈ y.freed, (y.depot.arena.memory.page? id).isSome = false
  added : ∀ t ∈ y.tasks, ∀ id, t.added = some id → d₀.arena.memory.pages.size ≤ id

theorem kept_new (hd : d.Stocked) (hquiet : d.arena.sweepers = 0) (threads : Nat) :
    Kept d (new d threads) where
  size_le := Nat.le_refl _
  stock := by simp [new, places, List.filterMap_replicate_of_none (f := Task.held) (a := .idle) rfl]
  waiting := by simp [new, List.filterMap_replicate_of_none (f := Task.sweeps) (a := .idle) rfl]
  sweepers := by
    rw [new, List.countP_replicate]
    exact hquiet
  mapped id hid := by
    refine hd.mapped id ?_
    simpa [new, places, List.filterMap_replicate_of_none (f := Task.held) (a := .idle) rfl] using
      hid
  unmapped id hid := by simp [new] at hid
  added t ht id he := by
    obtain rfl := (List.mem_replicate.mp ht).2
    cases he

theorem range'_extend {a b c : Nat} (hab : a ≤ b) (hbc : b ≤ c) :
    List.range' a (c - a) = List.range' a (b - a) ++ List.range' b (c - b) := by
  obtain ⟨m, rfl⟩ := Nat.exists_eq_add_of_le hab
  obtain ⟨n, rfl⟩ := Nat.exists_eq_add_of_le hbc
  rw [Nat.add_sub_cancel_left, Nat.add_sub_cancel_left, List.range'_append_1, Nat.add_assoc,
    Nat.add_sub_cancel_left]

/-- The places of a shared depot, with those of one thread set apart. -/
theorem places_mk (d : Depot ρ) (t : Task) (swept freed : List PageId) :
    (SharedDepot.mk d (xs ++ t :: ys) swept freed).places = d.shelf.pages.toList ++
      (xs.filterMap Task.held ++ (t.held.toList ++ ys.filterMap Task.held)) := by
  simp [places, List.filterMap_eq_flatMap_toList]

theorem places_eq (htasks : y.tasks = xs ++ t :: ys) :
    y.places = y.depot.shelf.pages.toList ++
      (xs.filterMap Task.held ++ (t.held.toList ++ ys.filterMap Task.held)) := by
  rw [← places_mk y.depot t y.swept y.freed, ← htasks]

namespace Kept

/-- No page is in two places. -/
theorem nodup (hy : Kept d₀ y) (hd : d₀.Stocked) : (y.places ++ y.freed).Nodup :=
  hy.stock.nodup_iff.mpr (hd.nodup_later _)

theorem lt_size (hy : Kept d₀ y) (hd : d₀.Stocked) {id : PageId} (hid : id ∈ y.places ++ y.freed) :
    id < y.depot.arena.memory.pages.size := by
  have hle := hy.size_le
  rcases List.mem_append.mp (hy.stock.subset hid) with hid | hid
  · exact (hd.lt_size hid).trans_le hle
  · have hlt := (List.mem_range'_1.mp hid).2
    rwa [Nat.add_sub_cancel' hle] at hlt

/-- The first sum stays the same. -/
theorem stock_step (hy : Kept d₀ y) (htasks : y.tasks = xs ++ t :: ys) (hm : t.Moves y.depot t' d')
    (swept : List PageId) :
    ((SharedDepot.mk d' (xs ++ t' :: ys) swept (y.freed ++ t.frees.toList)).places ++
      (y.freed ++ t.frees.toList)).Perm (d₀.shelf.pages.toList ++
        List.range' d₀.arena.memory.pages.size
          (d'.arena.memory.pages.size - d₀.arena.memory.pages.size)) := by
  refine List.perm_iff_count.mpr fun id => ?_
  have hold := hy.stock.count_eq id
  have hact := hm.stock.count_eq id
  rw [places_eq htasks] at hold
  rw [places_mk, range'_extend hy.size_le hm.size_le]
  simp only [List.count_append] at hold hact ⊢
  omega

/-- The second sum stays the same. -/
theorem waiting_step (hy : Kept d₀ y) (htasks : y.tasks = xs ++ t :: ys)
    (hm : t.Moves y.depot t' d') :
    (d'.shelf.unswept.toList ++ (xs ++ t' :: ys).filterMap Task.sweeps ++
      (y.swept ++ t.sweeps.toList)).Perm d₀.shelf.unswept.toList := by
  refine List.perm_iff_count.mpr fun id => ?_
  have hold := hy.waiting.count_eq id
  have hact := hm.unswept.count_eq id
  rw [htasks] at hold
  simp only [List.filterMap_eq_flatMap_toList, List.flatMap_append, List.flatMap_cons,
    List.count_append] at hold hact ⊢
  omega

/-- One act of one thread. -/
theorem step (hy : Kept d₀ y) (hd : d₀.Stocked) (htasks : y.tasks = xs ++ t :: ys)
    (hm : t.Moves y.depot t' d') :
    Kept d₀ ⟨d', xs ++ t' :: ys, y.swept ++ t.sweeps.toList, y.freed ++ t.frees.toList⟩ := by
  have hstock := hy.stock_step htasks hm (y.swept ++ t.sweeps.toList)
  have hapart := List.disjoint_of_nodup_append (hstock.nodup_iff.mpr (hd.nodup_later _))
  refine ⟨hy.size_le.trans hm.size_le, hstock, hy.waiting_step htasks hm, ?_, fun id hid => ?_,
    fun id hid => ?_, fun u hu id he => ?_⟩
  · have hold := hy.sweepers
    have hact := hm.sweepers
    rw [htasks] at hold
    simp only [List.countP_append, List.countP_cons] at hold ⊢
    cases ht : t.isSweeping <;> cases ht' : t'.isSweeping <;>
      simp [ht, ht'] at hold hact ⊢ <;> omega
  · have hfrees : t.frees ≠ some id := fun he =>
      hapart hid (List.mem_append_right _ (by simp [he]))
    refine (hm.mapped id).mpr ⟨?_, hfrees⟩
    have hothers (h : id ∈ xs.filterMap Task.held ∨ id ∈ ys.filterMap Task.held) :
        id ∈ y.places := by
      rw [places_eq htasks]
      rcases h with h | h <;> simp [h]
    -- What the thread has put on the shelf or taken was there before, or it is new.
    have hown (h : id ∈ d'.shelf.pages.toList ++ t'.held.toList) : id ∈ y.places ∨
        id ∈ List.range' y.depot.arena.memory.pages.size
          (d'.arena.memory.pages.size - y.depot.arena.memory.pages.size) := by
      have hmem := hm.stock.subset (List.mem_append_left _ h)
      rw [places_eq htasks]
      simp only [List.mem_append] at hmem ⊢
      tauto
    have hcases : id ∈ y.places ∨ id ∈ List.range' y.depot.arena.memory.pages.size
        (d'.arena.memory.pages.size - y.depot.arena.memory.pages.size) := by
      rw [places_mk] at hid
      simp only [List.mem_append] at hid hown
      tauto
    rcases hcases with h | h
    · exact .inl (hy.mapped id h)
    · have hrange := List.mem_range'_1.mp h
      rw [Nat.add_sub_cancel' hm.size_le] at hrange
      exact .inr hrange
  · refine Bool.eq_false_iff.mpr fun hsome => ?_
    obtain ⟨hbefore, hfrees⟩ := (hm.mapped id).mp hsome
    rcases List.mem_append.mp hid with hid | hid
    · rcases hbefore with hbefore | hbefore
      · rw [hy.unmapped id hid] at hbefore
        cases hbefore
      · exact absurd (hy.lt_size hd (List.mem_append_right _ hid)) (Nat.not_lt.mpr hbefore.1)
    · exact hfrees (Option.mem_toList.mp hid)
  · rcases List.mem_append.mp hu with hu | hu
    · exact hy.added u (htasks ▸ List.mem_append_left _ hu) id he
    · rcases List.mem_cons.mp hu with rfl | hu
      · exact hy.size_le.trans (hm.added id he)
      · exact hy.added u (htasks ▸ List.mem_append_right _ (List.mem_cons_of_mem _ hu)) id he

theorem turn (hy : Kept d₀ y) (hd : d₀.Stocked) (policy : Policy ρ) (u : Turn) :
    Kept d₀ (y.step policy u) := by
  cases u with
  | call i c =>
    rw [SharedDepot.step]
    cases hget : y.tasks[i]? with
    | none => exact hy
    | some t =>
      dsimp only
      split_ifs with hfree
      · obtain ⟨xs, ys, htasks, hset⟩ := split_at hget
        obtain ⟨-, hsweeps, hfrees, -⟩ := Task.rest_of_isFree hfree
        have hkept := hy.step hd htasks (Task.moves_call c hfree y.depot)
        rwa [hsweeps, hfrees, Option.toList_none, List.append_nil, List.append_nil, ← hset] at hkept
      · exact hy
  | act i =>
    rw [SharedDepot.step, act]
    cases hget : y.tasks[i]? with
    | none => exact hy
    | some t =>
      obtain ⟨xs, ys, htasks, hset⟩ := split_at hget
      dsimp only
      rw [hset]
      refine hy.step hd htasks (Task.moves_act policy t y.depot fun hsweeping => ?_)
      rw [hy.sweepers, htasks, List.countP_append, List.countP_cons_of_pos hsweeping]
      omega

theorem run (hy : Kept d₀ y) (hd : d₀.Stocked) (policy : Policy ρ) (turns : List Turn) :
    Kept d₀ (SharedDepot.run policy turns y) := by
  induction turns generalizing y with
  | nil => exact hy
  | cons u turns ih => exact ih (hy.turn hd policy u)

/-- Whoever sweeps is counted. -/
theorem not_isSweeping (hy : Kept d₀ y) (hquiet : y.depot.arena.sweepers = 0) (ht : t ∈ y.tasks) :
    ¬t.isSweeping = true :=
  List.countP_eq_zero.mp (hy.sweepers.symm.trans hquiet) t ht

/-- Without sweeps under way nobody holds a page that was there in the beginning. -/
theorem listed_of_quiet (hy : Kept d₀ y) (hquiet : y.depot.arena.sweepers = 0) {id : PageId}
    (hid : id ∈ y.places) (hold : id < d₀.arena.memory.pages.size) :
    id ∈ y.depot.shelf.pages.toList := by
  rcases List.mem_append.mp hid with hid | hid
  · exact hid
  · obtain ⟨t, ht, hheld⟩ := List.mem_filterMap.mp hid
    have hsweeping := hy.not_isSweeping hquiet ht
    cases t with
    | adding j =>
      obtain rfl := Option.some.inj hheld
      exact absurd hold (Nat.not_lt.mpr (hy.added _ ht j rfl))
    | stuck fault page => exact absurd (Option.isSome_iff_exists.mpr ⟨id, hheld⟩) hsweeping
    | sweeping aim j => exact absurd rfl hsweeping
    | placing aim j flag => exact absurd rfl hsweeping
    | _ => cases hheld

theorem sweeps_of_quiet (hy : Kept d₀ y) (hquiet : y.depot.arena.sweepers = 0) :
    y.tasks.filterMap Task.sweeps = [] := by
  refine List.filterMap_eq_nil_iff.mpr fun t ht => ?_
  have hsweeping := hy.not_isSweeping hquiet ht
  cases t with
  | sweeping aim j => exact absurd rfl hsweeping
  | _ => rfl

/-- A page that is mapped and belongs to the shelf has one place. -/
theorem count_places (hy : Kept d₀ y) (hd : d₀.Stocked) {id : PageId}
    (hsome : (y.depot.arena.memory.page? id).isSome = true)
    (hours : id ∈ d₀.shelf.pages.toList ∨ d₀.arena.memory.pages.size ≤ id) :
    y.places.count id = 1 := by
  have hmem : id ∈ y.places ++ y.freed := by
    refine hy.stock.symm.subset (List.mem_append.mpr (hours.imp_right fun hle => ?_))
    obtain ⟨p, hp⟩ := Option.isSome_iff_exists.mp hsome
    refine List.mem_range'_1.mpr ⟨hle, ?_⟩
    rw [Nat.add_sub_cancel' hy.size_le]
    exact Memory.lt_of_page? hp
  have hnodup := List.Nodup.of_append_left (hy.nodup hd)
  refine List.count_eq_one_of_mem hnodup ((List.mem_append.mp hmem).resolve_right fun hfreed => ?_)
  rw [hy.unmapped id hfreed] at hsome
  cases hsome

end Kept

/-- What holds at every moment while threads share the work on a shelf, which was `d₀` when the
collection began. -/
structure Shared (d₀ : Depot ρ) (y : SharedDepot ρ) : Prop where
  /-- A page of the shelf that is mapped is on one list, once, or held by one thread. -/
  one_place : ∀ id, (y.depot.arena.memory.page? id).isSome = true →
    id ∈ d₀.shelf.pages.toList ∨ d₀.arena.memory.pages.size ≤ id →
      y.depot.shelf.pages.toList.count id + (y.tasks.filterMap Task.held).count id = 1
  mapped : ∀ id, id ∈ y.depot.shelf.pages.toList ∨ id ∈ y.tasks.filterMap Task.held →
    (y.depot.arena.memory.page? id).isSome = true
  once : ∀ id ∈ d₀.shelf.unswept.toList, y.swept.count id ≤ 1
  counted : y.depot.arena.sweepers = y.tasks.countP Task.isSweeping
  /-- When no page waits and no sweep is under way, all pages have been swept. -/
  complete : y.depot.shelf.unswept = #[] → y.depot.arena.sweepers = 0 →
    ∀ id ∈ d₀.shelf.unswept.toList, y.swept.count id = 1 ∧
      (id ∈ y.depot.shelf.empty.toList ∨ id ∈ y.depot.shelf.ready.toList ∨
        id ∈ y.depot.shelf.used.toList ∨
          id ∈ y.freed ∧ (y.depot.arena.memory.page? id).isSome = false)

/-- However many threads share the work on a shelf after the start of a collection, and whatever
turns they take, each page is in one place, no page is swept twice, the sweeps under way are
counted, and the sweep is over when no page waits and none is under way. -/
theorem sweep_is_shared (policy : Policy ρ) (hd : d.Stocked) (hquiet : d.arena.sweepers = 0)
    (hprepared : Depot.prepare.apply d = (.ok (), d₀)) (threads : Nat) (turns : List Turn) :
    Shared d₀ (run policy turns (new d₀ threads)) := by
  obtain ⟨hd₀, hquiet₀⟩ := hd.prepare hquiet hprepared
  have hy := (kept_new hd₀ hquiet₀ threads).run hd₀ policy turns
  generalize run policy turns (new d₀ threads) = y at hy
  have hsum (id : PageId) : y.depot.shelf.unswept.toList.count id +
      (y.tasks.filterMap Task.sweeps).count id + y.swept.count id =
        d₀.shelf.unswept.toList.count id := by
    rw [← hy.waiting.count_eq id, List.count_append, List.count_append]
  have hone {id : PageId} (hid : id ∈ d₀.shelf.unswept.toList) :
      d₀.shelf.unswept.toList.count id = 1 :=
    List.count_eq_one_of_mem (List.Nodup.of_append_right (d₀.shelf.toList_pages ▸ hd₀.nodup)) hid
  refine ⟨fun id hsome hours => ?_, fun id hid => hy.mapped id (List.mem_append.mpr hid),
    fun id hid => ?_, hy.sweepers, fun hempty hover id hid => ⟨?_, ?_⟩⟩
  · rw [← List.count_append]
    exact hy.count_places hd₀ hsome hours
  · have hcount := hsum id
    rw [hone hid] at hcount
    omega
  · have hcount := hsum id
    rw [hone hid, hempty, hy.sweeps_of_quiet hover] at hcount
    simpa using hcount
  · have hlisted : id ∈ d₀.shelf.pages.toList := Shelf.mem_pages.mpr (.inr (.inr (.inr hid)))
    have hmem := hy.stock.symm.subset (List.mem_append_left _ hlisted)
    rcases List.mem_append.mp hmem with hplace | hfreed
    · have hshelf := hy.listed_of_quiet hover hplace (hd₀.lt_size hlisted)
      rcases Shelf.mem_pages.mp hshelf with h | h | h | h
      · exact .inl h
      · exact .inr (.inl h)
      · exact .inr (.inr (.inl h))
      · rw [hempty] at h
        cases h
    · exact .inr (.inr (.inr ⟨hfreed, hy.unmapped id hfreed⟩))

/-- Two pages in use. The block of the first one is marked. -/
def furnished : Depot Unit :=
  let d : Depot Unit := ((Depot.newPage ⟨.uniform, 128⟩).apply { arena := { memo := () } }).2
  let d : Depot Unit := ((Depot.newPage ⟨.uniform, 128⟩).apply d).2
  let m := (Memory.allocate 1 128 (Memory.allocate 0 128 d.arena.memory).2).2
  { d with arena := { d.arena with memory := (m.mark ⟨0, 0⟩).2 } }

/-- One thread sweeps while another looks for a page with room, until both have done. -/
def helping : List Turn :=
  [.call 0 (.sweep {}), .call 1 (.getPage ⟨.uniform, 128⟩ 1), .act 0, .act 1,
    .act 1, .act 0, .act 1, .act 0, .act 1, .act 0, .act 1, .act 0]

/-- Two pages wait. Each of two threads sweeps one, and then nothing waits and no sweep is under
way. -/
theorem sweep_is_shared_small :
    let d₀ : Depot Unit := ⟨{ unswept := #[0, 1] }, furnished.arena⟩
    let y := run .byMark helping (new d₀ 2)
    (furnished.Stocked ∧ furnished.arena.sweepers = 0 ∧
      Depot.prepare.apply furnished = (.ok (), d₀)) ∧
      Shared d₀ y ∧ (y.depot.shelf.unswept = #[] ∧ y.depot.arena.sweepers = 0) ∧
      ∀ id ∈ [0, 1], y.swept.count id = 1 ∧
        (id ∈ y.depot.shelf.empty.toList ∨ id ∈ y.depot.shelf.ready.toList ∨
          id ∈ y.depot.shelf.used.toList ∨
            id ∈ y.freed ∧ (y.depot.arena.memory.page? id).isSome = false) := by
  intro d₀ y
  have hmapped : ∀ id ∈ [0, 1], (furnished.arena.memory.page? id).isSome = true := by decide +kernel
  have hd : furnished.Stocked := ⟨by decide, hmapped⟩
  have hprepared : Depot.prepare.apply furnished = (.ok (), d₀) := rfl
  have hover : y.depot.shelf.unswept = #[] ∧ y.depot.arena.sweepers = 0 := by decide +kernel
  have hshared : Shared d₀ y := sweep_is_shared .byMark hd rfl hprepared 2 helping
  exact ⟨⟨hd, rfl, hprepared⟩, hshared, hover, hshared.complete hover.1 hover.2⟩

end SharedDepot

end SweptHeap
