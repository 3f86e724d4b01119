import Mathlib
import SweptHeap.Proofs.SharedDepot.Basic

/-!
# What an act moves

An act moves pages between the shelf and the hands of the thread, maps one or unmaps one. This is
said once for all acts (`Task.moves_act`); what holds of a shared depot follows by counting. A page
counts as swept from the turn on in which it was swept (`SharedDepot.exists_sweep`).
-/

namespace SweptHeap

variable {ρ : Type} {policy : Policy ρ}

/-- A list around one of its members. -/
theorem split_at {α : Type} {l : List α} {i : Nat} {x : α} (h : l[i]? = some x) :
    ∃ xs ys, l = xs ++ x :: ys ∧ ∀ x', l.set i x' = xs ++ x' :: ys := by
  obtain ⟨hi, rfl⟩ := List.getElem?_eq_some_iff.mp h
  refine ⟨l.take i, l.drop (i + 1), ?_, fun x' => ?_⟩
  · rw [List.getElem_cons_drop, List.take_append_drop]
  · rw [List.set_eq_take_append_cons_drop, if_pos hi]

/-! ### Arenas with the same pages mapped -/

/-- The same pages are mapped, and as many sweeps are under way. -/
structure Arena.Stays (a a' : Arena ρ) : Prop where
  size_eq : a'.memory.pages.size = a.memory.pages.size
  isSome_eq : ∀ id, (a'.memory.page? id).isSome = (a.memory.page? id).isSome
  sweepers_eq : a'.sweepers = a.sweepers

namespace Arena.Stays

variable {a a' a'' : Arena ρ}

theorem refl (a : Arena ρ) : a.Stays a := ⟨rfl, fun _ => rfl, rfl⟩

theorem trans (h : a.Stays a') (h' : a'.Stays a'') : a.Stays a'' :=
  ⟨h'.size_eq.trans h.size_eq, fun id => (h'.isSome_eq id).trans (h.isSome_eq id),
    h'.sweepers_eq.trans h.sweepers_eq⟩

theorem of_pages (h : a'.memory.pages = a.memory.pages) (hs : a'.sweepers = a.sweepers) :
    a.Stays a' :=
  ⟨by rw [h], fun id => by rw [Memory.page?_congr h], hs⟩

theorem of_amends (h : a.memory.Amends a'.memory) (hs : a'.sweepers = a.sweepers) : a.Stays a' := by
  refine ⟨h.size_eq, fun id => ?_, hs⟩
  have hrel := h.pages id
  generalize a.memory.page? id = x, a'.memory.page? id = y at hrel
  cases hrel <;> rfl

end Arena.Stays

/-- The sweep of a page, sound or not, brings the page back. -/
theorem Arena.sweepPage_stays (policy : Policy ρ) (id : PageId) (a : Arena ρ) :
    a.Stays (a.sweepPage policy id).2 := by
  obtain ⟨memory, memo, meter, sweepers, found⟩ := a
  cases hp : memory.page? id with
  | none =>
    simp only [sweepPage, Memory.borrow_eq, hp]
    refine ⟨Memory.size_setPage _, fun j => ?_, rfl⟩
    rw [Memory.page?_setPage_none hp]
  | some p =>
    have hid : id < memory.pages.size := Memory.lt_of_page? hp
    -- While the page is away, only records change.
    have haway : Stays ⟨memory.setPage id none, memo, meter, sweepers, found⟩
        (p.sweep (ask policy id) (askRecord policy id)
          ⟨memory.setPage id none, memo, meter, sweepers, found⟩).env := by
      refine Page.kept_sweep (I := fun e _ => Stays _ e) (fun s e _ he => ?_)
        (fun i r e _ he => ?_) p (.refl _)
      · exact he.trans (.of_amends (ask_amends policy id s e).1 rfl)
      · exact he.trans (.of_pages rfl rfl)
    simp only [sweepPage, Memory.borrow_eq, hp]
    generalize p.sweep (ask policy id) (askRecord policy id) _ = done at haway
    obtain ⟨p', ⟨memory', memo', meter', sweepers', ⟨items⟩⟩, tally, queued, empty, fault⟩ := done
    have hsize : memory'.pages.size = memory.pages.size :=
      haway.size_eq.trans (Memory.size_setPage _)
    have hback : Stays ⟨memory, memo, meter, sweepers, found⟩ ⟨memory'.restore id p', memo', meter',
        sweepers', ⟨queued.foldl (fun items index => items.push ⟨id, index⟩) items⟩⟩ := by
      refine ⟨(Memory.size_setPage _).trans hsize, fun j => ?_, haway.sweepers_eq⟩
      have hj : (memory'.page? j).isSome = ((memory.setPage id none).page? j).isSome :=
        haway.isSome_eq j
      rw [Memory.page?_setPage hid] at hj
      simp only [Memory.restore_eq]
      rw [Memory.page?_setPage (hsize ▸ hid)]
      split_ifs at hj ⊢ with he
      · rw [he, hp]
        rfl
      · exact hj
    cases fault <;> exact hback

/-! ### The shelf -/

namespace Depot

variable {d : Depot ρ}

/-- Whether a ready page is found or not, the shelf lists the same pages. -/
theorem takeReady_cases (r : Request) (d : Depot ρ) :
    ∃ result s, (takeReady r).apply d = (result, ⟨s, d.arena⟩) ∧
      s.unswept = d.shelf.unswept ∧ s.pages.toList.Perm d.shelf.pages.toList := by
  obtain ⟨shelf, arena⟩ := d
  simp only [Act.apply, ExceptT.run, takeReady, Shelf.takeReady]
  cases Shelf.lastWithRoom (fun id => arena.memory.hasRoom id r.cells)
    shelf.ready shelf.ready.size with
  | error e => exact ⟨_, shelf, rfl, rfl, .refl _⟩
  | ok found =>
    cases found with
    | none => exact ⟨_, shelf, rfl, rfl, .refl _⟩
    | some i =>
      cases hget : shelf.ready[i]? with
      | none => exact ⟨.ok none, shelf, by simp only [hget], rfl, .refl _⟩
      | some id =>
        refine ⟨.ok (some id), { shelf with
          ready := Shelf.removeAt shelf.ready i, used := shelf.used.push id },
            by simp only [hget], rfl,
          perm_takeReady hget⟩

theorem takeEmpty_cases (s : Shelf) :
    s.takeEmpty.2.unswept = s.unswept ∧ s.takeEmpty.2.pages.toList.Perm s.pages.toList := by
  obtain ⟨empty, ready, used, unswept⟩ := s
  rcases List.eq_nil_or_concat' empty.toList with hnil | ⟨rest, id, hconcat⟩
  · obtain rfl : empty = #[] := Array.toList_eq_nil_iff.mp hnil
    exact ⟨rfl, .refl _⟩
  · obtain rfl : empty = rest.toArray.push id := Array.toList_inj.mp (by simpa using hconcat)
    simp only [Shelf.takeEmpty, Array.back?_push, Array.pop_push, true_and]
    exact perm_takeEmpty (s := ⟨rest.toArray.push id, ready, used, unswept⟩) rfl

end Depot

/-! ### Acts -/

namespace Task

variable {t t' : Task} {d d' : Depot ρ}

/-- What an act moves: pages go between the shelf and the thread, a page is mapped, or the thread
unmaps the page that it holds. -/
structure Moves (t : Task) (d : Depot ρ) (t' : Task) (d' : Depot ρ) : Prop where
  size_le : d.arena.memory.pages.size ≤ d'.arena.memory.pages.size
  stock : (d'.shelf.pages.toList ++ t'.held.toList ++ t.frees.toList).Perm
    (d.shelf.pages.toList ++ t.held.toList ++ List.range' d.arena.memory.pages.size
      (d'.arena.memory.pages.size - d.arena.memory.pages.size))
  unswept : (d'.shelf.unswept.toList ++ t'.sweeps.toList).Perm d.shelf.unswept.toList
  sweepers : d'.arena.sweepers + t.isSweeping.toNat = d.arena.sweepers + t'.isSweeping.toNat
  mapped : ∀ id, (d'.arena.memory.page? id).isSome = true ↔
    ((d.arena.memory.page? id).isSome = true ∨
      d.arena.memory.pages.size ≤ id ∧ id < d'.arena.memory.pages.size) ∧ t.frees ≠ some id
  added : ∀ id, t'.added = some id → d.arena.memory.pages.size ≤ id

/-- An act that maps and unmaps nothing. -/
theorem Moves.of_stays (hstays : d.arena.Stays d'.arena) (hfrees : t.frees = none)
    (hstock : (d'.shelf.pages.toList ++ t'.held.toList).Perm
      (d.shelf.pages.toList ++ t.held.toList))
    (hunswept : (d'.shelf.unswept.toList ++ t'.sweeps.toList).Perm d.shelf.unswept.toList)
    (hsweeping : t'.isSweeping = t.isSweeping) (hadded : t'.added = none) : Moves t d t' d' where
  size_le := hstays.size_eq.ge
  stock := by simpa [hstays.size_eq, hfrees] using hstock
  unswept := hunswept
  sweepers := by rw [hstays.sweepers_eq, hsweeping]
  mapped id := by
    rw [hstays.isSome_eq, hstays.size_eq, hfrees]
    constructor
    · exact fun h => ⟨.inl h, by simp⟩
    · rintro ⟨h | h, -⟩
      · exact h
      · exact absurd h.2 (Nat.not_lt.mpr h.1)
  added id he := by cases hadded.symm.trans he

theorem giveUp_cases (aim : Aim) (d : Depot ρ) :
    ∃ t' a, aim.giveUp.apply d = (.ok t', ⟨d.shelf, a⟩) ∧ d.arena.Stays a ∧ t'.held = none ∧
      t'.sweeps = none ∧ t'.isSweeping = false ∧ t'.added = none := by
  cases aim with
  | room r epoch => exact ⟨.reusing r, d.arena, rfl, .refl _, rfl, rfl, rfl, rfl⟩
  | all tally => exact ⟨.counted tally, d.arena, rfl, .refl _, rfl, rfl, rfl, rfl⟩
  | free kind freed tally =>
    unfold Aim.giveUp
    dsimp only
    split_ifs with h
    · exact ⟨.counted tally, d.arena.report (.freed kind freed), rfl, .of_pages rfl rfl,
        rfl, rfl, rfl, rfl⟩
    · exact ⟨.counted tally, d.arena, rfl, .refl _, rfl, rfl, rfl, rfl⟩

theorem weigh_cases (aim : Aim) (id : PageId) (empty : Bool) (swept : Tally) (d : Depot ρ) :
    ∃ result a, (aim.weigh id empty swept).apply d = (result, ⟨d.shelf, a⟩) ∧ d.arena.Stays a ∧
      ((∃ e, result = .error e) ∨ ∃ aim' flag, result = .ok (.placing aim' id flag)) := by
  cases aim with
  | room r epoch =>
    rw [Aim.weigh, Act.apply_get_bind]
    cases d.arena.memory.hasRoom id r.cells with
    | error e => exact ⟨.error e, _, rfl, .of_pages rfl rfl, .inl ⟨e, rfl⟩⟩
    | ok fits => exact ⟨_, _, rfl, .of_pages rfl rfl, .inr ⟨_, _, rfl⟩⟩
  | all tally => exact ⟨_, d.arena, rfl, .refl _, .inr ⟨_, _, rfl⟩⟩
  | free kind freed tally =>
    unfold Aim.weigh
    dsimp only
    split_ifs with h
    · exact ⟨_, d.arena, rfl, .refl _, .inr ⟨_, _, rfl⟩⟩
    · exact ⟨_, d.arena, rfl, .refl _, .inr ⟨_, _, rfl⟩⟩

/-- A thread takes an unswept page, if there is one. -/
theorem moves_seeking (aim : Aim) (d : Depot ρ) :
    Moves (.seeking aim) d (next (.seeking aim) ((act policy (.seeking aim)).apply d).1)
      ((act policy (.seeking aim)).apply d).2 := by
  rcases Depot.unswept_cases d.shelf with hw | ⟨rest, id, hw⟩
  · obtain ⟨t', a, heq, hstays, hheld, hsweeps, hsweeping, hadded⟩ := giveUp_cases aim d
    rw [act, Act.apply_bind_ok (Depot.apply_takeUnswept_nil hw)]
    dsimp only
    rw [heq]
    refine .of_stays hstays rfl ?_ ?_ hsweeping hadded
    · rw [next, hheld]
      exact .refl _
    · rw [next, hsweeps, Option.toList_none, List.append_nil]
  · rw [act, Act.apply_bind_ok (Depot.apply_takeUnswept_push hw)]
    change Moves _ d (.sweeping aim id)
      ⟨{ d.shelf with unswept := rest }, { d.arena with sweepers := d.arena.sweepers + 1 }⟩
    refine ⟨Nat.le_refl _, List.perm_iff_count.mpr fun j => ?_, ?_, rfl, fun j => ?_, nofun⟩
    · simp only [held, frees, Shelf.toList_pages, hw, Array.toList_push,
        List.count_append, Nat.sub_self,
        List.range'_zero, Option.toList_none, Option.toList_some, List.count_nil]
      omega
    · simp [sweeps, hw]
    · simp [frees]

theorem moves_sweeping (aim : Aim) (id : PageId) (d : Depot ρ) :
    Moves (.sweeping aim id) d (next (.sweeping aim id) ((act policy (.sweeping aim id)).apply d).1)
      ((act policy (.sweeping aim id)).apply d).2 := by
  have hstays := Arena.sweepPage_stays policy id d.arena
  have hkeep {result : Except Fault Task} {a : Arena ρ} (ha : d.arena.Stays a)
      (hresult : (∃ e, result = .error e) ∨ ∃ aim' flag, result = .ok (.placing aim' id flag)) :
      Moves (.sweeping aim id) d (next (.sweeping aim id) result) ⟨d.shelf, a⟩ := by
    rcases hresult with ⟨e, rfl⟩ | ⟨aim', flag, rfl⟩
    · exact .of_stays ha rfl (.refl _) (by simp [next, sweeps]) rfl rfl
    · exact .of_stays ha rfl (.refl _) (by simp [next, sweeps]) rfl rfl
  rw [act]
  generalize hdone : d.arena.sweepPage policy id = done at hstays
  obtain ⟨result, a⟩ := done
  cases result with
  | error e =>
    rw [Act.apply_bind_error (Depot.apply_sweepPage hdone)]
    exact hkeep hstays (.inl ⟨e, rfl⟩)
  | ok swept =>
    obtain ⟨result, a', heq, hstays', hresult⟩ := weigh_cases aim id swept.1 swept.2 ⟨d.shelf, a⟩
    rw [Act.apply_bind_ok (Depot.apply_sweepPage hdone)]
    dsimp only
    rw [heq]
    exact hkeep (hstays.trans hstays') hresult

/-- A page that nobody else sees goes to one of the lists of swept pages. -/
theorem Moves.put {id : PageId} {s : Shelf} (hheld : t.held = some id) (hfrees : t.frees = none)
    (hheld' : t'.held = none) (hsweeps' : t'.sweeps = none) (hadded' : t'.added = none)
    (hsweeping : t'.isSweeping = t.isSweeping)
    (hs : s = d.shelf.addUsed id ∨ s = d.shelf.addReady id ∨ s = d.shelf.addEmpty id) :
    Moves t d t' ⟨s, d.arena⟩ := by
  refine .of_stays (.refl _) hfrees (List.perm_iff_count.mpr fun j => ?_) ?_ hsweeping hadded'
  · rw [hheld, hheld']
    rcases hs with rfl | rfl | rfl <;>
      simp only [Shelf.toList_pages, Shelf.addUsed, Shelf.addReady,
        Shelf.addEmpty, Array.toList_push,
        List.count_append, Option.toList_none, Option.toList_some, List.count_nil] <;> omega
  · rw [hsweeps']
    rcases hs with rfl | rfl | rfl <;> simp [Shelf.addUsed, Shelf.addReady, Shelf.addEmpty]

/-- A thread puts a page back, or unmaps it. -/
theorem moves_placing (aim : Aim) (id : PageId) (flag : Bool) (d : Depot ρ) :
    Moves (.placing aim id flag) d (next (.placing aim id flag)
      ((act policy (.placing aim id flag)).apply d).1)
        ((act policy (.placing aim id flag)).apply d).2 := by
  cases aim with
  | room r epoch => exact .put rfl rfl rfl rfl rfl rfl (.inl rfl)
  | all tally =>
    cases flag with
    | true => exact .put rfl rfl rfl rfl rfl rfl (.inr (.inr rfl))
    | false => exact .put rfl rfl rfl rfl rfl rfl (.inr (.inl rfl))
  | free kind freed tally =>
    cases flag with
    | false => exact .put rfl rfl rfl rfl rfl rfl (.inr (.inl rfl))
    | true =>
      have hsize := Memory.size_unmap d.arena.memory id
      change Moves _ d (.leaving (.free kind freed tally) none)
        ⟨d.shelf, d.arena.modifyMemory (·.unmap id)⟩
      refine ⟨hsize.ge, ?_, by simp [sweeps], rfl, fun j => ?_, nofun⟩
      · change (d.shelf.pages.toList ++ [] ++ [id]).Perm (d.shelf.pages.toList ++ [id] ++
          List.range' _ ((d.arena.memory.unmap id).pages.size - _))
        simp [hsize]
      · change ((d.arena.memory.unmap id).page? j).isSome = true ↔
          (_ ∨ _ ∧ j < (d.arena.memory.unmap id).pages.size) ∧ some id ≠ some j
        rw [Memory.page?_unmap, hsize]
        by_cases hj : j = id
        · simp [hj]
        · simp [hj, Ne.symm hj]

theorem moves_mapping (r : Request) (d : Depot ρ) :
    Moves (.mapping r) d (next (.mapping r) ((act policy (.mapping r)).apply d).1)
      ((act policy (.mapping r)).apply d).2 := by
  obtain ⟨shelf, ⟨memory, memo, meter, sweepers, found⟩⟩ := d
  cases hp : Page.create r with
  | error e =>
    have hmap : memory.map r = (.error e, memory) := by rw [Memory.map, hp]
    have heq : (mapPage r).apply (⟨shelf, ⟨memory, memo, meter, sweepers, found⟩⟩ : Depot ρ) =
        (.error e, ⟨shelf, ⟨memory, memo, meter, sweepers, found⟩⟩) := by
      simp only [mapPage, Act.apply, ExceptT.run, Arena.onMemory, hmap]
    rw [act, Act.apply_bind_error heq]
    exact .of_stays (.refl _) rfl (.refl _) (by simp [next, sweeps]) rfl rfl
  | ok p =>
    obtain ⟨hid, hpages⟩ := Memory.page?_map (m := memory) hp
    have heq : (mapPage r).apply (⟨shelf, ⟨memory, memo, meter, sweepers, found⟩⟩ : Depot ρ) =
        (.ok memory.pages.size, ⟨shelf, ⟨(memory.map r).2, memo, meter, sweepers, found⟩⟩) := by
      simp only [mapPage, Act.apply, ExceptT.run, Arena.onMemory, hid]
    have hsize : (memory.map r).2.pages.size = memory.pages.size + 1 := by
      rw [hpages, Array.size_push]
    rw [act, Act.apply_bind_ok heq]
    change Moves _ _ (.adding memory.pages.size)
      ⟨shelf, ⟨(memory.map r).2, memo, meter, sweepers, found⟩⟩
    refine ⟨?_, ?_, by simp [sweeps], rfl, fun j => ?_, fun j he => ?_⟩
    · change memory.pages.size ≤ (memory.map r).2.pages.size
      omega
    · change (shelf.pages.toList ++ [memory.pages.size] ++ []).Perm (shelf.pages.toList ++ [] ++
        List.range' memory.pages.size ((memory.map r).2.pages.size - memory.pages.size))
      rw [hsize, Nat.add_sub_cancel_left]
      simp
    · change ((memory.map r).2.page? j).isSome = true ↔ ((memory.page? j).isSome = true ∨
        memory.pages.size ≤ j ∧ j < (memory.map r).2.pages.size) ∧ none ≠ some j
      rw [Memory.page?_push hpages, hsize]
      by_cases hj : j = memory.pages.size
      · simp [hj]
      · rw [if_neg hj]
        constructor
        · exact fun h => ⟨.inl h, (Option.some_ne_none j).symm⟩
        · rintro ⟨h | h, -⟩
          · exact h
          · exact absurd (Nat.le_antisymm (Nat.lt_succ_iff.mp h.2) h.1) hj
    · exact (Option.some.inj he).le

/-- What an act moves. A thread that counts its sweep as over was counted before. -/
theorem moves_act (policy : Policy ρ) (t : Task) (d : Depot ρ)
    (hsweeping : t.isSweeping = true → 0 < d.arena.sweepers) :
    Moves t d (t.next ((t.act policy).apply d).1) ((t.act policy).apply d).2 := by
  have hstill {t' : Task} {s : Shelf} (hfrees : t.frees = none) (hheld : t'.held = t.held)
      (hsweeps : t'.sweeps = none) (hsweeping : t'.isSweeping = t.isSweeping)
      (hadded : t'.added = none) (hunswept : s.unswept = d.shelf.unswept)
      (hperm : s.pages.toList.Perm d.shelf.pages.toList) : Moves t d t' ⟨s, d.arena⟩ := by
    refine .of_stays (.refl _) hfrees ?_ ?_ hsweeping hadded
    · rw [hheld]
      exact hperm.append_right _
    · simp [hsweeps, hunswept]
  cases t with
  | looking r epoch =>
    obtain ⟨result, s, heq, hunswept, hperm⟩ := Depot.takeReady_cases r d
    rw [act]
    cases result with
    | error e =>
      rw [Act.apply_bind_error heq]
      exact hstill rfl rfl rfl rfl rfl hunswept hperm
    | ok found =>
      rw [Act.apply_bind_ok heq]
      cases found with
      | none => exact hstill rfl rfl rfl rfl rfl hunswept hperm
      | some id => exact hstill rfl rfl rfl rfl rfl hunswept hperm
  | seeking aim => exact moves_seeking aim d
  | sweeping aim id => exact moves_sweeping aim id d
  | placing aim id flag => exact moves_placing aim id flag d
  | leaving aim result =>
    have hpos := hsweeping rfl
    have hleft {t' : Task} (hheld : t'.held = none) (hsweeps : t'.sweeps = none)
        (hover : t'.isSweeping = false) (hadded : t'.added = none) :
        Moves (.leaving aim result) d t'
          ⟨d.shelf, { d.arena with sweepers := d.arena.sweepers - 1 }⟩ := by
      refine ⟨Nat.le_refl _, ?_, ?_, ?_, fun j => ?_, fun j he => by cases hadded.symm.trans he⟩
      · rw [hheld]
        simp [held, frees]
      · simp [hsweeps]
      · rw [hover]
        change d.arena.sweepers - 1 + 1 = d.arena.sweepers + 0
        omega
      · simp [frees]
    cases result with
    | none => exact hleft rfl rfl rfl rfl
    | some id => exact hleft rfl rfl rfl rfl
  | reusing r =>
    obtain ⟨hunswept, hperm⟩ := Depot.takeEmpty_cases d.shelf
    rw [act, Act.apply_bind_ok (Depot.apply_onShelf _ d)]
    cases d.shelf.takeEmpty.1 with
    | none => exact hstill rfl rfl rfl rfl rfl hunswept hperm
    | some id => exact hstill rfl rfl rfl rfl rfl hunswept hperm
  | mapping r => exact moves_mapping r d
  | adding id => exact .put rfl rfl rfl rfl rfl rfl (.inl rfl)
  | idle => exact hstill rfl rfl rfl rfl rfl rfl (.refl _)
  | got id => exact hstill rfl rfl rfl rfl rfl rfl (.refl _)
  | counted tally => exact hstill rfl rfl rfl rfl rfl rfl (.refl _)
  | stuck fault page => exact hstill rfl rfl rfl rfl rfl rfl (.refl _)

theorem rest_of_isFree (h : t.isFree = true) :
    t.held = none ∧ t.sweeps = none ∧ t.frees = none ∧ t.isSweeping = false := by
  cases t with
  | idle => exact ⟨rfl, rfl, rfl, rfl⟩
  | got id => exact ⟨rfl, rfl, rfl, rfl⟩
  | counted tally => exact ⟨rfl, rfl, rfl, rfl⟩
  | _ => cases h

/-- To be asked moves nothing. -/
theorem moves_call (c : Call) (h : t.isFree = true) (d : Depot ρ) : Moves t d c.task d := by
  obtain ⟨hheld, -, hfrees, hsweeping⟩ := rest_of_isFree h
  have hcall : c.task.held = none ∧ c.task.sweeps = none ∧ c.task.isSweeping = false ∧
      c.task.added = none := by
    cases c <;> exact ⟨rfl, rfl, rfl, rfl⟩
  refine .of_stays (.refl _) hfrees ?_ ?_ (hcall.2.2.1.trans hsweeping.symm) hcall.2.2.2
  · rw [hheld, hcall.1]
  · rw [hcall.2.1, Option.toList_none, List.append_nil]

/-! ### What an act says to the policy -/

theorem sweeps_eq_none (ht : t.isSweeping = false) : t.sweeps = none := by
  cases t with
  | sweeping aim id => cases ht
  | _ => rfl

theorem weigh_silent (aim : Aim) (id : PageId) (empty : Bool) (swept : Tally) (d : Depot ρ) :
    ((aim.weigh id empty swept).apply d).2.arena.found = d.arena.found ∧
      ((aim.weigh id empty swept).apply d).2.arena.memo = d.arena.memo ∧
      ((aim.weigh id empty swept).apply d).2.arena.memory.pages = d.arena.memory.pages := by
  cases aim with
  | room r epoch =>
    rw [Aim.weigh, Act.apply_get_bind]
    cases d.arena.memory.hasRoom id r.cells <;> exact ⟨rfl, rfl, rfl⟩
  | all tally => exact ⟨rfl, rfl, rfl⟩
  | free kind freed tally => cases empty <;> exact ⟨rfl, rfl, rfl⟩

/-- An act that sweeps no page leaves the policy and what was set aside alone. Only a page that
waits makes a thread begin a sweep. -/
theorem act_silent (policy : Policy ρ) (ht : t.sweeps = none) (d : Depot ρ) :
    ((t.act policy).apply d).2.arena.found = d.arena.found ∧
      ((t.act policy).apply d).2.arena.memo = d.arena.memo ∧
      (d.shelf.unswept = #[] → t.isSweeping = false →
        ((t.act policy).apply d).2.arena.sweepers = d.arena.sweepers) := by
  cases t with
  | looking r epoch =>
    obtain ⟨result, s, heq, -⟩ := Depot.takeReady_cases r d
    rw [act]
    cases result with
    | error e =>
      rw [Act.apply_bind_error heq]
      exact ⟨rfl, rfl, fun _ _ => rfl⟩
    | ok found =>
      rw [Act.apply_bind_ok heq]
      cases found <;> exact ⟨rfl, rfl, fun _ _ => rfl⟩
  | seeking aim =>
    rcases Depot.unswept_cases d.shelf with hw | ⟨rest, id, hw⟩
    · rw [act, Act.apply_bind_ok (Depot.apply_takeUnswept_nil hw)]
      cases aim with
      | room r epoch => exact ⟨rfl, rfl, fun _ _ => rfl⟩
      | all tally => exact ⟨rfl, rfl, fun _ _ => rfl⟩
      | free kind freed tally =>
        dsimp only [Aim.giveUp]
        split_ifs <;> exact ⟨rfl, rfl, fun _ _ => rfl⟩
    · rw [act, Act.apply_bind_ok (Depot.apply_takeUnswept_push hw)]
      exact ⟨rfl, rfl, fun hnil => absurd (hw.symm.trans hnil) (by simp)⟩
  | sweeping aim id => cases ht
  | placing aim id flag => cases aim <;> cases flag <;> exact ⟨rfl, rfl, by simp [isSweeping]⟩
  | leaving aim result => cases result <;> exact ⟨rfl, rfl, by simp [isSweeping]⟩
  | reusing r =>
    rw [act, Act.apply_bind_ok (Depot.apply_onShelf _ d)]
    cases d.shelf.takeEmpty.1 <;> exact ⟨rfl, rfl, fun _ _ => rfl⟩
  | mapping r =>
    rw [act, Act.apply_bind]
    obtain ⟨shelf, arena⟩ := d
    simp only [mapPage, Act.apply, ExceptT.run, Arena.onMemory]
    cases (Memory.map r arena.memory).1 <;> exact ⟨rfl, rfl, fun _ _ => rfl⟩
  | adding id => exact ⟨rfl, rfl, fun _ _ => rfl⟩
  | _ => exact ⟨rfl, rfl, fun _ _ => rfl⟩

/-- An act that sweeps a page makes of the pages and of the policy what the sweep does. -/
theorem act_sweeping (policy : Policy ρ) (aim : Aim) (id : PageId) (d : Depot ρ) :
    ((act policy (.sweeping aim id)).apply d).2.arena.memory.pages =
        (d.arena.sweepPage policy id).2.memory.pages ∧
      ((act policy (.sweeping aim id)).apply d).2.arena.memo =
        (d.arena.sweepPage policy id).2.memo := by
  rw [act]
  generalize hdone : d.arena.sweepPage policy id = done
  obtain ⟨result, a⟩ := done
  cases result with
  | error e =>
    rw [Act.apply_bind_error (Depot.apply_sweepPage hdone)]
    exact ⟨rfl, rfl⟩
  | ok swept =>
    obtain ⟨-, hmemo, hpages⟩ := weigh_silent aim id swept.1 swept.2 ⟨d.shelf, a⟩
    rw [Act.apply_bind_ok (Depot.apply_sweepPage hdone)]
    exact ⟨hpages, hmemo⟩

end Task

namespace SharedDepot

/-- A page counts as swept from the turn on in which it is swept, and in no other turn is the policy
asked anything. -/
theorem step_swept (policy : Policy ρ) (y : SharedDepot ρ) (u : Turn) :
    (y.step policy u).swept = y.swept ∧ (y.step policy u).depot.arena.memo = y.depot.arena.memo ∨
      ∃ id, (y.step policy u).swept = y.swept ++ [id] ∧
        (y.step policy u).depot.arena.memory.pages =
          (y.depot.arena.sweepPage policy id).2.memory.pages ∧
        (y.step policy u).depot.arena.memo = (y.depot.arena.sweepPage policy id).2.memo := by
  cases u with
  | call i c =>
    refine .inl ?_
    rw [step]
    split
    · exact ⟨rfl, rfl⟩
    · split_ifs <;> exact ⟨rfl, rfl⟩
  | act i =>
    rw [step, act]
    cases y.tasks[i]? with
    | none => exact .inl ⟨rfl, rfl⟩
    | some t =>
      cases t with
      | sweeping aim id => exact .inr ⟨id, rfl, Task.act_sweeping policy aim id y.depot⟩
      | _ => exact .inl ⟨List.append_nil _, (Task.act_silent policy rfl y.depot).2.1⟩

/-- Each page that counts as swept was swept in one of the turns. -/
theorem exists_sweep {y : SharedDepot ρ} {turns : List Turn} {id : PageId}
    (hid : id ∈ (run policy turns y).swept) (hnew : id ∉ y.swept) :
    ∃ before u after, turns = before ++ u :: after ∧
      (run policy (before ++ [u]) y).depot.arena.memory.pages =
        ((run policy before y).depot.arena.sweepPage policy id).2.memory.pages ∧
      (run policy (before ++ [u]) y).depot.arena.memo =
        ((run policy before y).depot.arena.sweepPage policy id).2.memo := by
  induction turns generalizing y with
  | nil => exact absurd hid hnew
  | cons u turns ih =>
    by_cases hstep : id ∈ (y.step policy u).swept
    · rcases step_swept policy y u with ⟨hsame, -⟩ | ⟨j, hswept, hpages, hmemo⟩
      · exact absurd (hsame ▸ hstep) hnew
      · rw [hswept] at hstep
        obtain rfl := List.mem_singleton.mp ((List.mem_append.mp hstep).resolve_left hnew)
        exact ⟨[], u, turns, rfl, hpages, hmemo⟩
    · obtain ⟨before, v, after, rfl, hsweep⟩ := ih hid hstep
      exact ⟨u :: before, v, after, rfl, hsweep⟩

end SharedDepot

end SweptHeap
