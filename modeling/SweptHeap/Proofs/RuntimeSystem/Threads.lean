import Mathlib
import SweptHeap.Proofs.RuntimeSystem.Basic

/-!
# What a thread of the runtime does

In one move a thread takes, sweeps or puts back a page, or goes on to its next chore. Whatever the
state of the heap, its queue grows by what the policy sends to finalizers meanwhile, it begins a
sweep only if a page waits, and it makes no page wait. The collector goes past a shelf only when no
page waits there.
-/

namespace SweptHeap

variable {ρ : Type}

/-! ### What is set aside -/

namespace Arena

variable {id : PageId} {a e : Arena (Diary ρ)} {queued : Array Nat}

/-- What is queued of a page is what the policy has sent to finalizers since `a`. -/
def Queues (id : PageId) (a e : Arena (Diary ρ)) (queued : Array Nat) : Prop :=
  e.found = a.found ∧ finalizing e.memo.notes = finalizing a.memo.notes ++
    queued.toList.map (⟨id, ·⟩)

theorem Queues.note (h : Queues id a e queued) {n : Note} {t : Tenant} {fate : Fate}
    (hn : n.answer = some (t, fate)) {i : Nat} (ht : t.ref = ⟨id, i⟩) :
    finalizing (e.memo.notes ++ [n]) =
      finalizing a.memo.notes ++ (fate.enqueue i queued).toList.map (⟨id, ·⟩) := by
  rw [finalizing_append, h.2, Fate.enqueue]
  by_cases hfate : fate = .finalize <;> simp [finalizing, answers, hn, hfate, ht]

theorem queues_ask (policy : Policy ρ) (s : Sight) (h : Queues id a e queued) :
    Queues id a (ask policy.noting id s e).2
      ((ask policy.noting id s e).1.fate.enqueue s.index queued) := by
  rw [ask_eq]
  exact ⟨h.1, h.note rfl rfl⟩

theorem queues_askRecord (policy : Policy ρ) (i : Nat) (r : Record) (h : Queues id a e queued) :
    Queues id a (askRecord policy.noting id i r e).2
      ((askRecord policy.noting id i r e).1.enqueue i queued) :=
  ⟨h.1, h.note rfl rfl⟩

/-- The sweep of a page, sound or not, sets aside what the policy sends to finalizers. -/
theorem sweepPage_sends (policy : Policy ρ) (id : PageId) (a : Arena (Diary ρ)) :
    ∃ sent, (a.sweepPage policy.noting id).2.found.toList = a.found.toList ++ sent ∧
      finalizing (a.sweepPage policy.noting id).2.memo.notes = finalizing a.memo.notes ++ sent := by
  obtain ⟨memory, memo, meter, sweepers, found⟩ := a
  cases hp : memory.page? id with
  | none =>
    simp only [sweepPage, Memory.borrow_eq, hp]
    exact ⟨[], (List.append_nil _).symm, (List.append_nil _).symm⟩
  | some p =>
    have hstart : Queues id ⟨memory, memo, meter, sweepers, found⟩
        ⟨memory.setPage id none, memo, meter, sweepers, found⟩ #[] := ⟨rfl, by simp⟩
    have hqueues := Page.kept_sweep (fun s e q => queues_ask policy s)
      (fun i r e q => queues_askRecord policy i r) p hstart
    simp only [sweepPage, Memory.borrow_eq, hp]
    generalize p.sweep (ask policy.noting id) (askRecord policy.noting id) _ = done at hqueues
    obtain ⟨p', ⟨memory', memo', meter', sweepers', ⟨items⟩⟩, tally, queued, empty, fault⟩ := done
    obtain ⟨rfl, hnotes⟩ := hqueues
    refine ⟨queued.toList.map (⟨id, ·⟩), ?_, ?_⟩
    · cases fault <;> simp [Handoff.toList, ← Array.foldl_toList]
    · cases fault <;> exact hnotes

end Arena

namespace Task

variable {t : Task}

/-- An act sets aside what the policy sends to finalizers. -/
theorem act_sends (policy : Policy ρ) (t : Task) (d : Depot (Diary ρ)) :
    ∃ sent, ((t.act policy.noting).apply d).2.arena.found.toList = d.arena.found.toList ++ sent ∧
      finalizing ((t.act policy.noting).apply d).2.arena.memo.notes =
        finalizing d.arena.memo.notes ++ sent ∧
      (t.sweeps = none → sent = []) := by
  cases hsweeps : t.sweeps with
  | none =>
    obtain ⟨hfound, hmemo, -⟩ := act_silent policy.noting hsweeps d
    rw [hfound, hmemo]
    exact ⟨[], (List.append_nil _).symm, (List.append_nil _).symm, fun _ => rfl⟩
  | some id =>
    obtain ⟨aim, rfl⟩ : ∃ aim, t = .sweeping aim id := by
      cases t with
      | sweeping aim j =>
        obtain rfl := Option.some.inj hsweeps
        exact ⟨aim, rfl⟩
      | _ => cases hsweeps
    obtain ⟨sent, hfound, hnotes⟩ := d.arena.sweepPage_sends policy id
    refine ⟨sent, ?_, ?_, nofun⟩
    all_goals
      rw [act]
      generalize hdone : d.arena.sweepPage policy.noting id = done at hfound hnotes
      obtain ⟨result, a⟩ := done
      cases result with
      | error e =>
        rw [Act.apply_bind_error (Depot.apply_sweepPage hdone)]
        assumption
      | ok swept =>
        obtain ⟨hfound', hmemo', -⟩ := weigh_silent aim id swept.1 swept.2 ⟨d.shelf, a⟩
        rw [Act.apply_bind_ok (Depot.apply_sweepPage hdone)]
        simp only [hfound', hmemo']
        assumption

/-- A thread has counted the pages of a shelf when no page waits there. -/
theorem unswept_of_counted (policy : Policy ρ) {t : Task} {d : Depot ρ} {tally : Tally}
    (hnext : t.next ((t.act policy).apply d).1 = .counted tally) :
    t = .counted tally ∨ d.shelf.unswept = #[] := by
  cases t with
  | counted tally' => exact .inl hnext
  | seeking aim =>
    rcases Depot.unswept_cases d.shelf with hw | ⟨rest, id, hw⟩
    · exact .inr hw
    · rw [act, Act.apply_bind_ok (Depot.apply_takeUnswept_push hw)] at hnext
      cases hnext
  | looking r epoch =>
    obtain ⟨result, s, heq, -⟩ := Depot.takeReady_cases r d
    rw [act] at hnext
    rcases result with e | (_ | id)
    · rw [Act.apply_bind_error heq] at hnext
      cases hnext
    · rw [Act.apply_bind_ok heq] at hnext
      cases hnext
    · rw [Act.apply_bind_ok heq] at hnext
      cases hnext
  | sweeping aim id =>
    rw [act] at hnext
    generalize hdone : d.arena.sweepPage policy id = done at hnext
    obtain ⟨e | swept, a⟩ := done
    · rw [Act.apply_bind_error (Depot.apply_sweepPage hdone)] at hnext
      cases hnext
    · obtain ⟨result, a', heq, -, hresult⟩ := weigh_cases aim id swept.1 swept.2 ⟨d.shelf, a⟩
      rw [Act.apply_bind_ok (Depot.apply_sweepPage hdone)] at hnext
      dsimp only at hnext
      rw [heq] at hnext
      rcases hresult with ⟨e, rfl⟩ | ⟨aim', flag, rfl⟩ <;> cases hnext
  | placing aim id flag => cases aim <;> cases flag <;> cases hnext
  | leaving aim result => cases result <;> cases hnext
  | reusing r =>
    rw [act, Act.apply_bind_ok (Depot.apply_onShelf _ d)] at hnext
    generalize d.shelf.takeEmpty.1 = found at hnext
    cases found <;> cases hnext
  | mapping r =>
    rw [act, Act.apply_bind] at hnext
    generalize (mapPage r).apply d = done at hnext
    obtain ⟨e | id, d'⟩ := done <;> cases hnext
  | adding id => cases hnext
  | idle => cases hnext
  | got id => cases hnext
  | stuck fault held => cases hnext

end Task

/-! ### What a thread does in one move -/

namespace Sweeper

variable {s s' : Sweeper} {h h' : Heap (Diary ρ)} {sent : List BlockRef}

/-- One move of a thread. It sets aside what the policy sends to finalizers, and while no page waits
nobody begins a sweep. -/
structure Goes (s : Sweeper) (h : Heap (Diary ρ)) (s' : Sweeper) (h' : Heap (Diary ρ))
    (sent : List BlockRef) : Prop where
  queue_eq : s'.queue = s.queue ++ sent
  answered_eq : finalizing h'.notes = finalizing h.notes ++ sent
  pending_eq : h'.pending = h.pending
  sweepers : h'.arena.sweepers + s.task.isSweeping.toNat = h.arena.sweepers +
    s'.task.isSweeping.toNat
  unswept : ∀ k, (h.shelf k).unswept = #[] → (h'.shelf k).unswept = #[]
  settled : h.Settled → s.task.isSweeping = false → s'.task.isSweeping = false ∧ sent = []

/-- A move that has nothing to do with sweeps. -/
theorem Goes.of_eq (hqueue : s'.queue = s.queue)
    (hsweeping : s'.task.isSweeping = s.task.isSweeping) (hmemo : h'.arena.memo = h.arena.memo)
    (hpending : h'.pending = h.pending) (hsweepers : h'.arena.sweepers = h.arena.sweepers)
    (hshelf : ∀ k, h'.shelf k = h.shelf k) : s.Goes h s' h' [] where
  queue_eq := by rw [hqueue, List.append_nil]
  answered_eq := by rw [Heap.notes, hmemo, List.append_nil]; rfl
  pending_eq := hpending
  sweepers := by rw [hsweepers, hsweeping]
  unswept k hk := by rw [hshelf, hk]
  settled _ hs := ⟨hsweeping.trans hs, rfl⟩

/-- An act works on the depot of the shelf. -/
theorem act_eq (policy : Policy ρ) (s : Sweeper) (h : Heap ρ) :
    s.act policy h =
      ({ s with
          task := s.task.next ((s.task.act policy).apply (h.depot s.place)).1
          queue :=
            s.queue ++ (((s.task.act policy).apply (h.depot s.place)).2.arena.found.toList.drop
            h.arena.found.toList.length) },
        h.setDepot s.place ((s.task.act policy).apply (h.depot s.place)).2) := by
  have happly : (Heap.atShelf s.place (s.task.act policy)).apply h =
      (((s.task.act policy).apply (h.depot s.place)).1,
        h.setDepot s.place ((s.task.act policy).apply (h.depot s.place)).2) :=
    Heap.apply_atShelf rfl
  rw [act, happly, Heap.setDepot_arena]

theorem goes_act (policy : Policy ρ) (hplace : s.place.key ∈ Heap.allRequests)
    (hcounted : s.task.isSweeping = true → 0 < h.arena.sweepers) :
    ∃ sent, s.Goes h (s.act policy.noting h).1 (s.act policy.noting h).2 sent := by
  obtain ⟨sent, hfound, hnotes, hsweeps⟩ := s.task.act_sends policy (h.depot s.place)
  have hmoves := Task.moves_act policy.noting s.task (h.depot s.place) hcounted
  have hunswept (hnil : (h.shelf s.place).unswept = #[]) :
      ((s.task.act policy.noting).apply (h.depot s.place)).2.shelf.unswept = #[] := by
    have hperm := hmoves.unswept
    rw [show (h.depot s.place).shelf.unswept = #[] from hnil] at hperm
    exact Array.toList_eq_nil_iff.mp (List.append_eq_nil_iff.mp hperm.eq_nil).1
  have hbegins (hsettled : h.Settled) (hs : s.task.isSweeping = false) :
      (s.task.next ((s.task.act policy.noting).apply (h.depot s.place)).1).isSweeping = false := by
    have hnone := Task.sweeps_eq_none hs
    have hnil : (h.depot s.place).shelf.unswept = #[] := by
      rw [Heap.depot, ← Heap.shelf_key]
      exact hsettled _ hplace
    have hsame := (Task.act_silent policy.noting hnone (h.depot s.place)).2.2 hnil hs
    have hcount := hmoves.sweepers
    rw [hsame, hs] at hcount
    exact Bool.toNat_eq_zero.mp (Nat.add_left_cancel hcount).symm
  refine ⟨sent, ?_⟩
  rw [act_eq]
  refine ⟨?_, ?_, Heap.setDepot_pending _, ?_, fun k hk => Heap.unswept_setDepot hunswept hk,
    fun hsettled hs => ⟨hbegins hsettled hs, hsweeps (Task.sweeps_eq_none hs)⟩⟩
  · rw [hfound]
    simp [Heap.depot]
  · rw [Heap.notes, Heap.setDepot_arena, hnotes]
    rfl
  · rw [Heap.setDepot_arena]
    exact hmoves.sweepers

/-- The shelf of the thread and those of its chores exist. -/
structure Placed (s : Sweeper) : Prop where
  place : s.place.key ∈ Heap.allRequests
  chores : ∀ r, .sweep r ∈ s.chores → r.key ∈ Heap.allRequests

theorem goes_toil (policy : Policy ρ) (epoch : Int) (hplaced : s.Placed)
    (hcounted : s.task.isSweeping = true → 0 < h.arena.sweepers) :
    ∃ sent, s.Goes h (s.toil policy.noting epoch h).1 (s.toil policy.noting epoch h).2 sent := by
  obtain ⟨chores, tally, place, task, queue⟩ := s
  cases task with
  | idle =>
    refine ⟨[], ?_⟩
    cases chores with
    | nil => exact .of_eq rfl rfl rfl rfl rfl fun _ => rfl
    | cons c rest => cases c <;> exact .of_eq rfl rfl rfl rfl rfl fun _ => rfl
  | counted tally' => exact ⟨[], .of_eq rfl rfl rfl rfl rfl fun _ => rfl⟩
  | _ => exact goes_act policy hplaced.place hcounted

theorem Placed.act (hplaced : s.Placed) (policy : Policy ρ) (h : Heap ρ) :
    (s.act policy h).1.Placed :=
  ⟨hplaced.place, hplaced.chores⟩

theorem Placed.toil (hplaced : s.Placed) (policy : Policy ρ) (epoch : Int) (h : Heap ρ) :
    (s.toil policy epoch h).1.Placed := by
  obtain ⟨chores, tally, place, task, queue⟩ := s
  cases task with
  | idle =>
    cases chores with
    | nil => exact hplaced
    | cons c rest =>
      have hrest : ∀ r, .sweep r ∈ rest → r.key ∈ Heap.allRequests := fun r hr =>
        hplaced.chores r (List.mem_cons_of_mem _ hr)
      cases c with
      | sweep r => exact ⟨hplaced.chores r List.mem_cons_self, hplaced.chores⟩
      | free => exact ⟨Heap.mem_allRequests.mpr (.inr (.inr (.inl rfl))), hplaced.chores⟩
      | commit => exact ⟨hplaced.place, hrest⟩
      | report site => exact ⟨hplaced.place, hrest⟩
  | counted tally' => exact ⟨hplaced.place, fun r hr => hplaced.chores r (List.mem_of_mem_tail hr)⟩
  | _ => exact hplaced.act policy h

/-! ### Past shelves -/

/-- The collector has seen to the shelves that its chores no longer name: no page waits there. -/
structure Diligent (s : Sweeper) (h : Heap ρ) : Prop where
  fit : Chore.Fit s.chores
  at_work : s.task = .idle ∨ s.place ∈ Heap.allRequests ∧ ∃ rest,
    s.chores = .ofRequest s.place :: rest
  counted : ∀ tally, s.task = .counted tally → (h.shelf s.place).unswept = #[]
  past : ∀ k ∈ Heap.allRequests, .ofRequest k ∉ s.chores → (h.shelf k).unswept = #[]

theorem Diligent.mono {h h' : Heap ρ} (hd : s.Diligent h)
    (hunswept : ∀ k ∈ Heap.allRequests, (h.shelf k).unswept = #[] → (h'.shelf k).unswept = #[]) :
    s.Diligent h' where
  fit := hd.fit
  at_work := hd.at_work
  counted tally ht := by
    have hplace := (hd.at_work.resolve_left (by rw [ht]; nofun)).1
    exact hunswept _ hplace (hd.counted tally ht)
  past k hk hpast := hunswept k hk (hd.past k hk hpast)

theorem diligent_collector (h : Heap ρ) : collector.Diligent h where
  fit := Hand.fit_collector
  at_work := .inl rfl
  counted := nofun
  past k hk hpast := by
    refine absurd ?_ hpast
    rcases List.mem_append.mp hk with hk | hk
    · exact Hand.mem_collector (List.mem_append_left _ hk)
    · simp only [List.mem_cons, List.not_mem_nil, or_false] at hk
      rcases hk with rfl | rfl | rfl <;> simp [collector, Hand.collector, Chore.ofRequest]

/-- A chore that is no sweep leaves nothing behind. -/
theorem past_of_cons {h : Heap ρ} {c : Chore} {rest : List Chore}
    (hpast : ∀ k ∈ Heap.allRequests, .ofRequest k ∉ c :: rest → (h.shelf k).unswept = #[])
    (hc : ∀ r, c ≠ .sweep r) (hfree : c ≠ .free) :
    ∀ k ∈ Heap.allRequests, .ofRequest k ∉ rest → (h.shelf k).unswept = #[] := by
  intro k hk hrest
  refine hpast k hk ?_
  rw [List.mem_cons, not_or, Chore.ofRequest]
  refine ⟨?_, hrest⟩
  split_ifs
  · exact hfree.symm
  · exact (hc k).symm

theorem Diligent.act (hd : s.Diligent h) (policy : Policy ρ) (hidle : s.task ≠ .idle)
    (hcounted : ∀ tally, s.task ≠ .counted tally)
    (hgoes : s.Goes h (s.act policy.noting h).1 (s.act policy.noting h).2 sent) :
    (s.act policy.noting h).1.Diligent (s.act policy.noting h).2 := by
  have hafter := hd.mono fun k _ => hgoes.unswept k
  refine ⟨hd.fit, .inr (hd.at_work.resolve_left hidle), fun tally ht => ?_, hafter.past⟩
  rw [act_eq] at ht
  have hcleared := (Task.unswept_of_counted policy.noting ht).resolve_left (hcounted tally)
  exact hgoes.unswept s.place hcleared

theorem Diligent.toil (hd : s.Diligent h) (policy : Policy ρ) (epoch : Int)
    (hgoes : s.Goes h (s.toil policy.noting epoch h).1 (s.toil policy.noting epoch h).2 sent) :
    (s.toil policy.noting epoch h).1.Diligent (s.toil policy.noting epoch h).2 := by
  have hafter := hd.mono fun k _ => hgoes.unswept k
  obtain ⟨chores, tally, place, task, queue⟩ := s
  cases task with
  | idle =>
    cases chores with
    | nil => exact hafter
    | cons c rest =>
      cases c with
      | sweep r =>
        obtain ⟨⟨hr, hlarge, -⟩, -⟩ := hd.fit
        have hchore : Chore.sweep r :: rest = .ofRequest r :: rest := by
          rw [Chore.ofRequest, if_neg hlarge]
        exact ⟨hd.fit, .inr ⟨hr, rest, hchore⟩, by rintro _ ⟨⟩, hd.past⟩
      | free =>
        exact ⟨hd.fit, .inr ⟨Heap.mem_allRequests.mpr (.inr (.inr (.inl rfl))), rest, rfl⟩,
          by rintro _ ⟨⟩, hd.past⟩
      | commit =>
        exact ⟨hd.fit.tail, .inl rfl, by rintro _ ⟨⟩, past_of_cons hafter.past (by simp) (by simp)⟩
      | report site =>
        exact ⟨hd.fit.tail, .inl rfl, by rintro _ ⟨⟩, past_of_cons hafter.past (by simp) (by simp)⟩
  | counted tally' =>
    obtain ⟨hplace, rest, hchores⟩ := hd.at_work.resolve_left (by simp)
    obtain rfl : chores = .ofRequest place :: rest := hchores
    refine ⟨hd.fit.tail, .inl rfl, by rintro _ ⟨⟩, fun k hk hpast => ?_⟩
    by_cases he : k = place
    · exact he ▸ hd.counted tally' rfl
    · refine hd.past k hk ?_
      rw [List.mem_cons, not_or]
      exact ⟨fun heq => he (Chore.ofRequest_inj hk hplace heq), hpast⟩
  | _ => exact hd.act policy (by simp) (by simp) hgoes

end Sweeper

end SweptHeap
