import Mathlib
import SweptHeap.Proofs.Heap.Sieving

/-!
# Several hands at one sweep

The hands of an assisted sweep work on one heap together. Each of them has a list of chores: the
collector goes over all shelves, an assistant over those of the uniform pages and from the other
end. In one turn a hand takes one page of the shelf it is at, sweeps it and puts it in its place, or
goes on to its next chore.

Every hand has a tally and a queue of its own. What the sweeps set aside also stays in the arena,
where a hand that works alone finds it in the end: left alone, a hand does turn by turn what
`Heap.sweep` and `Heap.assist` do in one go (`sweep_alone`, `assist_alone`).
-/

namespace SweptHeap

/-- A part of a sweep. -/
inductive Chore where
  /-- Sweep the shelf of a request. -/
  | sweep (r : Request)
  /-- Sweep the large pages, and unmap those without a block. -/
  | free
  /-- Count the bytes of the tally as in use. -/
  | commit
  /-- Report the tally, and begin a new one. -/
  | report (site : SweepSite)
  deriving DecidableEq

/-- What becomes of the tally and of the heap in a chore that sweeps no page. -/
def Chore.settle {ρ : Type} (epoch : Int) (tally : Tally) (h : Heap ρ) : Chore → Tally × Heap ρ
  | .commit => (tally, { h with arena := (h.arena.addBytes tally.liveBytes).2 })
  | .report site => ({}, { h with arena := h.arena.reportSweep epoch site tally })
  | .sweep _ | .free => (tally, h)

structure Hand where
  chores : List Chore
  tally : Tally := {}
  /-- Large pages unmapped so far. -/
  freed : Nat := 0
  queue : List BlockRef := []

namespace Hand

/-- Sweeps everything, first the objects, then the records. -/
def collector : Hand where
  chores := (Heap.uniformRequests ++ [(⟨.tiled, 0⟩ : Request)]).map .sweep ++
    [.free, .commit, .report .objects, .sweep ⟨.records, 0⟩, .report .records]

/-- Sweeps the uniform pages, the largest blocks first. -/
def assistant : Hand where
  chores := Heap.uniformRequests.reverse.map .sweep ++ [.commit, .report .assist]

variable {ρ : Type}

/-- One turn of a hand. -/
def turn (policy : Policy ρ) (epoch : Int) (hand : Hand) : Act (Heap ρ) Hand := do
  let h ← get
  match hand.chores with
  | [] => return hand
  | .sweep r :: rest =>
    if (h.shelf r).unswept.isEmpty then return { hand with chores := rest }
    else
      let tally ← Heap.atShelf r (Depot.sweepLeft policy 1 hand.tally)
      return { hand with tally := tally }
  | .free :: rest =>
    if h.large.unswept.isEmpty then
      if 0 < hand.freed then Heap.modifyArena (·.report (.freed .large hand.freed))
      return { hand with chores := rest, freed := 0 }
    else
      let (tally, freed) ← Heap.atShelf ⟨.large, 0⟩
        (Depot.sweepFreeing policy 1 hand.freed hand.tally)
      return { hand with tally := tally, freed := freed }
  | c :: rest =>
    let tally ← modifyGet fun h => c.settle epoch hand.tally h
    return { hand with chores := rest, tally := tally }

/-- A turn puts what it sets aside into the queue of the hand. -/
def gather (before after : Heap ρ) (hand : Hand) : Hand :=
  { hand with
    queue := hand.queue ++ after.arena.found.toList.drop before.arena.found.toList.length }

end Hand

namespace Chore

/-- The chore of sweeping the shelf of a request. -/
def ofRequest (r : Request) : Chore := if r.kind = .large then .free else .sweep r

theorem ofRequest_inj {k k' : Request} (hk : k ∈ Heap.allRequests) (hk' : k' ∈ Heap.allRequests)
    (h : ofRequest k = ofRequest k') : k = k' := by
  simp only [ofRequest] at h
  split_ifs at h with hlarge hlarge'
  · rw [← Heap.key_eq_of_mem hk, ← Heap.key_eq_of_mem hk']
    obtain ⟨kind, cells⟩ := k
    obtain ⟨kind', cells'⟩ := k'
    obtain rfl : kind = _ := hlarge
    obtain rfl : kind' = _ := hlarge'
    rfl
  · exact Chore.sweep.inj h

/-- Chores that make sense one after the other: the bytes of blocks, and of nothing else, are
counted once the blocks have been swept. -/
def Fit : List Chore → Prop
  | [] => True
  | .sweep r :: rest =>
    (r ∈ Heap.allRequests ∧ r.kind ≠ .large ∧ (r.kind = .records ↔ .commit ∉ rest)) ∧ Fit rest
  | .free :: rest => .commit ∈ rest ∧ Fit rest
  | .commit :: rest => .commit ∉ rest ∧ Fit rest
  | .report _ :: rest => .commit ∉ rest ∧ Fit rest

theorem Fit.tail {c : Chore} {rest : List Chore} (h : Fit (c :: rest)) : Fit rest := by
  cases c <;> exact h.2

theorem Fit.suffix {chores rest : List Chore} (h : Fit chores) (hs : rest <:+ chores) :
    Fit rest := by
  induction chores with
  | nil => exact List.suffix_nil.mp hs ▸ trivial
  | cons c chores ih =>
    rcases List.suffix_cons_iff.mp hs with rfl | hs
    · exact h
    · exact ih h.tail hs

theorem fit_sweeps {requests : List Request} {rest : List Chore}
    (hr : ∀ r ∈ requests, r ∈ Heap.blockRequests ∧ r.kind ≠ .large) (hcommit : .commit ∈ rest)
    (hrest : Fit rest) : Fit (requests.map .sweep ++ rest) := by
  induction requests with
  | nil => exact hrest
  | cons r requests ih =>
    obtain ⟨hblock, hlarge⟩ := hr r List.mem_cons_self
    obtain ⟨hmem, hrecords⟩ := Heap.mem_blockRequests.mp hblock
    refine ⟨⟨hmem, hlarge, fun he => absurd he hrecords, fun hnot => ?_⟩,
      ih fun r' hr' => hr r' (List.mem_cons_of_mem _ hr')⟩
    exact absurd (List.mem_append_right _ hcommit) hnot

end Chore

structure AssistedSweep (ρ : Type) where
  heap : Heap ρ
  hands : List Hand
  /-- What ended a hand before its time. -/
  faults : List Fault := []

namespace AssistedSweep

variable {ρ : Type}

/-- The collector and some assistants. -/
def new (h : Heap ρ) (assistants : Nat) : AssistedSweep ρ where
  heap := h
  hands := .collector :: List.replicate assistants .assistant

/-- Lets the hand at position `i` have a turn. -/
def step (policy : Policy ρ) (epoch : Int) (g : AssistedSweep ρ) (i : Nat) : AssistedSweep ρ :=
  match g.hands[i]? with
  | none => g
  | some hand =>
    match (hand.turn policy epoch).apply g.heap with
    | (.ok hand, h) => { g with heap := h, hands := g.hands.set i (hand.gather g.heap h) }
    | (.error e, h) =>
      { heap := h, hands := g.hands.set i { hand with chores := [] }, faults := g.faults ++ [e] }

def run (policy : Policy ρ) (epoch : Int) (turns : List Nat) (g : AssistedSweep ρ) :
    AssistedSweep ρ :=
  turns.foldl (step policy epoch) g

/-- Every hand has done its chores. -/
def Done (g : AssistedSweep ρ) : Prop := ∀ hand ∈ g.hands, hand.chores = []

/-- The queues of all hands. -/
def queues (g : AssistedSweep ρ) : List BlockRef := g.hands.flatMap Hand.queue

theorem run_append (policy : Policy ρ) (epoch : Int) (turns more : List Nat) (g : AssistedSweep ρ) :
    run policy epoch (turns ++ more) g = run policy epoch more (run policy epoch turns g) :=
  List.foldl_append

end AssistedSweep

theorem Heap.large_mem : (⟨.large, 0⟩ : Request) ∈ Heap.allRequests :=
  Heap.mem_allRequests.mpr (.inr (.inr (.inl rfl)))

namespace Hand

variable {ρ : Type} {policy : Policy ρ} {epoch : Int} {hand : Hand} {h h' : Heap ρ} {k : Request}

theorem fit_collector : Chore.Fit collector.chores := by
  refine Chore.fit_sweeps (fun r hr => ?_) (by simp) ?_
  · rcases List.mem_append.mp hr with hr | hr
    · exact Heap.mem_of_uniform hr
    · obtain rfl := List.mem_singleton.mp hr
      exact ⟨Heap.mem_blockRequests.mpr ⟨Heap.mem_allRequests.mpr (.inr (.inl rfl)), by simp⟩,
        by simp⟩
  · have hrecords : (⟨.records, 0⟩ : Request) ∈ Heap.allRequests :=
      Heap.mem_allRequests.mpr (.inr (.inr (.inr rfl)))
    simp [Chore.Fit, hrecords]

theorem fit_assistant : Chore.Fit assistant.chores := by
  refine Chore.fit_sweeps (fun r hr => Heap.mem_of_uniform (List.mem_reverse.mp hr)) (by simp) ?_
  simp [Chore.Fit]

/-- The collector goes over all pages of blocks. -/
theorem mem_collector (hk : k ∈ Heap.blockRequests) : .ofRequest k ∈ collector.chores := by
  rcases List.mem_append.mp hk with hk | hk
  · rw [Chore.ofRequest, if_neg (Heap.mem_of_uniform hk).2]
    exact List.mem_append_left _ (List.mem_map_of_mem (List.mem_append_left _ hk))
  · simp only [List.mem_cons, List.not_mem_nil, or_false] at hk
    rcases hk with rfl | rfl <;> simp [collector, Chore.ofRequest]

/-! ### One hand alone -/

open Relation (ReflTransGen)

/-- The hand has a turn. -/
def Acts (policy : Policy ρ) (epoch : Int) (x y : Hand × Heap ρ) : Prop :=
  ∃ hand, (x.1.turn policy epoch).apply x.2 = (.ok hand, y.2) ∧ y.1 = hand.gather x.2 y.2

theorem gather_eq {extra : List BlockRef}
    (hfound : h'.arena.found.toList = h.arena.found.toList ++ extra) (hand : Hand) :
    hand.gather h h' = { hand with queue := hand.queue ++ extra } := by
  rw [gather, hfound, List.drop_left]

/-- A turn that sets nothing aside. -/
theorem acts_of_quiet {hand' : Hand} (hturn : (hand.turn policy epoch).apply h = (.ok hand', h'))
    (hfound : h'.arena.found = h.arena.found) : Acts policy epoch (hand, h) (hand', h') := by
  refine ⟨hand', hturn, ?_⟩
  have hnothing : h'.arena.found.toList = h.arena.found.toList ++ [] := by
    rw [hfound, List.append_nil]
  rw [gather_eq hnothing, List.append_nil]

/-- A turn that sweeps a page sets aside what the page has for finalizers. -/
theorem acts_of_sieves {id : PageId} {p : Page} {hearings : List Hearing}
    {d : Depot ρ} {chores : List Chore} {tally tally' : Tally} {freed freed' : Nat}
    {queue : List BlockRef} (hsieves : Depot.Sieves policy k id p hearings (h.depot k) d)
    (hturn : (turn policy epoch ⟨chores, tally, freed, queue⟩).apply h =
      (.ok ⟨chores, tally', freed', queue⟩, h.setDepot k d)) :
    Acts policy epoch (⟨chores, tally, freed, queue⟩, h)
      (⟨chores, tally', freed', queue ++ (toFinalize hearings).map (⟨id, ·⟩)⟩, h.setDepot k d) := by
  have hfound : (h.setDepot k d).arena.found.toList =
      h.arena.found.toList ++ (toFinalize hearings).map (⟨id, ·⟩) := by
    rw [Heap.setDepot_arena]
    exact hsieves.found_eq
  exact ⟨_, hturn, (gather_eq hfound ⟨chores, tally', freed', queue⟩).symm⟩

theorem acts_page (policy : Policy ρ) (epoch : Int) (hs : h.Sound) (hk : k ∈ Heap.allRequests)
    (hlarge : k.kind ≠ .large) {unswept : Array PageId} {id : PageId}
    (hw : (h.shelf k).unswept = unswept.push id) (rest : List Chore) (tally : Tally) (freed : Nat)
    (queue : List BlockRef) :
    ∃ p hearings tally' d, Depot.Sieves policy k id p hearings (h.depot k) d ∧
      Depot.Tallies k tally tally' (h.depot k) d ∧
      (∀ left, (Depot.sweepLeft policy (left + 1) tally).apply (h.depot k) =
        (Depot.sweepLeft policy left tally').apply d) ∧
      Acts policy epoch (⟨.sweep k :: rest, tally, freed, queue⟩, h)
        (⟨.sweep k :: rest, tally', freed, queue ++ (toFinalize hearings).map (⟨id, ·⟩)⟩,
          h.setDepot k d) := by
  obtain ⟨p, hearings, tally', d, hsieves, htallies, hleft⟩ :=
    Depot.sweepLeft_page policy (hs.good k hk) hlarge hw tally
  refine ⟨p, hearings, tally', d, hsieves, htallies, hleft, acts_of_sieves hsieves ?_⟩
  simp only [turn, Act.apply_get_bind, hw, Array.isEmpty_push]
  rw [if_neg (by simp), Act.apply_bind_ok (Heap.apply_atShelf (hleft 0))]
  rfl

/-- The same for the large pages. -/
theorem acts_freePage (policy : Policy ρ) (epoch : Int) (hs : h.Sound)
    {unswept : Array PageId} {id : PageId} (hw : h.large.unswept = unswept.push id)
    (rest : List Chore) (tally : Tally) (freed : Nat) (queue : List BlockRef) :
    ∃ p hearings freed' tally' d,
      Depot.Sieves policy ⟨.large, 0⟩ id p hearings (h.depot ⟨.large, 0⟩) d ∧
      Depot.Tallies ⟨.large, 0⟩ tally tally' (h.depot ⟨.large, 0⟩) d ∧
      (∀ left, (Depot.sweepFreeing policy (left + 1) freed tally).apply (h.depot ⟨.large, 0⟩) =
        (Depot.sweepFreeing policy left freed' tally').apply d) ∧
      Acts policy epoch (⟨.free :: rest, tally, freed, queue⟩, h)
        (⟨.free :: rest, tally', freed', queue ++ (toFinalize hearings).map (⟨id, ·⟩)⟩,
          h.setDepot ⟨.large, 0⟩ d) := by
  obtain ⟨p, hearings, freed', tally', d, hsieves, htallies, hleft⟩ :=
    Depot.sweepFreeing_page policy (hs.good _ Heap.large_mem) rfl hw freed tally
  refine ⟨p, hearings, freed', tally', d, hsieves, htallies, hleft, acts_of_sieves hsieves ?_⟩
  simp only [turn, Act.apply_get_bind, hw, Array.isEmpty_push]
  rw [if_neg (by simp), Act.apply_bind_ok (Heap.apply_atShelf (hleft 0))]
  rfl

/-- A hand that sweeps a shelf alone makes of it what `Depot.sweep` does. -/
theorem acts_sweep (policy : Policy ρ) (epoch : Int) (hs : h.Sound) (hk : k ∈ Heap.allRequests)
    (hlarge : k.kind ≠ .large) (rest : List Chore) (tally : Tally) (freed : Nat)
    (queue : List BlockRef) :
    ∃ tally' d extra, (Depot.sweep policy tally).apply (h.depot k) = (.ok tally', d) ∧
      (h.setDepot k d).Sound ∧ d.arena.found.toList = h.arena.found.toList ++ extra ∧
      ReflTransGen (Acts policy epoch) (⟨.sweep k :: rest, tally, freed, queue⟩, h)
        (⟨rest, tally', freed, queue ++ extra⟩, h.setDepot k d) := by
  simp only [Depot.sweep, Act.apply_get_bind]
  generalize hn : (h.depot k).shelf.unswept.size = n
  induction n generalizing h tally queue with
  | zero =>
    have hnone : (h.shelf k).unswept = #[] := Array.size_eq_zero_iff.mp hn
    refine ⟨tally, h.depot k, [], rfl, ?_, (List.append_nil _).symm, .single ?_⟩
    · rwa [Heap.setDepot_depot]
    · rw [Heap.setDepot_depot, List.append_nil]
      refine acts_of_quiet ?_ rfl
      simp only [turn, Act.apply_get_bind, hnone]
      rfl
  | succ n ih =>
    obtain hnone | ⟨unswept, id, hw⟩ := Depot.unswept_cases (h.shelf k)
    · simp [Heap.depot, hnone] at hn
    · obtain ⟨p, hearings, tally₁, d, hsieves, -, hleft, hact⟩ :=
        acts_page policy epoch hs hk hlarge hw rest tally freed queue
      have hdepot : (h.setDepot k d).depot k = d := Heap.depot_setDepot hs.size_eq hk d
      obtain ⟨tally', d', extra, hrest, hsound, hfound, hacts⟩ :=
        ih ((Heap.Tidy.shelf hk hsieves.tidy).sound hs) tally₁ _ (hdepot.symm ▸ hsieves.size_eq hn)
      rw [hdepot] at hrest
      rw [Heap.setDepot_setDepot] at hsound hacts
      refine ⟨tally', d', (toFinalize hearings).map (⟨id, ·⟩) ++ extra,
        (hleft n).trans hrest, hsound, ?_, .head hact ?_⟩
      · rw [hfound, Heap.setDepot_arena, hsieves.found_eq, List.append_assoc]
        rfl
      · rwa [List.append_assoc] at hacts

/-- The same for the large pages, up to the report. -/
theorem acts_freeing (policy : Policy ρ) (epoch : Int) (hs : h.Sound) (rest : List Chore)
    (tally : Tally) (freed : Nat) (queue : List BlockRef) :
    ∃ tally' freed' d extra,
      (Depot.sweepFreeing policy (h.depot ⟨.large, 0⟩).shelf.unswept.size freed tally).apply
        (h.depot ⟨.large, 0⟩) = (.ok (tally', freed'), d) ∧
      (h.setDepot ⟨.large, 0⟩ d).Sound ∧ d.arena.found.toList = h.arena.found.toList ++ extra ∧
      d.shelf.unswept = #[] ∧
      ReflTransGen (Acts policy epoch) (⟨.free :: rest, tally, freed, queue⟩, h)
        (⟨.free :: rest, tally', freed', queue ++ extra⟩, h.setDepot ⟨.large, 0⟩ d) := by
  generalize hn : (h.depot ⟨.large, 0⟩).shelf.unswept.size = n
  induction n generalizing h tally freed queue with
  | zero =>
    have hnone : h.large.unswept = #[] := Array.size_eq_zero_iff.mp hn
    refine ⟨tally, freed, h.depot ⟨.large, 0⟩, [], rfl, ?_, (List.append_nil _).symm, hnone, ?_⟩
    · rwa [Heap.setDepot_depot]
    · rw [Heap.setDepot_depot, List.append_nil]
  | succ n ih =>
    obtain hnone | ⟨unswept, id, hw⟩ := Depot.unswept_cases h.large
    · simp [Heap.depot, Heap.shelf, hnone] at hn
    · obtain ⟨p, hearings, freed₁, tally₁, d, hsieves, -, hleft, hact⟩ :=
        acts_freePage policy epoch hs hw rest tally freed queue
      have hdepot : (h.setDepot ⟨.large, 0⟩ d).depot ⟨.large, 0⟩ = d :=
        Heap.depot_setDepot hs.size_eq Heap.large_mem d
      obtain ⟨tally', freed', d', extra, hrest, hsound, hfound, hnone, hacts⟩ :=
        ih ((Heap.Tidy.shelf Heap.large_mem hsieves.tidy).sound hs) tally₁ freed₁ _
          (hdepot.symm ▸ hsieves.size_eq hn)
      rw [hdepot] at hrest
      rw [Heap.setDepot_setDepot] at hsound hacts
      refine ⟨tally', freed', d', (toFinalize hearings).map (⟨id, ·⟩) ++ extra,
        (hleft n).trans hrest, hsound, ?_, hnone, .head hact ?_⟩
      · rw [hfound, Heap.setDepot_arena, hsieves.found_eq, List.append_assoc]
        rfl
      · rwa [List.append_assoc] at hacts

/-- What `Depot.sweepAndFree` leaves behind, given what became of the pages. -/
def reported (freed : Nat) (d : Depot ρ) : Depot ρ :=
  if 0 < freed then ⟨d.shelf, d.arena.report (.freed .large freed)⟩ else d

theorem found_reported (freed : Nat) (d : Depot ρ) :
    (reported freed d).arena.found = d.arena.found := by
  unfold reported
  split_ifs <;> rfl

theorem acts_free (policy : Policy ρ) (epoch : Int) (hs : h.Sound) (rest : List Chore)
    (tally : Tally) (freed : Nat) (queue : List BlockRef) :
    ∃ tally' freed' d extra,
      (Depot.sweepFreeing policy (h.depot ⟨.large, 0⟩).shelf.unswept.size freed tally).apply
        (h.depot ⟨.large, 0⟩) = (.ok (tally', freed'), d) ∧
      (h.setDepot ⟨.large, 0⟩ (reported freed' d)).Sound ∧
      d.arena.found.toList = h.arena.found.toList ++ extra ∧
      ReflTransGen (Acts policy epoch) (⟨.free :: rest, tally, freed, queue⟩, h)
        (⟨rest, tally', 0, queue ++ extra⟩, h.setDepot ⟨.large, 0⟩ (reported freed' d)) := by
  obtain ⟨tally', freed', d, extra, hfreeing, hsound, hfound, hnone, hacts⟩ :=
    acts_freeing policy epoch hs rest tally freed queue
  have hturn : (turn policy epoch ⟨.free :: rest, tally', freed', queue ++ extra⟩).apply
      (h.setDepot ⟨.large, 0⟩ d) =
        (.ok ⟨rest, tally', 0, queue ++ extra⟩, h.setDepot ⟨.large, 0⟩ (reported freed' d)) := by
    have hlarge : (h.setDepot ⟨.large, 0⟩ d).large.unswept = #[] := hnone
    simp only [turn, Act.apply_get_bind, hlarge, Array.isEmpty_empty, if_true, reported]
    split_ifs <;> rfl
  refine ⟨tally', freed', d, extra, hfreeing, ?_, hfound, hacts.tail (acts_of_quiet hturn ?_)⟩
  · unfold reported
    split_ifs
    · exact hsound.amends (.of_eq rfl)
    · exact hsound
  · rw [Heap.setDepot_arena, found_reported, Heap.setDepot_arena]

/-- A hand that sweeps shelves one after the other. -/
theorem acts_sweeps (policy : Policy ρ) (epoch : Int) {requests : List Request} (hs : h.Sound)
    (hr : ∀ k ∈ requests, k ∈ Heap.allRequests ∧ k.kind ≠ .large) (rest : List Chore)
    (tally : Tally) (freed : Nat) (queue : List BlockRef) :
    ∃ tally' h' extra,
      (Heap.sweepShelves policy requests tally).apply h = (.ok tally', h') ∧ h'.Sound ∧
      h'.arena.found.toList = h.arena.found.toList ++ extra ∧
      ReflTransGen (Acts policy epoch) (⟨requests.map .sweep ++ rest, tally, freed, queue⟩, h)
        (⟨rest, tally', freed, queue ++ extra⟩, h') := by
  induction requests generalizing h tally queue with
  | nil =>
    refine ⟨tally, h, [], rfl, hs, (List.append_nil _).symm, ?_⟩
    rw [List.append_nil]
    exact .refl
  | cons k requests ih =>
    obtain ⟨hk, hlarge⟩ := hr k List.mem_cons_self
    obtain ⟨tally₁, d, extra, hsweep, hsound, hfound, hacts⟩ :=
      acts_sweep policy epoch hs hk hlarge (requests.map .sweep ++ rest) tally freed queue
    obtain ⟨tally', h', extra', hsweeps, hsound', hfound', hacts'⟩ :=
      ih hsound (fun r hr' => hr r (List.mem_cons_of_mem _ hr')) tally₁ (queue ++ extra)
    refine ⟨tally', h', extra ++ extra', ?_, hsound', ?_, hacts.trans ?_⟩
    · rw [Heap.sweepShelves, Act.apply_bind_ok (Heap.apply_atShelf hsweep), hsweeps]
    · rw [hfound', Heap.setDepot_arena, hfound, List.append_assoc]
    · rwa [List.append_assoc] at hacts'

/-- The bytes are counted and the tally is reported. -/
theorem acts_commit (policy : Policy ρ) (epoch : Int) (h : Heap ρ) (site : SweepSite)
    (rest : List Chore) (tally : Tally) (freed : Nat) (queue : List BlockRef) :
    ReflTransGen (Acts policy epoch) (⟨.commit :: .report site :: rest, tally, freed, queue⟩, h)
      (⟨rest, {}, freed, queue⟩,
        { h with arena := (h.arena.addBytes tally.liveBytes).2.reportSweep epoch site tally }) := by
  have hcommit :
      (turn policy epoch ⟨.commit :: .report site :: rest, tally, freed, queue⟩).apply h =
      (.ok ⟨.report site :: rest, tally, freed, queue⟩,
        { h with arena := (h.arena.addBytes tally.liveBytes).2 }) := rfl
  exact .head (acts_of_quiet hcommit rfl) (.single (acts_of_quiet rfl rfl))

/-- Left alone, the collector does turn by turn what a sweep does in one go. -/
theorem sweep_alone (policy : Policy ρ) (epoch : Int) (hs : h.Sound) (hfound : h.arena.found = {}) :
    ∃ hand h', ReflTransGen (Acts policy epoch) (collector, h) (hand, h') ∧ hand.chores = [] ∧
      hand.queue = h'.arena.found.toList ∧ (Heap.sweep policy epoch).apply h =
        (.ok h'.arena.found, { h' with arena := { h'.arena with found := {} } }) := by
  have hsmall : ∀ k ∈ Heap.uniformRequests ++ [(⟨.tiled, 0⟩ : Request)],
      k ∈ Heap.allRequests ∧ k.kind ≠ .large := by
    intro k hk
    rcases List.mem_append.mp hk with hk | hk
    · obtain ⟨hblock, hlarge⟩ := Heap.mem_of_uniform hk
      exact ⟨(Heap.mem_blockRequests.mp hblock).1, hlarge⟩
    · obtain rfl := List.mem_singleton.mp hk
      exact ⟨Heap.mem_allRequests.mpr (.inr (.inl rfl)), by simp⟩
  have hrecords : (⟨.records, 0⟩ : Request) ∈ Heap.allRequests :=
    Heap.mem_allRequests.mpr (.inr (.inr (.inr rfl)))
  obtain ⟨tally₁, h₁, extra₁, hsweeps, hs₁, hfound₁, hacts₁⟩ := acts_sweeps policy epoch hs hsmall
    [.free, .commit, .report .objects, .sweep ⟨.records, 0⟩, .report .records] {} 0 []
  obtain ⟨tally₂, freed, d, extra₂, hfreeing, hs₂, hfound₂, hacts₂⟩ := acts_free policy epoch hs₁
    [.commit, .report .objects, .sweep ⟨.records, 0⟩, .report .records] tally₁ 0 ([] ++ extra₁)
  have hfree : (Depot.sweepAndFree policy .large tally₁).apply (h₁.depot ⟨.large, 0⟩) =
      (.ok tally₂, reported freed d) := by
    rw [Depot.sweepAndFree, Act.apply_get_bind, Act.apply_bind_ok hfreeing]
    dsimp only [reported]
    split_ifs <;> rfl
  rw [← found_reported freed d] at hfound₂
  generalize reported freed d = d₂ at hs₂ hfound₂ hacts₂ hfree
  have hacts₃ := acts_commit policy epoch (h₁.setDepot ⟨.large, 0⟩ d₂) .objects
    [.sweep ⟨.records, 0⟩, .report .records] tally₂ 0 ([] ++ extra₁ ++ extra₂)
  obtain ⟨h₃, hh₃⟩ : ∃ h₃ : Heap ρ, h₃ = { h₁.setDepot ⟨.large, 0⟩ d₂ with
      arena := ((d₂.arena.addBytes tally₂.liveBytes).2.reportSweep epoch .objects tally₂) } :=
        ⟨_, rfl⟩
  rw [Heap.setDepot_arena, ← hh₃] at hacts₃
  have hs₃ : h₃.Sound := hh₃ ▸ hs₂.amends (.of_eq (by rw [Heap.setDepot_arena]; rfl))
  obtain ⟨tally₄, d₄, extra₄, hsweep, -, hfound₄, hacts₄⟩ :=
    acts_sweep policy epoch hs₃ hrecords (by simp)
    [.report .records] {} 0 ([] ++ extra₁ ++ extra₂)
  have hreport : Acts policy epoch
      (⟨[.report .records], tally₄, 0, [] ++ extra₁ ++ extra₂ ++ extra₄⟩,
        h₃.setDepot ⟨.records, 0⟩ d₄)
      (⟨[], {}, 0, [] ++ extra₁ ++ extra₂ ++ extra₄⟩,
        { h₃.setDepot ⟨.records, 0⟩ d₄ with
          arena := d₄.arena.reportSweep epoch .records tally₄ }) :=
    acts_of_quiet rfl rfl
  refine ⟨_, _, (hacts₁.trans hacts₂).trans (hacts₃.trans (hacts₄.tail hreport)), rfl, ?_, ?_⟩
  · have hfound₃ : h₃.arena.found = d₂.arena.found := hh₃ ▸ rfl
    change [] ++ extra₁ ++ extra₂ ++ extra₄ = d₄.arena.found.toList
    rw [hfound₄, hfound₃, hfound₂, hfound₁, hfound]
    rfl
  · rw [Heap.sweep, Act.apply_bind_ok hsweeps, Act.apply_bind_ok (Heap.apply_atShelf hfree),
      Act.apply_bind_ok (Heap.apply_onArena _ _), Act.apply_bind_ok (Heap.apply_modifyArena _ _)]
    dsimp only
    rw [Heap.setDepot_arena, ← hh₃, Act.apply_bind_ok (Heap.apply_atShelf hsweep),
      Act.apply_bind_ok (Heap.apply_modifyArena _ _), Heap.setDepot_arena]
    rfl

/-- Left alone, an assistant does turn by turn what helping does in one go. -/
theorem assist_alone (policy : Policy ρ) (epoch : Int) (hs : h.Sound)
    (hfound : h.arena.found = {}) :
    ∃ hand h', ReflTransGen (Acts policy epoch) (assistant, h) (hand, h') ∧ hand.chores = [] ∧
      hand.queue = h'.arena.found.toList ∧ (Heap.assist policy epoch).apply h =
        (.ok h'.arena.found, { h' with arena := { h'.arena with found := {} } }) := by
  have huniform : ∀ k ∈ Heap.uniformRequests.reverse, k ∈ Heap.allRequests ∧ k.kind ≠ .large := by
    intro k hk
    obtain ⟨hblock, hlarge⟩ := Heap.mem_of_uniform (List.mem_reverse.mp hk)
    exact ⟨(Heap.mem_blockRequests.mp hblock).1, hlarge⟩
  obtain ⟨tally, h₁, extra, hsweeps, hs₁, hfound₁, hacts₁⟩ := acts_sweeps policy epoch hs huniform
    [.commit, .report .assist] {} 0 []
  have hacts₂ := acts_commit policy epoch h₁ .assist [] tally 0 ([] ++ extra)
  refine ⟨_, _, hacts₁.trans hacts₂, rfl, ?_, ?_⟩
  · change [] ++ extra = h₁.arena.found.toList
    rw [hfound₁, hfound]
    rfl
  · rw [Heap.assist, Act.apply_bind_ok hsweeps, Act.apply_bind_ok (Heap.apply_onArena _ _),
      Act.apply_bind_ok (Heap.apply_modifyArena _ _)]
    rfl

/-! ### All hands together -/

/-- All that a turn can do. -/
inductive Turned (policy : Policy ρ) (hand : Hand) (h : Heap ρ) : Hand → Heap ρ → Prop
  /-- A page is swept. Bytes are counted later unless the page is one of records. -/
  | page {k : Request} {id : PageId} {p : Page} {hearings : List Hearing}
      {d : Depot ρ} {rest : List Chore} {tally : Tally} {freed : Nat} (mem : k ∈ Heap.allRequests)
      (chores : hand.chores = .ofRequest k :: rest)
      (counts : k.kind = .records ↔ .commit ∉ hand.chores)
      (sieves : Depot.Sieves policy k id p hearings (h.depot k) d)
      (tallies : Depot.Tallies k hand.tally tally (h.depot k) d) : Turned policy hand h
        ⟨hand.chores, tally, freed, hand.queue ++ (toFinalize hearings).map (⟨id, ·⟩)⟩
        (h.setDepot k d)
  /-- The hand goes on to its next chore, and is at the end of a sweep or has reported its tally. -/
  | next {c : Chore} {rest : List Chore} {tally : Tally} {freed : Nat} {a : Arena ρ}
      (chores : hand.chores = c :: rest) (other : c ≠ .commit)
      (cleared : ∀ k ∈ Heap.allRequests, c = .ofRequest k → (h.shelf k).unswept = #[])
      (same : Arena.Same h.arena a) (meter_eq : a.meter = h.arena.meter)
      (tally_eq : tally = hand.tally ∨ .commit ∉ rest) :
      Turned policy hand h ⟨rest, tally, freed, hand.queue⟩ { h with arena := a }
  | commit {rest : List Chore} (chores : hand.chores = .commit :: rest) (last : .commit ∉ rest) :
      Turned policy hand h { hand with chores := rest }
        { h with arena := (h.arena.addBytes hand.tally.liveBytes).2 }
  | idle (chores : hand.chores = []) : Turned policy hand h hand h

theorem turned_sweep (policy : Policy ρ) (epoch : Int) (hs : h.Sound)
    {r : Request} {rest : List Chore} (hfit : Chore.Fit (.sweep r :: rest)) (tally : Tally)
    (freed : Nat) (queue : List BlockRef) :
    ∃ hand' h', Acts policy epoch (⟨.sweep r :: rest, tally, freed, queue⟩, h) (hand', h') ∧
      Turned policy ⟨.sweep r :: rest, tally, freed, queue⟩ h hand' h' := by
  obtain ⟨⟨hr, hlarge, hrecords⟩, -⟩ := hfit
  obtain hnone | ⟨unswept, id, hw⟩ := Depot.unswept_cases (h.shelf r)
  · refine ⟨⟨rest, tally, freed, queue⟩, h, acts_of_quiet ?_ rfl,
      .next rfl nofun ?_ (.refl _) rfl (.inl rfl)⟩
    · simp only [turn, Act.apply_get_bind, hnone]
      rfl
    · intro k hk he
      rw [Chore.ofRequest] at he
      split_ifs at he
      obtain rfl := Chore.sweep.inj he
      exact hnone
  · obtain ⟨p, hearings, tally', d, hsieves, htallies, -, hact⟩ :=
      acts_page policy epoch hs hr hlarge hw rest tally freed queue
    refine ⟨_, _, hact, .page hr (by rw [Chore.ofRequest, if_neg hlarge]) ?_ hsieves htallies⟩
    rw [hrecords, List.mem_cons]
    simp

theorem turned_free (policy : Policy ρ) (epoch : Int) (hs : h.Sound) {rest : List Chore}
    (hfit : Chore.Fit (.free :: rest)) (tally : Tally) (freed : Nat) (queue : List BlockRef) :
    ∃ hand' h', Acts policy epoch (⟨.free :: rest, tally, freed, queue⟩, h) (hand', h') ∧
      Turned policy ⟨.free :: rest, tally, freed, queue⟩ h hand' h' := by
  obtain hnone | ⟨unswept, id, hw⟩ := Depot.unswept_cases h.large
  · have hturn : (turn policy epoch ⟨.free :: rest, tally, freed, queue⟩).apply h =
        (.ok ⟨rest, tally, 0, queue⟩,
          { h with arena := (reported freed (h.depot ⟨.large, 0⟩)).arena }) := by
      simp only [turn, Act.apply_get_bind, hnone, Array.isEmpty_empty, if_true, reported]
      split_ifs <;> rfl
    have hsame : Arena.Same h.arena (reported freed (h.depot ⟨.large, 0⟩)).arena ∧
        (reported freed (h.depot ⟨.large, 0⟩)).arena.meter = h.arena.meter := by
      unfold reported
      split_ifs <;> exact ⟨⟨rfl, rfl, rfl⟩, rfl⟩
    refine ⟨_, _, acts_of_quiet hturn hsame.1.found_eq,
      .next rfl nofun ?_ hsame.1 hsame.2 (.inl rfl)⟩
    intro k hk he
    rw [Chore.ofRequest] at he
    split_ifs at he with hlarge
    rw [Heap.shelf, hlarge]
    exact hnone
  · obtain ⟨p, hearings, freed', tally', d, hsieves, htallies, -, hact⟩ :=
      acts_freePage policy epoch hs hw rest tally freed queue
    refine ⟨_, _, hact, .page Heap.large_mem rfl ?_ hsieves htallies⟩
    simp [hfit.1]

/-- A turn comes to an end, and does one of these things. -/
theorem turned (policy : Policy ρ) (epoch : Int) (hs : h.Sound) (hfit : Chore.Fit hand.chores) :
    ∃ hand' h', Acts policy epoch (hand, h) (hand', h') ∧ Turned policy hand h hand' h' := by
  obtain ⟨chores, tally, freed, queue⟩ := hand
  cases chores with
  | nil => exact ⟨_, h, acts_of_quiet rfl rfl, .idle rfl⟩
  | cons chore rest =>
    cases chore with
    | sweep r => exact turned_sweep policy epoch hs hfit tally freed queue
    | free => exact turned_free policy epoch hs hfit tally freed queue
    | commit => exact ⟨_, _, acts_of_quiet rfl rfl, .commit rfl hfit.1⟩
    | report site =>
      have hnone : ∀ k ∈ Heap.allRequests, .report site = Chore.ofRequest k →
          (h.shelf k).unswept = #[] := by
        intro k hk he
        rw [Chore.ofRequest] at he
        split_ifs at he
      exact ⟨⟨rest, {}, freed, queue⟩, _, acts_of_quiet rfl rfl,
        .next (a := h.arena.reportSweep epoch site tally) rfl nofun hnone ⟨rfl, rfl, rfl⟩ rfl
        (.inr hfit.1)⟩

/-- Whatever chores a hand has, it comes to an end with them alone. -/
theorem acts_to_end (policy : Policy ρ) (epoch : Int) (hs : h.Sound)
    (hfit : Chore.Fit hand.chores) :
    ∃ hand' h', ReflTransGen (Acts policy epoch) (hand, h) (hand', h') ∧
      hand'.chores = [] ∧ h'.Sound := by
  obtain ⟨chores, tally, freed, queue⟩ := hand
  induction chores generalizing h tally freed queue with
  | nil => exact ⟨_, h, .refl, rfl, hs⟩
  | cons chore rest ih =>
    have hrest : Chore.Fit rest := hfit.tail
    cases chore with
    | sweep k =>
      obtain ⟨⟨hk, hlarge, -⟩, -⟩ := hfit
      obtain ⟨tally', d, extra, -, hsound, -, hacts⟩ :=
        acts_sweep policy epoch hs hk hlarge rest tally freed queue
      obtain ⟨hand', h', hacts', hdone⟩ := ih hsound tally' freed (queue ++ extra) hrest
      exact ⟨hand', h', hacts.trans hacts', hdone⟩
    | free =>
      obtain ⟨tally', freed', d, extra, -, hsound, -, hacts⟩ :=
        acts_free policy epoch hs rest tally freed queue
      obtain ⟨hand', h', hacts', hdone⟩ := ih hsound tally' 0 (queue ++ extra) hrest
      exact ⟨hand', h', hacts.trans hacts', hdone⟩
    | commit =>
      obtain ⟨hand', h', hacts, hdone⟩ :=
        ih (hs.amends (a := (h.arena.addBytes tally.liveBytes).2) (.of_eq rfl))
          tally freed queue hrest
      have hcommit : Acts policy epoch (⟨.commit :: rest, tally, freed, queue⟩, h)
          (⟨rest, tally, freed, queue⟩, { h with arena := (h.arena.addBytes tally.liveBytes).2 }) :=
        acts_of_quiet rfl rfl
      exact ⟨hand', h', .head hcommit hacts, hdone⟩
    | report site =>
      obtain ⟨hand', h', hacts, hdone⟩ :=
        ih (hs.amends (a := h.arena.reportSweep epoch site tally) (.of_eq rfl)) {} freed queue hrest
      have hreport : Acts policy epoch (⟨.report site :: rest, tally, freed, queue⟩, h)
          (⟨rest, {}, freed, queue⟩, { h with arena := h.arena.reportSweep epoch site tally }) :=
        acts_of_quiet rfl rfl
      exact ⟨hand', h', .head hreport hacts, hdone⟩

end Hand

namespace AssistedSweep

variable {ρ : Type} {policy : Policy ρ} {epoch : Int} {g : AssistedSweep ρ} {i : Nat}
  {hand hand' : Hand} {h : Heap ρ}

open Relation (ReflTransGen)

theorem step_of_acts (hi : g.hands[i]? = some hand)
    (hacts : Hand.Acts policy epoch (hand, g.heap) (hand', h)) :
    g.step policy epoch i = { g with heap := h, hands := g.hands.set i hand' } := by
  obtain ⟨done, hturn, hgather⟩ := hacts
  replace hturn : (hand.turn policy epoch).apply g.heap = (.ok done, h) := hturn
  replace hgather : hand' = done.gather g.heap h := hgather
  simp only [step, hi, hturn, hgather]

/-- What a hand does alone it does as one of many, if nobody else has a turn. -/
theorem run_of_acts (hi : g.hands[i]? = some hand)
    (hacts : ReflTransGen (Hand.Acts policy epoch) (hand, g.heap) (hand', h)) :
    ∃ n, run policy epoch (List.replicate n i) g =
      { g with heap := h, hands := g.hands.set i hand' } := by
  obtain ⟨hlt, hget⟩ := List.getElem?_eq_some_iff.mp hi
  generalize hx : (hand, g.heap) = x at hacts
  generalize hy : (hand', h) = y at hacts
  induction hacts generalizing hand' h with
  | refl =>
    obtain ⟨rfl, rfl⟩ := Prod.mk.inj (hy.trans hx.symm)
    exact ⟨0, by simp [run, ← hget]⟩
  | @tail y z _ hact ih =>
    subst hy
    obtain ⟨mid, h₁⟩ := y
    obtain ⟨n, hn⟩ := ih rfl
    refine ⟨n + 1, ?_⟩
    have hmid : ({ g with heap := h₁, hands := g.hands.set i mid } : AssistedSweep ρ).hands[i]? =
        some mid := by
      simp [hlt]
    rw [List.replicate_succ', run_append, hn]
    refine (step_of_acts hmid hact).trans ?_
    simp

/-- The first hands can come to the end of their chores one after the other. -/
theorem exists_done_below (policy : Policy ρ) (epoch : Int) (hs : g.heap.Sound)
    (hfit : ∀ hand ∈ g.hands, Chore.Fit hand.chores) (n : Nat) :
    ∃ turns, (run policy epoch turns g).heap.Sound ∧
      (∀ hand ∈ (run policy epoch turns g).hands, Chore.Fit hand.chores) ∧
      ∀ i < n, ∀ hand, (run policy epoch turns g).hands[i]? = some hand → hand.chores = [] := by
  induction n with
  | zero => exact ⟨[], hs, hfit, by simp⟩
  | succ n ih =>
    obtain ⟨turns, hs', hfit', hdone⟩ := ih
    cases hn : (run policy epoch turns g).hands[n]? with
    | none =>
      refine ⟨turns, hs', hfit', fun i hi hand hhand => ?_⟩
      rcases Nat.lt_succ_iff_lt_or_eq.mp hi with hlt | rfl
      · exact hdone i hlt hand hhand
      · simp [hn] at hhand
    | some hand =>
      obtain ⟨hand', h', hacts, hend, hs''⟩ :=
        Hand.acts_to_end policy epoch hs' (hfit' hand (List.mem_of_getElem? hn))
      obtain ⟨m, hm⟩ := run_of_acts hn hacts
      refine ⟨turns ++ List.replicate m n, ?_⟩
      rw [run_append, hm]
      refine ⟨hs'', fun other hother => ?_, fun i hi other hother => ?_⟩
      · rcases List.mem_or_eq_of_mem_set hother with hold | rfl
        · exact hfit' other hold
        · rw [hend]
          trivial
      · rcases eq_or_ne i n with rfl | hne
        · obtain ⟨hlt, -⟩ := List.getElem?_eq_some_iff.mp hn
          obtain rfl : hand' = other := by simpa [hlt] using hother
          exact hend
        · rw [List.getElem?_set_ne hne.symm] at hother
          exact hdone i (by omega) other hother

/-- From wherever they are, the hands can come to the end of their chores. -/
theorem exists_done (policy : Policy ρ) (epoch : Int) (hs : g.heap.Sound)
    (hfit : ∀ hand ∈ g.hands, Chore.Fit hand.chores) :
    ∃ turns, (run policy epoch turns g).Done := by
  have hlength (turns : List Nat) : (run policy epoch turns g).hands.length = g.hands.length := by
    induction turns using List.reverseRecOn with
    | nil => rfl
    | append_singleton turns i ih =>
      rw [run_append, ← ih]
      simp only [run, List.foldl_cons, List.foldl_nil, step]
      split
      · rfl
      · split <;> simp
  obtain ⟨turns, -, -, hdone⟩ := exists_done_below policy epoch hs hfit g.hands.length
  refine ⟨turns, fun hand hhand => ?_⟩
  obtain ⟨i, hi⟩ := List.mem_iff_getElem?.mp hhand
  have hlt := (List.getElem?_eq_some_iff.mp hi).1
  rw [hlength] at hlt
  exact hdone i hlt hand hi

end AssistedSweep

end SweptHeap
