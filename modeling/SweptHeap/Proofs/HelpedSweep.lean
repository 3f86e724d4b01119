import Mathlib
import SweptHeap.Proofs.AssistedSweep.Basic
import SweptHeap.Proofs.Heap.Foresight

/-!
# Helping does not change the result of a sweep

However the pages of a heap are split between the collector and its assistants, and whatever the
order of their turns, an impartial policy leaves the same blocks on the same pages, the same pages
in the same places, the same count of bytes and the same blocks to finalize.
-/

namespace SweptHeap

variable {ρ : Type} {policy : Policy ρ} {epoch : Int} {verdict : Question →
  Verdict} {h₀ h h' : Heap ρ} {hand hand' : Hand}

/-- The blocks of a list that are on pages of blocks. -/
def Heap.onBlocks (h : Heap ρ) (queue : List BlockRef) : List BlockRef :=
  queue.filter fun b => (h.arena.memory.page? b.page).any (·.kind ≠ .records)

/-- Once the bytes have been counted, there are only records left to sweep. -/
theorem Chore.Fit.past {chores : List Chore} (hfit : Fit chores)
    (hcommit : .commit ∉ chores) {k : Request} (hk : k ∈ Heap.blockRequests) :
    .ofRequest k ∉ chores := by
  induction chores with
  | nil => simp
  | cons c rest ih =>
    have hrest : .commit ∉ rest := fun hin => hcommit (List.mem_cons_of_mem _ hin)
    rw [List.mem_cons, not_or]
    refine ⟨fun he => ?_, ih hfit.tail hrest⟩
    obtain ⟨-, hkind⟩ := Heap.mem_blockRequests.mp hk
    rw [← he, ofRequest] at hfit
    split_ifs at hfit
    · exact hrest hfit.1
    · exact hkind (hfit.1.2.2.mpr hrest)

namespace Hand

/-- Bytes that a hand has found in use and not counted yet. -/
def owed (hand : Hand) : Nat := if .commit ∈ hand.chores then hand.tally.liveBytes else 0

/-- A hand does not take on more chores. -/
theorem Turned.chores_suffix (ht : Turned policy hand h hand' h') :
    hand'.chores <:+ hand.chores := by
  cases ht with
  | page => exact List.suffix_refl _
  | next chores => exact chores ▸ List.suffix_cons _ _
  | commit chores => exact chores ▸ List.suffix_cons _ _
  | idle => exact List.suffix_refl _

/-- No page comes to wait. -/
theorem Turned.cleared (ht : Turned policy hand h hand' h') (hs : h.Sound) {k : Request}
    (hk : k ∈ Heap.allRequests) (hnone : (h.shelf k).unswept = #[]) :
    (h'.shelf k).unswept = #[] := by
  cases ht with
  | page mem _ _ sieves =>
    rw [Heap.shelf_setDepot hs.size_eq mem hk]
    split_ifs with he
    · subst he
      have hw := sieves.unswept_eq
      rw [show (h.depot k).shelf.unswept = #[] from hnone] at hw
      simp at hw
    · exact hnone
  | next => exact hnone
  | commit => exact hnone
  | idle => exact hnone

/-- A hand goes past a shelf when nothing waits there. -/
theorem Turned.past (ht : Turned policy hand h hand' h') {k : Request} (hk : k ∈ Heap.allRequests)
    (hpast : .ofRequest k ∉ hand'.chores) (hbefore : .ofRequest k ∈ hand.chores) :
    (h.shelf k).unswept = #[] := by
  cases ht with
  | page => exact absurd hbefore hpast
  | next chores _ cleared =>
    rw [chores, List.mem_cons] at hbefore
    exact cleared k hk (hbefore.resolve_right hpast).symm
  | commit chores =>
    rw [chores, List.mem_cons] at hbefore
    have hcommit := hbefore.resolve_right hpast
    rw [Chore.ofRequest] at hcommit
    split_ifs at hcommit
  | idle => exact absurd hbefore hpast

/-- Bytes are found, or counted. -/
theorem Turned.bytes (ht : Turned policy hand h hand' h') (hs : h.Sound) :
    ∃ n, h'.bytes + hand.owed = h.bytes + hand'.owed + n ∧
      (n = 0 ∧ h'.allocatedBytes = h.allocatedBytes ∧
        (.commit ∉ hand'.chores → .commit ∉ hand.chores) ∨
        h'.allocatedBytes = (h.allocatedBytes + n) % wordLimit) := by
  cases ht with
  | @page k id p hearings d rest tally freed mem chores counts sieves tallies =>
    refine ⟨0, ?_, .inl ⟨rfl, ?_, fun hnot => hnot⟩⟩
    · by_cases hrecords : k.kind = .records
      · have hcommit := counts.mp hrecords
        have hframe := (Relation.ReflTransGen.single sieves.tidy)
        have hbytes := (Heap.spares_setDepot hs mem
          (Depot.Tidies.frame hframe (hs.good k mem))).bytes_eq hs hrecords fun r hr hne => by
            rw [Heap.shelf_setDepot hs.size_eq mem hr, if_neg hne]
        simp only [owed, hcommit, if_false, hbytes]
      · have hcommit : .commit ∈ hand.chores := by
          by_contra hnot
          exact hrecords (counts.mpr hnot)
        have hblock : k ∈ Heap.blockRequests := Heap.mem_blockRequests.mpr ⟨mem, hrecords⟩
        have hbytes := (Heap.Tallies.of_depot hs hblock (.single sieves.tidy) tallies).bytes_eq
        simp only [owed, hcommit, if_true]
        omega
    · rw [Heap.allocatedBytes, Heap.setDepot_arena, tallies.meter_eq]
      rfl
  | @next c rest tally freed a chores other _ same meter_eq tally_eq =>
    have hmem : .commit ∈ rest ↔ .commit ∈ hand.chores := by
      rw [chores, List.mem_cons]
      exact ⟨.inr, fun hmem => hmem.resolve_left other.symm⟩
    refine ⟨0, ?_,
      .inl ⟨rfl, congrArg Meter.allocated meter_eq, fun hnot hin => hnot (hmem.mpr hin)⟩⟩
    have hbytes : Heap.bytes { h with arena := a } = h.bytes :=
      Heap.bytes_same (fun _ _ => rfl) same.pages_eq
    rw [hbytes]
    simp only [owed, ← hmem]
    split_ifs with hcommit
    · rw [tally_eq.resolve_right (not_not.mpr hcommit), Nat.add_zero]
    · rw [Nat.add_zero]
  | @commit rest chores last =>
    refine ⟨hand.tally.liveBytes, ?_, .inr rfl⟩
    have hbytes :
        Heap.bytes { h with arena := (h.arena.addBytes hand.tally.liveBytes).2 } = h.bytes :=
      Heap.bytes_same (fun _ _ => rfl) rfl
    rw [hbytes]
    simp only [owed, chores, List.mem_cons_self, if_true, last, if_false, Nat.add_zero]
  | idle => exact ⟨0, (Nat.add_zero _).symm, .inl ⟨rfl, rfl, fun hnot => hnot⟩⟩

/-- What one turn does to the heap and to the queue of its hand. -/
theorem Turned.swept (ht : Turned policy hand h hand' h') (hs₀ : h₀.Sound)
    (himpartial : policy.Impartial verdict h₀) {done : List PageId}
    (hsf : h₀.SweptSoFar verdict done h)
    (hcleared : .sweep ⟨.records, 0⟩ ∈ hand.chores → .commit ∉ hand.chores →
      ∀ k ∈ Heap.blockRequests, (h.shelf k).unswept = #[]) :
    ∃ extra queue, h₀.SweptSoFar verdict (extra ++ done) h' ∧ hand'.queue = hand.queue ++ queue ∧
      h₀.onBlocks queue =
        extra.flatMap fun id => (toFinalize (h₀.foresee verdict id)).map (⟨id, ·⟩) := by
  cases ht with
  | @page k id p hearings d rest tally freed mem chores counts sieves tallies =>
    have hkind : p.kind = k.kind := by rw [← p.key_kind, sieves.key_eq]
    obtain ⟨p', a, hsift, -⟩ := sieves.sifted
    obtain ⟨p₀, hp₀, hkind₀⟩ := hsf.kind_eq id p hsift.page_eq
    rw [hkind] at hkind₀
    by_cases hrecords : k.kind = .records
    · obtain rfl : k = ⟨.records, 0⟩ := by
        rcases Heap.mem_allRequests.mp mem with ⟨he, -⟩ | rfl | rfl | rfl
        · simp [he] at hrecords
        all_goals trivial
      refine ⟨[], _, hsf.records mem rfl sieves (hcleared ?_ (counts.mp rfl)), rfl, ?_⟩
      · rw [chores]
        exact List.mem_cons_self
      · refine List.filter_eq_nil_iff.mpr fun b hb => ?_
        obtain ⟨i, -, rfl⟩ := List.mem_map.mp hb
        simp [hp₀, ← hkind₀]
    · have hk : k ∈ Heap.blockRequests := Heap.mem_blockRequests.mpr ⟨mem, hrecords⟩
      refine ⟨[id], _, hsf.page hs₀ himpartial hk sieves, rfl, ?_⟩
      rw [hsf.hearings_eq hs₀ himpartial hk sieves, List.flatMap_singleton]
      refine List.filter_eq_self.mpr fun b hb => ?_
      obtain ⟨i, -, rfl⟩ := List.mem_map.mp hb
      simp [hp₀, ← hkind₀, hrecords]
  | next _ _ _ same => exact ⟨[], [], hsf.same same, (List.append_nil _).symm, rfl⟩
  | commit => exact ⟨[], [], hsf.same ⟨rfl, rfl, rfl⟩, (List.append_nil _).symm, rfl⟩
  | idle => exact ⟨[], [], hsf, (List.append_nil _).symm, rfl⟩

end Hand

namespace AssistedSweep

variable {g : AssistedSweep ρ} {i : Nat} {done : List PageId}

/-- A turn of an assisted sweep is a turn of one of its hands. -/
theorem step_cases (policy : Policy ρ) (epoch : Int) (hs : g.heap.Sound)
    (hfit : ∀ hand ∈ g.hands, Chore.Fit hand.chores) (i : Nat) :
    g.step policy epoch i = g ∨ ∃ front hand back hand' h', g.hands = front ++ hand :: back ∧
      Hand.Turned policy hand g.heap hand' h' ∧
      g.step policy epoch i = { g with heap := h', hands := front ++ hand' :: back } := by
  cases hi : g.hands[i]? with
  | none =>
    left
    rw [step, hi]
  | some hand =>
    right
    obtain ⟨hlt, hget⟩ := List.getElem?_eq_some_iff.mp hi
    obtain ⟨hand', h', hact, hturned⟩ :=
      Hand.turned policy epoch hs (hfit hand (List.mem_of_getElem? hi))
    obtain ⟨front, back, hhands, -, hset⟩ := List.exists_of_set hlt
    refine ⟨front, hand, back, hand', h', hget ▸ hhands, hturned, ?_⟩
    rw [step_of_acts hi hact, hset]

def owed (g : AssistedSweep ρ) : Nat := (g.hands.map Hand.owed).sum

/-- What the hands of an assisted sweep have made of the heap `h₀`, when they have swept the pages
`done` of blocks. The first hand is the collector. -/
structure Keeps (verdict : Question → Verdict) (h₀ : Heap ρ) (done : List PageId)
    (g : AssistedSweep ρ) : Prop where
  swept : h₀.SweptSoFar verdict done g.heap
  fit : ∀ hand ∈ g.hands, Chore.Fit hand.chores
  cleared : ∃ hand, g.hands.head? = some hand ∧ ∀ k ∈ Heap.blockRequests,
    .ofRequest k ∉ hand.chores → (g.heap.shelf k).unswept = #[]
  helpers : ∀ hand ∈ g.hands.tail, .sweep ⟨.records, 0⟩ ∉ hand.chores
  bytes : ∃ n, g.heap.bytes = h₀.bytes + n + g.owed ∧
    g.heap.allocatedBytes ≡ h₀.allocatedBytes + n [MOD wordLimit]
  counted : ∀ hand ∈ g.hands, .commit ∉ hand.chores → g.heap.allocatedBytes < wordLimit
  queues : (h₀.onBlocks g.queues).Perm
    (done.flatMap fun id => (toFinalize (h₀.foresee verdict id)).map (⟨id, ·⟩))
  faults : g.faults = []

theorem Keeps.start (verdict : Question → Verdict) (hs₀ : h₀.Sound) (assistants : Nat) :
    Keeps verdict h₀ [] (new h₀ assistants) := by
  have hhands (hand : Hand) (hhand : hand ∈ (new h₀ assistants).hands) :
      hand = .collector ∨ hand = .assistant := by
    rcases List.mem_cons.mp hhand with rfl | hhand
    · exact .inl rfl
    · exact .inr (List.eq_of_mem_replicate hhand)
  have hfit (hand : Hand) (hhand : hand ∈ (new h₀ assistants).hands) :
      Chore.Fit hand.chores ∧ .commit ∈ hand.chores ∧ hand.owed = 0 ∧ hand.queue = [] := by
    rcases hhands hand hhand with rfl | rfl
    · exact ⟨Hand.fit_collector, by simp [Hand.collector], by simp [Hand.owed, Hand.collector], rfl⟩
    · exact ⟨Hand.fit_assistant, by simp [Hand.assistant], by simp [Hand.owed, Hand.assistant], rfl⟩
  refine ⟨.start verdict hs₀, fun hand hhand => (hfit hand hhand).1,
    ⟨.collector, rfl, fun k hk hnot => ?_⟩, ?_,
    ⟨0, ?_, .rfl⟩, fun hand hhand hnot => absurd (hfit hand hhand).2.1 hnot, ?_, rfl⟩
  · exact absurd (Hand.mem_collector hk) hnot
  · intro hand hhand
    rw [List.eq_of_mem_replicate hhand]
    simp [Hand.assistant, Heap.uniformRequests]
  · have hnone : owed (new h₀ assistants) = 0 := by
      refine List.sum_eq_zero fun n hn => ?_
      obtain ⟨hand, hhand, rfl⟩ := List.mem_map.mp hn
      exact (hfit hand hhand).2.2.1
    rw [hnone, Nat.add_zero]
    rfl
  · have hnone : (new h₀ assistants).queues = [] :=
      List.flatMap_eq_nil_iff.mpr fun hand hhand => (hfit hand hhand).2.2.2
    rw [hnone]
    rfl

section Turn

variable {front back : List Hand}

theorem owed_append (h : Heap ρ) (faults : List Fault) :
    owed ⟨h, front ++ hand :: back, faults⟩ = (front.map Hand.owed).sum + hand.owed +
      (back.map Hand.owed).sum := by
  simp [owed, Nat.add_assoc]

theorem forall_mem_replace {P : Hand → Prop} (hall : ∀ x ∈ front ++ hand :: back, P x)
    (hnew : P hand') : ∀ x ∈ front ++ hand' :: back, P x := by
  simp only [List.forall_mem_append, List.forall_mem_cons] at hall ⊢
  exact ⟨hall.1, hnew, hall.2.2⟩

/-- The invariant is kept by a turn of one hand. -/
theorem Keeps.turn (hk : Keeps verdict h₀ done ⟨h, front ++ hand :: back, []⟩) (hs₀ : h₀.Sound)
    (himpartial : policy.Impartial verdict h₀) (ht : Hand.Turned policy hand h hand' h') :
    ∃ done', Keeps verdict h₀ done' ⟨h', front ++ hand' :: back, []⟩ := by
  obtain ⟨hsf, hfit, ⟨first, hfirst, hcleared⟩, hhelpers, ⟨n, hbytes, hmod⟩,
    hcounted, hqueues, -⟩ := hk
  dsimp only at hsf hfit hcleared hhelpers hbytes hmod hcounted
  have hs : h.Sound := hsf.sound
  have hmem : hand ∈ front ++ hand :: back := by simp
  have hrecords : .sweep ⟨.records, 0⟩ ∈ hand.chores → .commit ∉ hand.chores →
      ∀ k ∈ Heap.blockRequests, (h.shelf k).unswept = #[] := by
    intro hsweep hcommit k hk
    cases front with
    | nil =>
      obtain rfl : hand = first := Option.some.inj hfirst
      exact hcleared k hk ((hfit hand hmem).past hcommit hk)
    | cons other front => exact absurd hsweep (hhelpers hand (by simp))
  obtain ⟨extra, queue, hsf', hqueue, hblocks⟩ := ht.swept hs₀ himpartial hsf hrecords
  obtain ⟨m, hturned, hmeter⟩ := ht.bytes hs
  have hsuffix := ht.chores_suffix
  refine ⟨extra ++ done, hsf', ?_, ?_, ?_, ⟨n + m, ?_, ?_⟩, ?_, ?_, rfl⟩
  · exact forall_mem_replace hfit ((hfit hand hmem).suffix hsuffix)
  · cases front with
    | nil =>
      obtain rfl : hand = first := Option.some.inj hfirst
      refine ⟨hand', rfl, fun k hk hpast => ?_⟩
      have hall := (Heap.mem_blockRequests.mp hk).1
      refine ht.cleared hs hall ?_
      by_cases hbefore : .ofRequest k ∈ hand.chores
      · exact ht.past hall hpast hbefore
      · exact hcleared k hk hbefore
    | cons other front =>
      exact ⟨first, hfirst, fun k hk hpast =>
        ht.cleared hs (Heap.mem_blockRequests.mp hk).1 (hcleared k hk hpast)⟩
  · cases front with
    | nil => exact hhelpers
    | cons first front =>
      exact forall_mem_replace hhelpers fun hsweep =>
        hhelpers hand (by simp) (hsuffix.subset hsweep)
  · rw [owed_append] at hbytes ⊢
    dsimp only
    omega
  · dsimp only
    rcases hmeter with ⟨rfl, heq, -⟩ | heq <;> rw [heq]
    · exact hmod
    · rw [← Nat.add_assoc]
      exact (Nat.mod_modEq _ _).trans (hmod.add_right m)
  · rcases hmeter with ⟨-, heq, hbefore⟩ | heq <;> rw [heq]
    · exact forall_mem_replace hcounted fun hcommit => hcounted hand hmem (hbefore hcommit)
    · exact fun _ _ _ => Nat.mod_lt _ (by decide)
  · have hperm : (AssistedSweep.queues ⟨h', front ++ hand' :: back, []⟩).Perm
        (queue ++ AssistedSweep.queues ⟨h, front ++ hand :: back, []⟩) := by
      refine List.perm_iff_count.mpr fun b => ?_
      simp only [AssistedSweep.queues, List.flatMap_append, List.flatMap_cons,
        hqueue, List.count_append]
      omega
    rw [List.flatMap_append, ← hblocks]
    exact (hperm.filter _).trans (by rw [List.filter_append]; exact hqueues.append_left _)

end Turn

/-- The invariant is kept throughout. -/
theorem Keeps.run (hk : Keeps verdict h₀ done g) (hs₀ : h₀.Sound)
    (himpartial : policy.Impartial verdict h₀) (epoch : Int) (turns : List Nat) :
    ∃ done', Keeps verdict h₀ done' (run policy epoch turns g) := by
  induction turns generalizing g done with
  | nil => exact ⟨done, hk⟩
  | cons i turns ih =>
    rcases step_cases policy epoch hk.swept.sound hk.fit i with
      heq | ⟨front, hand, back, hand', h', hhands, ht, heq⟩
    · rw [AssistedSweep.run, List.foldl_cons, heq]
      exact ih hk
    · obtain ⟨heap, hands, faults⟩ := g
      obtain rfl : faults = [] := hk.faults
      obtain rfl : hands = front ++ hand :: back := hhands
      obtain ⟨done', hk'⟩ := hk.turn hs₀ himpartial ht
      rw [AssistedSweep.run, List.foldl_cons, heq]
      exact ih hk'

/-- At the end nothing waits any more, and the bytes have been counted. -/
theorem Keeps.settled (hk : Keeps verdict h₀ done g) (hdone : g.Done) :
    (∀ k ∈ Heap.blockRequests, (g.heap.shelf k).unswept = #[]) ∧ ∃ n, g.heap.bytes = h₀.bytes + n ∧
      g.heap.allocatedBytes = (h₀.allocatedBytes + n) % wordLimit := by
  obtain ⟨first, hfirst, hcleared⟩ := hk.cleared
  have hmem : first ∈ g.hands := List.mem_of_mem_head? hfirst
  have hchores : first.chores = [] := hdone first hmem
  have hnone : g.owed = 0 := by
    refine List.sum_eq_zero fun n hn => ?_
    obtain ⟨hand, hhand, rfl⟩ := List.mem_map.mp hn
    simp [Hand.owed, hdone hand hhand]
  obtain ⟨n, hbytes, hmod⟩ := hk.bytes
  refine ⟨fun k hk => hcleared k hk (by simp [hchores]), n, by rw [hbytes, hnone, Nat.add_zero], ?_⟩
  have hlt := hk.counted first hmem (by simp [hchores])
  rw [← hmod, Nat.mod_eq_of_lt hlt]

/-- Two assisted sweeps that began with the same heap agree in the end. -/
theorem Keeps.agree {g' : AssistedSweep ρ} {done' : List PageId} (hk : Keeps verdict h₀ done g)
    (hk' : Keeps verdict h₀ done' g') (hdone : g.Done) (hdone' : g'.Done) :
    g.heap.Agrees g'.heap ∧ g.heap.allocatedBytes = g'.heap.allocatedBytes ∧
      (h₀.onBlocks g.queues).Perm (h₀.onBlocks g'.queues) := by
  obtain ⟨hcleared, n, hbytes, hmeter⟩ := hk.settled hdone
  obtain ⟨hcleared', n', hbytes', hmeter'⟩ := hk'.settled hdone'
  have hagrees := hk.swept.agrees hk'.swept hcleared hcleared'
  have hn : n = n' := by
    have htotal := hagrees.bytes_eq hk'.swept.sound
    omega
  refine ⟨hagrees, by rw [hmeter, hmeter', hn], ?_⟩
  have hperm := hk.swept.done_perm hk'.swept hcleared hcleared'
  exact hk.queues.trans ((hperm.flatMap_right _).trans hk'.queues.symm)

end AssistedSweep

open AssistedSweep HeapSystem

/-- However the pages are split between the collector and any number of assistants, in the end the
pages of blocks, the places they are in, the count of bytes and, up to their order, the blocks to
finalize are those of a sweep by the collector alone. -/
theorem helping_changes_nothing {o : HeapSystem ρ} (hreached : Reached o)
    {policy : Policy (Diary ρ)} (himpartial : policy.Impartial verdict o.heap) (epoch : Int)
    (assistants : Nat) (turns : List Nat) :
    ∃ queue h, (Heap.sweep policy epoch).apply o.heap = (.ok queue, h) ∧
      let g := AssistedSweep.run policy epoch turns (AssistedSweep.new o.heap assistants)
      g.faults = [] ∧ (∃ more, (AssistedSweep.run policy epoch more g).Done) ∧
      (g.Done → g.heap.Agrees h ∧ (∀ b, g.heap.Holds (.block b) ↔ h.Holds (.block b)) ∧
        g.heap.allocatedBytes = h.allocatedBytes ∧
        (o.heap.onBlocks g.queues).Perm (o.heap.onBlocks queue.toList)) := by
  have ho := hreached.sound
  obtain ⟨hand, h', hacts, hend, hqueue, hsweep⟩ :=
    Hand.sweep_alone policy epoch ho.heap ho.found_eq
  -- The collector alone is an assisted sweep without assistants.
  obtain ⟨n, halone⟩ := run_of_acts (g := AssistedSweep.new o.heap 0) (i := 0) rfl hacts
  obtain ⟨done', hkeeps'⟩ :=
    (Keeps.start verdict ho.heap 0).run ho.heap himpartial epoch (List.replicate n 0)
  obtain ⟨done, hkeeps⟩ :=
    (Keeps.start verdict ho.heap assistants).run ho.heap himpartial epoch turns
  rw [halone, show (AssistedSweep.new o.heap 0).hands.set 0 hand = [hand] from rfl] at hkeeps'
  refine ⟨_, _, hsweep, hkeeps.faults, exists_done policy epoch hkeeps.swept.sound hkeeps.fit,
    fun hdone => ?_⟩
  have hdone' :
      AssistedSweep.Done { AssistedSweep.new o.heap 0 with heap := h', hands := [hand] } := by
    simpa [AssistedSweep.Done] using hend
  obtain ⟨hagrees, hbytes, hqueues⟩ := hkeeps.agree hkeeps' hdone hdone'
  have hresult :
      (AssistedSweep.run policy epoch turns (AssistedSweep.new o.heap assistants)).heap.Agrees
      { h' with arena := { h'.arena with found := {} } } :=
    ⟨hagrees.page_iff, hagrees.empty, hagrees.ready, hagrees.used, hagrees.unswept⟩
  refine ⟨hresult, hresult.holds_iff, hbytes, ?_⟩
  rw [← hqueue]
  simpa [AssistedSweep.queues] using hqueues

/-- An assistant goes first, on a heap with one object to reclaim. -/
theorem helping_changes_nothing_small :
    let o := run (Policy.byMark (ρ := Unit)) [.enlist, .createObject 0 16, .prepare] (new ())
    Reached o ∧ Policy.byMark.Impartial Question.verdictByMark o.heap ∧
    ∃ more queue h, (Heap.sweep .byMark 1).apply o.heap = (.ok queue, h) ∧
      let g :=
        AssistedSweep.run .byMark 1 (List.replicate 130 1 ++ more) (AssistedSweep.new o.heap 1)
      g.faults = [] ∧ g.Done ∧ g.heap.Agrees h ∧
      (∀ b, g.heap.Holds (.block b) ↔ h.Holds (.block b)) ∧
      g.heap.allocatedBytes = h.allocatedBytes ∧
      (o.heap.onBlocks g.queues).Perm (o.heap.onBlocks queue.toList) := by
  intro o
  have hstart : ReachedBy Mannerly (run (Policy.byMark (ρ := Unit)) [] (new ())) := .start ()
  have henlisted := hstart.concat (show Admits _ .enlist from trivial) ⟨rfl, trivial⟩
  have hfirst : Admits (run (Policy.byMark (ρ := Unit)) [.enlist] (new ())) (.createObject 0 16) :=
    Nat.zero_lt_one
  have hmade := henlisted.concat hfirst ⟨rfl, trivial⟩
  have hidle := not_waiting_concat henlisted.reached hfirst (by simp) (not_waiting_new ())
  have hreached : ReachedBy Mannerly o :=
    hmade.concat (show Admits _ .prepare from admits_prepare_iff.mpr hidle) ⟨rfl, trivial⟩
  clear_value o
  obtain ⟨queue, h, hsweep, -, ⟨more, hdone⟩, -⟩ := helping_changes_nothing hreached.reached
    hreached.impartial_byMark 1 1 (List.replicate 130 1)
  obtain ⟨queue', h', hsweep', hfaults, -, hagree⟩ := helping_changes_nothing hreached.reached
    hreached.impartial_byMark 1 1 (List.replicate 130 1 ++ more)
  rw [← AssistedSweep.run_append] at hdone
  exact ⟨hreached.reached, hreached.impartial_byMark, more, queue', h', hsweep',
    hfaults, hdone, hagree hdone⟩

end SweptHeap
