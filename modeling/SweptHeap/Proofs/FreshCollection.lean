import Mathlib
import SweptHeap.Proofs.EpochOrder
import SweptHeap.Proofs.CollectorSystem.Diary

/-!
# A requested collection is fresh

Whoever asks for a collection is given an epoch that has not started. When that epoch has finished,
it has been started, prepared, marked, swept and finished since. This holds however the threads of a
collector take their turns, and whatever others do to the heap and to the world.

The proof reads the diary of a collector entry by entry. Collections are noted epoch after epoch
(`Recorded`), and each request and each return is borne out by what was noted before (`Verified`).
-/

namespace SweptHeap

namespace CollectorSystem

variable {ρ : Type} {client : Client ρ} {p p' : CollectorSystem ρ} {i : Nat}
  {epoch : Int} {d : Deed} {entries past rest : List Entry}

/-! ### The invariant -/

/-- The collections that have finished, and as much as there is of the one that has not. -/
def Recorded (p : CollectorSystem ρ) : Prop :=
  ∃ n : Nat, p.protocol.progress.finished = n ∧
    cycles p.diary = rounds n ++ if p.protocol.progress.started = n then []
    else p.phase.past (n + 1)

structure Sound (p : CollectorSystem ρ) : Prop where
  orderly : p.protocol.Orderly
  unshut : p.protocol.progress.isShutDown = false
  recorded : p.Recorded
  verified : Verified p.diary

/-- What is true of a mutator on its errand. -/
def Fits (p : CollectorSystem ρ) (i : Nat) : Errand → Prop
  | .idle => True
  | .asked epoch _ => ∃ since, Asked i epoch p.diary since
  | .waiting epoch _ => ∃ since, Asked i epoch p.diary since
  | .coming epoch => (∃ since, Asked i epoch p.diary since) ∧ epoch ≤ p.protocol.progress.finished
  | .parked epoch => (∃ since, Asked i epoch p.diary since) ∧ epoch ≤ p.protocol.progress.finished

def Patient (p : CollectorSystem ρ) : Prop := ∀ i, p.Fits i (p.errand i)

theorem Fits.mono {errand : Errand} (h : p.Fits i errand) (hdiary : p'.diary = p.diary ++ entries)
    (hasked : ∀ other, .asked (some i) other ∉ entries)
    (hfinished : p.protocol.progress.finished ≤ p'.protocol.progress.finished) :
    p'.Fits i errand := by
  have hmore {epoch : Int} (ha : ∃ since, Asked i epoch p.diary since) :
      ∃ since, Asked i epoch p'.diary since := by
    obtain ⟨since, ha⟩ := ha
    rw [hdiary]
    exact ⟨_, ha.append hasked⟩
  cases errand with
  | idle => trivial
  | asked epoch withFinalizers => exact hmore h
  | waiting epoch withFinalizers => exact hmore h
  | coming epoch => exact ⟨hmore h.1, h.2.trans hfinished⟩
  | parked epoch => exact ⟨hmore h.1, h.2.trans hfinished⟩

/-! ### What the invariant says about requests -/

/-- A request gets the epoch after all that have started. -/
theorem Sound.justified_asked (hs : p.Sound) (mutator : Option Nat) :
    Justified p.diary (.asked mutator p.protocol.progress.schedule.1) := by
  obtain ⟨n, hn, hdiary⟩ := hs.recorded
  have hscheduled := hs.orderly.scheduled_le
  have hfinished := hs.orderly.finished_le
  have hstarted := hs.orderly.started_le_succ
  rw [Progress.schedule_fst]
  by_cases hrest : p.protocol.progress.started = n
  · rw [if_pos hrest, List.append_nil] at hdiary
    exact ⟨n, [], by omega, by rw [hdiary, List.append_nil], rfl⟩
  · rw [if_neg hrest] at hdiary
    obtain ⟨rest, hround, hstarts⟩ := p.phase.round_eq (n + 1)
    refine ⟨n + 1, rest, by push_cast; omega, ?_, hstarts⟩
    rw [hdiary, rounds, hround, List.append_assoc]

/-- A finished epoch was collected as a whole after it was asked for. -/
theorem Sound.round_since (hs : p.Sound) {mutator : Option Nat}
    (hdiary : p.diary = past ++ .asked mutator epoch :: rest)
    (hfinished : epoch ≤ p.protocol.progress.finished) : round epoch <:+: cycles rest := by
  obtain ⟨m, left, rfl, hleft, -⟩ := hs.verified past _ rest hdiary
  obtain ⟨n, hn, hcycles⟩ := hs.recorded
  obtain ⟨more, hmore⟩ := rounds_of_lt (show m < n by omega)
  rw [hdiary, cycles_append, hmore, hleft] at hcycles
  simp only [List.append_assoc] at hcycles
  have hrest := List.append_cancel_left hcycles
  exact ⟨left, _, by rw [List.append_assoc]; exact hrest.symm⟩

/-! ### What every step preserves -/

theorem note_eq (ho : p.protocol.Orderly) (d : Deed) (entries : List Entry) :
    ∃ c, p.protocol.step d = .ok c ∧
      p.protocol.progress.finished ≤ c.progress.finished ∧ c.Orderly ∧
      p.note d entries = { p with protocol := c, diary := p.diary ++ entries } := by
  obtain ⟨c, hstep, hgrows, horderly⟩ := ho.step d
  refine ⟨c, hstep, hgrows.finished_le, horderly, ?_⟩
  rw [note, hstep]

theorem Sound.note (hs : p.Sound) (hd : ¬p.protocol.Turns d) (hcycles : cycles entries = [])
    (hverified : Verified (p.diary ++ entries)) : (p.note d entries).Sound := by
  obtain ⟨c, hstep, -, horderly, heq⟩ := note_eq hs.orderly d entries
  have hrests := EpochProtocol.step_rests hstep hd
  rw [heq]
  refine ⟨horderly, hrests.isShutDown_eq.trans hs.unshut, ?_, hverified⟩
  obtain ⟨n, hn, hdiary⟩ := hs.recorded
  refine ⟨n, hrests.finished_eq.trans hn, ?_⟩
  dsimp only
  rw [cycles_append, hcycles, List.append_nil, hdiary, hrests.started_eq]

theorem Patient.note (hp : p.Patient) (ho : p.protocol.Orderly)
    (hasked : ∀ i other, .asked (some i) other ∉ entries) : (p.note d entries).Patient := by
  obtain ⟨c, -, hfinished, -, heq⟩ := note_eq ho d entries
  rw [heq]
  exact fun i => (hp i).mono rfl (hasked i) hfinished

/-- An epoch is noted when it starts, after all epochs before it. -/
theorem Sound.start (hs : p.Sound) (hi : p.protocol.stage i = .starting epoch) :
    Sound { p.note (.proceed i) [.started epoch] with phase := .stopping } := by
  obtain ⟨-, hrest, hnext⟩ : p.protocol.Fits (.starting epoch) := hi ▸ hs.orderly.fits i
  obtain ⟨q, hq, -, horderly⟩ := hs.orderly.start hi
  obtain ⟨hstarted, hfinished, hshut⟩ := Progress.of_start hq
  simp only [CollectorSystem.note, EpochProtocol.step, EpochProtocol.proceed, hi, hq, Except.map]
  refine ⟨horderly, hshut.trans hs.unshut, ?_, hs.verified.concat trivial⟩
  obtain ⟨n, hn, hdiary⟩ := hs.recorded
  rw [if_pos (hrest.trans hn), List.append_nil] at hdiary
  refine ⟨n, hfinished.trans hn, ?_⟩
  have hepoch : epoch = n + 1 := hn ▸ hnext
  dsimp only
  rw [cycles_append, hdiary, hstarted, if_neg (by omega), hepoch]
  rfl

/-- An epoch that finishes has been through all phases. -/
theorem Sound.finish (hs : p.Sound) (hi : p.protocol.stage i = .collecting epoch)
    (hphase : p.phase = .done) : (p.note (.proceed i) [.finished epoch]).Sound := by
  obtain ⟨hunder, hnext⟩ : p.protocol.Fits (.collecting epoch) := hi ▸ hs.orderly.fits i
  obtain ⟨q, hq, -, horderly⟩ := hs.orderly.finish hi
  obtain ⟨hstarted, hfinished, hshut⟩ := Progress.of_finish hq
  simp only [CollectorSystem.note, EpochProtocol.step, EpochProtocol.proceed, hi, hq, Except.map]
  refine ⟨horderly, hshut.trans hs.unshut, ?_, hs.verified.concat trivial⟩
  obtain ⟨n, hn, hdiary⟩ := hs.recorded
  have hepoch : epoch = n + 1 := hn ▸ hnext
  rw [if_neg (by omega), hphase] at hdiary
  refine ⟨n + 1, hfinished.trans hepoch, ?_⟩
  dsimp only
  rw [cycles_append, hdiary, hstarted, if_pos (by push_cast; omega), List.append_nil, hepoch,
    List.append_assoc]
  rfl

theorem verified_notes {diary : List Entry} (hv : Verified diary) (phase : CyclePhase)
    (epoch : Int) : Verified (diary ++ phase.notes epoch) := by
  cases phase with
  | preparing => exact hv.concat trivial
  | marking => exact hv.concat trivial
  | sweeping => exact hv.concat trivial
  | _ => exact (List.append_nil diary).symm ▸ hv

theorem cycles_notes (phase : CyclePhase) (epoch : Int) :
    cycles (phase.notes epoch) = phase.notes epoch := by
  cases phase <;> rfl

theorem not_asked_notes (phase : CyclePhase) (epoch : Int) (mutator : Option Nat) (other : Int) :
    .asked mutator other ∉ phase.notes epoch := by
  cases phase <;> simp [CyclePhase.notes]

theorem Sound.collect (hs : p.Sound) (hi : p.protocol.stage i = .collecting epoch) :
    (p.collect client epoch).Sound := by
  obtain ⟨hunder, hnext⟩ : p.protocol.Fits (.collecting epoch) := hi ▸ hs.orderly.fits i
  rcases hact : (p.phase.act client epoch).apply p.collector with ⟨result, c⟩
  unfold CollectorSystem.collect
  rw [hact]
  cases result with
  | error e => exact hs
  | ok next =>
    refine ⟨hs.orderly, hs.unshut, ?_, verified_notes hs.verified _ _⟩
    obtain ⟨n, hn, hdiary⟩ := hs.recorded
    have hepoch : epoch = n + 1 := hn ▸ hnext
    have hlate : p.protocol.progress.started ≠ n := by omega
    rw [if_neg hlate, ← hepoch] at hdiary
    refine ⟨n, hn, ?_⟩
    dsimp only
    rw [cycles_append, hdiary, cycles_notes, if_neg hlate, ← hepoch, CyclePhase.past_act hact,
      List.append_assoc]

theorem Patient.collect (hp : p.Patient) : (p.collect client epoch).Patient := by
  rcases hact : (p.phase.act client epoch).apply p.collector with ⟨result, c⟩
  unfold CollectorSystem.collect
  rw [hact]
  cases result with
  | error e => exact hp
  | ok next => exact fun i => (hp i).mono rfl (not_asked_notes _ _ _) (Int.le_refl _)

/-- Nobody asks for a collection in these deeds, or starts or finishes one. -/
theorem Sound.note_nothing (hs : p.Sound) (hp : p.Patient) (hd : ¬p.protocol.Turns d) :
    (p.note d []).Sound ∧ (p.note d []).Patient :=
  ⟨hs.note hd rfl ((List.append_nil p.diary).symm ▸ hs.verified),
    hp.note hs.orderly fun _ _ => List.not_mem_nil⟩

theorem Sound.note_asked (hs : p.Sound) (hd : ¬p.protocol.Turns d) (mutator : Option Nat) :
    (p.note d [.asked mutator p.protocol.progress.schedule.1]).Sound :=
  hs.note hd rfl (hs.verified.concat (hs.justified_asked mutator))

theorem Sound.proceed (hs : p.Sound) (hp : p.Patient) (client : Client ρ) (i : Nat) :
    (p.proceed client i).Sound ∧ (p.proceed client i).Patient := by
  have hturns {s : Stage} (hi : p.protocol.stage i = s) (hstart : ∀ epoch, s ≠ .starting epoch)
      (hcollect : ∀ epoch, s ≠ .collecting epoch) : ¬p.protocol.Turns (.proceed i) := by
    rintro ⟨j, epoch, hj, hstage⟩
    obtain rfl := Deed.proceed.inj hj
    rcases hstage with hstage | hstage
    · exact hstart epoch (hi.symm.trans hstage)
    · exact hcollect epoch (hi.symm.trans hstage)
  unfold CollectorSystem.proceed
  cases hi : p.protocol.stage i with
  | asking =>
    exact ⟨hs.note_asked (hturns hi (by simp) (by simp)) none, hp.note hs.orderly (by simp)⟩
  | starting epoch => exact ⟨hs.start hi, hp.note hs.orderly (by simp)⟩
  | collecting epoch =>
    dsimp only
    split
    · exact ⟨hs.finish hi ‹_›, hp.note hs.orderly (by simp)⟩
    · exact ⟨hs.collect hi, hp.collect⟩
  | idle | called epoch | checking epoch | handingOver epoch | settling epoch | leaving =>
    exact hs.note_nothing hp (hturns hi (by simp) (by simp))

/-! ### Mutators -/

theorem Patient.setErrand (hp : p.Patient) {errand : Errand} (hi : p.Fits i errand) :
    (p.setErrand i errand).Patient := by
  intro j
  by_cases hj : j = i
  · subst hj
    rw [setErrand_self]
    exact hi
  · rw [setErrand_of_ne hj]
    exact hp j

theorem Sound.request (hs : p.Sound) (hp : p.Patient) (i : Nat) (withFinalizers : Bool) :
    (p.request i withFinalizers).Sound ∧ (p.request i withFinalizers).Patient := by
  unfold CollectorSystem.request
  split
  · have hturns : ¬p.protocol.Turns .schedule := by
      rintro ⟨j, epoch, hj, -⟩
      cases hj
    have hs' := hs.note_asked hturns (some i)
    obtain ⟨c, -, hfinished, -, heq⟩ :=
      note_eq hs.orderly .schedule [.asked (some i) p.protocol.progress.schedule.1]
    refine ⟨⟨hs'.orderly, hs'.unshut, hs'.recorded, hs'.verified⟩, fun j => ?_⟩
    rw [heq]
    -- The mutator that asks is on a new errand; the others wait as before.
    by_cases hj : j = i
    · subst hj
      rw [setErrand_self]
      exact ⟨[], ⟨p.diary, rfl⟩, fun _ => List.not_mem_nil⟩
    · rw [setErrand_of_ne hj]
      exact (hp j).mono rfl (by simp [hj]) hfinished
  · exact ⟨hs, hp⟩

/-- A mutator comes back from a wait that is over. -/
theorem Sound.comeBack (hs : p.Sound) (hp : p.Patient) (w : World)
    (hasked : ∃ since, Asked i epoch p.diary since)
    (hfinished : epoch ≤ p.protocol.progress.finished) :
    (p.comeBack i epoch w).Sound ∧ (p.comeBack i epoch w).Patient := by
  have hjustified : Justified p.diary (.returned i epoch) := by
    obtain ⟨since, ⟨before, hdiary⟩, hlast⟩ := hasked
    exact ⟨since, ⟨⟨before, hdiary⟩, hlast⟩, hs.round_since hdiary hfinished⟩
  constructor
  · refine ⟨hs.orderly, hs.unshut, ?_, hs.verified.concat hjustified⟩
    obtain ⟨n, hn, hdiary⟩ := hs.recorded
    refine ⟨n, hn, ?_⟩
    rw [CollectorSystem.comeBack, cycles_append]
    exact (List.append_nil _).trans hdiary
  · intro j
    have hidle : p.Fits i .idle := trivial
    exact (hp.setErrand hidle j).mono rfl (by simp) (Int.le_refl _)

/-- Without a shutdown, the wait for an epoch ends when the epoch has finished. -/
theorem Sound.finished_of_isOver (hs : p.Sound) {withFinalizers : Bool}
    (hover : p.protocol.progress.isOver
      (if withFinalizers then .finalized epoch else .finished epoch) = true) :
    epoch ≤ p.protocol.progress.finished := by
  have hfinalized := hs.orderly.finalized_le
  cases withFinalizers with
  | false => simpa [Progress.isOver, hs.unshut] using hover
  | true =>
    have hle : epoch ≤ p.protocol.progress.finalized := by
      simpa [Progress.isOver, hs.unshut] using hover
    exact hle.trans hfinalized

theorem Sound.setErrand (hs : p.Sound) (hp : p.Patient) (w : World) {errand : Errand}
    (hfits : p.Fits i errand) : Sound { p.setErrand i errand with world := w } ∧
      Patient { p.setErrand i errand with world := w } :=
  ⟨⟨hs.orderly, hs.unshut, hs.recorded, hs.verified⟩, fun j => hp.setErrand hfits j⟩

theorem Sound.pursue (hs : p.Sound) (hp : p.Patient) (i : Nat) :
    (p.pursue i).Sound ∧ (p.pursue i).Patient := by
  have hi := hp i
  unfold CollectorSystem.pursue
  cases he : p.errand i with
  | idle => exact ⟨hs, hp⟩
  | asked epoch withFinalizers =>
    rw [he] at hi
    exact hs.setErrand hp _ hi
  | waiting epoch withFinalizers =>
    rw [he] at hi
    dsimp only
    by_cases hover :
        p.protocol.progress.isOver (if withFinalizers then .finalized epoch else .finished epoch) =
          true
    · rw [if_pos hover]
      exact hs.setErrand hp p.world ⟨hi, hs.finished_of_isOver hover⟩
    · rw [if_neg hover]
      exact ⟨hs, hp⟩
  | coming epoch =>
    rw [he] at hi
    dsimp only
    split_ifs
    · exact hs.setErrand hp _ hi
    · exact hs.comeBack hp _ hi.1 hi.2
  | parked epoch =>
    rw [he] at hi
    dsimp only
    split_ifs
    · exact ⟨hs, hp⟩
    · exact hs.comeBack hp _ hi.1 hi.2

theorem Sound.step (hs : p.Sound) (hp : p.Patient) (client : Client ρ) (a : Action ρ) :
    (p.step client a).Sound ∧ (p.step client a).Patient := by
  have hturns (d : Deed) (hd : ∀ i, d ≠ .proceed i) : ¬p.protocol.Turns d := by
    rintro ⟨i, epoch, hi, -⟩
    exact hd i hi
  cases a with
  | protocol d =>
    cases d with
    | schedule =>
      have hpatient : (p.note .schedule [.asked none p.protocol.progress.schedule.1]).Patient :=
        hp.note hs.orderly (by simp)
      exact ⟨hs.note_asked (hturns .schedule (by simp)) none, hpatient⟩
    | hire => exact hs.note_nothing hp (hturns .hire (by simp))
    | heed i => exact hs.note_nothing hp (hturns (.heed i) (by simp))
    | enter i => exact hs.note_nothing hp (hturns (.enter i) (by simp))
    | proceed i => exact hs.proceed hp client i
    | take => exact hs.note_nothing hp (hturns .take (by simp))
    | finalize => exact hs.note_nothing hp (hturns .finalize (by simp))
  | request i withFinalizers => exact hs.request hp i withFinalizers
  | pursue i => exact hs.pursue hp i
  | work f => exact ⟨⟨hs.orderly, hs.unshut, hs.recorded, hs.verified⟩, hp⟩
  | world f => exact ⟨⟨hs.orderly, hs.unshut, hs.recorded, hs.verified⟩, hp⟩

theorem Sound.run (hs : p.Sound) (hp : p.Patient) (client : Client ρ) (as : List (Action ρ)) :
    (run client as p).Sound := by
  induction as generalizing p with
  | nil => exact hs
  | cons a as ih =>
    obtain ⟨hs', hp'⟩ := hs.step hp client a
    exact ih hs' hp'

theorem sound_new {settings : Settings} {memo : ρ} {c : Collector ρ}
    (hc : Collector.new settings memo = .ok c) :
    (ofCollector c).Sound ∧ (ofCollector c).Patient := by
  have hprotocol : (ofCollector c).protocol = {} := by
    unfold Collector.new at hc
    split at hc
    · cases hc
    · obtain rfl := Except.ok.inj hc
      rfl
  refine ⟨⟨hprotocol ▸ EpochProtocol.orderly_new,
    by rw [hprotocol], ⟨0, by rw [hprotocol]; rfl, by rw [hprotocol]; rfl⟩, ?_⟩,
    fun i => trivial⟩
  intro past x rest hdiary
  cases past <;> cases hdiary

/-- Two requests without a start between them get the same epoch. -/
theorem Verified.coalesce {diary between after : List Entry} {mutator mutator' : Option Nat}
    {epoch' : Int} (hv : Verified diary)
    (hdiary : diary = past ++ .asked mutator epoch :: (between ++ .asked mutator' epoch' :: after))
    (hbetween : ∀ s, .started s ∉ between) : epoch' = epoch := by
  obtain ⟨m, rest, rfl, hm, hrest⟩ := hv _ _ _ hdiary
  obtain ⟨n, rest', rfl, hn, hrest'⟩ := hv (past ++ .asked mutator (m + 1) :: between) _ after
    (by rw [hdiary, List.append_assoc, List.cons_append])
  have hstarts := congrArg starts hm
  have hstarts' := congrArg starts hn
  have hnone : starts (cycles between) = 0 := by
    refine starts_eq_zero.mpr fun s hs => hbetween s ?_
    exact List.mem_of_mem_filter hs
  have hasked : cycles (.asked mutator (m + 1) :: between) = cycles between := rfl
  rw [starts_rounds, starts_append, hrest] at hstarts
  rw [starts_rounds, starts_append, cycles_append, starts_append, hasked, hnone, hrest'] at hstarts'
  omega

/-- Whoever asks for a collection gets an epoch that has not started, the same one as everybody who
asks before the next start, and the epoch has been collected as a whole since then when it has
finished. A mutator that comes back from its wait has seen such a collection. -/
theorem collection_is_fresh {settings : Settings} {memo : ρ} {c : Collector ρ}
    (hc : Collector.new settings memo = .ok c) (client : Client ρ) (as : List (Action ρ)) :
    (∀ (past : List Entry) (mutator : Option Nat) (epoch : Int) (rest : List Entry),
      (run client as (ofCollector c)).diary = past ++ Entry.asked mutator epoch :: rest →
      (∀ s : Int, Entry.started s ∈ past → s < epoch) ∧
      (∀ (between : List Entry) (mutator' : Option Nat) (epoch' : Int) (after : List Entry),
        rest = between ++ Entry.asked mutator' epoch' :: after →
        (∀ s : Int, Entry.started s ∉ between) → epoch' = epoch) ∧
      (epoch ≤ (run client as (ofCollector c)).protocol.progress.finished →
        round epoch <:+: cycles rest)) ∧
    ∀ (past : List Entry) (mutator : Nat) (epoch : Int) (rest : List Entry),
      (run client as (ofCollector c)).diary = past ++ Entry.returned mutator epoch :: rest →
      ∃ before since : List Entry, past = before ++ Entry.asked (some mutator) epoch :: since ∧
        (∀ other : Int, Entry.asked (some mutator) other ∉ since) ∧
        round epoch <:+: cycles since := by
  obtain ⟨hs, hp⟩ := sound_new hc
  replace hs := hs.run hp client as
  constructor
  · intro past mutator epoch rest hdiary
    refine ⟨fun s hstarted => ?_, ?_, hs.round_since hdiary⟩
    · obtain ⟨n, left, rfl, hn, -⟩ := hs.verified past _ rest hdiary
      have hmem : .started s ∈ rounds n := by
        rw [hn]
        exact List.mem_append_left _ (List.mem_filter.mpr ⟨hstarted, rfl⟩)
      have hle := le_of_started_mem_rounds hmem
      omega
    · rintro between mutator' epoch' after rfl hbetween
      exact hs.verified.coalesce hdiary hbetween
  · intro past mutator epoch rest hdiary
    obtain ⟨since, ⟨⟨before, hpast⟩, hlast⟩, hround⟩ := hs.verified past _ rest hdiary
    exact ⟨before, since, hpast, hlast, hround⟩

/-- A mutator waits for a collection; while that is under way, another mutator asks for one too. -/
def overlap : List (Action Unit) :=
  [.request 0 false, .pursue 0, .protocol (.heed 2), .protocol (.proceed 2), .protocol (.proceed 2),
    .protocol (.proceed 2), .request 1 false, .protocol (.proceed 2), .protocol (.proceed 2),
    .protocol (.proceed 2), .protocol (.proceed 2), .protocol (.proceed 2), .protocol (.proceed 2),
    .protocol (.proceed 2), .protocol (.proceed 2), .pursue 0, .pursue 0]

/-- The mutator that asked first is served, the other one is given the next epoch. -/
theorem collection_is_fresh_overlap : ∃ c : Collector Unit, Collector.new {} () = .ok c ∧
    (run ⟨.byMark, fun _ a => a, fun _ m => m⟩ overlap (ofCollector c)).diary =
      [.asked (some 0) 1, .started 1, .asked (some 1) 2, .prepared 1, .marked 1,
        .swept 1, .finished 1, .returned 0 1] ∧
    (∀ s : Int, Entry.started s ∈ [Entry.asked (some 0) 1, .started 1] → s < 2) ∧
    ∃ before since : List Entry,
      [.asked (some 0) 1, .started 1, .asked (some 1) 2, .prepared 1, .marked 1,
        .swept 1, .finished 1] = before ++ Entry.asked (some 0) 1 :: since ∧
      (∀ other : Int, Entry.asked (some 0) other ∉ since) ∧ round 1 <:+: cycles since := by
  obtain ⟨c, hc, hdiary⟩ : ∃ c : Collector Unit, Collector.new {} () = .ok c ∧
      (run ⟨.byMark, fun _ a => a, fun _ m => m⟩ overlap (ofCollector c)).diary =
        [.asked (some 0) 1, .started 1, .asked (some 1) 2, .prepared 1, .marked 1,
          .swept 1, .finished 1, .returned 0 1] := ⟨_, rfl, by decide +kernel⟩
  obtain ⟨hasked, hreturned⟩ := collection_is_fresh hc ⟨.byMark, fun _ a => a, fun _ m => m⟩ overlap
  refine ⟨c, hc, hdiary, ?_, ?_⟩
  · exact (hasked [.asked (some 0) 1, .started 1] (some 1) 2 _ hdiary).1
  · exact hreturned _ 0 1 [] hdiary

end CollectorSystem

end SweptHeap
