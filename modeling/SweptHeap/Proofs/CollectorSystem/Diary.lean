import Mathlib
import SweptHeap.Proofs.CollectorSystem.Basic

/-!
# What a diary has to say

The deeds that neither start nor finish a collection leave the counters of both alone. In the diary
of a collector, complete collections follow each other, a request is given the epoch after all that
have started, and a mutator comes back only after a complete collection. An entry that says that a
part of a collection was carried out stands for a step in which this was done to the heap
(`CollectorSystem.exists_carries`).
-/

namespace SweptHeap

/-! ### Counters -/

namespace Progress

variable {p p' : Progress} {epoch : Int}

theorem of_start (h : p.start epoch = .ok p') :
    p'.started = epoch ∧ p'.finished = p.finished ∧ p'.isShutDown = p.isShutDown := by
  unfold start at h
  by_cases hle : epoch ≤ p.scheduled
  · rw [if_pos hle] at h
    obtain rfl := Except.ok.inj h
    exact ⟨rfl, rfl, rfl⟩
  · rw [if_neg hle] at h
    cases h

theorem of_finish (h : p.finish epoch = .ok p') :
    p'.started = p.started ∧ p'.finished = epoch ∧ p'.isShutDown = p.isShutDown := by
  unfold finish at h
  split_ifs at h
  obtain rfl := Except.ok.inj h
  exact ⟨rfl, rfl, rfl⟩

/-- The same collections are under way and over. -/
structure Rests (p p' : Progress) : Prop where
  started_eq : p'.started = p.started
  finished_eq : p'.finished = p.finished
  isShutDown_eq : p'.isShutDown = p.isShutDown

theorem Rests.refl (p : Progress) : Rests p p := ⟨rfl, rfl, rfl⟩

theorem rests_schedule (p : Progress) : Rests p p.schedule.2 := by
  refine ⟨schedule_started p, schedule_finished p, ?_⟩
  unfold schedule
  split <;> rfl

theorem rests_finalize (h : p.finalize epoch = .ok p') : Rests p p' := by
  unfold finalize at h
  split_ifs at h
  obtain rfl := Except.ok.inj h
  exact ⟨rfl, rfl, rfl⟩

end Progress

namespace EpochProtocol

variable {c c' : EpochProtocol} {d : Deed}

/-- The deed starts or finishes a collection. -/
def Turns (c : EpochProtocol) (d : Deed) : Prop :=
  ∃ i epoch, d = .proceed i ∧ (c.stage i = .starting epoch ∨ c.stage i = .collecting epoch)

theorem proceed_rests {i : Nat} (h : c.proceed i = .ok c') (hd : ¬c.Turns (.proceed i)) :
    c.progress.Rests c'.progress := by
  unfold proceed at h
  cases hi : c.stage i with
  | starting epoch => exact absurd ⟨i, epoch, rfl, .inl hi⟩ hd
  | collecting epoch => exact absurd ⟨i, epoch, rfl, .inr hi⟩ hd
  | asking =>
    rw [hi] at h
    obtain rfl := Except.ok.inj h
    exact c.progress.rests_schedule
  | settling epoch =>
    rw [hi] at h
    dsimp only at h
    cases hp : c.progress.finalize epoch with
    | error e => rw [hp] at h; cases h
    | ok p =>
      rw [hp] at h
      obtain rfl := Except.ok.inj h
      exact Progress.rests_finalize hp
  | handingOver epoch =>
    rw [hi] at h
    dsimp only at h
    split_ifs at h
    · cases hw : c.worker <;> rw [hw] at h <;> obtain rfl := Except.ok.inj h <;> exact .refl _
    · obtain rfl := Except.ok.inj h
      exact .refl _
  | called epoch =>
    rw [hi] at h
    dsimp only at h
    split_ifs at h <;> obtain rfl := Except.ok.inj h <;> exact .refl _
  | idle | checking epoch | leaving =>
    rw [hi] at h
    obtain rfl := Except.ok.inj h
    exact .refl _

theorem step_rests (h : c.step d = .ok c') (hd : ¬c.Turns d) : c.progress.Rests c'.progress := by
  cases d with
  | schedule =>
    obtain rfl := Except.ok.inj h
    exact c.progress.rests_schedule
  | hire | heed i | enter i =>
    obtain rfl := Except.ok.inj h
    split_ifs <;> exact .refl _
  | proceed i => exact proceed_rests h hd
  | take =>
    simp only [step] at h
    split at h <;> obtain rfl := Except.ok.inj h <;> exact .refl _
  | finalize =>
    unfold step at h
    cases hs : c.serving with
    | none =>
      rw [hs] at h
      obtain rfl := Except.ok.inj h
      exact .refl _
    | some epoch =>
      rw [hs] at h
      dsimp only at h
      cases hp : c.progress.finalize epoch with
      | error e => rw [hp] at h; cases h
      | ok p =>
        rw [hp] at h
        obtain rfl := Except.ok.inj h
        exact Progress.rests_finalize hp

end EpochProtocol

/-! ### Diaries -/

namespace Entry

/-- Whether the entry is a part of a collection. -/
def ofCycle : Entry → Bool
  | .asked _ _ => false
  | .returned _ _ => false
  | _ => true

def isStart : Entry → Bool
  | .started _ => true
  | _ => false

end Entry

namespace CollectorSystem

/-- The collections in a diary. -/
def cycles (diary : List Entry) : List Entry := diary.filter Entry.ofCycle

@[simp] theorem cycles_append (xs ys : List Entry) : cycles (xs ++ ys) = cycles xs ++ cycles ys :=
  List.filter_append ..

/-- How many collections have started. -/
def starts (diary : List Entry) : Nat := diary.countP Entry.isStart

@[simp] theorem starts_append (xs ys : List Entry) : starts (xs ++ ys) = starts xs + starts ys :=
  List.countP_append

theorem starts_eq_zero {diary : List Entry} :
    starts diary = 0 ↔ ∀ epoch, .started epoch ∉ diary := by
  rw [starts, List.countP_eq_zero]
  constructor
  · exact fun h epoch hmem => h _ hmem rfl
  · intro h x hx hstart
    cases x with
    | started epoch => exact h epoch hx
    | _ => cases hstart

/-- A complete collection. -/
def round (epoch : Int) : List Entry :=
  [.started epoch, .prepared epoch, .marked epoch, .swept epoch, .finished epoch]

/-- The first `n` epochs, collected one after the other. -/
def rounds : Nat → List Entry
  | 0 => []
  | n + 1 => rounds n ++ round (n + 1)

theorem starts_rounds (n : Nat) : starts (rounds n) = n := by
  induction n with
  | zero => rfl
  | succ n ih =>
    rw [rounds, starts_append, ih]
    rfl

theorem le_of_started_mem_rounds {n : Nat} {epoch : Int} (h : .started epoch ∈ rounds n) :
    epoch ≤ n := by
  induction n with
  | zero => cases h
  | succ n ih =>
    rcases List.mem_append.mp h with hold | hnew
    · exact (ih hold).trans (by omega)
    · obtain rfl : epoch = n + 1 := by simpa [round] using hnew
      omega

/-- An epoch comes right after the epochs before it. -/
theorem rounds_of_lt {m n : Nat} (h : m < n) :
    ∃ more, rounds n = rounds m ++ round (m + 1) ++ more := by
  induction n with
  | zero => cases h
  | succ n ih =>
    rcases Nat.lt_succ_iff_lt_or_eq.mp h with hlt | rfl
    · obtain ⟨more, hmore⟩ := ih hlt
      exact ⟨more ++ round (n + 1), by rw [rounds, hmore, List.append_assoc _ more]⟩
    · exact ⟨[], (List.append_nil _).symm⟩

/-- The mutator has asked for a collection, was given `epoch`, and has not asked again since. -/
def Asked (mutator : Nat) (epoch : Int) (diary since : List Entry) : Prop :=
  (∃ before, diary = before ++ .asked (some mutator) epoch :: since) ∧
    ∀ other, .asked (some mutator) other ∉ since

theorem Asked.append {i : Nat} {epoch : Int} {diary since : List Entry}
    (h : Asked i epoch diary since) {more : List Entry}
    (hmore : ∀ other, .asked (some i) other ∉ more) :
    Asked i epoch (diary ++ more) (since ++ more) := by
  obtain ⟨⟨before, rfl⟩, hlast⟩ := h
  refine ⟨⟨before, by rw [List.append_assoc, List.cons_append]⟩, fun other hmem => ?_⟩
  exact (List.mem_append.mp hmem).elim (hlast other) (hmore other)

/-- The entry is borne out by what was noted before it: a request gets the epoch after all that have
started, and a mutator comes back after a complete collection. -/
def Justified (past : List Entry) : Entry → Prop
  | .asked _ epoch =>
    ∃ (n : Nat) (rest : List Entry), epoch = n + 1 ∧ rounds n = cycles past ++ rest ∧
      starts rest = 0
  | .returned mutator epoch =>
    ∃ since, Asked mutator epoch past since ∧ round epoch <:+: cycles since
  | _ => True

def Verified (diary : List Entry) : Prop :=
  ∀ past x rest, diary = past ++ x :: rest → Justified past x

theorem Verified.concat {diary : List Entry} {x : Entry} (hv : Verified diary)
    (hx : Justified diary x) : Verified (diary ++ [x]) := by
  intro past y rest heq
  rcases List.eq_nil_or_concat rest with rfl | ⟨rest, last, rfl⟩
  · obtain ⟨rfl, hlast⟩ := List.append_inj' heq rfl
    obtain rfl := List.singleton_inj.mp hlast
    exact hx
  · rw [List.concat_eq_append, ← List.cons_append, ← List.append_assoc] at heq
    exact hv past y rest (List.append_inj' heq rfl).1

end CollectorSystem

/-! ### Phases -/

namespace CyclePhase

variable {ρ : Type} {client : Client ρ} {epoch : Int}

/-- What has been noted of an epoch whose collection is in this phase. -/
def past (epoch : Int) : CyclePhase → List Entry
  | .stopping | .awaiting | .preparing => [.started epoch]
  | .marking => [.started epoch, .prepared epoch]
  | .resuming | .sweeping => [.started epoch, .prepared epoch, .marked epoch]
  | .closing _ | .done => [.started epoch, .prepared epoch, .marked epoch, .swept epoch]

theorem round_eq (phase : CyclePhase) (epoch : Int) :
    ∃ rest, CollectorSystem.round epoch = phase.past epoch ++ rest ∧
      CollectorSystem.starts rest = 0 := by
  cases phase <;> exact ⟨_, rfl, rfl⟩

/-- The diary keeps up with the phases. -/
theorem past_act {phase next : CyclePhase} {c c' : Collector ρ}
    (h : (phase.act client epoch).apply c = (.ok next, c')) :
    next.past epoch = phase.past epoch ++ phase.notes epoch := by
  cases phase with
  | stopping =>
    rw [act, Act.apply_get_bind] at h
    rcases hw : c.world.request .collection with ⟨granted, w⟩
    rw [hw] at h
    cases granted with
    | false =>
      obtain ⟨rfl, -⟩ := Act.of_pure_ok h
      rfl
    | true =>
      obtain ⟨_, _, -, h⟩ := Act.of_bind_ok h
      obtain ⟨_, _, -, h⟩ := Act.of_bind_ok h
      obtain ⟨rfl, -⟩ := Act.of_pure_ok h
      rfl
  | awaiting =>
    rw [act, Act.apply_get_bind] at h
    split_ifs at h
    · obtain ⟨_, _, -, h⟩ := Act.of_bind_ok h
      obtain ⟨rfl, -⟩ := Act.of_pure_ok h
      rfl
    · obtain ⟨rfl, -⟩ := Act.of_pure_ok h
      rfl
  | preparing =>
    rw [act, Act.apply_get_bind] at h
    obtain ⟨_, _, -, h⟩ := Act.of_bind_ok h
    obtain ⟨_, _, -, h⟩ := Act.of_bind_ok h
    obtain ⟨rfl, -⟩ := Act.of_pure_ok h
    rfl
  | marking | resuming | sweeping =>
    obtain ⟨_, _, -, h⟩ := Act.of_bind_ok h
    obtain ⟨rfl, -⟩ := Act.of_pure_ok h
    rfl
  | closing queue =>
    obtain ⟨_, _, -, h⟩ := Act.of_bind_ok h
    rw [Act.apply_get_bind] at h
    obtain ⟨released, _, -, h⟩ := Act.of_bind_ok h
    obtain ⟨bytes, _, -, h⟩ := Act.of_bind_ok h
    obtain ⟨_, _, -, h⟩ := Act.of_bind_ok h
    obtain ⟨rfl, -⟩ := Act.of_pure_ok h
    rfl
  | done =>
    obtain ⟨rfl, -⟩ := Act.of_pure_ok h
    rfl

end CyclePhase

/-! ### What an entry stands for -/

namespace CollectorSystem

variable {ρ : Type} {client : Client ρ} {p p' p'' : CollectorSystem ρ}

/-- What was made of the heap in the step with which the entry came into the diary. -/
def Carries (client : Client ρ) (p : CollectorSystem ρ) (h : Heap ρ) : Entry → Prop
  | .prepared epoch =>
    Heap.prepare.apply { p.heap with arena := p.heap.arena.report (.census epoch p.heap.census) } =
      (.ok (), h)
  | .marked epoch => h = { p.heap with arena := client.mark epoch p.heap.arena }
  | .swept epoch => ∃ queue c,
      (Collector.sweep client.policy epoch).apply p.collector = (.ok queue, c) ∧ h = c.heap
  | _ => True

/-- The diary was continued, and its new entries tell what was done. -/
def Records (client : Client ρ) (p p' : CollectorSystem ρ) : Prop :=
  ∃ entries, p'.diary = p.diary ++ entries ∧ ∀ x ∈ entries, Carries client p p'.heap x

theorem Records.of_eq (h : p'.diary = p.diary) : Records client p p' :=
  ⟨[], h.trans (List.append_nil _).symm, nofun⟩

theorem Records.single {x : Entry} (h : p'.diary = p.diary ++ [x])
    (hx : Carries client p p'.heap x) : Records client p p' :=
  ⟨[x], h, fun _ hmem => List.mem_singleton.mp hmem ▸ hx⟩

theorem Records.congr (h : Records client p p') (hheap : p''.heap = p'.heap)
    (hdiary : p''.diary = p'.diary) : Records client p p'' := by
  obtain ⟨entries, heq, hcarries⟩ := h
  exact ⟨entries, hdiary.trans heq, hheap ▸ hcarries⟩

theorem collect_records (client : Client ρ) (epoch : Int) (p : CollectorSystem ρ) :
    Records client p (p.collect client epoch) := by
  rw [collect]
  generalize hact : (p.phase.act client epoch).apply p.collector = done
  obtain ⟨result, c⟩ := done
  cases result with
  | error e => exact .of_eq rfl
  | ok next =>
    cases hphase : p.phase with
    | preparing =>
      refine Records.single (x := .prepared epoch) rfl ?_
      rw [hphase, CyclePhase.act, Act.apply_get_bind] at hact
      obtain ⟨_, c₁, hreport, hact⟩ := Act.of_bind_ok hact
      obtain ⟨-, rfl⟩ := Prod.mk.inj hreport
      obtain ⟨_, c₂, hprepare, hact⟩ := Act.of_bind_ok hact
      obtain ⟨-, rfl⟩ := Act.of_pure_ok hact
      obtain ⟨hok, rfl⟩ := Prod.mk.inj hprepare
      exact Prod.ext hok rfl
    | marking =>
      refine Records.single (x := .marked epoch) rfl ?_
      rw [hphase] at hact
      obtain ⟨_, c₁, hmark, hact⟩ := Act.of_bind_ok hact
      obtain ⟨-, rfl⟩ := Act.of_pure_ok hact
      obtain ⟨-, rfl⟩ := Prod.mk.inj hmark
      rfl
    | sweeping =>
      refine Records.single (x := .swept epoch) rfl ?_
      rw [hphase] at hact
      obtain ⟨queue, c₁, hsweep, hact⟩ := Act.of_bind_ok hact
      obtain ⟨-, rfl⟩ := Act.of_pure_ok hact
      exact ⟨queue, c, hsweep, rfl⟩
    | _ => exact .of_eq (List.append_nil _)

theorem note_records (d : Deed) {entries : List Entry}
    (h : ∀ h', ∀ x ∈ entries, Carries client p h' x) : Records client p (p.note d entries) := by
  rw [note]
  cases p.protocol.step d with
  | error e => exact .of_eq rfl
  | ok protocol => exact ⟨entries, rfl, h _⟩

/-- Entries about requests and about the start and the end of a collection claim nothing. -/
theorem note_records_single (d : Deed) {x : Entry} (h : ∀ h', Carries client p h' x) :
    Records client p (p.note d [x]) :=
  note_records d fun h' _ hmem => List.mem_singleton.mp hmem ▸ h h'

theorem comeBack_records (i : Nat) (epoch : Int) (w : World) :
    Records client p (p.comeBack i epoch w) :=
  .single rfl trivial

/-- Whatever is done, the diary tells the truth about it. -/
theorem step_records (client : Client ρ) (p : CollectorSystem ρ) (a : Action ρ) :
    Records client p (p.step client a) := by
  cases a with
  | protocol d =>
    cases d with
    | schedule => exact note_records_single _ fun _ => trivial
    | proceed i =>
      rw [step, proceed]
      cases p.protocol.stage i with
      | asking => exact note_records_single _ fun _ => trivial
      | starting epoch =>
        have hnote : Records client p (p.note (.proceed i) [.started epoch]) :=
          note_records_single _ fun _ => trivial
        exact hnote.congr rfl rfl
      | collecting epoch =>
        dsimp only
        split
        · exact note_records_single _ fun _ => trivial
        · exact collect_records client epoch p
      | _ => exact note_records _ nofun
    | _ => exact note_records _ nofun
  | request i withFinalizers =>
    rw [step, request]
    cases p.errand i with
    | idle =>
      have hnote :
          Records client p (p.note .schedule [.asked (some i) p.protocol.progress.schedule.1]) :=
        note_records_single _ fun _ => trivial
      exact hnote.congr rfl rfl
    | _ => exact .of_eq rfl
  | pursue i =>
    rw [step, pursue]
    cases p.errand i with
    | waiting epoch withFinalizers => dsimp only; split_ifs <;> exact .of_eq rfl
    | coming epoch =>
      dsimp only
      split_ifs
      · exact .of_eq rfl
      · exact comeBack_records i epoch _
    | parked epoch =>
      dsimp only
      split_ifs
      · exact .of_eq rfl
      · exact comeBack_records i epoch _
    | _ => exact .of_eq rfl
  | work f => exact .of_eq rfl
  | world f => exact .of_eq rfl

/-- Each entry of the diary came with a step in which was done what it says. -/
theorem exists_carries {as : List (Action ρ)} {x : Entry} (hx : x ∈ (run client as p).diary)
    (hnew : x ∉ p.diary) : ∃ before a after, as = before ++ a :: after ∧
      Carries client (run client before p) (run client (before ++ [a]) p).heap x := by
  induction as generalizing p with
  | nil => exact absurd hx hnew
  | cons a as ih =>
    by_cases hstep : x ∈ (p.step client a).diary
    · obtain ⟨entries, hdiary, hcarries⟩ := step_records client p a
      rw [hdiary] at hstep
      exact ⟨[], a, as, rfl, hcarries x ((List.mem_append.mp hstep).resolve_left hnew)⟩
    · obtain ⟨before, b, after, rfl, hcarries⟩ := ih hx hstep
      exact ⟨a :: before, b, after, rfl, hcarries⟩

end CollectorSystem

end SweptHeap
