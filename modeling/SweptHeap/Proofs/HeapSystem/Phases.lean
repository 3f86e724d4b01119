import Mathlib
import SweptHeap.Proofs.HeapSystem.ObjectMoves

/-!
# Phases of an object

Where an object stands with its finalizer: it is not there, it has not been sent to its finalizer,
it has been sent there, or its finalizer has run. The phases say which notes can follow one another
in the story of a block, and the record of the object shows the phase at any time.
-/

namespace SweptHeap

inductive Phase where
  | absent
  | fresh
  | queued
  | done
  deriving DecidableEq

namespace Phase

/-- The notes that may come next in the story of a block. -/
inductive Step : Phase → Note → Phase → Prop
  | born (b : BlockRef) : Step absent (.born (.block b)) fresh
  | lives {φ : Phase} {q : Question} {v : Verdict} (there : φ ≠ absent) (live : v.fate = .live) :
      Step φ (.judged q v) φ
  | sent {q : Question} {v : Verdict} (finalize : v.fate = .finalize) :
      Step fresh (.judged q v) queued
  /-- An object without a finalizer is reclaimed. -/
  | dropped {q : Question} {v : Verdict} (dead : v.fate = .dead)
      (none_due : ∀ flags, q.flags = some flags → flags.has .hasFinalizer = false) :
      Step fresh (.judged q v) absent
  | told (b : BlockRef) : Step queued (.told b) done
  | reclaimed {q : Question} {v : Verdict} (dead : v.fate = .dead) : Step done (.judged q v) absent

inductive Path : Phase → List Note → Phase → Prop
  | nil {φ : Phase} : Path φ [] φ
  | cons {φ φ' φ'' : Phase} {n : Note} {notes : List Note} (step : Step φ n φ')
      (path : Path φ' notes φ'') : Path φ (n :: notes) φ''

variable {φ φ' φ'' : Phase} {n : Note} {notes more : List Note}

theorem Path.single (hstep : Step φ n φ') : Path φ [n] φ' := .cons hstep .nil

theorem Path.append (hp : Path φ notes φ') (hq : Path φ' more φ'') :
    Path φ (notes ++ more) φ'' := by
  induction hp with
  | nil => exact hq
  | cons hstep _ ih => exact .cons hstep (ih hq)

theorem Path.split (hp : Path φ (notes ++ more) φ'') :
    ∃ φ', Path φ notes φ' ∧ Path φ' more φ'' := by
  induction notes generalizing φ with
  | nil => exact ⟨φ, .nil, hp⟩
  | cons n notes ih =>
    cases hp with
    | cons hstep hrest =>
      obtain ⟨φ', hfirst, hsecond⟩ := ih hrest
      exact ⟨φ', .cons hstep hfirst, hsecond⟩

/-- A note in a story divides its path. -/
theorem Path.middle (hp : Path φ (notes ++ n :: more) φ'') :
    ∃ ψ χ, Path φ notes ψ ∧ Step ψ n χ ∧ Path χ more φ'' := by
  obtain ⟨ψ, hfirst, hrest⟩ := hp.split
  cases hrest with
  | cons hstep hsecond => exact ⟨ψ, _, hfirst, hstep, hsecond⟩

/-! ### What paths tell -/

theorem Step.of_finalize {q : Question} {v : Verdict} (hs : Step φ (.judged q v) φ')
    (hv : v.fate = .finalize) : φ = fresh ∧ φ' = queued := by
  cases hs with
  | lives _ hlive => cases hlive.symm.trans hv
  | sent => exact ⟨rfl, rfl⟩
  | dropped hdead => cases hdead.symm.trans hv
  | reclaimed hdead => cases hdead.symm.trans hv

theorem Step.of_dead {q : Question} {v : Verdict} (hs : Step φ (.judged q v) φ')
    (hv : v.fate = .dead) : φ' = absent ∧ (φ = done ∨
      ∀ flags, q.flags = some flags → flags.has .hasFinalizer = false) := by
  cases hs with
  | lives _ hlive => cases hlive.symm.trans hv
  | sent hfinalize => cases hfinalize.symm.trans hv
  | dropped _ hnone => exact ⟨rfl, .inr hnone⟩
  | reclaimed => exact ⟨rfl, .inl rfl⟩

/-- Only a birth makes an object fresh. -/
theorem Path.born_of_fresh (hp : Path φ notes fresh) (hφ : φ ≠ fresh) :
    ∃ b, .born (.block b) ∈ notes := by
  induction notes generalizing φ with
  | nil =>
    cases hp
    exact absurd rfl hφ
  | cons n notes ih =>
    cases hp with
    | cons hstep hrest =>
      cases hstep with
      | born b => exact ⟨b, List.mem_cons_self⟩
      | lives =>
        obtain ⟨b, hb⟩ := ih hrest hφ
        exact ⟨b, List.mem_cons_of_mem _ hb⟩
      | sent => exact absurd rfl hφ
      | dropped => exact absurd rfl hφ
      | told =>
        obtain ⟨b, hb⟩ := ih hrest (by decide)
        exact ⟨b, List.mem_cons_of_mem _ hb⟩
      | reclaimed =>
        obtain ⟨b, hb⟩ := ih hrest (by decide)
        exact ⟨b, List.mem_cons_of_mem _ hb⟩

/-- An object is done since its finalizer has run, and has not been made anew. -/
theorem Path.told_of_done (hp : Path φ notes done) (hφ : φ ≠ done) :
    ∃ past b since, notes = past ++ .told b :: since ∧ ∀ t, .born t ∉ since := by
  induction notes using List.reverseRecOn with
  | nil =>
    cases hp
    exact absurd rfl hφ
  | append_singleton notes n ih =>
    obtain ⟨ψ, χ, hfirst, hstep, hlast⟩ := hp.middle
    cases hlast
    cases hstep with
    | lives =>
      obtain ⟨past, b, since, rfl, hsince⟩ := ih hfirst
      refine ⟨past, b, since ++ [_], List.append_assoc past (_ :: since) [_], fun t ht => ?_⟩
      rcases List.mem_append.mp ht with ht | ht
      · exact hsince t ht
      · cases List.mem_singleton.mp ht
    | told b => exact ⟨notes, b, [], rfl, by simp⟩

/-- An object that was sent to its finalizer stays until it has run. -/
theorem Path.queued_of_untold (hp : Path queued notes φ) (huntold : ∀ b, .told b ∉ notes) :
    φ = queued ∧ ∀ t, .born t ∉ notes := by
  induction notes with
  | nil =>
    cases hp
    exact ⟨rfl, by simp⟩
  | cons n notes ih =>
    cases hp with
    | cons hstep hrest =>
      cases hstep with
      | lives =>
        obtain ⟨hφ, hborn⟩ := ih hrest fun b hb => huntold b (List.mem_cons_of_mem _ hb)
        refine ⟨hφ, fun t ht => ?_⟩
        rcases List.mem_cons.mp ht with ht | ht
        · cases ht
        · exact hborn t ht
      | told b => exact absurd List.mem_cons_self (huntold b)

/-- An object is gone only when a sweep has given it up. -/
theorem Path.dead_of_absent (hp : Path φ notes absent) (hφ : φ ≠ absent) :
    ∃ q v, .judged q v ∈ notes ∧ v.fate = .dead := by
  induction notes using List.reverseRecOn with
  | nil =>
    cases hp
    exact absurd rfl hφ
  | append_singleton notes n ih =>
    obtain ⟨ψ, χ, hfirst, hstep, hlast⟩ := hp.middle
    cases hlast
    cases hstep with
    | lives hthere => exact absurd rfl hthere
    | dropped hdead => exact ⟨_, _, List.mem_append_right _ (List.mem_singleton_self _), hdead⟩
    | reclaimed hdead => exact ⟨_, _, List.mem_append_right _ (List.mem_singleton_self _), hdead⟩

/-- The answer sends an object to its finalizer. -/
def sends : Note → Bool
  | .judged _ v => v.fate = .finalize
  | _ => false

def tells : Note → Bool
  | .told _ => true
  | _ => false

/-- Every object that was sent to its finalizer is told of once, or is still to be told of. -/
theorem Path.count_sends (hp : Path φ notes φ') :
    notes.countP sends + (if φ = queued then 1 else 0) =
      notes.countP tells + if φ' = queued then 1 else 0 := by
  induction hp with
  | nil => simp
  | cons hstep _ ih =>
    cases hstep with
    | born => simpa [List.countP_cons, sends, tells] using ih
    | lives _ hlive => simpa [List.countP_cons, sends, tells, hlive] using ih
    | sent hfinalize => simpa [List.countP_cons, sends, tells, hfinalize] using ih
    | dropped hdead => simpa [List.countP_cons, sends, tells, hdead] using ih
    | told =>
      simp [List.countP_cons, sends, tells] at ih ⊢
      omega
    | reclaimed hdead => simpa [List.countP_cons, sends, tells, hdead] using ih

/-! ### Phases and records -/

/-- What the record of an object says in the phase. -/
def Suits : Phase → Option Flags → Prop
  | absent, _ => False
  | fresh, f => ∀ flags, f = some flags → flags.has .inQueue = false ∧ flags.has .finalized = false
  | queued, f => ∃ flags, f = some flags ∧ flags.has .hasFinalizer = true ∧
      flags.has .inQueue = true ∧ flags.has .finalized = false
  | done, f => ∃ flags, f = some flags ∧ flags.has .finalized = true

namespace Suits

variable {f : Option Flags} {q : Question} {v : Verdict}

theorem enrolled (hs : φ.Suits none) (withFinalizer : Bool) :
    φ.Suits (some (.initial withFinalizer)) := by
  cases φ with
  | absent => exact hs
  | fresh =>
    intro flags he
    obtain rfl := Option.some.inj he
    exact ⟨Flags.not_inQueue_initial _, Flags.not_finalized_initial _⟩
  | queued =>
    obtain ⟨flags, he, -⟩ := hs
    cases he
  | done =>
    obtain ⟨flags, he, -⟩ := hs
    cases he

theorem raised (hs : φ.Suits f) (withFinalizer : Bool) :
    φ.Suits (f.map (·.union (.initial withFinalizer))) := by
  cases φ with
  | absent => exact hs
  | fresh =>
    intro flags he
    obtain ⟨old, hold, rfl⟩ := Option.map_eq_some_iff.mp he
    simpa using hs old hold
  | queued =>
    obtain ⟨flags, rfl, hflags⟩ := hs
    exact ⟨_, rfl, by simp [hflags]⟩
  | done =>
    obtain ⟨flags, rfl, hflags⟩ := hs
    exact ⟨_, rfl, by simp [hflags]⟩

theorem told (hs : queued.Suits f) : done.Suits (f.map (·.union .finalized)) := by
  obtain ⟨flags, rfl, -⟩ := hs
  refine ⟨_, rfl, ?_⟩
  rw [Flags.has_union_finalized, show Flags.finalized.has .finalized = true by decide, Bool.or_true]

/-- A verdict of death ends the life of an object only if no finalizer is due. -/
theorem dead (hs : φ.Suits q.flags) (hv : q.Ruled v) (hdead : v.fate = .dead) :
    Step φ (.judged q v) absent := by
  have hends : φ ≠ queued ∧
      (φ = fresh → ∀ flags, q.flags = some flags → flags.has .hasFinalizer = false) := by
    cases hv with
    | marked => cases hdead
    | bare hmarked hflags =>
      rw [hflags] at hs ⊢
      refine ⟨?_, fun _ flags he => by cases he⟩
      rintro rfl
      obtain ⟨flags, he, -⟩ := hs
      cases he
    | @spent flags hmarked hflags hspent =>
      rw [hflags] at hs ⊢
      refine ⟨?_, ?_⟩
      · rintro rfl
        obtain ⟨flags', he, hwants, -, hpending⟩ := hs
        obtain rfl := Option.some.inj he
        simp [hwants, hpending] at hspent
      · rintro rfl flags' he
        obtain rfl := Option.some.inj he
        exact hspent.resolve_left (by simp [(hs flags rfl).2])
    | queued => cases hdead
    | sent => cases hdead
  cases φ with
  | absent => exact hs.elim
  | fresh => exact .dropped hdead (hends.2 rfl)
  | queued => exact absurd rfl hends.1
  | done => exact .reclaimed hdead

/-- A spared object stays in its phase, or it is sent to its finalizer. -/
theorem spared (hs : φ.Suits q.flags) (hv : q.Ruled v) (hspared : v.fate ≠ .dead) :
    ∃ φ', Step φ (.judged q v) φ' ∧ φ'.Suits (q.flags.map (·.union v.raised)) := by
  have hthere : φ ≠ absent := by
    rintro rfl
    exact hs
  cases hv with
  | marked => exact ⟨φ, .lives hthere rfl, by simpa using hs⟩
  | bare => exact absurd rfl hspared
  | spent => exact absurd rfl hspared
  | queued => exact ⟨φ, .lives hthere rfl, by simpa using hs⟩
  | @sent flags hmarked hflags hwants hpending hidle =>
    rw [hflags] at hs ⊢
    cases φ with
    | absent => exact absurd rfl hthere
    | fresh =>
      refine ⟨queued, .sent rfl, _, rfl, ?_⟩
      simp [hwants, hpending, show Flags.inQueue.has .inQueue = true by decide,
        show Flags.inQueue.has .finalized = false by decide]
    | queued =>
      obtain ⟨flags', he, -, hqueued, -⟩ := hs
      obtain rfl := Option.some.inj he
      cases hqueued.symm.trans hidle
    | done =>
      obtain ⟨flags', he, hdone⟩ := hs
      obtain rfl := Option.some.inj he
      cases hdone.symm.trans hpending

end Suits

end Phase

namespace HeapSystem

variable {ρ : Type} {h h' : Heap (Diary ρ)} {b : BlockRef} {φ : Phase} {notes : List Note}

/-- The block at `b` is in the phase. -/
inductive Fits (h : Heap (Diary ρ)) (b : BlockRef) (φ : Phase) : Prop
  | absent (phase_eq : φ = .absent) (gone : ¬h.Holds (.block b))
  | present {x : Object} (depicts : h.Depicts b x) (suits : φ.Suits x.flags)

theorem Fits.suits {x : Object} (hf : Fits h b φ) (hx : h.Depicts b x) : φ.Suits x.flags := by
  cases hf with
  | absent _ hgone => exact absurd hx.held hgone
  | present hy hsuits => exact hx.unique hy ▸ hsuits

theorem Fits.eq_absent (hf : Fits h b φ) (hgone : ¬h.Holds (.block b)) : φ = .absent := by
  cases hf with
  | absent hφ => exact hφ
  | present hx => exact absurd hx.held hgone

theorem Fits.holds (hf : Fits h b φ) (hφ : φ ≠ .absent) : h.Holds (.block b) := by
  by_contra hgone
  exact hφ (hf.eq_absent hgone)

/-- Whatever happens to a block leads from phase to phase, if only finalizers that are due are said
to have run. -/
theorem Happens.path (hh : Happens b h h' notes) (hf : Fits h b φ)
    (hdue : .told b ∈ notes → φ = .queued) : ∃ φ', φ.Path notes φ' ∧ Fits h' b φ' := by
  cases hh with
  | absent hbefore hafter => exact ⟨φ, .nil, .absent (hf.eq_absent hbefore) hafter⟩
  | keeps hbefore hafter hrecord =>
    refine ⟨φ, .nil, .present hafter ?_⟩
    rw [Object.flags, hrecord]
    exact hf.suits hbefore
  | @enrolled x r withFinalizer hbefore hbare hafter =>
    have hsuits := hf.suits hbefore
    rw [Object.flags, hbare] at hsuits
    exact ⟨φ, .nil, .present hafter (hsuits.enrolled withFinalizer)⟩
  | raised hbefore hafter =>
    refine ⟨φ, .nil, .present hafter ?_⟩
    rw [Object.flags_raise]
    exact (hf.suits hbefore).raised _
  | born hbefore hafter hbare =>
    obtain rfl := hf.eq_absent hbefore
    refine ⟨.fresh, .single (.born b), .present hafter fun flags he => ?_⟩
    rw [Object.flags, hbare] at he
    cases he
  | told hbefore hafter =>
    obtain rfl := hdue (List.mem_singleton_self _)
    refine ⟨.done, .single (.told b), .present hafter ?_⟩
    rw [Object.flags_raise]
    exact (hf.suits hbefore).told
  | @reclaimed x hbefore hdead hafter =>
    have hstep := (hf.suits hbefore).dead (x.question b).ruled_verdictByMark hdead
    exact ⟨.absent, .single hstep, .absent rfl hafter⟩
  | @spared x hbefore hspared hafter =>
    obtain ⟨φ', hstep, hsuits⟩ :=
      (hf.suits hbefore).spared (x.question b).ruled_verdictByMark hspared
    refine ⟨φ', .single hstep, .present hafter ?_⟩
    change φ'.Suits (x.raise _).flags
    rw [Object.flags_raise]
    exact hsuits

end HeapSystem

end SweptHeap
