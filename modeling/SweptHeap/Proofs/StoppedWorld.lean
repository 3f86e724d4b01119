import Mathlib
import SweptHeap.Proofs.SafepointSystem.Basic

/-!
# A stopped world stays stopped

From the moment a warden finds every thread safe until it withdraws its request, no thread runs. A
warden looks at the threads one after the other, and they go on while it looks. What it has seen
stays true because the request stands: a thread that was not about to run does not get there.
-/

namespace SweptHeap

namespace World

variable {w w' : World} {i k : Nat}

/-- At most one thread changes, and the request stays as it is. -/
structure Touches (i : Nat) (w w' : World) : Prop where
  size_le : w.nodes.size ≤ w'.nodes.size
  node_eq : ∀ k ≠ i, w'.node? k = w.node? k
  registered : ∀ k ≠ i, k ∈ w.registered → k ∈ w'.registered
  requested_eq : w'.requested = w.requested
  suspension_eq : w'.suspension = w.suspension

theorem Touches.refl (i : Nat) (w : World) : Touches i w w :=
  ⟨Nat.le_refl _, fun _ _ => rfl, fun _ _ h => h, rfl, rfl⟩

theorem touches_modifyNode (i : Nat) (f : ThreadNode → ThreadNode) (w : World) :
    Touches i w (w.modifyNode i f) where
  size_le := (size_modifyNode f).ge
  node_eq _ hk := node?_modifyNode_of_ne f hk
  registered _ _ h := h
  requested_eq := rfl
  suspension_eq := rfl

theorem touches_addNode (w : World) : Touches w.nodes.size w w.addNode where
  size_le := by simp [addNode]
  node_eq _ hk := by rw [node?_addNode, if_neg hk]
  registered _ _ h := h
  requested_eq := rfl
  suspension_eq := rfl

theorem touches_enlist (i : Nat) (w : World) : Touches i w (w.enlist i) where
  size_le := Nat.le_refl _
  node_eq _ _ := rfl
  registered _ _ h := List.mem_append_left _ h
  requested_eq := rfl
  suspension_eq := rfl

theorem touches_unregister (i : Nat) (w : World) : Touches i w (w.unregister i) where
  size_le := Nat.le_refl _
  node_eq _ _ := rfl
  registered k hk h := by simp [unregister, h, hk]
  requested_eq := rfl
  suspension_eq := rfl

theorem Touches.mode_eq (h : Touches i w w') (hk : k ≠ i) : w'.mode k = w.mode k := by
  unfold World.mode
  rw [h.node_eq k hk]

theorem Touches.isParked_eq (h : Touches i w w') (hk : k ≠ i) : w'.isParked k = w.isParked k := by
  unfold isParked
  rw [h.node_eq k hk]

end World

namespace SafepointSystem

variable {c : SafepointSystem} {i j k : Nat} {p : Place} {d : Duty}

/-! ### What holds where -/

namespace Place

@[simp] def HasGate : Place → Prop
  | .parking | .looking | .waking | .rising => True
  | _ => False

@[simp] def IsParked : Place → Prop
  | .looking | .sleeping | .waking => True
  | _ => False

/-- Only native threads are here. -/
@[simp] def IsNative : Place → Prop
  | .entering | .announcing | .leaving | .departing => True
  | _ => False

@[simp] def IsListed : Place → Prop
  | .away | .entering | .departing => False
  | _ => True

/-- The thread runs, or gets there without a further look at the request. -/
@[simp] def Goes : Place → Prop
  | .free | .waking | .rising => True
  | _ => False

theorem Goes.isListed (h : p.Goes) : p.IsListed := by
  cases p <;> simp_all [Goes, IsListed]

end Place

namespace Duty

@[simp] def HasGate : Duty → Prop
  | .gathering _ | .checking .. | .weighing .. | .judged .. => True
  | _ => False

/-- The warden has seen that the thread is safe. -/
@[simp] def Sure (i : Nat) : Duty → Prop
  | .checking _ rest => i ∉ rest
  | .weighing _ k rest => i ∉ k :: rest
  | .judged _ safe => safe = true
  | .holding _ | .resuming _ => True
  | _ => False

theorem Sure.request? (h : d.Sure i) : ∃ reason, d.request? = some reason := by
  cases d <;> simp_all [Sure, Duty.request?, Duty.reason?]

theorem Stops.sure (h : d.Stops) : d.Sure i := by
  cases d <;> simp_all [Sure, Stops]

theorem Stops.request? (h : d.Stops) : ∃ reason, d.request? = some reason := by
  cases d <;> simp_all [Duty.request?, Duty.reason?, Stops]

theorem reason?_of_request? {reason : StopReason} (h : d.request? = some reason) :
    d.reason? = some reason := by
  cases d <;> simp_all [request?, Duty.reason?]

end Duty

def HasGate (c : SafepointSystem) : Who → Prop
  | .thread i => (c.place i).HasGate
  | .warden j => (c.duty j).HasGate

/-- The thread does not run, and does not get there before it looks at the request. -/
def Halted (c : SafepointSystem) (i : Nat) : Prop := (c.place i).Goes → c.world.mode i = .native

/-- What the world shows of a thread at its place. -/
structure Fits (w : World) (i : Nat) (p : Place) : Prop where
  known : p ≠ .away → i < w.nodes.size
  native : p.IsNative → w.mode i = .native
  parked_iff : w.isParked i = true ↔ p.IsParked
  listed : p.IsListed → i ∈ w.registered

structure Safe (c : SafepointSystem) : Prop where
  gate_iff : ∀ who, c.HasGate who ↔ c.gate = some who
  fits : ∀ i, Fits c.world i (c.place i)
  suspension_eq : ∀ j reason, (c.duty j).reason? = some reason → c.world.suspension = some reason
  requested : ∀ j reason, (c.duty j).request? = some reason → c.world.requested = true
  /-- The suspension belongs to one warden. -/
  owner : ∀ j k reason reason', (c.duty j).reason? = some reason →
    (c.duty k).reason? = some reason' → j = k
  halted : ∀ j i, (c.duty j).Sure i → c.Halted i

theorem safe_new : ({} : SafepointSystem).Safe where
  gate_iff who := by cases who <;> simp [HasGate, Place.HasGate, Duty.HasGate]
  fits i := by
    constructor <;>
      simp [Place.IsNative, Place.IsParked, Place.IsListed, World.isParked, World.node?]
  suspension_eq j reason h := by simp [Duty.reason?] at h
  requested j reason h := by simp [Duty.request?, Duty.reason?] at h
  owner j k reason reason' h := by simp [Duty.reason?] at h
  halted j i h := h.elim

theorem Fits.touches {w w' : World} (h : Fits w k p) (ht : w.Touches i w') (hk : k ≠ i) :
    Fits w' k p where
  known hp := (h.known hp).trans_le ht.size_le
  native hp := (ht.mode_eq hk).trans (h.native hp)
  parked_iff := by rw [ht.isParked_eq hk, h.parked_iff]
  listed hp := ht.registered k hk (h.listed hp)

theorem mode_congr {w w' : World} (hnodes : w'.nodes = w.nodes) (i : Nat) :
    w'.mode i = w.mode i := by
  unfold World.mode World.node?
  rw [hnodes]

theorem Fits.congr {w w' : World} (h : Fits w i p) (hnodes : w'.nodes = w.nodes)
    (hregistered : w'.registered = w.registered) : Fits w' i p := by
  constructor
  · rw [hnodes]
    exact h.known
  · rw [mode_congr hnodes]
    exact h.native
  · unfold World.isParked World.node?
    rw [hnodes]
    exact h.parked_iff
  · rw [hregistered]
    exact h.listed

/-! ### A thread after it changed the world -/

theorem fits_addNode (w : World) : Fits w.addNode w.nodes.size .entering := by
  have hnode : w.addNode.node? w.nodes.size = some {} := by
    rw [World.node?_addNode, if_pos rfl]
  constructor
  · simp [World.addNode]
  · simp [World.mode, hnode]
  · simp [World.isParked, hnode]
  · simp

namespace Fits

variable {w : World}

theorem enlist (h : Fits w i .entering) : Fits (w.enlist i) i .free where
  known _ := h.known (by simp)
  native := by simp
  parked_iff := h.parked_iff
  listed _ := by simp [World.enlist]

theorem setMode {mode : ThreadMode} (h : Fits w i (.switching mode)) :
    Fits (w.setMode i mode).2 i (.switched mode) := by
  have hi : i < w.nodes.size := h.known (by simp)
  constructor
  · intro _
    unfold World.setMode
    rwa [World.size_modifyNode]
  · intro hnative
    rw [World.mode_setMode hi]
    cases mode with
    | runnable => exact hnative.elim
    | native => rfl
  · rw [World.isParked_setMode, h.parked_iff]
    cases mode <;> rfl
  · intro _
    exact h.listed trivial

theorem park (h : Fits w i .parking) : Fits (w.park i) i .looking := by
  have hi : i < w.nodes.size := h.known (by simp)
  constructor
  · intro _
    unfold World.park
    rwa [World.size_modifyNode]
  · simp
  · simp [World.isParked_park hi]
  · intro _
    exact h.listed trivial

theorem unpark (h : Fits w i .waking) : Fits (w.unpark i) i .rising := by
  have hi : i < w.nodes.size := h.known (by simp)
  constructor
  · intro _
    unfold World.unpark
    rwa [World.size_modifyNode]
  · simp
  · simp [World.isParked_unpark]
  · intro _
    exact h.listed trivial

theorem unregister (h : Fits w i .leaving) : Fits (w.unregister i) i .departing where
  known _ := h.known (by simp)
  native := h.native
  parked_iff := h.parked_iff
  listed := by simp

end Fits

/-! ### The gate -/

/-- How the gate goes over when one of those who may have it does a deed. -/
inductive Passes (who : Who) (old new : Prop) (gate : Option Who) : Option Who → Prop
  | keep : (new ↔ old) → Passes who old new gate gate
  | acquire : gate = none → new → Passes who old new gate (some who)
  | release : old → ¬new → Passes who old new gate none

theorem gate_passes {c' : SafepointSystem} (who : Who)
    (h : ∀ who, c.HasGate who ↔ c.gate = some who)
    (hothers : ∀ other ≠ who, c'.HasGate other ↔ c.HasGate other)
    (hgate : Passes who (c.HasGate who) (c'.HasGate who) c.gate c'.gate) (other : Who) :
    c'.HasGate other ↔ c'.gate = some other := by
  generalize c'.gate = gate at hgate ⊢
  by_cases ho : other = who
  · subst ho
    cases hgate with
    | keep hnew => rw [hnew, h]
    | acquire _ hnew => simp [hnew]
    | release _ hnew => simp [hnew]
  · rw [hothers other ho]
    cases hgate with
    | keep _ => exact h other
    | acquire hfree _ =>
      rw [h, hfree]
      simp [Ne.symm ho]
    | release hold _ =>
      rw [h, (h who).mp hold]
      simp [Ne.symm ho]

namespace Safe

/-- Two do not have the gate. -/
theorem gate_unique (h : c.Safe) {who other : Who} (hwho : c.HasGate who)
    (hother : c.HasGate other) : who = other := by
  have h₁ := (h.gate_iff who).mp hwho
  have h₂ := (h.gate_iff other).mp hother
  exact Option.some.inj (h₁.symm.trans h₂)

/-! ### Deeds of threads -/

/-- What a deed of a thread has to keep. While a request stands, a halted thread stays halted. -/
theorem put (h : c.Safe) {p₀ : Place} (hp : c.place i = p₀) {w : World} {gate : Option Who}
    (hworld : c.world.Touches i w) (hgate : Passes (.thread i) p₀.HasGate p.HasGate c.gate gate)
    (hfits : Fits w i p)
    (hhalts : c.world.requested = true → (p₀.Goes → c.world.mode i = .native) → p.Goes →
      w.mode i = .native) :
    Safe { c.put i p with world := w, gate := gate } where
  gate_iff := by
    refine gate_passes (.thread i) h.gate_iff ?_ ?_
    · intro other ho
      cases other with
      | thread k =>
        have hk : k ≠ i := fun hk => ho (congrArg Who.thread hk)
        exact iff_of_eq (congrArg Place.HasGate (put_place_of_ne c p hk))
      | warden j => exact Iff.rfl
    · simpa [SafepointSystem.HasGate, hp] using hgate
  fits k := by
    by_cases hk : k = i
    · subst hk
      simpa using hfits
    · simpa [put_place_of_ne c p hk] using (h.fits k).touches hworld hk
  suspension_eq j reason hj := hworld.suspension_eq.trans (h.suspension_eq j reason hj)
  requested j reason hj := hworld.requested_eq.trans (h.requested j reason hj)
  owner := h.owner
  halted j k hj := by
    have hhalted := h.halted j k hj
    by_cases hk : k = i
    · subst hk
      obtain ⟨reason, hreason⟩ := Duty.Sure.request? hj
      simpa [Halted] using hhalts (h.requested j reason hreason) (hp ▸ hhalted)
    · simpa [Halted, put_place_of_ne c p hk, hworld.mode_eq hk] using hhalted

/-- A thread may go from one place to another when nothing that the world shows of it changes. -/
structure Leads (w : World) (i : Nat) (p₀ p : Place) : Prop where
  known : p₀ ≠ .away
  native : p.IsNative → w.mode i = .native
  parked_iff : p.IsParked ↔ p₀.IsParked
  listed : p.IsListed → p₀.IsListed
  halts : w.requested = true → (p₀.Goes → w.mode i = .native) → p.Goes → w.mode i = .native

theorem move (h : c.Safe) {p₀ : Place} (hp : c.place i = p₀) {gate : Option Who}
    (hgate : Passes (.thread i) p₀.HasGate p.HasGate c.gate gate) (hleads : Leads c.world i p₀ p) :
    Safe { c.put i p with gate := gate } := by
  have hfits : Fits c.world i p₀ := hp ▸ h.fits i
  refine h.put hp (World.Touches.refl ..) hgate ?_ hleads.halts
  constructor
  · exact fun _ => hfits.known hleads.known
  · exact hleads.native
  · exact hfits.parked_iff.trans hleads.parked_iff.symm
  · exact fun hlisted => hfits.listed (hleads.listed hlisted)

theorem register (h : c.Safe) : (c.step .register).Safe := by
  -- The number of a new thread is the number of nobody so far.
  have haway : c.place c.world.nodes.size = .away := by
    by_contra hne
    exact Nat.lt_irrefl _ ((h.fits _).known hne)
  exact h.put haway c.world.touches_addNode (.keep Iff.rfl) (fits_addNode _) (by simp)

theorem proceed (h : c.Safe) (i : Nat) : (c.proceed i).Safe := by
  have hfits := h.fits i
  unfold SafepointSystem.proceed
  cases hp : c.place i with
  | away => exact h
  | free => exact h
  | entering =>
    rw [hp] at hfits
    dsimp only
    split_ifs
    · exact h.put hp (World.touches_enlist i _) (.keep Iff.rfl) hfits.enlist
        fun _ _ _ => hfits.native trivial
    · exact h
  | switching mode =>
    rw [hp] at hfits
    cases mode with
    | runnable =>
      exact h.put hp (World.touches_modifyNode ..) (.keep Iff.rfl) hfits.setMode
        fun _ _ hgoes => hgoes.elim
    | native =>
      exact h.put hp (World.touches_modifyNode ..) (.keep Iff.rfl) hfits.setMode
        fun _ _ hgoes => hgoes.elim
  | polling =>
    dsimp only
    split_ifs with hrequested
    · exact h.move hp (.keep Iff.rfl) (by constructor <;> simp)
    · exact h.move hp (.keep Iff.rfl) (by constructor <;> simp [hrequested])
  | halting =>
    dsimp only
    split_ifs with hgate
    · exact h.move hp (.acquire hgate trivial) (by constructor <;> simp)
    · exact h
  | parking =>
    rw [hp] at hfits
    exact h.put hp (World.touches_modifyNode ..) (.keep Iff.rfl) hfits.park (by simp)
  | looking =>
    dsimp only
    split_ifs with hrequested
    · exact h.move hp (.release trivial (by simp)) (by constructor <;> simp)
    · exact h.move hp (.keep Iff.rfl) (by constructor <;> simp [hrequested])
  | sleeping =>
    dsimp only
    split_ifs with hgate
    · exact h.move hp (.acquire hgate trivial) (by constructor <;> simp)
    · exact h
  | waking =>
    rw [hp] at hfits
    refine h.put hp (World.touches_modifyNode ..) (.keep Iff.rfl) hfits.unpark ?_
    intro _ hhalted _
    exact World.mode_unpark.trans (hhalted trivial)
  | rising => exact h.move hp (.release trivial (by simp)) (by constructor <;> simp)
  | announcing =>
    rw [hp] at hfits
    have hnative : c.world.mode i = .native := hfits.native trivial
    dsimp only
    split_ifs
    · exact h.move hp (.keep Iff.rfl) (by constructor <;> simp [hnative])
    · exact h
  | leaving =>
    rw [hp] at hfits
    dsimp only
    split_ifs
    · exact h.put hp (World.touches_unregister i _) (.keep Iff.rfl) hfits.unregister (by simp)
    · exact h
  | departing =>
    dsimp only
    split_ifs
    · exact h.move hp (.keep Iff.rfl) (by constructor <;> simp)
    · exact h

/-! ### Deeds of wardens -/

/-- What a deed of a warden has to keep. It changes no thread, and what it changes of the suspension
concerns no other warden. -/
theorem assign (h : c.Safe) {w : World} {gate : Option Who} {book : Option Nat}
    (hnodes : w.nodes = c.world.nodes) (hregistered : w.registered = c.world.registered)
    (hgate : Passes (.warden j) (c.duty j).HasGate d.HasGate c.gate gate)
    (hothers : ∀ k ≠ j, ∀ reason, (c.duty k).reason? = some reason →
      d.reason? = none ∧ w.suspension = c.world.suspension ∧ w.requested = c.world.requested)
    (hsuspension : ∀ reason, d.reason? = some reason → w.suspension = some reason)
    (hrequested : ∀ reason, d.request? = some reason → w.requested = true)
    (hsure : ∀ i, d.Sure i → c.Halted i) :
    Safe { c.assign j d with world := w, gate := gate, book := book } := by
  have hduty : ∀ {k}, k ≠ j → (c.assign j d).duty k = c.duty k := assign_duty_of_ne c d
  constructor
  · refine gate_passes (.warden j) h.gate_iff ?_ ?_
    · intro other ho
      cases other with
      | thread i => exact Iff.rfl
      | warden k =>
        have hk : k ≠ j := fun hk => ho (congrArg Who.warden hk)
        exact iff_of_eq (congrArg Duty.HasGate (hduty hk))
    · simpa [SafepointSystem.HasGate] using hgate
  · exact fun i => (h.fits i).congr hnodes hregistered
  · intro k reason hk
    by_cases hkj : k = j
    · subst hkj
      exact hsuspension reason (by simpa using hk)
    · have hk' : (c.duty k).reason? = some reason := by simpa [hduty hkj] using hk
      exact (hothers k hkj reason hk').2.1.trans (h.suspension_eq k reason hk')
  · intro k reason hk
    by_cases hkj : k = j
    · subst hkj
      exact hrequested reason (by simpa using hk)
    · have hk' : (c.duty k).request? = some reason := by simpa [hduty hkj] using hk
      exact (hothers k hkj reason (Duty.reason?_of_request? hk')).2.2.trans
        (h.requested k reason hk')
  · intro k l reason reason' hk hl
    by_cases hkj : k = j
    · by_cases hlj : l = j
      · rw [hkj, hlj]
      · subst hkj
        have hnone := (hothers l hlj reason' (by simpa [hduty hlj] using hl)).1
        simp [hnone] at hk
    · have hk' : (c.duty k).reason? = some reason := by simpa [hduty hkj] using hk
      by_cases hlj : l = j
      · subst hlj
        have hnone := (hothers k hkj reason hk').1
        simp [hnone] at hl
      · exact h.owner k l reason reason' hk' (by simpa [hduty hlj] using hl)
  · intro k i hk
    have hhalted : c.Halted i := by
      by_cases hkj : k = j
      · subst hkj
        exact hsure i (by simpa using hk)
      · exact h.halted k i (by simpa [hduty hkj] using hk)
    exact fun hgoes => (mode_congr hnodes i).trans (hhalted hgoes)

/-- A deed of a warden who leaves the world as it is. -/
theorem look (h : c.Safe) {d₀ : Duty} (hd : c.duty j = d₀) {gate : Option Who} {book : Option Nat}
    (hgate : Passes (.warden j) d₀.HasGate d.HasGate c.gate gate)
    (hreason : d.reason? = d₀.reason?) (hrequest : d.request? = d₀.request?)
    (hsure : ∀ i, d.Sure i → c.Halted i) :
    Safe { c.assign j d with gate := gate, book := book } := by
  subst hd
  refine h.assign rfl rfl hgate ?_ ?_ ?_ hsure
  · intro k hkj reason hk
    refine ⟨?_, rfl, rfl⟩
    rw [hreason, Option.eq_none_iff_forall_ne_some]
    intro reason' hj
    exact hkj (h.owner k j reason reason' hk hj)
  · exact fun reason hd => h.suspension_eq j reason (hreason ▸ hd)
  · exact fun reason hd => h.requested j reason (hrequest ▸ hd)

/-- Who has a suspension is the only one. -/
theorem others_none (h : c.Safe) {reason : StopReason} (hj : (c.duty j).reason? = some reason)
    (hk : k ≠ j) : (c.duty k).reason? = none := by
  rw [Option.eq_none_iff_forall_ne_some]
  intro reason' hk'
  exact hk (h.owner k j reason' reason hk' hj)

/-- A thread that is parked while a warden has the gate sleeps. -/
theorem halted_of_isParked (h : c.Safe) (hj : (c.duty j).HasGate) (hi : c.world.isParked i = true) :
    c.Halted i := by
  have hnot : ¬(c.place i).HasGate := by
    intro hgate
    have := h.gate_unique (show c.HasGate (.thread i) from hgate)
      (show c.HasGate (.warden j) from hj)
    cases this
  have hparked := (h.fits i).parked_iff.mp hi
  intro hgoes
  cases hp : c.place i <;> simp_all

/-- A thread that is not on the list does not run. -/
theorem halted_of_not_registered (h : c.Safe) (hi : i ∉ c.world.registered) : c.Halted i :=
  fun hgoes => absurd ((h.fits i).listed hgoes.isListed) hi

theorem advance (h : c.Safe) (j : Nat) : (c.advance j).Safe := by
  unfold SafepointSystem.advance
  cases hd : c.duty j with
  | idle => exact h
  | holding reason => exact h
  | requesting reason =>
    unfold World.request
    cases hsus : c.world.suspension with
    | some other => exact h
    | none =>
      refine h.assign rfl rfl (by rw [hd]; exact .keep Iff.rfl) ?_ ?_ ?_ (by simp)
      · intro k _ reason' hk
        rw [h.suspension_eq k reason' hk] at hsus
        cases hsus
      · exact fun _ hreason => hreason
      · exact fun _ _ => rfl
  | awaiting reason =>
    dsimp only
    split_ifs with hgate
    · exact h.look hd (.acquire hgate trivial) rfl rfl (by simp)
    · exact h
  | gathering reason =>
    dsimp only
    split_ifs
    · exact h.look hd (.keep Iff.rfl) rfl rfl fun i hi => h.halted_of_not_registered hi
    · exact h
  | checking reason rest =>
    have hsure : ∀ i, i ∉ rest → c.Halted i := fun i hi => h.halted j i (by rw [hd]; exact hi)
    cases rest with
    | nil => exact h.look hd (.keep Iff.rfl) rfl rfl fun i _ => hsure i (by simp)
    | cons k rest =>
      dsimp only
      split_ifs with hparked
      · refine h.look hd (.keep Iff.rfl) rfl rfl fun i hi => ?_
        by_cases hik : i = k
        · subst hik
          exact h.halted_of_isParked (by rw [hd]; trivial) hparked
        · exact hsure i (by simpa [hik] using hi)
      · exact h.look hd (.keep Iff.rfl) rfl rfl hsure
  | weighing reason k rest =>
    have hsure : ∀ i, i ∉ k :: rest → c.Halted i := fun i hi => h.halted j i (by rw [hd]; exact hi)
    dsimp only
    split_ifs with hmode
    · refine h.look hd (.keep Iff.rfl) rfl rfl fun i hi => ?_
      by_cases hik : i = k
      · subst hik
        exact fun _ => hmode
      · exact hsure i (by simpa [hik] using hi)
    · exact h.look hd (.keep Iff.rfl) rfl rfl (by simp)
  | judged reason safe =>
    cases safe with
    | false => exact h.look hd (.release trivial (by simp)) rfl rfl (by simp)
    | true =>
      exact h.look hd (.release trivial (by simp)) rfl rfl fun i _ => h.halted j i (by rw [hd]; rfl)
  | resuming reason =>
    have hj : (c.duty j).reason? = some reason := by rw [hd]; rfl
    dsimp only
    split_ifs
    · refine h.assign rfl rfl (by rw [hd]; exact .keep Iff.rfl) ?_ ?_ ?_ (by simp)
      · intro k hkj reason' hk
        rw [h.others_none hj hkj] at hk
        cases hk
      · exact fun reason' hreason => (h.suspension_eq j reason hj).trans hreason
      · exact fun _ hreason => by cases hreason
    · exact h
  | ending reason =>
    have hj : (c.duty j).reason? = some reason := by rw [hd]; rfl
    have hsus := h.suspension_eq j reason hj
    unfold World.giveUp
    rw [hsus]
    refine h.assign rfl rfl (by rw [hd]; exact .keep Iff.rfl) ?_ ?_ ?_ (by simp)
    · intro k hkj reason' hk
      rw [h.others_none hj hkj] at hk
      cases hk
    · exact fun _ hreason => by cases hreason
    · exact fun _ hreason => by cases hreason

/-! ### Runs -/

theorem step (h : c.Safe) (deed : Deed) : (c.step deed).Safe := by
  cases deed with
  | register => exact h.register
  | switch i mode =>
    unfold SafepointSystem.step
    dsimp only
    split_ifs with hp
    · exact h.move hp (.keep Iff.rfl) (by constructor <;> simp)
    · exact h
  | poll i =>
    unfold SafepointSystem.step
    dsimp only
    split_ifs with hp
    · exact h.move hp (.keep Iff.rfl) (by constructor <;> simp)
    · exact h
  | unregister i =>
    unfold SafepointSystem.step
    dsimp only
    split_ifs with hp
    · exact h.move hp.1 (.keep Iff.rfl) (by constructor <;> simp [hp.2])
    · exact h
  | proceed i => exact h.proceed i
  | stop j reason =>
    unfold SafepointSystem.step
    dsimp only
    split_ifs with hd
    · exact h.look hd (.keep Iff.rfl) rfl rfl (by simp)
    · exact h
  | resume j =>
    unfold SafepointSystem.step
    dsimp only
    cases hd : c.duty j with
    | holding reason =>
      exact h.look hd (.keep Iff.rfl) rfl rfl fun i _ => h.halted j i (by rw [hd]; trivial)
    | _ => exact h
  | advance j => exact h.advance j

theorem run (h : c.Safe) (ds : List Deed) : (c.run ds).Safe := by
  induction ds generalizing c with
  | nil => exact h
  | cons deed ds ih => exact ih (h.step deed)

end Safe

/-! ### Requests stand -/

theorem duty_proceed (c : SafepointSystem) (i j : Nat) : (c.proceed i).duty j = c.duty j := by
  unfold proceed
  grind [put]

theorem duty_advance (c : SafepointSystem) {k : Nat} (hk : j ≠ k) :
    (c.advance k).duty j = c.duty j := by
  have hassign : ∀ d, (c.assign k d).duty j = c.duty j := fun d => assign_duty_of_ne c d hk
  unfold advance
  split <;> grind

/-- A request stands until the warden itself goes on to withdraw it. -/
theorem request?_step {reason : StopReason} {deed : Deed} (hj : (c.duty j).request? = some reason)
    (hdeed : deed ≠ .advance j) : ((c.step deed).duty j).request? = some reason := by
  cases deed with
  | register => exact hj
  | switch i mode =>
    unfold step
    dsimp only
    split_ifs <;> exact hj
  | poll i =>
    unfold step
    dsimp only
    split_ifs <;> exact hj
  | unregister i =>
    unfold step
    dsimp only
    split_ifs <;> exact hj
  | proceed i => rwa [step, duty_proceed]
  | stop k reason' =>
    unfold step
    dsimp only
    split_ifs with hk
    · by_cases hjk : j = k
      · subst hjk
        rw [hk] at hj
        cases hj
      · rwa [assign_duty_of_ne c _ hjk]
    · exact hj
  | resume k =>
    unfold step
    dsimp only
    split
    · rename_i reason' hk
      by_cases hjk : j = k
      · subst hjk
        rw [hk] at hj
        rw [assign_duty_self]
        exact hj
      · rwa [assign_duty_of_ne c _ hjk]
    · exact hj
  | advance k =>
    have hjk : j ≠ k := fun hjk => hdeed (by rw [hjk])
    rwa [step, duty_advance c hjk]

theorem request?_run {reason : StopReason} {ds : List Deed} (hj : (c.duty j).request? = some reason)
    (hds : .advance j ∉ ds) : ((c.run ds).duty j).request? = some reason := by
  induction ds generalizing c with
  | nil => exact hj
  | cons deed ds ih =>
    rw [List.mem_cons, not_or] at hds
    exact ih (request?_step hj (Ne.symm hds.1)) hds.2

theorem Safe.not_runs (h : c.Safe) (hj : (c.duty j).Stops) (i : Nat) : ¬c.Runs i := by
  rintro ⟨hfree, hmode⟩
  have hhalted := h.halted j i hj.sure
  have hnative : c.world.mode i = .native := hhalted (by rw [hfree]; trivial)
  rw [hmode] at hnative
  cases hnative

/-- While a warden has the world stopped, no thread runs, and no other warden has it stopped. The
request of a warden and its suspension stand whatever the others do. -/
theorem stopped_world (ds : List Deed) :
    (∀ j, ((run {} ds).duty j).Stops → ∀ i, ¬(run {} ds).Runs i) ∧
      (∀ j k, ((run {} ds).duty j).Stops → ((run {} ds).duty k).Stops → j = k) ∧
      ∀ j reason, ((run {} ds).duty j).request? = some reason →
        ∀ others : List Deed, .advance j ∉ others →
          ((run {} (ds ++ others)).duty j).request? = some reason ∧
            (run {} (ds ++ others)).world.requested = true ∧
            (run {} (ds ++ others)).world.suspension = some reason := by
  have hsafe : ∀ ds : List Deed, (run {} ds).Safe := fun ds => safe_new.run ds
  refine ⟨fun j hj => (hsafe ds).not_runs hj, ?_, ?_⟩
  · intro j k hj hk
    obtain ⟨reason, hreason⟩ := hj.request?
    obtain ⟨reason', hreason'⟩ := hk.request?
    exact (hsafe ds).owner j k reason reason' (Duty.reason?_of_request? hreason)
      (Duty.reason?_of_request? hreason')
  · intro j reason hj others hothers
    have hstands := request?_run hj hothers
    rw [← run_append] at hstands
    exact ⟨hstands, (hsafe _).requested j reason hstands,
      (hsafe _).suspension_eq j reason (Duty.reason?_of_request? hstands)⟩

/-- The first thread ran before the world was stopped and sleeps now. The second one came later, and
wants to run. -/
theorem stopped_world_asleep :
    let early : List Deed := [.register, .proceed 0, .switch 0 .runnable, .proceed 0, .proceed 0]
    let late : List Deed :=
      [.stop 0 .collection, .advance 0, .poll 0, .proceed 0, .proceed 0, .proceed 0, .proceed 0,
        .advance 0, .advance 0, .advance 0, .advance 0, .advance 0, .register, .proceed 1,
        .switch 1 .runnable, .proceed 1, .proceed 1]
    (run {} early).Runs 0 ∧ (run {} (early ++ late)).place 0 = .sleeping ∧
      (run {} (early ++ late)).place 1 = .halting ∧ ∀ i, ¬(run {} (early ++ late)).Runs i := by
  refine ⟨⟨by decide, by decide⟩, by decide, by decide, ?_⟩
  exact (stopped_world _).1 0 (show Duty.Stops (.holding .collection) from trivial)

end SafepointSystem

end SweptHeap
