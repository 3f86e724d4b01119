import Mathlib
import SweptHeap.Proofs.SafepointSystem.Basic

/-!
# One call at a time

When nobody comes between the deeds of a call, the call does to the world what the world's own
functions say.
-/

namespace SweptHeap

namespace World

theorem isSafe_eq (w : World) (i : Nat) :
    (w.node? i).elim true ThreadNode.isSafe = (w.isParked i || decide (w.mode i = .native)) := by
  unfold isParked World.mode
  cases w.node? i with
  | none => rfl
  | some n => rfl

theorem request_of_stop? {w w' : World} {reason : StopReason} (h : w.stop? reason = some w') :
    w.request reason = (true, w') ∧ w'.allSafe = true := by
  unfold stop? at h
  split at h
  · cases h
  · rename_i granted hgranted
    split_ifs at h with hsafe
    cases h
    exact ⟨hgranted, hsafe⟩

end World

namespace SafepointSystem

variable {c : SafepointSystem} {i j : Nat}

@[simp] theorem assign_assign (c : SafepointSystem) (j : Nat) (d d' : Duty) :
    (c.assign j d).assign j d' = c.assign j d' := by
  simp [assign]

/-! ### Threads -/

theorem register_alone (hbook : c.book = none) :
    c.run [.register, .proceed c.world.nodes.size] =
      { c.put c.world.register.1 .free with world := c.world.register.2 } := by
  simp [run, step, proceed, World.register_eq, put, hbook]

theorem switch_alone {mode : ThreadMode} (hfree : c.place i = .free) (hgate : c.gate = none)
    (hmode : c.world.mustPark mode = false) :
    c.run [.switch i mode, .proceed i, .proceed i] =
      { c.put i .free with world := (c.world.setMode i mode).2 } := by
  cases mode with
  | native => simp [run, step, proceed, put, Place.switched, hfree, hgate]
  | runnable =>
    have hrequested : c.world.requested = false := by simpa [World.mustPark] using hmode
    simp [run, step, proceed, put, Place.switched, hfree, World.setMode,
      World.modifyNode, hrequested]

theorem switch_alone_parks {mode : ThreadMode} (hfree : c.place i = .free) (hgate : c.gate = none)
    (hmode : c.world.mustPark mode = true) :
    c.run [.switch i mode, .proceed i, .proceed i, .proceed i, .proceed i, .proceed i] =
      { c.put i .sleeping with world := (c.world.setMode i mode).2.park i } := by
  obtain ⟨hrequested, rfl⟩ : c.world.requested = true ∧ mode = .runnable := by
    simpa [World.mustPark] using hmode
  simp [run, step, proceed, put, Place.switched, hfree, World.setMode, World.modifyNode, World.park,
    hrequested, hgate]

theorem unregister_alone (hfree : c.place i = .free) (hnative : c.world.mode i = .native)
    (hgate : c.gate = none) (hbook : c.book = none) :
    c.run [.unregister i, .proceed i, .proceed i] =
      { c.put i .away with world := c.world.unregister i } := by
  simp [run, step, proceed, put, hfree, hnative, hgate, hbook]

/-! ### Wardens -/

/-- A warden that goes through the list finds every thread safe, if every thread is safe. -/
theorem checking_alone {reason : StopReason} {rest : List Nat}
    (hduty : c.duty j = .checking reason rest)
    (hsafe : rest.all fun i => (c.world.node? i).elim true ThreadNode.isSafe) :
    ∃ n, c.run (List.replicate n (.advance j)) =
      { c.assign j (.judged reason true) with book := none } := by
  induction rest generalizing c with
  | nil => exact ⟨1, by simp [run, step, advance, hduty]⟩
  | cons i rest ih =>
    rw [List.all_cons, Bool.and_eq_true, World.isSafe_eq, Bool.or_eq_true,
      decide_eq_true_eq] at hsafe
    obtain ⟨hi, hrest⟩ := hsafe
    obtain ⟨n, hn⟩ := ih (assign_duty_self c j (.checking reason rest)) hrest
    rw [assign_assign] at hn
    by_cases hparked : c.world.isParked i = true
    · have hstep : c.step (.advance j) = c.assign j (.checking reason rest) := by
        simp [step, advance, hduty, hparked]
      exact ⟨n + 1, by rw [List.replicate_succ, run_cons, hstep, hn]⟩
    · have hweigh : c.step (.advance j) = c.assign j (.weighing reason i rest) := by
        simp [step, advance, hduty, hparked]
      have hstep : (c.assign j (.weighing reason i rest)).step (.advance j) =
          c.assign j (.checking reason rest) := by
        have hmode : (c.assign j (.weighing reason i rest)).world.mode i = .native :=
          hi.resolve_left hparked
        simp [step, advance, hmode]
      refine ⟨n + 2, ?_⟩
      rw [List.replicate_succ, List.replicate_succ, run_cons, run_cons, hweigh, hstep, hn]

/-- A warden who has the suspension, the gate and the book, and has looked at nobody yet. -/
def summon (c : SafepointSystem) (j : Nat) (reason : StopReason) (w : World) : SafepointSystem :=
  { c.assign j (.checking reason w.registered) with
    world := w, gate := some (.warden j), book := some j }

theorem stop_alone {reason : StopReason} {w : World} (hduty : c.duty j = .idle)
    (hgate : c.gate = none) (hbook : c.book = none) (hstop : c.world.stop? reason = some w) :
    ∃ n, c.run (.stop j reason :: List.replicate n (.advance j)) =
      { c.assign j (.holding reason) with world := w } := by
  obtain ⟨hgranted, hsafe⟩ := World.request_of_stop? hstop
  have hsummon :
      c.run [.stop j reason, .advance j, .advance j, .advance j] = c.summon j reason w := by
    simp [run, step, advance, assign, summon, hduty, hgate, hbook, hgranted]
  have hchecking : (c.summon j reason w).duty j = .checking reason w.registered :=
    assign_duty_self ..
  obtain ⟨n, hn⟩ := checking_alone hchecking hsafe
  refine ⟨3 + n + 1, ?_⟩
  have hdeeds : (.stop j reason :: List.replicate (3 + n + 1) (.advance j) : List Deed) =
      [.stop j reason, .advance j, .advance j, .advance j] ++
        (List.replicate n (.advance j) ++ [.advance j]) := by
    simp [List.replicate_add]
  rw [hdeeds, run_append, run_append, hsummon, hn]
  simp [run, step, advance, assign, summon, hgate, hbook]

theorem resume_alone {reason : StopReason} (hduty : c.duty j = .holding reason)
    (hgate : c.gate = none) : c.run [.resume j, .advance j, .advance j] =
      { c.assign j .idle with world := c.world.resume } := by
  simp [run, step, advance, assign, hduty, hgate, World.resume]

end SafepointSystem

end SweptHeap
