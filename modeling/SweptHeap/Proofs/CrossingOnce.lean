import Mathlib
import SweptHeap.Proofs.TriggerRearming

/-!
# One report for each crossing

Threads add to the meter one after the other, in an order that nobody controls. While the target
stays and the count does not wrap around, the count goes past the target at most once, and the
addition that takes it there is the only one that is reported.
-/

namespace SweptHeap.Meter

variable {m : Meter} {ns : List Nat}

/-- The meter after several additions. -/
def after (m : Meter) (ns : List Nat) : Meter := ns.foldl (fun m n => (m.add n).2) m

theorem after_eq (hlt : m.allocated + ns.sum < wordLimit) :
    m.after ns = { m with allocated := m.allocated + ns.sum } := by
  induction ns generalizing m with
  | nil => rfl
  | cons n ns ih =>
    rw [List.sum_cons, ← Nat.add_assoc] at hlt
    have hadd := add_allocated (Nat.lt_of_le_of_lt (Nat.le_add_right _ ns.sum) hlt)
    have hrest : (m.add n).2.allocated + ns.sum < wordLimit := by rwa [hadd]
    change (m.add n).2.after ns = _
    rw [ih hrest, hadd, List.sum_cons, Nat.add_assoc]

theorem sum_take_le (ns : List Nat) (i : Nat) : (ns.take i).sum ≤ ns.sum :=
  (ns.take_sublist i).sum_le_sum fun _ _ => Nat.zero_le _

theorem after_take (hlt : m.allocated + ns.sum < wordLimit) (i : Nat) :
    m.after (ns.take i) = { m with allocated := m.allocated + (ns.take i).sum } := by
  have hle := sum_take_le ns i
  exact after_eq (by omega)

/-- What the meter says to an addition depends on those before it. -/
theorem getElem?_reports (m : Meter) (ns : List Nat) (i : Nat) :
    (m.reports ns)[i]? = ns[i]?.map fun n => ((m.after (ns.take i)).add n).1 := by
  induction ns generalizing m i with
  | nil => simp [reports]
  | cons n ns ih =>
    cases i with
    | zero => rfl
    | succ i =>
      rw [reports, List.getElem?_cons_succ, ih, List.getElem?_cons_succ, List.take_succ_cons]
      rfl

/-- The addition at `i` is reported exactly when it takes the count across the target. -/
theorem reports_iff (hlt : m.allocated + ns.sum < wordLimit) (i : Nat) :
    (m.reports ns)[i]? = some true ↔ i < ns.length ∧ m.allocated + (ns.take i).sum < m.target ∧
      m.target ≤ m.allocated + (ns.take (i + 1)).sum := by
  rw [getElem?_reports]
  by_cases hi : i < ns.length
  · have hsum : (ns.take (i + 1)).sum = (ns.take i).sum + ns[i] := List.sum_take_succ ns i hi
    have hle := sum_take_le ns (i + 1)
    have hadd := add_fst_iff (m := m.after (ns.take i)) (n := ns[i])
    rw [after_take hlt] at hadd ⊢
    rw [List.getElem?_eq_getElem hi, Option.map_some, Option.some.injEq,
      hadd (by dsimp only; omega), hsum]
    simp only [hi, true_and, Nat.add_assoc]
  · simp [hi]

/-- The positions of the additions after which the count is at the target or beyond. -/
def atTarget (m : Meter) (ns : List Nat) : Set Nat :=
  {i | i < ns.length ∧ m.target ≤ (m.after (ns.take (i + 1))).allocated}

theorem mem_atTarget (hlt : m.allocated + ns.sum < wordLimit) {i : Nat} :
    i ∈ m.atTarget ns ↔ i < ns.length ∧ m.target ≤ m.allocated + (ns.take (i + 1)).sum := by
  rw [atTarget, Set.mem_ofPred_eq, after_take hlt]

/-- The addition that first takes the count to the target is the one that is reported. -/
theorem reports_of_isLeast (hbelow : m.allocated < m.target)
    (hlt : m.allocated + ns.sum < wordLimit) {i : Nat} (hi : IsLeast (m.atTarget ns) i) (j : Nat) :
    (m.reports ns)[j]? = some true ↔ j = i := by
  obtain ⟨hreach, hleast⟩ := hi
  rw [mem_atTarget hlt] at hreach
  rw [reports_iff hlt]
  constructor
  · rintro ⟨hj, hbefore, hafter⟩
    -- Up to `j` the count is below the target, and from `i` on it is not.
    refine Nat.le_antisymm (Nat.not_lt.mp fun hij => ?_)
      (hleast ((mem_atTarget hlt).mpr ⟨hj, hafter⟩))
    have hmono : (ns.take (i + 1)).sum ≤ (ns.take j).sum := List.monotone_sum_take ns hij
    omega
  · rintro rfl
    refine ⟨hreach.1, Nat.not_le.mp fun hearly => ?_, hreach.2⟩
    cases j with
    | zero =>
      rw [List.take_zero, List.sum_nil] at hearly
      omega
    | succ k =>
      have hk := (mem_atTarget hlt).mpr ⟨Nat.lt_of_succ_lt hreach.1, hearly⟩
      exact absurd (hleast hk) (Nat.not_succ_le_self k)

/-- Several threads add to a meter that is below its target, in whatever order. If they reach the
target, exactly one addition is reported: the one that first takes the count to the target or
beyond. If they do not reach it, none is. -/
theorem crossing_reported_once (hbelow : m.allocated < m.target) {threads : List (List Nat)}
    (hlt : m.allocated + threads.flatten.sum < wordLimit) {order : List Nat}
    (horder : order.Perm threads.flatten) :
    (m.target ≤ m.allocated + threads.flatten.sum →
      ∃ i, IsLeast (m.atTarget order) i ∧ ∀ j, (m.reports order)[j]? = some true ↔ j = i) ∧
      (m.allocated + threads.flatten.sum < m.target → true ∉ m.reports order) := by
  rw [← horder.sum_eq] at hlt ⊢
  refine ⟨fun hreach => ?_, fun hshort htrue => ?_⟩
  · have hne : order ≠ [] := by
      rintro rfl
      rw [List.sum_nil] at hreach
      omega
    have hlast : order.length - 1 + 1 = order.length :=
      Nat.sub_add_cancel (List.length_pos_iff.mpr hne)
    have hex : (m.atTarget order).Nonempty := by
      refine ⟨order.length - 1, (mem_atTarget hlt).mpr ⟨by omega, ?_⟩⟩
      rwa [hlast, List.take_length]
    have hleast : IsLeast (m.atTarget order) (sInf (m.atTarget order)) :=
      ⟨Nat.sInf_mem hex, fun _ hi => Nat.sInf_le hi⟩
    exact ⟨_, hleast, reports_of_isLeast hbelow hlt hleast⟩
  · obtain ⟨i, hi⟩ := List.mem_iff_getElem?.mp htrue
    obtain ⟨-, -, hreach⟩ := (reports_iff hlt i).mp hi
    have hle := sum_take_le order (i + 1)
    omega

/-- Two threads reach a target of 24 bytes exactly. Both also add nothing once, and the last
addition comes when the target is reached already. -/
theorem crossing_reported_once_pair :
    let m : Meter := ⟨0, 24⟩
    let threads : List (List Nat) := [[16, 0, 8], [0, 8]]
    let order : List Nat := [16, 0, 0, 8, 8]
    (m.allocated < m.target ∧ m.allocated + threads.flatten.sum < wordLimit ∧
        order.Perm threads.flatten ∧ m.target ≤ m.allocated + threads.flatten.sum) ∧
      ∃ i, IsLeast (m.atTarget order) i ∧ ∀ j, (m.reports order)[j]? = some true ↔ j = i := by
  intro m threads order
  have hperm : order.Perm threads.flatten := by decide
  have hlt : m.allocated + threads.flatten.sum < wordLimit := by decide
  exact ⟨⟨by decide, hlt, hperm, by decide⟩,
    (crossing_reported_once (by decide) hlt hperm).1 (by decide)⟩

end SweptHeap.Meter
