import Mathlib
import SweptHeap.Page.Uniform

/-!
# Chains of free ranges

The free blocks of a uniform page are held together by ranges that lie in the blocks themselves.
`Chain` says which blocks a range and the cells behind it stand for, block by block, in the way in
which allocation takes them. `Segment` is a chain whose last link has not been written yet, as a
sweep keeps it. Both read no cell but the free blocks' own first ones, so writing anywhere else
leaves them alone.
-/

namespace SweptHeap.UniformPage

/-- The free blocks behind the range from `first` to `last`, in a page of blocks of `size` cells. -/
inductive Chain (cells : Array Cell) (size limit : Nat) : (first last : Nat) → List Nat → Prop
  | done : Chain cells size limit limit limit []
  | bump {first last : Nat} {free : List Nat} : first < last →
      Chain cells size limit (first + size) last free →
      Chain cells size limit first last (first :: free)
  | jump {last : Nat} {next : FreeRange} {free : List Nat} : last < limit → size ∣ last →
      cells[last]? = some (.range next) → last < next.first →
      Chain cells size limit next.first next.last free →
      Chain cells size limit last last (last :: free)

/-- A chain up to the block `link`, which is free and shall hold the next range. -/
inductive Segment (cells : Array Cell) (size link : Nat) : (first last : Nat) → List Nat → Prop
  | stop : size ∣ link → Segment cells size link link link [link]
  | bump {first last : Nat} {free : List Nat} : first < last →
      Segment cells size link (first + size) last free →
      Segment cells size link first last (first :: free)
  | jump {last : Nat} {next : FreeRange} {free : List Nat} : size ∣ last →
      cells[last]? = some (.range next) → last < next.first →
      Segment cells size link next.first next.last free →
      Segment cells size link last last (last :: free)

variable {cells cells' : Array Cell} {size limit link first last : Nat} {next : FreeRange}
variable {free more : List Nat}

namespace Chain

theorem first_le_last (h : Chain cells size limit first last free) : first ≤ last := by
  cases h with
  | done => exact Nat.le_refl _
  | bump hlt _ => exact Nat.le_of_lt hlt
  | jump => exact Nat.le_refl _

theorem last_le_limit (h : Chain cells size limit first last free) : last ≤ limit := by
  induction h with
  | done => exact Nat.le_refl _
  | bump _ _ ih => exact ih
  | jump hlt => exact Nat.le_of_lt hlt

theorem first_le_limit (h : Chain cells size limit first last free) : first ≤ limit :=
  Nat.le_trans h.first_le_last h.last_le_limit

theorem first_le_of_mem (h : Chain cells size limit first last free) : ∀ c ∈ free, first ≤ c := by
  induction h with
  | done => simp
  | bump _ _ ih =>
    intro c hc
    rcases List.mem_cons.mp hc with rfl | hc
    · exact Nat.le_refl _
    · have := ih c hc
      omega
  | jump _ _ _ hlt _ ih =>
    intro c hc
    rcases List.mem_cons.mp hc with rfl | hc
    · exact Nat.le_refl _
    · have := ih c hc
      omega

theorem pairwise_lt (hs : 0 < size) (h : Chain cells size limit first last free) :
    free.Pairwise (· < ·) := by
  induction h with
  | done => exact .nil
  | bump _ hc ih =>
    refine .cons (fun c hmem => ?_) ih
    have := hc.first_le_of_mem c hmem
    omega
  | jump _ _ _ hlt hc ih =>
    refine .cons (fun c hmem => ?_) ih
    have := hc.first_le_of_mem c hmem
    omega

theorem lt_limit (hs : 0 < size) (h : Chain cells size limit first last free) :
    ∀ c ∈ free, c < limit := by
  induction h with
  | done => simp
  | bump _ hc ih =>
    intro c hmem
    rcases List.mem_cons.mp hmem with rfl | hmem
    · have := hc.first_le_limit
      omega
    · exact ih c hmem
  | jump hlt _ _ _ _ ih =>
    intro c hmem
    rcases List.mem_cons.mp hmem with rfl | hmem
    · exact hlt
    · exact ih c hmem

theorem dvd_first (hl : size ∣ limit) (h : Chain cells size limit first last free) :
    size ∣ first := by
  induction h with
  | done => exact hl
  | bump _ _ ih => exact (Nat.dvd_add_left (Nat.dvd_refl size)).mp ih
  | jump _ hd => exact hd

theorem dvd_of_mem (hl : size ∣ limit) (h : Chain cells size limit first last free) :
    ∀ c ∈ free, size ∣ c := by
  induction h with
  | done => simp
  | bump hlt hc ih =>
    intro c hmem
    rcases List.mem_cons.mp hmem with rfl | hmem
    · exact (bump hlt hc).dvd_first hl
    · exact ih c hmem
  | jump _ hd _ _ _ ih =>
    intro c hmem
    rcases List.mem_cons.mp hmem with rfl | hmem
    · exact hd
    · exact ih c hmem

/-- Only the free blocks themselves are read. -/
theorem congr (h : Chain cells size limit first last free)
    (he : ∀ c ∈ free, cells'[c]? = cells[c]?) : Chain cells' size limit first last free := by
  induction h with
  | done => exact .done
  | bump hlt _ ih => exact .bump hlt (ih fun c hc => he c (List.mem_cons_of_mem _ hc))
  | jump hlt hd hr hn _ ih =>
    refine .jump hlt hd ?_ hn (ih fun c hc => he c (List.mem_cons_of_mem _ hc))
    rw [he _ List.mem_cons_self, hr]

theorem first_lt_limit_iff (h : Chain cells size limit first last free) :
    first < limit ↔ free ≠ [] := by
  cases h with
  | done => simp
  | bump hlt hc =>
    have := (bump hlt hc).last_le_limit
    simp only [ne_eq, reduceCtorEq, not_false_eq_true, iff_true]
    omega
  | jump hlt => simpa using hlt

/-- The blocks up to the limit form a chain on their own. -/
theorem tail (hs : 0 < size) (n first : Nat) :
    Chain cells size (first + size * n) first (first + size * n) (List.range' first n size) := by
  induction n generalizing first with
  | zero => simpa using done
  | succ n ih =>
    have hn : first + size * (n + 1) = first + size + size * n := by rw [Nat.mul_succ]; omega
    rw [hn, List.range'_succ]
    exact .bump (by omega) (ih (first + size))

/-- A range that ends before the limit, taken as a whole. -/
theorem split (h : Chain cells size limit first last free) (hlt : last < limit) :
    ∃ n next rest, last = first + size * n ∧ free = List.range' first (n + 1) size ++ rest ∧
      cells[last]? = some (.range next) ∧ last < next.first ∧
      Chain cells size limit next.first next.last rest := by
  induction h with
  | done => omega
  | bump _ _ ih =>
    obtain ⟨n, next, rest, rfl, rfl, hr, hn, hc⟩ := ih hlt
    refine ⟨n + 1, next, rest, ?_, ?_, hr, hn, hc⟩
    · rw [Nat.mul_succ]; omega
    · rw [List.range'_succ (n := n + 1), List.cons_append]
  | @jump last next free _ _ hr hn hc => exact ⟨0, next, free, by simp, by simp, hr, hn, hc⟩

/-- A range that ends at the limit, taken as a whole. -/
theorem split_last (h : Chain cells size limit first last free) (hge : limit ≤ last) :
    ∃ n, limit = first + size * n ∧ free = List.range' first n size := by
  induction h with
  | done => exact ⟨0, by simp, rfl⟩
  | bump _ _ ih =>
    obtain ⟨n, hn, rfl⟩ := ih hge
    refine ⟨n + 1, ?_, List.range'_succ.symm⟩
    rw [Nat.mul_succ]; omega
  | jump => omega

end Chain

namespace Segment

theorem first_le_link (h : Segment cells size link first last free) : first ≤ link := by
  induction h with
  | stop => exact Nat.le_refl _
  | bump _ _ ih => omega
  | jump _ _ hlt _ ih => omega

theorem le_link (h : Segment cells size link first last free) : ∀ c ∈ free, c ≤ link := by
  induction h with
  | stop => simp
  | bump hlt hc ih =>
    intro c hmem
    rcases List.mem_cons.mp hmem with rfl | hmem
    · exact (bump hlt hc).first_le_link
    · exact ih c hmem
  | jump hd hr hlt hc ih =>
    intro c hmem
    rcases List.mem_cons.mp hmem with rfl | hmem
    · exact (jump hd hr hlt hc).first_le_link
    · exact ih c hmem

theorem link_mem (h : Segment cells size link first last free) : link ∈ free := by
  induction h with
  | stop => exact List.mem_singleton.mpr rfl
  | bump _ _ ih => exact List.mem_cons_of_mem _ ih
  | jump _ _ _ _ ih => exact List.mem_cons_of_mem _ ih

/-- The block at the end of a segment is not read. -/
theorem congr (h : Segment cells size link first last free)
    (he : ∀ c ∈ free, c ≠ link → cells'[c]? = cells[c]?) :
    Segment cells' size link first last free := by
  induction h with
  | stop hd => exact .stop hd
  | bump hlt _ ih => exact .bump hlt (ih fun c hc => he c (List.mem_cons_of_mem _ hc))
  | @jump last next free hd hr hlt hc ih =>
    refine .jump hd ?_ hlt (ih fun c hc => he c (List.mem_cons_of_mem _ hc))
    have := hc.first_le_link
    rw [he last List.mem_cons_self (by omega), hr]

/-- Writing the last link joins a segment to the next one. -/
theorem append {link' : Nat} (h : Segment cells size link first last free)
    (hr : cells[link]? = some (.range next)) (hlt : link < next.first)
    (hn : Segment cells size link' next.first next.last more) :
    Segment cells size link' first last (free ++ more) := by
  induction h with
  | stop hd => exact .jump hd hr hlt hn
  | bump h _ ih => exact .bump h ih
  | jump hd hr h _ ih => exact .jump hd hr h ih

/-- Writing the last link closes a segment with a chain. -/
theorem close (h : Segment cells size link first last free) (hl : link < limit)
    (hr : cells[link]? = some (.range next)) (hlt : link < next.first)
    (hn : Chain cells size limit next.first next.last more) :
    Chain cells size limit first last (free ++ more) := by
  induction h with
  | stop hd => exact .jump hl hd hr hlt hn
  | bump h _ ih => exact .bump h ih
  | jump hd hr h hc ih =>
    have := hc.first_le_link
    exact .jump (by omega) hd hr h ih

/-- Neighbouring blocks form a segment on their own. -/
theorem run (hs : 0 < size) (n : Nat) {first : Nat} (hd : size ∣ first) :
    Segment cells size (first + size * n) first (first + size * n)
      (List.range' first (n + 1) size) := by
  induction n generalizing first with
  | zero => simpa using stop hd
  | succ n ih =>
    have hn : first + size * (n + 1) = first + size + size * n := by rw [Nat.mul_succ]; omega
    rw [hn, List.range'_succ]
    exact .bump (by omega) (ih (Nat.dvd_add hd (Nat.dvd_refl size)))

end Segment

end SweptHeap.UniformPage
