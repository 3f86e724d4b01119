import Mathlib
import SweptHeap.Page.Basic

/-!
# What a sweep does to its surroundings

A sweep touches what is around its page only by asking, and sets aside what it is told to finalize.
What every question and answer preserves is therefore preserved by the sweep of any page, sound or
not, also by one that ends in a fault.
-/

namespace SweptHeap

/-- What is set aside after an answer about the block or record at `index`. -/
def Fate.enqueue (fate : Fate) (index : Nat) (queued : Array Nat) : Array Nat :=
  if fate = .finalize then queued.push index else queued

variable {ε : Type} {I : ε → Array Nat → Prop}

namespace UniformPage.Walk

variable {ask : Sight → ε → Ruling × ε}

@[simp] theorem env_chain (w : Walk ε) (range : FreeRange) : (w.chain range).env = w.env := by
  unfold chain
  cases w.link <;> rfl

@[simp] theorem env_passFree (w : Walk ε) (cell : Nat) : (w.passFree cell).env = w.env := by
  unfold passFree
  cases w.run <;> rfl

@[simp] theorem env_passLive (w : Walk ε) : w.passLive.env = w.env := by
  obtain ⟨page, env, old, link, run, live, tally, queued⟩ := w
  cases run with
  | none => rfl
  | some r => exact env_chain _ r

@[simp] theorem env_finish (w : Walk ε) : w.finish.env = w.env := env_chain _ _

@[simp] theorem queued_chain (w : Walk ε) (range : FreeRange) :
    (w.chain range).queued = w.queued := by
  unfold chain
  cases w.link <;> rfl

@[simp] theorem queued_passFree (w : Walk ε) (cell : Nat) :
    (w.passFree cell).queued = w.queued := by
  unfold passFree
  cases w.run <;> rfl

@[simp] theorem queued_passLive (w : Walk ε) : w.passLive.queued = w.queued := by
  obtain ⟨page, env, old, link, run, live, tally, queued⟩ := w
  cases run with
  | none => rfl
  | some r => exact queued_chain _ r

@[simp] theorem queued_finish (w : Walk ε) : w.finish.queued = w.queued := queued_chain _ _

theorem kept_judge (hask : ∀ s e q, I e q → I (ask s e).2 ((ask s e).1.fate.enqueue s.index q))
    (cell : Nat) (w : Walk ε) (h : I w.env w.queued) :
    I (w.judge ask cell).env (w.judge ask cell).queued := by
  obtain ⟨⟨cells, size, limit, free, bytes⟩, env, old, link, run, live, tally, queued⟩ := w
  have hasked :=
    hask ⟨cell, (cells.getD cell .zero).isMark, (cells.getD (cell + 1) .zero).toLink⟩ env _ h
  unfold judge
  dsimp only
  split
  · rename_i hfate
    rw [env_passFree, queued_passFree]
    rwa [hfate] at hasked
  · rw [env_passLive, queued_passLive]
    exact hasked

theorem kept_step (hask : ∀ s e q, I e q → I (ask s e).2 ((ask s e).1.fate.enqueue s.index q))
    (cell : Nat) (w : Walk ε) (h : I w.env w.queued) :
    I (w.step ask cell).2.env (w.step ask cell).2.queued := by
  unfold step
  split_ifs
  · exact kept_judge hask cell w h
  · rw [env_passFree, queued_passFree]
    exact h
  · rw [env_passFree, queued_passFree]
    exact h
  · exact h

theorem kept_advance (hask : ∀ s e q, I e q → I (ask s e).2 ((ask s e).1.fate.enqueue s.index q))
    (left cell : Nat) (w : Walk ε) (h : I w.env w.queued) :
    I (advance ask left cell w).2.env (advance ask left cell w).2.queued := by
  induction left generalizing cell w with
  | zero => exact h
  | succ left ih =>
    have hstep := kept_step hask cell w h
    unfold advance
    generalize w.step ask cell = done at hstep
    obtain ⟨r, w'⟩ := done
    cases r with
    | error e => exact hstep
    | ok u => exact ih _ _ hstep

end UniformPage.Walk

namespace TiledPage.Walk

variable {ask : Sight → ε → Ruling × ε}

theorem kept_judge (hask : ∀ s e q, I e q → I (ask s e).2 ((ask s e).1.fate.enqueue s.index q))
    (cell size : Nat) (w : Walk ε) (h : I w.env w.queued) :
    I (w.judge ask cell size).env (w.judge ask cell size).queued := by
  obtain ⟨cells, env, liveBytes, tally, queued⟩ := w
  have hasked := hask ⟨cell + 1, (cells.getD (cell + 1) .zero).isMark,
    (cells.getD (cell + 1 + 1) .zero).toLink⟩ env _ h
  unfold judge
  dsimp only
  split
  · rename_i hfate
    rwa [hfate] at hasked
  · exact hasked

theorem kept_run (hask : ∀ s e q, I e q → I (ask s e).2 ((ask s e).1.fate.enqueue s.index q))
    (left cell : Nat) (w : Walk ε) (h : I w.env w.queued) :
    I (run ask left cell w).env (run ask left cell w).queued := by
  induction left generalizing cell w with
  | zero => exact h
  | succ left ih =>
    unfold run
    split_ifs
    · exact h
    · apply ih
      split_ifs
      · exact kept_judge hask _ _ w h
      · exact h

end TiledPage.Walk

theorem LargePage.kept_sweep {ask : Sight → ε → Ruling × ε}
    (hask : ∀ s e q, I e q → I (ask s e).2 ((ask s e).1.fate.enqueue s.index q))
    (p : LargePage) {env : ε} (h : I env #[]) :
    I (p.sweep ask env).env (p.sweep ask env).queued := by
  obtain ⟨cells, allocated⟩ := p
  cases allocated with
  | false => exact h
  | true =>
    have hasked := hask ⟨0, (cells.getD 0 .zero).isMark, (cells.getD 1 .zero).toLink⟩ env _ h
    unfold sweep
    dsimp only
    split <;> rename_i hfate <;> rwa [hfate] at hasked

namespace RecordPage.Walk

variable {ask : Nat → Record → ε → Fate × ε}

theorem kept_judge (hask : ∀ i r e q, I e q → I (ask i r e).2 ((ask i r e).1.enqueue i q)) (i : Nat)
    (record : Record) (w : Walk ε) (h : I w.env w.queued) :
    I (w.judge ask i record).env (w.judge ask i record).queued := by
  obtain ⟨slots, env, live, tally, queued⟩ := w
  have hasked := hask i record env _ h
  unfold judge
  dsimp only
  split <;> rename_i hfate <;> rwa [hfate] at hasked

theorem kept_run (hask : ∀ i r e q, I e q → I (ask i r e).2 ((ask i r e).1.enqueue i q))
    (left i : Nat) (w : Walk ε) (h : I w.env w.queued) :
    I (run ask left i w).env (run ask left i w).queued := by
  induction left generalizing i w with
  | zero => exact h
  | succ left ih =>
    unfold run
    split
    · exact ih _ _ (kept_judge hask _ _ w h)
    · exact ih _ _ h

end RecordPage.Walk

/-- The sweep of a page preserves what its questions preserve. -/
theorem Page.kept_sweep {ask : Sight → ε → Ruling × ε} {askRecord : Nat → Record → ε → Fate × ε}
    (hask : ∀ s e q, I e q → I (ask s e).2 ((ask s e).1.fate.enqueue s.index q))
    (hrecord : ∀ i r e q, I e q → I (askRecord i r e).2 ((askRecord i r e).1.enqueue i q))
    (p : Page) {env : ε} (h : I env #[]) :
    I (p.sweep ask askRecord env).env (p.sweep ask askRecord env).queued := by
  cases p with
  | uniform q =>
    change I (q.sweep ask env).env (q.sweep ask env).queued
    have hwalk :=
      UniformPage.Walk.kept_advance hask q.capacity 0 ⟨q, env, q.free, none, none, 0, {}, #[]⟩ h
    unfold UniformPage.sweep
    dsimp only
    generalize UniformPage.Walk.advance ask q.capacity 0 _ = done at hwalk
    obtain ⟨r, w⟩ := done
    cases r with
    | error e => exact hwalk
    | ok u =>
      change I w.finish.env w.finish.queued
      rw [UniformPage.Walk.env_finish, UniformPage.Walk.queued_finish]
      exact hwalk
  | tiled q => exact TiledPage.Walk.kept_run hask tiledCells 1 ⟨q.cells, env, 0, {}, #[]⟩ h
  | large q => exact q.kept_sweep hask h
  | records q => exact RecordPage.Walk.kept_run hrecord recordSlots 0 ⟨q.slots, env, 0, {}, #[]⟩ h

end SweptHeap
