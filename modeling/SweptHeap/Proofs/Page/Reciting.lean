import Mathlib
import SweptHeap.Proofs.Page.Asking
import SweptHeap.Proofs.Page.Kinds

/-!
# What becomes of a page depends on the rulings alone

A sweep does the same to a page whoever answers, as long as the answers are the same. So the page
after a sweep is what it becomes when the rulings are read out from a list (`Page.after`).

`Echoes` compares two who answer. Their answers agree as long as their surroundings match, or else
the second one notices that something is amiss and remembers it.
-/

namespace SweptHeap

variable {ε ε' : Type} {R : ε → ε' → Prop} {I : ε' → Prop}

/-- Answers agree as long as the surroundings match in the sense of `R`; what is amiss stays so. -/
structure Echoes (R : ε → ε' → Prop) (I : ε' → Prop) (ask : Sight → ε → Ruling × ε)
    (ask' : Sight → ε' → Ruling × ε') : Prop where
  answer : ∀ s e e', R e e' →
    (ask' s e').1 = (ask s e).1 ∧ R (ask s e).2 (ask' s e').2 ∨ I (ask' s e').2
  amiss : ∀ s e', I e' → I (ask' s e').2

variable {ask : Sight → ε → Ruling × ε} {ask' : Sight → ε' → Ruling × ε'}

namespace UniformPage.Walk

/-- The same walk in other surroundings. -/
def swap (w : Walk ε) (e' : ε') : Walk ε' :=
  ⟨w.page, e', w.old, w.link, w.run, w.live, w.tally, w.queued⟩

theorem chain_swap (w : Walk ε) (e' : ε') (range : FreeRange) :
    (w.swap e').chain range = (w.chain range).swap e' := by
  unfold chain swap
  cases w.link <;> rfl

theorem passFree_swap (w : Walk ε) (e' : ε') (cell : Nat) :
    (w.swap e').passFree cell = (w.passFree cell).swap e' := by
  unfold passFree swap
  cases w.run <;> rfl

theorem passLive_swap (w : Walk ε) (e' : ε') : (w.swap e').passLive = w.passLive.swap e' := by
  obtain ⟨page, env, old, link, run, live, tally, queued⟩ := w
  cases run with
  | none => rfl
  | some r => exact chain_swap ⟨page, env, old, link, none, live + 1, tally, queued⟩ e' r

theorem finish_swap (w : Walk ε) (e' : ε') : (w.swap e').finish = w.finish.swap e' := by
  obtain ⟨page, env, old, link, run, live, tally, queued⟩ := w
  exact chain_swap ⟨_, env, old, link, none, live, tally, queued⟩ e' _

theorem judge_echo (h : Echoes R I ask ask') (cell : Nat) (w : Walk ε) {e' : ε'} (hR : R w.env e') :
    (∃ e'', (w.swap e').judge ask' cell = (w.judge ask cell).swap e'' ∧
      R (w.judge ask cell).env e'') ∨ I ((w.swap e').judge ask' cell).env := by
  obtain ⟨⟨cells, size, limit, free, bytes⟩, env, old, link, run, live, tally, queued⟩ := w
  have hanswer :=
    h.answer ⟨cell, (cells.getD cell .zero).isMark, (cells.getD (cell + 1) .zero).toLink⟩ env e' hR
  unfold judge swap
  dsimp only
  generalize ask _ env = given at hanswer
  generalize ask' _ e' = given' at hanswer
  obtain ⟨ruling, env₁⟩ := given
  obtain ⟨ruling', e₁⟩ := given'
  dsimp only at hanswer ⊢
  rcases hanswer with ⟨rfl, hR₁⟩ | hI
  · refine .inl ⟨e₁, ?_⟩
    cases ruling'.fate with
    | dead =>
      dsimp only
      rw [env_passFree]
      exact ⟨passFree_swap ⟨⟨zeroCells cells cell size, size, limit, free, bytes⟩,
        env₁, old, link, run, live, _, queued⟩ e₁ cell, hR₁⟩
    | live =>
      dsimp only
      rw [env_passLive]
      exact ⟨passLive_swap ⟨_, env₁, old, link, run, live, _, _⟩ e₁, hR₁⟩
    | finalize =>
      dsimp only
      rw [env_passLive]
      exact ⟨passLive_swap ⟨_, env₁, old, link, run, live, _, _⟩ e₁, hR₁⟩
  · right
    split
    · rwa [env_passFree]
    · rwa [env_passLive]

theorem step_echo (h : Echoes R I ask ask') (cell : Nat) (w : Walk ε) {e' : ε'} (hR : R w.env e') :
    (∃ e'', (w.swap e').step ask' cell = ((w.step ask cell).1, (w.step ask cell).2.swap e'') ∧
        R (w.step ask cell).2.env e'') ∨
      I ((w.swap e').step ask' cell).2.env := by
  have hold : (w.swap e').old = w.old := rfl
  simp only [step, hold]
  by_cases hfirst : cell < w.old.first
  · simp only [if_pos hfirst]
    rcases judge_echo h cell w hR with ⟨e'', heq, hR'⟩ | hI
    · exact .inl ⟨e'', Prod.ext rfl heq, hR'⟩
    · exact .inr hI
  · left
    simp only [if_neg hfirst]
    refine ⟨e', ?_⟩
    split_ifs
    · refine ⟨Prod.ext rfl (passFree_swap w e' cell), ?_⟩
      rwa [env_passFree]
    · refine ⟨Prod.ext rfl (passFree_swap { w with old := _ } e' cell), ?_⟩
      rwa [env_passFree]
    · exact ⟨rfl, hR⟩

theorem advance_echo (h : Echoes R I ask ask') (left cell : Nat) (w : Walk ε) {e' : ε'}
    (hR : R w.env e') :
    (∃ e'', advance ask' left cell (w.swap e') =
        ((advance ask left cell w).1, (advance ask left cell w).2.swap e'') ∧
        R (advance ask left cell w).2.env e'') ∨
      I (advance ask' left cell (w.swap e')).2.env := by
  induction left generalizing cell w e' with
  | zero => exact .inl ⟨e', rfl, hR⟩
  | succ left ih =>
    unfold advance
    rcases step_echo h cell w hR with ⟨e'', heq, hR'⟩ | hI
    · rw [heq]
      generalize w.step ask cell = done at hR' ⊢
      obtain ⟨result, w'⟩ := done
      cases result with
      | error e => exact .inl ⟨e'', rfl, hR'⟩
      | ok u => exact ih _ w' hR'
    · right
      generalize (w.swap e').step ask' cell = done at hI ⊢
      obtain ⟨result, w'⟩ := done
      cases result with
      | error e => exact hI
      | ok u => exact kept_advance (I := fun e _ => I e) (fun s e _ => h.amiss s e) left _ w' hI

end UniformPage.Walk

namespace TiledPage.Walk

/-- The same walk in other surroundings. -/
def swap (w : Walk ε) (e' : ε') : Walk ε' := ⟨w.cells, e', w.liveBytes, w.tally, w.queued⟩

theorem judge_echo (h : Echoes R I ask ask') (cell size : Nat) (w : Walk ε)
    {e' : ε'} (hR : R w.env e') :
    (∃ e'', (w.swap e').judge ask' cell size = (w.judge ask cell size).swap e'' ∧
        R (w.judge ask cell size).env e'') ∨
      I ((w.swap e').judge ask' cell size).env := by
  obtain ⟨cells, env, liveBytes, tally, queued⟩ := w
  have hanswer := h.answer
    ⟨cell + 1, (cells.getD (cell + 1) .zero).isMark, (cells.getD (cell + 1 + 1) .zero).toLink⟩ env
    e' hR
  unfold judge swap
  dsimp only
  generalize ask _ env = given at hanswer
  generalize ask' _ e' = given' at hanswer
  obtain ⟨ruling, env₁⟩ := given
  obtain ⟨ruling', e₁⟩ := given'
  dsimp only at hanswer ⊢
  rcases hanswer with ⟨rfl, hR₁⟩ | hI
  · exact .inl ⟨e₁, by split <;> rfl, by split <;> exact hR₁⟩
  · exact .inr (by split <;> exact hI)

theorem run_echo (h : Echoes R I ask ask') (left cell : Nat) (w : Walk ε)
    {e' : ε'} (hR : R w.env e') :
    (∃ e'', run ask' left cell (w.swap e') = (run ask left cell w).swap e'' ∧
        R (run ask left cell w).env e'') ∨
      I (run ask' left cell (w.swap e')).env := by
  induction left generalizing cell w e' with
  | zero => exact .inl ⟨e', rfl, hR⟩
  | succ left ih =>
    unfold run
    dsimp only [swap]
    split_ifs
    · exact .inl ⟨e', rfl, hR⟩
    · rcases judge_echo h cell (headerAt w.cells cell).size w hR with ⟨e'', heq, hR'⟩ | hI
      · rw [show (⟨w.cells, e', w.liveBytes, w.tally, w.queued⟩ : Walk ε') =
          w.swap e' from rfl, heq]
        exact ih _ _ hR'
      · exact .inr (kept_run (I := fun e _ => I e) (fun s e _ => h.amiss s e) left _ _ hI)
    · exact ih _ w hR

end TiledPage.Walk

theorem LargePage.sweep_echo (h : Echoes R I ask ask') (p : LargePage) {env : ε} {env' : ε'}
    (hR : R env env') :
    (p.sweep ask' env').page = (p.sweep ask env).page ∧
      R (p.sweep ask env).env (p.sweep ask' env').env ∨ I (p.sweep ask' env').env := by
  obtain ⟨cells, allocated⟩ := p
  cases allocated with
  | false => exact .inl ⟨rfl, hR⟩
  | true =>
    have hanswer :=
      h.answer ⟨0, (cells.getD 0 .zero).isMark, (cells.getD 1 .zero).toLink⟩ env env' hR
    unfold sweep
    dsimp only
    generalize ask _ env = given at hanswer
    generalize ask' _ env' = given' at hanswer
    obtain ⟨ruling, env₁⟩ := given
    obtain ⟨ruling', e₁⟩ := given'
    dsimp only at hanswer ⊢
    rcases hanswer with ⟨rfl, hR₁⟩ | hI
    · exact .inl ⟨by split <;> rfl, by split <;> exact hR₁⟩
    · exact .inr (by split <;> exact hI)

namespace Page

variable {p : Page}

/-- Whoever gives the same answers makes the same of a page. -/
theorem sweep_echo (h : Echoes R I ask ask') (askRecord : Nat → Record → ε → Fate × ε)
    (askRecord' : Nat → Record → ε' → Fate × ε') (hk : p.kind ≠ .records) {env : ε} {env' : ε'}
    (hR : R env env') :
    (p.sweep ask' askRecord' env').page = (p.sweep ask askRecord env).page ∧
        R (p.sweep ask askRecord env).env (p.sweep ask' askRecord' env').env ∨
      I (p.sweep ask' askRecord' env').env := by
  cases p with
  | uniform q =>
    have hwalk :=
      UniformPage.Walk.advance_echo h q.capacity 0 ⟨q, env, q.free, none, none, 0, {}, #[]⟩ hR
    simp only [Page.sweep, UniformPage.sweep]
    rcases hwalk with ⟨e'', heq, hR'⟩ | hI
    · rw [UniformPage.Walk.swap] at heq
      rw [heq]
      generalize UniformPage.Walk.advance ask q.capacity 0 _ = done at hR' ⊢
      obtain ⟨result, w⟩ := done
      cases result with
      | error e => exact .inl ⟨rfl, hR'⟩
      | ok u =>
        dsimp only at hR' ⊢
        rw [UniformPage.Walk.finish_swap, UniformPage.Walk.env_finish]
        exact .inl ⟨rfl, hR'⟩
    · right
      rw [UniformPage.Walk.swap] at hI
      generalize UniformPage.Walk.advance ask' q.capacity 0 _ = done at hI ⊢
      obtain ⟨result, w⟩ := done
      cases result with
      | error e => exact hI
      | ok u =>
        dsimp only
        rwa [UniformPage.Walk.env_finish]
  | tiled q =>
    have hwalk := TiledPage.Walk.run_echo h tiledCells 1 ⟨q.cells, env, 0, {}, #[]⟩ hR
    simp only [Page.sweep, TiledPage.sweep]
    rcases hwalk with ⟨e'', heq, hR'⟩ | hI
    · rw [TiledPage.Walk.swap] at heq
      rw [heq]
      exact .inl ⟨rfl, hR'⟩
    · exact .inr hI
  | large q =>
    rcases q.sweep_echo h hR with ⟨heq, hR'⟩ | hI
    · exact .inl ⟨congrArg large heq, hR'⟩
    · exact .inr hI
  | records q => exact absurd rfl hk

/-! ### Rulings read out -/

/-- Reads the next ruling out, and remembers what it was asked about. -/
def recite (s : Sight) : List Sight × List Ruling → Ruling × List Sight × List Ruling
  | (seen, []) => (⟨.live, false⟩, seen ++ [s], [])
  | (seen, r :: rest) => (r, seen ++ [s], rest)

/-- Records are let live. -/
def reciteRecord (_ : Nat) (_ : Record) (e : List Sight × List Ruling) :
    Fate × List Sight × List Ruling :=
  (.live, e)

theorem recite_seen (s : Sight) (e : List Sight × List Ruling) : (recite s e).2.1 = e.1 ++ [s] := by
  obtain ⟨seen, rulings⟩ := e
  cases rulings <;> rfl

/-- The page after a sweep with these hearings. -/
def after (p : Page) (hearings : List Hearing) : Page :=
  (p.sweep recite reciteRecord ([], hearings.map Prod.snd)).page

theorem hear_recite (sights seen : List Sight) (rulings : List Ruling) :
    (hear recite sights (seen, rulings)).2.1 = seen ++ sights := by
  induction sights generalizing seen rulings with
  | nil => exact (List.append_nil seen).symm
  | cons s rest ih =>
    have hseen := recite_seen s (seen, rulings)
    simp only [hear]
    generalize recite s (seen, rulings) = done at hseen ⊢
    obtain ⟨r, seen', rulings'⟩ := done
    obtain rfl : seen' = seen ++ [s] := hseen
    simp [ih]

/-- The rest of the sights is heard with the rest of the rulings. -/
def Matches (ask : Sight → ε → Ruling × ε) (sights : List Sight) (e : ε)
    (e' : List Sight × List Ruling) : Prop :=
  ∃ rest, sights = e'.1 ++ rest ∧ (hear ask rest e).1.map Prod.snd = e'.2

/-- One who reads out rulings notices when the questions come in another order. -/
theorem echoes_recite (ask : Sight → ε → Ruling × ε) (sights : List Sight) :
    Echoes (Matches ask sights) (fun e' => ¬e'.1 <+: sights) ask recite where
  answer s e e' := by
    rintro ⟨rest, hsights, hrulings⟩
    obtain ⟨seen, rulings⟩ := e'
    by_cases hnext : seen ++ [s] <+: sights
    · left
      obtain ⟨rest', hrest'⟩ := hnext
      have hcons : rest = s :: rest' := by
        rw [hsights, List.append_assoc, List.append_cancel_left_eq] at hrest'
        exact hrest'.symm
      subst hcons
      obtain ⟨r, e₁, tail, hask, htail, hhearings⟩ :=
        hear_cons (Prod.mk.eta (p := hear ask (s :: rest') e)).symm
      rw [hhearings] at hrulings
      obtain rfl : rulings = r :: tail.map Prod.snd := hrulings.symm
      rw [hask]
      refine ⟨rfl, rest', hrest'.symm, ?_⟩
      rw [htail]
      rfl
    · right
      rwa [recite_seen]
  amiss s e' hI := by
    rw [recite_seen]
    exact fun hprefix => hI ((List.prefix_append _ _).trans hprefix)

/-- A sweep makes of a page what its rulings say. -/
theorem Sound.sweep_page (hp : p.Sound) (hk : p.kind ≠ .records) (ask : Sight → ε → Ruling × ε)
    (askRecord : Nat → Record → ε → Fate × ε) (env : ε) :
    (p.sweep ask askRecord env).page = p.after (hear ask p.sights env).1 := by
  have hmatches : Matches ask p.sights env ([], (hear ask p.sights env).1.map Prod.snd) :=
    ⟨p.sights, rfl, rfl⟩
  rcases sweep_echo (echoes_recite ask p.sights) askRecord reciteRecord hk hmatches with
    ⟨heq, -⟩ | hamiss
  · exact heq.symm
  · refine absurd ?_ hamiss
    obtain ⟨hearings, env', p', hhear, -, hsweep⟩ :=
      hp.sweep recite reciteRecord ([], (hear ask p.sights env).1.map Prod.snd)
    rw [asks_of_block hk] at hhear
    have hseen := hear_recite p.sights [] ((hear ask p.sights env).1.map Prod.snd)
    rw [hhear] at hseen
    rw [hsweep]
    exact hseen ▸ List.prefix_refl _

end Page

end SweptHeap
