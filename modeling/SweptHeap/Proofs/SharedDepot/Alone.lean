import Mathlib
import SweptHeap.Proofs.SharedDepot.Basic

/-!
# A depot with one thread

A thread that is not disturbed does, act by act, what the depot does in one go: it ends with the
same answer or the same fault, and leaves the same depot.
-/

namespace SweptHeap

namespace Task

variable {ρ : Type} {policy : Policy ρ} {d d' : Depot ρ} {t t' : Task}

/-- One act of the only thread. -/
def Acts (policy : Policy ρ) (s s' : Task × Depot ρ) : Prop :=
  s' = (s.1.next ((s.1.act policy).apply s.2).1, ((s.1.act policy).apply s.2).2)

/-- The acts of the only thread, one after the other. -/
abbrev Comes (policy : Policy ρ) : Task × Depot ρ → Task × Depot ρ → Prop :=
  Relation.ReflTransGen (Acts policy)

theorem acts_ok (h : (t.act policy).apply d = (.ok t', d')) : Acts policy (t, d) (t', d') := by
  rw [Acts, h]
  rfl

theorem acts_error {e : Fault} (h : (t.act policy).apply d = (.error e, d')) :
    Acts policy (t, d) (.stuck e t.held, d') := by
  rw [Acts, h]
  rfl

/-- The task shows the answer or the fault. -/
def Shows {α : Type} (answer : α → Task) (t : Task) : Except Fault α → Prop
  | .ok a => t = answer a
  | .error e => ∃ held, t = .stuck e held

/-- The thread comes to what the operation gives at once. -/
def Does {α : Type} (policy : Policy ρ) (t : Task) (answer : α → Task) (act : Act (Depot ρ) α)
    (d : Depot ρ) : Prop :=
  ∃ t', Comes policy (t, d) (t', (act.apply d).2) ∧ Shows answer t' (act.apply d).1

theorem Does.of_comes {α : Type} {answer : α → Task} {act act' : Act (Depot ρ) α}
    (hcomes : Comes policy (t, d) (t', d')) (heq : act.apply d = act'.apply d')
    (hdoes : Does policy t' answer act' d') : Does policy t answer act d := by
  obtain ⟨t'', hcomes', hshows⟩ := hdoes
  rw [Does, heq]
  exact ⟨t'', hcomes.trans hcomes', hshows⟩

/-- What follows depends on the answer. -/
theorem Does.bind {α β : Type} {answer : α → Task} {answer' : β → Task} {x : Act (Depot ρ) α}
    {f : α → Act (Depot ρ) β} (hx : Does policy t answer x d)
    (hf : ∀ a d', x.apply d = (.ok a, d') → Does policy (answer a) answer' (f a) d') :
    Does policy t answer' (x >>= f) d := by
  obtain ⟨t', hcomes, hshows⟩ := hx
  cases hdone : x.apply d with
  | mk result d' =>
    rw [hdone] at hcomes hshows
    cases result with
    | error e =>
      obtain ⟨held, rfl⟩ := hshows
      rw [Does, Act.apply_bind_error hdone]
      exact ⟨_, hcomes, held, rfl⟩
    | ok a =>
      obtain rfl : t' = answer a := hshows
      exact .of_comes hcomes (Act.apply_bind_ok hdone) (hf a d' hdone)

theorem Does.pure {α : Type} {answer : α → Task} (a : α) (h : Comes policy (t, d) (answer a, d)) :
    Does policy t answer (pure a) d :=
  ⟨_, h, rfl⟩

/-- A task whose next act ends the operation. -/
theorem Does.act {α : Type} {answer : α → Task} {x : Act (Depot ρ) α}
    (h : t.act policy = answer <$> x) : Does policy t answer x d := by
  cases hdone : x.apply d with
  | mk result d' =>
    have hact : (t.act policy).apply d = (result.map answer, d') := by
      rw [h, Act.apply_map, hdone]
    rw [Does, hdone]
    cases result with
    | error e => exact ⟨_, .single (acts_error hact), _, rfl⟩
    | ok a => exact ⟨_, .single (acts_ok hact), rfl⟩

/-! ### New pages -/

theorem does_newPage (r : Request) (d : Depot ρ) :
    Does policy (.mapping r) .got (Depot.newPage r) d := by
  have heq : (Depot.newPage r).apply d =
      (mapPage r >>= fun id => do Depot.modifyShelf (·.addUsed id); return id).apply d := by
    obtain ⟨shelf, arena⟩ := d
    rw [Act.apply_bind]
    simp only [Act.apply, ExceptT.run, Depot.newPage, mapPage]
    generalize arena.onMemory (Memory.map r) = done
    obtain ⟨result, arena'⟩ := done
    cases result <;> rfl
  have hmapping : Does policy (.mapping r) .adding (mapPage r) d := .act rfl
  refine .of_comes .refl heq (hmapping.bind fun id d' _ => ?_)
  exact ⟨_, .single (acts_ok rfl), rfl⟩

/-! ### Sweeps -/

variable {r : Request} {epoch : Int}

/-- A thread that seeks finds an unswept page, or there is none. -/
theorem comes_seeking_nil {aim : Aim} (hw : d.shelf.unswept = #[])
    (h : aim.giveUp.apply d = (.ok t', d')) : Comes policy (.seeking aim, d) (t', d') := by
  refine .single (acts_ok ?_)
  rw [act, Act.apply_bind_ok (Depot.apply_takeUnswept_nil hw)]
  exact h

theorem comes_seeking_push {aim : Aim} {rest : Array PageId} {id : PageId}
    (hw : d.shelf.unswept = rest.push id) : Comes policy (.seeking aim, d) (.sweeping aim id,
      ⟨{ d.shelf with unswept := rest }, { d.arena with sweepers := d.arena.sweepers + 1 }⟩) := by
  refine .single (acts_ok ?_)
  rw [act, Act.apply_bind_ok (Depot.apply_takeUnswept_push hw)]
  rfl

theorem unswept_push {left : Nat} (h : d.shelf.unswept.size = left + 1) :
    ∃ (rest : Array PageId) (id : PageId), d.shelf.unswept = rest.push id ∧ rest.size = left := by
  rcases Depot.unswept_cases d.shelf with hw | ⟨rest, id, hw⟩
  · rw [hw] at h
    cases h
  · rw [hw, Array.size_push] at h
    exact ⟨rest, id, hw, Nat.succ.inj h⟩

/-- The sweep of a page fails for the thread as it does for the depot. -/
theorem does_sweeping_error {α : Type} {answer : α → Task} {aim : Aim} {id : PageId}
    {f : Bool × Tally → Act (Depot ρ) α} {a : Arena ρ} {e : Fault}
    (h : d.arena.sweepPage policy id = (.error e, a)) :
    Does policy (.sweeping aim id) answer (Depot.sweepPage policy id >>= f) d := by
  rw [Does, Act.apply_bind_error (Depot.apply_sweepPage h)]
  refine ⟨_, .single (acts_error ?_), _, rfl⟩
  rw [act, Act.apply_bind_error (Depot.apply_sweepPage h)]

/-- A thread that has swept a page puts it back and counts the sweep as over. -/
theorem comes_sweeping {aim aim' : Aim} {id : PageId} {flag : Bool} {swept : Bool × Tally}
    {a a' : Arena ρ} (h : d.arena.sweepPage policy id = (.ok swept, a))
    (hweigh : (aim.weigh id swept.1 swept.2).apply ⟨d.shelf, a⟩ =
      (.ok (.placing aim' id flag), ⟨d.shelf, a'⟩))
    (hplace : (aim'.place id flag).apply ⟨d.shelf, a'⟩ = (.ok (), d')) :
    Comes policy (.sweeping aim id, d) ((aim'.result id flag).elim (.seeking aim') .got,
      ⟨d'.shelf, { d'.arena with sweepers := d'.arena.sweepers - 1 }⟩) := by
  have hsweep : Acts policy (.sweeping aim id, d) (.placing aim' id flag, ⟨d.shelf, a'⟩) := by
    refine acts_ok ?_
    rw [act, Act.apply_bind_ok (Depot.apply_sweepPage h)]
    exact hweigh
  have hput : Acts policy (.placing aim' id flag, ⟨d.shelf, a'⟩)
      (.leaving aim' (aim'.result id flag), d') := by
    refine acts_ok ?_
    rw [act, Act.apply_bind_ok hplace]
    rfl
  refine .head hsweep (.head hput (.single (acts_ok ?_)))
  cases aim'.result id flag <;> rfl

theorem does_sweepForRoom {left : Nat} (h : d.shelf.unswept.size = left) :
    Does policy (.seeking (.room r epoch)) (fun found => found.elim (.reusing r) .got)
      (Depot.sweepForRoom policy r epoch left) d := by
  induction left generalizing d with
  | zero => exact .pure none (comes_seeking_nil (Array.size_eq_zero_iff.mp h) rfl)
  | succ left ih =>
    obtain ⟨rest, id, hw, hrest⟩ := unswept_push h
    rw [Depot.sweepForRoom]
    refine .of_comes (comes_seeking_push hw)
      (Act.apply_bind_ok (Depot.apply_takeUnswept_push hw)) ?_
    dsimp only
    generalize hd : (⟨{ d.shelf with unswept := rest }, { d.arena with
      sweepers := d.arena.sweepers + 1 }⟩ : Depot ρ) = d₁
    have hsize : d₁.shelf.unswept.size = left := hd ▸ hrest
    cases hsweep : d₁.arena.sweepPage policy id with
    | mk result a =>
      cases result with
      | error e => exact does_sweeping_error hsweep
      | ok swept =>
        have happly := Depot.apply_sweepPage hsweep
        cases hroom : a.memory.hasRoom id r.cells with
        | error e =>
          rw [Does, Act.apply_bind_ok happly, Act.apply_get_bind]
          simp only [hroom]
          refine ⟨_, .single (acts_error ?_), _, rfl⟩
          rw [act, Act.apply_bind_ok happly]
          dsimp only
          rw [Aim.weigh, Act.apply_get_bind]
          simp only [hroom]
          rfl
        | ok fits =>
          have hweigh : ((Aim.room r epoch).weigh id swept.1 swept.2).apply ⟨d₁.shelf, a⟩ =
              (.ok (.placing (.room r epoch) id fits), ⟨d₁.shelf,
                (a.addBytes (a.memory.allocatedBytes id)).2.reportSweep
                epoch .inline swept.2⟩) := by
            rw [Aim.weigh, Act.apply_get_bind]
            simp only [hroom]
            rfl
          have hcomes := comes_sweeping hsweep hweigh rfl
          cases fits with
          | true =>
            refine .of_comes hcomes ?_ (.pure (some id) .refl)
            rw [Act.apply_bind_ok happly, Act.apply_get_bind]
            simp only [hroom]
            rfl
          | false =>
            refine .of_comes hcomes ?_ (ih hsize)
            rw [Act.apply_bind_ok happly, Act.apply_get_bind]
            simp only [hroom]
            rfl

theorem does_getPage (d : Depot ρ) :
    Does policy (.looking r epoch) .got (Depot.getPage policy r epoch) d := by
  have hlooking :
      Does policy (.looking r epoch) (fun found => found.elim (.seeking (.room r epoch)) .got)
      (Depot.takeReady r) d := by
    refine .act ?_
    rw [map_eq_pure_bind]
    exact congrArg (Depot.takeReady r >>= ·) (funext fun found => by cases found <;> rfl)
  refine hlooking.bind fun found d₁ _ => ?_
  cases found with
  | some id => exact .pure id .refl
  | none =>
    refine .of_comes .refl (Act.apply_get_bind _) ?_
    refine (does_sweepForRoom rfl).bind fun found d₂ _ => ?_
    cases found with
    | some id => exact .pure id .refl
    | none =>
      have hreusing : Does policy (.reusing r) (fun found => found.elim (.mapping r) .got)
          (Depot.onShelf (·.takeEmpty)) d₂ := by
        refine .act ?_
        rw [map_eq_pure_bind]
        exact congrArg (Depot.onShelf (·.takeEmpty) >>= ·)
          (funext fun found => by cases found <;> rfl)
      refine hreusing.bind fun found d₃ _ => ?_
      cases found with
      | some id => exact .pure id .refl
      | none => exact does_newPage r d₃

theorem does_sweepLeft {left : Nat} (tally : Tally) (h : d.shelf.unswept.size = left) :
    Does policy (.seeking (.all tally)) .counted (Depot.sweepLeft policy left tally) d := by
  induction left generalizing d tally with
  | zero => exact .pure tally (comes_seeking_nil (Array.size_eq_zero_iff.mp h) rfl)
  | succ left ih =>
    obtain ⟨rest, id, hw, hrest⟩ := unswept_push h
    rw [Depot.sweepLeft]
    refine .of_comes (comes_seeking_push hw)
      (Act.apply_bind_ok (Depot.apply_takeUnswept_push hw)) ?_
    dsimp only
    generalize hd : (⟨{ d.shelf with unswept := rest }, { d.arena with
      sweepers := d.arena.sweepers + 1 }⟩ : Depot ρ) = d₁
    have hsize : d₁.shelf.unswept.size = left := hd ▸ hrest
    cases hsweep : d₁.arena.sweepPage policy id with
    | mk result a =>
      cases result with
      | error e => exact does_sweeping_error hsweep
      | ok swept =>
        obtain ⟨empty, counts⟩ := swept
        have happly := Depot.apply_sweepPage hsweep
        cases empty with
        | true =>
          refine .of_comes (comes_sweeping hsweep rfl rfl) ((Act.apply_bind_ok happly).trans ?_)
            (ih ((tally.add counts).addLive (a.memory.allocatedBytes id)) ?_)
          · rfl
          · exact hsize
        | false =>
          refine .of_comes (comes_sweeping hsweep rfl rfl) ((Act.apply_bind_ok happly).trans ?_)
            (ih ((tally.add counts).addLive (a.memory.allocatedBytes id)) ?_)
          · rfl
          · exact hsize

theorem does_sweep (tally : Tally) (d : Depot ρ) :
    Does policy (.seeking (.all tally)) .counted (Depot.sweep policy tally) d :=
  .of_comes .refl (Act.apply_get_bind _) (does_sweepLeft tally rfl)

theorem does_sweepFreeing {left : Nat} (kind : PageKind) (freed : Nat) (tally : Tally)
    (h : d.shelf.unswept.size = left) :
    Does policy (.seeking (.free kind freed tally)) .counted (do
      let (tally, freed) ← Depot.sweepFreeing policy left freed tally
      if 0 < freed then Depot.modifyArena (·.report (.freed kind freed))
      return tally) d := by
  induction left generalizing d freed tally with
  | zero =>
    have hw := Array.size_eq_zero_iff.mp h
    rw [Depot.sweepFreeing, pure_bind]
    dsimp only
    by_cases hfreed : 0 < freed
    · refine ⟨.counted tally, comes_seeking_nil hw ?_, ?_⟩
      · simp only [Aim.giveUp, if_pos hfreed]
        rfl
      · simp only [if_pos hfreed]
        rfl
    · refine ⟨.counted tally, comes_seeking_nil hw ?_, ?_⟩
      · simp only [Aim.giveUp, if_neg hfreed]
        rfl
      · simp only [if_neg hfreed]
        rfl
  | succ left ih =>
    obtain ⟨rest, id, hw, hrest⟩ := unswept_push h
    rw [Depot.sweepFreeing, bind_assoc]
    refine .of_comes (comes_seeking_push hw)
      (Act.apply_bind_ok (Depot.apply_takeUnswept_push hw)) ?_
    dsimp only
    rw [bind_assoc]
    generalize hd : (⟨{ d.shelf with unswept := rest }, { d.arena with
      sweepers := d.arena.sweepers + 1 }⟩ : Depot ρ) = d₁
    have hsize : d₁.shelf.unswept.size = left := hd ▸ hrest
    cases hsweep : d₁.arena.sweepPage policy id with
    | mk result a =>
      cases result with
      | error e => exact does_sweeping_error hsweep
      | ok swept =>
        obtain ⟨empty, counts⟩ := swept
        have happly := Depot.apply_sweepPage hsweep
        cases empty with
        | true =>
          refine .of_comes (comes_sweeping hsweep rfl rfl) ((Act.apply_bind_ok happly).trans ?_)
            (ih (freed + 1) (tally.add counts) ?_)
          · rfl
          · exact hsize
        | false =>
          refine .of_comes (comes_sweeping hsweep rfl rfl) ((Act.apply_bind_ok happly).trans ?_)
            (ih freed ((tally.add counts).addLive (a.memory.allocatedBytes id)) ?_)
          · rfl
          · exact hsize

theorem does_sweepAndFree (kind : PageKind) (tally : Tally) (d : Depot ρ) :
    Does policy (.seeking (.free kind 0 tally)) .counted (Depot.sweepAndFree policy kind tally) d :=
  .of_comes .refl (Act.apply_get_bind _) (does_sweepFreeing kind 0 tally rfl)

end Task

namespace SharedDepot

variable {ρ : Type} {policy : Policy ρ} {d d' : Depot ρ} {t t' : Task}

theorem run_of_comes (h : Task.Comes policy (t, d) (t', d')) (swept freed : List PageId) :
    ∃ n, (run policy (List.replicate n (.act 0)) ⟨d, [t], swept, freed⟩).depot = d' ∧
      (run policy (List.replicate n (.act 0)) ⟨d, [t], swept, freed⟩).tasks = [t'] := by
  generalize hs : (t, d) = s at h
  induction h using Relation.ReflTransGen.head_induction_on generalizing t d swept freed with
  | refl =>
    obtain ⟨rfl, rfl⟩ := Prod.mk.inj hs
    exact ⟨0, rfl, rfl⟩
  | head hact _ ih =>
    subst hs
    obtain ⟨n, hdepot, htasks⟩ := ih (swept ++ t.sweeps.toList) (freed ++ t.frees.toList) hact.symm
    exact ⟨n + 1, hdepot, htasks⟩

/-- The only thread of a shared depot that is asked for something ends with the answer of the
depot. -/
theorem run_alone {α : Type} {c : Call} {answer : α → Task} {act : Act (Depot ρ) α}
    (h : c.task.Does policy answer act d) :
    ∃ n t, Task.Shows answer t (act.apply d).1 ∧
      (run policy (.call 0 c :: List.replicate n (.act 0)) (new d 1)).depot = (act.apply d).2 ∧
      (run policy (.call 0 c :: List.replicate n (.act 0)) (new d 1)).tasks = [t] := by
  obtain ⟨t, hcomes, hshows⟩ := h
  obtain ⟨n, hdepot, htasks⟩ := run_of_comes hcomes [] []
  exact ⟨n, t, hshows, hdepot, htasks⟩

end SharedDepot

end SweptHeap
