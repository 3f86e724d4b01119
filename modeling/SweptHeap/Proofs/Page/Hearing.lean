import Mathlib
import SweptHeap.Verdict

/-!
# Hearings

A sweep puts the allocated blocks of a page before whoever answers, one after the other, and the
answers may depend on one another. This module says what is asked and what the answers amount to,
apart from any kind of page: `hear` asks about a list of sights, and the survivors and the queue of
a sweep are read off the pairs of sight and ruling that it gives.
-/

namespace SweptHeap

/-- What a page shows of the block that begins at cell `i`. -/
def sightAt (cells : Array Cell) (i : Nat) : Sight :=
  ⟨i, (cells.getD i .zero).isMark, (cells.getD (i + 1) .zero).toLink⟩

theorem sightAt_congr {cells cells' : Array Cell} {i : Nat} (h0 : cells'[i]? = cells[i]?)
    (h1 : cells'[i + 1]? = cells[i + 1]?) : sightAt cells' i = sightAt cells i := by
  simp only [sightAt, Array.getD_eq_getD_getElem?, h0, h1]

/-- Whether a block stays allocated. -/
def Ruling.spares (r : Ruling) : Bool := r.fate ≠ .dead

abbrev Hearing := Sight × Ruling

variable {ε : Type}

/-- Asks about the sights in turn, and gives each with its ruling. -/
def hear (ask : Sight → ε → Ruling × ε) : List Sight → ε → List Hearing × ε
  | [], env => ([], env)
  | s :: rest, env =>
    let (r, env) := ask s env
    let (hearings, env) := hear ask rest env
    ((s, r) :: hearings, env)

@[simp] theorem hear_nil (ask : Sight → ε → Ruling × ε) (env : ε) :
    hear ask [] env = ([], env) := rfl

/-- The first sight is heard before the others. -/
theorem hear_cons {ask : Sight → ε → Ruling × ε} {s : Sight} {rest : List Sight} {env env' : ε}
    {hearings : List Hearing} (h : hear ask (s :: rest) env = (hearings, env')) :
    ∃ r env₁ tail, ask s env = (r, env₁) ∧ hear ask rest env₁ = (tail, env') ∧
      hearings = (s, r) :: tail := by
  obtain ⟨hhearings, henv⟩ := Prod.mk.inj h
  exact ⟨_, _, _, rfl, Prod.ext rfl henv, hhearings.symm⟩

theorem hear_append (ask : Sight → ε → Ruling × ε) (xs ys : List Sight) (env : ε) :
    hear ask (xs ++ ys) env =
      ((hear ask xs env).1 ++ (hear ask ys (hear ask xs env).2).1,
        (hear ask ys (hear ask xs env).2).2) := by
  induction xs generalizing env with
  | nil => rfl
  | cons s xs ih => simp only [List.cons_append, hear, ih]

/-- Only the answers about the sights at hand count. -/
theorem hear_congr {ask ask' : Sight → ε → Ruling × ε} {sights : List Sight}
    (h : ∀ s ∈ sights, ask' s = ask s) (env : ε) : hear ask' sights env = hear ask sights env := by
  induction sights generalizing env with
  | nil => rfl
  | cons s rest ih =>
    have hs := h s List.mem_cons_self
    simp only [hear, hs, ih fun t ht => h t (List.mem_cons_of_mem _ ht)]

@[simp] theorem map_fst_hear (ask : Sight → ε → Ruling × ε) (xs : List Sight) (env : ε) :
    (hear ask xs env).1.map Prod.fst = xs := by
  induction xs generalizing env with
  | nil => rfl
  | cons s xs ih => simp only [hear, List.map_cons, ih]

theorem map_fst_of_hear {ask : Sight → ε → Ruling × ε} {sights : List Sight} {env env' : ε}
    {hearings : List Hearing} (h : hear ask sights env = (hearings, env')) :
    hearings.map Prod.fst = sights := by
  rw [← map_fst_hear ask sights env, h]

/-- The blocks that stay allocated after the hearings. -/
def survivors (hearings : List Hearing) : List Nat :=
  (hearings.filter (·.2.spares)).map (·.1.index)

/-- The blocks that the hearings reclaim. -/
def condemned (hearings : List Hearing) : List Nat :=
  (hearings.filter (!·.2.spares)).map (·.1.index)

/-- The blocks that the hearings set aside for their finalizers. -/
def toFinalize (hearings : List Hearing) : List Nat :=
  (hearings.filter (·.2.fate = .finalize)).map (·.1.index)

/-- How the fates count. -/
def countFates (hearings : List Hearing) : Tally :=
  hearings.foldl (fun t h => t.count h.2.fate) {}

@[simp] theorem survivors_nil : survivors [] = [] := rfl

@[simp] theorem toFinalize_nil : toFinalize [] = [] := rfl

@[simp] theorem survivors_append (xs ys : List Hearing) :
    survivors (xs ++ ys) = survivors xs ++ survivors ys := by
  simp [survivors]

theorem condemned_append (xs ys : List Hearing) :
    condemned (xs ++ ys) = condemned xs ++ condemned ys := by
  simp [condemned]

@[simp] theorem toFinalize_append (xs ys : List Hearing) :
    toFinalize (xs ++ ys) = toFinalize xs ++ toFinalize ys := by
  simp [toFinalize]

@[simp] theorem countFates_concat (xs : List Hearing) (h : Hearing) :
    countFates (xs ++ [h]) = (countFates xs).count h.2.fate := by
  simp [countFates]

@[simp] theorem liveBytes_countFates (hearings : List Hearing) :
    (countFates hearings).liveBytes = 0 := by
  induction hearings using List.reverseRecOn with
  | nil => rfl
  | append_singleton rest h ih =>
    rw [countFates_concat]
    cases h.2.fate <;> exact ih

theorem mem_survivors {hearings : List Hearing} {i : Nat} :
    i ∈ survivors hearings ↔ ∃ h ∈ hearings, h.2.spares ∧ h.1.index = i := by
  simp [survivors, and_assoc]

theorem mem_condemned {hearings : List Hearing} {i : Nat} :
    i ∈ condemned hearings ↔ ∃ h ∈ hearings, h.2.spares = false ∧ h.1.index = i := by
  simp [condemned, and_assoc]

/-- Where no block is heard twice, those not reclaimed survive. -/
theorem filter_not_condemned {hearings : List Hearing} (h : (hearings.map (·.1.index)).Nodup) :
    (hearings.map (·.1.index)).filter (· ∉ condemned hearings) = survivors hearings := by
  induction hearings with
  | nil => rfl
  | cons x rest ih =>
    obtain ⟨hx, hrest⟩ := List.nodup_cons.mp h
    replace hx : x.1.index ∉ rest.map (·.1.index) := hx
    have hother : ∀ i ∈ rest.map (·.1.index), i ∈ condemned (x :: rest) ↔ i ∈ condemned rest := by
      intro i hi
      have hne : x.1.index ≠ i := fun he => hx (he ▸ hi)
      simp [mem_condemned, hne]
    have htail : (rest.map (·.1.index)).filter (· ∉ condemned (x :: rest)) = survivors rest := by
      rw [← ih hrest]
      exact List.filter_congr fun i hi => by simpa using hother i hi
    have hself : x.1.index ∈ condemned (x :: rest) ↔ x.2.spares = false := by
      refine ⟨fun hc => ?_, fun hs => mem_condemned.mpr ⟨x, List.mem_cons_self, hs, rfl⟩⟩
      obtain ⟨y, hy, hs, he⟩ := mem_condemned.mp hc
      rcases List.mem_cons.mp hy with rfl | hy
      · exact hs
      · exact absurd (he ▸ List.mem_map_of_mem (f := (·.1.index)) hy) hx
    cases hs : x.2.spares with
    | false =>
      rw [List.map_cons, List.filter_cons_of_neg (by simpa using hself.mpr hs), htail]
      simp [survivors, hs]
    | true =>
      rw [List.map_cons, List.filter_cons_of_pos (by simpa [hs] using hself), htail]
      simp [survivors, hs]

theorem survivors_sublist (hearings : List Hearing) :
    (survivors hearings).Sublist (hearings.map (·.1.index)) :=
  List.filter_sublist.map _

end SweptHeap
