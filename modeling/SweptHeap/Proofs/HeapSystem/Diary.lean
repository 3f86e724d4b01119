import Mathlib
import SweptHeap.Proofs.HeapSystem.Moves

/-!
# What a sweep leaves in the diary

One answer for each block or record of the page, in the order of the page, and nothing else.
-/

namespace SweptHeap

variable {ρ : Type} {policy : Policy ρ} {id : PageId} {p : Page}

/-! ### Notes in sequence -/

section Notes

variable (xs ys : List Note)

@[simp] theorem answers_append : answers (xs ++ ys) = answers xs ++ answers ys :=
  List.filterMap_append

@[simp] theorem asked_append : asked (xs ++ ys) = asked xs ++ asked ys := by simp [asked]

@[simp] theorem spared_append : spared (xs ++ ys) = spared xs ++ spared ys := by simp [spared]

@[simp] theorem reclaimed_append : reclaimed (xs ++ ys) = reclaimed xs ++ reclaimed ys := by
  simp [reclaimed]

@[simp] theorem finalizing_append : finalizing (xs ++ ys) = finalizing xs ++ finalizing ys := by
  simp [finalizing]

@[simp] theorem births_append : births (xs ++ ys) = births xs ++ births ys :=
  List.filterMap_append

/-- Whatever is asked about is spared or given up. -/
theorem count_asked (t : Tenant) :
    (asked xs).count t = (spared xs).count t + (reclaimed xs).count t := by
  rw [asked, spared, reclaimed]
  induction answers xs with
  | nil => rfl
  | cons a rest ih =>
    by_cases hdead : a.2 = .dead
    · simp only [List.map_cons, List.count_cons, ih, List.filter_cons, hdead,
        ne_eq, not_true_eq_false, decide_false, decide_true, if_true, Bool.false_eq_true, if_false]
      omega
    · simp only [List.map_cons, List.count_cons, ih, List.filter_cons, hdead,
        ne_eq, not_false_eq_true, decide_false, decide_true, if_true, Bool.false_eq_true, if_false]
      omega

end Notes

/-- The notes are answers about the hearings of a page. -/
def Minutes (kind : PageKind) (id : PageId) (hearings : List Hearing) (notes : List Note) : Prop :=
  notes.map Note.answer = hearings.map fun x => some (kind.tenant id x.1.index, x.2.fate)

namespace Minutes

variable {kind : PageKind} {hearings : List Hearing} {notes : List Note}

theorem answers_eq (h : Minutes kind id hearings notes) :
    answers notes = hearings.map fun x => (kind.tenant id x.1.index, x.2.fate) := by
  calc answers notes = (notes.map Note.answer).filterMap (fun x => x) := by
        rw [List.filterMap_map]
        rfl
    _ = hearings.map fun x => (kind.tenant id x.1.index, x.2.fate) := by
      rw [h, List.filterMap_map]
      exact congrFun List.filterMap_eq_map hearings

theorem asked_eq (h : Minutes kind id hearings notes) :
    asked notes = hearings.map fun x => kind.tenant id x.1.index := by
  simp [asked, h.answers_eq, Function.comp_def]

theorem spared_eq (h : Minutes kind id hearings notes) :
    spared notes = (survivors hearings).map (kind.tenant id) := by
  simp [spared, h.answers_eq, survivors, List.filter_map, Function.comp_def, Ruling.spares]

theorem finalizing_eq (h : Minutes kind id hearings notes) :
    finalizing notes = (toFinalize hearings).map (⟨id, ·⟩) := by
  simp [finalizing, h.answers_eq, toFinalize, List.filter_map, Function.comp_def]

/-- Every note is an answer about the page. -/
theorem answer_of_mem (h : Minutes kind id hearings notes) {n : Note} (hn : n ∈ notes) :
    ∃ x ∈ hearings, n.answer = some (kind.tenant id x.1.index, x.2.fate) := by
  have hmem := List.mem_map_of_mem (f := Note.answer) hn
  rw [h] at hmem
  obtain ⟨x, hx, he⟩ := List.mem_map.mp hmem
  exact ⟨x, hx, he.symm⟩

theorem births_eq (h : Minutes kind id hearings notes) : births notes = [] := by
  rw [births, List.filterMap_eq_nil_iff]
  intro n hn
  obtain ⟨x, -, he⟩ := h.answer_of_mem hn
  cases n with
  | judged q v => rfl
  | judgedRecord r record fate => rfl
  | born t => cases he
  | told b => rfl

end Minutes

/-! ### Sweeps -/

theorem asks_notes {s : Sight} {r : Ruling} {a a' : Arena (Diary ρ)}
    (hheld : ∀ q, p = .records q → ∃ record, q.record? s.index = some record)
    (hask : p.asks (Arena.ask policy.noting id) (Arena.askRecord policy.noting id) s a = (r, a')) :
    ∃ n, a'.memo.notes = a.memo.notes ++ [n] ∧
      n.answer = some (p.kind.tenant id s.index, r.fate) := by
  have hblock (hkind : p.kind ≠ .records) (hask : a.ask policy.noting id s = (r, a')) :
      ∃ n, a'.memo.notes = a.memo.notes ++ [n] ∧
        n.answer = some (p.kind.tenant id s.index, r.fate) := by
    rw [PageKind.tenant_of_ne hkind]
    rw [Arena.ask_eq] at hask
    obtain ⟨rfl, rfl⟩ := Prod.mk.inj hask
    exact ⟨_, rfl, rfl⟩
  cases p with
  | uniform q => exact hblock (by simp [Page.kind]) hask
  | tiled q => exact hblock (by simp [Page.kind]) hask
  | large q => exact hblock (by simp [Page.kind]) hask
  | records q =>
    obtain ⟨record, hrecord⟩ := hheld q rfl
    simp only [Page.asks, RecordPage.askSlot] at hask
    rw [show RecordPage.recordAt q.slots s.index = some record from hrecord] at hask
    obtain ⟨rfl, rfl⟩ := Prod.mk.inj hask
    exact ⟨_, rfl, rfl⟩

theorem Page.Sound.record_of_sight (hs : p.Sound) :
    ∀ q, p = .records q → ∀ s ∈ p.sights, ∃ record, q.record? s.index = some record := by
  rintro q rfl s hsight
  have hmem : s.index ∈ (Page.records q).blocks.toList := by
    rw [← Page.map_index_sights]
    exact List.mem_map_of_mem hsight
  obtain ⟨free, hq⟩ := hs
  exact hq.mem_blocks.mp hmem

theorem hear_notes {sights : List Sight} {hearings : List Hearing} {a c : Arena (Diary ρ)}
    (hheld : ∀ q, p = .records q → ∀ s ∈ sights, ∃ record, q.record? s.index = some record)
    (hhear : hear (p.asks (Arena.ask policy.noting id) (Arena.askRecord policy.noting id))
      sights a = (hearings, c)) :
    ∃ notes, c.memo.notes = a.memo.notes ++ notes ∧ Minutes p.kind id hearings notes := by
  induction sights generalizing a hearings with
  | nil =>
    obtain ⟨rfl, rfl⟩ := Prod.mk.inj hhear
    exact ⟨[], by simp, rfl⟩
  | cons s rest ih =>
    obtain ⟨r, a₁, tail, hask, htail, rfl⟩ := hear_cons hhear
    obtain ⟨n, hnote, hanswer⟩ := asks_notes (fun q hq => hheld q hq s List.mem_cons_self) hask
    obtain ⟨notes, hnotes, hminutes⟩ :=
      ih (fun q hq t ht => hheld q hq t (List.mem_cons_of_mem _ ht)) htail
    refine ⟨n :: notes, by rw [hnotes, hnote, List.append_assoc, List.singleton_append], ?_⟩
    rw [Minutes, List.map_cons, List.map_cons, hanswer]
    exact congrArg _ hminutes

/-- Records are asked about one by one as they stand, and nobody else is touched. -/
theorem Arena.hear_slots {slots : Array Slot} {sights : List Sight} {hearings : List Hearing}
    {a c : Arena (Diary ρ)}
    (hhear : hear (RecordPage.askSlot (askRecord policy.noting id) slots) sights a =
      (hearings, c)) :
    c.memory = a.memory ∧
    (∃ notes, c.memo.notes = a.memo.notes ++ notes ∧ ∀ n ∈ notes, ∃ r record memo,
      n = .judgedRecord r record (policy.judgeRecord r record memo).1) ∧
    ∀ x ∈ hearings, ∀ record, RecordPage.recordAt slots x.1.index = some record →
      ∃ memo, x.2.fate = (policy.judgeRecord ⟨id, x.1.index⟩ record memo).1 := by
  induction sights generalizing a hearings with
  | nil =>
    obtain ⟨rfl, rfl⟩ := Prod.mk.inj hhear
    exact ⟨rfl, ⟨[], (List.append_nil _).symm, by simp⟩, by simp⟩
  | cons s rest ih =>
    obtain ⟨ruling, a₁, tail, hask, htail, rfl⟩ := hear_cons hhear
    have hfirst : a₁.memory = a.memory ∧
        (∃ notes, a₁.memo.notes = a.memo.notes ++ notes ∧ ∀ n ∈ notes, ∃ r record memo,
          n = .judgedRecord r record (policy.judgeRecord r record memo).1) ∧
        ∀ record, RecordPage.recordAt slots s.index = some record →
          ∃ memo, ruling.fate = (policy.judgeRecord ⟨id, s.index⟩ record memo).1 := by
      rw [RecordPage.askSlot] at hask
      cases hrec : RecordPage.recordAt slots s.index with
      | none =>
        rw [hrec] at hask
        obtain ⟨rfl, rfl⟩ := Prod.mk.inj hask
        exact ⟨rfl, ⟨[], (List.append_nil _).symm, by simp⟩, by simp⟩
      | some record =>
        rw [hrec] at hask
        obtain ⟨rfl, rfl⟩ := Prod.mk.inj hask
        refine ⟨rfl, ⟨_, rfl, fun n hn => ?_⟩, fun record' he => ⟨a.memo.memo, ?_⟩⟩
        · exact ⟨⟨id, s.index⟩, record, a.memo.memo, List.mem_singleton.mp hn⟩
        · rw [← Option.some.inj he]
          rfl
    obtain ⟨hmemory, ⟨notes, hnotes, hanswers⟩, hfate⟩ := hfirst
    obtain ⟨hmemory', ⟨notes', hnotes', hanswers'⟩, hfates⟩ := ih htail
    refine ⟨hmemory'.trans hmemory, ⟨notes ++ notes', ?_, fun n hn => ?_⟩,
      fun x hx record hrec => ?_⟩
    · rw [hnotes', hnotes, List.append_assoc]
    · exact (List.mem_append.mp hn).elim (hanswers n) (hanswers' n)
    · rcases List.mem_cons.mp hx with rfl | hx
      · exact hfate record hrec
      · exact hfates x hx record hrec

namespace Heap

variable {h h' : Heap (Diary ρ)} {hearings : List Hearing}

theorem Sweeps.map_index (hsw : Sweeps policy.noting id p hearings h h') :
    hearings.map (·.1.index) = p.blocks.toList := by
  obtain ⟨a, c, -, -, hhear, -⟩ := hsw.heard
  rw [← p.map_index_sights, ← map_fst_of_hear hhear]
  simp

/-- A sweep of a page notes one answer about each of its blocks or records. -/
theorem Sweeps.notes (hsw : Sweeps policy.noting id p hearings h h') (hs : h.Sound) :
    ∃ notes, h'.notes = h.notes ++ notes ∧ Minutes p.kind id hearings notes := by
  obtain ⟨a, c, -, hmemo, hhear, hmemo', -⟩ := hsw.heard
  obtain ⟨notes, hnotes, hminutes⟩ := hear_notes (hs.page_sound hsw.page_eq).record_of_sight hhear
  refine ⟨notes, ?_, hminutes⟩
  rw [Heap.notes, hmemo', hnotes, hmemo]
  rfl

end Heap

end SweptHeap
