import Mathlib
import SweptHeap.Proofs.HeapSystem.Objects

/-!
# Sweeps by marks

A sweep of a page by `Policy.byMark` treats every object of the page on its own merits: no two
objects share a record, so what is raised for one is not seen by another. The diary then tells each
block's story apart from those of the others.
-/

namespace SweptHeap

variable {ρ : Type}

/-! ### Stories -/

namespace Note

/-- The block that the note is about. -/
def block? : Note → Option BlockRef
  | judged q _ => some q.block
  | judgedRecord _ _ _ => none
  | born (.block b) => some b
  | born (.record _) => none
  | told b => some b

/-- The verdict by marks, as it is noted. -/
def judgment (q : Question) : Note := judged q q.verdictByMark

/-- An answer by marks. -/
inductive ByMark : Note → Prop
  | object (q : Question) : ByMark (judgment q)
  | record (r : BlockRef) (record : Record) : ByMark (judgedRecord r record record.fate)

/-- Records are never sent to a finalizer. -/
theorem ByMark.fate_ne_finalize {r : BlockRef} {record : Record} {fate : Fate}
    (hn : ByMark (judgedRecord r record fate)) : fate ≠ .finalize := by
  cases hn
  rw [Record.fate]
  split_ifs <;> nofun

end Note

/-- The notes about one block. -/
def story (b : BlockRef) (notes : List Note) : List Note := notes.filter (·.block? = some b)

@[simp] theorem story_append (b : BlockRef) (xs ys : List Note) :
    story b (xs ++ ys) = story b xs ++ story b ys := List.filter_append ..

@[simp] theorem story_nil (b : BlockRef) : story b [] = [] := rfl

theorem story_of_eq {b : BlockRef} {n : Note} (hn : n.block? = some b) : story b [n] = [n] := by
  simp [story, hn]

theorem story_of_ne {b : BlockRef} {n : Note} (hn : n.block? ≠ some b) : story b [n] = [] := by
  simp [story, hn]

theorem story_cons {b : BlockRef} {n : Note} (notes : List Note) (hn : n.block? = some b) :
    story b (n :: notes) = n :: story b notes := by
  simp [story, hn]

theorem mem_story {b : BlockRef} {n : Note} {notes : List Note} :
    n ∈ story b notes ↔ n ∈ notes ∧ n.block? = some b := by
  simp [story]

/-- A note in the middle of a story is in the middle of the diary. -/
theorem story_eq_append {b : BlockRef} {n : Note} {notes past since : List Note}
    (hs : story b notes = past ++ n :: since) :
    ∃ before after, notes = before ++ n :: after ∧ story b after = since := by
  obtain ⟨front, rest, rfl, -, hrest⟩ := List.filter_eq_append_iff.mp hs
  obtain ⟨skipped, after, rfl, -, -, hafter⟩ := List.filter_eq_cons_iff.mp hrest
  exact ⟨front ++ skipped, after, (List.append_assoc ..).symm, hafter⟩

/-! ### The hearings of a page -/

namespace Arena

variable {id : PageId} {s : Sight} {r r' : BlockRef} {a c : Arena (Diary ρ)}

/-- One question. -/
theorem ask_byMark (id : PageId) (s : Sight) (a : Arena (Diary ρ)) :
    let verdict := (questionOf id s a.memory).verdictByMark
    (a.ask (Policy.byMark (ρ := ρ)).noting id s).1 = ⟨verdict.fate, verdict.unmark⟩ ∧
    (a.ask (Policy.byMark (ρ := ρ)).noting id s).2.memo.notes =
      a.memo.notes ++ [.judgment (questionOf id s a.memory)] ∧
    ∀ r, (a.ask (Policy.byMark (ρ := ρ)).noting id s).2.memory.record? r =
      if s.record = some r then (a.memory.record? r).map (·.raise verdict.raised)
      else a.memory.record? r := by
  intro verdict
  rw [ask_eq]
  refine ⟨rfl, rfl, fun r => ?_⟩
  obtain ⟨index, marked, record⟩ := s
  cases record with
  | none => simp
  | some r' =>
    change Memory.record? (if verdict.raised = .none then _ else _) r = _
    simp only [Option.some.injEq]
    by_cases hnone : verdict.raised = .none
    · simp [hnone]
    · rw [if_neg hnone, Memory.raise, Memory.record?_modifyRecord]
      simp only [eq_comm]
      rfl

/-- Sights of objects that share no record. -/
def Unshared (sights : List Sight) : Prop :=
  sights.Pairwise fun s t => ∀ r, s.record = some r → t.record ≠ some r

/-- The objects of a page are asked about as the records stood before the first question. -/
theorem hear_byMark {sights : List Sight} {hearings : List Hearing} (hunshared : Unshared sights)
    (hhear : hear (Arena.ask (Policy.byMark (ρ := ρ)).noting id) sights a = (hearings, c)) :
    hearings = sights.map (fun s =>
      (s, let v := (questionOf id s a.memory).verdictByMark; ⟨v.fate, v.unmark⟩)) ∧
    c.memo.notes = a.memo.notes ++ sights.map (fun s => .judgment (questionOf id s a.memory)) ∧
    (∀ s ∈ sights, ∀ r, s.record = some r → c.memory.record? r =
      (a.memory.record? r).map (·.raise (questionOf id s a.memory).verdictByMark.raised)) ∧
    ∀ r, (∀ s ∈ sights, s.record ≠ some r) → c.memory.record? r = a.memory.record? r := by
  induction sights generalizing a hearings with
  | nil =>
    obtain ⟨rfl, rfl⟩ := Prod.mk.inj hhear
    simp
  | cons s rest ih =>
    obtain ⟨ruling, a₁, tail, hask, htail, rfl⟩ := hear_cons hhear
    obtain ⟨hfirst, hrest⟩ := List.pairwise_cons.mp hunshared
    obtain ⟨hruling, hnote, hrecord⟩ := ask_byMark id s a
    rw [hask] at hruling hnote hrecord
    have hsame {t : Sight} (ht : t ∈ rest) :
        questionOf id t a₁.memory = questionOf id t a.memory := by
      rw [questionOf, questionOf]
      congr 1
      rw [flagsOf, flagsOf]
      cases htr : t.record with
      | none => rfl
      | some r =>
        change (a₁.memory.record? r).map _ = (a.memory.record? r).map _
        rw [hrecord, if_neg fun hs => hfirst t ht r hs htr]
    obtain ⟨hhearings, hnotes, hraised, hleft⟩ := ih hrest htail
    refine ⟨?_, ?_, fun t ht r htr => ?_, fun r hr => ?_⟩
    · rw [hhearings, List.map_cons]
      refine congrArg₂ _ (congrArg _ hruling) (List.map_congr_left fun t ht => ?_)
      rw [hsame ht]
    · rw [hnotes, hnote, List.append_assoc, List.singleton_append, List.map_cons]
      refine congrArg _ (congrArg _ (List.map_congr_left fun t ht => ?_))
      rw [hsame ht]
    · rcases List.mem_cons.mp ht with rfl | ht
      · rw [hleft r fun u hu => hfirst u hu r htr, hrecord, if_pos htr]
      · rw [hraised t ht r htr, hsame ht, hrecord, if_neg fun hs => hfirst t ht r hs htr]
    · rw [hleft r fun t ht => hr t (List.mem_cons_of_mem _ ht), hrecord,
        if_neg (hr s List.mem_cons_self)]

/-- Records are given up when they are sweepable, and asking about them changes nothing. -/
theorem hear_records {slots : Array Slot} {sights : List Sight} {hearings : List Hearing}
    (hhear : hear (RecordPage.askSlot (askRecord (Policy.byMark (ρ := ρ)).noting id) slots)
      sights a = (hearings, c)) :
    c.memory = a.memory ∧
    (∃ notes, c.memo.notes = a.memo.notes ++ notes ∧ ∀ n ∈ notes, n.ByMark ∧ n.block? = none) ∧
    ∀ x ∈ hearings, ∀ record, RecordPage.recordAt slots x.1.index = some record →
      x.2.fate = record.fate := by
  obtain ⟨hmemory, ⟨notes, hnotes, hanswers⟩, hfates⟩ := hear_slots hhear
  refine ⟨hmemory, ⟨notes, hnotes, fun n hn => ?_⟩, fun x hx record hrec => ?_⟩
  · obtain ⟨r, record, memo, rfl⟩ := hanswers n hn
    exact ⟨.record r record, rfl⟩
  · obtain ⟨memo, hfate⟩ := hfates x hx record hrec
    exact hfate

end Arena

/-! ### What becomes of the objects -/

namespace Question

/-- The verdicts by marks, and what each of them rests on. -/
inductive Ruled (q : Question) : Verdict → Prop
  | marked (marked : q.marked = true) : Ruled q ⟨.live, true, .none⟩
  | bare (unmarked : q.marked = false) (bare : q.flags = none) : Ruled q ⟨.dead, true, .none⟩
  | spent {flags : Flags} (unmarked : q.marked = false) (flags_eq : q.flags = some flags)
      (spent : flags.has .finalized = true ∨ flags.has .hasFinalizer = false) :
      Ruled q ⟨.dead, true, .sweepable⟩
  | queued {flags : Flags} (unmarked : q.marked = false) (flags_eq : q.flags = some flags)
      (wants : flags.has .hasFinalizer = true) (pending : flags.has .finalized = false)
      (queued : flags.has .inQueue = true) : Ruled q ⟨.live, true, .none⟩
  | sent {flags : Flags} (unmarked : q.marked = false) (flags_eq : q.flags = some flags)
      (wants : flags.has .hasFinalizer = true) (pending : flags.has .finalized = false)
      (idle : flags.has .inQueue = false) : Ruled q ⟨.finalize, true, .inQueue⟩

theorem ruled_verdictByMark (q : Question) : q.Ruled q.verdictByMark := by
  rw [verdictByMark]
  split_ifs with hmarked
  · exact .marked hmarked
  replace hmarked : q.marked = false := by simpa using hmarked
  cases hflags : q.flags with
  | none => exact .bare hmarked hflags
  | some flags =>
    dsimp only
    split_ifs with hspent hqueued
    · exact .spent hmarked hflags (by simpa using hspent)
    · simp only [Bool.or_eq_true, Bool.not_eq_true', not_or, Bool.not_eq_true,
        Bool.not_eq_false] at hspent
      exact .queued hmarked hflags hspent.2 hspent.1 hqueued
    · simp only [Bool.or_eq_true, Bool.not_eq_true', not_or, Bool.not_eq_true,
        Bool.not_eq_false] at hspent
      exact .sent hmarked hflags hspent.2 hspent.1 (by simpa using hqueued)

namespace Ruled

variable {q : Question} {v : Verdict}

theorem unmark (hv : q.Ruled v) : v.unmark = true := by cases hv <;> rfl

/-- Marked objects are spared, and those whose finalizer has not run. -/
theorem fate_ne_dead_iff (hv : q.Ruled v) : v.fate ≠ .dead ↔ q.marked = true ∨
    ∃ flags, q.flags = some flags ∧ flags.has .hasFinalizer = true ∧
      flags.has .finalized = false := by
  cases hv with
  | marked hmarked => simp [hmarked]
  | bare hmarked hflags => simp [hmarked, hflags]
  | spent hmarked hflags hspent =>
    simp only [ne_eq, not_true_eq_false, hmarked, Bool.false_eq_true, hflags, Option.some.injEq,
      exists_eq_left', false_or, false_iff, not_and]
    intro hwants hpending
    rcases hspent with hdone | hnone
    · exact Bool.false_ne_true (hpending.symm.trans hdone)
    · exact Bool.false_ne_true (hnone.symm.trans hwants)
  | queued hmarked hflags hwants hpending hqueued => simp [hflags, hwants, hpending]
  | sent hmarked hflags hwants hpending hidle => simp [hflags, hwants, hpending]

/-- Only the records of reclaimed objects are given up. -/
theorem not_sweepable (hv : q.Ruled v) (hspared : v.fate ≠ .dead) :
    v.raised.has .sweepable = false := by
  cases hv with
  | marked => rfl
  | bare => exact absurd rfl hspared
  | spent => exact absurd rfl hspared
  | queued => rfl
  | sent => rfl

end Ruled

end Question

namespace Heap

variable {h h' : Heap (Diary ρ)} {id : PageId} {p : Page} {hearings : List Hearing}

/-- The page `id` was waiting and has been swept by marks. -/
structure Collects (id : PageId) (h h' : Heap (Diary ρ)) : Prop where
  waiting : h.Waiting id
  waiting_iff : ∀ j, h'.Waiting j ↔ h.Waiting j ∧ j ≠ id
  old : ∀ b, h'.Holds (.block b) → h.Holds (.block b)
  notes : ∃ notes, h'.notes = h.notes ++ notes ∧ (∀ n ∈ notes, n.ByMark) ∧
    (∀ b, h.Holds (.block b) → b.page = id → story b notes = [.judgment (h.question b)]) ∧
    ∀ b, ¬(h.Holds (.block b) ∧ b.page = id) → story b notes = []
  dead : ∀ b x, h.Depicts b x → b.page = id → (x.question b).verdictByMark.fate = .dead →
    ¬h'.Holds (.block b)
  spared : ∀ b x, h.Depicts b x → b.page = id → (x.question b).verdictByMark.fate ≠ .dead →
    h'.Depicts b (x.spared b)
  other : ∀ b x, h.Depicts b x → b.page ≠ id → h'.Depicts b x

/-- A page of blocks shows the objects on it. -/
theorem Civil.sight {h : Heap ρ} (hc : h.Civil) (hp : h.arena.memory.page? id = some p)
    (hkind : p.kind ≠ .records) {i : Nat} (hi : i ∈ p.blocks.toList) :
    ∃ x, h.Depicts ⟨id, i⟩ x ∧ sightAt p.cells i = ⟨i, x.marked, x.record.map Prod.fst⟩ := by
  obtain ⟨x, hx⟩ := hc ⟨id, i⟩ (holds_block.mpr ⟨p, hp, hkind, hi⟩)
  exact ⟨x, hx, hx.sight hp⟩

/-- No two objects on a page share a record. -/
theorem Civil.unshared {h : Heap ρ} (hc : h.Civil) (hs : h.Sound)
    (hp : h.arena.memory.page? id = some p) (hkind : p.kind ≠ .records) :
    Arena.Unshared (p.blocks.toList.map (sightAt p.cells)) := by
  refine List.pairwise_map.mpr ((hs.page_sound hp).blocks_nodup.imp_of_mem ?_)
  intro i j hi hj hne r hri hrj
  obtain ⟨x, hx, hxs⟩ := hc.sight hp hkind hi
  obtain ⟨y, hy, hys⟩ := hc.sight hp hkind hj
  rw [hxs] at hri
  rw [hys] at hrj
  obtain ⟨⟨r₁, record⟩, hxr, rfl⟩ := Option.map_eq_some_iff.mp hri
  obtain ⟨⟨r₂, record'⟩, hyr, he⟩ := Option.map_eq_some_iff.mp hrj
  obtain rfl : r₂ = r₁ := he
  exact hne (congrArg BlockRef.index (hx.owner hy hxr hyr))

/-- What is asked about an object while its page is away. -/
theorem Depicts.questionOf_eq {h : Heap ρ} {i : Nat} {x : Object} (hx : h.Depicts ⟨id, i⟩ x)
    (hp : h.arena.memory.page? id = some p) {m : Memory} (hm : ∀ r, m.record? r = h.record? r) :
    Arena.questionOf id (sightAt p.cells i) m = h.question ⟨id, i⟩ := by
  rw [hx.question_eq, hx.sight hp, Arena.questionOf, Object.question, Object.flags]
  congr
  cases hr : x.record with
  | none => rfl
  | some s =>
    obtain ⟨r, record⟩ := s
    change (m.record? r).map _ = _
    rw [hm, (hx.record r record hr).1]
    rfl

theorem Sweeps.heard_objects (hsw : Sweeps (Policy.byMark (ρ := ρ)).noting id p hearings h h')
    (hs : h.Sound) (hc : h.Civil) (hkind : p.kind ≠ .records) :
    hearings = p.blocks.toList.map (fun i => (sightAt p.cells i,
      let v := (h.question ⟨id, i⟩).verdictByMark; ⟨v.fate, v.unmark⟩)) ∧
    h'.notes = h.notes ++ p.blocks.toList.map (fun i => .judgment (h.question ⟨id, i⟩)) ∧
    (∀ b x, h.Depicts b x → ∀ r record, x.record = some (r, record) → h'.record? r = some
      (if b.page = id then record.raise (x.question b).verdictByMark.raised else record)) ∧
    ∀ r, r.page ≠ id → (∀ b x, h.Depicts b x → x.record.map Prod.fst ≠ some r) →
      h'.record? r = h.record? r := by
  obtain ⟨a, c, hpages, hmemo, hhear, hmemo', hrecords⟩ := hsw.heard
  rw [Page.sights_of_block hkind, Page.asks_of_block hkind] at hhear
  have hsame : ∀ r, a.memory.record? r = h.record? r :=
    Memory.record?_of_away hsw.page_eq hkind hpages
  have hquestion {i : Nat} (hi : i ∈ p.blocks.toList) :
      Arena.questionOf id (sightAt p.cells i) a.memory = h.question ⟨id, i⟩ := by
    obtain ⟨x, hx, -⟩ := hc.sight hsw.page_eq hkind hi
    exact hx.questionOf_eq hsw.page_eq hsame
  obtain ⟨hhearings, hnotes, hraised, hleft⟩ :=
    Arena.hear_byMark (hc.unshared hs hsw.page_eq hkind) hhear
  refine ⟨?_, ?_, fun b x hx r record hr => ?_, fun r hne hstray => ?_⟩
  · rw [hhearings, List.map_map]
    refine List.map_congr_left fun i hi => ?_
    rw [Function.comp_apply, hquestion hi]
  · rw [Heap.notes, hmemo', hnotes, hmemo, List.map_map]
    refine congrArg _ (List.map_congr_left fun i hi => ?_)
    rw [Function.comp_apply, hquestion hi]
  · have hrec := (hx.record r record hr).1
    have hne : r.page ≠ id := by
      intro he
      rw [Heap.record?, Memory.record?_of_block (he ▸ hsw.page_eq) hkind] at hrec
      cases hrec
    rw [hrecords r hne]
    split_ifs with hb
    · obtain ⟨q, hq, -, hi⟩ := holds_block.mp hx.held
      rw [hb, hsw.page_eq] at hq
      obtain rfl : p = q := Option.some.inj hq
      obtain ⟨page, i⟩ := b
      obtain rfl : page = id := hb
      have hlink : (sightAt p.cells i).record = some r := by rw [hx.sight hsw.page_eq, hr]; rfl
      rw [hraised _ (List.mem_map_of_mem hi) r hlink, hquestion hi, hsame, hrec, hx.question_eq]
      rfl
    · rw [hleft r, hsame, hrec]
      intro s hsight he
      obtain ⟨i, hi, rfl⟩ := List.mem_map.mp hsight
      obtain ⟨y, hy, hys⟩ := hc.sight hsw.page_eq hkind hi
      rw [hys] at he
      obtain ⟨⟨r', record'⟩, hyr, rfl⟩ := Option.map_eq_some_iff.mp he
      exact hb (congrArg BlockRef.page (hx.owner hy hr hyr))
  · rw [hrecords r hne, hleft r, hsame]
    intro s hsight
    obtain ⟨i, hi, rfl⟩ := List.mem_map.mp hsight
    obtain ⟨y, hy, hys⟩ := hc.sight hsw.page_eq hkind hi
    rw [hys]
    exact hstray _ y hy

/-- Each object of the page has one note, and nobody else has any. -/
theorem story_judgments (h : Heap (Diary ρ)) (id : PageId) (b : BlockRef) {indices : List Nat}
    (hnodup : indices.Nodup) : story b (indices.map fun i => .judgment (h.question ⟨id, i⟩)) =
      if b.page = id ∧ b.index ∈ indices then [.judgment (h.question b)] else [] := by
  have hblock (i : Nat) : (Note.judgment (h.question ⟨id, i⟩)).block? = some b ↔
      b.page = id ∧ b.index = i := by
    obtain ⟨page, index⟩ := b
    change some (BlockRef.mk id i) = some ⟨page, index⟩ ↔ _
    rw [Option.some.injEq, BlockRef.mk.injEq, eq_comm, @eq_comm _ i]
  induction indices with
  | nil => simp
  | cons i rest ih =>
    obtain ⟨hi, hrest⟩ := List.nodup_cons.mp hnodup
    rw [List.map_cons, ← List.singleton_append, story_append, ih hrest]
    by_cases hb : b.page = id ∧ b.index = i
    · rw [story_of_eq ((hblock i).mpr hb), if_neg fun hmem => hi (hb.2 ▸ hmem.2),
        if_pos ⟨hb.1, List.mem_cons.mpr (.inl hb.2)⟩]
      obtain ⟨page, index⟩ := b
      obtain ⟨rfl, rfl⟩ := hb
      rfl
    · rw [story_of_ne ((hblock i).not.mpr hb), List.nil_append]
      refine if_congr (and_congr_right fun hpage => ?_) rfl rfl
      rw [List.mem_cons, or_iff_right fun he => hb ⟨hpage, he⟩]

theorem Sweeps.collects_objects (hsw : Sweeps (Policy.byMark (ρ := ρ)).noting id p hearings h h')
    (hs : h.Sound) (hc : h.Civil) (hkind : p.kind ≠ .records) : Collects id h h' := by
  obtain ⟨hhearings, hnotes, hrecords, -⟩ := hsw.heard_objects hs hc hkind
  have hheld {b : BlockRef} (hb : b.page = id) :
      h.Holds (.block b) ↔ b.index ∈ p.blocks.toList := by
    rw [holds_block, hb, hsw.page_eq]
    simp [hkind]
  have hheld' {b : BlockRef} (hb : b.page = id) : h'.Holds (.block b) ↔
      b.index ∈ p.blocks.toList ∧ (h.question b).verdictByMark.fate ≠ .dead := by
    obtain ⟨page, index⟩ := b
    obtain rfl : page = id := hb
    rw [Holds, Tenant.ref_block, hsw.tenants_self, ← PageKind.tenant_of_ne hkind,
      List.mem_map_of_injective fun _ _ he => PageKind.tenant_inj.mp he, mem_survivors, hhearings]
    simp [Ruling.spares, sightAt]
  have hother {b : BlockRef} (hb : b.page ≠ id) : h'.Holds (.block b) ↔ h.Holds (.block b) := by
    rw [Holds, Holds, Tenant.ref_block, hsw.tenants_other _ hb]
  refine ⟨hsw.waiting, hsw.waiting_iff, fun b hb => ?_, ?_, fun b x hx hb hdead hheldb => ?_,
    fun b x hx hb hspared => ?_, fun b x hx hb => ?_⟩
  · by_cases hpage : b.page = id
    · exact (hheld hpage).mpr ((hheld' hpage).mp hb).1
    · exact (hother hpage).mp hb
  · refine ⟨_, hnotes, fun n hn => ?_, fun b hb hpage => ?_, fun b hb => ?_⟩
    · obtain ⟨i, -, rfl⟩ := List.mem_map.mp hn
      exact .object _
    · rw [story_judgments _ _ _ (hs.page_sound hsw.page_eq).blocks_nodup,
        if_pos ⟨hpage, (hheld hpage).mp hb⟩]
    · rw [story_judgments _ _ _ (hs.page_sound hsw.page_eq).blocks_nodup,
        if_neg fun hpage => hb ⟨(hheld hpage.1).mpr hpage.2, hpage.1⟩]
  · exact ((hheld' hb).mp hheldb).2 (hx.question_eq ▸ hdead)
  · have hquestion := hx.question_eq
    refine ⟨(hheld' hb).mpr ⟨(hheld hb).mp hx.held, hquestion ▸ hspared⟩, ?_, fun r record hr => ?_⟩
    · obtain ⟨link, hlink, hcells⟩ := hx.cells
      refine ⟨link, ?_, ?_⟩
      · rw [hlink, Object.spared, Object.raise, Option.map_map]
        rfl
      · have hmem : (sightAt p.cells b.index, (⟨(h.question b).verdictByMark.fate,
            (h.question b).verdictByMark.unmark⟩ : Ruling)) ∈ hearings := by
          rw [hhearings]
          obtain ⟨page, index⟩ := b
          obtain rfl : page = id := hb
          exact List.mem_map_of_mem ((hheld rfl).mp hx.held)
        have hcontent := hsw.content_self _ hmem (by simpa [Ruling.spares, hquestion] using hspared)
        rw [(h.question b).ruled_verdictByMark.unmark, if_pos rfl] at hcontent
        obtain ⟨page, index⟩ := b
        obtain rfl : page = id := hb
        rw [show h'.content ⟨page, index⟩ = _ from hcontent]
        rw [show h.content ⟨page, (sightAt p.cells index).index⟩ = _ from hcells]
        rfl
    · obtain ⟨⟨r', record'⟩, hr', he⟩ := Option.map_eq_some_iff.mp hr
      obtain ⟨rfl, rfl⟩ := Prod.mk.inj he
      obtain ⟨-, hbase, hsweepable⟩ := hx.record r' record' hr'
      refine ⟨?_, hbase, ?_⟩
      · rw [hrecords b x hx r' record' hr', if_pos hb]
      · rw [Record.raise_flags, Flags.has_union_sweepable, hsweepable,
          (x.question b).ruled_verdictByMark.not_sweepable hspared]
        rfl
  · refine hx.congr ((hother hb).mpr hx.held) (hsw.content_other b hb) fun r record hr => ?_
    rw [hrecords b x hx r record hr, if_neg hb, (hx.record r record hr).1]

theorem Sweeps.collects_records (hsw : Sweeps (Policy.byMark (ρ := ρ)).noting id p hearings h h')
    (hs : h.Sound) (hkind : p.kind = .records) : Collects id h h' := by
  obtain ⟨q, rfl⟩ := Page.exists_records hkind
  obtain ⟨a, c, hpages, hmemo, hhear, hmemo', hrecords⟩ := hsw.heard
  obtain ⟨hmemory, ⟨notes, hnotes, hsilent⟩, hfates⟩ := Arena.hear_records hhear
  have hpage {b : BlockRef} (hb : h.Holds (.block b)) : b.page ≠ id := by
    intro he
    obtain ⟨p, hp, hne, -⟩ := holds_block.mp hb
    rw [he, hsw.page_eq] at hp
    exact hne (Option.some.inj hp ▸ rfl)
  have hholds (b : BlockRef) : h'.Holds (.block b) ↔ h.Holds (.block b) := by
    by_cases he : b.page = id
    · refine iff_of_false (fun hb => ?_) fun hb => hpage hb he
      rw [Holds, Tenant.ref_block, he, hsw.tenants_self] at hb
      obtain ⟨i, -, hi⟩ := List.mem_map.mp hb
      cases hi
    · rw [Holds, Holds, Tenant.ref_block, hsw.tenants_other _ he]
  -- A record that belongs to an object is not sweepable, so it is spared.
  have hrecord {r : BlockRef} {record : Record} (hr : h.record? r = some record)
      (hsweepable : record.flags.has .sweepable = false) : h'.record? r = h.record? r := by
    by_cases he : r.page = id
    · obtain ⟨page, index⟩ := r
      obtain rfl : page = id := he
      have hat : (Page.records q).record? index = some record :=
        (record?_eq (b := ⟨page, index⟩) hsw.page_eq).symm.trans hr
      have hmem : index ∈ (Page.records q).blocks.toList := by
        obtain ⟨free, hq⟩ := hs.page_sound hsw.page_eq
        exact hq.mem_blocks.mpr ⟨record, hat⟩
      rw [← hsw.map_index] at hmem
      obtain ⟨x, hx, rfl⟩ := List.mem_map.mp hmem
      refine hsw.record_self x hx ?_
      have hfate : x.2.fate = .live := by
        rw [hfates x hx record hat, Record.fate, hsweepable]
        rfl
      simp [Ruling.spares, hfate]
    · rw [hrecords r he, hmemory, Memory.record?, hpages, if_neg he]
      rfl
  refine ⟨hsw.waiting, hsw.waiting_iff, fun b hb => (hholds b).mp hb,
    ⟨notes, ?_, fun n hn => (hsilent n hn).1, ?_, ?_⟩,
    fun b x hx hb => absurd hb (hpage hx.held), fun b x hx hb => absurd hb (hpage hx.held),
    fun b x hx hb => ?_⟩
  · rw [Heap.notes, hmemo', hnotes, hmemo]
    rfl
  · exact fun b hb he => absurd he (hpage hb)
  · intro b _
    refine List.filter_eq_nil_iff.mpr fun n hn => ?_
    simp [(hsilent n hn).2]
  · refine hx.congr ((hholds b).mpr hx.held) (hsw.content_other b hb) fun r record hr => ?_
    obtain ⟨hrec, -, hsweepable⟩ := hx.record r record hr
    exact hrecord hrec hsweepable

/-- In a civil heap, housekeeping by marks cannot be seen, or it sweeps a page that was waiting. -/
theorem Tidy.quiet_or_collects (ht : Tidy (Policy.byMark (ρ := ρ)).noting h h') (hs : h.Sound)
    (hc : h.Civil) : Quiet h h' ∨ ∃ id, Collects id h h' := by
  rcases ht.quiet_or_sweeps hs with hq | ⟨id, p, hearings, hsw⟩
  · exact .inl hq
  · by_cases hkind : p.kind = .records
    · exact .inr ⟨id, hsw.collects_records hs hkind⟩
    · exact .inr ⟨id, hsw.collects_objects hs hc hkind⟩

end Heap

end SweptHeap
