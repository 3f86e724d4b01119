import Mathlib
import SweptHeap.Proofs.Heap.Sieving
import SweptHeap.Proofs.RecordLinks

/-!
# Sweeps foreseen

A policy is impartial when its verdict on a block depends on nothing but the block: on its mark, and
on the flags of a record that no other block links to. What a sweep makes of a page of blocks can
then be told before the sweep begins (`foresee`, `outcome`), and neither the order of the pages nor
who sweeps them matters. `SweptSoFar` says what is left of a heap when some of its pages have been
swept.
-/

namespace SweptHeap

variable {ρ : Type} {policy : Policy ρ} {verdict : Question → Verdict}
  {id j : PageId} {p p' q : Page} {hearings : List Hearing}

/-- The verdict on the block does not depend on flags. -/
def Blind (verdict : Question → Verdict) (b : BlockRef) : Prop :=
  ∀ marked flags flags', verdict ⟨b, marked, flags⟩ = verdict ⟨b, marked, flags'⟩

/-- The policy goes by what it sees and not by what it remembers, and the flags that it goes by are
those of a record that no other block links to. -/
structure Policy.Impartial (policy : Policy ρ) (verdict : Question → Verdict) (h : Heap ρ) :
    Prop where
  judge_eq : ∀ q memo, (policy.judge q memo).1 = verdict q
  own : ∀ b r, h.Links b r → (∀ b', h.Links b' r → b' = b) ∨ Blind verdict b

/-- A policy that looks answers up in a table is impartial. -/
theorem Policy.impartial_of_table {table : BlockRef → Bool → Verdict}
    (hjudge : ∀ q memo, (policy.judge q memo).1 = table q.block q.marked) (h : Heap ρ) :
    policy.Impartial (fun q => table q.block q.marked) h :=
  ⟨hjudge, fun _ _ _ => .inr fun _ _ _ => rfl⟩

/-- Where every record belongs to one object, going by marks is impartial. -/
theorem HeapSystem.ReachedBy.impartial_byMark {o : HeapSystem ρ} (hreached : ReachedBy Mannerly o) :
    Policy.byMark.Impartial Question.verdictByMark o.heap := by
  refine ⟨fun _ _ => rfl, fun b r hlinks => .inl fun b' hlinks' => ?_⟩
  obtain ⟨x, record, hx, hr, -⟩ := (links_iff hreached.civil).mp hlinks
  obtain ⟨x', record', hx', hr', -⟩ := (links_iff hreached.civil).mp hlinks'
  exact hx'.owner hx hr' hr

/-- What a page learns of a verdict. -/
def Verdict.ruling (v : Verdict) : Ruling := ⟨v.fate, v.unmark⟩

/-! ### Pages of blocks while others are swept -/

theorem Page.kind_after (p : Page) (hearings : List Hearing) :
    (p.after hearings).kind = p.kind := by
  cases p <;> rfl

namespace Arena

variable {a a' b c : Arena ρ} {s : Sight} {sights : List Sight} {r : BlockRef}

theorem record?_ask (policy : Policy ρ) (id : PageId) (a : Arena ρ) (hr : s.record ≠ some r) :
    (a.ask policy id s).2.memory.record? r = a.memory.record? r := by
  rw [ask_eq]
  cases hs : s.record with
  | none => rfl
  | some r' =>
    have hne : r ≠ r' := fun he => hr (he ▸ hs)
    dsimp only
    split_ifs
    · rfl
    · rw [Memory.raise, Memory.record?_modifyRecord, if_neg hne]

theorem page?_asks (policy : Policy ρ) (id : PageId) (p : Page) (s : Sight) (a : Arena ρ)
    (hq : q.kind ≠ .records) :
    (p.asks (ask policy id) (askRecord policy id) s a).2.memory.page? j = some q ↔
      a.memory.page? j = some q := by
  have hask : (a.ask policy id s).2.memory.page? j = some q ↔ a.memory.page? j = some q := by
    rw [ask_eq]
    cases s.record with
    | none => rfl
    | some r =>
      dsimp only
      split_ifs
      · rfl
      · exact Memory.page?_modifyRecord hq _ _ _
  cases p with
  | uniform => exact hask
  | tiled => exact hask
  | large => exact hask
  | records p =>
    simp only [Page.asks, RecordPage.askSlot]
    cases RecordPage.recordAt p.slots s.index <;> rfl

theorem page?_hear
    (hhear : hear (p.asks (ask policy id) (askRecord policy id)) sights b = (hearings, c))
    (hq : q.kind ≠ .records) : c.memory.page? j = some q ↔ b.memory.page? j = some q := by
  induction sights generalizing b hearings with
  | nil =>
    obtain ⟨-, rfl⟩ := Prod.mk.inj hhear
    rfl
  | cons s rest ih =>
    obtain ⟨ruling, b₁, tail, hask, htail, -⟩ := hear_cons hhear
    have hone := page?_asks (j := j) policy id p s b hq
    rw [hask] at hone
    exact (ih htail).trans hone

theorem record?_hear (hhear : hear (ask policy id) sights b = (hearings, c))
    (hr : ∀ s ∈ sights, s.record ≠ some r) : c.memory.record? r = b.memory.record? r := by
  induction sights generalizing b hearings with
  | nil =>
    obtain ⟨-, rfl⟩ := Prod.mk.inj hhear
    rfl
  | cons s rest ih =>
    obtain ⟨ruling, b₁, tail, hask, htail, -⟩ := hear_cons hhear
    have hone := record?_ask policy id b (hr s List.mem_cons_self)
    rw [hask] at hone
    exact (ih htail fun t ht => hr t (List.mem_cons_of_mem _ ht)).trans hone

/-- Rulings can be told beforehand, if none of the blocks is judged by flags that another one
raises. -/
theorem hear_foreseen (hjudge : ∀ q memo, (policy.judge q memo).1 = verdict q) {m : Memory}
    (hapart : sights.Pairwise fun s t =>
      ∀ r, s.record = some r → t.record = some r → Blind verdict ⟨id, t.index⟩)
    (hstart : ∀ s ∈ sights, verdict (questionOf id s b.memory) = verdict (questionOf id s m)) :
    (hear (ask policy id) sights b).1 =
      sights.map fun s => (s, (verdict (questionOf id s m)).ruling) := by
  induction sights generalizing b with
  | nil => rfl
  | cons s rest ih =>
    obtain ⟨hfirst, hrest⟩ := List.pairwise_cons.mp hapart
    have hruling : (b.ask policy id s).1 = (verdict (questionOf id s m)).ruling := by
      rw [← hstart s List.mem_cons_self, ← hjudge _ b.memo]
      rfl
    have htail : ∀ t ∈ rest,
        verdict (questionOf id t (b.ask policy id s).2.memory) = verdict (questionOf id t m) := by
      intro t ht
      rw [← hstart t (List.mem_cons_of_mem _ ht)]
      cases hr : t.record with
      | none => simp only [questionOf, hr, flagsOf, Option.bind_none]
      | some r =>
        by_cases hs : s.record = some r
        · exact hfirst t ht r hs hr _ _ _
        · simp only [questionOf, hr, flagsOf, Option.bind_some, record?_ask policy id b hs]
    change (s, (b.ask policy id s).1) :: (hear (ask policy id) rest (b.ask policy id s).2).1 = _
    rw [hruling, ih hrest htail, List.map_cons]

namespace Sifts

theorem page?_block (h : Sifts policy id p hearings p' a a') (hj : j ≠ id)
    (hq : q.kind ≠ .records) : a'.memory.page? j = some q ↔ a.memory.page? j = some q := by
  obtain ⟨b, c, hb, -, hhear, hc, -⟩ := h.heard
  have hid : id < a.memory.pages.size := Memory.lt_of_page? h.page_eq
  have hid' : id < c.memory.pages.size := by
    rw [(hear_amends hhear).1.size_eq, hb, Memory.size_setPage]
    exact hid
  rw [Memory.page?_congr hc, Memory.page?_setPage hid', if_neg hj, page?_hear hhear hq,
    Memory.page?_congr hb, Memory.page?_setPage hid, if_neg hj]

theorem record?_other (h : Sifts policy id p hearings p' a a') (hp : p.kind ≠ .records)
    (hpage : r.page ≠ id) (hr : ∀ s ∈ p.sights, s.record ≠ some r) :
    a'.memory.record? r = a.memory.record? r := by
  obtain ⟨b, c, hb, -, hhear, hc, -⟩ := h.heard
  have hid : id < a.memory.pages.size := Memory.lt_of_page? h.page_eq
  have hid' : id < c.memory.pages.size := by
    rw [(hear_amends hhear).1.size_eq, hb, Memory.size_setPage]
    exact hid
  rw [Page.asks_of_block hp] at hhear
  calc a'.memory.record? r = c.memory.record? r := Memory.record?_congr <| by
        rw [Memory.page?_congr hc, Memory.page?_setPage hid', if_neg hpage]
    _ = b.memory.record? r := record?_hear hhear hr
    _ = a.memory.record? r := Memory.record?_congr <| by
        rw [Memory.page?_congr hb, Memory.page?_setPage hid, if_neg hpage]

end Sifts

end Arena

/-- No record changes but those that blocks of the page link to. -/
theorem Depot.Sieves.record?_eq {k : Request} {d d' : Depot ρ} {r : BlockRef}
    (h : Depot.Sieves policy k id p hearings d d') (hk : k.kind ≠ .records)
    (hr : ∀ s ∈ p.sights, s.record ≠ some r) :
    d'.arena.memory.record? r = d.arena.memory.record? r := by
  have hp : p.kind ≠ .records := by rwa [← p.key_kind, h.key_eq]
  obtain ⟨p', a, hsift, -, hothers, -⟩ := h.sifted
  by_cases hpage : r.page = id
  · obtain ⟨e, -, hself⟩ := h.page_eq hk
    rw [← hpage] at hself
    have hnone : d.arena.memory.record? r = none :=
      Memory.record?_of_block (hpage ▸ hsift.page_eq) hp
    rw [hnone]
    split_ifs at hself
    · rw [Memory.record?, hself]
      rfl
    · exact Memory.record?_of_block hself (by rwa [Page.kind_after])
  · rw [Memory.record?_congr (hothers _ hpage), hsift.record?_other hp hpage hr]

namespace Heap

variable {h₀ h h' : Heap ρ} {k : Request} {d : Depot ρ} {done done' : List PageId}

/-- The hearings that the sweep of a page of blocks will have. -/
def foresee (verdict : Question → Verdict) (h : Heap ρ) (id : PageId) : List Hearing :=
  (h.arena.memory.page? id).elim [] fun p =>
    p.sights.map fun s => (s, (verdict (Arena.questionOf id s h.arena.memory)).ruling)

/-- What the sweep of a page of blocks will leave of it. -/
def outcome (verdict : Question → Verdict) (h : Heap ρ) (id : PageId) : Option Page :=
  (h.arena.memory.page? id).bind fun p =>
    if p.kind = .large ∧ survivors (h.foresee verdict id) = [] then none
    else some (p.after (h.foresee verdict id))

/-- The heaps have the same pages of blocks, in the same places. -/
structure Agrees (h h' : Heap ρ) : Prop where
  page_iff : ∀ id p, p.kind ≠ .records →
    (h.arena.memory.page? id = some p ↔ h'.arena.memory.page? id = some p)
  empty : ∀ k ∈ blockRequests, (h.shelf k).empty.toList.Perm (h'.shelf k).empty.toList
  ready : ∀ k ∈ blockRequests, (h.shelf k).ready.toList.Perm (h'.shelf k).ready.toList
  used : ∀ k ∈ blockRequests, (h.shelf k).used = (h'.shelf k).used
  unswept : ∀ k ∈ blockRequests, (h.shelf k).unswept = (h'.shelf k).unswept

/-- The shelf that a page belongs on. -/
def keyOf (h : Heap ρ) (id : PageId) : Option Request := (h.arena.memory.page? id).map Page.key

/-- What is left of the heap `h₀` when the pages `done` of blocks, and some pages of records, have
been swept. -/
structure SweptSoFar (verdict : Question → Verdict) (h₀ : Heap ρ) (done : List PageId)
    (h : Heap ρ) : Prop where
  sound : h.Sound
  listed : ∀ id ∈ done, ∃ k ∈ blockRequests, h₀.keyOf id = some k
  unswept : ∀ k ∈ blockRequests,
    ((h.shelf k).unswept.toList ++ done.filter (h₀.keyOf · = some k)).Perm
    (h₀.shelf k).unswept.toList
  empty : ∀ k ∈ blockRequests, (h.shelf k).empty.toList.Perm ((h₀.shelf k).empty.toList ++
    done.filter fun id => h₀.keyOf id = some k ∧ k.kind ≠ .large ∧
    survivors (h₀.foresee verdict id) = [])
  ready : ∀ k ∈ blockRequests, (h.shelf k).ready.toList.Perm ((h₀.shelf k).ready.toList ++
    done.filter fun id => h₀.keyOf id = some k ∧ survivors (h₀.foresee verdict id) ≠ [])
  used : ∀ k ∈ blockRequests, (h.shelf k).used = (h₀.shelf k).used
  page_iff : ∀ id p, p.kind ≠ .records → (h.arena.memory.page? id = some p ↔
    (if id ∈ done then h₀.outcome verdict id else h₀.arena.memory.page? id) = some p)
  kind_eq : ∀ id p, h.arena.memory.page? id = some p →
    ∃ p₀, h₀.arena.memory.page? id = some p₀ ∧ p.kind = p₀.kind
  record_eq : ∀ b r, h₀.Links b r → (∀ b', h₀.Links b' r → b' = b) →
    (∃ k ∈ blockRequests, b.page ∈ (h.shelf k).unswept.toList) → h.record? r = h₀.record? r

theorem SweptSoFar.start (verdict : Question → Verdict) (hs : h₀.Sound) :
    SweptSoFar verdict h₀ [] h₀ where
  sound := hs
  listed := by simp
  unswept := by simp
  empty := by simp
  ready := by simp
  used _ _ := rfl
  page_iff := by simp
  kind_eq _ p hp := ⟨p, hp, rfl⟩
  record_eq _ _ _ _ _ := rfl

/-- What a page shows of a block is the block's own link. -/
theorem links_of_sight (hp : h.arena.memory.page? id = some p) (hk : p.kind ≠ .records) {s : Sight}
    (hs : s ∈ p.sights) {r : BlockRef} (hr : s.record = some r) : h.Links ⟨id, s.index⟩ r := by
  rw [Page.sights_of_block hk] at hs
  obtain ⟨i, hi, rfl⟩ := List.mem_map.mp hs
  refine ⟨holds_block.mpr ⟨p, hp, hk, hi⟩, ?_⟩
  rw [Memory.recordOf, Memory.cell, show (BlockRef.linkCell ⟨id, _⟩).page = id from rfl, hp]
  exact hr

namespace SweptSoFar

/-- A page that still waits is as it was. -/
theorem page?_waiting (hsf : SweptSoFar verdict h₀ done h) (hs₀ : h₀.Sound) (hk : k ∈ blockRequests)
    (hid : id ∈ (h.shelf k).unswept.toList) :
    id ∉ done ∧ h₀.keyOf id = some k ∧ ∀ p, h.arena.memory.page? id = some p →
      h₀.arena.memory.page? id = some p := by
  obtain ⟨hall, hkind⟩ := mem_blockRequests.mp hk
  have hperm := hsf.unswept k hk
  have hid₀ : id ∈ (h₀.shelf k).unswept.toList := hperm.subset (List.mem_append_left _ hid)
  obtain ⟨p₀, hp₀, hkey, -⟩ := hs₀.key_of_mem hall (Shelf.mem_pages.mpr (.inr (.inr (.inr hid₀))))
  have hkeyOf : h₀.keyOf id = some k := by rw [keyOf, hp₀, ← hkey]; rfl
  have hnodup : (h₀.shelf k).unswept.toList.Nodup := by
    have hpages := (hs₀.good k hall).nodup
    rw [← Shelf.swept_append] at hpages
    exact (List.nodup_append.mp hpages).2.1
  have hnot : id ∉ done := by
    intro hdone
    have hapart := (List.nodup_append.mp (hperm.nodup_iff.mpr hnodup)).2.2 id hid id
    exact hapart (List.mem_filter.mpr ⟨hdone, by simpa using hkeyOf⟩) rfl
  refine ⟨hnot, hkeyOf, fun p hp => ?_⟩
  obtain ⟨q, hq, hqkey, -⟩ :=
    hsf.sound.key_of_mem hall (Shelf.mem_pages.mpr (.inr (.inr (.inr hid))))
  obtain rfl : p = q := Option.some.inj (hp.symm.trans hq)
  have hblock : p.kind ≠ .records := by rwa [← p.key_kind, hqkey]
  simpa [hnot] using (hsf.page_iff id p hblock).mp hp

/-- A page that still waits will be swept with the hearings that were foreseen. -/
theorem hear_waiting (hsf : SweptSoFar verdict h₀ done h) (hs₀ : h₀.Sound)
    (himpartial : policy.Impartial verdict h₀) (hk : k ∈ blockRequests)
    (hid : id ∈ (h.shelf k).unswept.toList) (hp : h.arena.memory.page? id = some p)
    (hkind : p.kind ≠ .records) {e : Arena ρ}
    (he : e.memory.pages = (h.arena.memory.setPage id none).pages) :
    (hear (Arena.ask policy id) p.sights e).1 = h₀.foresee verdict id := by
  obtain ⟨-, -, hsame⟩ := hsf.page?_waiting hs₀ hk hid
  have hp₀ := hsame p hp
  have hlt : id < h.arena.memory.pages.size := Memory.lt_of_page? hp
  rw [foresee, hp₀, Option.elim_some]
  refine Arena.hear_foreseen himpartial.judge_eq ?_ fun s hs => ?_
  · have hnodup : (p.sights.map Sight.index).Nodup := by
      rw [p.map_index_sights]
      exact (hs₀.page_sound hp₀).blocks_nodup
    refine (List.pairwise_map.mp hnodup).imp_of_mem fun {s t} hs ht hne r hsr htr => ?_
    have hslinks := links_of_sight hp₀ hkind hs hsr
    refine (himpartial.own _ r (links_of_sight hp₀ hkind ht htr)).resolve_left fun hown => hne ?_
    exact congrArg BlockRef.index (hown _ hslinks)
  · cases hr : s.record with
    | none => simp only [Arena.questionOf, hr, Arena.flagsOf, Option.bind_none]
    | some r =>
      have hlinks := links_of_sight hp₀ hkind hs hr
      rcases himpartial.own _ r hlinks with hown | hblind
      · -- The record of a block that waits is as it was, and it is not on the page that is away.
        have hrecord : e.memory.record? r = h₀.record? r := by
          rw [← hsf.record_eq _ r hlinks hown ⟨k, hk, hid⟩]
          refine Memory.record?_of_away hp hkind (fun j => ?_) r
          rw [Memory.page?_congr he, Memory.page?_setPage hlt]
        simp only [Arena.questionOf, hr, Arena.flagsOf, Option.bind_some, hrecord]
        rfl
      · exact hblind _ _ _

/-- The pages that are not swept are what they were. -/
theorem kind_other (hsf : SweptSoFar verdict h₀ done h)
    (hsieves : Depot.Sieves policy k id p hearings (h.depot k) d) (hj : j ≠ id)
    (hq : d.arena.memory.page? j = some q) :
    ∃ p₀, h₀.arena.memory.page? j = some p₀ ∧ q.kind = p₀.kind := by
  obtain ⟨p', a, hsift, -, hothers, -⟩ := hsieves.sifted
  rw [hothers j hj] at hq
  obtain ⟨q₁, hq₁, halike⟩ := Depot.rel_alike_some_right (hsift.others hj) hq
  obtain ⟨p₀, hp₀, hkind⟩ := hsf.kind_eq j q₁ hq₁
  exact ⟨p₀, hp₀, halike.kind_eq.trans hkind⟩

section Page

variable (hsf : SweptSoFar verdict h₀ done h) (hs₀ : h₀.Sound)
  (himpartial : policy.Impartial verdict h₀) (hk : k ∈ blockRequests)
  (hsieves : Depot.Sieves policy k id p hearings (h.depot k) d)

include hsf hs₀ hk hsieves

theorem waiting_of_sieves : id ∈ (h.shelf k).unswept.toList ∧ id ∉ done ∧ h₀.keyOf id = some k ∧
    h₀.arena.memory.page? id = some p ∧ p.kind ≠ .records := by
  have hid : id ∈ (h.shelf k).unswept.toList := by
    rw [show (h.shelf k).unswept = d.shelf.unswept.push id from hsieves.unswept_eq]
    simp
  obtain ⟨hnot, hkeyOf, hsame⟩ := hsf.page?_waiting hs₀ hk hid
  obtain ⟨p', a, hsift, -⟩ := hsieves.sifted
  refine ⟨hid, hnot, hkeyOf, hsame p hsift.page_eq, ?_⟩
  rw [← p.key_kind, hsieves.key_eq]
  exact (mem_blockRequests.mp hk).2

/-- What waits for the sweep now has waited before, and is not the page that was swept. -/
theorem waiting_setDepot {k' : Request} (hk' : k' ∈ blockRequests)
    (hj : j ∈ ((h.setDepot k d).shelf k').unswept.toList) :
    j ∈ (h.shelf k').unswept.toList ∧ j ≠ id := by
  have hall := (mem_blockRequests.mp hk).1
  have hunswept : (h.shelf k).unswept = d.shelf.unswept.push id := hsieves.unswept_eq
  rw [shelf_setDepot hsf.sound.size_eq hall (mem_blockRequests.mp hk').1] at hj
  split_ifs at hj with he
  · subst he
    refine ⟨by simp [hunswept, hj], ?_⟩
    rintro rfl
    exact ((hsf.sound.good k' hall).not_mem_of_waiting hunswept).2.2.2 hj
  · refine ⟨hj, ?_⟩
    rintro rfl
    obtain ⟨-, -, hkeyOf, -⟩ := hsf.waiting_of_sieves hs₀ hk hsieves
    obtain ⟨-, hkeyOf', -⟩ := hsf.page?_waiting hs₀ hk' hj
    exact he (Option.some.inj (hkeyOf'.symm.trans hkeyOf))

include himpartial

/-- A page of blocks has the hearings that were foreseen. -/
theorem hearings_eq : hearings = h₀.foresee verdict id := by
  obtain ⟨hid, -, -, -, hp⟩ := hsf.waiting_of_sieves hs₀ hk hsieves
  obtain ⟨p', a, hsift, -⟩ := hsieves.sifted
  obtain ⟨b, c, hb, -, hhear, -⟩ := hsift.heard
  rw [Page.asks_of_block hp] at hhear
  rw [← hsf.hear_waiting hs₀ himpartial hk hid hsift.page_eq hp hb, hhear]

theorem page_iff_setDepot (hq : q.kind ≠ .records) :
    (h.setDepot k d).arena.memory.page? j = some q ↔
    (if j ∈ id :: done then h₀.outcome verdict j else h₀.arena.memory.page? j) = some q := by
  obtain ⟨hid, -, -, hp₀, hp⟩ := hsf.waiting_of_sieves hs₀ hk hsieves
  obtain ⟨p', a, hsift, -, hothers, -⟩ := hsieves.sifted
  rw [setDepot_arena]
  by_cases hj : j = id
  · subst hj
    obtain ⟨e, he, hself⟩ := hsieves.page_eq (mem_blockRequests.mp hk).2
    have hkinds : k.kind = p.kind := by rw [← p.key_kind, hsieves.key_eq]
    rw [hself, hsf.hear_waiting hs₀ himpartial hk hid hsift.page_eq hp he,
      hsf.hearings_eq hs₀ himpartial hk hsieves, hkinds, if_pos List.mem_cons_self, outcome, hp₀,
      Option.bind_some]
  · rw [hothers j hj, hsift.page?_block hj hq]
    simp only [List.mem_cons, hj, false_or]
    exact hsf.page_iff j q hq

/-- One more page of blocks is swept. -/
theorem page : SweptSoFar verdict h₀ (id :: done) (h.setDepot k d) := by
  obtain ⟨hall, hkind⟩ := mem_blockRequests.mp hk
  obtain ⟨-, -, hkeyOf, hp₀, hp⟩ := hsf.waiting_of_sieves hs₀ hk hsieves
  have hunswept : (h.shelf k).unswept = d.shelf.unswept.push id := hsieves.unswept_eq
  have hforeseen := hsf.hearings_eq hs₀ himpartial hk hsieves
  have hshelf {k' : Request} (hk' : k' ∈ blockRequests) :
      (h.setDepot k d).shelf k' = if k' = k then d.shelf else h.shelf k' :=
    shelf_setDepot hsf.sound.size_eq hall (mem_blockRequests.mp hk').1 d
  have hother {k' : Request} (hne : k' ≠ k) : h₀.keyOf id ≠ some k' := by
    rw [hkeyOf]
    exact fun he => hne (Option.some.inj he).symm
  have hplace {xs ys zs : List PageId} (hperm : xs.Perm (ys ++ zs)) :
      (xs ++ [id]).Perm (ys ++ id :: zs) :=
    (List.perm_append_singleton _ _).trans ((hperm.cons id).trans List.perm_middle.symm)
  refine ⟨(Tidy.shelf hall hsieves.tidy).sound hsf.sound, ?_, fun k' hk' => ?_, fun k' hk' => ?_,
    fun k' hk' => ?_, fun k' hk' => ?_, fun j q => hsf.page_iff_setDepot hs₀ himpartial hk hsieves,
    fun j q hq => ?_, fun b r hlinks hown hwaits => ?_⟩
  · exact List.forall_mem_cons.mpr ⟨⟨k, hk, hkeyOf⟩, hsf.listed⟩
  · have hperm := hsf.unswept k' hk'
    rw [hshelf hk']
    split_ifs with he
    · subst he
      rw [hunswept, Array.toList_push] at hperm
      rw [List.filter_cons_of_pos (by simpa using hkeyOf), List.append_cons]
      exact hperm
    · rwa [List.filter_cons_of_neg (by simpa using hother he)]
  · have hperm := hsf.empty k' hk'
    rw [hshelf hk']
    split_ifs with he
    · subst he
      rw [hsieves.empty_eq, hforeseen]
      split_ifs with hvacant
      · rw [List.filter_cons_of_pos (by simpa using ⟨hkeyOf, hvacant⟩), Array.toList_push]
        exact hplace hperm
      · rw [List.filter_cons_of_neg (by simpa [hkeyOf] using hvacant)]
        exact hperm
    · rwa [List.filter_cons_of_neg (by simp [hother he])]
  · have hperm := hsf.ready k' hk'
    rw [hshelf hk']
    split_ifs with he
    · subst he
      rw [hsieves.ready_eq, hforeseen]
      split_ifs with hvacant
      · rw [List.filter_cons_of_neg (by simp [hvacant])]
        exact hperm
      · rw [List.filter_cons_of_pos (by simpa using ⟨hkeyOf, hvacant⟩), Array.toList_push]
        exact hplace hperm
    · rwa [List.filter_cons_of_neg (by simp [hother he])]
  · rw [hshelf hk', ← hsf.used k' hk']
    split_ifs with he
    · subst he
      exact hsieves.used_eq
    · rfl
  · rw [setDepot_arena] at hq
    by_cases hj : j = id
    · subst hj
      obtain ⟨e, -, hself⟩ := hsieves.page_eq hkind
      rw [hself] at hq
      split_ifs at hq
      obtain rfl := Option.some.inj hq
      exact ⟨p, hp₀, p.kind_after _⟩
    · exact hsf.kind_other hsieves hj hq
  · -- A block that waits is on another page, and no block of this one shares its record.
    obtain ⟨k', hk', hwaits⟩ := hwaits
    obtain ⟨hbefore, hpage⟩ := hsf.waiting_setDepot hs₀ hk hsieves hk' hwaits
    rw [← hsf.record_eq b r hlinks hown ⟨k', hk', hbefore⟩, record?, setDepot_arena]
    refine hsieves.record?_eq hkind fun s hs hr => hpage ?_
    exact (congrArg BlockRef.page (hown _ (links_of_sight hp₀ hp hs hr))).symm

end Page

/-- A page of records is swept, once no page of blocks waits. -/
theorem records (hsf : SweptSoFar verdict h₀ done h) (hk : k ∈ allRequests)
    (hrecords : k.kind = .records) (hsieves : Depot.Sieves policy k id p hearings (h.depot k) d)
    (hcleared : ∀ k' ∈ blockRequests, (h.shelf k').unswept = #[]) :
    SweptSoFar verdict h₀ done (h.setDepot k d) := by
  have hshelf {k' : Request} (hk' : k' ∈ blockRequests) :
      (h.setDepot k d).shelf k' = h.shelf k' := by
    obtain ⟨hall, hkind⟩ := mem_blockRequests.mp hk'
    rw [shelf_setDepot hsf.sound.size_eq hk hall, if_neg fun he : k' = k => hkind (he ▸ hrecords)]
  obtain ⟨p', a, hsift, -, hothers, hself⟩ := hsieves.sifted
  refine ⟨(Tidy.shelf hk hsieves.tidy).sound hsf.sound, hsf.listed,
    fun k' hk' => ?_, fun k' hk' => ?_,
    fun k' hk' => ?_, fun k' hk' => ?_, fun j q hq => ?_, fun j q hq => ?_,
    fun b r hlinks hown hwaits => ?_⟩
  · rw [hshelf hk']
    exact hsf.unswept k' hk'
  · rw [hshelf hk']
    exact hsf.empty k' hk'
  · rw [hshelf hk']
    exact hsf.ready k' hk'
  · rw [hshelf hk']
    exact hsf.used k' hk'
  · rw [← hsf.page_iff j q hq, setDepot_arena]
    by_cases hj : j = id
    · subst hj
      have hp : p.kind = .records := by rw [← p.key_kind, hsieves.key_eq, hrecords]
      have hp' : p'.kind = .records := by rw [Page.kind_eq_of_key hsift.swept.key_eq, hp]
      have hbefore : h.arena.memory.page? j = some p := hsift.page_eq
      rw [hself (by simp [hrecords]), hbefore]
      constructor <;> intro he <;> obtain rfl := Option.some.inj he <;> contradiction
    · rw [hothers j hj]
      exact hsift.page?_block hj hq
  · rw [setDepot_arena] at hq
    by_cases hj : j = id
    · subst hj
      rw [hself (by simp [hrecords])] at hq
      obtain rfl := Option.some.inj hq
      obtain ⟨p₀, hp₀, hkind⟩ := hsf.kind_eq j p hsift.page_eq
      exact ⟨p₀, hp₀, (Page.kind_eq_of_key hsift.swept.key_eq).trans hkind⟩
    · exact hsf.kind_other hsieves hj hq
  · obtain ⟨k', hk', hwaits⟩ := hwaits
    rw [hshelf hk', hcleared k' hk'] at hwaits
    cases hwaits

/-- Counters and reports change. -/
theorem same (hsf : SweptSoFar verdict h₀ done h) {a : Arena ρ} (hsame : Arena.Same h.arena a) :
    SweptSoFar verdict h₀ done { h with arena := a } where
  sound := hsf.sound.amends (.of_eq hsame.pages_eq)
  listed := hsf.listed
  unswept := hsf.unswept
  empty := hsf.empty
  ready := hsf.ready
  used := hsf.used
  page_iff j q hq := by
    rw [← hsf.page_iff j q hq]
    exact iff_of_eq (congrArg (· = some q) (hsame.page? j))
  kind_eq j q hq := hsf.kind_eq j q ((hsame.page? j).symm.trans hq)
  record_eq b r hlinks hown hwaits := by
    rw [← hsf.record_eq b r hlinks hown hwaits]
    exact Memory.record?_congr (hsame.page? _)

/-- When nothing waits any more, which pages have been swept is settled. -/
theorem done_perm (hsf : SweptSoFar verdict h₀ done h) (hsf' : SweptSoFar verdict h₀ done' h')
    (hcleared : ∀ k ∈ blockRequests, (h.shelf k).unswept = #[])
    (hcleared' : ∀ k ∈ blockRequests, (h'.shelf k).unswept = #[]) : done.Perm done' := by
  refine List.perm_iff_count.mpr fun id => ?_
  by_cases hkey : ∃ k ∈ blockRequests, h₀.keyOf id = some k
  · obtain ⟨k, hk, hkeyOf⟩ := hkey
    have hperm := hsf.unswept k hk
    have hperm' := hsf'.unswept k hk
    rw [hcleared k hk, List.nil_append] at hperm
    rw [hcleared' k hk, List.nil_append] at hperm'
    have hcount := (hperm.trans hperm'.symm).count_eq id
    rwa [List.count_filter (by simpa using hkeyOf),
      List.count_filter (by simpa using hkeyOf)] at hcount
  · rw [List.count_eq_zero.mpr fun hid => hkey (hsf.listed id hid),
      List.count_eq_zero.mpr fun hid => hkey (hsf'.listed id hid)]

/-- When nothing waits any more, what is left of the heap is settled. -/
theorem agrees (hsf : SweptSoFar verdict h₀ done h) (hsf' : SweptSoFar verdict h₀ done' h')
    (hcleared : ∀ k ∈ blockRequests, (h.shelf k).unswept = #[])
    (hcleared' : ∀ k ∈ blockRequests, (h'.shelf k).unswept = #[]) : h.Agrees h' := by
  have hdone := hsf.done_perm hsf' hcleared hcleared'
  refine ⟨fun id p hp => ?_, fun k hk => ?_, fun k hk => ?_, fun k hk => ?_, fun k hk => ?_⟩
  · simp only [hsf.page_iff id p hp, hsf'.page_iff id p hp, hdone.mem_iff]
  · exact (hsf.empty k hk).trans (((hdone.filter _).append_left _).trans (hsf'.empty k hk).symm)
  · exact (hsf.ready k hk).trans (((hdone.filter _).append_left _).trans (hsf'.ready k hk).symm)
  · rw [hsf.used k hk, hsf'.used k hk]
  · rw [hcleared k hk, hcleared' k hk]

end SweptSoFar

namespace Agrees

theorem holds_iff (ha : h.Agrees h') (b : BlockRef) : h.Holds (.block b) ↔ h'.Holds (.block b) := by
  rw [holds_block, holds_block]
  refine exists_congr fun p => ⟨fun ⟨hp, hk, hb⟩ => ?_, fun ⟨hp, hk, hb⟩ => ?_⟩
  · exact ⟨(ha.page_iff _ p hk).mp hp, hk, hb⟩
  · exact ⟨(ha.page_iff _ p hk).mpr hp, hk, hb⟩

theorem bytes_eq (ha : h.Agrees h') (hs : h'.Sound) : h.bytes = h'.bytes := by
  refine bytes_congr fun k hk => Depot.bytes_congr ?_ fun j hj => ?_
  · refine (((ha.empty k hk).append (ha.ready k hk)).append ?_)
    rw [show (h.depot k).shelf.used = (h'.depot k).shelf.used from ha.used k hk]
  · obtain ⟨hall, hkind⟩ := mem_blockRequests.mp hk
    obtain ⟨p, hp, hkey, -⟩ := hs.key_of_mem hall (Depot.mem_pages_of_swept hj)
    have hblock : p.kind ≠ .records := by rwa [← p.key_kind, hkey]
    exact Memory.allocatedBytes_congr (((ha.page_iff j p hblock).mpr hp).trans hp.symm)

end Agrees

end Heap

end SweptHeap
