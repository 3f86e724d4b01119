import Mathlib
import SweptHeap.Proofs.HeapSystem.Diary

/-!
# Objects and their records

In a civil heap every block is an object: a mark, a link to a record or none, and a payload. The
record names the object that it belongs to, so no two objects share one, and it is not to be
reclaimed. `Depicts` says which object a block is, and the lemmas say what becomes of it in a sweep
by marks.
-/

namespace SweptHeap

/-! ### Flags -/

namespace Flags

variable (f g : Flags)

/-- A flag with a single bit is that bit. -/
theorem has_eq_getLsbD {flag : Flags} {i : Nat} (hflag : flag.bits.toBitVec = BitVec.twoPow 32 i)
    (hi : i < 32) : f.has flag = f.bits.toBitVec.getLsbD i := by
  rw [has, Bool.eq_iff_iff, beq_iff_eq, ← UInt32.toBitVec_inj, UInt32.toBitVec_and, hflag,
    BitVec.and_twoPow]
  split_ifs with hbit
  · simp [hbit]
  · simp only [hbit, Bool.false_eq_true, iff_false]
    intro hzero
    have hone := congrArg (fun x => BitVec.getLsbD x i) hzero
    simp [hi] at hone

theorem has_union {flag : Flags} {i : Nat} (hflag : flag.bits.toBitVec = BitVec.twoPow 32 i)
    (hi : i < 32) : (f.union g).has flag = (f.has flag || g.has flag) := by
  rw [has_eq_getLsbD _ hflag hi, has_eq_getLsbD _ hflag hi, has_eq_getLsbD _ hflag hi, union,
    UInt32.toBitVec_or, BitVec.getLsbD_or]

@[simp] theorem has_union_hasFinalizer :
    (f.union g).has hasFinalizer = (f.has hasFinalizer || g.has hasFinalizer) :=
  has_union f g (i := 0) (by decide) (by decide)

@[simp] theorem has_union_inQueue : (f.union g).has inQueue = (f.has inQueue || g.has inQueue) :=
  has_union f g (i := 1) (by decide) (by decide)

@[simp] theorem has_union_finalized :
    (f.union g).has finalized = (f.has finalized || g.has finalized) :=
  has_union f g (i := 2) (by decide) (by decide)

@[simp] theorem has_union_sweepable :
    (f.union g).has sweepable = (f.has sweepable || g.has sweepable) :=
  has_union f g (i := 3) (by decide) (by decide)

@[simp] theorem not_sweepable_initial (withFinalizer : Bool) :
    (initial withFinalizer).has sweepable = false := by
  cases withFinalizer <;> decide

@[simp] theorem not_inQueue_initial (withFinalizer : Bool) :
    (initial withFinalizer).has inQueue = false := by
  cases withFinalizer <;> decide

@[simp] theorem not_finalized_initial (withFinalizer : Bool) :
    (initial withFinalizer).has finalized = false := by
  cases withFinalizer <;> decide

@[simp] theorem union_none : f.union none = f := by
  rw [union, none, UInt32.or_zero]

end Flags

@[simp] theorem Record.raise_none (r : Record) : r.raise .none = r := by
  rw [raise, Flags.union_none]

/-! ### Objects -/

/-- An object, with its record if it has one. -/
structure Object where
  marked : Bool
  record : Option (BlockRef × Record)
  payload : List Cell

namespace Object

/-- What the record of the object says, if there is one. -/
def flags (x : Object) : Option Flags := x.record.map (·.2.flags)

/-- What a policy is asked about the object at `b`. -/
def question (x : Object) (b : BlockRef) : Question := ⟨b, x.marked, x.flags⟩

/-- The object with flags raised on its record. -/
def raise (x : Object) (flags : Flags) : Object :=
  { x with record := x.record.map fun r => (r.1, r.2.raise flags) }

/-- The object once a sweep has spared it. -/
def spared (x : Object) (b : BlockRef) : Object :=
  { x.raise (x.question b).verdictByMark.raised with marked := false }

/-- The object marked, if `yes`. -/
def mark (x : Object) (yes : Bool) : Object := { x with marked := x.marked || yes }

@[simp] theorem mark_false (x : Object) : x.mark false = x := by rw [mark, Bool.or_false]

@[simp] theorem mark_mark (x : Object) (yes yes' : Bool) :
    (x.mark yes).mark yes' = x.mark (yes || yes') := by
  rw [mark, mark, mark, Bool.or_assoc]

@[simp] theorem flags_raise (x : Object) (flags : Flags) :
    (x.raise flags).flags = x.flags.map (·.union flags) := by
  rw [Object.flags, raise, Object.flags, Option.map_map, Option.map_map]
  rfl

end Object

namespace Heap

variable {ρ : Type} {h h' : Heap ρ} {b b' r : BlockRef} {x y : Object}

/-- The block at `b` is the object `x`. -/
structure Depicts (h : Heap ρ) (b : BlockRef) (x : Object) : Prop where
  held : h.Holds (.block b)
  cells : ∃ link : Cell, link.toLink = x.record.map Prod.fst ∧
    h.content b = (if x.marked then .mark else .zero) :: link :: x.payload
  record : ∀ r record, x.record = some (r, record) →
    h.record? r = some record ∧ record.base = some b ∧ record.flags.has .sweepable = false

/-- Every block is an object. -/
def Civil (h : Heap ρ) : Prop := ∀ b, h.Holds (.block b) → ∃ x, h.Depicts b x

theorem Depicts.congr (hd : h.Depicts b x) (hheld : h'.Holds (.block b))
    (hcontent : h'.content b = h.content b)
    (hrecord : ∀ r record, x.record = some (r, record) → h'.record? r = h.record? r) :
    h'.Depicts b x := by
  refine ⟨hheld, hcontent ▸ hd.cells, fun r record hr => ?_⟩
  rw [hrecord r record hr]
  exact hd.record r record hr

theorem Depicts.unique (hx : h.Depicts b x) (hy : h.Depicts b y) : x = y := by
  obtain ⟨link, hlink, hcells⟩ := hx.cells
  obtain ⟨link', hlink', hcells'⟩ := hy.cells
  rw [hcells] at hcells'
  obtain ⟨hmark, hrest⟩ := List.cons.inj hcells'
  obtain ⟨rfl, hpayload⟩ := List.cons.inj hrest
  have hmarked : x.marked = y.marked := by
    cases hxm : x.marked <;> cases hym : y.marked <;> simp [hxm, hym] at hmark ⊢
    · cases hmark
    · cases hmark
  have hrecord : x.record = y.record := by
    have hfst := hlink.symm.trans hlink'
    cases hxr : x.record with
    | none => cases hyr : y.record <;> simp [hxr, hyr] at hfst ⊢
    | some s =>
      cases hyr : y.record with
      | none => simp [hxr, hyr] at hfst
      | some t =>
        obtain ⟨r, record⟩ := s
        obtain ⟨r', record'⟩ := t
        obtain rfl : r = r' := by simpa [hxr, hyr] using hfst
        have hsame := (hx.record r record hxr).1.symm.trans (hy.record r record' hyr).1
        rw [Option.some.inj hsame]
  obtain ⟨marked, record, payload⟩ := x
  obtain ⟨marked', record', payload'⟩ := y
  congr

/-- No two objects have the same record. -/
theorem Depicts.owner (hx : h.Depicts b x) (hy : h.Depicts b' y) {record record' : Record}
    (hr : x.record = some (r, record)) (hr' : y.record = some (r, record')) : b = b' := by
  obtain ⟨hrec, hbase, -⟩ := hx.record r record hr
  obtain ⟨hrec', hbase', -⟩ := hy.record r record' hr'
  obtain rfl : record = record' := Option.some.inj (hrec.symm.trans hrec')
  exact Option.some.inj (hbase.symm.trans hbase')

/-- The header of an object is in the first two cells of its block. -/
theorem Depicts.header (hd : h.Depicts b x) {p : Page} (hp : h.arena.memory.page? b.page = some p) :
    p.cells.getD b.index .zero = (if x.marked then .mark else .zero) ∧
      (p.cells.getD (b.index + 1) .zero).toLink = x.record.map Prod.fst := by
  obtain ⟨link, hlink, hcells⟩ := hd.cells
  rw [content_eq hp] at hcells
  have hextent : 2 ≤ p.blockCells b.index := by
    rw [← p.length_content, hcells]
    simp
  have hcell (k : Nat) (hk : k < p.blockCells b.index) :
      some (p.cells.getD (b.index + k) .zero) = (p.content b.index)[k]? := by
    simp [Page.content, hk]
  have hmark := hcell 0 (by omega)
  have hrecord := hcell 1 (by omega)
  rw [hcells] at hmark hrecord
  refine ⟨Option.some.inj hmark, ?_⟩
  rw [Option.some.inj hrecord, hlink]

theorem Depicts.sight (hd : h.Depicts b x) {p : Page} (hp : h.arena.memory.page? b.page = some p) :
    sightAt p.cells b.index = ⟨b.index, x.marked, x.record.map Prod.fst⟩ := by
  obtain ⟨hmark, hlink⟩ := hd.header hp
  rw [sightAt, hmark, hlink]
  cases x.marked <;> rfl

theorem Depicts.recordOf_eq (hd : h.Depicts b x) :
    h.arena.memory.recordOf b = x.record.map Prod.fst := by
  obtain ⟨p, hp, -, -⟩ := holds_block.mp hd.held
  rw [← (hd.header hp).2, Memory.recordOf, Memory.cell]
  change Cell.toLink ((h.arena.memory.page? b.page).elim _ _) = _
  rw [hp]
  rfl

theorem Depicts.recordOf_none (hd : h.Depicts b x) (hbare : x.record = none) :
    h.arena.memory.recordOf b = none := by
  rw [hd.recordOf_eq, hbare]
  rfl

theorem Depicts.cell_eq (hd : h.Depicts b x) :
    h.arena.memory.cell b = if x.marked then .mark else .zero := by
  obtain ⟨p, hp, -, -⟩ := holds_block.mp hd.held
  rw [← (hd.header hp).1, Memory.cell, hp]
  rfl

theorem Depicts.isMarked_eq (hd : h.Depicts b x) : h.arena.memory.isMarked b = x.marked := by
  rw [Memory.isMarked, hd.cell_eq]
  cases x.marked <;> rfl

/-- What a policy would be asked about the block as things stand. -/
def question (h : Heap ρ) (b : BlockRef) : Question :=
  ⟨b, h.arena.memory.isMarked b, Arena.flagsOf h.arena.memory (h.arena.memory.recordOf b)⟩

theorem Depicts.question_eq (hd : h.Depicts b x) : h.question b = x.question b := by
  rw [question, Object.question, hd.isMarked_eq, hd.recordOf_eq, Object.flags]
  congr
  cases hr : x.record with
  | none => rfl
  | some s =>
    obtain ⟨r, record⟩ := s
    change (h.record? r).map _ = _
    rw [(hd.record r record hr).1]
    rfl

theorem Depicts.payload_eq (hd : h.Depicts b x) : (h.content b).drop 2 = x.payload := by
  obtain ⟨link, -, hcells⟩ := hd.cells
  rw [hcells]
  rfl

/-! ### What becomes of an object -/

theorem Quiet.depicts (hq : Quiet h h') (hx : h.Depicts b x) : h'.Depicts b x :=
  hx.congr ((hq.holds_iff _).mpr hx.held) (hq.content_eq b hx.held) fun r _ _ => hq.record_eq r

theorem Prepared.depicts (hp : Prepared h h') (hx : h.Depicts b x) : h'.Depicts b x := by
  refine hx.congr ?_ (hp.content_eq b) fun r _ _ => hp.record_eq r
  rw [Holds, hp.tenants_eq]
  exact hx.held

/-- Whoever was there before is left alone. -/
theorem Welcomes.depicts {t : Tenant} (hw : Welcomes t h h') (hs : h.Sound) (hx : h.Depicts b x) :
    h'.Depicts b x := by
  refine hx.congr ((hw.holds_iff _).mpr (.inr hx.held)) (hw.content_eq b hx.held)
    fun r record hr => ?_
  refine hw.record_eq r ?_
  rintro rfl
  exact hw.fresh ((hs.record_iff r).mp ⟨record, (hx.record r record hr).1⟩)

/-- A new block that is large enough is an object without a record. -/
theorem depicts_new {n : Nat} (hheld : h.Holds (.block b)) (hn : 2 ≤ n)
    (hcontent : h.content b = List.replicate n .zero) :
    h.Depicts b ⟨false, none, List.replicate (n - 2) .zero⟩ := by
  refine ⟨hheld, ⟨.zero, rfl, ?_⟩, fun r record hr => by cases hr⟩
  obtain ⟨m, rfl⟩ := Nat.exists_eq_add_of_le' hn
  rw [hcontent]
  rfl

theorem Writes.depicts_other {k : Nat} {c : Cell} (hw : Writes b k c h h') (hne : b' ≠ b)
    (hx : h.Depicts b' x) : h'.Depicts b' x := by
  refine hx.congr ((hw.holds_iff _).mpr hx.held) ?_ fun r _ _ => hw.record_eq r
  rw [hw.content_eq b' hx.held, if_neg hne]

/-- Writing the payload of an object or its mark leaves its record alone. -/
theorem Writes.depicts_self {k : Nat} {c : Cell} (hw : Writes b k c h h')
    (hk : 2 ≤ k ∨ k = 0 ∧ (c = .zero ∨ c = .mark)) (hx : h.Depicts b x) :
    ∃ y, h'.Depicts b y ∧ y.record = x.record := by
  have hrecord : ∀ r record, x.record = some (r, record) → h'.record? r = some record ∧
      record.base = some b ∧ record.flags.has .sweepable = false := fun r record hr => by
    rw [hw.record_eq]
    exact hx.record r record hr
  have hheld := (hw.holds_iff _).mpr hx.held
  have hcontent := hw.content_eq b hx.held
  obtain ⟨link, hlink, hcells⟩ := hx.cells
  rw [if_pos rfl, hcells] at hcontent
  rcases hk with hk | ⟨rfl, rfl | rfl⟩
  · obtain ⟨n, rfl⟩ := Nat.exists_eq_add_of_le' hk
    exact ⟨{ x with payload := x.payload.set n c }, ⟨hheld, ⟨link, hlink, hcontent⟩, hrecord⟩, rfl⟩
  · exact ⟨{ x with marked := false }, ⟨hheld, ⟨link, hlink, hcontent⟩, hrecord⟩, rfl⟩
  · exact ⟨{ x with marked := true }, ⟨hheld, ⟨link, hlink, hcontent⟩, hrecord⟩, rfl⟩

theorem Writes.depicts_mark (hw : Writes b 0 .mark h h') (hx : h.Depicts b x) :
    h'.Depicts b (x.mark true) := by
  have hcontent := hw.content_eq b hx.held
  obtain ⟨link, hlink, hcells⟩ := hx.cells
  rw [if_pos rfl, hcells] at hcontent
  refine ⟨(hw.holds_iff _).mpr hx.held, ⟨link, hlink, ?_⟩, fun r record hr => ?_⟩
  · rw [hcontent, Object.mark, Bool.or_true]
    rfl
  · rw [hw.record_eq]
    exact hx.record r record hr

/-- Writing the link to its record gives an object that record. -/
theorem Writes.depicts_link {record : Record} (hw : Writes b 1 (.link r) h h')
    (hrecord : h.record? r = some record) (hbase : record.base = some b)
    (hsweepable : record.flags.has .sweepable = false) (hx : h.Depicts b x) :
    h'.Depicts b { x with record := some (r, record) } := by
  have hcontent := hw.content_eq b hx.held
  obtain ⟨link, -, hcells⟩ := hx.cells
  rw [if_pos rfl, hcells] at hcontent
  refine ⟨(hw.holds_iff _).mpr hx.held, ⟨.link r, rfl, hcontent⟩, fun r' record' he => ?_⟩
  obtain ⟨rfl, rfl⟩ := Prod.mk.inj (Option.some.inj he)
  rw [hw.record_eq]
  exact ⟨hrecord, hbase, hsweepable⟩

/-- Raising flags on the record of an object. -/
theorem Amends.depicts_self {flags : Flags} (hm : Amends r (·.raise flags) h h')
    (hx : h.Depicts b x) (hr : x.record.map Prod.fst = some r)
    (hflags : flags.has .sweepable = false) : h'.Depicts b (x.raise flags) := by
  obtain ⟨⟨r', record⟩, hrecord, rfl⟩ := Option.map_eq_some_iff.mp hr
  obtain ⟨link, hlink, hcells⟩ := hx.cells
  refine ⟨(hm.holds_iff _).mpr hx.held, ⟨link, ?_, (hm.content_eq b).trans hcells⟩,
    fun r record' he => ?_⟩
  · rw [hlink, Object.raise, Option.map_map]
    rfl
  · rw [Object.raise, hrecord] at he
    obtain ⟨rfl, rfl⟩ := Prod.mk.inj (Option.some.inj he)
    obtain ⟨hrec, hbase, hsweepable⟩ := hx.record _ _ hrecord
    refine ⟨?_, hbase, ?_⟩
    · rw [hm.record_eq, if_pos rfl, hrec]
      rfl
    · rw [Record.raise_flags, Flags.has_union_sweepable, hsweepable, hflags]
      rfl

theorem Amends.depicts_other {f : Record → Record} (hm : Amends r f h h') (hx : h.Depicts b x)
    (hr : x.record.map Prod.fst ≠ some r) : h'.Depicts b x := by
  refine hx.congr ((hm.holds_iff _).mpr hx.held) (hm.content_eq b) fun r' record he => ?_
  rw [hm.record_eq, if_neg]
  rintro rfl
  exact hr (by rw [he]; rfl)

end Heap

end SweptHeap
