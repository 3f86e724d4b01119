import Mathlib
import SweptHeap.Proofs.Heap.Memory

/-!
# Pages that requests share

A uniform page, a tiled page and a page of records serve many requests. A tiled page may be asked
for a block without a cell as well, so that all it can be relied on is to be whole. That is enough:
it gives what it is asked for exactly if it says that it has room.
-/

namespace SweptHeap

variable {p p' : Page} {r : Request} {n i j : Nat}

theorem Request.Shared.kind_ne (hr : r.Shared) : r.kind ≠ .large := by
  obtain ⟨kind, cells⟩ := r
  rintro rfl
  exact hr

theorem Request.Shared.key_kind_ne {k : Request} (hr : r.Shared) (hk : r.key = k) :
    k.kind ≠ .large := by
  rw [← hk, r.key_kind]
  exact hr.kind_ne

theorem Request.Shared.lt_countLimit (hr : r.Shared) (hk : r.kind ≠ .records) :
    r.cells + 1 < countLimit := by
  obtain ⟨kind, cells⟩ := r
  have huniform : largestUniform + 1 < countLimit := by decide
  have htiled : largestTiled + 1 < countLimit := by decide
  cases kind with
  | uniform => exact lt_of_le_of_lt (Nat.succ_le_succ hr.2) huniform
  | tiled => exact lt_of_le_of_lt (Nat.succ_le_succ hr) htiled
  | large => exact hr.elim
  | records => exact absurd rfl hk

/-- A new tiled page is the same for all requests. -/
theorem Request.Shared.exists_valid (hr : r.Shared) :
    ∃ r' : Request, r'.Valid ∧ r'.key = r.key ∧ Page.create r' = Page.create r := by
  obtain ⟨kind, cells⟩ := r
  cases kind with
  | uniform => exact ⟨⟨.uniform, cells⟩, hr, rfl, rfl⟩
  | tiled => exact ⟨⟨.tiled, 1⟩, ⟨Nat.one_pos, by decide⟩, rfl, rfl⟩
  | large => exact hr.elim
  | records => exact ⟨⟨.records, cells⟩, hr, rfl, rfl⟩

namespace Page

theorem create_whole (hr : r.Shared) :
    ∃ p, create r = .ok p ∧ p.Whole ∧ p.key = r.key ∧ p.blocks.toList = [] := by
  obtain ⟨r', hvalid, hkey, hcreate⟩ := hr.exists_valid
  obtain ⟨p, hp, hsound, hpkey, hblocks, -⟩ := create_sound hvalid
  exact ⟨p, hcreate.symm.trans hp, hsound.whole, hpkey.trans hkey, hblocks⟩

theorem Whole.allocate (h : p.Whole) (hlarge : p.kind ≠ .large) (hn : n + 1 < countLimit) :
    ∃ result p', p.allocate n = (.ok result, p') ∧ p'.Whole ∧ p'.key = p.key ∧
      (p.kind ≠ .records → p.hasRoom n = .ok result.isSome) := by
  cases p with
  | uniform q =>
    obtain ⟨free, hq⟩ := h
    cases free with
    | nil =>
      have hroom : q.hasRoom = false := by simpa using hq.hasRoom_iff
      exact ⟨none, uniform q, by simp [Page.allocate, hq.allocate_nil], ⟨[], hq⟩, rfl,
        fun _ => by simp [hasRoom, hroom]⟩
    | cons i rest =>
      obtain ⟨f, heq, hsound⟩ := hq.allocate_cons
      have hroom : q.hasRoom = true := hq.hasRoom_iff.mpr (by simp)
      exact ⟨some i, uniform (q.claim i f), by simp [Page.allocate, heq], ⟨rest, hsound⟩, rfl,
        fun _ => by simp [hasRoom, hroom]⟩
  | tiled q =>
    obtain ⟨tiles, hq⟩ := h
    cases hany : tiles.any (TiledPage.Fits (n + 1)) with
    | true =>
      obtain ⟨front, t, back, q', rfl, hfit, heq, hcarved, -⟩ := hq.allocate_some hn hany
      have hallocate : (tiled q).allocate n =
          (.ok (some (1 + TiledPage.span front + (t.size - (n + 1)) + 1)), tiled q') := by
        simp [Page.allocate, heq]
      exact ⟨_, _, hallocate, ⟨_, hcarved.sound⟩, rfl,
        fun _ => by simp [hasRoom, hq.hasRoom_eq hn, hany]⟩
    | false =>
      obtain ⟨cursor, heq, hsound⟩ := hq.allocate_none hn hany
      exact ⟨none, tiled { q with cursor := cursor },
        by simp [Page.allocate, heq], ⟨tiles, hsound⟩, rfl,
        fun _ => by simp [hasRoom, hq.hasRoom_eq hn, hany]⟩
  | large q => exact absurd rfl hlarge
  | records q => exact ⟨none, records q, rfl, h, rfl, fun hk => absurd rfl hk⟩

theorem Whole.enroll (h : p.Whole) (record : Record) :
    ∃ result p', p.enroll record = (.ok result, p') ∧ p'.Whole ∧ p'.key = p.key ∧
      (p.kind = .records → p.hasRoom n = .ok result.isSome) := by
  cases p with
  | records q =>
    rcases Sound.enroll (p := records q) h rfl n record with
      ⟨i, p', hroom, heq, henrolls⟩ | ⟨hroom, heq⟩
    · exact ⟨some i, p', heq, henrolls.sound.whole, henrolls.key_eq, fun _ => hroom⟩
    · exact ⟨none, records q, heq, h, rfl, fun _ => hroom⟩
  | uniform q => exact ⟨none, uniform q, rfl, h, rfl, by simp [kind]⟩
  | tiled q => exact ⟨none, tiled q, rfl, h, rfl, by simp [kind]⟩
  | large q => exact ⟨none, large q, rfl, h, rfl, by simp [kind]⟩

theorem Whole.hasRoom_ok (h : p.Whole) (hr : r.Shared) (hk : p.key = r.key) :
    ∃ room, p.hasRoom r.cells = .ok room := by
  cases p with
  | tiled q =>
    obtain ⟨tiles, hq⟩ := h
    have hkind : r.kind = .tiled := by rw [← r.key_kind, ← hk, key]
    refine ⟨_, hq.hasRoom_eq (hr.lt_countLimit ?_)⟩
    simp [hkind]
  | uniform q => exact ⟨_, rfl⟩
  | large q => exact ⟨_, rfl⟩
  | records q => exact ⟨_, rfl⟩

/-- A write into a block leaves the page whole. -/
theorem Whole.setCell (h : p.Whole) (hi : i ∈ p.blocks.toList)
    (hj : j < p.blockCells i) (c : Cell) :
    (p.modifyCells fun cells => cells.setIfInBounds (i + j) c).Whole := by
  cases p with
  | tiled q =>
    obtain ⟨tiles, hq⟩ := h
    exact ⟨tiles, hq.setCell hi hj c⟩
  | uniform q => exact (Sound.setCell (p := uniform q) h (by simp [kind]) hi hj c).sound
  | large q => exact (Sound.setCell (p := large q) h (by simp [kind]) hi hj c).sound
  | records q => exact absurd hj (Nat.not_lt_zero j)

theorem key_modifyCells (p : Page) (f : Array Cell → Array Cell) :
    (p.modifyCells f).key = p.key := by
  cases p <;> rfl

theorem Alike.markable {ε : Type} {ask : Sight → ε → Ruling × ε} (hab : p.Alike p')
    (h : p.Markable ask) : p'.Markable ask := by
  cases p' with
  | tiled q' =>
    cases p with
    | tiled q =>
      intro i hi hzero
      refine h i (hab.blocks_eq ▸ hi) ?_
      rw [← hzero]
      exact (hab.extent_eq i).symm
    | _ => exact absurd hab.kind_eq (by simp [kind])
  | _ => trivial

end Page

/-- Takes what the request asks for from a page: a slot for the record, or a block. -/
def Request.take (r : Request) (record : Record) (id : PageId) :
    Memory → Except Fault (Option BlockRef) × Memory :=
  if r.kind = .records then Memory.enroll id record else Memory.allocate id r.cells

/-- A page that says that it has room gives what it is asked for. -/
theorem Page.Whole.take {m : Memory} {id : PageId} (h : p.Whole) (hp : m.page? id = some p)
    (hr : r.Shared) (hk : p.key = r.key) (hroom : p.hasRoom r.cells = .ok true) (record : Record) :
    ∃ i p', r.take record id m = (.ok (some ⟨id, i⟩), m.setPage id (some p')) := by
  have hkind : p.kind = r.kind := by rw [← p.key_kind, hk, r.key_kind]
  rw [Request.take]
  split_ifs with hrecords
  · obtain ⟨result, p', heq, -, -, hresult⟩ := h.enroll (n := r.cells) record
    have hsome := Except.ok.inj (hroom.symm.trans (hresult (hkind.trans hrecords)))
    obtain ⟨i, rfl⟩ := Option.isSome_iff_exists.mp hsome.symm
    exact ⟨i, p', Memory.enroll_eq hp heq⟩
  · obtain ⟨result, p', heq, -, -, hresult⟩ :=
      h.allocate (hkind ▸ hr.kind_ne) (hr.lt_countLimit hrecords)
    have hsome := Except.ok.inj (hroom.symm.trans (hresult (hkind ▸ hrecords)))
    obtain ⟨i, rfl⟩ := Option.isSome_iff_exists.mp hsome.symm
    exact ⟨i, p', Memory.allocate_eq hp heq⟩

end SweptHeap
