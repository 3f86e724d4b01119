import Mathlib
import SweptHeap.Object
import SweptHeap.Proofs.Page.Kinds

/-!
# Operations on the memory

How operations compose, and which pages an operation on the memory changes. Pages are compared up to
what their records say (`Alike`), since flags are raised on records all over the heap while a page
is being swept.
-/

namespace SweptHeap

/-! ### Operations in sequence -/

namespace Act

variable {σ α β : Type} {s s' : σ}

@[simp] theorem apply_pure (a : α) : Act.apply (pure a : Act σ α) s = (.ok a, s) := rfl

@[simp] theorem apply_get : Act.apply (get : Act σ σ) s = (.ok s, s) := rfl

@[simp] theorem apply_throw (e : Fault) : Act.apply (throw e : Act σ α) s = (.error e, s) := rfl

@[simp] theorem apply_modify (f : σ → σ) :
    Act.apply (modify f : Act σ PUnit) s = (.ok ⟨⟩, f s) := rfl

@[simp] theorem apply_modifyGet (f : σ → α × σ) :
    Act.apply (modifyGet f : Act σ α) s = (.ok (f s).1, (f s).2) := rfl

theorem apply_bind (x : Act σ α) (f : α → Act σ β) :
    (x >>= f).apply s = match x.apply s with
      | (.ok a, s') => (f a).apply s'
      | (.error e, s') => (.error e, s') := by
  simp only [apply, bind, ExceptT.bind, ExceptT.mk, ExceptT.run, StateT.bind]
  generalize x s = r
  obtain ⟨r | r, s'⟩ := r <;> rfl

/-- What follows an operation goes on from where the operation ended. -/
theorem apply_bind_ok {x : Act σ α} {f : α → Act σ β} {a : α} (h : x.apply s = (.ok a, s')) :
    (x >>= f).apply s = (f a).apply s' := by
  rw [apply_bind, h]

theorem apply_bind_error {x : Act σ α} {f : α → Act σ β} {e : Fault}
    (h : x.apply s = (.error e, s')) : (x >>= f).apply s = (.error e, s') := by
  rw [apply_bind, h]

@[simp] theorem apply_get_bind (f : σ → Act σ β) :
    Act.apply (get >>= f) s = (f s).apply s := apply_bind_ok apply_get

@[simp] theorem apply_map (x : Act σ α) (f : α → β) :
    Act.apply (f <$> x) s = ((x.apply s).1.map f, (x.apply s).2) := by
  rw [map_eq_pure_bind, apply_bind]
  obtain ⟨r | r, s'⟩ := x.apply s <;> rfl

end Act

/-! ### Pages up to their records -/

/-- The same page, but for what its records say. -/
structure Page.Alike (p p' : Page) : Prop where
  sound : p.Sound → p'.Sound
  whole : p.Whole → p'.Whole
  key_eq : p'.key = p.key
  blocks_eq : p'.blocks.toList = p.blocks.toList
  extent_eq : ∀ i, p'.blockCells i = p.blockCells i
  cells_eq : p'.cells = p.cells

namespace Page.Alike

variable {p p' p'' : Page}

theorem refl (p : Page) : p.Alike p := ⟨id, id, rfl, rfl, fun _ => rfl, rfl⟩

theorem trans (h : p.Alike p') (h' : p'.Alike p'') : p.Alike p'' :=
  ⟨h'.sound ∘ h.sound, h'.whole ∘ h.whole, h'.key_eq.trans h.key_eq, h'.blocks_eq.trans h.blocks_eq,
    fun i => (h'.extent_eq i).trans (h.extent_eq i), h'.cells_eq.trans h.cells_eq⟩

theorem kind_eq (h : p.Alike p') : p'.kind = p.kind := by
  rw [← Page.key_kind, ← Page.key_kind, h.key_eq]

end Page.Alike

namespace Memory

variable {m m' m'' : Memory} {id j : PageId} {p p' : Page}

/-- The memory with another page, or none, in the place of `id`. -/
def setPage (id : PageId) (p : Option Page) (m : Memory) : Memory :=
  { m with pages := m.pages.setIfInBounds id p }

theorem lt_of_page? (h : m.page? id = some p) : id < m.pages.size := by
  by_contra hge
  simp [page?, Array.getD_eq_getD_getElem?, Array.getElem?_eq_none (Nat.not_lt.mp hge)] at h

theorem page?_congr (h : m'.pages = m.pages) (id : PageId) : m'.page? id = m.page? id := by
  rw [page?, page?, h]

theorem page?_setPage (hid : id < m.pages.size) (x : Option Page) (j : PageId) :
    (m.setPage id x).page? j = if j = id then x else m.page? j := by
  simp only [page?, setPage, Array.getD_eq_getD_getElem?, Array.getElem?_setIfInBounds]
  by_cases hj : id = j
  · simp [hj, hj ▸ hid]
  · simp [hj, Ne.symm hj]

/-- A vacant place that is left vacant. -/
theorem page?_setPage_none (h : m.page? id = none) (j : PageId) :
    (m.setPage id none).page? j = m.page? j := by
  by_cases hid : id < m.pages.size
  · rw [page?_setPage hid]
    split_ifs with hj
    · rw [hj, h]
    · rfl
  · simp only [page?, setPage, Array.getD_eq_getD_getElem?, Array.getElem?_setIfInBounds]
    by_cases hj : id = j
    · rw [if_pos hj, if_neg hid, Array.getElem?_eq_none (Nat.not_lt.mp (hj ▸ hid))]
    · simp [hj]

@[simp] theorem size_setPage (x : Option Page) : (m.setPage id x).pages.size = m.pages.size := by
  simp [setPage]

@[simp] theorem setPage_setPage (x y : Option Page) :
    (m.setPage id x).setPage id y = m.setPage id y := by
  simp [setPage]

theorem borrow_eq (m : Memory) (id : PageId) : m.borrow id = (m.page? id, m.setPage id none) := rfl

theorem restore_eq (m : Memory) (id : PageId) (p : Page) :
    m.restore id p = m.setPage id (some p) := rfl

theorem page?_map {r : Request} (h : Page.create r = .ok p) :
    (m.map r).1 = .ok m.pages.size ∧ (m.map r).2.pages = m.pages.push (some p) := by
  rw [map, h]
  exact ⟨rfl, rfl⟩

theorem page?_push (h : m'.pages = m.pages.push (some p)) (j : PageId) :
    m'.page? j = if j = m.pages.size then some p else m.page? j := by
  simp only [page?, h, Array.getD_eq_getD_getElem?, Array.getElem?_push]
  split_ifs <;> rfl

theorem page?_unmap (m : Memory) (id j : PageId) :
    (m.unmap id).page? j = if j = id then none else m.page? j := by
  rw [unmap]
  cases h : m.page? id with
  | none =>
    split_ifs with hj
    · rw [hj, h]
    · rfl
  | some p => exact page?_setPage (m.lt_of_page? h) none j

theorem size_unmap (m : Memory) (id : PageId) : (m.unmap id).pages.size = m.pages.size := by
  rw [unmap]
  cases m.page? id <;> simp

theorem page?_modifyPage (m : Memory) (id : PageId) (f : Page → Page) (j : PageId) :
    (m.modifyPage id f).page? j = if j = id then (m.page? j).map f else m.page? j := by
  rw [modifyPage, borrow_eq]
  cases h : m.page? id with
  | none =>
    change (m.setPage id none).page? j = _
    rw [page?_setPage_none h]
    split_ifs with hj
    · rw [hj, h]
      rfl
    · rfl
  | some p =>
    change ((m.setPage id none).restore id (f p)).page? j = _
    rw [restore_eq, setPage_setPage, page?_setPage (m.lt_of_page? h)]
    split_ifs with hj
    · rw [hj, h]
      rfl
    · rfl

theorem size_modifyPage (m : Memory) (id : PageId) (f : Page → Page) :
    (m.modifyPage id f).pages.size = m.pages.size := by
  rw [modifyPage, borrow_eq]
  cases m.page? id <;> simp [restore_eq]

theorem allocate_eq {n : Nat} {result : Option Nat} (h : m.page? id = some p)
    (hp : p.allocate n = (.ok result, p')) :
    m.allocate id n = (.ok (result.map (⟨id, ·⟩)), m.setPage id (some p')) := by
  rw [allocate, borrow_eq, h]
  simp only [hp, restore_eq, setPage_setPage]

theorem enroll_eq {record : Record} {result : Option Nat} (h : m.page? id = some p)
    (hp : p.enroll record = (.ok result, p')) :
    m.enroll id record = (.ok (result.map (⟨id, ·⟩)), m.setPage id (some p')) := by
  rw [enroll, borrow_eq, h]
  simp only [hp, restore_eq, setPage_setPage]

theorem hasRoom_eq {n : Nat} (h : m.page? id = some p) : m.hasRoom id n = p.hasRoom n := by
  rw [hasRoom, h]

/-- The same pages, but for what their records say. -/
structure Amends (m m' : Memory) : Prop where
  size_eq : m'.pages.size = m.pages.size
  pages : ∀ id, Option.Rel Page.Alike (m.page? id) (m'.page? id)

theorem Amends.refl (m : Memory) : m.Amends m :=
  ⟨rfl, fun id => by cases m.page? id <;> constructor; exact .refl _⟩

theorem Amends.trans (h : m.Amends m') (h' : m'.Amends m'') : m.Amends m'' := by
  refine ⟨h'.size_eq.trans h.size_eq, fun id => ?_⟩
  have h₁ := h.pages id
  have h₂ := h'.pages id
  revert h₁ h₂
  generalize m.page? id = x, m'.page? id = y, m''.page? id = z
  rintro (⟨hab⟩ | -) h₂
  · obtain ⟨hbc⟩ := h₂
    exact .some (hab.trans hbc)
  · cases h₂
    exact .none

theorem Amends.of_eq (h : m'.pages = m.pages) : m.Amends m' :=
  ⟨by rw [h], fun id => by
    rw [page?_congr h]
    cases m.page? id <;> constructor
    exact .refl _⟩

theorem Amends.image (h : m.Amends m') (hp : m.page? id = some p) :
    ∃ p', m'.page? id = some p' ∧ p.Alike p' := by
  have := h.pages id
  rw [hp] at this
  cases hx : m'.page? id with
  | none => rw [hx] at this; cases this
  | some p' =>
    rw [hx] at this
    obtain ⟨hab⟩ := this
    exact ⟨p', rfl, hab⟩

theorem Amends.preimage (h : m.Amends m') (hp : m'.page? id = some p') :
    ∃ p, m.page? id = some p ∧ p.Alike p' := by
  have := h.pages id
  rw [hp] at this
  cases hx : m.page? id with
  | none => rw [hx] at this; cases this
  | some p =>
    rw [hx] at this
    obtain ⟨hab⟩ := this
    exact ⟨p, rfl, hab⟩

end Memory

theorem Page.alike_modifyRecord (p : Page) (i : Nat) (f : Record → Record) :
    p.Alike (p.modifyRecord i f) :=
  have h := p.amended_modifyRecord i f
  ⟨h.sound, h.whole, h.key_eq, h.blocks_eq, h.extent_eq, h.cells_eq⟩

theorem Page.modifyRecord_eq_iff {p q : Page} (hq : q.kind ≠ .records) (i : Nat)
    (f : Record → Record) : p.modifyRecord i f = q ↔ p = q := by
  cases p with
  | records p =>
    refine ⟨fun he => absurd ?_ hq, fun he => absurd ?_ hq⟩ <;>
    · rw [← he]
      rfl
  | _ => rfl

namespace Memory

theorem amends_modifyRecord (m : Memory) (r : BlockRef) (f : Record → Record) :
    m.Amends (m.modifyRecord r f) := by
  refine ⟨m.size_modifyPage _ _, fun id => ?_⟩
  rw [modifyRecord, page?_modifyPage]
  split_ifs
  · cases m.page? id with
    | none => exact .none
    | some p => exact .some (p.alike_modifyRecord _ _)
  · cases m.page? id with
    | none => exact .none
    | some p => exact .some (.refl p)

theorem record?_modifyRecord (m : Memory) (r r' : BlockRef) (f : Record → Record) :
    (m.modifyRecord r f).record? r' = if r' = r then (m.record? r').map f else m.record? r' := by
  obtain ⟨page, i⟩ := r
  obtain ⟨page', i'⟩ := r'
  simp only [record?, modifyRecord, page?_modifyPage, BlockRef.mk.injEq]
  by_cases hp : page' = page
  · cases hpage : m.page? page' with
    | none => simp
    | some p =>
      simp only [hp, if_true, true_and, Option.map_some, Option.bind_eq_bind, Option.bind_some]
      exact (p.amended_modifyRecord i f).record_eq i'
  · simp [hp]

theorem record?_congr {m m' : Memory} {r : BlockRef} (h : m'.page? r.page = m.page? r.page) :
    m'.record? r = m.record? r := by
  rw [record?, record?, h]

theorem record?_of_block {m : Memory} {r : BlockRef} {p : Page} (hp : m.page? r.page = some p)
    (hk : p.kind ≠ .records) : m.record? r = none := by
  rw [record?, hp]
  exact Page.record?_of_block hk _

/-- No record is missing while a page of blocks is away. -/
theorem record?_of_away {m m' : Memory} {id : PageId} {p : Page} (hp : m.page? id = some p)
    (hk : p.kind ≠ .records) (haway : ∀ j, m'.page? j = if j = id then none else m.page? j)
    (r : BlockRef) : m'.record? r = m.record? r := by
  by_cases hr : r.page = id
  · have hnone : m.record? r = none := record?_of_block (hr ▸ hp) hk
    rw [hnone, record?, haway, if_pos hr]
    rfl
  · exact record?_congr (by rw [haway, if_neg hr])

theorem page?_modifyRecord {q : Page} {j : PageId} (hq : q.kind ≠ .records)
    (m : Memory) (r : BlockRef) (f : Record → Record) :
    (m.modifyRecord r f).page? j = some q ↔ m.page? j = some q := by
  rw [modifyRecord, page?_modifyPage]
  split_ifs
  · cases m.page? j with
    | none => simp
    | some p => simp [Page.modifyRecord_eq_iff hq]
  · rfl

end Memory

end SweptHeap
