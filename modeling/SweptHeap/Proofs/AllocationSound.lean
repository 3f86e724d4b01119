import Mathlib
import SweptHeap.Proofs.HeapSystem.Moves

/-!
# Allocation is sound

In every run, whatever the policies answer and whatever is written into allocated blocks, an
allocation gives a zeroed block that nothing else has a part of, and no operation ends in a fault
other than that of an object too large for a machine word.
-/

namespace SweptHeap

variable {ρ : Type}

/-- Block `b` of `n` cells lies on the mapped page `p`, behind its header and inside its region, and
shares no cell with another block or with what the page keeps for itself. -/
structure Heap.Lies (h : Heap ρ) (b : BlockRef) (n : Nat) (p : Page) : Prop where
  mapped : h.arena.memory.page? b.page = some p
  allocated : b.index ∈ p.blocks.toList
  extent : p.blockCells b.index = n
  behind : p.kind.headerBytes ≤ p.offset b.index
  inside : p.offset b.index + n * cellBytes ≤ p.regionBytes
  apart : ∀ b', h.Holds (.block b') → b' ≠ b → b'.page = b.page →
    b'.index + p.blockCells b'.index ≤ b.index ∨ b.index + n ≤ b'.index
  unreserved : ∀ c ∈ p.reserved, c < b.index ∨ b.index + n ≤ c

theorem Heap.Sound.lies {h : Heap ρ} (hs : h.Sound) {b : BlockRef} (hb : h.Holds (.block b)) :
    ∃ p, h.Lies b (h.content b).length p := by
  obtain ⟨p, hp, hkind, hindex⟩ := holds_block.mp hb
  have hsound := hs.page_sound hp
  have hoffset : p.offset b.index = p.kind.headerBytes + b.index * cellBytes := by
    cases p with
    | records q => exact absurd rfl hkind
    | uniform q => rfl
    | tiled q => rfl
    | large q => rfl
  rw [length_content hp]
  refine ⟨p, hp, hindex, rfl, by omega, ?_, fun b' hb' hne hpage => ?_, fun c hc =>
    hsound.reserved_apart hindex hc⟩
  · have hle := hsound.block_le hkind hindex
    have hregion := hsound.cells_le_region
    rw [hoffset, Nat.add_assoc, ← Nat.add_mul]
    exact (Nat.add_le_add_left (Nat.mul_le_mul_right _ hle) _).trans hregion
  · obtain ⟨q, hq, -, hindex'⟩ := holds_block.mp hb'
    obtain rfl : p = q := Option.some.inj ((hpage ▸ hp).symm.trans hq)
    refine hsound.blocks_apart hindex' hindex fun he => hne ?_
    obtain ⟨page, index⟩ := b
    obtain ⟨page', index'⟩ := b'
    simp_all

/-- Bytes that an operation allocates, with the header of an object. -/
def Op.bytes? : Op → Option Nat
  | .allocate _ bytes => some bytes
  | .createObject _ payload => some (payload + objectHeaderBytes)
  | .createArray _ element count => some (element * count + arrayLengthBytes + objectHeaderBytes)
  | _ => none

/-- The `n` cells of a block when the operation returns it: zero, but for the length of an array. -/
def Op.initial (op : Op) (n : Nat) : List Cell :=
  match op with
  | .createArray _ _ count => (List.replicate n .zero).set 2 (.word count.toUInt64)
  | _ => List.replicate n .zero

theorem Op.length_initial (op : Op) (n : Nat) : (op.initial n).length = n := by
  cases op <;> simp [initial]

namespace HeapSystem

variable {o : HeapSystem ρ}

/-- The block that an operation returns is allocated and cleared. -/
theorem step_cleared (policy : Policy ρ) (ho : o.Sound) {op : Op} (ha : o.Admits op) {bytes : Nat}
    {b : BlockRef} (hbytes : op.bytes? = some bytes) (hb : (o.step policy op).1 = .ok (some b)) :
    (o.step policy op).2.heap.Holds (.block b) ∧
      (o.step policy op).2.heap.content b = op.initial (max (cellsFor bytes) 1) := by
  have hnew {n : Nat} {b' : BlockRef} {h : Heap (Diary ρ)} (hn : 0 < n)
      (hall : Allocator.Allocates policy.noting (Page.Gives · n) o.heap b' h) :
      h.Sound ∧ h.Holds (.block b') ∧ h.content b' = List.replicate n .zero := by
    obtain ⟨h₁, htidies, -, hgets⟩ := hall
    have hs₁ := Heap.Tidies.sound htidies ho.heap
    obtain ⟨hw, hzero⟩ := hgets.welcomes_block hs₁ hn
    exact ⟨(hgets.mono fun _ _ _ hx => hx.toGrown).sound hs₁,
      (hw.holds_iff _).mpr (.inl rfl), hzero⟩
  cases op with
  | allocate i bytes' =>
    obtain ⟨b', h, a, hall, -, heq⟩ := step_allocate policy ho ha bytes'
    rw [heq] at hb ⊢
    obtain rfl := Option.some.inj (Except.ok.inj hb)
    obtain rfl := Option.some.inj hbytes
    exact (hnew (by omega) hall).2
  | createObject i payload =>
    rcases step_createObject policy ho ha payload with heq | ⟨b', h, a, hall, -, heq⟩
    · rw [heq] at hb
      cases hb
    · rw [heq] at hb ⊢
      obtain rfl := Option.some.inj (Except.ok.inj hb)
      obtain rfl := Option.some.inj hbytes
      have htwo := Allocator.two_le_objectCells payload
      exact (hnew (by omega) hall).2
  | createArray i element count =>
    rcases step_createArray policy ho ha element count with
      ⟨fault, -, heq⟩ | ⟨b', h, a, hall, -, heq⟩
    · rw [heq] at hb
      cases hb
    · rw [heq] at hb ⊢
      obtain rfl := Option.some.inj (Except.ok.inj hb)
      obtain rfl := Option.some.inj hbytes
      have hthree := Allocator.three_le_arrayCells element count
      obtain ⟨hs, hheld, hzero⟩ := hnew (by omega) hall
      have hwrites := Heap.write_spec (k := 2) (hs.note (.born (.block b'))) hheld
        (by
          change 2 < (h.content b').length
          rw [hzero, List.length_replicate]
          omega) (.word count.toUInt64)
      refine ⟨(hwrites.holds_iff _).mpr hheld, ?_⟩
      have hcontent := hwrites.content_eq b' hheld
      rw [if_pos rfl] at hcontent
      refine hcontent.trans ?_
      change (h.content b').set 2 _ = _
      rw [hzero]
      rfl
  | _ => cases hbytes

/-- Allocation is sound along every run. Whatever operation comes next, it ends well, unless it asks
for an object whose size is no machine word; and a block that it allocates has a cell for every
eight bytes, or one for none, lies in its page apart from everything else, and is cleared. -/
theorem allocation_sound (policy : Policy ρ) {op : Op} (hreached : Reached o)
    (hadmits : o.Admits op) :
    (∀ fault, (o.step policy op).1 = .error fault →
      (fault = .objectSize ∨ fault = .arraySize) ∧ (o.step policy op).2 = o) ∧
    (∀ i bytes, op = .allocate i bytes → ∃ b, (o.step policy op).1 = .ok (some b)) ∧
    ∀ bytes b, op.bytes? = some bytes → (o.step policy op).1 = .ok (some b) →
      (∃ p, (o.step policy op).2.heap.Lies b (max 1 ((bytes + 7) / 8)) p) ∧
      (o.step policy op).2.heap.content b = op.initial (max 1 ((bytes + 7) / 8)) := by
  have ho := hreached.sound
  obtain ⟨hsound, hgraceful⟩ : (o.step policy op).2.Sound ∧ Graceful o (o.step policy op) := by
    by_cases hop : op = .prepare
    · subst hop
      obtain ⟨h, -, heq, hs⟩ := step_prepare policy ho hadmits
      rw [heq]
      exact ⟨hs, graceful_ok⟩
    · exact (step_moves policy False ho hadmits False.elim hop).2
  refine ⟨hgraceful, ?_, fun bytes b hbytes hb => ?_⟩
  · rintro i bytes rfl
    obtain ⟨b, h, a, -, -, heq⟩ := step_allocate policy ho hadmits bytes
    exact ⟨b, by rw [heq]⟩
  · obtain ⟨hheld, hcontent⟩ := step_cleared policy ho hadmits hbytes hb
    have hcells : max (cellsFor bytes) 1 = max 1 ((bytes + 7) / 8) := Nat.max_comm _ _
    rw [hcells] at hcontent
    refine ⟨?_, hcontent⟩
    have hlies := hsound.heap.lies hheld
    rwa [hcontent, Op.length_initial] at hlies

/-- A small block, after a block that needs a tile of its own. -/
theorem allocation_sound_small :
    let before := run (Policy.byMark (ρ := Unit)) [.enlist, .allocate 0 2000] (new ())
    (Reached before ∧ before.Admits (.allocate 0 24)) ∧
      ∃ b p, (before.step .byMark (.allocate 0 24)).1 = .ok (some b) ∧
        (before.step .byMark (.allocate 0 24)).2.heap.Lies b 3 p ∧
        (before.step .byMark (.allocate 0 24)).2.heap.content b = [.zero, .zero, .zero] := by
  intro before
  have henlisted : Reached ((new ()).step (Policy.byMark (ρ := Unit)) .enlist).2 :=
    .step _ .enlist (.start ()) trivial
  have hfirst : Admits ((new ()).step (Policy.byMark (ρ := Unit)) .enlist).2 (.allocate 0 2000) :=
    Nat.zero_lt_one
  have hreached : Reached before := .step _ (.allocate 0 2000) henlisted hfirst
  have hadmits : before.Admits (.allocate 0 24) := by
    obtain ⟨b, h, a, -, -, heq⟩ :=
      step_allocate (Policy.byMark (ρ := Unit)) henlisted.sound hfirst 2000
    change 0 < before.allocators.length
    rw [show before = _ from congrArg Prod.snd heq]
    simp [step]
  obtain ⟨-, htotal, hlies⟩ := allocation_sound (Policy.byMark (ρ := Unit)) hreached hadmits
  obtain ⟨b, hb⟩ := htotal 0 24 rfl
  obtain ⟨⟨p, hp⟩, hcontent⟩ := hlies 24 b rfl hb
  rw [show max 1 ((24 + 7) / 8) = 3 from rfl] at hp hcontent
  exact ⟨⟨hreached, hadmits⟩, b, p, hb, hp, hcontent⟩

end HeapSystem

end SweptHeap
