import Mathlib
import SweptHeap.Proofs.Heap.Depot
import SweptHeap.Proofs.Page.Weight

/-!
# The bytes of a shelf

The bytes on the pages of a shelf that do not wait for the sweep, and what a step of housekeeping
does to them: only a page that was swept and kept adds to them. The meter, which wraps around, is
compared with a count that does not.
-/

namespace SweptHeap

/-- The meter has counted `n` bytes more, up to wrapping around. -/
def Meter.Counts (n : Nat) (m m' : Meter) : Prop :=
  ∀ count, m.allocated = count % wordLimit → m'.allocated = (count + n) % wordLimit

namespace Meter

variable {m m' m'' : Meter} {n n' : Nat}

theorem Counts.refl (m : Meter) : m.Counts 0 m := fun _ h => h

theorem Counts.of_eq (h : m' = m) : m.Counts 0 m' := h ▸ .refl m

theorem Counts.trans (h : m.Counts n m') (h' : m'.Counts n' m'') : m.Counts (n + n') m'' := by
  intro count hcount
  rw [h' _ (h count hcount), Nat.add_assoc]

theorem counts_add (m : Meter) (bytes : Nat) : m.Counts bytes (m.add bytes).2 := by
  intro count hcount
  change (m.allocated + bytes) % wordLimit = _
  rw [hcount, Nat.mod_add_mod]

end Meter

theorem Page.Alike.allocatedBytes_eq {p p' : Page} (h : p.Alike p') (hs : p.Sound)
    (hk : p.kind ≠ .records) : p'.allocatedBytes = p.allocatedBytes :=
  hs.allocatedBytes_congr (h.sound hs) h.kind_eq hk h.blocks_eq fun i _ => h.extent_eq i

/-- The pages that do not wait for the sweep. -/
def Shelf.swept (s : Shelf) : List PageId := s.empty.toList ++ s.ready.toList ++ s.used.toList

theorem Shelf.mem_swept {s : Shelf} {id : PageId} : id ∈ s.swept ↔
    id ∈ s.empty.toList ∨ id ∈ s.ready.toList ∨ id ∈ s.used.toList := by
  simp [swept]

theorem Shelf.swept_append (s : Shelf) : s.swept ++ s.unswept.toList = s.pages.toList := by
  rw [swept, toList_pages]

namespace Memory

variable {m m' : Memory} {id : PageId} {p : Page}

theorem allocatedBytes_eq (h : m.page? id = some p) : m.allocatedBytes id = p.allocatedBytes := by
  rw [allocatedBytes, h, Option.elim_some]

theorem allocatedBytes_congr (h : m'.page? id = m.page? id) :
    m'.allocatedBytes id = m.allocatedBytes id := by
  rw [allocatedBytes, allocatedBytes, h]

end Memory

namespace Depot

variable {ρ : Type} {policy : Policy ρ} {k : Request} {d d' d'' : Depot ρ} {id : PageId}

/-- Bytes of blocks on the pages that do not wait for the sweep. -/
def bytes (d : Depot ρ) : Nat := (d.shelf.swept.map d.arena.memory.allocatedBytes).sum

theorem bytes_congr {e : Depot ρ} (hperm : e.shelf.swept.Perm d.shelf.swept)
    (hbytes : ∀ j ∈ d.shelf.swept,
      e.arena.memory.allocatedBytes j = d.arena.memory.allocatedBytes j) : e.bytes = d.bytes := by
  rw [bytes, (hperm.map _).sum_eq, List.map_congr_left hbytes, bytes]

theorem bytes_cons {e : Depot ρ} (hperm : e.shelf.swept.Perm (id :: d.shelf.swept))
    (hbytes : ∀ j ∈ d.shelf.swept,
      e.arena.memory.allocatedBytes j = d.arena.memory.allocatedBytes j) :
    e.bytes = d.bytes + e.arena.memory.allocatedBytes id := by
  rw [bytes, (hperm.map _).sum_eq, List.map_cons, List.sum_cons, List.map_congr_left hbytes, bytes,
    Nat.add_comm]

theorem mem_pages_of_swept (h : id ∈ d.shelf.swept) : id ∈ d.shelf.pages.toList :=
  d.shelf.swept_append ▸ List.mem_append_left _ h

theorem Good.allocatedBytes_alike (hg : Good k d) (hk : k.kind ≠ .records)
    (hid : id ∈ d.shelf.pages.toList) {m : Memory}
    (halike : Option.Rel Page.Alike (d.arena.memory.page? id) (m.page? id)) :
    m.allocatedBytes id = d.arena.memory.allocatedBytes id := by
  obtain ⟨p, hp, hkey, hsound⟩ := hg.mapped id hid
  obtain ⟨p', hp', hab⟩ := rel_alike_some halike hp
  have hkind : p.kind ≠ .records := by rwa [← p.key_kind, hkey]
  rw [Memory.allocatedBytes_eq hp, Memory.allocatedBytes_eq hp', hab.allocatedBytes_eq hsound hkind]

theorem Good.allocatedBytes_vacant (hg : Good k d) (hk : k.kind ≠ .records)
    (hid : id ∈ d.shelf.empty.toList) : d.arena.memory.allocatedBytes id = 0 := by
  obtain ⟨p, hp, hkey, hsound⟩ := hg.mapped id (Shelf.mem_pages.mpr (.inl hid))
  rw [Memory.allocatedBytes_eq hp]
  refine hsound.allocatedBytes_of_empty ?_ (hg.vacant id hid p hp)
  rwa [← p.key_kind, hkey]

theorem Good.ne_of_waiting (hg : Good k d) {rest : Array PageId}
    (hw : d.shelf.unswept = rest.push id) {j : PageId} (hj : j ∈ d.shelf.swept) : j ≠ id := by
  rintro rfl
  obtain ⟨hempty, hready, hused, -⟩ := hg.not_mem_of_waiting hw
  rcases Shelf.mem_swept.mp hj with hj | hj | hj
  · exact hempty hj
  · exact hready hj
  · exact hused hj

theorem bytes_relist {s s' : Shelf} (a : Arena ρ) (hunswept : s'.unswept = s.unswept)
    (hperm : s'.pages.toList.Perm s.pages.toList) : bytes ⟨s', a⟩ = bytes ⟨s, a⟩ := by
  refine bytes_congr ?_ fun _ _ => rfl
  rw [← Shelf.swept_append, ← Shelf.swept_append, hunswept] at hperm
  exact (List.perm_append_right_iff _).mp hperm

theorem bytes_sift (hg : Good k d) (hk : k.kind ≠ .records) {rest : Array PageId} {p p' : Page}
    {hearings : List Hearing} {a : Arena ρ} {s : Shelf}
    (hw : d.shelf.unswept = rest.push id) (hsift : Arena.Sifts policy id p hearings p' d.arena a)
    (hplaced : s = { d.shelf with unswept := rest }.addUsed id ∨
      s = { d.shelf with unswept := rest }.addReady id ∨
      s = { d.shelf with unswept := rest }.addEmpty id) :
    bytes ⟨s, a⟩ = d.bytes + a.memory.allocatedBytes id := by
  refine bytes_cons (e := ⟨s, a⟩) ?_ fun j hj => ?_
  · refine List.perm_iff_count.mpr fun j => ?_
    rcases hplaced with rfl | rfl | rfl <;>
      simp only [Shelf.swept, Shelf.addUsed, Shelf.addReady, Shelf.addEmpty, Array.toList_push,
        List.count_append, List.count_cons, List.count_nil] <;> omega
  · have hne := hg.ne_of_waiting hw hj
    exact hg.allocatedBytes_alike hk (mem_pages_of_swept hj) (hsift.others hne)

theorem bytes_discard (hg : Good k d) (hk : k.kind ≠ .records) {rest : Array PageId} {p p' : Page}
    {hearings : List Hearing} {a b : Arena ρ} (hw : d.shelf.unswept = rest.push id)
    (hsift : Arena.Sifts policy id p hearings p' d.arena a)
    (hunmapped : Arena.Same (a.modifyMemory (·.unmap id)) b) :
    bytes ⟨{ d.shelf with unswept := rest }, b⟩ = d.bytes := by
  refine bytes_congr (e := ⟨{ d.shelf with unswept := rest }, b⟩) (.refl _) fun j hj => ?_
  have hne := hg.ne_of_waiting hw hj
  refine hg.allocatedBytes_alike hk (mem_pages_of_swept hj) ?_
  change Option.Rel _ _ (b.memory.page? j)
  rw [hunmapped.page?]
  change Option.Rel _ _ ((a.memory.unmap id).page? j)
  rw [Memory.page?_unmap, if_neg hne]
  exact hsift.others hne

theorem bytes_map (hg : Good k d) (hk : k.kind ≠ .records) {r : Request} {p : Page} {a : Arena ρ}
    (hvalid : r.Valid) (hkey : r.key = k) (hcreated : Page.create r = .ok p)
    (hpages : a.memory.pages = d.arena.memory.pages.push (some p)) :
    bytes ⟨d.shelf.addUsed d.arena.memory.pages.size, a⟩ = d.bytes := by
  obtain ⟨q, hq, hsound, hqkey, hblocks, -⟩ := Page.create_sound hvalid
  obtain rfl : q = p := Except.ok.inj (hq.symm.trans hcreated)
  have hpage := Memory.page?_push hpages
  have hzero : a.memory.allocatedBytes d.arena.memory.pages.size = 0 := by
    rw [Memory.allocatedBytes_eq ((hpage _).trans (if_pos rfl))]
    refine hsound.allocatedBytes_of_empty ?_ hblocks
    rwa [← q.key_kind, hqkey, hkey]
  have hcons : bytes ⟨d.shelf.addUsed d.arena.memory.pages.size, a⟩ =
      d.bytes + a.memory.allocatedBytes d.arena.memory.pages.size := by
    refine bytes_cons (e := ⟨d.shelf.addUsed d.arena.memory.pages.size, a⟩) ?_ fun j hj => ?_
    · refine List.perm_iff_count.mpr fun j => ?_
      simp only [Shelf.swept, Shelf.addUsed, Array.toList_push, List.count_append, List.count_cons,
        List.count_nil]
      omega
    · refine Memory.allocatedBytes_congr ((hpage j).trans (if_neg ?_))
      exact Nat.ne_of_lt (hg.lt_size (mem_pages_of_swept hj))
  rw [hcons, hzero, Nat.add_zero]

theorem bytes_unmap (hg : Good k d) (hk : k.kind ≠ .records) {empty : Array PageId} {a : Arena ρ}
    (hperm : d.shelf.empty.toList.Perm (id :: empty.toList))
    (hunmapped : Arena.Same (d.arena.modifyMemory (·.unmap id)) a) :
    bytes ⟨{ d.shelf with empty := empty }, a⟩ = d.bytes := by
  have hswept : d.shelf.swept.Perm (id :: Shelf.swept { d.shelf with empty := empty }) :=
    (hperm.append_right _).append_right _
  have hnot : id ∉ Shelf.swept { d.shelf with empty := empty } := by
    have hnodup : d.shelf.swept.Nodup := by
      have hall := hg.nodup
      rw [← Shelf.swept_append] at hall
      exact (List.nodup_append.mp hall).1
    exact (List.nodup_cons.mp (hswept.nodup_iff.mp hnodup)).1
  have hcons : d.bytes = bytes ⟨{ d.shelf with empty := empty }, a⟩ +
      d.arena.memory.allocatedBytes id := by
    refine bytes_cons (d := ⟨{ d.shelf with empty := empty }, a⟩) hswept fun j hj => ?_
    refine Memory.allocatedBytes_congr ?_
    change _ = a.memory.page? j
    rw [hunmapped.page?]
    change _ = (d.arena.memory.unmap id).page? j
    rw [Memory.page?_unmap, if_neg fun he : j = id => hnot (he ▸ hj)]
  rw [hcons, hg.allocatedBytes_vacant hk (hperm.symm.subset List.mem_cons_self), Nat.add_zero]

/-! ### The meter -/

/-- The meter has counted what pages of blocks were added to those that do not wait. -/
def Charges (k : Request) (d d' : Depot ρ) : Prop :=
  k.kind ≠ .records → ∃ n, d.arena.meter.Counts n d'.arena.meter ∧ d'.bytes = d.bytes + n

theorem Charges.refl (k : Request) (d : Depot ρ) : Charges k d d := fun _ => ⟨0, .refl _, rfl⟩

theorem Charges.trans (h : Charges k d d') (h' : Charges k d' d'') : Charges k d d'' := by
  intro hk
  obtain ⟨n, hcounts, hbytes⟩ := h hk
  obtain ⟨n', hcounts', hbytes'⟩ := h' hk
  exact ⟨n + n', hcounts.trans hcounts', by rw [hbytes', hbytes, Nat.add_assoc]⟩

theorem Charges.of_eq (hmeter : d'.arena.meter = d.arena.meter)
    (hbytes : k.kind ≠ .records → d'.bytes = d.bytes) : Charges k d d' :=
  fun hk => ⟨0, .of_eq hmeter, hbytes hk⟩

/-- The tally has counted what pages of blocks were added to those that do not wait. -/
structure Tallies (k : Request) (tally tally' : Tally) (d d' : Depot ρ) : Prop where
  meter_eq : d'.arena.meter = d.arena.meter
  bytes_eq : k.kind ≠ .records → d'.bytes + tally.liveBytes = d.bytes + tally'.liveBytes

theorem Tallies.refl (k : Request) (tally : Tally) (d : Depot ρ) : Tallies k tally tally d d :=
  ⟨rfl, fun _ => rfl⟩

theorem Tallies.trans {tally tally' tally'' : Tally} (h : Tallies k tally tally' d d')
    (h' : Tallies k tally' tally'' d' d'') : Tallies k tally tally'' d d'' := by
  refine ⟨h'.meter_eq.trans h.meter_eq, fun hk => ?_⟩
  have hbytes := h.bytes_eq hk
  have hbytes' := h'.bytes_eq hk
  omega

theorem tallies_sift (hg : Good k d) (tally : Tally) {rest : Array PageId} {p p' : Page}
    {hearings : List Hearing} {a : Arena ρ} {s : Shelf}
    (hw : d.shelf.unswept = rest.push id) (hsift : Arena.Sifts policy id p hearings p' d.arena a)
    (hmeter : a.meter = d.arena.meter)
    (hplaced : s = { d.shelf with unswept := rest }.addUsed id ∨
      s = { d.shelf with unswept := rest }.addReady id ∨
      s = { d.shelf with unswept := rest }.addEmpty id) :
    Tallies k tally ((tally.add (countFates hearings)).addLive (a.memory.allocatedBytes id)) d
      ⟨s, a⟩ := by
  refine ⟨hmeter, fun hk => ?_⟩
  have hbytes := bytes_sift hg hk hw hsift hplaced
  simp only [Tally.add, Tally.addLive, liveBytes_countFates]
  omega

theorem tallies_discard (hg : Good k d) (tally : Tally) {rest : Array PageId} {p p' : Page}
    {hearings : List Hearing} {a b : Arena ρ} (hw : d.shelf.unswept = rest.push id)
    (hsift : Arena.Sifts policy id p hearings p' d.arena a)
    (hunmapped : Arena.Same (a.modifyMemory (·.unmap id)) b) (hmeter : b.meter = d.arena.meter) :
    Tallies k tally (tally.add (countFates hearings)) d ⟨{ d.shelf with unswept := rest }, b⟩ := by
  refine ⟨hmeter, fun hk => ?_⟩
  rw [bytes_discard hg hk hw hsift hunmapped]
  simp only [Tally.add, liveBytes_countFates, Nat.add_zero]

end Depot

end SweptHeap
