import Mathlib
import SweptHeap.Proofs.MarkSweep
import SweptHeap.Proofs.HeapSystem.FirstRecord

/-!
# The bytes of records

The sweep of a collection counts the bytes of blocks and leaves records out. A page of records that
is swept on demand, because an object gets its record in the middle of a cycle, is counted like any
other page. `Weighs` says what this comes to: the slots of the records that the policy has spared.
-/

namespace SweptHeap

variable {ρ : Type} {policy : Policy ρ}

def Memory.tenantsOn (m : Memory) (id : PageId) : List Tenant := (m.page? id).elim [] (·.tenants id)

theorem Memory.same_of_page?_eq {m m' : Memory} {id : PageId} (h : m'.page? id = m.page? id) :
    m'.tenantsOn id = m.tenantsOn id ∧ ∀ i, m'.record? ⟨id, i⟩ = m.record? ⟨id, i⟩ := by
  refine ⟨by rw [tenantsOn, h, tenantsOn], fun i => ?_⟩
  rw [record?, record?, h]

/-! ### Records on the scales -/

namespace Arena

variable {ids ids' : List PageId} {notes notes' : List Note} {a a' a'' : Arena (Diary ρ)}

/-- The policy was asked about all records of the pages as they stood, and the meter has counted the
slots of those that it spared. -/
structure Weighs (policy : Policy ρ) (ids : List PageId) (notes : List Note)
    (a a' : Arena (Diary ρ)) : Prop where
  notes_eq : a'.memo.notes = a.memo.notes ++ notes
  asked_eq : asked notes = ids.flatMap a.memory.tenantsOn
  judged : ∀ t fate, (t, fate) ∈ answers notes → t.ref.page ∈ ids ∧ ∃ record memo,
    a.memory.record? t.ref = some record ∧ fate = (policy.judgeRecord t.ref record memo).1
  counted : a.meter.Counts (slotBytes * (spared notes).length) a'.meter

theorem Weighs.of_eq (policy : Policy ρ) (hmemo : a'.memo = a.memo) (hmeter : a'.meter = a.meter) :
    Weighs policy [] [] a a' :=
  ⟨by rw [hmemo, List.append_nil], rfl, by simp [answers], .of_eq hmeter⟩

/-- What was done before is counted too, if it has left alone the records that come after. -/
theorem Weighs.append (h : Weighs policy ids notes a a') (h' : Weighs policy ids' notes' a' a'')
    (hsame : ∀ id ∈ ids', a'.memory.tenantsOn id = a.memory.tenantsOn id ∧
      ∀ i, a'.memory.record? ⟨id, i⟩ = a.memory.record? ⟨id, i⟩) :
    Weighs policy (ids ++ ids') (notes ++ notes') a a'' := by
  refine ⟨?_, ?_, fun t fate hanswer => ?_, ?_⟩
  · rw [h'.notes_eq, h.notes_eq, List.append_assoc]
  · rw [asked_append, h.asked_eq, h'.asked_eq, List.flatMap_append]
    exact congrArg _ (List.flatMap_congr fun id hid => (hsame id hid).1)
  · rw [answers_append] at hanswer
    rcases List.mem_append.mp hanswer with hanswer | hanswer
    · obtain ⟨hpage, hjudged⟩ := h.judged t fate hanswer
      exact ⟨List.mem_append_left _ hpage, hjudged⟩
    · obtain ⟨hpage, record, memo, hrecord, hfate⟩ := h'.judged t fate hanswer
      exact ⟨List.mem_append_right _ hpage, record, memo,
        ((hsame _ hpage).2 t.ref.index).symm.trans hrecord, hfate⟩
  · have hcounts := h.counted.trans h'.counted
    rwa [← Nat.mul_add, ← List.length_append, ← spared_append] at hcounts

theorem Weighs.still (h : Weighs policy ids notes a a') (hmemo : a''.memo = a'.memo)
    (hmeter : a''.meter = a'.meter) : Weighs policy ids notes a a'' := by
  simpa using h.append (.of_eq policy hmemo hmeter) (by simp)

/-- A birth is no answer. -/
theorem Weighs.born (h : Weighs policy ids notes a a') (t : Tenant)
    (hnotes : a''.memo.notes = a'.memo.notes ++ [.born t]) (hmeter : a''.meter = a'.meter) :
    Weighs policy ids (notes ++ [.born t]) a a'' := by
  have hborn : Weighs policy [] [.born t] a' a'' :=
    ⟨hnotes, rfl, by simp [answers, Note.answer], .of_eq hmeter⟩
  simpa using h.append hborn (by simp)

end Arena

/-! ### Sweeps on demand -/

section Pages

variable {p p' : Page} {hearings : List Hearing} {id : PageId} {a a' : Arena (Diary ρ)}

/-- A page of records weighs as many slots as records survive. -/
theorem Page.SweptTo.bytes_of_records (h : p.SweptTo hearings p') (hs : p.Sound)
    (hk : p.kind = .records) : p'.allocatedBytes = slotBytes * (survivors hearings).length := by
  have hs' : p'.Sound := h.sound hs (.inl (by simp [hk]))
  obtain ⟨q', rfl⟩ := Page.exists_records ((Page.kind_eq_of_key h.key_eq).trans hk)
  obtain ⟨free, hq'⟩ := hs'
  rw [← h.blocks_eq]
  exact hq'.allocatedBytes_eq

/-- The answers about the records of a page that is swept. -/
theorem Arena.Sifts.judges (h : Sifts policy.noting id p hearings p' a a') (hs : p.Sound)
    (hk : p.kind = .records) :
    (∃ notes, a'.memo.notes = a.memo.notes ++ notes ∧ asked notes = a.memory.tenantsOn id ∧
      (spared notes).length = (survivors hearings).length ∧
      ∀ t fate, (t, fate) ∈ answers notes → t.ref.page = id ∧ ∃ record memo,
        a.memory.record? t.ref = some record ∧ fate = (policy.judgeRecord t.ref record memo).1) ∧
    ∀ j ≠ id, a'.memory.page? j = a.memory.page? j := by
  obtain ⟨q, rfl⟩ := Page.exists_records hk
  obtain ⟨free, hq⟩ := hs
  have hindex := h.map_index
  obtain ⟨b, c, hb, hbmemo, hhear, hc, hcmemo⟩ := h.heard
  have hsound : (Page.records q).Sound := ⟨free, hq⟩
  obtain ⟨notes, hnotes, hminutes⟩ := hear_notes hsound.record_of_sight hhear
  obtain ⟨hmemory, -, hfates⟩ := hear_slots hhear
  refine ⟨⟨notes, ?_, ?_, ?_, fun t fate hanswer => ?_⟩, fun j hj => ?_⟩
  · rw [hcmemo, hnotes, hbmemo]
  · rw [hminutes.asked_eq, Memory.tenantsOn, h.page_eq, Option.elim_some, Page.tenants,
      ← hindex, List.map_map]
    rfl
  · rw [hminutes.spared_eq, List.length_map]
  · rw [hminutes.answers_eq] at hanswer
    obtain ⟨x, hx, he⟩ := List.mem_map.mp hanswer
    obtain ⟨rfl, rfl⟩ := Prod.mk.inj he
    obtain ⟨record, hrecord⟩ := hq.mem_blocks.mp (hindex ▸ List.mem_map_of_mem hx)
    obtain ⟨memo, hfate⟩ := hfates x hx record hrecord
    rw [PageKind.ref_tenant]
    refine ⟨rfl, record, memo, ?_, hfate⟩
    rw [Memory.record?, h.page_eq]
    exact hrecord
  · have hid := Memory.lt_of_page? h.page_eq
    have hid' : id < c.memory.pages.size := by
      rw [hmemory, hb, Memory.size_setPage]
      exact hid
    rw [Memory.page?_congr hc, Memory.page?_setPage hid', if_neg hj, hmemory, Memory.page?_congr hb,
      Memory.page?_setPage hid, if_neg hj]

end Pages

namespace Depot

variable {k r : Request} {d d' : Depot (Diary ρ)} {id : PageId} {ids : List PageId}

theorem Drafts.weighs (h : Drafts policy.noting id d d') (hg : Good k d) (hk : k.kind = .records) :
    (∃ notes, Arena.Weighs policy [id] notes d.arena d'.arena) ∧
      ∀ j ≠ id, d'.arena.memory.page? j = d.arena.memory.page? j := by
  cases h with
  | @intro rest p p' hearings a hw hsift hcounts =>
    obtain ⟨p₀, hp, hkey, hsound⟩ := hg.mapped id (Shelf.mem_pages.mpr (by simp [hw]))
    obtain rfl : p = p₀ := Option.some.inj (hsift.page_eq.symm.trans hp)
    have hkind : p.kind = .records := by rw [← p.key_kind, hkey, hk]
    obtain ⟨⟨notes, hnotes, hasked, hspared, hjudged⟩, hpages⟩ := hsift.judges hsound hkind
    refine ⟨⟨notes, hnotes, ?_, fun t fate hanswer => ?_, ?_⟩, hpages⟩
    · rw [hasked, List.flatMap_singleton]
    · obtain ⟨hpage, hrecord⟩ := hjudged t fate hanswer
      exact ⟨List.mem_singleton.mpr hpage, hrecord⟩
    · rwa [hspared, ← hsift.swept.bytes_of_records hsound hkind]

theorem Searches.weighs (h : Searches policy.noting r ids d d') (hg : Good k d)
    (hk : k.kind = .records) : (∃ notes, Arena.Weighs policy ids notes d.arena d'.arena) ∧
      ∀ j ∉ ids, d'.arena.memory.page? j = d.arena.memory.page? j := by
  induction h with
  | nil d => exact ⟨⟨[], .of_eq policy rfl rfl⟩, fun _ _ => rfl⟩
  | @cons id ids d d₁ d₂ hdrafts _ hsearches ih =>
    obtain ⟨⟨notes, hfirst⟩, hpages⟩ := hdrafts.weighs hg hk
    obtain ⟨⟨notes', hrest⟩, hpages'⟩ := ih ((hdrafts.tidy (by simp [hk])).good_frame hg).1
    have hid : id ∉ ids := by
      have hnodup := hg.nodup_unswept
      rw [hdrafts.lists.1, hsearches.lists.1] at hnodup
      exact fun hid => (List.nodup_cons.mp hnodup).1 (List.mem_append_left _ hid)
    refine ⟨⟨notes ++ notes', hfirst.append hrest fun j hj => ?_⟩, fun j hj => ?_⟩
    · exact Memory.same_of_page?_eq (hpages j fun he => hid (he ▸ hj))
    · rw [List.mem_cons, not_or] at hj
      rw [hpages' j hj.2, hpages j hj.1]

/-- The pages that a request sweeps are the last ones of the list. There is at least one of them,
unless something is ready or nothing waits. -/
theorem Delivers.weighs (h : Delivers policy.noting r d id d') (hg : Good k d)
    (hk : k.kind = .records) : ∃ ids notes, Arena.Weighs policy ids notes d.arena d'.arena ∧
      d.shelf.unswept.toList.reverse = ids ++ d'.shelf.unswept.toList.reverse ∧
      (d.shelf.ready = #[] → ids = [] → d.shelf.unswept = #[]) := by
  have hnone {ids : List PageId} {d₁ : Depot (Diary ρ)} (hs : Searches policy.noting r ids d d₁)
      (hdone : d₁.shelf.unswept = #[]) : ids = [] → d.shelf.unswept = #[] := by
    rintro rfl
    simpa [hdone] using hs.lists.1
  cases h with
  | ready hlisted hroom =>
    exact ⟨[], [], .of_eq policy rfl rfl, rfl, fun hready => by simp [hready] at hlisted⟩
  | @swept d₁ d₂ ids id hfull hsearches hdrafts hroom =>
    obtain ⟨⟨notes, hweighs⟩, hpages⟩ := hsearches.weighs hg hk
    obtain ⟨⟨notes', hlast⟩, -⟩ :=
      hdrafts.weighs (Tidies.good (hsearches.tidies (by simp [hk])) hg) hk
    have hid : id ∉ ids := by
      have hnodup := hg.nodup_unswept
      rw [hsearches.lists.1, hdrafts.lists.1] at hnodup
      exact fun hid => (List.nodup_append.mp hnodup).2.2 id hid id List.mem_cons_self rfl
    refine ⟨ids ++ [id], notes ++ notes', hweighs.append hlast fun j hj => ?_, ?_, by simp⟩
    · obtain rfl := List.mem_singleton.mp hj
      exact Memory.same_of_page?_eq (hpages j hid)
    · rw [hsearches.lists.1, hdrafts.lists.1, List.append_assoc, List.singleton_append]
  | @empty d₁ ids rest id hfull hsearches hdone hlisted =>
    obtain ⟨⟨notes, hweighs⟩, -⟩ := hsearches.weighs hg hk
    exact ⟨ids, notes, hweighs, hsearches.lists.1, fun _ => hnone hsearches hdone⟩
  | @new d₁ ids p a hfull hsearches hdone hempty hcreated hpages hmemo hmeter hfound =>
    obtain ⟨⟨notes, hweighs⟩, -⟩ := hsearches.weighs hg hk
    exact ⟨ids, notes, hweighs.still hmemo hmeter, hsearches.lists.1,
      fun _ => hnone hsearches hdone⟩

/-- A shelf without pages gets a new one. -/
theorem Delivers.first {d d' : Depot ρ} {policy : Policy ρ} (h : Delivers policy r d id d')
    (hshelf : d.shelf = {}) (hr : r.Shared) :
    d'.shelf = { used := #[id] } ∧ ∃ p, d'.arena.memory.page? id = some p ∧
      p.blocks.toList = [] := by
  have hdraft {j : PageId} {d₁ : Depot ρ} (hdrafts : Drafts policy j d d₁) : False := by
    simpa [hshelf] using hdrafts.lists.1
  have hsearch {ids : List PageId} {d₁ : Depot ρ} (hs : Searches policy r ids d d₁) : d₁ = d := by
    cases hs with
    | nil => rfl
    | cons hdrafts _ _ => exact (hdraft hdrafts).elim
  cases h with
  | ready hlisted hroom => simp [hshelf] at hlisted
  | swept hfull hsearches hdrafts hroom =>
    obtain rfl := hsearch hsearches
    exact (hdraft hdrafts).elim
  | empty hfull hsearches hdone hlisted =>
    obtain rfl := hsearch hsearches
    simp [hshelf] at hlisted
  | new hfull hsearches hdone hempty hcreated hpages hmemo hmeter hfound =>
    obtain rfl := hsearch hsearches
    obtain ⟨p, hp, -, -, hblocks⟩ := Page.create_whole hr
    obtain rfl := Except.ok.inj (hcreated.symm.trans hp)
    refine ⟨by rw [hshelf]; rfl, _, (Memory.page?_push hpages _).trans (if_pos rfl), hblocks⟩

end Depot

/-! ### Records for objects -/

/-- An allocator that has fallen behind has no page to take a record from. -/
theorem Allocator.Finds.weighs {h h₁ : Heap (Diary ρ)} {a : Allocator} {id : PageId}
    (hf : Finds policy.noting h a id h₁) (hs : h.Sound) :
    ∃ ids notes, h.arena.Weighs policy ids notes h₁.arena ∧
      (h.shelf .records).unswept.toList.reverse = ids ++
        (h₁.shelf .records).unswept.toList.reverse ∧
      (a.epoch ≠ h.epoch → (h.shelf .records).ready = #[] → ids = [] →
        (h.shelf .records).unswept = #[]) := by
  have hk : Request.records ∈ Heap.allRequests := Heap.mem_allRequests.mpr (.inr (.inr (.inr rfl)))
  cases hf with
  | kept hrests hepoch hcached =>
    refine ⟨[], [], .of_eq policy hrests.memo_eq hrests.meter_eq, ?_, fun hne => absurd hepoch hne⟩
    rw [hrests.shelf_eq, List.nil_append]
  | @delivered h' d hrests hdelivers =>
    obtain ⟨ids, notes, hweighs, hlists, hnone⟩ := hdelivers.weighs (hrests.good (hs.good _ hk)) rfl
    have hshelf : (h'.depot .records).shelf = h.shelf .records := hrests.shelf_eq .records
    rw [hshelf] at hlists hnone
    refine ⟨ids, notes, ?_, hlists, fun _ => hnone⟩
    refine (Arena.Weighs.of_eq policy hrests.memo_eq hrests.meter_eq).append
      (hweighs.still rfl rfl) ?_
    intro j hj
    have hlisted : j ∈ (h.shelf .records).unswept.toList := by
      rw [← List.mem_reverse, hlists]
      exact List.mem_append_left _ hj
    obtain ⟨p, hp, -⟩ := hs.key_of_mem hk (Shelf.mem_pages.mpr (.inr (.inr (.inr hlisted))))
    obtain ⟨p', hp', hkeeps⟩ := hrests.pages j p hp
    refine ⟨?_, fun i => ?_⟩
    · rw [Memory.tenantsOn, hp', Memory.tenantsOn, hp]
      exact hkeeps.tenants_eq j
    · rw [Memory.record?, Memory.record?, hp', hp]
      exact hkeeps.record_eq i

theorem Allocator.Finds.first {h h₁ : Heap ρ} {a : Allocator} {id : PageId}
    (hf : Finds policy h a id h₁) (hshelf : h.shelf .records = {})
    (hcached : cached .records a = none) :
    h₁.shelf .records = { used := #[id] } ∧ h₁.tenantsOn id = [] := by
  cases hf with
  | kept hrests hepoch hkept => cases hcached.symm.trans hkept
  | @delivered h' d hrests hdelivers =>
    obtain ⟨hfirst, p, hp, hblocks⟩ :=
      hdelivers.first ((hrests.shelf_eq .records).trans hshelf) trivial
    refine ⟨hfirst, ?_⟩
    rw [Heap.tenantsOn_eq (p := p) hp, Page.tenants, hblocks]
    rfl

namespace HeapSystem

variable {o : HeapSystem ρ} {i : Nat} {object : BlockRef} {withFinalizer : Bool}

theorem createRecord_weighs (policy : Policy ρ) (ho : o.Sound)
    (ha : o.Admits (.createRecord i object withFinalizer)) :
    ∃ r o' ids notes, o.step policy (.createRecord i object withFinalizer) = (.ok (some r), o') ∧
      o.heap.arena.Weighs policy ids notes o'.heap.arena ∧
      (o.heap.shelf .records).unswept.toList.reverse =
        ids ++ (o'.heap.shelf .records).unswept.toList.reverse ∧
      (o.heap.arena.memory.recordOf object = none → (∀ a ∈ o.allocators, a.epoch ≠ o.heap.epoch) →
        (o.heap.shelf .records).ready = #[] → ids = [] →
          (o.heap.shelf .records).unswept = #[]) := by
  have hi : i < o.allocators.length := ha.1
  cases hr : o.heap.arena.memory.recordOf object with
  | some r =>
    have heq : o.step policy (.createRecord i object withFinalizer) = (.ok (some r), { o with
        heap := o.heap.amend r (·.raise (.initial withFinalizer))
        allocators := o.allocators.set i o.allocators[i] }) := by
      simp only [step, hr]
      exact atDesk_ok (List.getElem?_eq_getElem hi)
        (Allocator.createRecord_some policy.noting hr withFinalizer)
    exact ⟨r, _, [], [], heq, .of_eq policy rfl rfl, rfl, by simp⟩
  | none =>
    obtain ⟨r, h₁, h₂, a, a', hget, heq, -, -, -, -, -, hgets, -, hmeter, hfinds⟩ :=
      step_createRecord_none policy ho ha hr
    obtain ⟨ids, notes, hweighs, hlists, hnone⟩ := hfinds.weighs ho.heap
    obtain ⟨p, p', -, -, -, c, hsame, rfl⟩ := hgets
    refine ⟨r, _, ids, notes ++ [.born (.record r)], heq, ?_, hlists, fun _ hepochs => ?_⟩
    · exact hweighs.born _
        (congrArg (fun memo : Diary ρ => memo.notes ++ [.born (.record r)]) hsame.memo_eq) hmeter
    · exact hnone (hepochs a (List.mem_of_getElem? hget))

/-! ### A record in the middle of a cycle -/

theorem pair_records : pair.heap.shelf .records = {} ∧
    ∀ a ∈ pair.allocators, Allocator.cached .records a = none := by
  decide +kernel

/-- The first record of all is alone on its page. -/
theorem step_first_record (policy : Policy ρ) (ho : o.Sound) (hsettled : o.heap.Settled)
    (ha : o.Admits (.createRecord i object withFinalizer))
    (hbare : o.heap.arena.memory.recordOf object = none) (hshelf : o.heap.shelf .records = {})
    (hcached : ∀ a ∈ o.allocators, Allocator.cached .records a = none) :
    ∃ r o', o.step policy (.createRecord i object withFinalizer) = (.ok (some r), o') ∧
      o'.allocators.length = o.allocators.length ∧ o'.heap.shelf .records = { used := #[r.page] } ∧
      o'.heap.tenantsOn r.page = [.record r] ∧
      o'.heap.record? r = some ⟨some object, .initial withFinalizer⟩ ∧
      ∀ other x, other ≠ object → o.heap.Depicts other x → o'.heap.Depicts other x := by
  obtain ⟨r, h₁, h₂, a, a', hget, heq, htidies, -, hheld, hheader, -, hgets, -, -, hfinds⟩ :=
    step_createRecord_none policy ho ha hbare
  obtain ⟨hfirst, hvacant⟩ := hfinds.first hshelf (hcached a (List.mem_of_getElem? hget))
  have hs₁ := Heap.Tidies.sound htidies ho.heap
  obtain ⟨-, hwrites⟩ := record_linked hs₁ hheld hheader hgets
  obtain ⟨hw, hrecord⟩ := hgets.welcomes_record hs₁
  refine ⟨r, _, heq, List.length_set, ?_, ?_, (hwrites.record_eq r).trans hrecord,
    fun other x hne hx => ?_⟩
  · obtain ⟨p, p', -, -, -, c, hsame, rfl⟩ := hgets
    exact hfirst
  · have hperm := hw.tenants_self
    rw [Tenant.ref_record, hvacant, List.perm_singleton] at hperm
    exact (hwrites.tenants_eq r.page).trans hperm
  · have hquiet := Heap.Tidies.quiet htidies ho.heap hsettled
    exact depicts_note (hwrites.depicts_other hne (hw.depicts hs₁ (hquiet.depicts hx)))

theorem spared_eq_asked {notes : List Note}
    (h : ∀ t fate, (t, fate) ∈ answers notes → fate ≠ .dead) : spared notes = asked notes := by
  rw [spared, asked, List.filter_eq_self.mpr fun a ha => by simpa using h a.1 a.2 ha]

/-- The one record that waits is spared and counted, because the allocator has no page yet in this
cycle. -/
theorem createRecord_counts_waiting (policy : Policy ρ) (ho : o.Sound)
    (ha : o.Admits (.createRecord i object withFinalizer))
    (hbare : o.heap.arena.memory.recordOf object = none)
    (hbehind : ∀ a ∈ o.allocators, a.epoch ≠ o.heap.epoch) {r : BlockRef} {record : Record}
    (hwaits : o.heap.shelf .records = { unswept := #[r.page] })
    (htenants : o.heap.tenantsOn r.page = [.record r]) (hrecord : o.heap.record? r = some record)
    (hspares : ∀ memo, (policy.judgeRecord r record memo).1 ≠ .dead) :
    o.heap.arena.meter.Counts slotBytes
      (o.step policy (.createRecord i object withFinalizer)).2.heap.arena.meter := by
  obtain ⟨r', o', ids, notes, heq, hweighs, hlists, hnone⟩ := createRecord_weighs policy ho ha
  rw [hwaits] at hlists hnone
  have hids : ids = [r.page] := by
    have hsome : ids ≠ [] := fun he => by simpa using hnone hbare hbehind rfl he
    rcases List.append_eq_singleton_iff.mp hlists.symm with ⟨he, -⟩ | ⟨he, -⟩
    · exact absurd he hsome
    · exact he
  have hasked : asked notes = [.record r] := by
    rw [hweighs.asked_eq, hids, List.flatMap_singleton]
    exact htenants
  have hspared : spared notes = [.record r] := by
    refine (spared_eq_asked fun t fate hanswer => ?_).trans hasked
    have hasks : t ∈ asked notes := List.mem_map_of_mem hanswer
    rw [hasked, List.mem_singleton] at hasks
    obtain ⟨-, record', memo, hheld, rfl⟩ := hweighs.judged t fate hanswer
    subst hasks
    obtain rfl : record = record' := Option.some.inj (hrecord.symm.trans hheld)
    exact hspares memo
  have hcounted := hweighs.counted
  rw [heq]
  rwa [hspared, List.length_singleton, Nat.mul_one] at hcounted

/-- The first object has a record that waits for the sweep when the second object gets one. -/
theorem exists_waiting_record : ∃ o : HeapSystem Unit,
    o = run .byMark [.enlist, .createObject 0 16, .createObject 0 16,
      .createRecord 0 ⟨0, 0⟩ false, .prepare] (new ()) ∧
    o.Reached ∧ o.Admits (.createRecord 0 ⟨0, 4⟩ false) ∧ o.heap.allocatedBytes = 0 ∧
    (o.step .byMark (.createRecord 0 ⟨0, 4⟩ false)).2.heap.allocatedBytes = slotBytes := by
  obtain ⟨hreached, hsettled⟩ := pair_reached
  obtain ⟨hshelf, hcached⟩ := pair_records
  obtain ⟨⟨hbare, hbare'⟩, -⟩ := pair_eq
  obtain ⟨hadmits, hadmits'⟩ := pair_admits false
  obtain ⟨x, hx⟩ := hreached.civil ⟨0, 4⟩ hadmits'.2.1
  obtain ⟨r, o₁, heq₁, hdesks, hused, htenants, hrecord, hdepicts⟩ :=
    step_first_record .byMark hreached.reached.sound hsettled hadmits hbare hshelf hcached
  have hsettled₁ := (aside_createRecord .byMark pair 0 ⟨0, 0⟩ false hsettled).1
  have hreached₁ := Reached.step .byMark _ hreached.reached hadmits
  rw [heq₁] at hsettled₁ hreached₁
  obtain ⟨h, hprepared, heq₂, hs⟩ := step_prepare .byMark hreached₁.sound hsettled₁
  have hreached₂ := Reached.step .byMark .prepare hreached₁ hsettled₁
  rw [heq₂] at hreached₂
  -- The record waits on its page, and the second object has none.
  have hx₂ := hprepared.depicts (hdepicts _ x (by decide) hx)
  have hadmits₂ : Admits { o₁ with heap := h } (.createRecord 0 ⟨0, 4⟩ false) := by
    obtain ⟨link, -, hcells⟩ := hx₂.cells
    refine ⟨hdesks.symm ▸ hadmits.1, hx₂.held, ?_⟩
    rw [hcells]
    simp
  have hbare₂ : h.arena.memory.recordOf ⟨0, 4⟩ = none := by
    rw [hx₂.recordOf_eq, ← hx.recordOf_eq, hbare']
  have hwaits : h.shelf .records = { unswept := #[r.page] } := by
    have hrecords : Request.records ∈ Heap.allRequests :=
      Heap.mem_allRequests.mpr (.inr (.inr (.inr rfl)))
    rw [hprepared.shelf_eq _ hrecords, hused]
    rfl
  have hbehind : ∀ a ∈ o₁.allocators, a.epoch ≠ h.epoch := by
    intro a ha
    have hle := (hreached₁.sound.valid a ha).epoch_le
    rw [hprepared.epoch_eq]
    omega
  have hspared : Record.fate ⟨some ⟨0, 0⟩, .initial false⟩ ≠ .dead := by decide
  have hcounts := createRecord_counts_waiting .byMark hs hadmits₂ hbare₂ hbehind hwaits
    ((hprepared.tenants_eq r.page).trans htenants) ((hprepared.record_eq r).trans hrecord)
    fun _ => hspared
  refine ⟨{ o₁ with heap := h }, ?_, hreached₂, hadmits₂, hprepared.allocated_eq,
    hcounts 0 hprepared.allocated_eq⟩
  have hrun := run_concat .byMark [.enlist, .createObject 0 16, .createObject 0 16]
    (.createRecord 0 ⟨0, 0⟩ false) (new ())
  have hrun' := run_concat .byMark
    [.enlist, .createObject 0 16, .createObject 0 16, .createRecord 0 ⟨0, 0⟩ false]
    .prepare (new ())
  change run .byMark [.enlist, .createObject 0 16, .createObject 0 16, .createRecord 0 ⟨0, 0⟩ false]
    (new ()) = (pair.step _ _).2 at hrun
  rw [hrun, heq₁, heq₂] at hrun'
  exact hrun'.symm

/-! ### The count of bytes -/

/-- An object gets a record, or its record a finalizer. The pages of records that are swept on the
way add the slots of the records that the policy spares to the count of bytes, and nothing else is
added. A sweep adds the blocks that it keeps and no record. -/
theorem createRecord_counts (ho : o.Reached) (policy : Policy ρ)
    (ha : o.Admits (.createRecord i object withFinalizer)) (epoch : Int) :
    (∃ r o' ids notes, o.step policy (.createRecord i object withFinalizer) = (.ok (some r), o') ∧
      (o.heap.shelf .records).unswept.toList.reverse =
        ids ++ (o'.heap.shelf .records).unswept.toList.reverse ∧
      o'.notes = o.notes ++ notes ∧ asked notes = ids.flatMap o.heap.tenantsOn ∧
      (∀ t fate, (t, fate) ∈ answers notes → ∃ record memo, o.heap.record? t.ref = some record ∧
        fate = (policy.judgeRecord t.ref record memo).1) ∧
      o.heap.arena.meter.Counts (slotBytes * (spared notes).length) o'.heap.arena.meter) ∧
    ∃ o', o.step policy (.sweep epoch) = (.ok none, o') ∧ o.heap.Charges o'.heap := by
  refine ⟨?_, ?_⟩
  · obtain ⟨r, o', ids, notes, heq, hweighs, hlists, -⟩ := createRecord_weighs policy ho.sound ha
    exact ⟨r, o', ids, notes, heq, hlists, hweighs.notes_eq, hweighs.asked_eq,
      fun t fate hanswer => (hweighs.judged t fate hanswer).2, hweighs.counted⟩
  · obtain ⟨h, heq, htidies, -, hcharges⟩ := Heap.sweep_charges policy.noting ho.sound.heap epoch
    obtain ⟨o', heq', -, -, rfl⟩ := step_receive policy False ho.sound htidies heq
    exact ⟨_, heq', hcharges.trans (.of_eq rfl (Heap.bytes_same (fun _ _ => rfl) rfl))⟩

/-- The second object gets a record while that of the first one waits. -/
theorem createRecord_counts_pair : ∃ o : HeapSystem Unit,
    o = run .byMark [.enlist, .createObject 0 16, .createObject 0 16,
      .createRecord 0 ⟨0, 0⟩ false, .prepare] (new ()) ∧
    o.Reached ∧ o.Admits (.createRecord 0 ⟨0, 4⟩ false) ∧
    (∃ r o' ids notes, o.step .byMark (.createRecord 0 ⟨0, 4⟩ false) = (.ok (some r), o') ∧
      (o.heap.shelf .records).unswept.toList.reverse =
        ids ++ (o'.heap.shelf .records).unswept.toList.reverse ∧
      o'.notes = o.notes ++ notes ∧ asked notes = ids.flatMap o.heap.tenantsOn ∧ spared notes ≠ [] ∧
      o.heap.arena.meter.Counts (slotBytes * (spared notes).length) o'.heap.arena.meter) ∧
    ∃ o', o.step .byMark (.sweep 1) = (.ok none, o') ∧ o.heap.Charges o'.heap := by
  obtain ⟨o, ho, hreached, hadmits, hbefore, hafter⟩ := exists_waiting_record
  obtain ⟨⟨r, o', ids, notes, heq, hlists, hnotes, hasked, -, hcounts⟩, hsweep⟩ :=
    createRecord_counts hreached .byMark hadmits 1
  refine ⟨o, ho, hreached, hadmits,
    ⟨r, o', ids, notes, heq, hlists, hnotes, hasked, fun hnone => ?_, hcounts⟩, hsweep⟩
  rw [heq] at hafter
  rw [hnone] at hcounts
  cases hafter.symm.trans (hcounts 0 hbefore)

/-- The count of bytes is not the same after an object has got a record. -/
theorem createRecord_adds_bytes : ∃ o : HeapSystem Unit,
    o = run .byMark [.enlist, .createObject 0 16, .createObject 0 16,
      .createRecord 0 ⟨0, 0⟩ false, .prepare] (new ()) ∧
    o.Reached ∧ o.Admits (.createRecord 0 ⟨0, 4⟩ false) ∧
    (o.step .byMark (.createRecord 0 ⟨0, 4⟩ false)).2.heap.allocatedBytes ≠
      o.heap.allocatedBytes := by
  obtain ⟨o, ho, hreached, hadmits, hbefore, hafter⟩ := exists_waiting_record
  refine ⟨o, ho, hreached, hadmits, ?_⟩
  rw [hafter, hbefore]
  decide

end HeapSystem

end SweptHeap
