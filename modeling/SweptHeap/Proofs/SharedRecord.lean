import Mathlib
import SweptHeap.Proofs.RecordRace.Records
import SweptHeap.Proofs.HeapSystem.Moves

/-!
# Callers that share a record

However many allocators attach a record to an object at the same time, the object gets one record,
and all of them return it. The records that the others made for nothing are left to the sweep. Flags
are only raised, so the record of the object has a finalizer if one call asked for it.
-/

namespace SweptHeap

namespace RecordRace

variable {ρ : Type} {c : RecordRace ρ} {m₀ : Memory} {x : Caller} {i j : Nat}

/-! ### Progress -/

/-- How many steps the caller has still to do at most. -/
def left (c : RecordRace ρ) (x : Caller) : Nat := 4 * c.heap.records.unswept.size + x.stage.rank

theorem getElem?_act (hget : c.callers[i]? = some x) (policy : Policy ρ) (j : Nat) :
    (c.act policy j).callers[i]? =
      if i = j then some (x.act policy c.object c.heap).1 else some x := by
  rw [act]
  split_ifs with hij
  · subst hij
    obtain ⟨hlt, -⟩ := List.getElem?_eq_some_iff.mp hget
    simp only [hget, List.getElem?_set_self hlt]
  · cases hj : c.callers[j]? with
    | none => exact hget
    | some y =>
      simp only [List.getElem?_set_ne (Ne.symm hij)]
      exact hget

theorem Kept.unswept_act (hc : c.Kept m₀) (policy : Policy ρ) (j : Nat) :
    (c.act policy j).heap.records.unswept.size ≤ c.heap.records.unswept.size := by
  rw [RecordRace.act]
  cases hget : c.callers[j]? with
  | none => exact Nat.le_refl _
  | some x => exact (hc.works (List.mem_of_getElem? hget) policy).deals.unswept

/-- At each of its turns a caller comes closer to its end, and at those of others it never falls
back. -/
theorem Kept.left_act (hc : c.Kept m₀) (hget : c.callers[i]? = some x)
    (policy : Policy ρ) (j : Nat) :
    ∃ x', (c.act policy j).callers[i]? = some x' ∧ (x'.stage.result ≠ none ∨
      x.stage.result = none ∧ [j].count i + (c.act policy j).left x' ≤ c.left x) := by
  rw [getElem?_act hget]
  by_cases hij : i = j
  · subst hij
    have hw := hc.works (List.mem_of_getElem? hget) policy
    have hheap : (c.act policy i).heap = (x.act policy c.object c.heap).2 := by
      rw [RecordRace.act, hget]
    rw [if_pos rfl, List.count_singleton_self]
    refine ⟨_, rfl, ?_⟩
    by_cases hresult : x.stage.result = none
    · have hless := hw.less hresult
      refine .inr ⟨hresult, ?_⟩
      rw [left, left, hheap]
      omega
    · rw [hw.deed.eq_of_result hresult]
      exact .inl hresult
  · have hunswept := hc.unswept_act policy j
    have hcount : [j].count i = 0 := List.count_eq_zero.mpr (by simpa using hij)
    rw [if_neg hij]
    refine ⟨x, rfl, ?_⟩
    by_cases hresult : x.stage.result = none
    · refine .inr ⟨hresult, ?_⟩
      rw [left, left]
      omega
    · exact .inl hresult

theorem Kept.left_run (hc : c.Kept m₀) (hget : c.callers[i]? = some x) (policy : Policy ρ)
    (turns : List Nat) : ∃ x', (c.run policy turns).callers[i]? = some x' ∧
      (x'.stage.result ≠ none ∨ turns.count i + (c.run policy turns).left x' ≤ c.left x) := by
  induction turns using List.reverseRecOn with
  | nil => exact ⟨x, hget, .inr (by simp [RecordRace.run])⟩
  | append_singleton turns j ih =>
    obtain ⟨x₁, hget₁, hbefore⟩ := ih
    obtain ⟨x', hget', hafter⟩ := (hc.run policy turns).left_act hget₁ policy j
    have hrun : c.run policy (turns ++ [j]) = (c.run policy turns).act policy j := by
      rw [RecordRace.run, List.foldl_append]
      rfl
    rw [hrun, List.count_append]
    refine ⟨x', hget', ?_⟩
    rcases hafter with hreturned | ⟨hnone, hle⟩
    · exact .inl hreturned
    · have hle₁ := hbefore.resolve_left (not_not.mpr hnone)
      exact .inr (by omega)

/-- A caller returns once it has had its turns. -/
theorem Kept.returned_run (hc : c.Kept m₀) (hget : c.callers[i]? = some x) (policy : Policy ρ)
    {turns : List Nat} (hturns : c.left x ≤ turns.count i) :
    ∃ w, (c.run policy turns).results[i]? = some (some w) := by
  obtain ⟨x', hget', hleft⟩ := hc.left_run hget policy turns
  have hresult : x'.stage.result ≠ none := by
    rcases hleft with hresult | hle
    · exact hresult
    · intro hnone
      -- One more turn would take it below nothing.
      have hless := ((hc.run policy turns).works (List.mem_of_getElem? hget') policy).less hnone
      rw [left] at hle
      omega
  obtain ⟨w, hw⟩ := Option.ne_none_iff_exists'.mp hresult
  exact ⟨w, by rw [results, List.getElem?_map, hget', Option.map_some, hw]⟩

/-- Nobody changes what it asks for. -/
theorem wishes_run (policy : Policy ρ) (turns : List Nat) (c : RecordRace ρ) :
    (c.run policy turns).callers.map (·.withFinalizer) = c.callers.map (·.withFinalizer) := by
  induction turns generalizing c with
  | nil => rfl
  | cons i turns ih =>
    refine (ih (c.act policy i)).trans ?_
    rw [act]
    cases hget : c.callers[i]? with
    | none => rfl
    | some x =>
      obtain ⟨xs, ys, hcallers, hset⟩ := split_at hget
      dsimp only
      rw [hset, hcallers]
      simp [Caller.act]

/-! ### The start -/

section

variable {o : HeapSystem ρ} {object : BlockRef} {calls : List (Allocator × Bool)}

theorem mem_ownPage {epoch : Nat} {a : Allocator} {id : PageId} :
    id ∈ a.ownPage epoch ↔ a.epoch = epoch ∧ a.cached .records = some id := by
  have hcached : a.cached .records = a.records := rfl
  rw [Allocator.ownPage, hcached]
  split_ifs with he
  · simp [he]
  · simp [he]

/-- Allocators keep different pages of records, which are in use. -/
theorem claimed_new (ho : o.Sound) (hcalls : (calls.map Prod.fst).Subperm o.allocators) :
    (calls.flatMap fun call => call.1.ownPage o.heap.epoch).Nodup ∧
      ∀ call ∈ calls, ∀ id ∈ call.1.ownPage o.heap.epoch, id ∈ o.heap.records.used.toList := by
  obtain ⟨l, hperm, hsub⟩ := hcalls
  have hapart : (calls.map Prod.fst).Pairwise (Allocator.Apart o.heap) :=
    (hperm.pairwise_iff Allocator.Apart.symm).mp (ho.apart.sublist hsub)
  refine ⟨List.nodup_flatMap.mpr ⟨fun call _ => ?_, (List.pairwise_map.mp hapart).imp ?_⟩, ?_⟩
  · rw [Allocator.ownPage]
    split_ifs
    · cases call.1.records <;> simp
    · exact List.nodup_nil
  · intro call call' hapart id hid hid'
    obtain ⟨he, hcached⟩ := mem_ownPage.mp hid
    obtain ⟨he', hcached'⟩ := mem_ownPage.mp hid'
    exact hapart he he' _ _ id hcached hcached'
  · intro call hcall id hid
    obtain ⟨he, hcached⟩ := mem_ownPage.mp hid
    have hmem : call.1 ∈ o.allocators :=
      hsub.subset (hperm.symm.subset (List.mem_map_of_mem hcall))
    exact (ho.valid _ hmem).owns he _ id hcached

theorem hosts_of_holds {h : Heap ρ} (hs : h.Sound) (hheld : h.Holds (.block object))
    (hheader : 2 ≤ (h.content object).length) : h.arena.memory.Hosts object := by
  obtain ⟨p, hp, hkind, hindex⟩ := Heap.holds_block.mp hheld
  have hle := (hs.page_sound hp).block_le hkind hindex
  rw [Heap.length_content hp] at hheader
  exact ⟨p, hp, hkind, by omega⟩

theorem stocked_new (ho : o.Sound) (hhosts : o.heap.arena.memory.Hosts object)
    (hcalls : (calls.map Prod.fst).Subperm o.allocators) : Stocked (new o.heap object calls) := by
  have hgood : (o.heap.depot .records).Good .records :=
    ho.heap.good _ (Heap.mem_allRequests.mpr (.inr (.inr (.inr rfl))))
  have hplaces : (new o.heap object calls).places = o.heap.records.pages.toList := by
    simp [places, new, List.flatMap_map, Stage.held]
  have hclaims : (new o.heap object calls).callers.flatMap (·.claims o.heap.epoch) =
      calls.flatMap fun call => call.1.ownPage o.heap.epoch := by
    simp [new, List.flatMap_map, Caller.claims, Stage.claims, Stage.given]
  obtain ⟨hnodup, hused⟩ := claimed_new ho hcalls
  refine ⟨hplaces ▸ hgood.nodup, hplaces ▸ hgood.mapped, hgood.vacant, fun id => ?_,
    fun x hx => ?_, hhosts⟩
  · refine (congrArg (List.count id) hclaims).trans_le ?_
    by_cases hid : id ∈ calls.flatMap fun call => call.1.ownPage o.heap.epoch
    · obtain ⟨call, hcall, hmem⟩ := List.mem_flatMap.mp hid
      exact (List.nodup_iff_count_le_one.mp hnodup id).trans
        (List.count_pos_iff.mpr (hused call hcall id hmem))
    · rw [List.count_eq_zero_of_not_mem hid]
      exact Nat.zero_le _
  · obtain ⟨call, -, rfl⟩ := List.mem_map.mp hx
    exact ⟨trivial, fun h => by cases h⟩

theorem kept_new (ho : o.Sound) (hhosts : o.heap.arena.memory.Hosts object)
    (hbare : o.heap.arena.memory.recordOf object = none)
    (hcalls : (calls.map Prod.fst).Subperm o.allocators) :
    Kept o.heap.arena.memory (new o.heap object calls) := by
  have htaken : (new o.heap object calls).taken = [] := by simp [taken, new, List.flatMap_map]
  refine ⟨stocked_new ho hhosts hcalls,
    by simp [htaken], by simp [htaken], fun x hx => ?_, fun w hw => ?_,
    fun r hr _ => hr⟩
  · obtain ⟨call, -, rfl⟩ := List.mem_map.mp hx
    rfl
  · cases hbare.symm.trans hw

end

/-! ### The outcome -/

/-- The object has the record `w`, and all calls have returned it. -/
structure Shares (calls : List (Allocator × Bool)) (w : BlockRef) (c : RecordRace ρ) : Prop where
  returned : ∀ result ∈ c.results, result = some w
  linked : c.heap.arena.memory.recordOf c.object = some w
  attached : c.heap.arena.memory.Attaches c.object w (∃ call ∈ calls, call.2 = true)
  discarded : ∀ r ∈ c.taken, r ≠ w → c.heap.arena.memory.Discards r

/-- The calls come to an end and to one record, whatever the turns. -/
structure Concludes (h : Heap ρ) (calls : List (Allocator × Bool)) (turns : List Nat)
    (c : RecordRace ρ) : Prop where
  length_eq : c.results.length = calls.length
  prompt : ∀ i < calls.length, 4 * h.records.unswept.size + 14 ≤ turns.count i →
    ∃ w, c.results[i]? = some (some w)
  agreed : ∀ v w, some v ∈ c.results → some w ∈ c.results → v = w
  /-- All records that there are now and were not at the start were made by the calls. -/
  known : ∀ r, h.record? r = none → c.heap.record? r ≠ none → r ∈ c.taken
  shares : calls ≠ [] → none ∉ c.results → ∃ w, Shares calls w c

/-- When all have had their turns, all have returned. -/
theorem Concludes.returned {h : Heap ρ} {calls : List (Allocator × Bool)} {turns : List Nat}
    (hc : Concludes h calls turns c)
    (hturns : ∀ i < calls.length, 4 * h.records.unswept.size + 14 ≤ turns.count i) :
    none ∉ c.results := by
  intro hmem
  obtain ⟨i, hi, hnone⟩ := List.getElem_of_mem hmem
  have hlt : i < calls.length := hc.length_eq ▸ hi
  obtain ⟨w, hw⟩ := hc.prompt i hlt (hturns i hlt)
  rw [List.getElem?_eq_getElem hi, hnone] at hw
  cases hw

section

variable {calls : List (Allocator × Bool)} {w : BlockRef}

/-- Whoever returned a record returned the one that is linked. -/
theorem Kept.linked_of_mem (hc : c.Kept m₀) (hw : some w ∈ c.results) :
    c.heap.arena.memory.recordOf c.object = some w := by
  obtain ⟨x, hx, hresult⟩ := List.mem_map.mp hw
  exact hc.linked_of_result hx hresult

/-- When all calls have returned, their flags are in the record. -/
theorem asked_iff (hwishes : c.callers.map (·.withFinalizer) = calls.map Prod.snd)
    (hreturned : ∀ result ∈ c.results, result = some w) :
    (∃ x ∈ c.callers, x.stage.result = some w ∧ x.withFinalizer = true) ↔
      ∃ call ∈ calls, call.2 = true := by
  calc (∃ x ∈ c.callers, x.stage.result = some w ∧ x.withFinalizer = true)
    _ ↔ ∃ x ∈ c.callers, x.withFinalizer = true :=
      exists_congr fun x => and_congr_right fun hx =>
        and_iff_right (hreturned _ (List.mem_map_of_mem hx))
    _ ↔ true ∈ c.callers.map (·.withFinalizer) := List.mem_map.symm
    _ ↔ true ∈ calls.map Prod.snd := by rw [hwishes]
    _ ↔ ∃ call ∈ calls, call.2 = true := List.mem_map

theorem Kept.shares (hc : c.Kept m₀)
    (hwishes : c.callers.map (·.withFinalizer) = calls.map Prod.snd) (hcalls : calls ≠ [])
    (hall : none ∉ c.results) : ∃ w, Shares calls w c := by
  have hsome {result : Option BlockRef} (hmem : result ∈ c.results) : ∃ w, result = some w :=
    Option.ne_none_iff_exists'.mp fun he => hall (he ▸ hmem)
  obtain ⟨x, hx⟩ : ∃ x, x ∈ c.callers := by
    refine List.exists_mem_of_ne_nil _ fun hnil => hcalls ?_
    simpa [hnil] using hwishes.symm
  obtain ⟨w, hw⟩ := hsome (List.mem_map_of_mem hx)
  have hlink := hc.linked_of_result hx hw
  have hreturned : ∀ result ∈ c.results, result = some w := by
    intro result hmem
    obtain ⟨v, rfl⟩ := hsome hmem
    exact (hc.linked_of_mem hmem).symm.trans hlink
  refine ⟨w, hreturned, hlink, ?_, fun r hr hne => ?_⟩
  · rw [← asked_iff hwishes hreturned]
    exact (hc.linked w hlink).2
  · obtain ⟨y, hy, hmem⟩ := List.mem_flatMap.mp hr
    exact hc.discards_of_result hy (hreturned _ (List.mem_map_of_mem hy)) hmem hne

/-- However many allocators attach a record to an object that has none, whatever they ask for and
however their steps interleave, each call returns, all return the same record, and it is what they
asked for. -/
theorem record_is_shared {o : HeapSystem ρ} (ho : o.Reached) {object : BlockRef}
    (hheld : o.heap.Holds (.block object)) (hheader : 2 ≤ (o.heap.content object).length)
    (hbare : o.heap.arena.memory.recordOf object = none)
    (hcalls : (calls.map Prod.fst).Subperm o.allocators) (policy : Policy (Diary ρ))
    (turns : List Nat) :
    Concludes o.heap calls turns ((new o.heap object calls).run policy turns) := by
  have hstart := kept_new ho.sound (hosts_of_holds ho.sound.heap hheld hheader) hbare hcalls
  have hc := hstart.run policy turns
  have hwishes : ((new o.heap object calls).run policy turns).callers.map (·.withFinalizer) =
      calls.map Prod.snd := by
    rw [wishes_run]
    simp [new]
  refine ⟨by simpa [results] using congrArg List.length hwishes, fun i hi hturns => ?_,
    fun v w hv hw => ?_, fun r hr hrecord => ?_, fun hne hall => ?_⟩
  · have hget : (new o.heap object calls).callers[i]? =
        some { allocator := calls[i].1, withFinalizer := calls[i].2 } := by
      simp [new, hi]
    exact hstart.returned_run hget policy hturns
  · exact Option.some.inj ((hc.linked_of_mem hv).symm.trans (hc.linked_of_mem hw))
  · by_contra hmem
    exact hrecord (hc.known r hr hmem)
  · exact hc.shares hwishes hne hall

/-- Two allocators take turns, and only the first one asks for a finalizer. -/
theorem record_is_shared_pair :
    let o := HeapSystem.run (Policy.byMark (ρ := Unit)) [.enlist, .enlist, .createObject 0 16]
      (HeapSystem.new ())
    let calls := o.allocators.zip [true, false]
    o.Reached ∧ o.heap.Holds (.block ⟨0, 0⟩) ∧ 2 ≤ (o.heap.content ⟨0, 0⟩).length ∧
      o.heap.arena.memory.recordOf ⟨0, 0⟩ = none ∧ calls.length = 2 ∧
      (calls.map Prod.fst).Subperm o.allocators ∧
      ∃ w, Shares calls w
        ((new o.heap ⟨0, 0⟩ calls).run .byMark (List.replicate 14 [0, 1]).flatten) := by
  intro o calls
  have hreached : o.Reached := by
    have hone : HeapSystem.Reached _ :=
      .step (Policy.byMark (ρ := Unit)) .enlist (.start ()) trivial
    have htwo : HeapSystem.Reached _ := .step (Policy.byMark (ρ := Unit)) .enlist hone trivial
    exact .step (Policy.byMark (ρ := Unit)) (.createObject 0 16) htwo Nat.zero_lt_two
  have hobject : Tenant.block ⟨0, 0⟩ ∈ o.heap.tenantsOn 0 ∧ 2 ≤ (o.heap.content ⟨0, 0⟩).length ∧
      o.heap.arena.memory.recordOf ⟨0, 0⟩ = none ∧ o.allocators.length = 2 ∧
      o.heap.records.unswept.size = 0 := by
    decide +kernel
  obtain ⟨hheld, hheader, hbare, hallocators, hunswept⟩ := hobject
  have hlength : calls.length = 2 := by simp [calls, hallocators]
  have hcalls : (calls.map Prod.fst).Subperm o.allocators := by
    rw [List.map_fst_zip (by simp [hallocators])]
  clear_value calls o
  have hdone := record_is_shared hreached hheld hheader hbare hcalls .byMark
    (List.replicate 14 [0, 1]).flatten
  refine ⟨hreached, hheld, hheader, hbare, hlength, hcalls,
    hdone.shares (List.ne_nil_of_length_pos (by omega)) (hdone.returned fun i hi => ?_)⟩
  rw [hlength] at hi
  rw [hunswept]
  interval_cases i <;> decide

end

end RecordRace

end SweptHeap
