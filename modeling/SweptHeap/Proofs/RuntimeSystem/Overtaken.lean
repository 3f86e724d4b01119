import Mathlib
import SweptHeap.Proofs.RuntimeSystem.Alone
import SweptHeap.Proofs.FinalizerHandoff
import SweptHeap.Proofs.HeapSystem.OldObjects

/-!
# A mutator that is overtaken

A mutator has got its page by a sweep of its own and has not yet handed over what the sweep set
aside. Nobody waits for it: the collector can end its cycle, and the worker can serve the epoch. So
an epoch can count as finalized while an object that was sent to its finalizer in that cycle has not
had its treatment.
-/

namespace SweptHeap

variable {ρ : Type} {b : BlockRef} {x : Object} {notes : List Note} {h h' : Heap (Diary ρ)}

/-! ### Answers by marks -/

/-- By marks, the questions about a block tell how often it was sent to its finalizer. -/
theorem count_finalizing_byMark (hn : ∀ n ∈ notes, n.ByMark) (b : BlockRef) :
    (finalizing notes).count b =
      (questionsOn b notes).countP (·.verdictByMark.fate = .finalize) := by
  have hrecords : ∀ r record, .judgedRecord r record .finalize ∉ notes := fun r record hr =>
    (hn _ hr).fate_ne_finalize rfl
  rw [HeapSystem.count_finalizing hrecords, questionsOn, List.countP_filterMap]
  refine List.countP_congr fun n hstory => ?_
  cases hn n (mem_story.mp hstory).1 with
  | object q => simp [Phase.sends, Note.question?, Note.judgment]
  | record r record => cases (mem_story.mp hstory).2

namespace Heap

/-- Housekeeping by marks answers by marks, and makes no page wait. -/
theorem Tidies.byMark (ht : Tidies (Policy.byMark (ρ := ρ)).noting h h')
    (hs : h.Sound) (hc : h.Civil) :
    h'.Civil ∧ (∃ more, h'.notes = h.notes ++ more ∧ ∀ n ∈ more, n.ByMark) ∧
      ∀ id, h'.Waiting id → h.Waiting id := by
  induction ht with
  | refl => exact ⟨hc, ⟨[], (List.append_nil _).symm, nofun⟩, fun _ hw => hw⟩
  | @tail h₁ h₂ htidies hstep ih =>
    obtain ⟨hc₁, ⟨more, hnotes, hbyMark⟩, hwaiting⟩ := ih
    have hs₁ := Tidies.sound htidies hs
    have hm : HeapSystem.Move (Policy.byMark (ρ := ρ)) True { heap := h₁ } { heap := h₂ } :=
      .tidy hstep
    refine ⟨hm.civil hs₁ hc₁, ?_⟩
    rcases hstep.quiet_or_collects hs₁ hc₁ with hq | ⟨id, hcollects⟩
    · exact ⟨⟨more, (congrArg Diary.notes hq.memo_eq).trans hnotes, hbyMark⟩,
        fun j hw => hwaiting j ((hq.waiting_iff j).mp hw)⟩
    · obtain ⟨more', hnotes', hbyMark', -⟩ := hcollects.notes
      refine ⟨⟨more ++ more', by rw [hnotes', hnotes, List.append_assoc], fun n hn => ?_⟩,
        fun j hw => hwaiting j ((hcollects.waiting_iff j).mp hw).1⟩
      exact (List.mem_append.mp hn).elim (hbyMark n) (hbyMark' n)

/-- An object that is due for its finalizer is sent there once by the time that its page has been
swept. -/
theorem Tidies.sent_once (ht : Tidies (Policy.byMark (ρ := ρ)).noting h h')
    (hs : h.Sound) (hc : h.Civil) (hx : h.Depicts b x)
    (hfate : (x.question b).verdictByMark.fate = .finalize) (hwaits : h.Waiting b.page)
    (hswept : ¬h'.Waiting b.page) {sent : List BlockRef}
    (hsent : finalizing h'.notes = finalizing h.notes ++ sent) : sent.count b = 1 := by
  obtain ⟨-, ⟨more, hnotes, hbyMark⟩, -⟩ := Tidies.byMark ht hs hc
  obtain ⟨-, more', hnotes', hstages⟩ : h'.Civil ∧ HeapSystem.Passes b x False False h h' :=
    HeapSystem.passes_tidies ht hs hc
  obtain rfl : more' = more := List.append_cancel_left (hnotes'.symm.trans hnotes)
  have hstage := hstages [] (.start hx hwaits)
  have hasked : questionsOn b more' = [x.question b] := by
    cases hstage with
    | waiting _ hw => exact absurd hw hswept
    | spared _ _ ha => exact ha.question_eq id ▸ ha.questions_eq
    | reclaimed _ ha => exact ha.question_eq id ▸ ha.questions_eq
  rw [hnotes, finalizing_append] at hsent
  rw [← List.append_cancel_left hsent, count_finalizing_byMark hbyMark, hasked]
  simp [hfate]

end Heap

/-- What is not due has had no treatment. -/
theorem FinalizerWorker.Sound.untreated {u : FinalizerWorker ρ} (hu : u.Sound) (hb : b ∉ u.added) :
    ∀ t ∈ Treatment.course b, t ∉ u.treated := by
  intro t ht htreated
  have hmem : t ∈ u.taken.flatMap Treatment.course :=
    hu.treated_eq ▸ List.mem_append_left _ htreated
  obtain ⟨c, hc, htc⟩ := List.mem_flatMap.mp hmem
  obtain rfl : c = b := by
    simp only [Treatment.course, List.mem_cons, List.not_mem_nil, or_false] at ht htc
    rcases ht with rfl | rfl <;> rcases htc with he | he <;> cases he <;> rfl
  exact hb (hu.added_eq ▸ List.mem_append_left _ hc)

namespace RuntimeSystem

/-- The mutator has got its page, and the page that waited last has been swept. -/
theorem leads_swept (finalizer : Finalizer (Diary ρ)) (hs : h'.Sound) {r : Request}
    (hr : r ∈ Heap.allRequests) (hvalid : r.Valid) (hlarge : r.kind ≠ .large)
    {rest : Array PageId} {id : PageId} (hshelf : h'.shelf r = { unswept := rest.push id }) :
    ∃ page queue h'' sent, Heap.Tidies (Policy.byMark (ρ := ρ)).noting h' h'' ∧ ¬h''.Waiting id ∧
      finalizing h''.notes = finalizing h'.notes ++ sent ∧
      Leads .byMark finalizer (called h h' r) (withMutator (called h h' r)
        { place := r, task := .got page, queue := queue } h'' (sent.map (1, ·))) := by
  obtain ⟨page, d, hgot, htidies, -⟩ :=
    Depot.getPage_spec (Policy.byMark (ρ := ρ)).noting (hs.good r hr) hvalid
    (Heap.key_eq_of_mem hr) hlarge h'.epoch
  have hdoes : Task.Does (Policy.byMark (ρ := ρ)).noting (.looking r h'.epoch) .got
      (Depot.getPage _ r h'.epoch)
    (h'.depot r) := Task.does_getPage _
  obtain ⟨t, hcomes, hshows⟩ := hdoes
  rw [hgot] at hcomes hshows
  obtain rfl : t = .got page := hshows
  have hunswept : d.shelf.unswept.toList ⊆ rest.toList :=
    unswept_of_got (congrArg Shelf.ready hshelf) (congrArg Shelf.unswept hshelf) hcomes
  obtain ⟨queue, sent, hnotes, hleads⟩ := @leads_got ρ .byMark finalizer (called h h' r)
    { place := r, task := .looking r h'.epoch } h' hs.size_eq hr _ _ hcomes []
  refine ⟨page, queue, h'.setDepot r d, sent, .of_depot hs.size_eq hr htidies, ?_, hnotes, hleads⟩
  rintro ⟨k, hk, hid⟩
  rw [Heap.shelf_setDepot hs.size_eq hr hk] at hid
  split_ifs at hid with hkr
  · -- No page waits twice.
    have hnodup : (rest.toList ++ [id]).Nodup := by
      simpa [Heap.depot, hshelf, Shelf.toList_pages] using (hs.good r hr).nodup
    exact (List.nodup_append.mp hnodup).2.2 id (hunswept hid) id (List.mem_singleton_self id) rfl
  · -- Nor does it wait on two shelves.
    have hlast : id ∈ (h'.shelf r).unswept.toList := by simp [hshelf]
    obtain ⟨p, hp, hkey, -⟩ := hs.key_of_mem hk (Shelf.mem_pages.mpr (.inr (.inr (.inr hid))))
    obtain ⟨q, hq, hkey', -⟩ := hs.key_of_mem hr (Shelf.mem_pages.mpr (.inr (.inr (.inr hlast))))
    rw [hp] at hq
    exact hkr (by rw [← hkey, ← hkey', Option.some.inj hq])

/-- A mutator sweeps the page of an object that is due for its finalizer. Before it hands over the
object, the epoch counts as finalized. -/
theorem leads_overtaken (finalizer : Finalizer (Diary ρ)) (hs : h.Sound) (hc : h.Civil)
    (hpending : h.pending.toList = []) (hsettled : h.Settled) (hsweepers : h.arena.sweepers = 0)
    (hx : h.Depicts b x) (hfate : (x.question b).verdictByMark.fate = .finalize) {r : Request}
    (hr : r ∈ Heap.allRequests) (hvalid : r.Valid) (hlarge : r.kind ≠ .large) {rest : Array PageId}
    (hlast : (h.shelf r).ready ++ (h.shelf r).used ++ (h.shelf r).empty = rest.push b.page) :
    ∃ e, Leads .byMark finalizer (new h 0) e ∧ e.worker.progress.finalized = 1 ∧
      b ∈ e.answeredIn 1 ∧ ∀ t ∈ Treatment.course b, t ∉ e.worker.treated := by
  obtain ⟨h', hprepare, hprepared⟩ := Heap.prepare_spec hs hsettled
  have hs' := hprepared.sound hs hsettled
  have hc' := HeapSystem.civil_prepared hprepared hc
  have hx' := hprepared.depicts hx
  have hwaits : h'.Waiting b.page := hprepared.waiting hs hs' hsettled hx'.held
  -- The mutator gets its page.
  obtain ⟨page, queue, h₁, sent, htidies, hswept, hsent, hgot⟩ :=
    @leads_swept ρ h h' finalizer hs' r hr hvalid hlarge rest b.page
      (by rw [hprepared.shelf_eq r hr, hlast])
  have hleads : Leads .byMark finalizer (new h 0) _ :=
    (leads_called hprepare (by rwa [Heap.key_eq_of_mem hr])).trans hgot
  have he := hleads.sound (sound_new hpending hsettled hsweepers 0)
  have honce := htidies.sent_once hs' hc' hx' hfate hwaits hswept hsent
  have hqueue : queue.count b = 1 := by
    have hbalance := he.ledger.balance.count_eq b
    simp only [withMutator, called, prepared, begun, new, queues, threads,
      Sweeper.collector] at hbalance
    simpa [hpending, honce, Function.comp_def] using hbalance.symm
  -- The collector and the worker do not wait for it.
  have hs₁ := Heap.Tidies.sound htidies hs'
  have hc₁ := (Heap.Tidies.byMark htidies hs' hc').1
  obtain ⟨e, h₂, sent', hfinalized, htidies', hsent', hanswered, hmutators, hepoch⟩ :=
    leads_finalized .byMark finalizer he hs₁ rfl rfl rfl (by simp [withMutator, Task.isSweeping])
      rfl rfl
  have hswept' : ¬h₂.Waiting b.page :=
    fun hw => hswept ((Heap.Tidies.byMark htidies' hs₁ hc₁).2.2 _ hw)
  have htotal : (sent ++ sent').count b = 1 := by
    refine Heap.Tidies.sent_once (htidies.trans htidies') hs' hc' hx' hfate hwaits hswept' ?_
    rw [← List.append_assoc, ← hsent]
    exact hsent'
  have he' := hfinalized.sound he
  refine ⟨e, hleads.trans hfinalized, hepoch, ?_, he'.served.sound.untreated ?_⟩
  · have hmem : b ∈ sent := List.count_pos_iff.mp (honce ▸ Nat.one_pos)
    simp only [withMutator, called] at hanswered
    simp [answeredIn, hanswered, hmem]
  · -- All that was sent is accounted for, and the mutator still has it.
    have hbalance := he'.ledger.balance.count_eq b
    have hmap : e.answered.map Prod.snd = sent ++ sent' := by
      rw [hanswered]
      simp [withMutator, Function.comp_def]
    have hkept : queue.count b ≤ e.queues.count b := by
      simp only [queues, threads, hmutators, withMutator, List.flatMap_cons, List.flatMap_append,
        List.flatMap_nil, List.count_append]
      omega
    rw [hmap, htotal, List.count_append] at hbalance
    exact List.count_eq_zero.mp (by omega)

end RuntimeSystem

end SweptHeap
