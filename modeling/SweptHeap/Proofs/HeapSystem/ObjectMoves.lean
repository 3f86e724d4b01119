import Mathlib
import SweptHeap.Proofs.HeapSystem.ByMark
import SweptHeap.Proofs.HeapSystem.Outcomes

/-!
# The lives of objects

In a civil heap where sweeps go by marks, a move does one of a few things to an object, and the
diary tells which: the object is made, it gets a record, its record gets a finalizer, its finalizer
has run, or a sweep spares or reclaims it.
-/

namespace SweptHeap.HeapSystem

variable {ρ : Type} {o o' : HeapSystem ρ} {h h' : Heap (Diary ρ)} {b : BlockRef} {x y : Object}

/-- What happens to the block at `b`, and what the diary says of it. -/
inductive Happens (b : BlockRef) (h h' : Heap (Diary ρ)) : List Note → Prop
  | absent (before : ¬h.Holds (.block b)) (after : ¬h'.Holds (.block b)) : Happens b h h' []
  | keeps {x y : Object} (before : h.Depicts b x) (after : h'.Depicts b y)
      (record_eq : y.record = x.record) : Happens b h h' []
  | enrolled {x : Object} {r : BlockRef} {withFinalizer : Bool} (before : h.Depicts b x)
      (bare : x.record = none)
      (after : h'.Depicts b { x with record := some (r, ⟨some b, .initial withFinalizer⟩) }) :
      Happens b h h' []
  | raised {x : Object} {withFinalizer : Bool} (before : h.Depicts b x)
      (after : h'.Depicts b (x.raise (.initial withFinalizer))) : Happens b h h' []
  | born {x : Object} (before : ¬h.Holds (.block b)) (after : h'.Depicts b x)
      (bare : x.record = none) : Happens b h h' [.born (.block b)]
  | told {x : Object} (before : h.Depicts b x) (after : h'.Depicts b (x.raise .finalized)) :
      Happens b h h' [.told b]
  | reclaimed {x : Object} (before : h.Depicts b x)
      (dead : (x.question b).verdictByMark.fate = .dead) (after : ¬h'.Holds (.block b)) :
      Happens b h h' [.judgment (x.question b)]
  | spared {x : Object} (before : h.Depicts b x)
      (spared : (x.question b).verdictByMark.fate ≠ .dead) (after : h'.Depicts b (x.spared b)) :
      Happens b h h' [.judgment (x.question b)]

/-- Those whose finalizers have run. -/
def tellings (notes : List Note) : List BlockRef :=
  notes.filterMap fun
    | .told b => some b
    | _ => none

/-- The diary goes on with `notes`. -/
structure Tells (notes : List Note) (o o' : HeapSystem ρ) : Prop where
  notes_eq : o'.notes = o.notes ++ notes
  told_eq : o'.told = o.told ++ tellings notes
  /-- Records are never sent to a finalizer. -/
  records : ∀ r record, .judgedRecord r record .finalize ∉ notes
  happens : ∀ b, Happens b o.heap o'.heap (story b notes)

theorem depicts_note {n : Note} (hx : h.Depicts b x) : (h.note n).Depicts b x :=
  hx.congr hx.held rfl fun _ _ _ => rfl

/-- Nobody comes or goes, and the objects stay as they are. -/
theorem happens_of_depicts (hc : h.Civil) (hholds : h'.Holds (.block b) → h.Holds (.block b))
    (hdepicts : ∀ x, h.Depicts b x → h'.Depicts b x) : Happens b h h' [] := by
  by_cases hb : h.Holds (.block b)
  · obtain ⟨x, hx⟩ := hc b hb
    exact .keeps hx (hdepicts x hx) rfl
  · exact .absent hb fun hb' => hb (hholds hb')

theorem Happens.depicts {notes : List Note} (hh : Happens b h h' notes) (hb : h'.Holds (.block b)) :
    ∃ x, h'.Depicts b x := by
  cases hh with
  | absent _ after => exact absurd hb after
  | keeps _ after => exact ⟨_, after⟩
  | enrolled _ _ after => exact ⟨_, after⟩
  | raised _ after => exact ⟨_, after⟩
  | born _ after => exact ⟨_, after⟩
  | told _ after => exact ⟨_, after⟩
  | reclaimed _ _ after => exact absurd hb after
  | spared _ _ after => exact ⟨_, after⟩

theorem tells_tidy (ht : Heap.Tidy (Policy.byMark (ρ := ρ)).noting o.heap h) (hs : o.heap.Sound)
    (hc : o.heap.Civil) : ∃ notes, Tells notes o { o with heap := h } := by
  rcases ht.quiet_or_collects hs hc with hq | ⟨id, hcollects⟩
  · refine ⟨[], ?_, (List.append_nil _).symm, by simp, fun b => ?_⟩
    · exact (congrArg Diary.notes hq.memo_eq).trans (List.append_nil _).symm
    · exact happens_of_depicts hc (hq.holds_iff _).mp fun x hx => hq.depicts hx
  · obtain ⟨notes, hnotes, hbyMark, hself, hother⟩ := hcollects.notes
    have htellings : tellings notes = [] := List.filterMap_eq_nil_iff.mpr fun n hn => by
      cases hbyMark n hn <;> rfl
    refine ⟨notes, hnotes, ?_, fun r record hn => ?_, fun b => ?_⟩
    · rw [htellings, List.append_nil]
    · exact (hbyMark _ hn).fate_ne_finalize rfl
    by_cases hb : o.heap.Holds (.block b) ∧ b.page = id
    · obtain ⟨x, hx⟩ := hc b hb.1
      rw [hself b hb.1 hb.2, hx.question_eq]
      by_cases hdead : (x.question b).verdictByMark.fate = .dead
      · exact .reclaimed hx hdead (hcollects.dead b x hx hb.2 hdead)
      · exact .spared hx hdead (hcollects.spared b x hx hb.2 hdead)
    · rw [hother b hb]
      exact happens_of_depicts hc (hcollects.old b) fun x hx =>
        hcollects.other b x hx fun he => hb ⟨hx.held, he⟩

theorem happens_block {n : Nat} {b₀ : BlockRef} (hn : 2 ≤ n)
    (hgets : Heap.Gets (Page.Gives · n) h b₀ h') (hs : h.Sound) (hc : h.Civil) (b : BlockRef) :
    Happens b h (h'.note (.born (.block b₀))) (story b [.born (.block b₀)]) := by
  obtain ⟨hw, hcontent⟩ := hgets.welcomes_block hs (by omega)
  by_cases hb : b = b₀
  · subst hb
    rw [story_of_eq rfl]
    exact .born hw.fresh
      (depicts_note (Heap.depicts_new ((hw.holds_iff _).mpr (.inl rfl)) hn hcontent)) rfl
  · rw [story_of_ne (n := .born (.block b₀)) fun he => hb (Option.some.inj he).symm]
    refine happens_of_depicts hc (fun hheld => ?_) fun x hx => depicts_note (hw.depicts hs hx)
    exact ((hw.holds_iff _).mp hheld).resolve_left fun he => hb (Tenant.block.inj he)

/-- The object has its record. -/
theorem depicts_enrolled {object r : BlockRef} {withFinalizer : Bool} {h₁ : Heap (Diary ρ)}
    (hx : h.Depicts object x) (hheader : 2 ≤ (h.content object).length)
    (hgets : Heap.Gets (Page.Enrolls · ⟨some object, .initial withFinalizer⟩) h r h₁)
    (hs : h.Sound) : ((h₁.write object.linkCell (.link r)).note (.born (.record r))).Depicts object
      { x with record := some (r, ⟨some object, .initial withFinalizer⟩) } := by
  obtain ⟨-, hwrites⟩ := record_linked hs hx.held hheader hgets
  obtain ⟨hw, hrecord⟩ := hgets.welcomes_record hs
  exact depicts_note
    (hwrites.depicts_link hrecord rfl (Flags.not_sweepable_initial _) (hw.depicts hs hx))

theorem happens_record {object r : BlockRef} {withFinalizer : Bool} {h₁ : Heap (Diary ρ)}
    (hheld : h.Holds (.block object)) (hheader : 2 ≤ (h.content object).length)
    (hbare : h.arena.memory.recordOf object = none)
    (hgets : Heap.Gets (Page.Enrolls · ⟨some object, .initial withFinalizer⟩) h r h₁)
    (hs : h.Sound) (hc : h.Civil) (b : BlockRef) :
    Happens b h ((h₁.write object.linkCell (.link r)).note (.born (.record r))) [] := by
  by_cases hb : b = object
  · subst hb
    obtain ⟨x, hx⟩ := hc b hheld
    have hnone : x.record = none := by
      rw [hx.recordOf_eq] at hbare
      exact Option.map_eq_none_iff.mp hbare
    exact .enrolled hx hnone (depicts_enrolled hx hheader hgets hs)
  · obtain ⟨-, hwrites⟩ := record_linked hs hheld hheader hgets
    obtain ⟨hw, -⟩ := hgets.welcomes_record hs
    refine happens_of_depicts hc (fun hheld' => ?_) fun x hx =>
      depicts_note (hwrites.depicts_other hb (hw.depicts hs hx))
    exact ((hw.holds_iff _).mp ((hwrites.holds_iff _).mp hheld')).resolve_left fun he => by cases he

theorem happens_raise {object r : BlockRef} {withFinalizer : Bool}
    (hheld : h.Holds (.block object)) (hlinked : h.arena.memory.recordOf object = some r)
    (hc : h.Civil) (b : BlockRef) :
    Happens b h (h.amend r (·.raise (.initial withFinalizer))) [] := by
  have hamends := h.amend_spec r (·.raise (.initial withFinalizer))
  obtain ⟨y, hy⟩ := hc object hheld
  rw [hy.recordOf_eq] at hlinked
  by_cases hb : b = object
  · subst hb
    exact .raised hy (hamends.depicts_self hy hlinked (Flags.not_sweepable_initial _))
  · refine happens_of_depicts hc (hamends.holds_iff _).mp fun x hx => hamends.depicts_other hx ?_
    intro he
    obtain ⟨⟨r₁, record⟩, hxr, rfl⟩ := Option.map_eq_some_iff.mp he
    obtain ⟨⟨r₂, record'⟩, hyr, hsame⟩ := Option.map_eq_some_iff.mp hlinked
    obtain rfl : r₂ = r₁ := hsame
    exact hb (hx.owner hy hxr hyr)

theorem happens_told {b₀ : BlockRef} (hheld : h.Holds (.block b₀)) (hc : h.Civil) (b : BlockRef) :
    Happens b h ({ h with arena := h.arena.noteFinalized (Policy.byMark (ρ := ρ)).noting b₀ }.note
      (.told b₀)) (story b [.told b₀]) := by
  obtain ⟨y, hy⟩ := hc b₀ hheld
  rcases noteFinalized_cases (Policy.byMark (ρ := ρ)).noting b₀ h with
    ⟨he, hnone⟩ | ⟨r, hlinked, he⟩
  · have hbare : y.record = none := by
      rcases hnone with hnone | hflags
      · rw [hy.recordOf_eq] at hnone
        exact Option.map_eq_none_iff.mp hnone
      · cases hflags
    rw [he]
    by_cases hb : b = b₀
    · subst hb
      have hraise : y.raise .finalized = y := by
        rw [Object.raise, hbare, Option.map_none, ← hbare]
      rw [story_of_eq rfl]
      exact .told hy (depicts_note (hraise.symm ▸ hy))
    · rw [story_of_ne (n := .told b₀) fun he => hb (Option.some.inj he).symm]
      exact happens_of_depicts hc id fun x hx => depicts_note hx
  · rw [he]
    have hamends := h.amend_spec r (·.raise .finalized)
    rw [hy.recordOf_eq] at hlinked
    by_cases hb : b = b₀
    · subst hb
      rw [story_of_eq rfl]
      exact .told hy (depicts_note (hamends.depicts_self hy hlinked (by decide)))
    · rw [story_of_ne (n := .told b₀) fun he => hb (Option.some.inj he).symm]
      refine happens_of_depicts hc (hamends.holds_iff _).mp fun x hx =>
        depicts_note (hamends.depicts_other hx ?_)
      intro he
      obtain ⟨⟨r₁, record⟩, hxr, rfl⟩ := Option.map_eq_some_iff.mp he
      obtain ⟨⟨r₂, record'⟩, hyr, hsame⟩ := Option.map_eq_some_iff.mp hlinked
      obtain rfl : r₂ = r₁ := hsame
      exact hb (hx.owner hy hxr hyr)

/-- A move in a civil heap tells each block's story on. -/
theorem Move.tells (hm : Move (Policy.byMark (ρ := ρ)) True o o') (hs : o.heap.Sound)
    (hc : o.heap.Civil) : ∃ notes, Tells notes o o' := by
  have hquiet {h : Heap (Diary ρ)} (hmemory : h.arena.memory = o.heap.arena.memory) (b : BlockRef) :
      Happens b o.heap h [] := by
    have hpages (j : PageId) : h.arena.memory.page? j = o.heap.arena.memory.page? j := by
      rw [hmemory]
    have htenants (t : Tenant) : h.Holds t ↔ o.heap.Holds t := by
      rw [Heap.Holds, Heap.Holds, Heap.tenantsOn, Heap.tenantsOn, hpages]
    refine happens_of_depicts hc (htenants _).mp fun x hx =>
      hx.congr ((htenants _).mpr hx.held) ?_ ?_
    · rw [Heap.content, Heap.content, hpages]
    · intro r _ _
      rw [Heap.record?, Heap.record?, hmemory]
  have hsilent {o' : HeapSystem ρ} (hnotes : o'.notes = o.notes) (htold : o'.told = o.told)
      (hhappens : ∀ b, Happens b o.heap o'.heap []) : ∃ notes, Tells notes o o' :=
    ⟨[], hnotes.trans (List.append_nil _).symm, htold.trans (List.append_nil _).symm,
      by simp, hhappens⟩
  cases hm with
  | tidy hstep => exact tells_tidy hstep hs hc
  | @block n b h hpos hobject hgets =>
    obtain ⟨hw, -⟩ := hgets.welcomes_block hs hpos
    exact ⟨[.born (.block b)], congrArg (fun memo => memo.notes ++ _) hw.memo_eq,
      (List.append_nil _).symm, by simp, happens_block (hobject trivial) hgets hs hc⟩
  | @write b₀ k c hheld hinside hbehind =>
    have hwrites := Heap.write_spec hs hheld hinside c
    refine hsilent (congrArg Diary.notes hwrites.memo_eq) rfl fun b => ?_
    by_cases hb : b = b₀
    · subst hb
      obtain ⟨x, hx⟩ := hc b hheld
      obtain ⟨y, hy, hrecord⟩ := hwrites.depicts_self (hbehind trivial) hx
      exact .keeps hx hy hrecord
    · exact happens_of_depicts hc (hwrites.holds_iff _).mp fun x hx => hwrites.depicts_other hb hx
  | @record object r withFinalizer h₁ hheld hheader hbare hgets =>
    obtain ⟨hw, -⟩ := hgets.welcomes_record hs
    obtain ⟨-, hwrites⟩ := record_linked hs hheld hheader hgets
    have hmemo := hwrites.memo_eq.trans hw.memo_eq
    exact ⟨[.born (.record r)], congrArg (fun memo => memo.notes ++ [.born (.record r)]) hmemo,
      (List.append_nil _).symm, by simp, happens_record hheld hheader hbare hgets hs hc⟩
  | raise hheld hheader hlinked => exact hsilent rfl rfl (happens_raise hheld hlinked hc)
  | amend hrude => exact absurd trivial hrude
  | @tell b₀ hheld =>
    exact ⟨[.told b₀], (keeps_tell b₀).notes_eq, rfl, by simp, happens_told (hheld trivial) hc⟩
  | receive => exact hsilent rfl rfl (hquiet rfl)
  | submit => exact hsilent rfl rfl (hquiet rfl)
  | extract => exact hsilent rfl rfl (hquiet rfl)
  | allocators => exact hsilent rfl rfl (hquiet rfl)

theorem Move.civil (hm : Move (Policy.byMark (ρ := ρ)) True o o') (hs : o.heap.Sound)
    (hc : o.heap.Civil) : o'.heap.Civil := by
  obtain ⟨notes, htells⟩ := hm.tells hs hc
  exact fun b hb => (htells.happens b).depicts hb

theorem Moves.civil (hm : Moves (Policy.byMark (ρ := ρ)) True o o') (hs : o.heap.Sound)
    (hc : o.heap.Civil) : o'.heap.Civil := by
  induction hm with
  | refl => exact hc
  | tail hmoves hstep ih => exact hstep.civil (Moves.sound hmoves hs) ih

theorem civil_prepared (hp : Heap.Prepared h h') (hc : h.Civil) : h'.Civil := by
  intro b hb
  rw [Heap.Holds, hp.tenants_eq] at hb
  obtain ⟨x, hx⟩ := hc b hb
  exact ⟨x, hp.depicts hx⟩

theorem not_holds_new (memo : ρ) (t : Tenant) : ¬(new memo).heap.Holds t := by
  intro ht
  obtain ⟨p, hp, -⟩ := Heap.holds_iff.mp ht
  exact absurd (Memory.lt_of_page? hp) (Nat.not_lt_zero _)

end SweptHeap.HeapSystem
