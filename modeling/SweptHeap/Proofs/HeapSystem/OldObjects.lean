import Mathlib
import SweptHeap.Proofs.HeapSystem.Cycle
import SweptHeap.Proofs.HeapSystem.ObjectMoves

/-!
# An old object in a cycle

From the start of a cycle on, an object that was there waits for the sweep of its page, which spares
or reclaims it. While allocators work, nothing happens to it otherwise, except that it may get a
record or its record a finalizer.
-/

namespace SweptHeap

variable {ρ : Type}

/-- The question that was answered. -/
def Note.question? : Note → Option Question
  | judged q _ => some q
  | _ => none

/-- What the policy was asked about one block, question by question. -/
def questionsOn (b : BlockRef) (notes : List Note) : List Question :=
  (story b notes).filterMap Note.question?

@[simp] theorem questionsOn_append (b : BlockRef) (xs ys : List Note) :
    questionsOn b (xs ++ ys) = questionsOn b xs ++ questionsOn b ys := by
  rw [questionsOn, story_append, List.filterMap_append]
  rfl

/-- The operation gives the object a record, or its record a finalizer. -/
def Op.Attaches (b : BlockRef) (op : Op) : Prop :=
  ∃ i withFinalizer, op = .createRecord i b withFinalizer

namespace HeapSystem

variable {b : BlockRef} {x₀ x y : Object} {attached attached' : Prop} {notes more : List Note}
  {h h' h'' : Heap (Diary ρ)} {o : HeapSystem ρ}

/-- The object `x` has become `y` and has the same record, or a new one if it had none. -/
def Relinked (attached : Prop) (notes : List Note) (x y : Object) : Prop :=
  y.record.map Prod.fst = x.record.map Prod.fst ∨ attached ∧ x.record = none ∧
    ∃ r, y.record.map Prod.fst = some r ∧ .born (.record r) ∈ notes

theorem Relinked.trans (hx : Relinked attached notes x₀ x) (hy : Relinked attached' more x y)
    (hattached : attached → attached') : Relinked attached' (notes ++ more) x₀ y := by
  rcases hx with hx | ⟨hat, hnone, r, hr, hborn⟩
  · rcases hy with hy | ⟨hat, hnone, r, hr, hborn⟩
    · exact .inl (hy.trans hx)
    · rw [hnone] at hx
      exact .inr ⟨hat, Option.map_eq_none_iff.mp hx.symm, r, hr, List.mem_append_right _ hborn⟩
  · rcases hy with hy | ⟨-, hnone', -⟩
    · exact .inr ⟨hattached hat, hnone, r, hy.trans hr, List.mem_append_left _ hborn⟩
    · rw [hnone'] at hr
      cases hr

/-- The block at `b` is still the object that was `x₀`. -/
structure Remains (b : BlockRef) (x₀ : Object) (attached : Prop) (notes : List Note)
    (h : Heap (Diary ρ)) (x : Object) : Prop where
  depicts : h.Depicts b x
  payload_eq : x.payload = x₀.payload
  relinked : Relinked attached notes x₀ x
  unborn : .born (.block b) ∉ notes

/-- The only question about the object that was `x₀` is `q`. -/
structure Asked (b : BlockRef) (x₀ : Object) (attached : Prop) (notes : List Note) (q : Question) :
    Prop where
  questions_eq : questionsOn b notes = [q]
  marked_eq : q.marked = x₀.marked
  question_eq : ¬attached → q = x₀.question b

/-- Where the object that was `x₀` at the start of the cycle stands. -/
inductive Stage (b : BlockRef) (x₀ : Object) (attached : Prop) (notes : List Note)
    (h : Heap (Diary ρ)) : Prop
  | waiting {x : Object} (remains : Remains b x₀ attached notes h x) (waits : h.Waiting b.page)
      (unasked : questionsOn b notes = []) (marked_eq : x.marked = x₀.marked)
      (record_eq : ¬attached → x.record = x₀.record)
  | spared {x : Object} {q : Question} (remains : Remains b x₀ attached notes h x)
      (swept : ¬h.Waiting b.page) (asked : Asked b x₀ attached notes q)
      (spared : q.verdictByMark.fate ≠ .dead) (clear : x.marked = false)
  | reclaimed {q : Question} (swept : ¬h.Waiting b.page) (asked : Asked b x₀ attached notes q)
      (dead : q.verdictByMark.fate = .dead) (anew : h.Holds (.block b) → .born (.block b) ∈ notes)

/-- The sweep has not come to the object yet, and nothing has happened to it. -/
theorem Stage.start (hx : h.Depicts b x) (hwaits : h.Waiting b.page) :
    Stage b x attached [] h :=
  .waiting ⟨hx, rfl, .inl rfl, List.not_mem_nil⟩ hwaits rfl rfl fun _ => rfl

theorem Remains.move (hr : Remains b x₀ attached notes h x) (hattached : attached → attached')
    (hy : h'.Depicts b y) (hpayload : y.payload = x.payload)
    (hrelinked : Relinked attached' more x y) (hunborn : .born (.block b) ∉ more) :
    Remains b x₀ attached' (notes ++ more) h' y :=
  ⟨hy, hpayload.trans hr.payload_eq, hr.relinked.trans hrelinked hattached,
    fun hmem => (List.mem_append.mp hmem).elim hr.unborn hunborn⟩

theorem Asked.move {q : Question} (ha : Asked b x₀ attached notes q)
    (hattached : attached → attached') (hmore : questionsOn b more = []) :
    Asked b x₀ attached' (notes ++ more) q := by
  refine ⟨?_, ha.marked_eq, fun hnot => ha.question_eq fun hat => hnot (hattached hat)⟩
  rw [questionsOn_append, ha.questions_eq, hmore, List.append_nil]

/-- Steps that do no more to the object than to attach a record or a finalizer. -/
theorem Stage.evolve (hst : Stage b x₀ attached notes h) (hattached : attached → attached')
    (hwaiting : h'.Waiting b.page ↔ h.Waiting b.page) (hmore : questionsOn b more = [])
    (hholds : h'.Holds (.block b) → h.Holds (.block b) ∨ .born (.block b) ∈ more)
    (hdepicts : ∀ x, h.Depicts b x → .born (.block b) ∉ more ∧ ∃ y, h'.Depicts b y ∧
      y.marked = x.marked ∧ y.payload = x.payload ∧ Relinked attached' more x y ∧
      (¬attached' → y.record = x.record)) : Stage b x₀ attached' (notes ++ more) h' := by
  cases hst with
  | waiting hremains hwaits hunasked hmarked hrecord =>
    obtain ⟨hunborn, y, hy, hmark, hpayload, hrelinked, hsame⟩ := hdepicts _ hremains.depicts
    refine .waiting (hremains.move hattached hy hpayload hrelinked hunborn) (hwaiting.mpr hwaits) ?_
      (hmark.trans hmarked) fun hnot => (hsame hnot).trans (hrecord fun hat => hnot (hattached hat))
    rw [questionsOn_append, hunasked, hmore]
    rfl
  | spared hremains hswept hasked hspared hclear =>
    obtain ⟨hunborn, y, hy, hmark, hpayload, hrelinked, -⟩ := hdepicts _ hremains.depicts
    exact .spared (hremains.move hattached hy hpayload hrelinked hunborn) (mt hwaiting.mp hswept)
      (hasked.move hattached hmore) hspared (hmark.trans hclear)
  | reclaimed hswept hasked hdead hanew =>
    refine .reclaimed (mt hwaiting.mp hswept) (hasked.move hattached hmore) hdead fun hheld => ?_
    rcases hholds hheld with hheld | hborn
    · exact List.mem_append_left _ (hanew hheld)
    · exact List.mem_append_right _ hborn

/-- Steps that leave the object alone. -/
theorem Stage.frame (hst : Stage b x₀ attached notes h) (hattached : attached → attached')
    (hwaiting : h'.Waiting b.page ↔ h.Waiting b.page) (hmore : questionsOn b more = [])
    (hholds : h'.Holds (.block b) → h.Holds (.block b) ∨ .born (.block b) ∈ more)
    (hdepicts : ∀ x, h.Depicts b x → .born (.block b) ∉ more ∧ h'.Depicts b x) :
    Stage b x₀ attached' (notes ++ more) h' :=
  hst.evolve hattached hwaiting hmore hholds fun x hx =>
    ⟨(hdepicts x hx).1, x, (hdepicts x hx).2, rfl, rfl, .inl rfl, fun _ => rfl⟩

/-- The heap goes on from `h` to `h'`, and the object from stage to stage. -/
def Passes (b : BlockRef) (x₀ : Object) (attached attached' : Prop) (h h' : Heap (Diary ρ)) :
    Prop :=
  ∃ more, h'.notes = h.notes ++ more ∧
    ∀ notes, Stage b x₀ attached notes h → Stage b x₀ attached' (notes ++ more) h'

/-- Nothing to be seen of the object has changed. -/
theorem Passes.of_quiet (hq : Heap.Quiet h h') (hattached : attached → attached') :
    Passes b x₀ attached attached' h h' := by
  refine ⟨[], ?_, fun notes hst => hst.frame hattached (hq.waiting_iff _) rfl ?_ ?_⟩
  · exact (congrArg Diary.notes hq.memo_eq).trans (List.append_nil _).symm
  · exact fun hheld => .inl ((hq.holds_iff _).mp hheld)
  · exact fun x hx => ⟨List.not_mem_nil, hq.depicts hx⟩

theorem Passes.trans {attached'' : Prop} (hp : Passes b x₀ attached attached' h h')
    (hp' : Passes b x₀ attached' attached'' h' h'') : Passes b x₀ attached attached'' h h'' := by
  obtain ⟨more, hnotes, hstage⟩ := hp
  obtain ⟨more', hnotes', hstage'⟩ := hp'
  refine ⟨more ++ more', by rw [hnotes', hnotes, List.append_assoc], fun notes hst => ?_⟩
  rw [← List.append_assoc]
  exact hstage' _ (hstage notes hst)

/-- A page is swept, which may be that of the object. -/
theorem passes_collects {id : PageId} (hcollects : Heap.Collects id h h') :
    Passes b x₀ attached attached h h' := by
  obtain ⟨more, hnotes, -, hself, hother⟩ := hcollects.notes
  have hsilent {s : List Note} (hs : story b more = s) (hno : .born (.block b) ∉ s) :
      .born (.block b) ∉ more := fun hmem => hno (hs ▸ mem_story.mpr ⟨hmem, rfl⟩)
  refine ⟨more, hnotes, fun notes hst => ?_⟩
  by_cases hpage : b.page = id
  · have hswept : ¬h'.Waiting b.page := fun hw => ((hcollects.waiting_iff _).mp hw).2 hpage
    cases hst with
    | @waiting x hremains hwaits hunasked hmarked hrecord =>
      have hx := hremains.depicts
      have hstory := hself b hx.held hpage
      have hasked : Asked b x₀ attached (notes ++ more) (x.question b) := by
        refine ⟨?_, hmarked, fun hnot => ?_⟩
        · rw [questionsOn_append, hunasked, questionsOn, hstory, hx.question_eq]
          rfl
        · rw [Object.question, Object.question, hmarked, Object.flags, hrecord hnot, Object.flags]
      by_cases hdead : (x.question b).verdictByMark.fate = .dead
      · exact .reclaimed hswept hasked hdead fun hheld =>
          absurd hheld (hcollects.dead b x hx hpage hdead)
      · have hspared := hcollects.spared b x hx hpage hdead
        have hlink : (x.spared b).record.map Prod.fst = x.record.map Prod.fst := by
          rw [Object.spared, Object.raise, Option.map_map]
          rfl
        have hunborn := hsilent hstory (by simp [Note.judgment])
        exact .spared (hremains.move (fun hat => hat) hspared rfl (.inl hlink) hunborn) hswept
          hasked hdead rfl
    | spared _ hswept' => exact absurd (hpage ▸ hcollects.waiting) hswept'
    | reclaimed hswept' => exact absurd (hpage ▸ hcollects.waiting) hswept'
  · have hstory := hother b fun hb => hpage hb.2
    refine hst.frame (fun hat => hat) ?_ (by rw [questionsOn, hstory]; rfl)
      (fun hheld => .inl (hcollects.old b hheld))
      fun x hx => ⟨hsilent hstory (by simp), hcollects.other b x hx hpage⟩
    rw [hcollects.waiting_iff, and_iff_left hpage]

theorem passes_tidies (ht : Heap.Tidies (Policy.byMark (ρ := ρ)).noting h h') (hs : h.Sound)
    (hc : h.Civil) : h'.Civil ∧ Passes b x₀ attached attached h h' := by
  induction ht with
  | refl => exact ⟨hc, .of_quiet (.refl h) fun hat => hat⟩
  | @tail h₁ h₂ htidies hstep ih =>
    obtain ⟨hc₁, hpasses⟩ := ih
    have hs₁ := Heap.Tidies.sound htidies hs
    have hm : Move (Policy.byMark (ρ := ρ)) True { heap := h₁ } { heap := h₂ } := .tidy hstep
    refine ⟨hm.civil hs₁ hc₁, hpasses.trans ?_⟩
    rcases hstep.quiet_or_collects hs₁ hc₁ with hq | ⟨id, hcollects⟩
    · exact .of_quiet hq fun hat => hat
    · exact passes_collects hcollects

/-- Another block is made. -/
theorem passes_block {n : Nat} {b₀ : BlockRef} (hn : 0 < n)
    (hgets : Heap.Gets (Page.Gives · n) h b₀ h') (hs : h.Sound) (hsteady : Heap.Steady h' h'')
    (hdepicts : ∀ x, b ≠ b₀ → h'.Depicts b x → h''.Depicts b x) :
    Passes b x₀ attached attached h (h''.note (.born (.block b₀))) := by
  obtain ⟨hw, -⟩ := hgets.welcomes_block hs hn
  refine ⟨[.born (.block b₀)], ?_, fun notes hst => hst.frame (fun hat => hat) ?_ ?_ ?_ ?_⟩
  · exact congrArg (fun memo => memo.notes ++ [.born (.block b₀)])
      (hsteady.memo_eq.trans hw.memo_eq)
  · exact (hsteady.waiting_iff _).trans (hw.waiting_iff _)
  · by_cases hb : b = b₀
    · subst hb
      rw [questionsOn, story_of_eq rfl]
      rfl
    · rw [questionsOn, story_of_ne (n := .born (.block b₀)) fun he => hb (Option.some.inj he).symm]
      rfl
  · intro hheld
    rcases (hw.holds_iff _).mp ((hsteady.holds_iff _).mp hheld) with he | hheld
    · exact .inr (List.mem_singleton.mpr (congrArg Note.born he))
    · exact .inl hheld
  · intro x hx
    have hne : b ≠ b₀ := fun he => hw.fresh (he ▸ hx.held)
    refine ⟨fun hmem => hne ?_, depicts_note (hdepicts x hne (hw.depicts hs hx))⟩
    exact Tenant.block.inj (Note.born.inj (List.mem_singleton.mp hmem))

/-- An object gets a record, or its record a finalizer. -/
theorem passes_attaches {object r : BlockRef} {withFinalizer : Bool}
    (hat : Attaches Policy.byMark object withFinalizer h r h') (hs : h.Sound) (hc : h.Civil)
    (hattached : attached → attached') (hself : object = b → attached') :
    Passes b x₀ attached attached' h h' := by
  cases hat with
  | raise hheld hheader hlinked =>
    have hamends := h.amend_spec r (·.raise (.initial withFinalizer))
    refine ⟨[], (List.append_nil _).symm, fun notes hst => hst.evolve hattached Iff.rfl rfl ?_ ?_⟩
    · exact fun hheld => .inl ((hamends.holds_iff _).mp hheld)
    · intro x hx
      refine ⟨List.not_mem_nil, ?_⟩
      obtain ⟨z, hz⟩ := hc object hheld
      rw [hz.recordOf_eq] at hlinked
      by_cases hb : object = b
      · subst hb
        obtain rfl := hx.unique hz
        refine ⟨x.raise (.initial withFinalizer),
          hamends.depicts_self hx hlinked (Flags.not_sweepable_initial _), rfl, rfl, .inl ?_,
          fun hnot => absurd (hself rfl) hnot⟩
        rw [Object.raise, Option.map_map]
        rfl
      · refine ⟨x, hamends.depicts_other hx fun he => hb ?_, rfl, rfl, .inl rfl, fun _ => rfl⟩
        obtain ⟨⟨r₁, record⟩, hxr, rfl⟩ := Option.map_eq_some_iff.mp he
        obtain ⟨⟨r₂, record'⟩, hzr, hsame⟩ := Option.map_eq_some_iff.mp hlinked
        obtain rfl : r₂ = r₁ := hsame
        exact hz.owner hx hzr hxr
  | @enroll h₁ h₂ htidies hheld hheader hbare hgets =>
    obtain ⟨hc₁, hpasses⟩ : h₁.Civil ∧ Passes b x₀ attached attached h h₁ :=
      passes_tidies htidies hs hc
    have hs₁ := Heap.Tidies.sound htidies hs
    refine hpasses.trans ?_
    obtain ⟨hw, hrecord⟩ := hgets.welcomes_record hs₁
    obtain ⟨-, hwrites⟩ := record_linked hs₁ hheld hheader hgets
    refine ⟨[.born (.record r)], ?_, fun notes hst => hst.evolve hattached ?_ rfl ?_ ?_⟩
    · exact congrArg (fun memo => memo.notes ++ [.born (.record r)])
        (hwrites.memo_eq.trans hw.memo_eq)
    · exact (hwrites.waiting_iff _).trans (hw.waiting_iff _)
    · intro hheld'
      refine .inl (((hw.holds_iff _).mp ((hwrites.holds_iff _).mp hheld')).resolve_left ?_)
      exact fun he => by cases he
    · intro x hx
      refine ⟨by simp, ?_⟩
      have hx₂ := hw.depicts hs₁ hx
      by_cases hb : object = b
      · subst hb
        have hnone : x.record = none := by
          rw [hx.recordOf_eq] at hbare
          exact Option.map_eq_none_iff.mp hbare
        have hlinked := hwrites.depicts_link hrecord rfl (Flags.not_sweepable_initial _) hx₂
        exact ⟨_, depicts_note hlinked, rfl, rfl,
          .inr ⟨hself rfl, hnone, r, rfl, List.mem_singleton_self _⟩,
          fun hnot => absurd (hself rfl) hnot⟩
      · exact ⟨x, depicts_note (hwrites.depicts_other (Ne.symm hb) hx₂), rfl, rfl, .inl rfl,
          fun _ => rfl⟩

/-! ### Operations -/

theorem civil_of_allocator {op : Op} (hop : op.OfAllocator)
    (hraw : ∀ i bytes, op ≠ .allocate i bytes) : o.Civil op := by
  cases op with
  | allocate i bytes => exact hraw i bytes rfl
  | enlist => trivial
  | createObject i payload => trivial
  | createArray i element count => trivial
  | createRecord i object withFinalizer => trivial
  | close i => trivial
  | takeRequest i => trivial
  | _ => exact hop.elim

/-- An operation of an allocator does nothing to an old object but attach to it. -/
theorem step_passes (ho : o.Sound) (hc : o.heap.Civil) {op : Op} (ha : o.Admits op)
    (hop : op.OfAllocator) (hraw : ∀ i bytes, op ≠ .allocate i bytes) :
    Passes b x₀ attached (attached ∨ op.Attaches b) o.heap (o.step Policy.byMark op).2.heap := by
  have hidle : Passes b x₀ attached (attached ∨ op.Attaches b) o.heap o.heap :=
    .of_quiet (.refl _) .inl
  have hallocates {n : Nat} {b₀ : BlockRef} {h h' : Heap (Diary ρ)} (hn : 0 < n)
      (hall : Allocator.Allocates (Policy.byMark (ρ := ρ)).noting (Page.Gives · n) o.heap b₀ h)
      (hsteady : Heap.Steady h h') (hdepicts : ∀ x, b ≠ b₀ → h.Depicts b x → h'.Depicts b x) :
      Passes b x₀ attached (attached ∨ op.Attaches b) o.heap (h'.note (.born (.block b₀))) := by
    obtain ⟨h₁, htidies, -, hgets⟩ := hall
    have hs₁ := Heap.Tidies.sound htidies ho.heap
    exact (hidle.trans (passes_tidies htidies ho.heap hc).2).trans
      (passes_block hn hgets hs₁ hsteady hdepicts)
  cases op with
  | enlist => exact hidle
  | allocate i bytes => exact absurd rfl (hraw i bytes)
  | createObject i payload =>
    rcases step_createObject Policy.byMark ho ha payload with heq | ⟨b₀, h, a, hall, -, heq⟩
    · rw [heq]
      exact hidle
    · rw [heq]
      have htwo := Allocator.two_le_objectCells payload
      exact hallocates (by omega) hall (.refl _) fun x _ hx => hx
  | createArray i element count =>
    rcases step_createArray Policy.byMark ho ha element count with
      ⟨fault, -, heq⟩ | ⟨b₀, h, a, hall, -, heq⟩
    · rw [heq]
      exact hidle
    · rw [heq]
      have hthree := Allocator.three_le_arrayCells element count
      obtain ⟨h₁, htidies, hfound, hgets⟩ := hall
      have hs₁ := Heap.Tidies.sound htidies ho.heap
      obtain ⟨hw, hcontent⟩ := hgets.welcomes_block hs₁ (by omega)
      have hinside : 2 < (h.content b₀).length := by
        rw [hcontent, List.length_replicate]
        omega
      have hwrites := Heap.write_spec ((hgets.mono fun _ _ _ hx => hx.toGrown).sound hs₁)
        ((hw.holds_iff _).mpr (.inl rfl)) hinside (.word count.toUInt64)
      exact hallocates (by omega) ⟨h₁, htidies, hfound, hgets⟩ hwrites.toSteady
        fun x hne hx => hwrites.depicts_other hne hx
  | createRecord i object withFinalizer =>
    obtain ⟨r, h, a, heq, hattaches, -⟩ := step_createRecord Policy.byMark ho ha
    rw [heq]
    refine passes_attaches hattaches ho.heap hc .inl fun he => .inr ?_
    exact ⟨i, withFinalizer, by rw [he]⟩
  | close i =>
    obtain ⟨h, heq, htidies, -⟩ := step_close Policy.byMark ho ha
    rw [heq]
    exact hidle.trans (passes_tidies htidies ho.heap hc).2
  | takeRequest i =>
    rw [step]
    cases o.allocators[i]? with
    | none => exact hidle
    | some a => exact hidle
  | _ => exact hop.elim

/-- What allocators do in a row. -/
theorem run_passes {ops : List Op}
    (hops : ∀ op ∈ ops, op.OfAllocator ∧ ∀ i bytes, op ≠ .allocate i bytes) (ho : o.Sound)
    (hc : o.heap.Civil) (hallows : Allows Admits Policy.byMark ops o) :
    (run Policy.byMark ops o).heap.Civil ∧ Passes b x₀ attached
      (attached ∨ ∃ op ∈ ops, op.Attaches b) o.heap (run Policy.byMark ops o).heap := by
  induction ops generalizing o attached with
  | nil => exact ⟨hc, .of_quiet (.refl _) .inl⟩
  | cons op ops ih =>
    obtain ⟨ha, hrest⟩ := hallows
    obtain ⟨hop, hraw⟩ := hops op List.mem_cons_self
    have hfirst : Passes b x₀ attached (attached ∨ op.Attaches b) o.heap
      (o.step Policy.byMark op).2.heap := step_passes ho hc ha hop hraw
    obtain ⟨hmoves, hsound, -⟩ := step_moves Policy.byMark True ho ha
      (fun _ => civil_of_allocator hop hraw) hop.ne_prepare
    obtain ⟨hc', hpasses⟩ := ih (fun op' hop' => hops op' (List.mem_cons_of_mem _ hop')) hsound
      (Moves.civil hmoves ho.heap hc) hrest
    refine ⟨hc', (hfirst.trans hpasses).trans (.of_quiet (.refl _) ?_)⟩
    rintro ((hat | hat) | ⟨op', hop', hat⟩)
    · exact .inl hat
    · exact .inr ⟨op, List.mem_cons_self, hat⟩
    · exact .inr ⟨op', List.mem_cons_of_mem _ hop', hat⟩

end HeapSystem

end SweptHeap
