import Outliner.Proofs.Merging
import Outliner.Proofs.Passes

/-!
# A pass at rest

`Flow.analyze` visits instructions until nothing waits in line. The theorem of this module says what
its answer is worth: the frames are a post-fixpoint of the tracker. Whatever frame control can bring
to an instruction, from a predecessor, a jump, a subroutine call or an exception, merges into the
frame known there without changing it (`Flow.atRest`).

A pass changes the frames as it goes, also the frame of the instruction being visited, when that
instruction jumps to itself or is protected by a handler inside its own block. So the invariant is
not about the frames seen during a visit but about the frames known now:

* `Pass.Settled` — everything the instruction brings to its successors is absorbed there;
* `Pass.Explored` — each instruction with a frame is settled or waits in line.

A visit only raises frames, and puts every offset whose frame it raised in line (`Pass.Raises`). A
frame that is not in line afterwards is therefore the one that was visited, and the facts
established for it during the visit still hold, because absorbing is kept by every merge. All that
is asked of absorbing is that it lasts (`Frame.Lasts`), so the same holds of coarser relations, and
for these under every hierarchy (`Flow.analyze_settled`).
-/

namespace Outliner

namespace Flow

namespace Pass

variable {r : Routine} {p p' p'' : Pass} {H : Hierarchy} {R : Frame → Frame → Prop}

/-- The frame known at an offset is above `f`. -/
def Covers (R : Frame → Frame → Prop) (p : Pass) (offset : Nat) (f : Frame) : Prop :=
  ∃ known, p.frame? offset = some known ∧ R known f

/-- **An instruction with frame `f` is settled**: it was applied to that frame last, and what it
brings to everything that can come next is absorbed there. -/
structure Settled (R : Frame → Frame → Prop) (r : Routine) (p : Pass) (offset : Nat) (f : Frame)
    (insn : Instruction) (after : Frame) : Prop where
  executed : Tracker.execute r.owner f insn offset = (after, .ok (p.effects.getD offset {}))
  next : insn.fallsThrough → p.Covers R (offset + 1) after
  target : ∀ t ∈ r.targetOffsets insn, p.Covers R t after
  resume : insn.opcode.isSubroutineCall → offset + 1 < r.size → p.Covers R (offset + 1) f
  before : ∀ region ∈ r.regions, region.contains offset → insn.isMarker = false →
    p.Covers R region.handler (caught region f)
  after : ∀ region ∈ r.regions, region.contains offset → insn.isMarker = false →
    p.Covers R region.handler (caught region after)

/-! ### What every part of a visit keeps -/

/-- The tables of a pass fit the routine, an offset marked as waiting does wait, and an instruction
marked as failed is among the errors. -/
structure Tidy (n : Nat) (p : Pass) : Prop where
  frames : p.frames.size = n
  effects : p.effects.size = n
  queued : ∀ i, p.queued.getD i false = true → i ∈ p.work
  failed : ∀ i, p.hasFailed i = true → p.errors ≠ []

/-- Frames are only raised, and an offset whose frame was raised waits in line. -/
structure Raises (R : Frame → Frame → Prop) (p p' : Pass) : Prop where
  covers : ∀ {offset f}, p.Covers R offset f → p'.Covers R offset f
  frame? : ∀ i, p'.frame? i = p.frame? i ∨ i ∈ p'.work
  work : ∀ i ∈ p.work, i ∈ p'.work
  effects : p'.effects = p.effects

theorem Raises.refl (p : Pass) : Raises R p p :=
  ⟨fun h => h, fun _ => .inl rfl, fun _ h => h, rfl⟩

theorem Raises.trans (h : Raises R p p') (h' : Raises R p' p'') : Raises R p p'' where
  covers hc := h'.covers (h.covers hc)
  frame? i := by
    rcases h'.frame? i with he | hw
    · rcases h.frame? i with he' | hw'
      · exact .inl (he.trans he')
      · exact .inr (h'.work i hw')
    · exact .inr hw
  work i hi := h'.work i (h.work i hi)
  effects := h'.effects.trans h.effects

/-- A part of a visit that ends without errors started without errors, keeps the pass tidy and only
raises frames. -/
structure Advances (R : Frame → Frame → Prop) (n : Nat) (p p' : Pass) : Prop where
  errors : p'.errors = [] → p.errors = []
  tidy : p'.errors = [] → Tidy n p → Tidy n p'
  raises : p'.errors = [] → Tidy n p → Raises R p p'

variable {n : Nat}

theorem Advances.refl (p : Pass) : Advances R n p p :=
  ⟨fun h => h, fun _ h => h, fun _ _ => .refl p⟩

theorem Advances.trans (h : Advances R n p p') (h' : Advances R n p' p'') : Advances R n p p'' where
  errors he := h.errors (h'.errors he)
  tidy he ht := h'.tidy he (h.tidy (h'.errors he) ht)
  raises he ht :=
    (h.raises (h'.errors he) ht).trans (h'.raises he (h.tidy (h'.errors he) ht))

theorem Tidy.hasFailed_eq_false (ht : Tidy n p) (he : p.errors = []) (i : Nat) :
    p.hasFailed i = false := by
  rw [Bool.eq_false_iff]
  exact fun h => ht.failed i h he

theorem tidy_start (n : Nat) : Tidy n (start n) := by
  have hfalse : ∀ i, (Array.replicate n false).getD i false = false := by
    intro i
    rw [Array.getD_eq_getD_getElem?, Array.getElem?_replicate]
    split <;> rfl
  exact ⟨Array.size_replicate, Array.size_replicate,
    fun i hi => absurd hi (by simp [start, hfalse]),
    fun i hi => absurd hi (by simp [start, hasFailed, hfalse])⟩

/-! ### Arriving -/

theorem frame?_setIfInBounds {offset : Nat} (hlt : offset < p.frames.size) (f : Frame) (i : Nat) :
    ({ p with frames := p.frames.setIfInBounds offset (some f) } : Pass).frame? i =
      if offset = i then some f else p.frame? i := by
  unfold Pass.frame?
  rw [Array.getElem?_setIfInBounds]
  split
  · simp
  · rfl

@[simp] theorem enqueue_frame? (p : Pass) (offset i : Nat) :
    (p.enqueue offset).frame? i = p.frame? i := by
  unfold enqueue
  split <;> rfl

theorem mem_work_enqueue (p : Pass) (offset : Nat) : ∀ i ∈ p.work, i ∈ (p.enqueue offset).work := by
  intro i hi
  unfold enqueue
  split
  · exact hi
  · exact List.mem_cons_of_mem _ hi

/-- Putting an offset in line keeps the marks in step with the line. -/
theorem Tidy.enqueue (ht : Tidy n p) (offset : Nat) :
    Tidy n (p.enqueue offset) ∧ offset ∈ (p.enqueue offset).work := by
  unfold Pass.enqueue
  split
  · next hq => exact ⟨ht, ht.queued offset hq⟩
  · refine ⟨⟨ht.frames, ht.effects, fun i hi => ?_, ht.failed⟩, List.mem_cons_self⟩
    by_cases hio : i = offset
    · exact hio ▸ List.mem_cons_self
    · refine List.mem_cons_of_mem _ (ht.queued i ?_)
      simpa [Array.getD_eq_getD_getElem?, Array.getElem?_setIfInBounds, Ne.symm hio] using hi

/-- Raising the frame at an offset and putting it in line. -/
theorem Tidy.raise (ht : Tidy n p) {offset : Nat} (hlt : offset < n) {f : Frame}
    (hf : ∀ g, p.Covers R offset g → R f g) :
    let p' := ({ p with frames := p.frames.setIfInBounds offset (some f) } : Pass).enqueue offset
    Tidy n p' ∧ Raises R p p' ∧ p'.frame? offset = some f := by
  have hsize : offset < p.frames.size := ht.frames ▸ hlt
  have ht' : Tidy n { p with frames := p.frames.setIfInBounds offset (some f) } :=
    ⟨by simpa using ht.frames, ht.effects, ht.queued, ht.failed⟩
  obtain ⟨htidy, hmem⟩ := ht'.enqueue offset
  refine ⟨htidy, ⟨?_, ?_, ?_, ?_⟩, ?_⟩
  · -- what was covered before still is: at this offset because the new frame does as well
    rintro i g hc
    by_cases hio : offset = i
    · subst hio
      refine ⟨f, ?_, hf g hc⟩
      rw [enqueue_frame?, frame?_setIfInBounds hsize, if_pos rfl]
    · obtain ⟨known, hknown, habs⟩ := hc
      refine ⟨known, ?_, habs⟩
      rwa [enqueue_frame?, frame?_setIfInBounds hsize, if_neg hio]
  · -- the only frame that changes is put to work
    intro i
    by_cases hio : offset = i
    · exact .inr (hio ▸ hmem)
    · rw [enqueue_frame?, frame?_setIfInBounds hsize, if_neg hio]
      exact .inl rfl
  · exact fun i hi => mem_work_enqueue _ offset i hi
  · unfold Pass.enqueue
    split <;> rfl
  · rw [enqueue_frame?, frame?_setIfInBounds hsize, if_pos rfl]

theorem fail_errors_ne_nil (p : Pass) (ht : Tidy n p) (offset : Nat) (e : TrackError) :
    (p.fail offset e).errors ≠ [] := by
  unfold fail
  split
  · next hf => exact ht.failed offset hf
  · simp

/-- **Arriving raises the frame that is known, if need be, until it absorbs what arrives.** -/
theorem arrive_spec (hR : Frame.Lasts H R) {offset : Nat} (hlt : offset < n) {f : Frame}
    (ht : Tidy n p) (he : (p.arrive r H offset f).errors = []) :
    Tidy n (p.arrive r H offset f) ∧ Raises R p (p.arrive r H offset f) ∧
      (p.arrive r H offset f).Covers R offset f := by
  have hnf := ht.hasFailed_eq_false (errors_of_arrive he) offset
  unfold arrive at he ⊢
  rw [hnf] at he ⊢
  simp only [Bool.false_eq_true, if_false] at he ⊢
  split
  · next hnone =>
    -- nothing is known yet, so nothing was covered
    obtain ⟨htidy, hraise, hframe⟩ := ht.raise hlt (f := f) fun g hg => by
      obtain ⟨known, hknown, -⟩ := hg
      rw [hnone] at hknown
      cases hknown
    exact ⟨htidy, hraise, f, hframe, hR.refl f⟩
  · next known hknown =>
    cases hm : known.merge H f with
    | error m =>
      simp only [hknown, hm] at he
      exact absurd he (fail_errors_ne_nil p ht _ _)
    | ok res =>
      obtain ⟨merged, changed⟩ := res
      cases changed with
      | true =>
        obtain ⟨htidy, hraise, hframe⟩ := ht.raise hlt (f := merged) fun g hg => by
          obtain ⟨known', hknown', habs⟩ := hg
          obtain rfl : known = known' := Option.some.inj (hknown.symm.trans hknown')
          exact hR.kept habs hm
        exact ⟨htidy, hraise, merged, hframe, hR.merged hm⟩
      | false =>
        obtain rfl := Frame.eq_of_merge_unchanged hm
        exact ⟨ht, .refl p, merged, hknown, hR.merged hm⟩

theorem advances_arrive (hR : Frame.Lasts H R) {offset : Nat} (hlt : offset < n) (f : Frame)
    (p : Pass) :
    Advances R n p (p.arrive r H offset f) where
  errors := errors_of_arrive
  tidy he ht := (arrive_spec hR hlt ht he).1
  raises he ht := (arrive_spec hR hlt ht he).2.1

theorem advances_arriveFrom (hR : Frame.Lasts H R) {offset : Nat} (hlt : offset < n) (source : Nat)
    (change : Frame → Frame) (p : Pass) :
    Advances R n p (p.arriveFrom r H source offset change) := by
  unfold arriveFrom
  split
  · exact advances_arrive hR hlt _ p
  · exact .refl p

/-- If an offset is not in line after a raise, it was not before, and its frame is the one it
had. -/
theorem Raises.not_mem (h : Raises R p p') {i : Nat} (hi : i ∉ p'.work) :
    i ∉ p.work ∧ p'.frame? i = p.frame? i :=
  ⟨fun hi' => hi (h.work i hi'), (h.frame? i).resolve_right hi⟩

/-- What the frame known at `source` brings to an offset is absorbed there, unless the frame at
`source` is to be looked at again anyway. -/
def Brings (R : Frame → Frame → Prop) (source offset : Nat) (change : Frame → Frame) (p : Pass) :
    Prop :=
  source ∉ p.work → ∀ f, p.frame? source = some f → p.Covers R offset (change f)

theorem Brings.raise {source offset : Nat} {change : Frame → Frame}
    (hb : Brings R source offset change p) (h : Raises R p p') :
    Brings R source offset change p' := by
  intro hw f hf
  obtain ⟨hw', hsame⟩ := h.not_mem hw
  exact h.covers (hb hw' f (hsame ▸ hf))

theorem brings_arriveFrom (hR : Frame.Lasts H R) {source offset : Nat} (hlt : offset < n)
    {change : Frame → Frame} (ht : Tidy n p)
    (he : (p.arriveFrom r H source offset change).errors = []) :
    Brings R source offset change (p.arriveFrom r H source offset change) := by
  intro hw f hf
  obtain ⟨-, hsame⟩ := ((advances_arriveFrom hR hlt source change p).raises he ht).not_mem hw
  have hf' : p.frame? source = some f := hsame ▸ hf
  unfold arriveFrom at he ⊢
  simp only [hf'] at he ⊢
  exact (arrive_spec hR hlt ht he).2.2

/-! ### Leaving an instruction -/

theorem advances_foldl {α : Type} {arrivals : Pass → α → Pass} :
    ∀ (l : List α), (∀ a ∈ l, ∀ p, Advances R n p (arrivals p a)) → ∀ p,
      Advances R n p (l.foldl arrivals p)
  | [], _, p => .refl p
  | a :: l, h, p => (h a List.mem_cons_self p).trans
      (advances_foldl l (fun b hb => h b (List.mem_cons_of_mem _ hb)) _)

/-- What each of many arrivals establishes, and a raise keeps, holds after all of them. -/
theorem foldl_establishes {α : Type} {arrivals : Pass → α → Pass} {Q : α → Pass → Prop}
    (hmono : ∀ a p p', Raises R p p' → Q a p → Q a p') {l : List α}
    (hadv : ∀ a ∈ l, ∀ p, Advances R n p (arrivals p a))
    (hQ : ∀ a ∈ l, ∀ p, Tidy n p → (arrivals p a).errors = [] → Q a (arrivals p a))
    {p : Pass} (ht : Tidy n p) (he : (l.foldl arrivals p).errors = []) :
    ∀ a ∈ l, Q a (l.foldl arrivals p) := by
  induction l generalizing p with
  | nil => simp
  | cons b l ih =>
    have hb := hadv b List.mem_cons_self p
    have hl := advances_foldl l (fun c hc => hadv c (List.mem_cons_of_mem _ hc)) (arrivals p b)
    have he' := hl.errors he
    have ht' := hb.tidy he' ht
    intro a ha
    rcases List.mem_cons.1 ha with rfl | ha
    · exact hmono a _ _ (hl.raises he ht') (hQ a List.mem_cons_self p ht he')
    · exact ih (fun c hc => hadv c (List.mem_cons_of_mem _ hc))
        (fun c hc => hQ c (List.mem_cons_of_mem _ hc)) ht' he a ha

variable (hR : Frame.Lasts H R) (hr : r.Checked)
include hR hr

theorem advances_enterHandler {offset : Nat} {after : Frame} {region : Region}
    (hregion : region ∈ r.regions) (p : Pass) :
    Advances R r.size p ((p.arriveFrom r H offset region.handler (caught region)).arrive r H
      region.handler (caught region after)) :=
  (advances_arriveFrom hR (hr.handler_lt hregion) offset _ p).trans
    (advances_arrive hR (hr.handler_lt hregion) _ _)

theorem advances_enterHandlers (offset : Nat) (after : Frame) (p : Pass) :
    Advances R r.size p (p.enterHandlers r H offset after) :=
  advances_foldl _ (fun _ hregion p =>
    advances_enterHandler hR hr (List.mem_of_mem_filter hregion) p) p

/-- Each handler absorbs the frames before and after an instruction it protects. -/
theorem enterHandlers_spec {offset : Nat} {after : Frame} (ht : Tidy r.size p)
    (he : (p.enterHandlers r H offset after).errors = []) :
    ∀ region ∈ r.regions, region.contains offset →
      Brings R offset region.handler (caught region) (p.enterHandlers r H offset after) ∧
      (p.enterHandlers r H offset after).Covers R region.handler (caught region after) := by
  intro region hregion hcontains
  refine foldl_establishes
    (Q := fun (region : Region) p => Brings R offset region.handler (caught region) p ∧
      p.Covers R region.handler (caught region after))
    (fun _ _ _ hraise hq => ⟨hq.1.raise hraise, hraise.covers hq.2⟩)
    (fun _ hregion p => advances_enterHandler hR hr (List.mem_of_mem_filter hregion) p)
    (fun region hregion p ht he => ?_) ht he region (List.mem_filter.2 ⟨hregion, hcontains⟩)
  have hlt := hr.handler_lt (List.mem_of_mem_filter hregion)
  have he' := errors_of_arrive he
  have ht' := (advances_arriveFrom hR hlt offset (caught region) p).tidy he' ht
  obtain ⟨-, hraise, hcovers⟩ := arrive_spec hR hlt ht' he
  exact ⟨(brings_arriveFrom hR hlt ht he').raise hraise, hcovers⟩

theorem advances_enterTargets (offset : Nat) (insn : Instruction) (after : Frame) (p : Pass) :
    Advances R r.size p (p.enterTargets r H offset insn after) := by
  have hfold : Advances R r.size p
      ((r.targetOffsets insn).foldl (fun p t => p.arrive r H t after) p) :=
    advances_foldl _ (fun t ht p => advances_arrive hR (hr.mem_targetOffsets ht) after p) p
  unfold enterTargets
  split
  · next h => exact hfold.trans (advances_arriveFrom hR (by simp at h; exact h.2) offset id _)
  · exact hfold

/-- Each target absorbs the frame after the instruction, and the instruction after a subroutine
call the frame before it. -/
theorem enterTargets_spec {offset : Nat} {insn : Instruction} {after : Frame} (ht : Tidy r.size p)
    (he : (p.enterTargets r H offset insn after).errors = []) :
    (∀ t ∈ r.targetOffsets insn, (p.enterTargets r H offset insn after).Covers R t after) ∧
    (insn.opcode.isSubroutineCall → offset + 1 < r.size →
      Brings R offset (offset + 1) id (p.enterTargets r H offset insn after)) := by
  have hadv : ∀ t ∈ r.targetOffsets insn, ∀ p,
      Advances R r.size p (p.arrive r H t after) :=
    fun t ht p => advances_arrive hR (hr.mem_targetOffsets ht) after p
  -- no arrival takes anything back, so after all of them every target covers the frame
  have hcovers {p' : Pass} (he : p'.errors = [])
      (h : p' = (r.targetOffsets insn).foldl (fun p t => p.arrive r H t after) p) :
      ∀ t ∈ r.targetOffsets insn, p'.Covers R t after := by
    subst h
    exact foldl_establishes (Q := fun t p => p.Covers R t after)
      (fun _ _ _ hraise hq => hraise.covers hq) hadv
      (fun t ht p htidy he => (arrive_spec hR (hr.mem_targetOffsets ht) htidy he).2.2) ht he
  unfold enterTargets at he ⊢
  split at he
  · next h =>
    simp only [Bool.and_eq_true, decide_eq_true_eq] at h
    -- a subroutine call also arrives behind itself, from the frame that is known by then
    have hfrom := advances_arriveFrom hR (r := r) h.2 offset id
      ((r.targetOffsets insn).foldl (fun p t => p.arrive r H t after) p)
    have he' := hfrom.errors he
    have ht' := (advances_foldl _ hadv p).tidy he' ht
    simp only [h, decide_true, Bool.and_self, if_true] at he ⊢
    exact ⟨fun t hmem => (hfrom.raises he ht').covers (hcovers he' rfl t hmem),
      fun _ _ => brings_arriveFrom hR h.2 ht' he⟩
  · next h =>
    simp only [Bool.and_eq_true, decide_eq_true_eq] at h
    simp only [Bool.and_eq_true, decide_eq_true_eq, h, if_false]
    exact ⟨hcovers he rfl, fun hsub hlt => absurd ⟨hsub, hlt⟩ h⟩

/-! ### Visiting -/

/-- What an instruction does at the frame it was last applied to is settled by a visit, unless that
frame was raised on the way. -/
structure Visited (R : Frame → Frame → Prop) (r : Routine) (offset : Nat) (before : Frame)
    (p p' : Pass) : Prop where
  tidy : Tidy r.size p'
  covers : ∀ {i f}, p.Covers R i f → p'.Covers R i f
  frame? : ∀ i, p'.frame? i = p.frame? i ∨ i ∈ p'.work
  work : ∀ i ∈ p.work, i ∈ p'.work
  effect : ∀ i, i ≠ offset → p'.effects.getD i {} = p.effects.getD i {}
  settled : offset ∉ p'.work → ∃ insn after, r.code[offset]? = some insn ∧
    Settled R r p' offset before insn after

omit hR hr in
/-- Noting the effect of an instruction changes nothing else. -/
theorem Tidy.setEffect {p : Pass} (ht : Tidy n p) (offset : Nat) (effect : Effect) :
    Tidy n (p.noteEffect offset effect) :=
  ⟨ht.frames, by simpa [noteEffect] using ht.effects, ht.queued, ht.failed⟩

omit hR hr in
theorem visited_of_raises {offset : Nat} {before after : Frame} {insn : Instruction}
    {effect : Effect} (ht : Tidy r.size p) (hinsn : r.code[offset]? = some insn)
    (hbefore : p.frame? offset = some before)
    (hexec : Tracker.execute r.owner before insn offset = (after, .ok effect))
    (ht' : Tidy r.size p')
    (hraise : Raises R (p.noteEffect offset effect) p')
    (next : insn.fallsThrough → p'.Covers R (offset + 1) after)
    (target : ∀ t ∈ r.targetOffsets insn, p'.Covers R t after)
    (resume : insn.opcode.isSubroutineCall → offset + 1 < r.size →
      Brings R offset (offset + 1) id p')
    (handler : insn.isMarker = false → ∀ region ∈ r.regions, region.contains offset →
      Brings R offset region.handler (caught region) p' ∧
        p'.Covers R region.handler (caught region after)) :
    Visited R r offset before p p' where
  tidy := ht'
  covers hc := hraise.covers hc
  frame? := hraise.frame?
  work := hraise.work
  effect i hi := by
    rw [hraise.effects]
    simp [noteEffect, Array.getD_eq_getD_getElem?, Ne.symm hi]
  -- if the offset is not waiting again, its own frame has not changed in the course of the visit
  settled hw := by
    have hframe : p'.frame? offset = some before := (hraise.not_mem hw).2.trans hbefore
    have hlt : offset < p.effects.size := by
      rw [ht.effects]
      exact (Array.getElem?_eq_some_iff.1 hinsn).1
    refine ⟨insn, after, hinsn, ?_, next, target, fun hsub hlt => resume hsub hlt hw before hframe,
      fun region hregion hcont hm => (handler hm region hregion hcont).1 hw before hframe,
      fun region hregion hcont hm => (handler hm region hregion hcont).2⟩
    rw [hexec, hraise.effects]
    simp [noteEffect, Array.getD_eq_getD_getElem?, hlt]

/-- **A visit settles the instruction it visits.** -/
theorem visit_spec {offset : Nat} (ht : Tidy r.size p) (h : p.visit r H offset = .ok p')
    (he : p'.errors = []) :
    ∃ before, p.frame? offset = some before ∧ Visited R r offset before p p' := by
  obtain ⟨insn, before, hinsn, hbefore, ⟨e, rfl⟩ | ⟨after, effect, hexec, hspread⟩⟩ := visit_cases h
  · exact absurd he (fail_errors_ne_nil p ht _ _)
  refine ⟨before, hbefore, ?_⟩
  -- the two stages of leaving the instruction: its handlers, then what comes next
  unfold spread at hspread
  generalize hp₁ : p.noteEffect offset effect = p₁ at hspread
  generalize hp₂ : (if insn.isMarker then p₁ else p₁.enterHandlers r H offset after) = p₂ at hspread
  have ht₁ : Tidy r.size p₁ := hp₁ ▸ ht.setEffect offset effect
  have h₁₂ : Advances R r.size p₁ p₂ := by
    rw [← hp₂]
    split
    · exact .refl _
    · exact advances_enterHandlers hR hr offset after p₁
  have hhandler (he₂ : p₂.errors = []) : insn.isMarker = false → ∀ region ∈ r.regions,
      region.contains offset → Brings R offset region.handler (caught region) p₂ ∧
        p₂.Covers R region.handler (caught region after) := by
    intro hm
    rw [hm, if_neg Bool.false_ne_true] at hp₂
    subst hp₂
    exact enterHandlers_spec hR hr ht₁ he₂
  have key (p₃ : Pass) (h₂₃ : Advances R r.size p₂ p₃)
      (hnext : Tidy r.size p₂ → p₃.errors = [] → insn.fallsThrough → p₃.Covers R (offset + 1) after)
      (hp' : p' = p₃.enterTargets r H offset insn after) : Visited R r offset before p p' := by
    subst hp'
    have h₃ := advances_enterTargets hR hr offset insn after p₃
    have he₃ := h₃.errors he
    have he₂ := h₂₃.errors he₃
    have ht₂ := h₁₂.tidy he₂ ht₁
    have ht₃ := h₂₃.tidy he₃ ht₂
    have hraise₃ := h₃.raises he ht₃
    have hraise₂ := (h₂₃.raises he₃ ht₂).trans hraise₃
    obtain ⟨htarget, hresume⟩ := enterTargets_spec hR hr ht₃ he
    refine visited_of_raises ht hinsn hbefore hexec (h₃.tidy he ht₃)
      (hp₁ ▸ (h₁₂.raises he₂ ht₁).trans hraise₂)
      (fun hf => hraise₃.covers (hnext ht₂ he₃ hf)) htarget hresume
      fun hm region hregion hcont => ?_
    obtain ⟨hb, ha⟩ := hhandler he₂ hm region hregion hcont
    exact ⟨hb.raise hraise₂, hraise₂.covers ha⟩
  dsimp only at hspread
  split at hspread
  · split at hspread
    · next hlt =>
      exact key _ (advances_arrive hR hlt after p₂)
        (fun ht₂ he₃ _ => (arrive_spec hR hlt ht₂ he₃).2.2) hspread
    · subst hspread
      exact absurd he (fail_errors_ne_nil p₂ (h₁₂.tidy (errors_of_fail he) ht₁) _ _)
  · next hfalls => exact key _ (.refl p₂) (fun _ _ hf => absurd hf hfalls) hspread

/-! ### The whole pass -/

/-- **Each instruction with a frame is settled or waits in line.** -/
def Explored (R : Frame → Frame → Prop) (r : Routine) (p : Pass) : Prop :=
  ∀ i f, p.frame? i = some f → i ∈ p.work ∨
    ∃ insn after, r.code[i]? = some insn ∧ Settled R r p i f insn after

omit hR hr in
/-- Raising frames elsewhere does not unsettle an instruction. -/
theorem Settled.mono {offset : Nat} {f after : Frame} {insn : Instruction}
    (h : Settled R r p offset f insn after)
    (covers : ∀ {i f}, p.Covers R i f → p'.Covers R i f)
    (effect : p'.effects.getD offset {} = p.effects.getD offset {}) :
    Settled R r p' offset f insn after where
  executed := effect ▸ h.executed
  next hf := covers (h.next hf)
  target t ht := covers (h.target t ht)
  resume hs hlt := covers (h.resume hs hlt)
  before region hregion hcont hm := covers (h.before region hregion hcont hm)
  after region hregion hcont hm := covers (h.after region hregion hcont hm)

omit hR hr in
/-- Taking the first offset out of line. -/
theorem Tidy.dequeue {offset : Nat} {rest : List Nat} (ht : Tidy n p)
    (hwork : p.work = offset :: rest) : Tidy n (p.dequeue offset rest) := by
  refine ⟨ht.frames, ht.effects, fun i hi => ?_, ht.failed⟩
  by_cases hio : i = offset
  · subst hio
    simp only [Pass.dequeue, Array.getD_eq_getD_getElem?, Array.getElem?_setIfInBounds] at hi
    rw [if_pos trivial] at hi
    split at hi <;> simp at hi
  · have hi' := ht.queued i (by
      simpa [Pass.dequeue, Array.getD_eq_getD_getElem?, Array.getElem?_setIfInBounds, Ne.symm hio]
        using hi)
    exact (List.mem_cons.1 (hwork ▸ hi')).resolve_left hio

omit hR hr in
/-- A visit to the first offset in line leaves everything explored. -/
theorem Visited.explored {offset : Nat} {rest : List Nat} {before : Frame}
    (hwork : p.work = offset :: rest) (hx : Explored R r p)
    (hbefore : p.frame? offset = some before)
    (hv : Visited R r offset before (p.dequeue offset rest) p') :
    Explored R r p' := by
  intro i f hf
  by_cases hi : i ∈ p'.work
  · exact .inl hi
  refine .inr ?_
  have hframe : p.frame? i = some f := (hv.frame? i).resolve_right hi ▸ hf
  by_cases hio : i = offset
  · subst hio
    obtain rfl : before = f := Option.some.inj (hbefore.symm.trans hframe)
    exact hv.settled hi
  · -- it was settled before, and neither its frame nor its effect has changed
    have hiw : i ∉ p.work := by
      rw [hwork, List.mem_cons]
      rintro (rfl | hrest)
      · exact hio rfl
      · exact hi (hv.work i hrest)
    obtain ⟨insn, after, hinsn, hs⟩ := (hx i f hframe).resolve_left hiw
    exact ⟨insn, after, hinsn, hs.mono hv.covers (hv.effect i hio)⟩

/-- **When nothing waits in line any more, everything with a frame is settled.** -/
theorem run_spec {fuel : Nat} (ht : Tidy r.size p) (hx : Explored R r p)
    (h : run r H fuel p = .ok p') (he : p'.errors = []) :
    Tidy r.size p' ∧ p'.work = [] ∧ Explored R r p' ∧
      ∀ {i f}, p.Covers R i f → p'.Covers R i f := by
  obtain ⟨hQ, hwork⟩ := run_induction
    (Q := fun q => q.errors = [] →
      Tidy r.size q ∧ Explored R r q ∧ ∀ {i f}, p.Covers R i f → q.Covers R i f)
    h (fun _ => ⟨ht, hx, fun hc => hc⟩)
    (fun q offset rest hq hwork hfailed he =>
      -- an instruction that failed is among the errors, and errors stay
      absurd he (((hq he).1.dequeue hwork).failed offset hfailed))
    (fun q q' offset rest hq hwork _ hvisit he => by
      have he' : (q.dequeue offset rest).errors = [] := errors_of_visit hvisit he
      obtain ⟨ht, hx, hcovers⟩ := hq he'
      obtain ⟨before, hbefore, hv⟩ := visit_spec hR hr (ht.dequeue hwork) hvisit he
      exact ⟨hv.tidy, hv.explored hwork hx hbefore, fun hc => hv.covers (hcovers hc)⟩)
  obtain ⟨ht', hx', hcovers⟩ := hQ he
  exact ⟨ht', hwork, hx', hcovers⟩

end Pass

/-! ### The data flow of a routine -/

/-- Frame `f` merges into the frame known at an offset without changing it. -/
def Covers (flow : Flow) (offset : Nat) (f : Frame) : Prop :=
  ∃ known, flow.frame? offset = some (some known) ∧ known.merge .flat f = .ok (known, false)

/-- **The instruction at an offset is at rest**: applied to the frame `f` known before it, it has
the effect that is recorded, and whatever control can bring from there to another instruction merges
into the frame known there without changing it. -/
structure AtRest (flow : Flow) (offset : Nat) (f : Frame) (insn : Instruction) (after : Frame) :
    Prop where
  executed : Tracker.execute flow.routine.owner f insn offset = (after, .ok (flow.effect offset))
  next : insn.isMarker ∨ insn.opcode.fallsThrough → flow.Covers (offset + 1) after
  target : ∀ l ∈ insn.targets, ∃ t, flow.routine.offset? l = some t ∧ flow.Covers t after
  resume : insn.opcode.isSubroutineCall → offset + 1 < flow.routine.size →
    flow.Covers (offset + 1) f
  before : insn.isMarker = false → ∀ region ∈ flow.routine.regions, region.contains offset →
    flow.Covers region.handler (caught region f)
  after : insn.isMarker = false → ∀ region ∈ flow.routine.regions, region.contains offset →
    flow.Covers region.handler (caught region after)

theorem frame?_natCast (flow : Flow) (offset : Nat) :
    flow.frame? offset = flow.frames[offset]? := by
  simp [frame?]

theorem reachable_iff {flow : Flow} {i : Nat} :
    flow.reachable i ↔ ∃ f, flow.frame? i = some (some f) := by
  rw [frame?_natCast, reachable]
  cases flow.frames[i]? with
  | none => simp
  | some f => cases f <;> simp

theorem covers_of_pass {p : Pass} {offset : Nat} {f : Frame}
    (h : p.Covers (Frame.Absorbs .flat) offset f) (r : Routine) :
    Flow.Covers ⟨r, p.frames, p.effects⟩ offset f := by
  obtain ⟨known, hknown, habs⟩ := h
  refine ⟨known, ?_, habs⟩
  rw [frame?_natCast]
  exact Option.join_eq_some_iff.1 hknown

/-- There is no frame at the start that the first arrival could fail to be merged with. -/
theorem errors_arrive_start {H : Hierarchy} (r : Routine) (f : Frame) :
    ((Pass.start r.size).arrive r H 0 f).errors = [] := by
  have harrive : (Pass.start r.size).arrive r H 0 f = Pass.enqueue { Pass.start r.size with
      frames := (Pass.start r.size).frames.setIfInBounds 0 (some f) } 0 := by
    simp [Pass.arrive, Pass.frame?_start, (Pass.tidy_start r.size).hasFailed_eq_false rfl]
  rw [harrive, Pass.enqueue_errors]
  rfl

/-- Before the first visit only the entry is known, and it waits. -/
theorem explored_initial {H : Hierarchy} {R : Frame → Frame → Prop} (hR : Frame.Lasts H R)
    (r : Routine) (hne : 0 < r.size) :
    Pass.Tidy r.size (Pass.initial r H) ∧ Pass.Explored R r (Pass.initial r H) ∧
      (Pass.initial r H).Covers R 0 (entry r) := by
  rw [Pass.initial, if_neg (Nat.pos_iff_ne_zero.1 hne)]
  obtain ⟨htidy, hraise, hcovers⟩ :=
    Pass.arrive_spec hR hne (Pass.tidy_start r.size) (errors_arrive_start r (entry r))
  refine ⟨htidy, fun i f hf => .inl ((hraise.frame? i).resolve_left ?_), hcovers⟩
  rw [Pass.frame?_start, hf]
  simp

/-- An analysis that succeeds ends with a pass that is at rest. -/
theorem analyze_settled {H : Hierarchy} {R : Frame → Frame → Prop} (hR : Frame.Lasts H R)
    {r : Routine} {flow : Flow} (hr : r.Checked) (hne : 0 < r.size) (h : analyze H r = .ok flow) :
    ∃ p : Pass, flow = ⟨r, p.frames, p.effects⟩ ∧ Pass.Tidy r.size p ∧ p.work = [] ∧
      Pass.Explored R r p ∧ p.Covers R 0 (entry r) := by
  obtain ⟨p, hrun, he, rfl⟩ := analyzeWithin_ok h
  obtain ⟨ht, hx, hentry⟩ := explored_initial hR r hne
  obtain ⟨ht', hwork, hx', hcovers⟩ := Pass.run_spec hR hr ht hx hrun he
  exact ⟨p, rfl, ht', hwork, hx', hcovers hentry⟩

theorem analyze_ok {r : Routine} {flow : Flow} (hr : r.Checked) (hne : 0 < r.size)
    (h : analyze .flat r = .ok flow) :
    ∃ p : Pass, flow = ⟨r, p.frames, p.effects⟩ ∧ Pass.Tidy r.size p ∧ p.work = [] ∧
      Pass.Explored (Frame.Absorbs .flat) r p ∧ p.Covers (Frame.Absorbs .flat) 0 (entry r) :=
  analyze_settled Frame.lasts_absorbs hr hne h

/-- The frame on entry is absorbed by the first frame. -/
theorem covers_entry {r : Routine} {flow : Flow} (hr : r.Checked) (hne : 0 < r.size)
    (h : analyze .flat r = .ok flow) : flow.Covers 0 (entry r) := by
  obtain ⟨p, rfl, -, -, -, hentry⟩ := analyze_ok hr hne h
  exact covers_of_pass hentry r

/-- Every instruction that has a frame is at rest. -/
theorem atRest {r : Routine} {flow : Flow} (hr : r.Checked) (hne : 0 < r.size)
    (h : analyze .flat r = .ok flow) {i : Nat} {f : Frame} (hf : flow.frame? i = some (some f)) :
    ∃ insn after, r.code[i]? = some insn ∧ flow.AtRest i f insn after := by
  obtain ⟨p, rfl, -, hwork, hx, -⟩ := analyze_ok hr hne h
  rw [frame?_natCast] at hf
  obtain ⟨insn, after, hinsn, hs⟩ :=
    (hx i f (Option.join_eq_some_iff.2 hf)).resolve_left (by simp [hwork])
  refine ⟨insn, after, hinsn, hs.executed, fun hf => covers_of_pass (hs.next ?_) r, ?_,
    fun hsub hlt => covers_of_pass (hs.resume hsub hlt) r,
    fun hm region hregion hc => covers_of_pass (hs.before region hregion hc hm) r,
    fun hm region hregion hc => covers_of_pass (hs.after region hregion hc hm) r⟩
  · simpa [Instruction.fallsThrough] using hf
  · intro l hl
    obtain ⟨t, ht⟩ := hr.targets insn (Array.mem_of_getElem? hinsn) l hl
    exact ⟨t, ht, covers_of_pass (hs.target t (List.mem_filterMap.2 ⟨l, hl, ht⟩)) r⟩

/-- **The frames an analysis answers are a post-fixpoint.** The frame on entry merges into the first
one without change, and every instruction that has a frame is at rest there. -/
theorem analyze_postfixpoint {r : Routine} {flow : Flow} (hr : r.Made) (hne : 0 < r.size)
    (h : analyze .flat r = .ok flow) :
    flow.routine = r ∧ flow.Covers 0 (entry r) ∧
      ∀ (i : Nat) (f : Frame), flow.frame? i = some (some f) →
        ∃ insn after, r.code[i]? = some insn ∧ flow.AtRest i f insn after := by
  refine ⟨?_, covers_entry hr.checked hne h, fun i f hf => atRest hr.checked hne h hf⟩
  obtain ⟨p, rfl, -⟩ := analyze_ok hr.checked hne h
  rfl

/-- A loop that counts a parameter down, protected by a handler that gives up. -/
def countdown : RoutineParts where
  owner := "Loop"
  name := "run"
  descriptor := "(I)V"
  access := .static
  code := #[some (.label ⟨0, ""⟩), some (.iinc 0 (-1)), some (.slot (.load .int) 0),
    some (.jump (.ifZero .ne) ⟨0, ""⟩), some (.label ⟨1, ""⟩), some (.plain .returnVoid),
    some (.label ⟨2, ""⟩), some (.plain .pop), some (.plain .returnVoid)]
  blocks := [⟨⟨0, ""⟩, ⟨1, ""⟩, ⟨2, ""⟩, ""⟩]
  maxLocals := 1
  maxStack := 1

theorem analyze_postfixpoint_countdown :
    ∃ r flow, Routine.make countdown = .ok r ∧ analyze .flat r = .ok flow ∧
      (List.range 9).all flow.reachable ∧ flow.Covers 0 (entry r) ∧
      ∀ (i : Nat) (f : Frame), flow.frame? i = some (some f) →
        ∃ insn after, r.code[i]? = some insn ∧ flow.AtRest i f insn after := by
  have hrun : (Routine.make countdown).toOption.any fun r => decide (0 < r.size) &&
      (analyze .flat r).toOption.any fun flow => (List.range 9).all flow.reachable := by
    decide +kernel
  obtain ⟨r, hr, hrun⟩ := exists_ok_of_any hrun
  rw [Bool.and_eq_true, decide_eq_true_iff] at hrun
  obtain ⟨flow, hflow, hreachable⟩ := exists_ok_of_any hrun.2
  exact ⟨r, flow, hr, hflow, hreachable, (analyze_postfixpoint ⟨_, hr⟩ hrun.1 hflow).2⟩

end Flow

end Outliner
