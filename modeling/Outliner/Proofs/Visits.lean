import Outliner.Proofs.Rest

/-!
# Where control has been followed

When nothing waits in line any more, control has been followed everywhere: an instruction that has a
frame has had its effect noted, and whatever can come next has a frame too (`analyze_onward`). Other
than the frames themselves, this does not depend on the hierarchy, as an arrival makes an offset
known in any case (`Pass.Grows`).
-/

namespace Outliner

namespace Flow

namespace Pass

variable {r : Routine} {h : Hierarchy} {p p' p'' : Pass} {n : Nat}

/-- What is covered at some time of a run is covered at its end. -/
theorem covers_of_run {R : Frame → Frame → Prop} (hR : Frame.Lasts h R) (hr : r.Checked)
    {fuel : Nat} (ht : Tidy r.size p) (hrun : run r h fuel p = .ok p') (he : p'.errors = [])
    {i : Nat} {f : Frame} (hc : p.Covers R i f) : p'.Covers R i f := by
  refine ((run_induction (Q := fun q => q.errors = [] → Tidy r.size q ∧ q.Covers R i f) hrun
    (fun _ => ⟨ht, hc⟩) (fun q offset rest hq hwork _ he => ⟨(hq he).1.dequeue hwork, (hq he).2⟩)
    fun q q' offset rest hq hwork _ hvisit he => ?_).1 he).2
  have he' : (q.dequeue offset rest).errors = [] := errors_of_visit hvisit he
  obtain ⟨ht, hc⟩ := hq he'
  obtain ⟨before, -, hvisited⟩ := visit_spec hR hr (ht.dequeue hwork) hvisit he
  exact ⟨hvisited.tidy, hvisited.covers hc⟩

/-! ### Arriving, under any hierarchy -/

/-- One arrival: nothing changes but the errors, or the frame at the offset changes and the offset
waits in line. -/
theorem arrive_cases (offset : Nat) (f : Frame) (p : Pass) :
    p.arrive r h offset f = p ∨ (∃ e, p.arrive r h offset f = p.fail offset e) ∨
      ∃ g, p.hasFailed offset = false ∧
        ((p.frame? offset = none ∧ g = f) ∨
          ∃ known, p.frame? offset = some known ∧ known.merge h f = .ok (g, true)) ∧
        p.arrive r h offset f =
          ({ p with frames := p.frames.setIfInBounds offset (some g) } : Pass).enqueue offset := by
  unfold arrive
  split
  · exact .inl rfl
  next hfailed =>
  have hfailed : p.hasFailed offset = false := by simpa using hfailed
  split
  · next hnone => exact .inr (.inr ⟨f, hfailed, .inl ⟨hnone, rfl⟩, rfl⟩)
  next known hknown =>
  split
  · exact .inr (.inl ⟨_, rfl⟩)
  · next merged hmerge => exact .inr (.inr ⟨merged, hfailed, .inr ⟨known, hknown, hmerge⟩, rfl⟩)
  · exact .inl rfl

@[simp] theorem fail_frame? (p : Pass) (offset : Nat) (e : TrackError) (i : Nat) :
    (p.fail offset e).frame? i = p.frame? i := by
  unfold fail
  split <;> rfl

@[simp] theorem fail_work (p : Pass) (offset : Nat) (e : TrackError) :
    (p.fail offset e).work = p.work := by
  unfold fail
  split <;> rfl

@[simp] theorem fail_effects (p : Pass) (offset : Nat) (e : TrackError) :
    (p.fail offset e).effects = p.effects := by
  unfold fail
  split <;> rfl

@[simp] theorem enqueue_effects (p : Pass) (offset : Nat) :
    (p.enqueue offset).effects = p.effects := by
  unfold enqueue
  split <;> rfl

theorem Tidy.fail (ht : Tidy n p) (offset : Nat) (e : TrackError) : Tidy n (p.fail offset e) := by
  have hne := fail_errors_ne_nil p ht offset e
  refine ⟨?_, ?_, ?_, fun _ _ => hne⟩
  all_goals
    unfold Pass.fail
    split
    · first | exact ht.frames | exact ht.effects | exact ht.queued
    · first | exact ht.frames | exact ht.effects | exact ht.queued

/-- Whether a frame is known at an offset. -/
def Knows (p : Pass) (offset : Nat) : Prop := (p.frame? offset).isSome

/-- What arrivals can do to a pass: more becomes known, and an offset whose frame changes waits in
line. -/
structure Grows (p p' : Pass) : Prop where
  knows : ∀ i, p.Knows i → p'.Knows i
  frame? : ∀ i, p'.frame? i = p.frame? i ∨ i ∈ p'.work
  work : ∀ i ∈ p.work, i ∈ p'.work
  effects : p'.effects = p.effects
  errors : p'.errors = [] → p.errors = []

theorem Grows.refl (p : Pass) : Grows p p :=
  ⟨fun _ hi => hi, fun _ => .inl rfl, fun _ hi => hi, rfl, id⟩

theorem Grows.trans (hg : Grows p p') (hg' : Grows p' p'') : Grows p p'' where
  knows i hi := hg'.knows i (hg.knows i hi)
  frame? i := (hg'.frame? i).elim (fun heq => (hg.frame? i).elim (fun heq' => .inl (heq.trans heq'))
    fun hi => .inr (hg'.work i hi)) .inr
  work i hi := hg'.work i (hg.work i hi)
  effects := hg'.effects.trans hg.effects
  errors he := hg.errors (hg'.errors he)

theorem grows_fail (p : Pass) (offset : Nat) (e : TrackError) : Grows p (p.fail offset e) :=
  ⟨fun i hi => by simpa [Knows] using hi, fun i => .inl (fail_frame? ..),
    fun i hi => by simpa using hi, fail_effects .., errors_of_fail⟩

/-- What a pass knows after the frame at an offset is set. -/
theorem frame?_raised (hlt : offset < n) (ht : Tidy n p) (g : Frame) (i : Nat) :
    (({ p with frames := p.frames.setIfInBounds offset (some g) } : Pass).enqueue offset).frame? i =
      if offset = i then some g else p.frame? i := by
  rw [enqueue_frame?, frame?_setIfInBounds (ht.frames ▸ hlt)]

/-- **An arrival keeps a pass tidy and lets it grow.** -/
theorem tidy_grows_arrive {offset : Nat} (hlt : offset < n) (f : Frame) (ht : Tidy n p) :
    Tidy n (p.arrive r h offset f) ∧ Grows p (p.arrive r h offset f) := by
  obtain heq | ⟨e, heq⟩ | ⟨g, -, -, heq⟩ := arrive_cases (r := r) (h := h) offset f p
  · rw [heq]
    exact ⟨ht, .refl p⟩
  · rw [heq]
    exact ⟨ht.fail offset e, grows_fail p offset e⟩
  · rw [heq]
    have ht' : Tidy n { p with frames := p.frames.setIfInBounds offset (some g) } :=
      ⟨by simpa using ht.frames, ht.effects, ht.queued, ht.failed⟩
    obtain ⟨htidy, hmem⟩ := ht'.enqueue offset
    refine ⟨htidy, fun i hi => ?_, fun i => ?_, fun i hi => mem_work_enqueue _ offset i hi,
      enqueue_effects _ offset, fun he => by simpa using he⟩
    · rw [Knows, frame?_raised hlt ht]
      split
      · rfl
      · exact hi
    · rw [frame?_raised hlt ht]
      split
      · next heq => exact .inr (heq ▸ hmem)
      · exact .inl rfl

/-- Where control arrives without an error, a frame is known. -/
theorem knows_arrive {offset : Nat} (hlt : offset < n) (f : Frame) (ht : Tidy n p)
    (he : (p.arrive r h offset f).errors = []) : (p.arrive r h offset f).Knows offset := by
  have hnf := ht.hasFailed_eq_false ((tidy_grows_arrive hlt f ht).2.errors he) offset
  unfold arrive at he ⊢
  rw [hnf] at he ⊢
  simp only [Bool.false_eq_true, if_false] at he ⊢
  split
  · rw [Knows, frame?_raised hlt ht, if_pos rfl]
    rfl
  · next known hknown =>
    split
    · next hmerge =>
      simp only [hknown, hmerge] at he
      exact absurd he (fail_errors_ne_nil p ht _ _)
    · rw [Knows, frame?_raised hlt ht, if_pos rfl]
      rfl
    · rw [Knows, hknown]
      rfl

/-! ### Control is followed everywhere -/

/-- Control goes on from an instruction only to offsets that are known. -/
structure Onward (r : Routine) (known : Nat → Prop) (source : Nat) (insn : Instruction) : Prop where
  next : insn.fallsThrough → known (source + 1)
  target : ∀ t ∈ r.targetOffsets insn, known t
  handler : insn.isMarker = false → ∀ region ∈ r.regions, region.contains source →
    known region.handler

theorem Onward.mono {known known' : Nat → Prop} {source : Nat} {insn : Instruction}
    (ho : Onward r known source insn) (hmono : ∀ i, known i → known' i) :
    Onward r known' source insn :=
  ⟨fun hfalls => hmono _ (ho.next hfalls), fun t ht => hmono t (ho.target t ht),
    fun hreal region hmem hcont => hmono _ (ho.handler hreal region hmem hcont)⟩

/-- Each of many arrivals makes its offset known, and it stays so. -/
theorem foldl_knows {α : Type} {g : Pass → α → Pass} {k : α → Nat} {l : List α}
    (hgrows : ∀ a ∈ l, ∀ q, Tidy n q → Tidy n (g q a) ∧ Grows q (g q a))
    (hknows : ∀ a ∈ l, ∀ q, Tidy n q → (g q a).errors = [] →
      (g q a).Knows (k a)) (ht : Tidy n p) :
    (Tidy n (l.foldl g p) ∧ Grows p (l.foldl g p)) ∧
      ((l.foldl g p).errors = [] → ∀ a ∈ l, (l.foldl g p).Knows (k a)) := by
  induction l generalizing p with
  | nil => exact ⟨⟨ht, .refl p⟩, by simp⟩
  | cons a l ih =>
    obtain ⟨ht', hg'⟩ := hgrows a List.mem_cons_self p ht
    obtain ⟨⟨ht'', hg''⟩, hall⟩ := ih (fun b hb => hgrows b (List.mem_cons_of_mem _ hb))
      (fun b hb => hknows b (List.mem_cons_of_mem _ hb)) ht'
    refine ⟨⟨ht'', hg'.trans hg''⟩, fun he b hb => ?_⟩
    rcases List.mem_cons.1 hb with rfl | hb
    · exact hg''.knows _ (hknows b List.mem_cons_self p ht (hg''.errors he))
    · exact hall he b hb

variable (hr : r.Checked)
include hr

theorem enterHandlers_knows (source : Nat) (after : Frame) (ht : Tidy r.size p) :
    (Tidy r.size (p.enterHandlers r h source after) ∧
      Grows p (p.enterHandlers r h source after)) ∧
      ((p.enterHandlers r h source after).errors = [] → ∀ region ∈ r.regions,
        region.contains source → (p.enterHandlers r h source after).Knows region.handler) := by
  -- the frame before the instruction reaches the handler as well, if there is one
  have hfrom (region : Region) (hmem : region ∈ r.regions) (q : Pass) (hq : Tidy r.size q) :
      Tidy r.size (q.arriveFrom r h source region.handler (caught region)) ∧
        Grows q (q.arriveFrom r h source region.handler (caught region)) := by
    unfold arriveFrom
    split
    · exact tidy_grows_arrive (hr.handler_lt hmem) _ hq
    · exact ⟨hq, .refl q⟩
  obtain ⟨hboth, hall⟩ := foldl_knows (n := r.size) (k := Region.handler)
    (g := fun p (region : Region) =>
      (p.arriveFrom r h source region.handler (caught region)).arrive r h region.handler
        (caught region after))
    (l := r.regions.filter (·.contains source))
    (fun region hregion q hq => by
      have hmem := List.mem_of_mem_filter hregion
      obtain ⟨hq', hg'⟩ := hfrom region hmem q hq
      obtain ⟨hq'', hg''⟩ := tidy_grows_arrive (h := h) (r := r) (hr.handler_lt hmem)
        (caught region after) hq'
      exact ⟨hq'', hg'.trans hg''⟩)
    (fun region hregion q hq he =>
      knows_arrive (hr.handler_lt (List.mem_of_mem_filter hregion)) _
        (hfrom region (List.mem_of_mem_filter hregion) q hq).1 he) ht
  exact ⟨hboth, fun he region hmem hcont => hall he region (List.mem_filter.2 ⟨hmem, hcont⟩)⟩

theorem enterTargets_knows (source : Nat) (insn : Instruction) (after : Frame)
    (ht : Tidy r.size p) :
    (Tidy r.size (p.enterTargets r h source insn after) ∧
      Grows p (p.enterTargets r h source insn after)) ∧
      ((p.enterTargets r h source insn after).errors = [] → ∀ t ∈ r.targetOffsets insn,
        (p.enterTargets r h source insn after).Knows t) := by
  obtain ⟨⟨ht', hg⟩, hall⟩ := foldl_knows (n := r.size) (k := id)
    (g := fun p t => p.arrive r h t after) (l := r.targetOffsets insn)
    (fun t hmem q hq => tidy_grows_arrive (hr.mem_targetOffsets hmem) after hq)
    (fun t hmem q hq he => knows_arrive (hr.mem_targetOffsets hmem) after hq he) ht
  unfold enterTargets
  dsimp only
  split
  · next hcalls =>
    simp only [Bool.and_eq_true, decide_eq_true_eq] at hcalls
    unfold arriveFrom
    split
    · obtain ⟨ht'', hg'⟩ := tidy_grows_arrive (h := h) (r := r) hcalls.2 (id _) ht'
      exact ⟨⟨ht'', hg.trans hg'⟩, fun he t hmem => hg'.knows t (hall (hg'.errors he) t hmem)⟩
    · exact ⟨⟨ht', hg⟩, hall⟩
  · exact ⟨⟨ht', hg⟩, hall⟩

/-- **After an instruction's outcome is spread, whatever can come next is known.** -/
theorem spread_onward (source : Nat) (insn : Instruction) (after : Frame) (ht : Tidy r.size p) :
    Tidy r.size (p.spread r h source insn after) ∧ Grows p (p.spread r h source insn after) ∧
      ((p.spread r h source insn after).errors = [] →
        Onward r (p.spread r h source insn after).Knows source insn) := by
  -- The handlers come first, and what follows takes none of them back.
  generalize hp₁ : (if insn.isMarker then p else p.enterHandlers r h source after) = p₁
  have h₁ : (Tidy r.size p₁ ∧ Grows p p₁) ∧ (p₁.errors = [] → insn.isMarker = false →
      ∀ region ∈ r.regions, region.contains source → p₁.Knows region.handler) := by
    subst hp₁
    split
    · next hmarker => exact ⟨⟨ht, .refl p⟩, fun _ hreal => absurd hmarker (by simp [hreal])⟩
    · obtain ⟨hboth, hall⟩ := enterHandlers_knows (h := h) hr source after ht
      exact ⟨hboth, fun he _ => hall he⟩
  obtain ⟨⟨ht₁, hg₁⟩, hhandlers⟩ := h₁
  -- the targets come last, whether or not the next instruction was entered
  have htargets (q : Pass) (hq : Tidy r.size q) (hg : Grows p₁ q)
      (hnext : q.errors = [] → insn.fallsThrough → q.Knows (source + 1)) :
      Tidy r.size (q.enterTargets r h source insn after) ∧
        Grows p (q.enterTargets r h source insn after) ∧
        ((q.enterTargets r h source insn after).errors = [] →
          Onward r (q.enterTargets r h source insn after).Knows source insn) := by
    obtain ⟨⟨hq', hg'⟩, hall⟩ := enterTargets_knows (h := h) hr source insn after hq
    refine ⟨hq', (hg₁.trans hg).trans hg', fun he => ⟨fun hfalls => ?_, hall he,
      fun hreal region hmem hcont => ?_⟩⟩
    · exact hg'.knows _ (hnext (hg'.errors he) hfalls)
    · exact (hg.trans hg').knows _ (hhandlers ((hg.trans hg').errors he) hreal region hmem hcont)
  unfold spread
  rw [hp₁]
  dsimp only
  split
  · split
    · next hlt =>
      obtain ⟨hq, hg⟩ := tidy_grows_arrive (h := h) (r := r) hlt after ht₁
      exact htargets _ hq hg fun he _ => knows_arrive hlt after ht₁ he
    · exact ⟨ht₁.fail _ _, hg₁.trans (grows_fail ..),
        fun he => absurd he (fail_errors_ne_nil p₁ ht₁ _ _)⟩
  · next hfalls => exact htargets p₁ ht₁ (.refl p₁) fun _ hf => absurd hf hfalls

omit hr in
/-- The instruction at an offset has been executed at the frame known before it, and control has
been followed from there. -/
def Followed (r : Routine) (p : Pass) (offset : Nat) (f : Frame) : Prop :=
  ∃ insn after, r.code[offset]? = some insn ∧
    Tracker.execute r.owner f insn offset = (after, .ok (p.effects.getD offset {})) ∧
    Onward r p.Knows offset insn

omit hr in
/-- Each instruction with a frame has been followed or waits in line. -/
def Mapped (r : Routine) (p : Pass) : Prop :=
  p.errors = [] → ∀ i f, p.frame? i = some f → i ∈ p.work ∨ Followed r p i f

/-- A visit to the first offset in line keeps everything mapped. -/
theorem Mapped.visit {offset : Nat} {rest : List Nat} (ht : Tidy r.size p) (hm : Mapped r p)
    (hwork : p.work = offset :: rest) (hv : (p.dequeue offset rest).visit r h offset = .ok p') :
    Tidy r.size p' ∧ Mapped r p' ∧ ∀ i, p.Knows i → p'.Knows i := by
  have ht₀ : Tidy r.size (p.dequeue offset rest) := ht.dequeue hwork
  obtain ⟨insn, before, hinsn, hbefore, ⟨e, rfl⟩ | ⟨after, effect, hexec, rfl⟩⟩ := visit_cases hv
  · exact ⟨ht₀.fail offset e, fun he => absurd he (fail_errors_ne_nil _ ht₀ _ _),
      fun i hi => (grows_fail (p.dequeue offset rest) offset e).knows i hi⟩
  obtain ⟨ht', hg, honward⟩ := spread_onward (h := h) hr offset insn after
    (ht₀.setEffect offset effect)
  refine ⟨ht', fun he i f hf => ?_, hg.knows⟩
  by_cases hi : i ∈ ((p.dequeue offset rest).noteEffect offset effect |>.spread r h offset insn
      after).work
  · exact .inl hi
  refine .inr ?_
  -- what is not in the work list has the frame it had
  have hframe : p.frame? i = some f := (hg.frame? i).resolve_right hi ▸ hf
  by_cases hio : i = offset
  · subst hio
    obtain rfl : before = f := Option.some.inj (hbefore.symm.trans hframe)
    refine ⟨insn, after, hinsn, ?_, honward he⟩
    have hlt : i < p.effects.size := ht.effects ▸ (Array.getElem?_eq_some_iff.1 hinsn).1
    rw [hexec, hg.effects, noteEffect]
    simp [dequeue, Array.getD_eq_getD_getElem?, hlt]
  · -- it was not in the work list before either
    have hiw : i ∉ p.work := by
      rw [hwork, List.mem_cons]
      rintro (rfl | hrest)
      · exact hio rfl
      · exact hi (hg.work i hrest)
    obtain ⟨insn', after', hinsn', hexec', ho⟩ := (hm (hg.errors he) i f hframe).resolve_left hiw
    refine ⟨insn', after', hinsn', ?_, ho.mono hg.knows⟩
    rw [hexec', hg.effects, noteEffect]
    simp [dequeue, Array.getD_eq_getD_getElem?, Ne.symm hio]

/-- When nothing waits in line any more, everything with a frame has been followed. -/
theorem run_mapped {fuel : Nat} (ht : Tidy r.size p) (hm : Mapped r p)
    (hrun : run r h fuel p = .ok p') :
    Tidy r.size p' ∧ (∀ i, p.Knows i → p'.Knows i) ∧
      (p'.errors = [] → ∀ i f, p'.frame? i = some f → Followed r p' i f) := by
  obtain ⟨⟨ht', hm', hknows⟩, hwork⟩ := run_induction
    (Q := fun q => Tidy r.size q ∧ Mapped r q ∧ ∀ i, p.Knows i → q.Knows i) hrun
    ⟨ht, hm, fun _ hi => hi⟩
    (fun q offset rest hq hwork hfailed =>
      ⟨hq.1.dequeue hwork, fun he => absurd he (hq.1.failed offset hfailed), hq.2.2⟩)
    (fun q q' offset rest hq hwork _ hv => by
      obtain ⟨ht', hm', hknows⟩ := hq.2.1.visit hr hq.1 hwork hv
      exact ⟨ht', hm', fun i hi => hknows i (hq.2.2 i hi)⟩)
  exact ⟨ht', hknows, fun he i f hf => (hm' he i f hf).resolve_left (by simp [hwork])⟩

end Pass

/-- **An analysis that succeeds has followed control everywhere**, whatever the hierarchy: the first
instruction is reached, and an instruction that is reached has its effect recorded and leads only to
instructions that are reached. -/
theorem analyze_onward {h : Hierarchy} {r : Routine} {flow : Flow} (hr : r.Checked)
    (hflow : analyze h r = .ok flow) :
    flow.routine = r ∧ flow.frames.size = r.size ∧ (0 < r.size → flow.reachable 0) ∧
      ∀ (i : Nat) (f : Frame), flow.frame? i = some (some f) →
        ∃ insn after, r.code[i]? = some insn ∧
          Tracker.execute r.owner f insn i = (after, .ok (flow.effect i)) ∧
          Pass.Onward r (fun j => flow.reachable j) i insn := by
  obtain ⟨p, hrun, he, rfl⟩ := analyzeWithin_ok hflow
  have hstart : Pass.Tidy r.size (Pass.initial r h) ∧ Pass.Mapped r (Pass.initial r h) ∧
      (0 < r.size → (Pass.initial r h).Knows 0) := by
    unfold Pass.initial
    split
    · next hzero =>
      refine ⟨Pass.tidy_start _, fun _ i f hf => ?_, fun hlt => by omega⟩
      rw [Pass.frame?_start] at hf
      cases hf
    · next hne =>
      have ht := Pass.tidy_start r.size
      have hlt : 0 < r.size := by omega
      obtain ⟨ht', hg⟩ := Pass.tidy_grows_arrive (h := h) (r := r) hlt (entry r) ht
      refine ⟨ht', fun _ i f hf => .inl ((hg.frame? i).resolve_left ?_), fun _ => ?_⟩
      · rw [Pass.frame?_start, hf]
        simp
      · exact Pass.knows_arrive hlt (entry r) ht (errors_arrive_start r (entry r))
  obtain ⟨ht, hm, hzero⟩ := hstart
  obtain ⟨ht', hknows, hall⟩ := Pass.run_mapped hr ht hm hrun
  refine ⟨rfl, ht'.frames, fun hlt => hknows 0 (hzero hlt), fun i f hf => hall he i f ?_⟩
  rw [frame?, if_pos (Int.natCast_nonneg i)] at hf
  exact congrArg Option.join hf

end Flow

end Outliner
