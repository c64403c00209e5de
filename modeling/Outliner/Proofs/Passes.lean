import Outliner.Flow
import Outliner.Proofs.Made

/-!
# How a pass goes on

A visit applies an instruction to the frame known before it and brings the outcome to everything
that can come next. Everything a pass does to its frames it does by arrivals, so `Pass.Arrival` says
what a visit can bring where, and `Pass.spread_induction` that whatever is kept by an arrival, and
by noting an error, is kept by a visit. `Pass.run_induction` goes on from there to the whole pass.
None of this depends on the hierarchy.
-/

namespace Outliner

namespace Flow

namespace Pass

variable {r : Routine} {h : Hierarchy} {p p' : Pass}

/-! ### Arrivals -/

/-- What a visit to instruction `insn` at `source`, which leaves the frame `after`, can bring to an
offset. The frames before an instruction that it brings are those known when it does so. -/
inductive Arrival (r : Routine) (source : Nat) (insn : Instruction) (after : Frame) (p : Pass) :
    Nat → Frame → Prop where
  | next (falls : insn.fallsThrough) (lt : source + 1 < r.size) :
    Arrival r source insn after p (source + 1) after
  | target {t : Nat} (mem : t ∈ r.targetOffsets insn) : Arrival r source insn after p t after
  | caughtBefore {region : Region} {f : Frame} (mem : region ∈ r.regions)
    (contains : region.contains source) (real : insn.isMarker = false)
    (known : p.frame? source = some f) :
    Arrival r source insn after p region.handler (caught region f)
  | caughtAfter {region : Region} (mem : region ∈ r.regions) (contains : region.contains source)
    (real : insn.isMarker = false) :
    Arrival r source insn after p region.handler (caught region after)
  | resume {f : Frame} (calls : insn.opcode.isSubroutineCall) (lt : source + 1 < r.size)
    (known : p.frame? source = some f) : Arrival r source insn after p (source + 1) f

theorem Arrival.lt (hr : r.Checked) {source offset : Nat} {insn : Instruction} {after f : Frame}
    (ha : Arrival r source insn after p offset f) : offset < r.size := by
  cases ha with
  | next _ lt => exact lt
  | target mem => exact hr.mem_targetOffsets mem
  | caughtBefore mem => exact hr.handler_lt mem
  | caughtAfter mem => exact hr.handler_lt mem
  | resume _ lt => exact lt

/-- What follows the execution of an instruction in a visit to it. -/
def spread (r : Routine) (h : Hierarchy) (source : Nat) (insn : Instruction) (after : Frame)
    (p : Pass) : Pass :=
  let p := if insn.isMarker then p else p.enterHandlers r h source after
  if insn.fallsThrough then
    if source + 1 < r.size then
      (p.arrive r h (source + 1) after).enterTargets r h source insn after
    else p.fail source ⟨source, insn.opcode, .fallsOff⟩
  else p.enterTargets r h source insn after

/-- Notes the effect of the instruction at an offset. -/
def noteEffect (p : Pass) (offset : Nat) (effect : Effect) : Pass :=
  { p with effects := p.effects.setIfInBounds offset effect }

@[simp] theorem noteEffect_frame? (p : Pass) (offset : Nat) (effect : Effect) (i : Nat) :
    (p.noteEffect offset effect).frame? i = p.frame? i := rfl

/-- A visit that executes its instruction spreads the outcome. -/
theorem visit_eq {source : Nat} {insn : Instruction} {before after : Frame} {effect : Effect}
    (hinsn : r.code[source]? = some insn) (hbefore : p.frame? source = some before)
    (hexec : Tracker.execute r.owner before insn source = (after, .ok effect)) :
    p.visit r h source = .ok ((p.noteEffect source effect).spread r h source insn after) := by
  unfold visit spread noteEffect
  simp only [hinsn, hbefore, Answer.require, bind, Except.bind, hexec]
  split <;> split <;> rfl

/-- A visit executes its instruction, or notes why it cannot. -/
theorem visit_cases {source : Nat} (hv : p.visit r h source = .ok p') :
    ∃ insn before, r.code[source]? = some insn ∧ p.frame? source = some before ∧
      ((∃ e, p' = p.fail source e) ∨
        ∃ after effect, Tracker.execute r.owner before insn source = (after, .ok effect) ∧
          p' = (p.noteEffect source effect).spread r h source insn after) := by
  have hv' := hv
  unfold visit at hv
  cases hinsn : r.code[source]? with
  | none => rw [hinsn] at hv; cases hv
  | some insn =>
  cases hbefore : p.frame? source with
  | none => rw [hinsn, hbefore] at hv; cases hv
  | some before =>
  refine ⟨insn, before, rfl, rfl, ?_⟩
  simp only [hinsn, hbefore, Answer.require, bind, Except.bind] at hv
  split at hv
  · cases hv
  · exact .inl ⟨_, (Except.ok.inj hv).symm⟩
  next after effect hexec =>
  rw [visit_eq hinsn hbefore hexec] at hv'
  exact .inr ⟨after, effect, hexec, (Except.ok.inj hv').symm⟩

/-- After the handlers, what an instruction leaves arrives at everything that can come next, unless
control falls off the end. -/
theorem spread_after {Q : Pass → Prop} {source : Nat} {insn : Instruction} {after : Frame}
    (start : Q (if insn.isMarker then p else p.enterHandlers r h source after))
    (next : insn.fallsThrough → source + 1 < r.size → ∀ q, Q q →
      Q (q.arrive r h (source + 1) after))
    (target : ∀ t ∈ r.targetOffsets insn, ∀ q, Q q → Q (q.arrive r h t after))
    (resume : insn.opcode.isSubroutineCall → source + 1 < r.size → ∀ q f, Q q →
      q.frame? source = some f → Q (q.arrive r h (source + 1) f))
    (fails : insn.fallsThrough → ¬ source + 1 < r.size → ∀ q e, Q q → Q (q.fail source e)) :
    Q (p.spread r h source insn after) := by
  -- entering the targets is a fold, with the return of a subroutine at its end
  have htargets (q : Pass) (hq : Q q) : Q (q.enterTargets r h source insn after) := by
    have hfold : Q ((r.targetOffsets insn).foldl (fun p t => p.arrive r h t after) q) :=
      List.foldlRecOn _ _ hq fun q hq t ht => target t ht q hq
    unfold enterTargets arriveFrom
    dsimp only
    split
    · next hcalls =>
      simp only [Bool.and_eq_true, decide_eq_true_eq] at hcalls
      split
      · next f hf => exact resume hcalls.1 hcalls.2 _ f hfold hf
      · exact hfold
    · exact hfold
  unfold spread
  dsimp only
  split
  · next hfalls =>
    split
    · next hlt => exact htargets _ (next hfalls hlt _ start)
    · next hlt => exact fails hfalls hlt _ _ start
  · exact htargets _ start

/-- **Everything that spreading does, it does by arrivals**, unless control falls off the end. -/
theorem spread_induction {Q : Pass → Prop} {source : Nat} {insn : Instruction} {after : Frame}
    (start : Q p)
    (arrives : ∀ q offset f, Q q → Arrival r source insn after q offset f →
      Q (q.arrive r h offset f))
    (fails : insn.fallsThrough → ¬ source + 1 < r.size → ∀ q e, Q q → Q (q.fail source e)) :
    Q (p.spread r h source insn after) := by
  refine spread_after ?_ (fun hfalls hlt q hq => arrives q _ _ hq (.next hfalls hlt))
    (fun t ht q hq => arrives q t after hq (.target ht))
    (fun hcalls hlt q f hq hf => arrives q _ _ hq (.resume hcalls hlt hf)) fails
  split
  · exact start
  next hreal =>
  have hreal : insn.isMarker = false := by simpa using hreal
  refine List.foldlRecOn _ _ start fun q hq region hregion => ?_
  obtain ⟨hmem, hcontains⟩ := List.mem_filter.1 hregion
  refine arrives _ _ _ ?_ (.caughtAfter hmem hcontains hreal)
  unfold arriveFrom
  split
  · next f hf => exact arrives q _ _ hq (.caughtBefore hmem hcontains hreal hf)
  · exact hq

/-! ### Errors -/

@[simp] theorem enqueue_errors (p : Pass) (offset : Nat) :
    (p.enqueue offset).errors = p.errors := by
  unfold enqueue
  split <;> rfl

theorem errors_of_fail {offset : Nat} {e : TrackError} (he : (p.fail offset e).errors = []) :
    p.errors = [] := by
  unfold fail at he
  split at he
  · exact he
  · cases he

theorem errors_of_arrive {offset : Nat} {f : Frame}
    (he : (p.arrive r h offset f).errors = []) : p.errors = [] := by
  unfold arrive at he
  split at he
  · exact he
  split at he
  · simpa using he
  split at he
  · exact errors_of_fail he
  · simpa using he
  · exact he

/-- Errors are only ever added. -/
theorem errors_of_visit {offset : Nat} (hv : p.visit r h offset = .ok p') (he : p'.errors = []) :
    p.errors = [] := by
  obtain ⟨insn, before, -, -, ⟨e, rfl⟩ | ⟨after, effect, -, rfl⟩⟩ := visit_cases hv
  · exact errors_of_fail he
  · have hkeeps : ((p.noteEffect offset effect).spread r h offset insn after).errors = [] →
        p.errors = [] :=
      spread_induction (Q := fun q => q.errors = [] → p.errors = []) (fun he => he)
        (fun q offset f hq _ he => hq (errors_of_arrive he))
        (fun _ _ q e hq he => hq (errors_of_fail he))
    exact hkeeps he

/-! ### The whole pass -/

/-- Takes the first offset out of line. -/
def dequeue (p : Pass) (offset : Nat) (rest : List Nat) : Pass :=
  { p with work := rest, queued := p.queued.setIfInBounds offset false }

@[simp] theorem dequeue_frame? (p : Pass) (offset : Nat) (rest : List Nat) (i : Nat) :
    (p.dequeue offset rest).frame? i = p.frame? i := rfl

/-- **What every visit keeps holds when nothing waits in line any more.** At each visit it is known
where the run comes to its end. -/
theorem run_induction_toward {Q : Pass → Prop} {fuel : Nat} (hrun : run r h fuel p = .ok p')
    (start : Q p)
    (skips : ∀ q offset rest, Q q → q.work = offset :: rest →
      (q.dequeue offset rest).hasFailed offset →
      Q (q.dequeue offset rest))
    (visits : ∀ q q' offset rest fuel, run r h fuel q = .ok p' → Q q → q.work = offset :: rest →
      (q.dequeue offset rest).hasFailed offset = false →
      (q.dequeue offset rest).visit r h offset = .ok q' → Q q') :
    Q p' ∧ p'.work = [] := by
  induction fuel generalizing p with
  | zero =>
    unfold run at hrun
    split at hrun
    · next hwork => exact Except.ok.inj hrun ▸ ⟨start, hwork⟩
    · cases hrun
  | succ fuel ih =>
    -- the rest of the run has still the same end
    have htoward := hrun
    unfold run at hrun
    split at hrun
    · next hwork => exact Except.ok.inj hrun ▸ ⟨start, hwork⟩
    next offset rest hwork =>
    dsimp only at hrun
    split at hrun
    · next hfailed => exact ih hrun (skips p offset rest start hwork hfailed)
    next hfailed =>
    split at hrun
    · next q hvisit =>
      exact ih hrun
        (visits p q offset rest _ htoward start hwork (Bool.eq_false_iff.2 hfailed) hvisit)
    · cases hrun

/-- **What every visit keeps holds when nothing waits in line any more.** -/
theorem run_induction {Q : Pass → Prop} {fuel : Nat} (hrun : run r h fuel p = .ok p') (start : Q p)
    (skips : ∀ q offset rest, Q q → q.work = offset :: rest →
      (q.dequeue offset rest).hasFailed offset →
      Q (q.dequeue offset rest))
    (visits : ∀ q q' offset rest, Q q → q.work = offset :: rest →
      (q.dequeue offset rest).hasFailed offset = false →
      (q.dequeue offset rest).visit r h offset = .ok q' → Q q') :
    Q p' ∧ p'.work = [] :=
  run_induction_toward hrun start skips fun q q' offset rest _ _ => visits q q' offset rest

end Pass

theorem Pass.frame?_start (n i : Nat) : (Pass.start n).frame? i = none := by
  simp only [Pass.start, Pass.frame?, Array.getElem?_replicate]
  split <;> rfl

/-- The pass with which an analysis begins. -/
def Pass.initial (r : Routine) (h : Hierarchy) : Pass :=
  if r.size = 0 then .start r.size else (Pass.start r.size).arrive r h 0 (entry r)

/-- An analysis that succeeds ends with a pass without errors. -/
theorem analyzeWithin_ok {fuel : Nat} {h : Hierarchy} {r : Routine} {flow : Flow}
    (hflow : analyzeWithin fuel h r = .ok flow) :
    ∃ p, Pass.run r h fuel (Pass.initial r h) = .ok p ∧ p.errors = [] ∧
      flow = ⟨r, p.frames, p.effects⟩ := by
  unfold analyzeWithin at hflow
  dsimp only at hflow
  change (Pass.run r h fuel (Pass.initial r h) >>= _) = _ at hflow
  cases hrun : Pass.run r h fuel (Pass.initial r h) with
  | error stop => rw [hrun] at hflow; cases hflow
  | ok p =>
  rw [hrun] at hflow
  simp only [bind, Except.bind] at hflow
  split at hflow
  · next he => exact ⟨p, rfl, List.isEmpty_iff.1 he, (Except.ok.inj hflow).symm⟩
  · cases hflow

end Flow

end Outliner
