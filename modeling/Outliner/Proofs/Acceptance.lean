import Outliner.Proofs.Resting
import Outliner.Proofs.Suiting

/-!
# Routines that have a data flow

`Flow.analyze` refuses a routine in which an instruction fails, stacks of different depth meet, or
control falls off the end. This module says when none of that happens.

A family of conditions, one for the frames at each offset, is *upheld* by a routine (`Flow.Upheld`)
when the frame on entry meets it, every instruction succeeds on a frame that meets it and brings
only such frames to whatever comes next, and two frames that meet it can be merged into a third. A
routine that upholds some family has a data flow (`Flow.Upheld.exists_flow`). Where the conditions
are that the frames do as well as one form for each offset expects (`Flow.Expects`), frames can
always be merged.
-/

namespace Outliner

namespace Flow

/-- **The conditions that a routine upholds**, one for the frames at each offset. -/
structure Upheld (r : Routine) (I : Nat → Frame → Prop) : Prop where
  entry : I 0 (entry r)
  merge : ∀ i f g, I i f → I i g → ∃ m changed, f.merge .flat g = .ok (m, changed) ∧ I i m
  step : ∀ i f, I i f → ∃ insn after effect, r.code[i]? = some insn ∧
    Tracker.execute r.owner f insn i = (after, .ok effect) ∧
    insn.opcode.isSubroutineCall = false ∧
    (insn.fallsThrough → i + 1 < r.size ∧ I (i + 1) after) ∧
    (∀ t ∈ r.targetOffsets insn, I t after) ∧
    (insn.isMarker = false → ∀ region ∈ r.regions, region.contains i →
      I region.handler (caught region f) ∧ I region.handler (caught region after))

namespace Pass

variable {r : Routine} {I : Nat → Frame → Prop} {p : Pass}

/-- A pass without errors, in which every frame meets its condition. -/
structure Sound (r : Routine) (I : Nat → Frame → Prop) (p : Pass) : Prop extends Lined r p where
  errors : p.errors = []
  meets : ∀ i f, p.frame? i = some f → I i f

/-- Raising a frame that meets its condition keeps a pass sound. -/
theorem Sound.raise (hs : Sound r I p) {offset : Nat} (hlt : offset < r.size) {f : Frame}
    (hI : I offset f) : Sound r I (p.raise offset f) := by
  refine ⟨hs.toLined.raise hlt f, ?_, fun i g hg => ?_⟩
  · rw [Pass.raise, enqueue_errors]
    exact hs.errors
  · rw [Pass.raise, frame?_raised hlt hs.tidy] at hg
    split at hg
    · next heq =>
      subst heq
      obtain rfl := Option.some.inj hg
      exact hI
    · exact hs.meets i g hg

/-- **An arrival keeps a pass sound**, if frames that meet their condition can be merged. -/
theorem Sound.arrive
    (hmerges : ∀ i f g, I i f → I i g → ∃ m changed, f.merge .flat g = .ok (m, changed) ∧ I i m)
    (hs : Sound r I p) {offset : Nat} (hlt : offset < r.size) {f : Frame} (hI : I offset f) :
    Sound r I (p.arrive r .flat offset f) := by
  unfold Pass.arrive
  rw [hs.tidy.hasFailed_eq_false hs.errors]
  simp only [Bool.false_eq_true, if_false]
  cases hknown : p.frame? offset with
  | none => exact hs.raise hlt hI
  | some known =>
    obtain ⟨m, changed, hmerge, hm⟩ := hmerges offset known f (hs.meets offset known hknown) hI
    dsimp only
    rw [hmerge]
    cases changed with
    | false => exact hs
    | true => exact hs.raise hlt hm

/-- **A visit keeps a pass sound**, and there is nothing that it could not do. -/
theorem Sound.visit (hr : r.Checked) (h : Upheld r I) (hs : Sound r I p) {offset : Nat}
    {before : Frame} (hbefore : p.frame? offset = some before) :
    ∃ p', p.visit r .flat offset = .ok p' ∧ Sound r I p' := by
  obtain ⟨insn, after, effect, hinsn, hexec, hsub, hnext, htarget, hhandler⟩ :=
    h.step offset before (hs.meets offset before hbefore)
  refine ⟨_, visit_eq hinsn hbefore hexec, ?_⟩
  have hnoted : Sound r I (p.noteEffect offset effect) :=
    ⟨hs.toLined.noteEffect offset effect, hs.errors, hs.meets⟩
  refine spread_induction hnoted ?_ fun hfalls hlt => absurd (hnext hfalls).1 hlt
  intro q target f hq ha
  refine hq.arrive h.merge (ha.lt hr) ?_
  cases ha with
  | next falls _ => exact (hnext falls).2
  | target mem => exact htarget _ mem
  | @caughtBefore region f mem contains real known =>
    -- the frame known now need not be the one that was visited
    obtain ⟨insn', _, _, hinsn', -, -, -, -, hnow⟩ := h.step offset f (hq.meets offset f known)
    obtain rfl := Option.some.inj (hinsn.symm.trans hinsn')
    exact (hnow real region mem contains).1
  | @caughtAfter region mem contains real => exact (hhandler real region mem contains).2
  | resume calls => rw [hsub] at calls; cases calls

theorem Sound.dequeue (hs : Sound r I p) {offset : Nat} {rest : List Nat}
    (hwork : p.work = offset :: rest) :
    Sound r I (p.dequeue offset rest) ∧
      ∃ before, (p.dequeue offset rest).frame? offset = some before :=
  ⟨⟨hs.toLined.dequeue hwork, hs.errors, hs.meets⟩,
    Option.isSome_iff_exists.1 (hs.work offset (hwork ▸ List.mem_cons_self))⟩

/-- A pass starts soundly. -/
theorem sound_initial
    (hmerges : ∀ i f g, I i f → I i g → ∃ m changed, f.merge .flat g = .ok (m, changed) ∧ I i m)
    (hentry : I 0 (Flow.entry r)) : Sound r I (initial r .flat) := by
  have hstart : Sound r I (start r.size) :=
    ⟨⟨tidy_start _, nofun⟩, rfl, fun i f hf => absurd hf (by simp [frame?_start])⟩
  unfold initial
  split
  · exact hstart
  · exact hstart.arrive hmerges (Nat.pos_of_ne_zero ‹_›) hentry

end Pass

/-- **A routine that upholds conditions on its frames has a data flow.** -/
theorem Upheld.exists_flow {r : Routine} {I : Nat → Frame → Prop} (hr : r.Checked)
    (h : Upheld r I) : ∃ flow, analyze .flat r = .ok flow := by
  have hinitial : Pass.Sound r I (Pass.initial r .flat) := Pass.sound_initial h.merge h.entry
  -- a visit is never refused, and it keeps the invariant
  have hvisits (q : Pass) (offset : Nat) (rest : List Nat) (hq : q.Sound r I)
      (hwork : q.work = offset :: rest) :
      ∃ q', (q.dequeue offset rest).visit r .flat offset = .ok q' ∧ q'.Sound r I := by
    obtain ⟨hs, before, hbefore⟩ := hq.dequeue hwork
    exact hs.visit hr h hbefore
  have hkeeps (q q' : Pass) (offset : Nat) (rest : List Nat) (hq : q.Sound r I)
      (hwork : q.work = offset :: rest) (_ : (q.dequeue offset rest).hasFailed offset = false)
      (hvisit : (q.dequeue offset rest).visit r .flat offset = .ok q') : q'.Sound r I := by
    obtain ⟨q'', hq'', hs⟩ := hvisits q offset rest hq hwork
    rw [hvisit] at hq''
    exact Except.ok.inj hq'' ▸ hs
  -- so a pass comes to rest: it does not stop at a visit, and its patience is not exhausted
  rcases Pass.run_cases (patience r) hinitial
      (fun q offset rest hq hwork _ => (hq.dequeue hwork).1) hkeeps with
    ⟨p, hrun, hp⟩ | hrestless | ⟨q, offset, rest, stop, hq, hwork, hvisit, -⟩
  · refine ⟨⟨r, p.frames, p.effects⟩, ?_⟩
    rw [analyze_eq, hrun]
    simp only [bind, Except.bind, hp.errors]
    rfl
  · obtain ⟨cap, hc, hroom⟩ := contained_initial r
    exact absurd hrestless (hc.run_ne_restless hr hroom)
  · obtain ⟨q', hq', -⟩ := hvisits q offset rest hq hwork
    rw [hvisit] at hq'
    cases hq'

/-! ### One form for each offset -/

/-- A frame does as well as is expected at an offset. -/
def Meets (owner : String) (At : Nat → Form → Prop) (j : Nat) (f : Frame) : Prop :=
  ∃ v, At j v ∧ v.Fits owner f

/-- The instruction at an offset is accepted on frame `f`, and what is expected is met wherever
control goes from there. -/
def Moves (owner : String) (r : Routine) (At : Nat → Form → Prop) (j : Nat) (f : Frame) : Prop :=
  ∃ insn after effect, r.code[j]? = some insn ∧
    Tracker.execute owner f insn j = (after, .ok effect) ∧ insn.opcode.isSubroutineCall = false ∧
    (insn.fallsThrough → Meets owner At (j + 1) after) ∧
    (∀ t ∈ r.targetOffsets insn, Meets owner At t after) ∧
    (insn.isMarker = false → ∀ region ∈ r.regions, region.contains j →
      Meets owner At region.handler (caught region f) ∧
        Meets owner At region.handler (caught region after))

/-- **What is expected of the frame before each instruction of a routine**: it is met on entry, and
an instruction that finds it met passes it on. -/
structure Expects (r : Routine) (At : Nat → Form → Prop) : Prop where
  unique : ∀ j v w, At j v → At j w → v = w
  entry : Meets r.owner At 0 (entry r)
  step : ∀ j v f, At j v → v.Fits r.owner f → Moves r.owner r At j f

theorem Expects.upheld {r : Routine} {At : Nat → Form → Prop} (h : Expects r At) :
    Upheld r (Meets r.owner At) where
  entry := h.entry
  merge := by
    rintro i f g ⟨v, hv, hf⟩ ⟨w, hw, hg⟩
    obtain rfl := h.unique i v w hv hw
    obtain ⟨m, changed, hm, hfits⟩ := hf.merge hg
    exact ⟨m, changed, hm, v, hv, hfits⟩
  step := by
    rintro i f ⟨v, hv, hf⟩
    obtain ⟨insn, after, effect, hinsn, hexec, hplain, hnext, htargets, hregions⟩ :=
      h.step i v f hv hf
    refine ⟨insn, after, effect, hinsn, hexec, hplain, fun hfalls => ?_, htargets, hregions⟩
    obtain ⟨w, hw, hafter⟩ := hnext hfalls
    obtain ⟨insn', -, -, hinsn', -⟩ := h.step (i + 1) w after hw hafter
    exact ⟨(Array.getElem?_eq_some_iff.1 hinsn').1, w, hw, hafter⟩

end Flow

end Outliner
