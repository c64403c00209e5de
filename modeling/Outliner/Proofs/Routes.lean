import Outliner.Proofs.Abreast
import Outliner.Proofs.Visits

/-!
# Along the routes of a data flow

The frames of a data flow absorb whatever control brings. That alone says little about them, since
the unusable type absorbs everything. What more there is to say comes from how the frames arose:
every instruction with a frame lies on a route from the first one (`Flow.Route`), so what holds of
the frame on entry, and is passed on by an instruction to whatever absorbs its outcome, holds of
every frame (`Flow.frames_induction`).

The first use is that in a verified data flow (`Flow.Verified`) no frame takes a wide value apart:
for each there is a frame that does as well (`Flow.Proper.exists_fits`). Hence an instruction takes
off all the operands that it is verified to find (`Flow.Proper.asked_le_pops`).
-/

namespace Outliner

/-- **Executing an instruction on a frame that fits one form gives a frame that fits another.** -/
def Form.Does (owner : String) (v : Form) (insn : Instruction) (w : Form) : Prop :=
  ∀ (offset : Nat) (f : Frame), v.Fits owner f → ∃ after effect,
    Tracker.execute owner f insn offset = (after, .ok effect) ∧ w.Fits owner after

/-- What is expected of a frame that is to do as well as another one in all respects. -/
def Frame.whole (f : Frame) (owner : String) : Form :=
  f.form owner id (fun _ => True) 0

namespace Frame

variable {owner : String} {f f' g after : Frame}

theorem fits_whole_iff :
    (f.whole owner).Fits owner g ↔ StackSuits owner false f.stack g.stack ∧
      ∀ slot, (f.slot slot).Suits owner (g.slot slot) := by
  unfold whole
  rw [fits_form_iff, Nat.sub_zero, depth, List.take_length]
  simp

/-- What does as well as a frame in all respects does as well when an exception was caught. -/
theorem fits_caught (region : Region) (h : ∀ slot, (f'.slot slot).Suits owner (g.slot slot)) :
    ((Flow.caught region f').whole owner).Fits owner (Flow.caught region g) := by
  refine fits_whole_iff.2 ⟨?_, h⟩
  refine StackSuits.push .nil (.refl owner _) ?_
  split
  · exact JType.noConfusion
  · exact Tracker.ofClassName_usable _

theorem Absorbs.fits_whole (h : f'.Absorbs .flat f) (hg : (f.whole owner).Fits owner g) :
    (f'.whole owner).Fits owner g :=
  h.fits hg

end Frame

theorem Instruction.reslot_id (insn : Instruction) : insn.reslot id = insn := by
  cases insn <;> rfl

/-- A verified instruction does on every frame that does as well what it does on its own. -/
theorem Frame.whole_does {owner : String} {f after g : Frame} {insn : Instruction} {i : Nat}
    {effect : Effect} (hverified : insn.Verified f) {values rest : List JType}
    (htakes : insn.Takes values) (hstack : f.stack = cellsOfAll values ++ rest)
    (hexec : Tracker.execute owner f insn i = (after, .ok effect))
    (hg : (f.whole owner).Fits owner g) (j : Nat) :
    (cellsOfAll values).length ≤ effect.pops ∧ ∃ after' effect',
      Tracker.execute owner g insn j = (after', .ok effect') ∧
      (after.whole owner).Fits owner after' := by
  obtain ⟨hsuits, hslots⟩ := fits_whole_iff.1 hg
  obtain ⟨after', effect', hexec', ⟨upper, base, hafter, hbase, hupper⟩, hslots', -, hasked⟩ :=
    Tracker.execute_outcome (c := ⟨owner, id, fun _ => True, f, []⟩) (fun _ _ _ _ h => h)
      hverified (fun _ _ _ => trivial) htakes (by rw [hstack, List.append_nil]) (hstack ▸ hsuits)
      (fun slot _ => hslots slot) hexec j
  rw [Instruction.reslot_id] at hexec'
  cases hbase
  rw [List.append_nil] at hafter
  exact ⟨hasked, after', effect', hexec', fits_whole_iff.2 ⟨hafter ▸ hupper,
    fun slot => hslots' slot trivial⟩⟩

namespace Flow

variable {r : Routine} {flow : Flow}

/-! ### Routes -/

/-- What an instruction brings to an offset, when `f` is the frame before it and `after` the one it
leaves. -/
inductive Delivers (r : Routine) (i : Nat) (insn : Instruction) (f after : Frame) :
    Nat → Frame → Prop where
  | next (falls : insn.fallsThrough) : Delivers r i insn f after (i + 1) after
  | target {t : Nat} (mem : t ∈ r.targetOffsets insn) : Delivers r i insn f after t after
  | handler {region : Region} (mem : region ∈ r.regions) (contains : region.contains i)
    (real : insn.isMarker = false) : Delivers r i insn f after region.handler (caught region f)
  | resume (calls : insn.opcode.isSubroutineCall) (lt : i + 1 < r.size) :
    Delivers r i insn f after (i + 1) f

/-- Where control goes does not depend on the frames. -/
theorem Delivers.reframe {i j : Nat} {insn : Instruction} {f after g : Frame}
    (h : Delivers r i insn f after j g) (f' after' : Frame) :
    ∃ g', Delivers r i insn f' after' j g' := by
  cases h with
  | next falls => exact ⟨after', .next falls⟩
  | target mem => exact ⟨after', .target mem⟩
  | handler mem contains real => exact ⟨_, .handler mem contains real⟩
  | resume calls lt => exact ⟨f', .resume calls lt⟩

/-- The offsets control can come to from the first one. -/
inductive Route (r : Routine) : Nat → Prop where
  | entry : Route r 0
  | step {i j : Nat} {insn : Instruction} {f after g : Frame} (route : Route r i)
    (code : r.code[i]? = some insn) (delivers : Delivers r i insn f after j g) : Route r j

/-- An offset known after an arrival was known before, or is the one arrived at. -/
theorem Pass.knows_of_arrive {h : Hierarchy} {p : Pass} {n offset : Nat} (ht : Pass.Tidy n p)
    (hlt : offset < n) {f : Frame} {i : Nat} (hk : (p.arrive r h offset f).Knows i) :
    i = offset ∨ p.Knows i := by
  rcases Pass.arrive_cases (r := r) (h := h) offset f p with heq | ⟨e, heq⟩ | ⟨g, -, -, heq⟩
  · rw [heq] at hk
    exact .inr hk
  · rw [heq, Pass.Knows, Pass.fail_frame?] at hk
    exact .inr hk
  · rw [heq, Pass.Knows, Pass.frame?_raised hlt ht] at hk
    split at hk
    · next h => exact .inl h.symm
    · exact .inr hk

/-- **Every instruction with a frame lies on a route.** -/
theorem route_of_reachable {h : Hierarchy} (hr : r.Checked)
    (hflow : analyze h r = .ok flow) {i : Nat} (hi : flow.reachable i) : Route r i := by
  obtain ⟨p, hrun, -, rfl⟩ := analyzeWithin_ok hflow
  suffices hall : (Pass.Tidy r.size p ∧ ∀ i, p.Knows i → Route r i) ∧ p.work = [] from hall.1.2 i hi
  -- The induction is over the run of the pass: a frame becomes known by an arrival, and an arrival
  -- comes from an instruction that has a route already.
  refine Pass.run_induction (Q := fun p => Pass.Tidy r.size p ∧ ∀ i, p.Knows i → Route r i) hrun ?_
    (fun q offset rest hq hwork _ => ⟨hq.1.dequeue hwork, hq.2⟩) ?_
  · unfold Pass.initial
    split
    · exact ⟨Pass.tidy_start _, fun i hi => absurd hi (by simp [Pass.Knows, Pass.frame?_start])⟩
    · next hne =>
      have hlt : 0 < r.size := by omega
      refine ⟨(Pass.tidy_grows_arrive hlt (entry r) (Pass.tidy_start r.size)).1, fun i hi => ?_⟩
      rcases Pass.knows_of_arrive (Pass.tidy_start r.size) hlt hi with rfl | hi
      · exact .entry
      · exact absurd hi (by simp [Pass.Knows, Pass.frame?_start])
  · rintro q q' source rest ⟨ht, hq⟩ hwork - hvisit
    have ht := ht.dequeue hwork
    obtain ⟨insn, before, hinsn, hbefore, ⟨e, rfl⟩ | ⟨after, effect, -, rfl⟩⟩ :=
      Pass.visit_cases hvisit
    · exact ⟨ht.fail source e, fun i hi => hq i (by simpa [Pass.Knows] using hi)⟩
    have hsource : Route r source := hq source (by
      rw [Pass.dequeue_frame?] at hbefore
      simp [Pass.Knows, hbefore])
    refine Pass.spread_induction (Q := fun q => Pass.Tidy r.size q ∧ ∀ i, q.Knows i → Route r i)
      ⟨ht.setEffect source effect, hq⟩ (fun q offset f hQ ha => ?_)
      fun _ _ q e hQ => ⟨hQ.1.fail source e, fun i hi => hQ.2 i (by simpa [Pass.Knows] using hi)⟩
    have hlt := ha.lt hr
    refine ⟨(Pass.tidy_grows_arrive hlt f hQ.1).1, fun i hi => ?_⟩
    rcases Pass.knows_of_arrive hQ.1 hlt hi with rfl | hi
    · have hstep {j : Nat} {g : Frame} (hd : Delivers r source insn before after j g) : Route r j :=
        .step hsource hinsn hd
      cases ha with
      | next falls => exact hstep (.next falls)
      | target mem => exact hstep (.target mem)
      | caughtBefore mem contains real => exact hstep (.handler mem contains real)
      | caughtAfter mem contains real => exact hstep (.handler mem contains real)
      | resume calls lt => exact hstep (.resume calls lt)
    · exact hQ.2 i hi

/-- What a settled instruction brings is known there. -/
theorem Pass.Settled.covers {R : Frame → Frame → Prop} {p : Pass} {i j : Nat} {f after g : Frame}
    {insn : Instruction} (h : Pass.Settled R r p i f insn after)
    (hd : Delivers r i insn f after j g) : p.Covers R j g := by
  cases hd with
  | next falls => exact h.next falls
  | target mem => exact h.target _ mem
  | handler mem contains real => exact h.before _ mem contains real
  | resume calls lt => exact h.resume calls lt

/-- Every instruction with a frame has been applied to it. -/
theorem executed {H : Hierarchy} (hr : r.Checked) (hflow : analyze H r = .ok flow) {i : Nat}
    {f : Frame} (hf : flow.frame? i = some (some f)) :
    ∃ insn after, r.code[i]? = some insn ∧
      Tracker.execute r.owner f insn i = (after, .ok (flow.effect i)) := by
  obtain ⟨-, hsize, -⟩ := analyze_onward hr hflow
  rw [frame?_natCast] at hf
  have hlt := (Array.getElem?_eq_some_iff.1 hf).1
  have hall : Frame.Lasts H fun _ _ => True :=
    ⟨fun _ => trivial, fun _ => trivial, fun _ _ => trivial⟩
  obtain ⟨p, rfl, -, hwork, hexplored, -⟩ := analyze_settled hall hr (by omega) hflow
  obtain ⟨insn, after, hinsn, hsettled⟩ :=
    (hexplored i f (Option.join_eq_some_iff.2 hf)).resolve_left (by simp [hwork])
  exact ⟨insn, after, hinsn, hsettled.executed⟩

/-- **What the frame on entry has, and every instruction passes on, all frames have.** The frames
are related to what arrives there by a relation that lasts. -/
theorem settled_induction {H : Hierarchy} {R : Frame → Frame → Prop} (hR : Frame.Lasts H R)
    (hr : r.Checked) (hflow : analyze H r = .ok flow) {P : Nat → Frame → Prop}
    (entry : ∀ f, R f (entry r) → P 0 f)
    (step : ∀ (i j : Nat) (f f' after g : Frame) (insn : Instruction),
      flow.frame? i = some (some f) →
      r.code[i]? = some insn →
      Tracker.execute r.owner f insn i = (after, .ok (flow.effect i)) → P i f →
      Delivers r i insn f after j g → flow.frame? j = some (some f') → R f' g → P j f') :
    ∀ (i : Nat) (f : Frame), flow.frame? i = some (some f) → P i f := by
  intro i f hf
  have hreach : flow.reachable i := reachable_iff.2 ⟨f, hf⟩
  obtain ⟨-, hsize, -⟩ := analyze_onward hr hflow
  have hne : 0 < r.size := by
    rw [frame?_natCast] at hf
    have := (Array.getElem?_eq_some_iff.1 hf).1
    omega
  obtain ⟨p, rfl, -, hwork, hexplored, hentry⟩ := analyze_settled hR hr hne hflow
  -- the frames of the data flow are those of the pass at its end
  have hknown {i : Nat} {f : Frame} (h : p.frame? i = some f) :
      frame? ⟨r, p.frames, p.effects⟩ i = some (some f) := by
    rw [frame?_natCast]
    exact Option.join_eq_some_iff.1 h
  -- the induction is on the route, along which every frame is settled
  have hroute : ∀ i, Route r i → ∃ f, p.frame? i = some f ∧ P i f := by
    intro i hi
    induction hi with
    | entry =>
      obtain ⟨f, hf, hover⟩ := hentry
      exact ⟨f, hf, entry f hover⟩
    | @step i j insn _ _ _ _ code delivers ih =>
      obtain ⟨f, hf, hP⟩ := ih
      obtain ⟨insn', after, hinsn', hsettled⟩ := (hexplored i f hf).resolve_left (by simp [hwork])
      obtain rfl := Option.some.inj (code.symm.trans hinsn')
      obtain ⟨g, hg⟩ := delivers.reframe f after
      obtain ⟨f', hf', hover⟩ := hsettled.covers hg
      exact ⟨f', hf', step i j f f' after g insn (hknown hf) code hsettled.executed hP hg
        (hknown hf') hover⟩
  obtain ⟨f', hf', hP⟩ := hroute i (route_of_reachable hr hflow hreach)
  obtain rfl := Option.some.inj (Option.some.inj (hf.symm.trans (hknown hf')))
  exact hP

/-- **What the frame on entry has, and every instruction passes on, all frames have.** -/
theorem frames_induction (hr : r.Checked)
    (hflow : analyze .flat r = .ok flow) {P : Nat → Frame → Prop}
    (entry : ∀ f, f.Absorbs .flat (entry r) → P 0 f)
    (step : ∀ (i j : Nat) (f f' after g : Frame) (insn : Instruction),
      flow.frame? i = some (some f) → r.code[i]? = some insn →
      flow.AtRest i f insn after → P i f → Delivers r i insn f after j g →
      flow.frame? j = some (some f') → f'.Absorbs .flat g → P j f') :
    ∀ (i : Nat) (f : Frame), flow.frame? i = some (some f) → P i f := by
  obtain ⟨hroutine, hsize, -⟩ := analyze_onward hr hflow
  refine settled_induction Frame.lasts_absorbs hr hflow entry
    fun i j f f' after g insn hf hinsn hexec hP hd hf' habsorbs =>
      step i j f f' after g insn hf hinsn ?_ hP hd hf' habsorbs
  have hne : 0 < r.size := by
    have hlt := (Array.getElem?_eq_some_iff.1 hinsn).1
    exact Nat.zero_lt_of_lt hlt
  obtain ⟨insn', after', hinsn', hrest⟩ := atRest hr hne hflow hf
  obtain rfl := Option.some.inj (hinsn.symm.trans hinsn')
  have hexec' := hrest.executed
  rw [hroutine, hexec] at hexec'
  exact (Prod.mk.inj hexec').1 ▸ hrest

theorem stack_entry (r : Routine) : (entry r).stack = [] := by
  have hsetArguments (f : Frame) (index : Nat) (args : List JType) :
      (setArguments f index args).stack = f.stack := by
    induction args generalizing f index with
    | nil => rfl
    | cons t rest ih => exact ih _ _
  unfold entry
  split <;> rw [hsetArguments] <;> rfl

/-- The frame on entry does as well as itself. -/
theorem entry_fits (r : Routine) {owner : String} :
    ((entry r).whole owner).Fits owner (entry r) := by
  refine Frame.fits_whole_iff.2 ⟨?_, fun slot => .refl _ _⟩
  rw [stack_entry]
  exact .nil

/-! ### Verified data flows -/

/-- **Every reachable instruction finds what it asks for** in the frame before it. -/
def Verified (flow : Flow) : Prop :=
  ∀ (i : Nat) (f : Frame) (insn : Instruction), flow.frame? i = some (some f) →
    flow.routine.code[i]? = some insn → insn.Verified f ∧ insn.ArrayVerified f.stack

/-- **The verified data flow of a canonical routine.** -/
structure Proper (flow : Flow) : Prop where
  checked : flow.routine.Checked
  canonical : flow.routine.Canonical
  analyzed : analyze .flat flow.routine = .ok flow
  verified : flow.Verified

namespace Proper

variable (hp : flow.Proper)

include hp

theorem atRest {i : Nat} {f : Frame} (hf : flow.frame? i = some (some f)) :
    ∃ insn after, flow.routine.code[i]? = some insn ∧ flow.AtRest i f insn after := by
  have hsize := (analyze_onward hp.checked hp.analyzed).2.1
  have hi := hf
  rw [frame?_natCast] at hi
  have hlt := (Array.getElem?_eq_some_iff.1 hi).1
  exact Flow.atRest hp.checked (by omega) hp.analyzed hf

/-- An instruction does on every frame that does as well what it does on its own. -/
theorem does {i : Nat} {f after g : Frame} {insn : Instruction} {effect : Effect}
    (hf : flow.frame? i = some (some f)) (hinsn : flow.routine.code[i]? = some insn)
    (hexec : Tracker.execute flow.routine.owner f insn i = (after, .ok effect))
    (hg : (f.whole flow.routine.owner).Fits flow.routine.owner g) (j : Nat) :
    ∃ after' effect', Tracker.execute flow.routine.owner g insn j = (after', .ok effect') ∧
      (after.whole flow.routine.owner).Fits flow.routine.owner after' := by
  obtain ⟨hverified, harray⟩ := hp.verified i f insn hf hinsn
  obtain ⟨values, rest, hstack, htakes⟩ := Instruction.exists_takes hverified.stack harray
  exact (Frame.whole_does hverified htakes hstack hexec hg j).2

/-- For every frame there is one that does as well. -/
theorem exists_fits {i : Nat} {f : Frame} (hf : flow.frame? i = some (some f)) :
    ∃ g, (f.whole flow.routine.owner).Fits flow.routine.owner g := by
  refine frames_induction hp.checked hp.analyzed
    (P := fun _ f => ∃ g, (f.whole flow.routine.owner).Fits flow.routine.owner g)
    (fun f habsorbs => ⟨entry flow.routine, habsorbs.fits_whole (entry_fits _)⟩)
    (fun i j f f' after g insn hf hinsn hrest ⟨fitting, hfits⟩ hd _ habsorbs => ?_) i f hf
  obtain ⟨after', effect', -, hafter⟩ := hp.does hf hinsn hrest.executed hfits i
  cases hd with
  | next falls => exact ⟨after', habsorbs.fits_whole hafter⟩
  | target mem => exact ⟨after', habsorbs.fits_whole hafter⟩
  | handler mem contains real =>
    exact ⟨_, habsorbs.fits_whole (Frame.fits_caught _ (Frame.fits_whole_iff.1 hfits).2)⟩
  | resume calls lt => exact ⟨fitting, habsorbs.fits_whole hfits⟩

/-- **An instruction takes off all the operands it finds.** -/
theorem asked_le_pops {i : Nat} {f after : Frame} {insn : Instruction} {effect : Effect}
    (hf : flow.frame? i = some (some f)) (hinsn : flow.routine.code[i]? = some insn)
    (hexec : Tracker.execute flow.routine.owner f insn i = (after, .ok effect))
    {values rest : List JType} (htakes : insn.Takes values)
    (hstack : f.stack = cellsOfAll values ++ rest) :
    (cellsOfAll values).length ≤ effect.pops := by
  obtain ⟨g, hg⟩ := hp.exists_fits hf
  exact (Frame.whole_does (hp.verified i f insn hf hinsn).1 htakes hstack hexec hg i).1

end Proper

end Flow

end Outliner
