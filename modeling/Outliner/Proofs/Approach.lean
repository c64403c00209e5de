import Outliner.Proofs.Acceptance
import Outliner.Proofs.Rework
import Outliner.Proofs.Sparing

/-!
# On the way to the last frames

The frames of a data flow arise in a pass that raises them step by step, and an instruction may be
executed on several frames before the last one. If the data flow is verified, so is every frame on
the way: it is absorbed by the last one and does as well (`Instruction.Verified.of_absorbs`), hence
the instruction finds the operands it asks for. So what the frame on entry has, merging keeps and a
verified instruction passes on, all the last frames have (`Movable.approach`).

This is more than an induction along the routes gives. The last frames absorb whatever control
brings, which bounds them from below; how they arose bounds them from above.
-/

namespace Outliner

/-! ### Operands in a frame that is absorbed -/

/-- What a usable type absorbs is itself, if it is the type of an object that is not initialized. -/
theorem JType.Absorbs.eq_of_isUninitialized {t g : JType} (h : t.Absorbs .flat g) (ht : t ≠ .top)
    (hg : g.isUninitialized) : t = g := by
  rcases JType.absorbs_flat_iff.1 h with h | h | ⟨-, hmergeable⟩ | ⟨-, rfl⟩
  · exact h
  · exact absurd h ht
  · cases g <;> first | cases hg; done | cases hmergeable
  · cases hg

theorem JType.Absorbs.isSingle {t g : JType} (h : t.Absorbs .flat g) (ht : t.isSingle) :
    g.isSingle := by
  rcases JType.absorbs_flat_iff.1 h with rfl | rfl | ⟨rfl, hmergeable⟩ | ⟨-, rfl⟩
  · exact ht
  · cases ht
  · cases g <;> first | rfl | cases hmergeable
  · rfl

theorem SlotKind.holds_of_absorbs {kind : SlotKind} {t g : JType} (h : t.Absorbs .flat g)
    (ht : kind.holds t) : kind.holds g := by
  rcases JType.absorbs_flat_iff.1 h with rfl | rfl | ⟨rfl, hmergeable⟩ | ⟨hmergeable, rfl⟩
  · exact ht
  · exact absurd rfl (holds_usable ht).1
  · cases kind <;> first | cases ht; done | cases g <;> first | rfl | cases hmergeable
  · cases kind with
    | ref => rfl
    | _ =>
      obtain rfl := of_decide_eq_true ht
      cases hmergeable

section Stacks

variable {owner : String} {under : Bool} {ts gs : List JType}

/-- Cells below others. -/
theorem StackSuits.drop (h : StackSuits owner under ts gs) (n : Nat) :
    ∃ under', StackSuits owner under' (ts.drop n) (gs.drop n) := by
  induction n generalizing under ts gs with
  | zero => exact ⟨under, h⟩
  | succ n ih =>
    cases h with
    | nil => exact ⟨under, .nil⟩
    | cons cell rest => exact ih rest

/-- A wide value stands where it is expected, under its second half. -/
theorem StackSuits.wide_cons {t : JType} (h : StackSuits owner under (.top :: t :: ts) gs)
    (hsize : t.size = 2) :
    ∃ under' gs', gs = .top :: t :: gs' ∧ StackSuits owner under' ts gs' := by
  cases h with
  | @cons _ _ g _ _ cell rest =>
  cases rest with
  | @cons _ _ g' _ gs' cell' rest =>
  obtain rfl := cell'.wide hsize
  exact ⟨_, gs', by rw [(of_decide_eq_true (cell'.under hsize)).2], rest⟩

/-- **Whole values stand where they are expected**, and objects that are not initialized are the
ones expected. -/
theorem Whole.of_absorbs {n : Nat} (hw : Whole n ts) (h : StackSuits owner under ts gs)
    (habsorbs : List.Forall₂ (JType.Absorbs .flat) ts gs) :
    Whole n gs ∧ ∀ a ∈ gs.take n, a.isUninitialized → a ∈ ts.take n := by
  induction hw generalizing under gs with
  | zero => exact ⟨.zero _, fun a ha => absurd ha List.not_mem_nil⟩
  | @single n t ts hsingle _ ih =>
    -- a type that absorbs none but itself stays the type of a value of one cell
    cases habsorbs with
    | cons hhead htail =>
    cases h with
    | cons cell rest =>
    obtain ⟨hwhole, hmem⟩ := ih rest htail
    refine ⟨.single (hhead.isSingle hsingle) hwhole, fun a ha hu => ?_⟩
    rcases List.mem_cons.1 ha with rfl | ha
    · have htop : t ≠ .top := by
        rintro rfl
        cases hsingle
      rw [hhead.eq_of_isUninitialized htop hu]
      exact List.mem_cons_self
    · exact List.mem_cons_of_mem _ (hmem a ha hu)
  | @wide n t ts hsize _ ih =>
    -- no half of a wide value is uninitialized, so only the cells below matter
    obtain ⟨under', gs', rfl, hrest⟩ := h.wide_cons hsize
    cases habsorbs with
    | cons _ htail =>
    cases htail with
    | cons _ htail =>
    obtain ⟨hwhole, hmem⟩ := ih hrest htail
    refine ⟨.wide hsize hwhole, fun a ha hu => ?_⟩
    simp only [List.take_succ_cons, List.mem_cons] at ha ⊢
    exact ha.imp_right (.imp_right fun ha => hmem a ha hu)

theorem Begins.of_absorbs {kinds : List SlotKind} (hb : Begins kinds ts)
    (h : StackSuits owner under ts gs) (habsorbs : List.Forall₂ (JType.Absorbs .flat) ts gs) :
    Begins kinds gs := by
  induction kinds generalizing under ts gs with
  | nil => trivial
  | cons kind kinds ih =>
    obtain ⟨t, rest, hholds, rfl, hrest⟩ := hb
    by_cases hsize : t.size = 2
    · rw [Frame.cellsOf, if_pos hsize] at h habsorbs
      obtain ⟨under', gs', rfl, hsuits⟩ := h.wide_cons hsize
      cases habsorbs with
      | cons _ htail =>
      cases htail with
      | cons _ htail =>
      exact ⟨t, gs', hholds, by rw [Frame.cellsOf, if_pos hsize]; rfl, ih hrest hsuits htail⟩
    · rw [Frame.cellsOf, if_neg hsize] at h habsorbs
      cases habsorbs with
      | @cons _ g _ gs' hhead htail =>
      cases h with
      | cons cell below =>
      have hnarrow := cell.narrow hsize (SlotKind.holds_usable hholds).1
      refine ⟨g, gs', SlotKind.holds_of_absorbs hhead hholds, ?_, ih hrest below htail⟩
      rw [Frame.cellsOf, if_neg hnarrow]
      rfl

end Stacks

/-! ### Whole operands -/

theorem Whole.append {n k : Nat} {ts : List JType} (h : Whole n ts) (h' : Whole k (ts.drop n)) :
    Whole (n + k) ts := by
  induction h with
  | zero => rwa [Nat.zero_add]
  | single hsingle _ ih =>
    rw [Nat.add_right_comm]
    exact .single hsingle (ih h')
  | wide hsize _ ih =>
    rw [Nat.add_right_comm]
    exact .wide hsize (ih h')

theorem Begins.whole {kinds : List SlotKind} {ts : List JType} (h : Begins kinds ts) :
    Whole (SlotKind.total kinds) ts := by
  induction kinds generalizing ts with
  | nil => exact .zero ts
  | cons kind kinds ih =>
    obtain ⟨t, rest, hholds, rfl, hrest⟩ := h
    obtain ⟨htop, hsize⟩ := SlotKind.holds_usable hholds
    have hlength := SlotKind.length_cellsOf hholds
    change Whole (kind.size + SlotKind.total kinds) _
    rw [← hlength]
    unfold Frame.cellsOf
    split
    · next htwo =>
      rw [Nat.add_comm]
      exact .wide htwo (ih hrest)
    · next htwo =>
      rw [Nat.add_comm]
      refine .single ?_ (ih hrest)
      have hone : t.size = 1 := by
        rw [hsize] at htwo ⊢
        cases kind <;> first | rfl | exact absurd rfl htwo
      simp [JType.isSingle, hone, htop]

namespace Instruction

variable {insn : Instruction} {owner : String}

/-- The cells a verified instruction takes off are whole values. -/
theorem StackVerified.whole {stack : List JType} (h : insn.StackVerified stack) :
    Whole insn.drawn stack := by
  revert h
  unfold StackVerified drawn
  cases insn.opcode with
  | pop | pop2 => exact id
  | shuffle form =>
    intro h
    have hwhole := h.1.append h.2
    rw [show form.upper + form.lower = form.taken by cases form <;> rfl] at hwhole
    exact hwhole
  | _ => exact Begins.whole

theorem StackVerified.of_absorbs {under : Bool} {ts gs : List JType} (hv : insn.StackVerified ts)
    (h : StackSuits owner under ts gs) (habsorbs : List.Forall₂ (JType.Absorbs .flat) ts gs) :
    insn.StackVerified gs := by
  unfold StackVerified at hv ⊢
  split at hv
  · exact (hv.of_absorbs h habsorbs).1
  · exact (hv.of_absorbs h habsorbs).1
  · next form _ =>
    obtain ⟨under', hdrop⟩ := h.drop form.upper
    exact ⟨(hv.1.of_absorbs h habsorbs).1,
      (hv.2.of_absorbs hdrop (List.forall₂_drop form.upper habsorbs)).1⟩
  · exact hv.of_absorbs h habsorbs

/-- **An instruction that is verified at a frame is verified at what the frame absorbs**, if that
does as well. -/
theorem Verified.of_absorbs {f g : Frame} (hv : insn.Verified f) (h : (f.whole owner).Fits owner g)
    (habsorbs : f.Absorbs .flat g) : insn.Verified g := by
  obtain ⟨hstack, hslots⟩ := Frame.absorbs_iff.1 habsorbs
  refine ⟨hv.stack.of_absorbs (Frame.fits_whole_iff.1 h).1 hstack, ?_, hv.field⟩
  have hslot := hv.slot
  cases insn with
  | slot op index =>
    cases op with
    | load kind => exact SlotKind.holds_of_absorbs (hslots index) hslot
    | _ => trivial
  | iinc index amount =>
    have hint : SlotKind.int.holds (g.slot index) :=
      SlotKind.holds_of_absorbs (hslots index) (decide_eq_true hslot)
    exact (of_decide_eq_true hint : g.slot index = .int)
  | _ => trivial

end Instruction

/-! ### Frames on the way -/

namespace Flow

/-- A frame does as well as the last one at an offset. -/
def Nears (flow : Flow) (i : Nat) (f : Frame) : Prop :=
  ∃ last, flow.frame? i = some (some last) ∧
    (last.whole flow.routine.owner).Fits flow.routine.owner f

variable {flow : Flow}

theorem Nears.merge {i : Nat} {f g : Frame} (hf : flow.Nears i f) (hg : flow.Nears i g) :
    ∃ m changed, f.merge .flat g = .ok (m, changed) ∧ flow.Nears i m := by
  obtain ⟨last, hlast, hf⟩ := hf
  obtain ⟨last', hlast', hg⟩ := hg
  obtain rfl := Option.some.inj (Option.some.inj (hlast.symm.trans hlast'))
  obtain ⟨m, changed, hmerge, hm⟩ := hf.merge hg
  exact ⟨m, changed, hmerge, last, hlast, hm⟩

/-- What does as well as something that is absorbed at an offset does as well as the last frame. -/
theorem Covers.nears {i : Nat} {f g : Frame} (h : flow.Covers i f)
    (hg : (f.whole flow.routine.owner).Fits flow.routine.owner g) : flow.Nears i g := by
  obtain ⟨last, hlast, habsorbs⟩ := h
  exact ⟨last, hlast, Frame.Absorbs.fits_whole habsorbs hg⟩

/-- What an instruction brings to other offsets does as well as the last frames there, if it was
executed on a frame that does. -/
theorem AtRest.nears {i j : Nat} {insn : Instruction} {last after after' g : Frame} {q : Pass}
    (hlast : flow.frame? i = some (some last)) (hrest : flow.AtRest i last insn after)
    (hafter : (after.whole flow.routine.owner).Fits flow.routine.owner after')
    (hknown : ∀ f, q.frame? i = some f → flow.Nears i f)
    (ha : Pass.Arrival flow.routine i insn after' q j g) : flow.Nears j g := by
  -- what is known at the offset in the course of the pass does at least as well as its last frame
  have hfits {f : Frame} (known : q.frame? i = some f) :
      (last.whole flow.routine.owner).Fits flow.routine.owner f := by
    obtain ⟨last', hlast', hfits⟩ := hknown f known
    obtain rfl := Option.some.inj (Option.some.inj (hlast.symm.trans hlast'))
    exact hfits
  cases ha with
  | next falls lt =>
    exact (hrest.next (by simpa [Instruction.fallsThrough] using falls)).nears hafter
  | target mem =>
    obtain ⟨l, hl, ht⟩ := List.mem_filterMap.1 mem
    obtain ⟨t', ht', hcovers⟩ := hrest.target l hl
    obtain rfl := Option.some.inj (ht.symm.trans ht')
    exact hcovers.nears hafter
  | @caughtBefore region f mem contains real known =>
    exact (hrest.before real region mem contains).nears
      (Frame.fits_caught region (Frame.fits_whole_iff.1 (hfits known)).2)
  | @caughtAfter region mem contains real =>
    exact (hrest.after real region mem contains).nears
      (Frame.fits_caught region (Frame.fits_whole_iff.1 hafter).2)
  | resume calls lt known => exact (hrest.resume calls lt).nears (hfits known)

end Flow

section Range

variable {flow : Flow} {start stop : Nat} {I : Frame → Prop}

/-- A frame does as well as the last one and has a property if it comes behind the start of a
range. -/
def Flow.NearsWith (flow : Flow) (start stop : Nat) (I : Frame → Prop) (i : Nat) (f : Frame) :
    Prop :=
  flow.Nears i f ∧ (start < i → i < stop → I f)

variable (hp : flow.Proper) (hm : Movable flow.routine start stop)
  (hmerges : ∀ f g m changed, I f → I g → f.merge .flat g = .ok (m, changed) → I m)
  (hsteps : ∀ (i : Nat) (last f after : Frame) (insn : Instruction) (effect : Effect), start ≤ i →
    i < stop → flow.frame? i = some (some last) → last.Absorbs .flat f →
    (last.whole flow.routine.owner).Fits flow.routine.owner f →
    flow.routine.code[i]? = some insn →
    Tracker.execute flow.routine.owner f insn i = (after, .ok effect) → (start < i → I f) → I after)

include hmerges

theorem Flow.NearsWith.merge (i : Nat) (f g : Frame) (hf : flow.NearsWith start stop I i f)
    (hg : flow.NearsWith start stop I i g) :
    ∃ m changed, f.merge .flat g = .ok (m, changed) ∧ flow.NearsWith start stop I i m := by
  obtain ⟨m, changed, hmerge, hm⟩ := hf.1.merge hg.1
  exact ⟨m, changed, hmerge, hm, fun hlow hhigh =>
    hmerges f g m changed (hf.2 hlow hhigh) (hg.2 hlow hhigh) hmerge⟩

include hp hm hsteps

/-- **A visit on the way brings behind the start of the range what an instruction of the range
leaves**, and to every offset a frame that does as well as the last one. -/
theorem Movable.approach_visit {q : Flow.Pass} {i : Nat} {f : Frame} (hf : q.frame? i = some f)
    (hcovers : flow.Covers i f) (hs : q.Sound flow.routine (flow.NearsWith start stop I)) :
    ∃ q', q.visit flow.routine .flat i = .ok q' ∧
      q'.Sound flow.routine (flow.NearsWith start stop I) := by
  obtain ⟨⟨last, hlast, hfits⟩, hI⟩ := hs.meets i f hf
  obtain ⟨last', hlast', habsorbs⟩ := hcovers
  obtain rfl := Option.some.inj (Option.some.inj (hlast.symm.trans hlast'))
  obtain ⟨insn, after', hinsn, hrest⟩ := hp.atRest hlast
  obtain ⟨after, effect, hexec, hafter⟩ := hp.does hlast hinsn hrest.executed hfits i
  refine ⟨_, Flow.Pass.visit_eq hinsn hf hexec, ?_⟩
  have hnoted : (q.noteEffect i effect).Sound flow.routine (flow.NearsWith start stop I) :=
    ⟨hs.toLined.noteEffect i effect, hs.errors, hs.meets⟩
  refine Flow.Pass.spread_induction hnoted (fun q j g hq ha => ?_) fun hfalls hlt => ?_
  · refine hq.arrive (Flow.NearsWith.merge hmerges) (ha.lt hp.checked)
      ⟨hrest.nears hlast hafter (fun f hf => (hq.meets i f hf).1) ha, fun hlow hhigh => ?_⟩
    have hleft (hd : Flow.Delivers flow.routine i insn f after j after) : I after := by
      obtain ⟨hlow', hhigh'⟩ := hm.source_mem hp.canonical hinsn hd hlow hhigh
      exact hsteps i last f after insn effect hlow' hhigh' hlast habsorbs hfits hinsn hexec
        fun hlow => hI hlow hhigh'
    -- handlers are not in the range, and no instruction of it calls a subroutine
    cases ha with
    | next falls lt => exact hleft (.next falls)
    | target mem => exact hleft (.target mem)
    | @caughtBefore region f mem contains real known =>
      have := hm.handler region mem (Region.isEmpty_of_contains contains)
      omega
    | @caughtAfter region mem contains real =>
      have := hm.handler region mem (Region.isEmpty_of_contains contains)
      omega
    | resume calls lt known =>
      rw [(hm.plain hp.canonical hinsn (by omega) (by omega)).1] at calls
      cases calls
  · obtain ⟨next, hnext, -⟩ := hrest.next (by simpa [Instruction.fallsThrough] using hfalls)
    obtain ⟨_, _, hcode, -⟩ := hp.atRest hnext
    exact absurd (Array.getElem?_eq_some_iff.1 hcode).1 hlt

/-- **What happens inside a movable range on the way to the last frames.** A property that merging
keeps, and that every verified instruction of the range passes on, all frames behind the start of
the range have in the end. What comes to the start need not have it. -/
theorem Movable.approach {j : Nat} {f : Frame} (hlow : start < j) (hhigh : j < stop)
    (hf : flow.frame? j = some (some f)) : I f := by
  obtain ⟨p, hrun, herrors, hpass⟩ := Flow.analyzeWithin_ok hp.analyzed
  have hsize : 0 < flow.routine.size := by
    have := hm.le_size
    omega
  have hinitial : Flow.Pass.Sound flow.routine (flow.NearsWith start stop I)
      (.initial flow.routine .flat) :=
    Flow.Pass.sound_initial (Flow.NearsWith.merge hmerges)
      ⟨(Flow.covers_entry hp.checked hsize hp.analyzed).nears (Flow.entry_fits _),
        fun hlow => absurd hlow (Nat.not_lt_zero _)⟩
  have hfinal : p.Sound flow.routine (flow.NearsWith start stop I) := by
    refine (Flow.Pass.run_induction_toward hrun hinitial
      (fun q offset rest hq hwork _ => (hq.dequeue hwork).1)
      fun q q' offset rest fuel htoward hq hwork _ hvisit => ?_).1
    obtain ⟨hdequeued, before, hbefore⟩ := hq.dequeue hwork
    -- the pass goes on from here to the frames of the data flow, which cover all that came before
    have hcovers : flow.Covers offset before := by
      have hcovered : p.Covers (Frame.Absorbs .flat) offset before :=
        Flow.Pass.covers_of_run Frame.lasts_absorbs hp.checked hq.tidy htoward herrors
          ⟨before, hbefore, .refl before⟩
      rw [hpass]
      exact Flow.covers_of_pass hcovered flow.routine
    obtain ⟨q'', hq'', hs⟩ := hm.approach_visit hp hmerges hsteps hbefore hcovers hdequeued
    rw [hvisit] at hq''
    exact Except.ok.inj hq'' ▸ hs
  refine (hfinal.meets j f ?_).2 hlow hhigh
  rw [Flow.frame?_natCast, hpass] at hf
  exact congrArg Option.join hf

end Range

end Outliner
