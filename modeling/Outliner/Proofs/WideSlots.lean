import Outliner.Proofs.Locality
import Outliner.Proofs.Remapping

/-!
# Wide values own the slot after theirs

A wide value takes two slots, and only the first one has its type. Whatever is known about the
second one while the value is there must not be used. In the frames of an analysis it never can be:
where a slot has a wide type, the next one is unusable (`Frame.Paired`), and so the values in a
frame do not overlap (`Frame.Paired.disjoint`).

Stores see to it on both sides: a wide value makes the slot after it unusable, and any value makes
the slot before it unusable if that has a wide type. Constructors do not change the size of a type.
A merge makes types unusable one slot at a time; a wide type that is left has been there on both
sides, and then the next slot stays unusable, because merging passes over it.

`Flow.Occurs` lists the ways in which an analysis makes frames, and `Flow.Pass.Underway` the passes
it goes through. `Flow.wide_slots_owned` is about every routine and every hierarchy.
-/

namespace Outliner

/-! ### Pairs of slots -/

namespace Word

/-- Different words are followed by different words. -/
theorem wrap_succ_inj {a b : Int} (ha : min ≤ a ∧ a ≤ max) (hb : min ≤ b ∧ b ≤ max)
    (h : wrap (a + 1) = wrap (b + 1)) : a = b := by
  unfold min max wrap at *
  omega

/-- The word before the next one. -/
theorem wrap_pred_succ {a : Int} (ha : min ≤ a ∧ a ≤ max) : wrap (wrap (a + 1) - 1) = a := by
  unfold min max wrap at *
  omega

end Word

namespace Frame

variable {f g m : Frame}

/-- **A wide value owns the slot after its own**, which is unusable. Slots are words, and the
largest word is followed by the smallest. -/
def Paired (f : Frame) : Prop :=
  ∀ s, Word.min ≤ s → s ≤ Word.max → (f.slot s).size = 2 → f.slot (Word.wrap (s + 1)) = .top

/-- The slots that the value in a slot takes. -/
def span (f : Frame) (s : Int) : List Int :=
  if (f.slot s).size = 2 then [s, Word.wrap (s + 1)] else [s]

/-- **The values of a frame do not overlap.** -/
theorem Paired.disjoint (hf : f.Paired) {s s' : Int} (hs : Word.min ≤ s ∧ s ≤ Word.max)
    (hs' : Word.min ≤ s' ∧ s' ≤ Word.max) (hne : s ≠ s') (husable : f.slot s ≠ .top)
    (husable' : f.slot s' ≠ .top) : List.Disjoint (f.span s) (f.span s') := by
  -- neither value is in the second half of the other one
  have hafter (hwide : (f.slot s).size = 2) : Word.wrap (s + 1) ≠ s' := by
    rintro rfl
    exact husable' (hf s hs.1 hs.2 hwide)
  have hafter' (hwide : (f.slot s').size = 2) : Word.wrap (s' + 1) ≠ s := by
    rintro rfl
    exact husable (hf s' hs'.1 hs'.2 hwide)
  have hsecond : Word.wrap (s + 1) ≠ Word.wrap (s' + 1) := fun heq =>
    hne (Word.wrap_succ_inj hs hs' heq)
  unfold span
  split <;> split <;> simp_all [eq_comm]

/-! ### What keeps pairs -/

theorem slot_setSlot_eq (f : Frame) (index : Int) (t : JType) (s : Int) :
    (f.setSlot index t).slot s =
      if t.size = 2 ∧ s = Word.wrap (index + 1) then .top
      else if s = index then t
      else if s = Word.wrap (index - 1) ∧ (f.slot s).size = 2 then .top
      else f.slot s := by
  rw [slot, get?_setSlot]
  split_ifs <;> rfl

theorem paired_empty : empty.Paired := fun _ _ _ hwide => by cases hwide

/-- Only the slots matter. -/
theorem Paired.of_locals (hf : f.Paired) (h : g.locals = f.locals) : g.Paired := by
  unfold Paired slot at *
  rwa [h]

/-- **A store keeps wide values paired**, into whatever half of one it goes. -/
theorem Paired.setSlot (hf : f.Paired) (index : Int) (t : JType) : (f.setSlot index t).Paired := by
  intro s hmin hmax hwide
  rw [slot_setSlot_eq] at hwide ⊢
  split_ifs at hwide with hnext hself hbefore
  · cases hwide
  · -- the value that is stored
    subst hself
    rw [if_pos ⟨hwide, rfl⟩]
  · cases hwide
  · -- another value, which would be gone if its second half were overwritten
    have hindex : Word.wrap (s + 1) ≠ index := by
      rintro rfl
      exact hbefore ⟨(Word.wrap_pred_succ ⟨hmin, hmax⟩).symm, hwide⟩
    have hslot := hf s hmin hmax hwide
    split_ifs
    · rfl
    · rfl
    · exact hslot

/-- A constructor changes neither the sizes of types nor what is unusable. -/
theorem Paired.construct (hf : f.Paired) (name : String) (site : Int) (className : String) :
    (f.replace (.uninitialized name site) (.ofClassName className)).Paired := by
  have hslot (s : Int) : (f.replace (.uninitialized name site) (.ofClassName className)).slot s =
      if f.slot s = .uninitialized name site then .ofClassName className else f.slot s := by
    unfold slot replace
    rw [SlotMap.get?_mapWithSlot]
    cases f.locals.get? s with
    | none => rfl
    | some t => rfl
  intro s hmin hmax hwide
  rw [hslot] at hwide ⊢
  split at hwide
  · rw [JType.size_ofClassName] at hwide
    cases hwide
  · rw [hf s hmin hmax hwide]
    rfl

theorem Paired.of_revises (hf : f.Paired) (h : f.Revises g) : g.Paired := by
  induction h with
  | refl => exact hf
  | restack stack _ ih => exact ih.of_locals rfl
  | store index t _ ih => exact ih.setSlot index t
  | construct name site className _ ih => exact ih.construct name site className

/-- **A merge keeps wide values paired**, whatever the other frame is. -/
theorem Paired.merge {h : Hierarchy} {changed : Bool} (hf : f.Paired)
    (hm : f.merge h g = .ok (m, changed)) : m.Paired := by
  obtain ⟨-, -, hslot, -⟩ := merge_eq_ok hm
  intro s hmin hmax hwide
  rw [hslot] at hwide ⊢
  -- a wide type comes from both frames, and the slot after it stays as it was in the first one
  obtain ⟨heq, hmerge⟩ := JType.eq_of_merge_wide hwide
  rw [hmerge, ← heq] at hwide
  rw [hf s hmin hmax hwide, JType.top_merge]

end Frame

/-! ### The frames of an analysis -/

namespace Flow

variable {r : Routine} {h : Hierarchy}

/-- **The frames that an analysis makes**: the one on entry, what instructions leave, those in which
handlers start, and what they are merged into. -/
inductive Occurs (r : Routine) (h : Hierarchy) : Frame → Prop where
  | entry : Occurs r h (entry r)
  | executed {f : Frame} (insn : Instruction) (offset : Int) (before : Occurs r h f) :
    Occurs r h (Tracker.execute r.owner f insn offset).1
  | caught {f : Frame} (region : Region) (before : Occurs r h f) : Occurs r h (caught region f)
  | merged {f g m : Frame} {changed : Bool} (known : Occurs r h f) (arrives : Occurs r h g)
    (merge : f.merge h g = .ok (m, changed)) : Occurs r h m

theorem paired_setArguments {f : Frame} (hf : f.Paired) (index : Nat) (args : List JType) :
    (setArguments f index args).Paired := by
  induction args generalizing f index with
  | nil => exact hf
  | cons t rest ih => exact ih (hf.setSlot index t.computational) (index + t.size)

theorem paired_entry (r : Routine) : (entry r).Paired := by
  unfold entry
  split
  · exact paired_setArguments Frame.paired_empty _ _
  · exact paired_setArguments (Frame.paired_empty.setSlot _ _) _ _

/-- **In the frames of an analysis wide values are paired.** -/
theorem Occurs.paired {f : Frame} (hf : Occurs r h f) : f.Paired := by
  induction hf with
  | entry => exact paired_entry r
  | executed insn offset _ ih => exact ih.of_revises (Tracker.revises_execute _ _ _ _)
  | caught region _ ih => exact ih.of_locals rfl
  | merged _ _ hmerge ihknown _ => exact ihknown.merge hmerge

namespace Pass

variable {p p' : Pass}

/-- **The passes that an analysis goes through**, from one visit to the next. -/
inductive Underway (r : Routine) (h : Hierarchy) : Pass → Prop where
  | initial : Underway r h (initial r h)
  | skip {p : Pass} {offset : Nat} {rest : List Nat} (before : Underway r h p)
    (work : p.work = offset :: rest) (failed : (p.dequeue offset rest).hasFailed offset) :
    Underway r h (p.dequeue offset rest)
  | visit {p p' : Pass} {offset : Nat} {rest : List Nat} (before : Underway r h p)
    (work : p.work = offset :: rest) (intact : (p.dequeue offset rest).hasFailed offset = false)
    (visited : (p.dequeue offset rest).visit r h offset = .ok p') : Underway r h p'

/-- A run from the initial pass goes through such passes, to the last one. -/
theorem underway_of_run {fuel : Nat} (hrun : run r h fuel (initial r h) = .ok p) : Underway r h p :=
  (run_induction hrun .initial (fun _ _ _ hq hwork hfailed => hq.skip hwork hfailed)
    fun _ _ _ _ hq hwork hintact hvisit => hq.visit hwork hintact hvisit).1

/-- All frames of a pass are made by the analysis. -/
def AllOccur (r : Routine) (h : Hierarchy) (p : Pass) : Prop :=
  ∀ i f, p.frame? i = some f → Occurs r h f

theorem AllOccur.arrive (hp : AllOccur r h p) {f : Frame} (hf : Occurs r h f) (offset : Nat) :
    AllOccur r h (p.arrive r h offset f) := by
  intro i g hg
  obtain heq | ⟨e, heq⟩ | ⟨k, -, hk, heq⟩ := arrive_cases (r := r) (h := h) offset f p
  · rw [heq] at hg
    exact hp i g hg
  · rw [heq, fail_frame?] at hg
    exact hp i g hg
  · -- the frame that is set is the one that arrives, or what it has been merged into
    have hoccurs : Occurs r h k := by
      rcases hk with ⟨-, rfl⟩ | ⟨known, hknown, hmerge⟩
      · exact hf
      · exact .merged (hp offset known hknown) hf hmerge
    rw [heq, enqueue_frame?] at hg
    unfold frame? at hg
    rw [Array.getElem?_setIfInBounds] at hg
    split at hg
    · split at hg <;> cases hg
      exact hoccurs
    · exact hp i g hg

theorem allOccur_initial (r : Routine) (h : Hierarchy) : AllOccur r h (initial r h) := by
  have hstart : AllOccur r h (start r.size) := by
    intro i f hf
    rw [frame?_start] at hf
    cases hf
  unfold initial
  split
  · exact hstart
  · exact hstart.arrive .entry 0

/-- A visit makes frames in the ways listed. -/
theorem AllOccur.visit (hp : AllOccur r h p) {offset : Nat} (hv : p.visit r h offset = .ok p') :
    AllOccur r h p' := by
  obtain ⟨insn, before, -, hbefore, ⟨e, rfl⟩ | ⟨after, effect, hexec, rfl⟩⟩ := visit_cases hv
  · intro i f hf
    rw [fail_frame?] at hf
    exact hp i f hf
  have hafter : Occurs r h after := by
    have hoccurs := Occurs.executed insn offset (hp offset before hbefore)
    rwa [hexec] at hoccurs
  refine spread_induction (Q := AllOccur r h) hp (fun q i f hq harrives => hq.arrive ?_ i)
    fun _ _ q e hq i f hf => hq i f (by rwa [fail_frame?] at hf)
  cases harrives with
  | next | target => exact hafter
  | caughtBefore _ _ _ hknown => exact .caught _ (hq _ _ hknown)
  | caughtAfter => exact .caught _ hafter
  | resume _ _ hknown => exact hq _ _ hknown

/-- **All frames of the passes that an analysis goes through are made in the ways listed.** -/
theorem Underway.allOccur (hp : Underway r h p) : AllOccur r h p := by
  induction hp with
  | initial => exact allOccur_initial r h
  | skip _ _ _ ih => exact ih
  | visit _ _ _ hvisit ih => exact AllOccur.visit (p := dequeue _ _ _) ih hvisit

end Pass

/-- **In every frame of an analysis a wide value owns the slot after its own**, so that no two
values overlap; and these are all the frames that the passes of the analysis hold, the last one
included. -/
theorem wide_slots_owned (r : Routine) (h : Hierarchy) :
    (∀ f, Occurs r h f →
      (∀ s, Word.min ≤ s → s ≤ Word.max → (f.slot s).size = 2 →
        f.slot (Word.wrap (s + 1)) = .top) ∧
      ∀ s s', Word.min ≤ s ∧ s ≤ Word.max → Word.min ≤ s' ∧ s' ≤ Word.max → s ≠ s' →
        f.slot s ≠ .top → f.slot s' ≠ .top → List.Disjoint (f.span s) (f.span s')) ∧
    (∀ p, Pass.Underway r h p → ∀ i f, p.frame? i = some f → Occurs r h f) ∧
    ∀ flow, analyze h r = .ok flow → ∀ (i : Nat) f, flow.frame? i = some (some f) →
      Occurs r h f := by
  refine ⟨fun f hf => ⟨hf.paired, fun s s' => hf.paired.disjoint⟩, fun p hp => hp.allOccur,
    fun flow hflow i f hf => ?_⟩
  obtain ⟨p, hrun, -, rfl⟩ := analyzeWithin_ok hflow
  rw [frame?, if_pos (Int.natCast_nonneg i)] at hf
  exact (Pass.underway_of_run hrun).allOccur i f (congrArg Option.join hf)

/-- A routine that takes a wide argument and another one, and stores the latter into the second half
of the former. -/
def halving : RoutineParts where
  owner := "Half"
  name := "run"
  descriptor := "(JI)V"
  access := .static
  code := #[some (.slot (.load .int) 2), some (.slot (.store .int) 1), some (.plain .returnVoid)]
  blocks := []
  maxLocals := 3
  maxStack := 1

theorem wide_slots_owned_halving :
    ∃ r flow before after, Routine.make halving = .ok r ∧ analyze .flat r = .ok flow ∧
      Pass.AllOccur r .flat (Pass.initial r .flat) ∧
      flow.frame? 0 = some (some before) ∧ before.slot 0 = .long ∧ before.slot 2 = .int ∧
      before.slot (Word.wrap 1) = .top ∧ List.Disjoint (before.span 0) (before.span 2) ∧
      flow.frame? 2 = some (some after) ∧ after.slot 0 = .top ∧ after.slot 1 = .int ∧
      List.Disjoint (after.span 1) (after.span 2) := by
  -- the two frames, as the data flow has them
  have hrun : (Routine.make halving).toOption.any fun r =>
      (analyze .flat r).toOption.any fun flow =>
        (flow.frame? 0).join.any (fun f => decide (f.slot 0 = .long ∧ f.slot 2 = .int)) &&
          (flow.frame? 2).join.any fun f =>
            decide (f.slot 0 = .top ∧ f.slot 1 = .int ∧ f.slot 2 = .int) := by
    decide +kernel
  obtain ⟨r, hr, hrun⟩ := exists_ok_of_any hrun
  obtain ⟨flow, hflow, hrun⟩ := exists_ok_of_any hrun
  simp only [Bool.and_eq_true, Option.any_eq_true, Option.join_eq_some_iff,
    decide_eq_true_eq] at hrun
  obtain ⟨⟨before, hbefore, hlong, hint⟩, after, hafter, htop, hstored, hkept⟩ := hrun
  obtain ⟨howned, hpasses, hframes⟩ := wide_slots_owned r .flat
  obtain ⟨hnext, hapart⟩ := howned before (hframes flow hflow 0 before hbefore)
  obtain ⟨-, hapart'⟩ := howned after (hframes flow hflow 2 after hafter)
  refine ⟨r, flow, before, after, hr, hflow, hpasses _ .initial, hbefore, hlong, hint, ?_, ?_,
    hafter, htop, hstored, ?_⟩
  · exact hnext 0 (by decide) (by decide) (by rw [hlong]; rfl)
  · exact hapart 0 2 (by decide) (by decide) (by decide) (by simp [hlong]) (by simp [hint])
  · exact hapart' 1 2 (by decide) (by decide) (by decide) (by simp [hstored]) (by simp [hkept])

end Flow

end Outliner
