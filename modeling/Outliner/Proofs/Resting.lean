import Mathlib.Algebra.BigOperators.Group.List.Basic
import Mathlib.Algebra.Order.Group.Nat
import Mathlib.Tactic.GCongr
import Outliner.Proofs.Merging
import Outliner.Proofs.Tracking
import Outliner.Proofs.Visits

/-!
# Every pass comes to rest

`Flow.analyze` gives up a pass that takes too long. Under the flat hierarchy that never happens
(`Flow.analyze_ne_restless`), whatever the routine: instructions may fail, stacks of different depth
may meet, and subroutines may be called.

That the pass comes to rest is a matter of counting. Merging under the flat hierarchy never adds a
cell or a slot, and a type can change at most three times (`JType.room`). The frame an offset gets
first is no larger than the number of offsets known allows, since an instruction adds only a few
cells and slots (`Flow.Pass.Contained`). So every visit lowers a number that is small to begin with
(`Flow.Pass.room`).

`Flow.Pass.run_cases` says in which ways a pass can end, under any hierarchy.
-/

namespace Outliner

/-! ### Room for merging -/

namespace JType

/-- How often a type can still change when others are merged into it. -/
def room : JType → Nat
  | null => 3
  | array _ => 2
  | object name => if name = objectClass then 1 else 2
  | top => 0
  | _ => 1

theorem room_le (t : JType) : t.room ≤ 3 := by
  unfold room
  split
  case h_3 => split <;> decide
  all_goals decide

theorem room_pos {t : JType} (h : t ≠ top) : 0 < t.room := by
  unfold room
  split
  case h_3 => split <;> decide
  case h_4 => exact absurd rfl h
  all_goals decide

theorem room_lt_of_ne_null {t : JType} (h : t ≠ null) : t.room < 3 := by
  unfold room
  split
  case h_1 => exact absurd rfl h
  case h_3 => split <;> decide
  all_goals decide

/-- A type that changes in a merge has less room afterwards. -/
theorem room_merge (a b : JType) : a.merge .flat b = a ∨ (a.merge .flat b).room < a.room := by
  by_cases heq : a = b
  · exact .inl (by rw [← heq, merge_self])
  rw [merge_flat heq]
  split
  · next hmergeable =>
    split
    · next hnull =>
      subst hnull
      exact .inr (room_lt_of_ne_null (Ne.symm heq))
    · next hnull =>
      split
      · exact .inl rfl
      · -- two classes or arrays, which have the root in common
        by_cases hany : a = anyObject
        · exact .inl hany.symm
        right
        cases a with
        | null => exact absurd rfl hnull
        | array component => exact Nat.lt_succ_self 1
        | object name =>
          have hname : name ≠ objectClass := fun h => hany (h ▸ rfl)
          rw [room, if_neg hname]
          decide
        | _ => cases hmergeable
  · by_cases htop : a = top
    · exact .inl htop.symm
    · exact .inr (room_pos htop)

end JType

/-- The room of a list of types. -/
def roomOf (types : List JType) : Nat :=
  types.foldr (fun t n => t.room + n) 0

theorem roomOf_le (types : List JType) : roomOf types ≤ 3 * types.length := by
  induction types with
  | nil => exact Nat.le_refl _
  | cons t rest ih =>
    have ht := t.room_le
    simp only [roomOf, List.foldr_cons, List.length_cons] at ih ⊢
    omega

section Weights

variable {M : Type} [AddCommMonoid M] [PartialOrder M] [IsOrderedCancelAddMonoid M]

/-- Types of which some weigh less and the others are as they were. -/
theorem sum_weights_lt_or_eq (w : JType → M) {types types' : List JType}
    (h : List.Forall₂ (fun t t' => t = t' ∨ w t < w t') types types') :
    types = types' ∨ (types.map w).sum < (types'.map w).sum := by
  induction h with
  | nil => exact .inl rfl
  | cons hhead _ ih =>
    rw [List.map_cons, List.map_cons, List.sum_cons, List.sum_cons]
    rcases hhead with rfl | hlt <;> rcases ih with rfl | hrest
    · exact .inl rfl
    · exact .inr (by gcongr)
    · exact .inr (by gcongr)
    · exact .inr (add_lt_add hlt hrest)

namespace Frame

variable {h : Hierarchy} {f g m : Frame}

/-- The weights of all cells and slots of a frame. -/
def weight (w : JType → M) (f : Frame) : M :=
  (f.stack.map w).sum + ((f.locals.entries.map (·.2)).map w).sum

variable {w : JType → M} (hw : ∀ a b : JType, a.merge h b = a ∨ w (a.merge h b) < w a)

include hw

theorem weight_mergeLocals (f g : Frame) :
    mergeLocals h f g = f.locals ∨
      (((mergeLocals h f g).entries.map (·.2)).map w).sum <
        ((f.locals.entries.map (·.2)).map w).sum := by
  have hentry (t : JType) (index : Int) :
      (if t = .top then t else t.merge h (g.slot index)) = t ∨
        w (if t = .top then t else t.merge h (g.slot index)) < w t := by
    split
    · exact .inl rfl
    · exact hw t _
  have hentries : List.Forall₂ (fun t t' : JType => t = t' ∨ w t < w t')
      ((mergeLocals h f g).entries.map (·.2)) (f.locals.entries.map (·.2)) := by
    simp only [mergeLocals, SlotMap.mapWithSlot, List.map_map, List.forall₂_map_left_iff,
      List.forall₂_map_right_iff, Function.comp_apply]
    exact List.forall₂_same.2 fun e _ => hentry e.2 e.1
  rcases sum_weights_lt_or_eq w hentries with heq | hlt
  · left
    refine SlotMap.ext_entries (List.ext_getElem (by simp [mergeLocals, SlotMap.mapWithSlot])
      fun k hk hk' => Prod.ext ?_ ?_)
    · simp [mergeLocals, SlotMap.mapWithSlot]
    · have hget := congrArg (·[k]?) heq
      simpa [hk, hk'] using hget
  · exact .inr hlt

/-- **A frame that changes in a merge weighs less afterwards**, if that is so of types, and has the
same cells and slots. -/
theorem weight_merged (hm : f.merge h g = .ok (m, true)) :
    m.weight w < f.weight w ∧ m.extent = f.extent := by
  unfold merge at hm
  split at hm
  · next hdepth =>
    have hpair := Except.ok.inj hm
    obtain rfl := (Prod.mk.inj hpair).1
    have hne := of_decide_eq_true (Prod.mk.inj hpair).2
    -- no cell gains weight, so the stack is the same or lighter
    have hstack : List.zipWith (JType.merge h) f.stack g.stack = f.stack ∨
        ((List.zipWith (JType.merge h) f.stack g.stack).map w).sum < (f.stack.map w).sum := by
      refine sum_weights_lt_or_eq w (forall₂_zipWith_left (fun a b c hab => ?_)
        (List.forall₂_same.2 fun t _ => .inl rfl) hdepth)
      rcases hw a c with heq | hlt
      · rw [heq]
        exact hab
      · rcases hab with rfl | hab
        · exact .inr hlt
        · exact .inr (hlt.trans hab)
    -- something changed, so either the stack or the slots have become lighter
    refine ⟨?_, ?_⟩
    · unfold weight
      dsimp only
      rcases hstack with hs | hs <;> rcases weight_mergeLocals hw f g with hl | hl
      · exact absurd (by rw [hs, hl]) hne
      · rw [hs]
        gcongr
      · rw [hl]
        gcongr
      · exact add_lt_add hs hl
    · have hlength : (List.zipWith (JType.merge h) f.stack g.stack).length = f.stack.length := by
        rw [List.length_zipWith]
        exact Nat.min_eq_left (Nat.le_of_eq hdepth)
      simp [extent, depth, hlength, mergeLocals, SlotMap.size, SlotMap.mapWithSlot]
  · cases hm

end Frame

end Weights

namespace Frame

variable {f g m : Frame}

/-- How much a frame can still change when others are merged into it. -/
def room (f : Frame) : Nat :=
  roomOf f.stack + roomOf (f.locals.entries.map (·.2))

theorem room_le (f : Frame) : f.room ≤ 3 * f.extent := by
  have hstack := roomOf_le f.stack
  have hlocals := roomOf_le (f.locals.entries.map (·.2))
  simp only [room, extent, depth, SlotMap.size, List.length_map] at *
  omega

/-- **A frame that changes in a merge has less room afterwards**, and the same cells and slots. -/
theorem room_merged (h : f.merge .flat g = .ok (m, true)) :
    m.room < f.room ∧ m.extent = f.extent := by
  have hsum (types : List JType) : roomOf types = (types.map JType.room).sum := by
    rw [roomOf, List.sum, List.foldr_map]
  have hmerged := weight_merged JType.room_merge h
  simp only [weight, ← hsum] at hmerged
  exact hmerged

end Frame

namespace Flow

/-! ### Counting down a pass -/

/-- What an offset contributes to the room of a pass: as long as it is unknown, enough for any frame
it may get. -/
def weight (cap : Nat) (known : Option Frame) : Nat :=
  known.elim (3 * cap + 1) Frame.room

def totalWeight (cap : Nat) (frames : List (Option Frame)) : Nat :=
  frames.foldr (fun known n => weight cap known + n) 0

/-- The number of offsets without a frame. -/
def unknown (frames : List (Option Frame)) : Nat :=
  frames.countP Option.isNone

/-- What a sum over a list becomes when an entry is replaced. -/
theorem sum_map_set {α M : Type} [AddCommMonoid M] (w : α → M) {i : Nat} {l : List α} {a : α}
    (h : l[i]? = some a) (b : α) : ((l.set i b).map w).sum + w a = (l.map w).sum + w b := by
  induction l generalizing i with
  | nil => cases h
  | cons first rest ih =>
    cases i with
    | zero =>
      obtain rfl := Option.some.inj h
      rw [List.set_cons_zero, List.map_cons, List.map_cons, List.sum_cons, List.sum_cons]
      ac_rfl
    | succ i =>
      have hrest := ih (i := i) (by simpa using h)
      rw [List.set_cons_succ, List.map_cons, List.map_cons, List.sum_cons, List.sum_cons, add_assoc,
        hrest, add_assoc]

theorem totalWeight_set (cap : Nat) {i : Nat} {frames : List (Option Frame)} {known : Option Frame}
    (h : frames[i]? = some known) (known' : Option Frame) :
    totalWeight cap (frames.set i known') + weight cap known =
      totalWeight cap frames + weight cap known' := by
  have hsum (frames : List (Option Frame)) :
      totalWeight cap frames = (frames.map (weight cap)).sum := by
    rw [totalWeight, List.sum, List.foldr_map]
  rw [hsum, hsum]
  exact sum_map_set (weight cap) h known'

theorem unknown_set {i : Nat} {frames : List (Option Frame)} {known : Option Frame}
    (h : frames[i]? = some known) (f : Frame) :
    unknown (frames.set i (some f)) + (if known.isNone then 1 else 0) = unknown frames := by
  induction frames generalizing i with
  | nil => cases h
  | cons first rest ih =>
    cases i with
    | zero =>
      obtain rfl := Option.some.inj h
      cases first <;> simp [unknown]
    | succ i =>
      have hrest := ih (i := i) (by simpa using h)
      simp only [unknown, List.set_cons_succ, List.countP_cons] at hrest ⊢
      omega

theorem totalWeight_replicate (cap n : Nat) :
    totalWeight cap (List.replicate n none) = n * (3 * cap + 1) := by
  induction n with
  | zero => simp [totalWeight]
  | succ n ih =>
    simp only [totalWeight, List.replicate_succ, List.foldr_cons] at ih ⊢
    rw [ih, Nat.add_mul, weight]
    simp only [Option.elim_none]
    omega

namespace Pass

variable {r : Routine} {h : Hierarchy} {cap : Nat} {p p' : Pass}

/-- A number that every visit lowers. -/
def room (cap : Nat) (p : Pass) : Nat :=
  2 * totalWeight cap p.frames.toList + p.work.length

/-- A pass in which whatever waits in line has a frame. -/
structure Lined (r : Routine) (p : Pass) : Prop where
  tidy : Tidy r.size p
  work : ∀ i ∈ p.work, p.Knows i

/-- A pass in which, besides, no frame is larger than the offsets known so far account for. -/
structure Contained (r : Routine) (cap : Nat) (p : Pass) : Prop extends Lined r p where
  fits : ∀ i f, p.frame? i = some f → f.extent + 8 * unknown p.frames.toList ≤ cap

/-- The frame at an offset is set to `f` and the offset put in line. -/
def raise (p : Pass) (offset : Nat) (f : Frame) : Pass :=
  ({ p with frames := p.frames.setIfInBounds offset (some f) } : Pass).enqueue offset

theorem length_work_enqueue_le (p : Pass) (offset : Nat) :
    (p.enqueue offset).work.length ≤ p.work.length + 1 := by
  unfold enqueue
  split
  · exact Nat.le_succ _
  · exact Nat.le_refl _

theorem mem_work_of_enqueue {offset i : Nat} (h : i ∈ (p.enqueue offset).work) :
    i = offset ∨ i ∈ p.work := by
  unfold enqueue at h
  split at h
  · exact .inr h
  · exact List.mem_cons.1 h

theorem enqueue_frames (p : Pass) (offset : Nat) : (p.enqueue offset).frames = p.frames := by
  unfold enqueue
  split <;> rfl

theorem fail_frames (p : Pass) (offset : Nat) (e : TrackError) :
    (p.fail offset e).frames = p.frames := by
  unfold fail
  split <;> rfl

/-- The entry of the table of frames at an offset. -/
theorem getElem?_frames_toList {offset : Nat} (hlt : offset < p.frames.size) :
    p.frames.toList[offset]? = some (p.frame? offset) := by
  simp [frame?, hlt]

/-! ### What waits in line has a frame -/

theorem Lined.fail (hl : Lined r p) (offset : Nat) (e : TrackError) : Lined r (p.fail offset e) :=
  ⟨hl.tidy.fail offset e, fun i hi => by simpa [Knows] using hl.work i (by simpa using hi)⟩

theorem Lined.raise (hl : Lined r p) {offset : Nat} (hlt : offset < r.size) (f : Frame) :
    Lined r (p.raise offset f) := by
  have hset : Tidy r.size { p with frames := p.frames.setIfInBounds offset (some f) } :=
    ⟨by simpa using hl.tidy.frames, hl.tidy.effects, hl.tidy.queued, hl.tidy.failed⟩
  refine ⟨(hset.enqueue offset).1, fun i hi => ?_⟩
  rw [Knows, Pass.raise, frame?_raised hlt hl.tidy]
  split
  · rfl
  · next hne =>
    rcases mem_work_of_enqueue hi with rfl | hi
    · exact absurd rfl hne
    · exact hl.work i hi

theorem Lined.arrive (hl : Lined r p) {offset : Nat} (hlt : offset < r.size) (f : Frame) :
    Lined r (p.arrive r h offset f) := by
  obtain heq | ⟨e, heq⟩ | ⟨g, -, -, heq⟩ := arrive_cases (r := r) (h := h) offset f p
  · rwa [heq]
  · rw [heq]
    exact hl.fail offset e
  · rw [heq]
    exact hl.raise hlt g

theorem Lined.noteEffect (hl : Lined r p) (offset : Nat) (effect : Effect) :
    Lined r (p.noteEffect offset effect) :=
  ⟨⟨hl.tidy.frames, by simpa [Pass.noteEffect] using hl.tidy.effects, hl.tidy.queued,
    hl.tidy.failed⟩, hl.work⟩

theorem Lined.dequeue (hl : Lined r p) {offset : Nat} {rest : List Nat}
    (hwork : p.work = offset :: rest) : Lined r (p.dequeue offset rest) :=
  ⟨hl.tidy.dequeue hwork, fun i hi => hl.work i (hwork ▸ List.mem_cons_of_mem _ hi)⟩

/-- **A visit puts nothing in line that has no frame.** -/
theorem Lined.visit (hr : r.Checked) (hl : Lined r p) {offset : Nat}
    (hv : p.visit r h offset = .ok p') : Lined r p' := by
  obtain ⟨insn, before, -, -, hcase⟩ := visit_cases hv
  rcases hcase with ⟨e, rfl⟩ | ⟨after, effect, -, rfl⟩
  · exact hl.fail offset e
  · refine spread_induction (hl.noteEffect offset effect) ?_ ?_
    · intro q target f hq ha
      exact hq.arrive (ha.lt hr) f
    · intro _ _ q e hq
      exact hq.fail offset e

/-! ### Frames stay small -/

theorem Contained.fail (hc : Contained r cap p) (offset : Nat) (e : TrackError) :
    Contained r cap (p.fail offset e) ∧ (p.fail offset e).room cap ≤ p.room cap ∧
      unknown (p.fail offset e).frames.toList ≤ unknown p.frames.toList := by
  have hframes := fail_frames p offset e
  refine ⟨⟨hc.toLined.fail offset e, fun i f hf => ?_⟩, ?_, ?_⟩
  · rw [fail_frame?] at hf
    rw [hframes]
    exact hc.fits i f hf
  · exact Nat.le_of_eq (by rw [room, room, hframes, fail_work])
  · exact Nat.le_of_eq (by rw [hframes])

/-- Raising a frame that is not too large takes no more room than there was. -/
theorem Contained.raise (hc : Contained r cap p) {offset : Nat} (hlt : offset < r.size) {f : Frame}
    (hroom : (p.frame? offset = none ∧ f.extent + 8 * unknown p.frames.toList ≤ cap + 8) ∨
      ∃ known, p.frame? offset = some known ∧ f.room < known.room ∧ f.extent = known.extent) :
    Contained r cap (p.raise offset f) ∧ (p.raise offset f).room cap ≤ p.room cap ∧
      unknown (p.raise offset f).frames.toList ≤ unknown p.frames.toList := by
  have hsize : offset < p.frames.size := hc.tidy.frames ▸ hlt
  have hframes : (p.raise offset f).frames.toList = p.frames.toList.set offset (some f) := by
    rw [Pass.raise, enqueue_frames, Array.toList_setIfInBounds]
  have hentry := getElem?_frames_toList hsize
  have hunknown := unknown_set hentry f
  have hweight := totalWeight_set cap hentry (some f)
  -- a frame that is new counts for all it can have; one that is known only loses
  have hlarge : f.extent + 8 * unknown (p.raise offset f).frames.toList ≤ cap ∧
      2 * weight cap (some f) + 1 ≤ 2 * weight cap (p.frame? offset) := by
    rw [hframes]
    have hle := f.room_le
    rcases hroom with ⟨hnone, hextent⟩ | ⟨known, hknown, hless, hextent⟩
    · rw [hnone] at hunknown ⊢
      simp only [Option.isNone_none, if_true, weight, Option.elim_none, Option.elim_some] at *
      omega
    · have hcap := hc.fits offset known hknown
      rw [hknown] at hunknown ⊢
      simp only [Option.isNone_some, weight, Option.elim_some] at *
      omega
  have hfewer : unknown (p.raise offset f).frames.toList ≤ unknown p.frames.toList := by
    rw [hframes]
    omega
  refine ⟨⟨hc.toLined.raise hlt f, fun i g hg => ?_⟩, ?_, hfewer⟩
  · rw [Pass.raise, frame?_raised hlt hc.tidy] at hg
    split at hg
    · obtain rfl := Option.some.inj hg
      exact hlarge.1
    · exact Nat.le_trans (by omega) (hc.fits i g hg)
  · -- the offset may be waiting once more, which is paid for by the weight that was lost
    have hlength : (p.raise offset f).work.length ≤ p.work.length + 1 :=
      length_work_enqueue_le { p with frames := p.frames.setIfInBounds offset (some f) } offset
    unfold room
    rw [hframes]
    omega

/-- **An arrival takes no more room than there was.** -/
theorem Contained.arrive (hc : Contained r cap p) {offset : Nat} (hlt : offset < r.size) {f : Frame}
    (hextent : f.extent + 8 * unknown p.frames.toList ≤ cap + 8) :
    Contained r cap (p.arrive r .flat offset f) ∧
      (p.arrive r .flat offset f).room cap ≤ p.room cap ∧
      unknown (p.arrive r .flat offset f).frames.toList ≤ unknown p.frames.toList := by
  obtain heq | ⟨e, heq⟩ | ⟨g, -, hg, heq⟩ := arrive_cases (r := r) (h := .flat) offset f p
  · rw [heq]
    exact ⟨hc, Nat.le_refl _, Nat.le_refl _⟩
  · rw [heq]
    exact hc.fail offset e
  · rw [heq]
    refine hc.raise hlt ?_
    rcases hg with ⟨hnone, rfl⟩ | ⟨known, hknown, hmerge⟩
    · exact .inl ⟨hnone, hextent⟩
    · exact .inr ⟨known, hknown, Frame.room_merged hmerge⟩

theorem extent_caught_le (region : Region) (f : Frame) :
    (caught region f).extent ≤ f.extent + 2 := by
  have hclear : f.clear.extent ≤ f.extent := by
    simp only [Frame.extent, Frame.clear, Frame.depth, List.length_nil]
    omega
  exact Nat.le_trans (Frame.extent_push_le _ _) (Nat.add_le_add_right hclear 2)

/-- **A visit takes no more room than there was.** -/
theorem Contained.visit (hr : r.Checked) (hc : Contained r cap p) {offset : Nat}
    (hv : p.visit r .flat offset = .ok p') :
    Contained r cap p' ∧ p'.room cap ≤ p.room cap := by
  obtain ⟨insn, before, -, hbefore, hcase⟩ := visit_cases hv
  rcases hcase with ⟨e, rfl⟩ | ⟨after, effect, hexec, rfl⟩
  · exact ⟨(hc.fail offset e).1, (hc.fail offset e).2.1⟩
  have hcap := hc.fits offset before hbefore
  have hafter := Tracker.extent_le hexec
  have hnoted : Contained r cap (p.noteEffect offset effect) :=
    ⟨hc.toLined.noteEffect offset effect, hc.fits⟩
  suffices hall : Contained r cap ((p.noteEffect offset effect).spread r .flat offset insn after) ∧
      ((p.noteEffect offset effect).spread r .flat offset insn after).room cap ≤ p.room cap ∧
      unknown ((p.noteEffect offset effect).spread r .flat offset insn after).frames.toList ≤
        unknown p.frames.toList from ⟨hall.1, hall.2.1⟩
  -- each arrival keeps the bound, and none adds to the offsets without a frame
  refine spread_induction (Q := fun q => Contained r cap q ∧ q.room cap ≤ p.room cap ∧
      unknown q.frames.toList ≤ unknown p.frames.toList)
    ⟨hnoted, Nat.le_refl _, Nat.le_refl _⟩ ?_ ?_
  · rintro q target f ⟨hq, hroom, hunknown⟩ ha
    -- what arrives is not much larger than the frame it was made from
    have hextent : f.extent + 8 * unknown q.frames.toList ≤ cap + 8 := by
      cases ha with
      | next | target => omega
      | @caughtBefore region f _ _ _ known =>
        have hknown := hq.fits offset f known
        have hcaught := extent_caught_le region f
        omega
      | @caughtAfter region =>
        have hcaught := extent_caught_le region after
        omega
      | resume _ _ known =>
        have hknown := hq.fits offset f known
        omega
    obtain ⟨hcontained, hle, hfewer⟩ := hq.arrive (ha.lt hr) hextent
    exact ⟨hcontained, Nat.le_trans hle hroom, Nat.le_trans hfewer hunknown⟩
  · rintro - - q e ⟨hq, hroom, hunknown⟩
    obtain ⟨hcontained, hle, hfewer⟩ := hq.fail offset e
    exact ⟨hcontained, Nat.le_trans hle hroom, Nat.le_trans hfewer hunknown⟩

theorem Contained.dequeue (hc : Contained r cap p) {offset : Nat} {rest : List Nat}
    (hwork : p.work = offset :: rest) :
    Contained r cap (p.dequeue offset rest) ∧
      (p.dequeue offset rest).room cap + 1 = p.room cap := by
  refine ⟨⟨hc.toLined.dequeue hwork, hc.fits⟩, ?_⟩
  have hlength : p.work.length = rest.length + 1 := by rw [hwork, List.length_cons]
  unfold room
  rw [hlength]
  rfl

/-! ### How a pass ends -/

section

variable {fuel offset : Nat} {rest : List Nat} {stop : Stop FlowError}

theorem run_of_failed (hwork : p.work = offset :: rest)
    (hfailed : (p.dequeue offset rest).hasFailed offset) :
    run r h (fuel + 1) p = run r h fuel (p.dequeue offset rest) := by
  unfold dequeue at hfailed ⊢
  rw [run, hwork]
  dsimp only
  rw [if_pos hfailed]

theorem run_of_visit (hwork : p.work = offset :: rest)
    (hfailed : (p.dequeue offset rest).hasFailed offset = false)
    (hvisit : (p.dequeue offset rest).visit r h offset = .ok p') :
    run r h (fuel + 1) p = run r h fuel p' := by
  unfold dequeue at hfailed hvisit
  rw [run, hwork]
  dsimp only
  rw [hfailed, hvisit]
  rfl

theorem run_of_visit_error (hwork : p.work = offset :: rest)
    (hfailed : (p.dequeue offset rest).hasFailed offset = false)
    (hvisit : (p.dequeue offset rest).visit r h offset = .error stop) :
    run r h (fuel + 1) p = .error stop := by
  unfold dequeue at hfailed hvisit
  rw [run, hwork]
  dsimp only
  rw [hfailed, hvisit]
  rfl

/-- **A visit gives no answer only if its instruction breaks down**, where there is an instruction
and a frame. -/
theorem visit_error (hv : p.visit r h offset = .error stop) :
    stop = .breakdown ∧ ∀ insn before, r.code[offset]? = some insn →
      p.frame? offset = some before →
      ∃ after, Tracker.execute r.owner before insn offset = (after, .error .breakdown) := by
  -- a missing instruction or frame is a breakdown as well, which callers rule out
  unfold visit at hv
  cases hinsn : r.code[offset]? with
  | none =>
    rw [hinsn] at hv
    exact ⟨(Except.error.inj hv).symm, fun _ _ h => absurd h (by simp)⟩
  | some insn =>
  cases hbefore : p.frame? offset with
  | none =>
    rw [hinsn, hbefore] at hv
    exact ⟨(Except.error.inj hv).symm, fun _ _ _ h => absurd h (by simp)⟩
  | some before =>
  simp only [hinsn, hbefore, Answer.require, bind, Except.bind] at hv
  split at hv
  · next after hexec =>
    refine ⟨(Except.error.inj hv).symm, fun insn' before' h h' => ?_⟩
    obtain rfl := Option.some.inj h
    obtain rfl := Option.some.inj h'
    exact ⟨after, hexec⟩
  · cases hv
  · split at hv <;> split at hv <;> cases hv

/-- **The ways in which a pass ends**: nothing waits in line, its visits are used up, or a visit
gives no answer. What every visit keeps holds up to that point. -/
theorem run_cases {Q : Pass → Prop} (fuel : Nat) (start : Q p)
    (skips : ∀ q offset rest, Q q → q.work = offset :: rest →
      (q.dequeue offset rest).hasFailed offset → Q (q.dequeue offset rest))
    (visits : ∀ q q' offset rest, Q q → q.work = offset :: rest →
      (q.dequeue offset rest).hasFailed offset = false →
      (q.dequeue offset rest).visit r h offset = .ok q' → Q q') :
    (∃ p', run r h fuel p = .ok p' ∧ Q p') ∨ run r h fuel p = Answer.refuse .restless ∨
      ∃ q offset rest stop, Q q ∧ q.work = offset :: rest ∧
        (q.dequeue offset rest).visit r h offset = .error stop ∧ run r h fuel p = .error stop := by
  induction fuel generalizing p with
  | zero =>
    cases hwork : p.work with
    | nil => exact .inl ⟨p, by rw [run, hwork], start⟩
    | cons offset rest => exact .inr (.inl (by rw [run, hwork]))
  -- one step with fuel to spare, and the same for the pass it leads to
  | succ fuel ih =>
    cases hwork : p.work with
    | nil => exact .inl ⟨p, by rw [run, hwork], start⟩
    | cons offset rest =>
      cases hfailed : (p.dequeue offset rest).hasFailed offset with
      | true =>
        rw [run_of_failed hwork hfailed]
        exact ih (skips p offset rest start hwork hfailed)
      | false =>
        cases hvisit : (p.dequeue offset rest).visit r h offset with
        | ok q =>
          rw [run_of_visit hwork hfailed hvisit]
          exact ih (visits p q offset rest start hwork hfailed hvisit)
        | error stop =>
          exact .inr (.inr ⟨p, offset, rest, stop, start, hwork, hvisit,
            run_of_visit_error hwork hfailed hvisit⟩)

end

/-- **A pass with as many visits as there is room is not given up.** -/
theorem Contained.run_ne_restless (hr : r.Checked) {fuel : Nat} (hc : Contained r cap p)
    (hfuel : p.room cap ≤ fuel) : run r .flat fuel p ≠ Answer.refuse .restless := by
  induction fuel generalizing p with
  | zero =>
    have hwork : p.work = [] := by
      unfold room at hfuel
      exact List.length_eq_zero_iff.1 (by omega)
    rw [run, hwork]
    intro heq
    cases heq
  | succ fuel ih =>
    cases hwork : p.work with
    | nil =>
      rw [run, hwork]
      intro heq
      cases heq
    | cons offset rest =>
      -- taking an offset out of the line pays for its visit, which takes no more room
      obtain ⟨hc', hroom⟩ := hc.dequeue hwork
      cases hfailed : (p.dequeue offset rest).hasFailed offset with
      | true =>
        rw [run_of_failed hwork hfailed]
        exact ih hc' (by omega)
      | false =>
        cases hvisit : (p.dequeue offset rest).visit r .flat offset with
        | ok q =>
          obtain ⟨hq, hle⟩ := hc'.visit hr hvisit
          rw [run_of_visit hwork hfailed hvisit]
          exact ih hq (by omega)
        | error stop =>
          rw [run_of_visit_error hwork hfailed hvisit, (visit_error hvisit).1]
          intro heq
          cases heq

end Pass

/-! ### The whole analysis -/

theorem extent_setArguments_le (f : Frame) (index : Nat) (args : List JType) :
    (setArguments f index args).extent ≤ f.extent + 3 * args.length := by
  induction args generalizing f index with
  | nil => exact Nat.le_refl _
  | cons t rest ih =>
    have hset := f.extent_setSlot_le index t.computational
    have hrest := ih (f.setSlot index t.computational) (index + t.size)
    rw [setArguments, List.length_cons]
    omega

theorem extent_entry_le (r : Routine) :
    (entry r).extent ≤ 3 * (r.signature.args.length + 1) := by
  have hempty : Frame.empty.extent = 0 := rfl
  unfold entry
  split
  · have := extent_setArguments_le .empty 0 r.signature.args
    omega
  · have := extent_setArguments_le (Frame.empty.setSlot 0 (receiver r)) 1 r.signature.args
    have := Frame.empty.extent_setSlot_le 0 (receiver r)
    omega

/-- The pass that an analysis starts with has room for every routine. -/
theorem contained_initial (r : Routine) :
    ∃ cap, Pass.Contained r cap (Pass.initial r .flat) ∧
      (Pass.initial r .flat).room cap ≤ patience r := by
  obtain ⟨n, hn⟩ : ∃ n, n = r.size + r.signature.args.length + 1 := ⟨_, rfl⟩
  obtain ⟨cap, hcap⟩ : ∃ cap, cap = 8 * n := ⟨_, rfl⟩
  have hstart : Pass.Contained r cap (Pass.start r.size) :=
    ⟨⟨Pass.tidy_start _, nofun⟩, fun i f hf => absurd hf (by simp [Pass.frame?_start])⟩
  have hunknown : unknown (Pass.start r.size).frames.toList = r.size := by
    simp [unknown, Pass.start, List.countP_replicate]
  have hroom : (Pass.start r.size).room cap = 2 * (r.size * (3 * cap + 1)) := by
    simp [Pass.room, Pass.start, totalWeight_replicate]
  -- with no frame known, the room is that of the largest frames there could be
  have hpatience : 2 * (r.size * (3 * cap + 1)) ≤ patience r := by
    have hmul : r.size * (3 * cap + 1) ≤ n * (25 * n) := Nat.mul_le_mul (by omega) (by omega)
    have hsquare : n * (25 * n) = 25 * (n * n) := Nat.mul_left_comm _ _ _
    unfold patience
    dsimp only
    rw [← hn]
    omega
  refine ⟨cap, ?_⟩
  unfold Pass.initial
  split
  · exact ⟨hstart, hroom ▸ hpatience⟩
  · have hextent := extent_entry_le r
    obtain ⟨hc, hle, -⟩ := hstart.arrive (f := entry r) (Nat.pos_of_ne_zero ‹_›) (by omega)
    exact ⟨hc, Nat.le_trans (hroom ▸ hle) hpatience⟩

theorem analyzeWithin_eq (fuel : Nat) (h : Hierarchy) (r : Routine) : analyzeWithin fuel h r =
    (Pass.run r h fuel (Pass.initial r h) >>= fun p =>
      if p.errors.isEmpty then .ok ⟨r, p.frames, p.effects⟩
      else Answer.refuse (.faults p.errors.reverse)) := rfl

theorem analyze_eq (h : Hierarchy) (r : Routine) : analyze h r =
    (Pass.run r h (patience r) (Pass.initial r h) >>= fun p =>
      if p.errors.isEmpty then .ok ⟨r, p.frames, p.effects⟩
      else Answer.refuse (.faults p.errors.reverse)) := rfl

/-- An analysis is given up only if its pass is. -/
theorem analyzeWithin_ne_restless {fuel : Nat} {h : Hierarchy} {r : Routine}
    (hrun : Pass.run r h fuel (Pass.initial r h) ≠ Answer.refuse .restless) :
    analyzeWithin fuel h r ≠ Answer.refuse .restless := by
  rw [analyzeWithin_eq]
  cases hp : Pass.run r h fuel (Pass.initial r h) with
  | ok p =>
    change (if p.errors.isEmpty then _ else _) ≠ _
    split <;> intro heq <;> cases heq
  | error stop =>
    intro heq
    have hstop : stop = .refused .restless := Except.error.inj heq
    rw [hstop] at hp
    exact hrun hp

/-- **Under the flat hierarchy no analysis is given up.** -/
theorem analyze_ne_restless {r : Routine} (hr : r.Checked) :
    analyze .flat r ≠ Answer.refuse .restless := by
  obtain ⟨cap, hc, hroom⟩ := contained_initial r
  exact analyzeWithin_ne_restless (hc.run_ne_restless hr hroom)

end Flow

end Outliner
