import Outliner.Survey
import Outliner.Proofs.Operands

/-!
# Ranges that can be moved

`Boundary.fit` shortens a range until no reason to shorten it is left. What is left is a range that
control enters only at its first instruction and leaves only after its last one, and that no
protected block or handler cuts through. `Movable` says so in terms of the routine, and
`Survey.chosen_of_yields` that every cut a survey finds has such a range.

Each pass over the reasons only lowers the end of the range. So where a pass changes nothing, none
of its reasons applies.
-/

namespace Outliner

namespace Boundary

variable (b : Boundary) (start stop : Int)

/-! ### Each reason only shortens a range -/

/-- One block's limits on the end of a range. -/
def limitBy (region : Region) (stop : Int) : Int :=
  let stop := if start ≤ region.handler then min stop (region.handler - 1) else stop
  if region.start ≤ start && start < region.stop then min stop (region.stop - 1)
  else if start < region.start then min stop (region.start - 1)
  else stop

theorem respectRegions_eq :
    b.respectRegions start stop =
      b.regions.foldl (fun stop region => limitBy start region stop) stop := rfl

theorem limitBy_le (region : Region) : limitBy start region stop ≤ stop := by
  unfold limitBy
  grind

theorem foldl_limitBy_le (regions : List Region) :
    regions.foldl (fun stop region => limitBy start region stop) stop ≤ stop := by
  induction regions generalizing stop with
  | nil => exact Int.le_refl _
  | cons region regions ih => exact Int.le_trans (ih _) (limitBy_le start stop region)

/-- A fold that changes nothing meets no limit. -/
theorem limitBy_eq_of_foldl_eq {regions : List Region}
    (h : regions.foldl (fun stop region => limitBy start region stop) stop = stop) :
    ∀ region ∈ regions, limitBy start region stop = stop := by
  induction regions with
  | nil => simp
  | cons region regions ih =>
    rw [List.foldl_cons] at h
    have hle := foldl_limitBy_le start (limitBy start region stop) regions
    have hle' := limitBy_le start stop region
    have hfirst : limitBy start region stop = stop := by omega
    rw [hfirst] at h
    intro region' hmem
    rcases List.mem_cons.1 hmem with rfl | hmem
    · exact hfirst
    · exact ih h region' hmem

theorem containExits_le : b.containExits start stop ≤ stop := by
  unfold containExits
  split
  · next e he =>
    have := List.find?_some he
    simp at this
    omega
  · exact Int.le_refl _

theorem foldl_min_le (edges : List Edge) :
    edges.foldl (fun last e => min last ((e.target : Int) - 1)) stop ≤ stop := by
  induction edges generalizing stop with
  | nil => exact Int.le_refl _
  | cons e edges ih => exact Int.le_trans (ih _) (Int.min_le_left _ _)

theorem foldl_min_lt {edges : List Edge} {e : Edge} (he : e ∈ edges) :
    edges.foldl (fun last e => min last ((e.target : Int) - 1)) stop < e.target := by
  induction edges generalizing stop with
  | nil => cases he
  | cons e' edges ih =>
    rw [List.foldl_cons]
    rcases List.mem_cons.1 he with rfl | he
    · have := foldl_min_le (min stop ((e.target : Int) - 1)) edges
      omega
    · exact ih _ he

theorem stopAtEntries_le : b.stopAtEntries start stop ≤ stop :=
  foldl_min_le stop _

theorem lastFallThrough_lt (count : Nat) : b.lastFallThrough start count < start + count := by
  induction count with
  | zero =>
    unfold lastFallThrough
    omega
  | succ count ih =>
    unfold lastFallThrough
    split <;> omega

theorem endOnFallThrough_le : b.endOnFallThrough start stop ≤ stop := by
  unfold endOnFallThrough
  split
  · have := b.lastFallThrough_lt start (stop - start + 1).toNat
    omega
  · exact Int.le_refl _

theorem tighten_le : b.tighten start stop ≤ stop := by
  unfold tighten
  have h₁ : b.respectRegions start stop ≤ stop := foldl_limitBy_le start stop b.regions
  have h₂ := b.containExits_le start (b.respectRegions start stop)
  have h₃ := b.stopAtEntries_le start (b.containExits start (b.respectRegions start stop))
  have h₄ := b.endOnFallThrough_le start
    (b.stopAtEntries start (b.containExits start (b.respectRegions start stop)))
  omega

/-- **What is left after fitting is not shortened any further.** -/
theorem fit_spec :
    b.fit start stop ≤ stop ∧
      (start ≤ b.fit start stop → b.tighten start (b.fit start stop) = b.fit start stop) := by
  fun_induction fit b start stop with
  | case1 stop hle next hlt ih =>
    exact ⟨by omega, ih.2⟩
  | case2 stop hle next hge =>
    have hle' := b.tighten_le start stop
    have hnext : next = stop := by omega
    exact ⟨by omega, fun _ => by rw [hnext]; exact hnext⟩
  | case3 stop hgt => exact ⟨Int.le_refl _, fun h => absurd h hgt⟩

/-! ### Where nothing is shortened, no reason applies -/

variable {b start stop}

/-- The limits of a range that no reason shortens. -/
structure Fixed (b : Boundary) (start stop : Int) : Prop where
  regions : ∀ region ∈ b.regions, limitBy start region stop = stop
  exits : ∀ e ∈ b.exits, start ≤ e.offset → (e.offset : Int) ≤ stop → e.staysWithin start stop
  entries : ∀ e ∈ b.edges, start ≤ e.target → (e.target : Int) ≤ stop →
    start ≤ e.source ∧ (e.source : Int) ≤ stop
  falls : (b.code.getD stop.toNat .frame).fallsThrough

theorem fixed_of_tighten_eq (hle : start ≤ stop) (h : b.tighten start stop = stop) :
    b.Fixed start stop := by
  unfold tighten at h
  -- none of the four steps lengthens the range, so if the last one gives back the end, all do
  have h₁ : b.respectRegions start stop ≤ stop := foldl_limitBy_le start stop b.regions
  have h₂ := b.containExits_le start (b.respectRegions start stop)
  have h₃ := b.stopAtEntries_le start (b.containExits start (b.respectRegions start stop))
  have h₄ := b.endOnFallThrough_le start
    (b.stopAtEntries start (b.containExits start (b.respectRegions start stop)))
  have e₁ : b.respectRegions start stop = stop := by omega
  rw [e₁] at h h₂ h₃ h₄
  have e₂ : b.containExits start stop = stop := by omega
  rw [e₂] at h h₃ h₄
  have e₃ : b.stopAtEntries start stop = stop := by omega
  rw [e₃] at h
  refine ⟨limitBy_eq_of_foldl_eq start stop e₁, fun e he hlow hhigh => ?_,
    fun e he hlow hhigh => ?_, ?_⟩
  · unfold containExits at e₂
    split at e₂
    · next e' he' =>
      have := List.find?_some he'
      simp at this
      omega
    · next hnone =>
      have := List.find?_eq_none.1 hnone e he
      simpa [hlow, hhigh] using this
  · unfold stopAtEntries at e₃
    refine Decidable.byContradiction fun hout => ?_
    -- an edge into the range would have cut it short
    have hmem : e ∈ b.edges.filter fun e => start ≤ e.target && e.target ≤ stop &&
        (e.source < start || stop < e.source) := by
      rw [List.mem_filter]
      refine ⟨he, ?_⟩
      simp only [Bool.and_eq_true, Bool.or_eq_true, decide_eq_true_eq]
      omega
    have := foldl_min_lt stop hmem
    omega
  · unfold endOnFallThrough at h
    rw [if_pos hle] at h
    obtain ⟨count, hcount⟩ : ∃ count : Nat, (stop - start + 1).toNat = count + 1 :=
      ⟨(stop - start).toNat, by omega⟩
    rw [hcount] at h
    unfold lastFallThrough at h
    split at h
    · next hfalls =>
      rwa [show stop = start + count by omega]
    · have := b.lastFallThrough_lt start count
      omega

end Boundary

/-! ### Movable ranges of a routine -/

/-- **The instructions from `start` up to `stop` can be moved**: control enters them at the first
and leaves them after the last, and blocks and handlers do not cut through them. -/
structure Movable (r : Routine) (start stop : Nat) : Prop where
  lt : start < stop
  le_size : stop ≤ r.size
  handler : ∀ region ∈ r.regions, region.isEmpty = false →
    region.handler < start ∨ stop ≤ region.handler
  inside : ∀ region ∈ r.regions, region.isEmpty = false → region.contains start →
    stop ≤ region.stop
  start_le : ∀ region ∈ r.regions, region.isEmpty = false →
    region.start ≤ start ∨ stop ≤ region.start
  stays : ∀ i insn, start ≤ i → i < stop → r.code[i]? = some insn → insn.isMarker = false →
    insn.opcode.flow ≠ .leave ∧ insn.opcode.flow ≠ .subroutine ∧
      (insn.opcode.isBranch → ∀ t ∈ r.targetOffsets insn, start ≤ t ∧ t < stop)
  enters : ∀ i insn, i < start ∨ stop ≤ i → r.code[i]? = some insn → insn.isMarker = false →
    insn.opcode.isBranch → ∀ t ∈ r.targetOffsets insn, t < start ∨ stop ≤ t
  falls : ∀ insn, r.code[stop - 1]? = some insn → insn.fallsThrough

theorem mem_zipIdx_toList {code : Array Instruction} {i : Nat} {insn : Instruction}
    (h : code[i]? = some insn) : (insn, i) ∈ code.toList.zipIdx := by
  rw [List.mem_zipIdx_iff_getElem?]
  simpa using h

theorem Boundary.exitAt_offset {r : Routine} {i : Nat} {insn : Instruction} {e : Exit}
    (h : exitAt r i insn = some e) : e.offset = i := by
  unfold exitAt at h
  split at h
  · cases h
  · split at h <;> split at h <;> cases h <;> rfl

theorem Opcode.flow_ne_leave {op : Opcode} (h : op.isBranch) : op.flow ≠ .leave := by
  intro hleave
  cases op <;> first | cases hleave; done | cases h

/-- A range that no reason shortens can be moved. -/
theorem Boundary.Fixed.movable {r : Routine} {start stop : Nat} (hlt : start < stop)
    (hsize : stop ≤ r.size) (h : (Boundary.ofRoutine r).Fixed start (stop - 1 : Nat)) :
    Movable r start stop := by
  have hregion : ∀ region ∈ r.regions, region.isEmpty = false →
      limitBy start region (stop - 1 : Nat) = (stop - 1 : Nat) := fun region hr hne =>
    h.regions region (List.mem_filter.2 ⟨hr, by simp [hne]⟩)
  refine ⟨hlt, hsize, fun region hr hne => ?_, fun region hr hne hc => ?_,
    fun region hr hne => ?_, fun i insn hlow hhigh hi hm => ?_,
    fun i insn hout hi hm hb t ht => ?_, fun insn hi => ?_⟩
  · have := hregion region hr hne
    unfold limitBy at this
    grind
  · have := hregion region hr hne
    unfold limitBy at this
    simp only [Region.contains, Bool.and_eq_true, decide_eq_true_eq] at hc
    grind
  · have := hregion region hr hne
    unfold limitBy at this
    grind
  · -- exits
    have hexit : ∀ e, exitAt r i insn = some e → e.staysWithin start (stop - 1 : Nat) := fun e he =>
      h.exits e (List.mem_filterMap.2 ⟨(insn, i), mem_zipIdx_toList hi, he⟩)
        (by rw [exitAt_offset he]; omega) (by rw [exitAt_offset he]; omega)
    unfold exitAt at hexit
    rw [if_neg (by simp [hm])] at hexit
    by_cases hb : insn.opcode.isBranch
    · rw [if_pos hb] at hexit
      have hleave : insn.opcode.flow ≠ .leave := insn.opcode.flow_ne_leave hb
      by_cases hsub : insn.opcode.flow = .subroutine
      · simp only [hsub] at hexit
        cases hexit _ rfl
      · refine ⟨hleave, hsub, fun _ t ht => ?_⟩
        have hwithin := hexit ⟨i, some (r.targetOffsets insn)⟩ (by split <;> simp_all)
        have := List.all_eq_true.1 hwithin t ht
        simp only [Bool.and_eq_true, decide_eq_true_eq] at this
        omega
    · rw [if_neg hb] at hexit
      refine ⟨fun hleave => ?_, fun hsub => ?_, fun hb' => absurd hb' hb⟩
      · simp only [hleave] at hexit
        cases hexit _ rfl
      · simp only [hsub] at hexit
        cases hexit _ rfl
  · -- entries
    have hedge : (⟨i, t⟩ : Edge) ∈ (Boundary.ofRoutine r).edges := by
      refine List.mem_flatMap.2 ⟨(insn, i), mem_zipIdx_toList hi, ?_⟩
      simp only [edgesAt, hm, hb, Bool.not_false, Bool.and_self, if_true]
      exact List.mem_map.2 ⟨t, ht, rfl⟩
    have := h.entries _ hedge
    grind
  · have hfalls := h.falls
    rw [Array.getD_eq_getD_getElem?, Int.toNat_natCast] at hfalls
    change ((r.code[stop - 1]?).getD .frame).fallsThrough = true at hfalls
    rwa [hi] at hfalls

/-! ### The cuts of a survey -/

/-- The cut of an attempt that found one. -/
def Attempt.cut? : Attempt → Option Cut
  | found cut => some cut
  | _ => none

theorem Attempt.cut?_eq_some {a : Attempt} {c : Cut} (h : a.cut? = some c) : a = .found c := by
  cases a with
  | found cut => rw [← Option.some.inj h]
  | _ => cases h

namespace Survey

/-- A cut that a survey finds from some start on. -/
def Yields (s : Survey) (c : Cut) : Prop :=
  ∃ start ≤ s.size, (s.attemptAt start : Answer Empty Attempt) = .ok (.found c)

/-- What an attempt does does not depend on what else could go wrong. -/
theorem attemptAt_eq_ok {ε ε' : Type} {s : Survey} {start : Nat} {a : Attempt}
    (h : (s.attemptAt start : Answer ε Attempt) = .ok a) :
    (s.attemptAt start : Answer ε' Attempt) = .ok a := by
  unfold attemptAt at h ⊢
  grind [Answer.breakdown]

end Survey

/-- **What is known of a cut that was found** with the range from `start` up to `stop`: the range
can be moved, the cut is read off its footprint, and no instruction of it writes a slot that a
handler protecting it may read. -/
structure Chosen (flow : Flow) (c : Cut) (start stop : Nat) : Prop where
  start_eq : c.start = start
  length_eq : c.length = (stop : Int) - start
  movable : Movable flow.routine start stop
  footprint : ∃ fp, flow.footprint start ((stop : Int) - 1) = .ok fp ∧ Cut.ofFootprint fp = .ok c
  unwatched : ∀ offset, start ≤ offset → offset < stop → Watch.writesWatched flow
    ((Watch.ofFlow flow (Boundary.ofRoutine flow.routine).regions).protecting start) offset = false

/-- The first write of a watched slot is found by going through the range. -/
theorem Watch.firstWrite?_eq_find? (w : Watch) (flow : Flow) (start stop : Int) :
    w.firstWrite? flow start stop = (List.range' start.toNat (stop + 1 - start).toNat).find?
      (writesWatched flow (w.protecting start)) := by
  unfold firstWrite?
  split
  · next hnil =>
    rw [hnil]
    exact (List.find?_eq_none.2 fun _ _ => by simp [writesWatched]).symm
  · rfl

/-- Before the first write of a watched slot there is none. -/
theorem Watch.writesWatched_of_lt {w : Watch} {flow : Flow} {start stop : Int} {first : Nat}
    (h : w.firstWrite? flow start stop = some first) {offset : Nat} (hlow : start ≤ offset)
    (hlt : offset < first) : writesWatched flow (w.protecting start) offset = false := by
  rw [firstWrite?_eq_find?, List.find?_range'_eq_some] at h
  simpa using h.2.2 offset (by omega) hlt

theorem Watch.writesWatched_of_firstWrite?_eq_none {w : Watch} {flow : Flow} {start stop : Int}
    (h : w.firstWrite? flow start stop = none) {offset : Nat} (hlow : start ≤ offset)
    (hhigh : offset ≤ stop) : writesWatched flow (w.protecting start) offset = false := by
  rw [firstWrite?_eq_find?, List.find?_range'_eq_none] at h
  simpa using h offset (by omega) (by omega)

/-! ### What a cut is read off -/

namespace Footprint

/-- What has been seen of a range with the given frames at its ends. -/
def tally (flow : Flow) (start stop : Int) (startFrame exitFrame : Frame) : Tally :=
  (offsets start stop).foldl (Tally.note flow startFrame exitFrame) { minDepth := startFrame.depth }

/-- The depth below which a range with the given frames at its ends leaves the stack alone. -/
def floor (flow : Flow) (start stop : Int) (startFrame exitFrame : Frame) : Nat :=
  wholeDepth startFrame (tally flow start stop startFrame exitFrame).minDepth

end Footprint

/-- A cut takes the crossing values from its footprint, and each of them can be passed in a call. -/
theorem Cut.ofFootprint_eq_ok {f : Footprint} {c : Cut} (h : Cut.ofFootprint f = .ok c) :
    ((∀ t ∈ f.consumed, t.isDefinite = true) ∧ (∀ t ∈ f.produced, t.isDefinite = true) ∧
      (∀ e ∈ f.read.toList, e.2.isUninitialized = false) ∧
      ∀ e ∈ f.written.toList, e.2.isUninitialized = false) ∧
      c = ⟨f.start, f.stop - f.start + 1, needed f, usable f.written, f.consumed, f.produced⟩ := by
  unfold Cut.ofFootprint at h
  cases hconsumed : f.consumed.find? (!·.isDefinite) with
  | some t => rw [hconsumed] at h; cases h
  | none =>
  cases hproduced : f.produced.find? (!·.isDefinite) with
  | some t => rw [hconsumed, hproduced] at h; cases h
  | none =>
  cases hread : f.read.toList.find? (·.2.isUninitialized) with
  | some e => rw [hconsumed, hproduced, hread] at h; cases h
  | none =>
  cases hwritten : f.written.toList.find? (·.2.isUninitialized) with
  | some e => rw [hconsumed, hproduced, hread, hwritten] at h; cases h
  | none =>
  rw [hconsumed, hproduced, hread, hwritten] at h
  simp only [List.find?_eq_none, Bool.not_eq_true, Bool.not_eq_false'] at hconsumed hproduced hread
  simp only [List.find?_eq_none, Bool.not_eq_true] at hwritten
  exact ⟨⟨hconsumed, hproduced, hread, hwritten⟩, (Except.ok.inj h).symm⟩

namespace Flow

/-- The frame after an instruction comes from executing it on the frame before it. -/
theorem frameAfter_eq_ok {flow : Flow} {offset : Int} {after : Frame}
    (h : flow.frameAfter offset = .ok after) :
    ∃ insn before effect, flow.routine.code[offset.toNat]? = some insn ∧
      flow.frame? offset = some (some before) ∧
      Tracker.execute flow.routine.owner before insn offset = (after, .ok effect) := by
  unfold frameAfter at h
  cases hcode : flow.routine.code[offset.toNat]? with
  | none => rw [hcode] at h; cases h
  | some insn =>
  cases hframe : flow.frame? offset with
  | none => rw [hcode, hframe] at h; cases h
  | some before =>
  rw [hcode, hframe] at h
  cases before with
  | none => cases h
  | some before =>
  rcases hexec : Tracker.execute flow.routine.owner before insn offset with ⟨after', effect⟩
  dsimp only [Answer.require, bind, Except.bind] at h
  rw [hexec] at h
  cases effect with
  | error e => cases h
  | ok effect => cases h; exact ⟨insn, before, effect, rfl, rfl, hexec⟩

/-- A footprint records the frames at the two ends of the range and what lies above the depth that
the range leaves alone. -/
theorem footprint_eq_ok {flow : Flow} {start stop : Int} {fp : Footprint}
    (h : flow.footprint start stop = .ok fp) :
    ∃ startFrame exitFrame consumed produced,
      flow.frame? start = some (some startFrame) ∧ flow.frameAfter stop = .ok exitFrame ∧
      startFrame.cells? (Footprint.floor flow start stop startFrame exitFrame) = some consumed ∧
      exitFrame.cells? (Footprint.floor flow start stop startFrame exitFrame) = some produced ∧
      fp = ⟨start, stop, startFrame, exitFrame,
      Footprint.floor flow start stop startFrame exitFrame,
        Frame.collapse consumed, Frame.collapse produced,
        (Footprint.tally flow start stop startFrame exitFrame).read,
        (Footprint.tally flow start stop startFrame exitFrame).written,
        (Footprint.tally flow start stop startFrame exitFrame).widths,
        (Footprint.tally flow start stop startFrame exitFrame).branches⟩ := by
  unfold footprint at h
  cases hstart : flow.frame? start with
  | none => rw [hstart] at h; cases h
  | some before =>
  rw [hstart] at h
  cases before with
  | none => cases hcode : flow.routine.code[start.toNat]? <;> rw [hcode] at h <;> cases h
  | some startFrame =>
  cases hafter : flow.frameAfter stop with
  | error e => rw [hafter] at h; cases h
  | ok exitFrame =>
  rw [hafter] at h
  -- the floor is a large term, so the steps of the program are named by hand
  cases hconsumed : startFrame.cells? (Footprint.floor flow start stop startFrame exitFrame) with
  | none =>
    change (Answer.require (startFrame.cells? (Footprint.floor ..)) >>= fun _ => _) = _ at h
    rw [hconsumed] at h
    cases h
  | some consumed =>
  change (Answer.require (startFrame.cells? (Footprint.floor ..)) >>= fun _ => _) = _ at h
  rw [hconsumed] at h
  change (Answer.require (exitFrame.cells? (Footprint.floor ..)) >>= fun _ => _) = _ at h
  cases hproduced : exitFrame.cells? (Footprint.floor flow start stop startFrame exitFrame) with
  | none => rw [hproduced] at h; cases h
  | some produced =>
  rw [hproduced] at h
  exact ⟨startFrame, exitFrame, consumed, produced, rfl, rfl, hconsumed, hproduced,
    (Except.ok.inj h).symm⟩

end Flow

namespace Survey

/-- The range tried from a start on ends inside the routine, and nothing shortens it. -/
theorem farthest_spec (s : Survey) (start : Nat) :
    s.farthest start ≤ s.size - 1 ∧
      (start ≤ s.farthest start → s.boundary.tighten start (s.farthest start) = s.farthest start) ∧
      ∀ offset : Nat, start ≤ offset → offset ≤ s.farthest start →
        Watch.writesWatched s.flow (s.watch.protecting start) offset = false := by
  unfold farthest
  dsimp only
  have hfit := s.boundary.fit_spec start (min (Word.wrap (start + s.maxSize - 1)) (s.size - 1))
  split
  · next w hw =>
    have hfit' := s.boundary.fit_spec start (w - 1)
    have hmem : (w : Int) ≤ s.boundary.fit start
        (min (Word.wrap (start + s.maxSize - 1)) (s.size - 1)) := by
      unfold Watch.firstWrite? at hw
      split at hw
      · cases hw
      · have := List.mem_of_find?_eq_some hw
        rw [List.mem_range'_1] at this
        omega
    exact ⟨by omega, hfit'.2, fun offset hlow hhigh =>
      Watch.writesWatched_of_lt hw (by omega) (by omega)⟩
  · next hnone =>
    exact ⟨by omega, hfit.2, fun offset hlow hhigh =>
      Watch.writesWatched_of_firstWrite?_eq_none hnone (by omega) hhigh⟩

/-- **Every cut a survey finds has a range that can be moved.** -/
theorem chosen_of_yields {flow : Flow} {minSize maxSize : Int} {c : Cut}
    (hsize : (flow.routine.size : Int) ≤ Word.max) (h : (make flow minSize maxSize).Yields c) :
    ∃ start stop, Chosen flow c start stop := by
  obtain ⟨start, hstart, h⟩ := h
  unfold attemptAt at h
  split at h
  · cases h
  dsimp only at h
  split at h
  · cases h
  next hmin =>
  obtain ⟨hlast, hfixed, hwatch⟩ := farthest_spec (make flow minSize maxSize) start
  generalize hstop : (make flow minSize maxSize).farthest start = stop at h hmin hlast hfixed hwatch
  split at h
  · cases h
  · cases h
  next fp hfp =>
  obtain ⟨startFrame, exitFrame, consumed, produced, hstartFrame, hafter, -, -, hfields⟩ :=
    Flow.footprint_eq_ok hfp
  -- the exit frame is one of the routine, so the end has not wrapped
  have hnonneg : 0 ≤ stop := by
    obtain ⟨insn, before, effect, -, hframe, -⟩ := Flow.frameAfter_eq_ok hafter
    unfold Flow.frame? at hframe
    grind
  have hminSize : 1 ≤ (make flow minSize maxSize).minSize := Int.le_max_right _ _
  have hsz : (make flow minSize maxSize).size = flow.routine.size := rfl
  have hwrap : Word.wrap (stop - start + 1) = stop - start + 1 := by
    apply Word.wrap_eq_self
    · unfold Word.min
      unfold Word.max at hsize
      omega
    · omega
  have hle : (start : Int) ≤ stop := by omega
  obtain ⟨n, rfl⟩ : ∃ n : Nat, stop = n := ⟨stop.toNat, by omega⟩
  split at h
  · cases h
  next hcut =>
  obtain rfl := Attempt.found.inj (Except.ok.inj h)
  have hcut' := (Cut.ofFootprint_eq_ok hcut).2
  rw [hfields] at hcut'
  refine ⟨start, n + 1, by rw [hcut'], by rw [hcut']; dsimp only; omega, ?_, ⟨fp, ?_, hcut⟩,
    fun offset hlow hhigh => hwatch offset (by omega) (by omega)⟩
  · exact (Boundary.fixed_of_tighten_eq hle (hfixed hle)).movable (by omega) (by omega)
  · rw [show ((n + 1 : Nat) : Int) - 1 = n by omega]
    exact hfp

end Survey

end Outliner
