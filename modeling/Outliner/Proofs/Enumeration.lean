import Outliner.Proofs.Crossing
import Outliner.Proofs.Farthest
import Outliner.Proofs.Tracking
import Outliner.Proofs.Visits

/-!
# The candidates of a survey, and the cursor over them

A survey tries one start after the other, and a cursor hands out what it finds with one candidate of
look-ahead. This module says which list that is, in terms of the routine alone, and that a cursor
reads it.

* Fitting loses nothing (`Boundary.le_fit`). So the two rounds of fitting, before and after the
  watched writes are looked at, end at the longest range there is (`Flow.Longest`).
* `Survey.exists_attempt` — trying a start never breaks down on an analyzed routine. The one thing
  to show is that the range ends at least as deep as it reaches down, which is so of every
  instruction (`Tracker.depth_sub_pops_le`).
* `Cursor.Stands.play` — whatever is asked of a cursor, its answers are the elements of the list.
-/

namespace Outliner

/-! ### Fitting stops in front of the start -/

namespace Boundary

variable {b : Boundary} {start stop : Int}

theorem pred_le_limitBy {region : Region} (h : start - 1 ≤ stop) :
    start - 1 ≤ limitBy start region stop := by
  unfold limitBy
  grind

theorem pred_le_tighten (h : start - 1 ≤ stop) : start - 1 ≤ b.tighten start stop := by
  -- each of the four steps shortens the range to nothing at most
  have hregions (regions : List Region) : ∀ stop, start - 1 ≤ stop →
      start - 1 ≤ regions.foldl (fun stop region => limitBy start region stop) stop := by
    induction regions with
    | nil => exact fun _ h => h
    | cons region regions ih => exact fun stop h => ih _ (pred_le_limitBy h)
  have hexits (stop : Int) (h : start - 1 ≤ stop) : start - 1 ≤ b.containExits start stop := by
    unfold containExits
    split
    · next x hx =>
      have := List.find?_some hx
      simp only [Bool.and_eq_true, decide_eq_true_eq] at this
      omega
    · exact h
  have hentries (stop : Int) (h : start - 1 ≤ stop) : start - 1 ≤ b.stopAtEntries start stop := by
    refine le_foldl_min h fun x hx => ?_
    have := (List.mem_filter.1 hx).2
    simp only [Bool.and_eq_true, decide_eq_true_eq] at this
    omega
  have hlast (count : Nat) : start - 1 ≤ b.lastFallThrough start count := by
    induction count with
    | zero => exact Int.le_refl _
    | succ count ih =>
      unfold lastFallThrough
      split <;> omega
  have hbefore := hentries _ (hexits _ (hregions b.regions stop h))
  rw [← respectRegions_eq] at hbefore
  unfold tighten endOnFallThrough
  split
  · exact hlast _
  · exact hbefore

theorem pred_le_fit (h : start - 1 ≤ stop) : start - 1 ≤ b.fit start stop := by
  fun_induction fit b start stop with
  | case1 stop hle next hlt ih => exact ih (pred_le_tighten h)
  | case2 stop hle next hge => exact pred_le_tighten h
  | case3 stop hgt => exact h

theorem fit_of_lt (h : stop < start) : b.fit start stop = stop := by
  rw [fit, if_neg (by omega)]

end Boundary

/-! ### What a survey is to find -/

namespace Flow

/-- The instructions from `start` up to `stop` can be moved, and none of them writes a slot that a
handler protecting them may read. -/
structure Admits (flow : Flow) (start stop : Nat) : Prop where
  movable : Movable flow.routine start stop
  unwatched : ∀ offset, start ≤ offset → offset < stop → Watch.writesWatched flow
    ((Watch.ofFlow flow (Boundary.ofRoutine flow.routine).regions).protecting start) offset = false

/-- The longest such range of at most `maxSize` instructions. -/
structure Longest (flow : Flow) (maxSize : Int) (start stop : Nat) : Prop where
  admits : flow.Admits start stop
  within : (stop : Int) ≤ start + maxSize
  greatest : ∀ stop', flow.Admits start stop' → (stop' : Int) ≤ start + maxSize → stop' ≤ stop

/-- **A candidate**: the cut read off the longest range from a start on, if it is long enough. A
start directly behind a line marker is left out. -/
structure Candidate (flow : Flow) (minSize maxSize : Int) (start : Nat) (c : Cut) : Prop where
  fits : start + max minSize 1 ≤ flow.routine.size
  fresh : ∀ before n, start = before + 1 → flow.routine.code[before]? ≠ some (.line n)
  longest : ∃ stop, flow.Longest maxSize start stop ∧ max minSize 1 ≤ (stop : Int) - start ∧
    ∃ fp, flow.footprint start ((stop : Int) - 1) = .ok fp ∧ Cut.ofFootprint fp = .ok c

/-- **The list of candidates**, in ascending order of start. -/
structure IsListing (flow : Flow) (minSize maxSize : Int) (l : List Cut) : Prop where
  ascending : l.Pairwise fun c d => c.start < d.start
  mem_iff : ∀ c, c ∈ l ↔ ∃ start, flow.Candidate minSize maxSize start c

end Flow

/-! ### An attempt always comes to an end -/

/-- The first write of a watched slot is one, and it lies in the range. -/
theorem Watch.firstWrite?_eq_some {w : Watch} {flow : Flow} {start first : Nat} {stop : Int}
    (h : w.firstWrite? flow start stop = some first) :
    start ≤ first ∧ (first : Int) ≤ stop ∧ writesWatched flow (w.protecting start) first := by
  unfold firstWrite? at h
  split at h
  · cases h
  · have hmem := List.mem_of_find?_eq_some h
    rw [List.mem_range'_1] at hmem
    exact ⟨by omega, by omega, List.find?_some h⟩

theorem Frame.exists_cells? {f : Frame} {start : Nat} (h : start ≤ f.depth) :
    ∃ cells, f.cells? start = some cells :=
  ⟨_, if_pos (by simp; omega)⟩

namespace Survey

variable {h : Hierarchy} {r : Routine} {flow : Flow} {minSize maxSize : Int}

/-- The footprint of a range of an analyzed routine never breaks down. -/
theorem footprint_ne_breakdown (hr : r.Checked) (hflow : Flow.analyze h r = .ok flow)
    {start stop : Nat} (hle : start ≤ stop) (hlt : stop < r.size) :
    flow.footprint start stop ≠ .error .breakdown := by
  obtain ⟨rfl, hsize, -, honward⟩ := Flow.analyze_onward hr hflow
  have hcode (i : Nat) (hi : i < flow.routine.size) : ∃ insn, flow.routine.code[i]? = some insn :=
    ⟨_, Array.getElem?_eq_getElem hi⟩
  have hframe (i : Nat) (hi : i < flow.routine.size) : ∃ f, flow.frame? i = some f :=
    ⟨_, by rw [Flow.frame?_natCast]; exact Array.getElem?_eq_getElem (hsize ▸ hi)⟩
  obtain ⟨insn, hinsn⟩ := hcode start (by omega)
  obtain ⟨before, hbefore⟩ := hframe start (by omega)
  obtain ⟨last, hlast⟩ := hcode stop hlt
  obtain ⟨f, hf⟩ := hframe stop hlt
  unfold Flow.footprint
  rw [hbefore]
  cases before with
  | none =>
    change (Answer.require flow.routine.code[(start : Int).toNat]? >>= fun _ => _) ≠ _
    rw [Int.toNat_natCast, hinsn]
    exact nofun
  | some before =>
  have hafter : flow.frameAfter stop = (f.elim
      (Answer.refuse ⟨stop, last.opcode, .unreachable⟩) fun f =>
        .ok (Tracker.execute flow.routine.owner f last stop).1) := by
    unfold Flow.frameAfter
    rw [Int.toNat_natCast, hlast, hf]
    cases f with
    | none => rfl
    | some f =>
      obtain ⟨insn', after, hinsn', hexec, -⟩ := honward stop f hf
      obtain rfl := Option.some.inj (hlast.symm.trans hinsn')
      dsimp only [Answer.require, bind, Except.bind]
      rw [Option.elim_some, hexec]
      rfl
  change (flow.frameAfter stop >>= fun _ => _) ≠ _
  rw [hafter]
  cases f with
  | none => exact nofun
  | some f =>
  obtain ⟨insn', after, hinsn', hexec, -⟩ := honward stop f hf
  obtain rfl := Option.some.inj (hlast.symm.trans hinsn')
  rw [Option.elim_some, hexec]
  -- the range leaves at least the cells below its lowest depth
  have hnotes := Footprint.notes_tally flow start stop before after
  have hfloor : Footprint.floor flow start stop before after ≤ _ := Footprint.wholeDepth_le _ _
  have hmem : stop ∈ Footprint.offsets start stop := by
    rw [Footprint.offsets, List.mem_range'_1]
    omega
  have hpops := hnotes.minDepth stop hmem f hf
  have hdepth := Tracker.depth_sub_pops_le hexec
  obtain ⟨consumed, hconsumed⟩ := Frame.exists_cells? (Nat.le_trans hfloor hnotes.minDepth_le)
  obtain ⟨produced, hproduced⟩ : ∃ cells,
      after.cells? (Footprint.floor flow start stop before after) = some cells :=
    Frame.exists_cells? (by omega)
  change (Answer.require (before.cells? (Footprint.floor flow start stop before after)) >>=
    fun _ => _) ≠ _
  rw [hconsumed]
  change (Answer.require (after.cells? (Footprint.floor flow start stop before after)) >>=
    fun _ => _) ≠ _
  rw [hproduced]
  exact nofun

/-- Sizes below `2 ^ 62`, which leave room for the sum of two of them in a word. -/
def Roomy (r : Routine) (minSize maxSize : Int) : Prop :=
  (r.size : Int) < 0x4000000000000000 ∧ minSize < 0x4000000000000000 ∧
    -0x4000000000000000 < maxSize ∧ maxSize < 0x4000000000000000

/-- **How far an attempt looks**: not beyond what may be moved, and it gives up right in front of
the start. -/
theorem farthest_between (s : Survey) (start : Nat) :
    s.farthest start ≤ min (Word.wrap (start + s.maxSize - 1)) (s.size - 1) ∧
      min ((start : Int) - 1) (min (Word.wrap (start + s.maxSize - 1)) (s.size - 1)) ≤
        s.farthest start := by
  unfold farthest
  dsimp only
  generalize min (Word.wrap ((start : Int) + s.maxSize - 1)) (s.size - 1) = bound
  have hfit := s.boundary.fit_spec start bound
  have hpred : min ((start : Int) - 1) bound ≤ s.boundary.fit start bound := by
    by_cases h : (start : Int) - 1 ≤ bound
    · have := Boundary.pred_le_fit (b := s.boundary) h
      omega
    · rw [Boundary.fit_of_lt (by omega)]
      omega
  split
  · next w hw =>
    have hfit' := s.boundary.fit_spec start (w - 1)
    have hmem := Watch.firstWrite?_eq_some hw
    have hpred' : (start : Int) - 1 ≤ s.boundary.fit start (w - 1) :=
      Boundary.pred_le_fit (by omega)
    omega
  · omega

/-- The bounds of an attempt of a survey that is made for a data flow. -/
theorem farthest_make (flow : Flow) (minSize maxSize : Int) (start : Nat) :
    (make flow minSize maxSize).farthest start ≤
        min (Word.wrap (start + maxSize - 1)) (flow.routine.size - 1) ∧
      min ((start : Int) - 1) (min (Word.wrap (start + maxSize - 1)) (flow.routine.size - 1)) ≤
        (make flow minSize maxSize).farthest start :=
  farthest_between (make flow minSize maxSize) start

theorem farthest_bounds (hroom : Roomy flow.routine minSize maxSize) {start : Nat}
    (hstart : start ≤ flow.routine.size) :
    (make flow minSize maxSize).farthest start ≤ min (start + maxSize - 1) (flow.routine.size - 1) ∧
      min ((start : Int) - 1) (min (start + maxSize - 1) (flow.routine.size - 1)) ≤
        (make flow minSize maxSize).farthest start := by
  obtain ⟨hsize, -, hlow, hhigh⟩ := hroom
  have hwrap : Word.wrap (start + maxSize - 1) = start + maxSize - 1 :=
    Word.wrap_eq_self (by unfold Word.min; omega) (by unfold Word.max; omega)
  rw [← hwrap]
  exact farthest_make flow minSize maxSize start

/-- The attempt at a start ends at an admissible range, if it is one at all. -/
theorem admits_farthest {start : Nat} (hle : start ≤ (make flow minSize maxSize).farthest start) :
    flow.Admits start ((make flow minSize maxSize).farthest start + 1).toNat := by
  obtain ⟨hlast, hfixed, hwatch⟩ := farthest_spec (make flow minSize maxSize) start
  have hsz : (make flow minSize maxSize).size = flow.routine.size := rfl
  generalize (make flow minSize maxSize).farthest start = stop at *
  obtain ⟨n, rfl⟩ : ∃ n : Nat, stop = n := ⟨stop.toNat, by omega⟩
  have hsucc : ((n : Int) + 1).toNat = n + 1 := by omega
  rw [hsucc]
  exact ⟨(Boundary.fixed_of_tighten_eq hle (hfixed hle)).movable (by omega) (by omega),
    fun offset hlow hhigh => hwatch offset hlow (by omega)⟩

/-- No admissible range goes farther. -/
theorem le_farthest (hroom : Roomy flow.routine minSize maxSize) {start stop : Nat}
    (hadmits : flow.Admits start stop) (hwithin : (stop : Int) ≤ start + maxSize) :
    (stop : Int) - 1 ≤ (make flow minSize maxSize).farthest start := by
  obtain ⟨hsize, -, hlow, hhigh⟩ := hroom
  have hlt := hadmits.movable.lt
  have hle := hadmits.movable.le_size
  have hfixed := hadmits.movable.fixed
  rw [Int.ofNat_sub (by omega)] at hfixed
  have hwrap : Word.wrap (start + maxSize - 1) = start + maxSize - 1 :=
    Word.wrap_eq_self (by unfold Word.min; omega) (by unfold Word.max; omega)
  have hsz : (make flow minSize maxSize).size = flow.routine.size := rfl
  have hmaxSize : (make flow minSize maxSize).maxSize = maxSize := rfl
  unfold farthest
  dsimp only
  rw [hsz, hmaxSize, hwrap]
  split
  · next w hw =>
    -- the range ends before the first write
    refine Boundary.le_fit hfixed (by omega) (Int.le_sub_one_of_lt (Int.lt_of_not_ge fun hge => ?_))
    obtain ⟨hstart, -, hwrites⟩ := Watch.firstWrite?_eq_some hw
    exact Bool.false_ne_true ((hadmits.unwatched w (by omega) (by omega)).symm.trans hwrites)
  · exact Boundary.le_fit hfixed (by omega) (by omega)

theorem followsLine_iff {s : Survey} {start : Nat} :
    s.followsLine start ↔
      ∃ before n, start = before + 1 ∧ s.flow.routine.code[before]? = some (.line n) := by
  cases start with
  | zero => exact ⟨nofun, nofun⟩
  | succ before =>
    unfold followsLine
    dsimp only
    constructor
    · intro h
      split at h
      · next n hline => exact ⟨before, n, rfl, hline⟩
      · cases h
    · rintro ⟨before', n, hbefore, hline⟩
      obtain rfl := Nat.succ.inj hbefore
      rw [hline]

/-- **An attempt always answers**, and it finds the candidate of its start, if there is one. -/
theorem exists_attempt (ε : Type) (hr : r.Checked) (hflow : Flow.analyze h r = .ok flow)
    (hroom : Roomy flow.routine minSize maxSize) {start : Nat}
    (hstart : start ≤ flow.routine.size) :
    ∃ a, ((make flow minSize maxSize).attemptAt start : Answer ε Attempt) = .ok a ∧
      ∀ c, a.cut? = some c ↔ flow.Candidate minSize maxSize start c := by
  obtain ⟨rfl, -⟩ := Flow.analyze_onward hr hflow
  obtain ⟨hhigh, hlow⟩ := farthest_bounds hroom hstart
  have hadmits := @admits_farthest flow minSize maxSize start
  have hgreatest := @le_farthest flow minSize maxSize hroom start
  have hminSize : (make flow minSize maxSize).minSize = max minSize 1 := rfl
  unfold attemptAt
  split
  · next hline =>
    obtain ⟨before, n, hstart', hbefore⟩ := followsLine_iff.1 hline
    exact ⟨_, rfl, fun c => ⟨nofun, fun hc => absurd hbefore (hc.fresh before n hstart')⟩⟩
  next hline =>
  dsimp only
  -- the end is a word from here on: nothing wraps with such bounds
  generalize (make flow minSize maxSize).farthest start = stop at *
  obtain ⟨hsize, hmin, hmaxLow, hmaxHigh⟩ := hroom
  have hwrap : Word.wrap (stop - start + 1) = stop - start + 1 :=
    Word.wrap_eq_self (by unfold Word.min; omega) (by unfold Word.max; omega)
  rw [hwrap, hminSize]
  split
  · next hshort =>
    refine ⟨_, rfl, fun c => ⟨nofun, fun hc => ?_⟩⟩
    -- a longer range would have been found
    obtain ⟨stop', hlongest, hlength, -⟩ := hc.longest
    have := hgreatest hlongest.admits hlongest.within
    omega
  next hlong =>
  obtain ⟨n, rfl⟩ : ∃ n : Nat, stop = n := ⟨stop.toNat, by omega⟩
  have hsucc : ((n : Int) + 1).toNat = n + 1 := by omega
  rw [hsucc] at hadmits
  have hlongest : flow.Longest maxSize start (n + 1) :=
    ⟨hadmits (by omega), by omega, fun stop' h₁ h₂ => by have := hgreatest h₁ h₂; omega⟩
  -- so the range that is tried is the one the definition speaks of
  have hunique {stop' : Nat} (h' : flow.Longest maxSize start stop') : stop' = n + 1 := by
    have h₁ := hlongest.greatest stop' h'.admits h'.within
    have h₂ := h'.greatest (n + 1) hlongest.admits hlongest.within
    omega
  have hpred : ((n + 1 : Nat) : Int) - 1 = n := by omega
  have hcandidate {c : Cut} (hc : flow.Candidate minSize maxSize start c) :
      ∃ fp, flow.footprint start n = .ok fp ∧ Cut.ofFootprint fp = .ok c := by
    obtain ⟨stop', hlongest', -, hfp⟩ := hc.longest
    obtain rfl := hunique hlongest'
    rwa [hpred] at hfp
  -- a breakdown could only be one of the footprint
  have hbreak : flow.footprint start n ≠ .error .breakdown :=
    footprint_ne_breakdown hr hflow (by omega) (by omega)
  change ∃ a, _ ∧ _
  split
  · next hfp => exact absurd hfp hbreak
  · next e hfp =>
    refine ⟨_, rfl, fun c => ⟨nofun, fun hc => ?_⟩⟩
    obtain ⟨fp, hfp', -⟩ := hcandidate hc
    rw [show flow.footprint start n = _ from hfp] at hfp'
    cases hfp'
  · next fp hfp =>
    split
    · next fault hcut =>
      refine ⟨_, rfl, fun c => ⟨nofun, fun hc => ?_⟩⟩
      obtain ⟨fp', hfp', hcut'⟩ := hcandidate hc
      obtain rfl := Except.ok.inj (hfp.symm.trans hfp')
      rw [hcut] at hcut'
      cases hcut'
    · next cut hcut =>
      refine ⟨_, rfl, fun c => ⟨fun hc => ?_, fun hc => ?_⟩⟩
      · obtain rfl := Option.some.inj hc
        refine ⟨by omega, fun before m hstart' hbefore => hline ?_, n + 1, hlongest, by omega, fp,
          ?_, hcut⟩
        · exact followsLine_iff.2 ⟨before, m, hstart', hbefore⟩
        · rw [hpred]
          exact hfp
      · obtain ⟨fp', hfp', hcut'⟩ := hcandidate hc
        obtain rfl := Except.ok.inj (hfp.symm.trans hfp')
        exact congrArg some (Except.ok.inj (hcut.symm.trans hcut'))

/-! ### The list -/

/-- What a survey finds from a start on. -/
def cutAt (s : Survey) (start : Nat) : Option Cut :=
  (s.attemptAt start : Answer Empty Attempt).toOption.bind Attempt.cut?

/-- The cuts from a start on. -/
def upcoming (s : Survey) (start : Nat) : List Cut :=
  (List.range' start (s.size + 1 - s.minSize.toNat - start)).filterMap s.cutAt

/-- A survey with which nothing goes wrong: an attempt answers at every start that is tried, and
sums stay words. -/
structure Steady (s : Survey) : Prop where
  answers : ∀ (ε : Type) (start : Nat), start + s.minSize ≤ s.size →
    ∃ a, (s.attemptAt start : Answer ε Attempt) = .ok a ∧ a.cut? = s.cutAt start
  minSize : 1 ≤ s.minSize
  room : s.size + 1 + s.minSize ≤ Word.max

theorem upcoming_of_le {s : Survey} {start : Nat} (hs : s.Steady) (h : start + s.minSize ≤ s.size) :
    s.upcoming start = (s.cutAt start).toList ++ s.upcoming (start + 1) := by
  have hmin := hs.minSize
  obtain ⟨n, hn⟩ : ∃ n, s.size + 1 - s.minSize.toNat - start = n + 1 :=
    ⟨s.size - s.minSize.toNat - start, by omega⟩
  have hn' : s.size + 1 - s.minSize.toNat - (start + 1) = n := by omega
  unfold upcoming
  rw [hn, hn', List.range'_succ]
  cases hcut : s.cutAt start with
  | none => rw [List.filterMap_cons_none hcut]; rfl
  | some c => rw [List.filterMap_cons_some hcut]; rfl

theorem upcoming_of_lt {s : Survey} {start : Nat} (h : s.size < start + s.minSize) :
    s.upcoming start = [] := by
  have hnone : s.size + 1 - s.minSize.toNat - start = 0 := by omega
  rw [upcoming, hnone]
  rfl

theorem cutAt_of_attempt {ε : Type} {s : Survey} {start : Nat} {a : Attempt}
    (h : (s.attemptAt start : Answer ε Attempt) = .ok a) : a.cut? = s.cutAt start := by
  have hempty : (s.attemptAt start : Answer Empty Attempt) = .ok a := attemptAt_eq_ok h
  rw [cutAt, hempty]
  rfl

theorem steady_make (hr : r.Checked) (hflow : Flow.analyze h r = .ok flow)
    (hroom : Roomy flow.routine minSize maxSize) : (make flow minSize maxSize).Steady := by
  have hsz : (make flow minSize maxSize).size = flow.routine.size := rfl
  have hminSize : (make flow minSize maxSize).minSize = max minSize 1 := rfl
  refine ⟨fun ε start hstart => ?_, Int.le_max_right _ _, ?_⟩
  · have hle : start ≤ flow.routine.size := by omega
    obtain ⟨a, ha, -⟩ := exists_attempt ε hr hflow hroom hle
    exact ⟨a, ha, cutAt_of_attempt ha⟩
  · obtain ⟨hsize, hmin, -⟩ := hroom
    unfold Word.max
    omega

theorem cutAt_eq_some_iff (hr : r.Checked) (hflow : Flow.analyze h r = .ok flow)
    (hroom : Roomy flow.routine minSize maxSize) {start : Nat} (hstart : start ≤ flow.routine.size)
    {c : Cut} : (make flow minSize maxSize).cutAt start = some c ↔
      flow.Candidate minSize maxSize start c := by
  obtain ⟨a, ha, hcut⟩ := exists_attempt Empty hr hflow hroom hstart
  rw [cutAt, ha]
  exact hcut c

end Survey

namespace Flow

variable {flow : Flow} {minSize maxSize : Int} {start : Nat} {c : Cut}

/-- The range of a candidate. -/
theorem Candidate.range (hc : flow.Candidate minSize maxSize start c) :
    c.start = start ∧ max minSize 1 ≤ c.length ∧ c.length ≤ maxSize ∧
      c.start + c.length ≤ flow.routine.size := by
  obtain ⟨stop, hlongest, hlength, fp, hfp, hcut⟩ := hc.longest
  obtain ⟨_, _, _, _, -, -, -, -, hfields⟩ := footprint_eq_ok hfp
  obtain ⟨-, rfl⟩ := Cut.ofFootprint_eq_ok hcut
  have hwithin := hlongest.within
  have hsize := hlongest.admits.movable.le_size
  rw [hfields]
  exact ⟨rfl, by dsimp only; omega, by dsimp only; omega, by dsimp only; omega⟩

/-- The range of a candidate can be moved. -/
theorem Candidate.chosen (hc : flow.Candidate minSize maxSize start c) :
    ∃ stop, Chosen flow c start stop := by
  obtain ⟨stop, hlongest, -, fp, hfp, hcut⟩ := hc.longest
  obtain ⟨_, _, _, _, -, -, -, -, hfields⟩ := footprint_eq_ok hfp
  refine ⟨stop, ?_, ?_, hlongest.admits.movable, ⟨fp, hfp, hcut⟩, hlongest.admits.unwatched⟩
  · obtain ⟨-, rfl⟩ := Cut.ofFootprint_eq_ok hcut
    rw [hfields]
  · obtain ⟨-, rfl⟩ := Cut.ofFootprint_eq_ok hcut
    rw [hfields]
    dsimp only
    omega

end Flow

/-- **What a survey of an analyzed routine finds is the list of candidates.** -/
theorem Survey.isListing_upcoming {h : Hierarchy} {r : Routine} {flow : Flow}
    {minSize maxSize : Int} (hr : r.Checked) (hflow : Flow.analyze h r = .ok flow)
    (hroom : Roomy flow.routine minSize maxSize) :
    flow.IsListing minSize maxSize ((make flow minSize maxSize).upcoming 0) := by
  have hsz : (make flow minSize maxSize).size = flow.routine.size := rfl
  have hminSize : (make flow minSize maxSize).minSize = max minSize 1 := rfl
  have hmem (start : Nat) : start ∈ List.range' 0 ((make flow minSize maxSize).size + 1 -
      (make flow minSize maxSize).minSize.toNat - 0) ↔
      start + max minSize 1 ≤ flow.routine.size := by
    rw [List.mem_range'_1, hsz, hminSize]
    omega
  have hcut {start : Nat} (hstart : start + max minSize 1 ≤ flow.routine.size) (c : Cut) :
      (make flow minSize maxSize).cutAt start = some c ↔ flow.Candidate minSize maxSize start c :=
    cutAt_eq_some_iff hr hflow hroom (by omega)
  constructor
  · rw [upcoming, List.pairwise_filterMap]
    refine List.Pairwise.imp_of_mem (fun {i j} hi hj hlt c hc d hd => ?_) List.pairwise_lt_range'
    rw [((hcut ((hmem i).1 hi) c).1 hc).range.1, ((hcut ((hmem j).1 hj) d).1 hd).range.1]
    omega
  · intro c
    rw [upcoming, List.mem_filterMap]
    constructor
    · rintro ⟨start, hstart, hc⟩
      exact ⟨start, (hcut ((hmem start).1 hstart) c).1 hc⟩
    · rintro ⟨start, hc⟩
      exact ⟨start, (hmem start).2 hc.fits, (hcut hc.fits c).2 hc⟩

/-! ### The cursor -/

/-- What can be asked of a cursor. -/
inductive Move where
  | peek
  | next
  | reset
  deriving DecidableEq, Repr

/-- The answers of someone who reads a list from the `k`-th element on. -/
def Move.answers (l : List Cut) : (k : Nat) → List Move → List (Option Cut)
  | _, [] => []
  | k, peek :: moves => l[k]? :: answers l k moves
  | k, next :: moves => l[k]? :: answers l (k + 1) moves
  | _, reset :: moves => answers l 0 moves

namespace Cursor

variable {ε : Type} {s : Survey}

/-- **The answers of a cursor** to what it is asked, one after the other. -/
def play (s : Survey) (c : Cursor) : List Move → Answer ε (List (Option Cut))
  | [] => .ok []
  | .peek :: moves => do
    let (next, c) ← (c.peek s).2
    return next :: (← play s c moves)
  | .next :: moves => do
    let (next, c) ← (c.next s).2
    return next :: (← play s c moves)
  | .reset :: moves => play s atStart moves

/-- A cursor with the given cuts still to come: it stands before a start it has not tried, or it has
looked ahead to the first of them. -/
inductive Stands (s : Survey) : Cursor → List Cut → Prop where
  | fresh (start : Nat) (le : start ≤ s.size + 1) :
    Stands s ⟨(start : Int) - 1, none⟩ (s.upcoming start)
  | ahead (position : Nat) (rest : List Cut) (le : position ≤ s.size)
    (tail : s.upcoming (position + 1) = rest.tail) : Stands s ⟨position, some rest.head?⟩ rest

/-- **A search stops at the first cut to come.** -/
theorem advance_eq (ε : Type) (hs : s.Steady) {start : Nat} (hstart : start ≤ s.size + 1)
    (notes : Array Note) :
    ∃ (notes' : Array Note) (position : Nat), position ≤ s.size ∧
      (advance s notes start : Array Note × Answer ε (Int × Option Cut)) =
        (notes', .ok (position, (s.upcoming start).head?)) ∧
      s.upcoming (position + 1) = (s.upcoming start).tail := by
  have hmin := hs.minSize
  have hroom := hs.room
  -- on the number of starts that are left
  induction hn : s.size + 1 - start generalizing start notes with
  | zero =>
    have hnone : s.upcoming start = [] := Survey.upcoming_of_lt (by omega)
    refine ⟨notes, s.size, Nat.le_refl _, ?_, ?_⟩
    · rw [advance, Word.wrap_eq_self (by unfold Word.min; omega) (by omega), if_neg (by omega),
        hnone]
      rfl
    · rw [hnone, Survey.upcoming_of_lt (by omega)]
      rfl
  | succ n ih =>
    rw [advance, Word.wrap_eq_self (by unfold Word.min; omega) (by omega)]
    by_cases hfits : (start : Int) + s.minSize ≤ s.size
    · rw [if_pos hfits, if_neg (by omega), Int.toNat_natCast, Survey.upcoming_of_le hs hfits]
      obtain ⟨a, ha, hcut⟩ := hs.answers ε start hfits
      have hnext := @ih (start + 1) (by omega)
      rw [ha, ← hcut]
      cases a with
      | tooShort => exact hnext notes (by omega)
      | skipped reason stop => exact hnext _ (by omega)
      | found cut => exact ⟨notes, start, by omega, rfl, rfl⟩
    · have hnone : s.upcoming start = [] := Survey.upcoming_of_lt (by omega)
      refine ⟨notes, s.size, Nat.le_refl _, ?_, ?_⟩
      · rw [if_neg hfits, hnone]
        rfl
      · rw [hnone, Survey.upcoming_of_lt (by omega)]
        rfl

/-- Looking at the next cut gives the first of those to come, and does not pass it. -/
theorem Stands.peek (ε : Type) {c : Cursor} {rest : List Cut} (hs : s.Steady)
    (hc : Stands s c rest) :
    ∃ c' : Cursor,
      (c.peek s : Array Note × Answer ε (Option Cut × Cursor)).2 = .ok (rest.head?, c') ∧
      c'.peeked = some rest.head? ∧ Stands s c' rest := by
  cases hc with
  | ahead position rest le tail => exact ⟨_, rfl, rfl, .ahead position rest le tail⟩
  | fresh start le =>
    obtain ⟨notes, position, hle, hadvance, htail⟩ := advance_eq ε hs le #[]
    refine ⟨⟨position, some (s.upcoming start).head?⟩, ?_, rfl, .ahead position _ hle htail⟩
    unfold Cursor.peek
    dsimp only
    rw [Int.sub_add_cancel, hadvance]

/-- Passing the next cut gives the first of those to come and leaves the others. -/
theorem Stands.next (ε : Type) {c : Cursor} {rest : List Cut} (hs : s.Steady)
    (hc : Stands s c rest) :
    ∃ c' : Cursor,
      (c.next s : Array Note × Answer ε (Option Cut × Cursor)).2 = .ok (rest.head?, c') ∧
      Stands s c' rest.tail := by
  obtain ⟨c', hpeek, hpeeked, hc'⟩ := hc.peek ε hs
  unfold Cursor.next
  generalize c.peek s = answer at hpeek
  obtain ⟨notes, result⟩ := answer
  obtain rfl : result = _ := hpeek
  refine ⟨{ c' with peeked := none }, rfl, ?_⟩
  cases hc' with
  | fresh start le => cases hpeeked
  | ahead position rest le tail =>
    have hfresh := Stands.fresh (s := s) (position + 1) (by omega)
    rwa [Int.natCast_add, Int.natCast_one, Int.add_sub_cancel, tail] at hfresh

theorem stands_atStart : Stands s atStart (s.upcoming 0) :=
  .fresh 0 (Nat.zero_le _)

/-- Whatever is asked of a cursor, it answers from the list. -/
theorem Stands.play {c : Cursor} {k : Nat} (hs : s.Steady) (moves : List Move)
    (hc : Stands s c ((s.upcoming 0).drop k)) :
    (c.play s moves : Answer ε (List (Option Cut))) =
      .ok (Move.answers (s.upcoming 0) k moves) := by
  induction moves generalizing c k with
  | nil => rfl
  | cons move moves ih =>
    cases move with
    | peek =>
      obtain ⟨c', hpeek, -, hc'⟩ := hc.peek ε hs
      rw [Cursor.play, hpeek, List.head?_drop]
      change (Cursor.play s c' moves >>= fun _ => _) = _
      rw [ih hc']
      rfl
    | next =>
      obtain ⟨c', hnext, hc'⟩ := hc.next ε hs
      rw [List.tail_drop] at hc'
      rw [Cursor.play, hnext, List.head?_drop]
      change (Cursor.play s c' moves >>= fun _ => _) = _
      rw [ih hc']
      rfl
    | reset => exact ih (k := 0) stands_atStart

end Cursor

end Outliner
