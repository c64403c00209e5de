import Outliner.Proofs.Enumeration
import Outliner.Proofs.Trimming

/-!
# The cut that is chosen

A search for the cut to split at goes through the candidates once, keeps the longest so far, and
stops early at one that is long enough. The test for that stands behind the test for an improvement,
so a candidate that is long enough but no improvement would be passed over. There is none: as long
as the search goes on, the longest so far is not long enough.

* `Survey.select_eq` — a survey with which nothing goes wrong makes its choice among its candidates.
* `Survey.chooseFrom_eq_some_iff` — the choice in terms of the list alone (`Survey.Picks`): the
  first cut that is long enough, or else the longest, the earliest among equals.
* `Outline.find_picks` — so splitting within bounds splits there.
-/

namespace Outliner

namespace Survey

/-- The choice among cuts, when `best` is the longest so far. -/
def chooseFrom (firstAtLeast : Int) (best : Option Cut) : List Cut → Option Cut
  | [] => best
  | cut :: rest =>
    if improves cut best then
      if 0 < firstAtLeast ∧ firstAtLeast ≤ cut.length then some cut
      else chooseFrom firstAtLeast (some cut) rest
    else chooseFrom firstAtLeast best rest

/-- **A search is a choice among what the survey finds.** -/
theorem selectFrom_eq (ε : Type) {s : Survey} (hs : s.Steady) (firstAtLeast : Int)
    {starts : List Nat} (hstarts : ∀ start ∈ starts, start + s.minSize ≤ s.size)
    (notes : Array Note) (best : Option Cut) :
    (s.selectFrom firstAtLeast notes best starts : Array Note × Answer ε (Option Cut)).2 =
      .ok (chooseFrom firstAtLeast best (starts.filterMap s.cutAt)) := by
  induction starts generalizing notes best with
  | nil => rfl
  | cons start rest ih =>
    have hrest := ih fun start h => hstarts start (List.mem_cons_of_mem _ h)
    -- with steady answers, a start is tried with the same result as in the listing
    obtain ⟨a, ha, hcut⟩ := hs.answers ε start (hstarts start List.mem_cons_self)
    rw [selectFrom, ha]
    cases a with
    | tooShort =>
      rw [List.filterMap_cons_none hcut.symm]
      exact hrest notes best
    | skipped reason stop =>
      rw [List.filterMap_cons_none hcut.symm]
      exact hrest _ best
    | found cut =>
      rw [List.filterMap_cons_some hcut.symm, chooseFrom]
      dsimp only
      simp only [Bool.and_eq_true, decide_eq_true_eq]
      -- the test for an early end is made only when the candidate is the best so far
      split
      · split
        · rfl
        · exact hrest _ _
      · exact hrest _ _

theorem select_eq (ε : Type) {s : Survey} (hs : s.Steady) (firstAtLeast : Int) :
    (s.select firstAtLeast : Array Note × Answer ε (Option Cut)).2 =
      .ok (chooseFrom firstAtLeast none (s.upcoming 0)) := by
  have hmin := hs.minSize
  rw [select, selectFrom_eq ε hs firstAtLeast fun start h => ?_, upcoming, starts, Nat.sub_zero,
    List.range_eq_range']
  have := List.mem_range.1 h
  omega

/-! ### The choice in terms of the list -/

/-- The longest cut of a list, the first one among equals. -/
def Leads (c : Cut) (l : List Cut) : Prop :=
  ∃ before after, l = before ++ c :: after ∧ (∀ d ∈ before, d.length < c.length) ∧
    ∀ d ∈ after, d.length ≤ c.length

/-- As long as no cut is long enough, a search comes to the longest one. -/
theorem leads_chooseFrom {firstAtLeast : Int} {best : Option Cut} {l : List Cut}
    (hshort : 0 < firstAtLeast → ∀ c ∈ l, c.length < firstAtLeast) :
    ∀ c, chooseFrom firstAtLeast best l = some c → Leads c (best.toList ++ l) := by
  induction l generalizing best with
  | nil =>
    rintro c rfl
    exact ⟨[], [], rfl, nofun, nofun⟩
  | cons cut rest ih =>
    intro c hc
    have hrest : 0 < firstAtLeast → ∀ c ∈ rest, c.length < firstAtLeast :=
      fun h c hmem => hshort h c (List.mem_cons_of_mem _ hmem)
    rw [chooseFrom] at hc
    split at hc
    · next himproves =>
      -- the search goes on with this cut, because it is not long enough to stop at
      rw [if_neg fun h => Int.not_lt.2 h.2 (hshort h.1 cut List.mem_cons_self)] at hc
      obtain ⟨before, after, hl, hbefore, hafter⟩ := ih hrest c hc
      cases best with
      | none => exact ⟨before, after, hl, hbefore, hafter⟩
      | some b =>
        -- the one replaced is shorter than the one that replaces it
        have hlt : b.length < cut.length := of_decide_eq_true himproves
        cases before with
        | nil =>
          obtain ⟨rfl, rfl⟩ := List.cons.inj hl
          exact ⟨[b], _, rfl, List.forall_mem_singleton.2 hlt, hafter⟩
        | cons first before =>
          obtain ⟨rfl, rfl⟩ := List.cons.inj hl
          have hfirst := hbefore cut List.mem_cons_self
          exact ⟨b :: cut :: before, after, rfl, List.forall_mem_cons.2 ⟨by omega, hbefore⟩, hafter⟩
    · next himproves =>
      obtain ⟨before, after, hl, hbefore, hafter⟩ := ih hrest c hc
      cases best with
      | none => exact absurd rfl himproves
      | some b =>
        have hle : cut.length ≤ b.length := Int.not_lt.1 fun h => himproves (decide_eq_true h)
        -- the one passed over stands directly behind the best so far
        cases before with
        | nil =>
          obtain ⟨rfl, rfl⟩ := List.cons.inj hl
          exact ⟨[], _, rfl, nofun, List.forall_mem_cons.2 ⟨hle, hafter⟩⟩
        | cons first before =>
          obtain ⟨rfl, rfl⟩ := List.cons.inj hl
          obtain ⟨hfirst, hbefore⟩ := List.forall_mem_cons.1 hbefore
          exact ⟨b :: cut :: before, after, rfl,
            List.forall_mem_cons.2 ⟨hfirst, List.forall_mem_cons.2 ⟨by omega, hbefore⟩⟩, hafter⟩

/-- **A search stops at the first cut that is long enough**, because until then the longest so far
is not. -/
theorem chooseFrom_of_find? {firstAtLeast : Int} (hpos : 0 < firstAtLeast) {best : Option Cut}
    (hbest : ∀ b, best = some b → b.length < firstAtLeast) {l : List Cut} {c : Cut}
    (hc : l.find? (fun c => decide (firstAtLeast ≤ c.length)) = some c) :
    chooseFrom firstAtLeast best l = some c := by
  induction l generalizing best with
  | nil => cases hc
  | cons cut rest ih =>
    rw [chooseFrom]
    by_cases hlong : firstAtLeast ≤ cut.length
    · rw [List.find?_cons_of_pos (by simpa using hlong)] at hc
      have himproves : improves cut best := by
        cases best with
        | none => rfl
        | some b =>
          have := hbest b rfl
          exact decide_eq_true (by omega)
      rw [if_pos himproves, if_pos ⟨hpos, hlong⟩, hc]
    · rw [List.find?_cons_of_neg (by simpa using hlong)] at hc
      split
      · rw [if_neg fun h => hlong h.2]
        refine ih (fun b hb => ?_) hc
        obtain rfl := Option.some.inj hb
        exact Int.not_le.1 hlong
      · exact ih hbest hc

theorem chooseFrom_eq_none_iff {firstAtLeast : Int} {best : Option Cut} {l : List Cut} :
    chooseFrom firstAtLeast best l = none ↔ best = none ∧ l = [] := by
  induction l generalizing best with
  | nil => exact (and_iff_left rfl).symm
  | cons cut rest ih =>
    rw [chooseFrom]
    refine ⟨fun h => ?_, fun h => absurd h.2 (List.cons_ne_nil _ _)⟩
    split at h
    · split at h
      · cases h
      · cases (ih.1 h).1
    · next himproves =>
      obtain ⟨rfl, -⟩ := ih.1 h
      exact absurd rfl himproves

/-- **The cut to choose from candidates**: the first one that is long enough, if that is asked for
and there is one, or else the longest, and the one with the smallest start among equals. -/
def Picks (firstAtLeast : Int) (l : List Cut) (c : Cut) : Prop :=
  if 0 < firstAtLeast ∧ ∃ d ∈ l, firstAtLeast ≤ d.length then
    l.find? (fun d => decide (firstAtLeast ≤ d.length)) = some c
  else c ∈ l ∧ ∀ d ∈ l, d.length ≤ c.length ∧ (d.length = c.length → c.start ≤ d.start)

/-- The longest cut of a list in ascending order of start is the one with the smallest start among
equals. -/
theorem Leads.picks {c : Cut} {l : List Cut} (h : Leads c l)
    (hl : l.Pairwise fun c d => c.start < d.start) :
    c ∈ l ∧ ∀ d ∈ l, d.length ≤ c.length ∧ (d.length = c.length → c.start ≤ d.start) := by
  obtain ⟨before, after, rfl, hbefore, hafter⟩ := h
  refine ⟨List.mem_append_right _ List.mem_cons_self, fun d hd => ?_⟩
  have hcons := List.pairwise_cons.1 (List.pairwise_append.1 hl).2.1
  rcases List.mem_append.1 hd with hd | hd
  · have := hbefore d hd
    exact ⟨by omega, fun h => by omega⟩
  · rcases List.mem_cons.1 hd with rfl | hd
    · exact ⟨Int.le_refl _, fun _ => Int.le_refl _⟩
    · exact ⟨hafter d hd, fun _ => Int.le_of_lt (hcons.1 d hd)⟩

/-- What is chosen is one of the candidates. -/
theorem Picks.mem {firstAtLeast : Int} {l : List Cut} {c : Cut} (h : Picks firstAtLeast l c) :
    c ∈ l := by
  unfold Picks at h
  split at h
  · exact List.mem_of_find?_eq_some h
  · exact h.1

/-- Only one cut can be chosen. -/
theorem Picks.unique {firstAtLeast : Int} {l : List Cut}
    (hl : l.Pairwise fun c d => c.start < d.start) {c d : Cut} (hc : Picks firstAtLeast l c)
    (hd : Picks firstAtLeast l d) : c = d := by
  unfold Picks at hc hd
  split at hc
  · next h =>
    rw [if_pos h] at hd
    exact Option.some.inj (hc.symm.trans hd)
  · next h =>
    rw [if_neg h] at hd
    obtain ⟨hcd, hcd'⟩ := hc.2 d hd.1
    obtain ⟨hdc, hdc'⟩ := hd.2 c hc.1
    have hstart : c.start = d.start := by omega
    -- cuts of the list with one start are one cut
    have heq : l.Pairwise fun c d => c.start = d.start → c = d :=
      hl.imp fun hlt heq => absurd heq (Int.ne_of_lt hlt)
    have heq' : l.Pairwise fun c d => d.start = c.start → d = c :=
      hl.imp fun hlt heq => absurd heq (Int.ne_of_gt hlt)
    exact heq.forall_of_forall_of_flip (fun _ _ _ => rfl) heq' hc.1 hd.1 hstart

theorem picks_of_chooseFrom {firstAtLeast : Int} {l : List Cut}
    (hl : l.Pairwise fun c d => c.start < d.start) {c : Cut}
    (h : chooseFrom firstAtLeast none l = some c) : Picks firstAtLeast l c := by
  unfold Picks
  split
  · next hlong =>
    obtain ⟨hpos, d, hd, hle⟩ := hlong
    obtain ⟨e, he⟩ : ∃ e, l.find? (fun d => decide (firstAtLeast ≤ d.length)) = some e :=
      Option.isSome_iff_exists.1 (List.find?_isSome.2 ⟨d, hd, decide_eq_true hle⟩)
    rwa [chooseFrom_of_find? hpos (fun _ h => by cases h) he, ← he] at h
  · next hshort =>
    refine (leads_chooseFrom (fun hpos d hd => ?_) c h).picks hl
    exact Int.not_le.1 fun hle => hshort ⟨hpos, d, hd, hle⟩

/-- **What a search chooses.** -/
theorem chooseFrom_eq_some_iff {firstAtLeast : Int} {l : List Cut}
    (hl : l.Pairwise fun c d => c.start < d.start) {c : Cut} :
    chooseFrom firstAtLeast none l = some c ↔ Picks firstAtLeast l c := by
  refine ⟨picks_of_chooseFrom hl, fun hc => ?_⟩
  -- something is chosen, and it can only be this cut
  obtain ⟨d, hd⟩ : ∃ d, chooseFrom firstAtLeast none l = some d := by
    refine Option.ne_none_iff_exists'.1 fun hnone => ?_
    obtain ⟨-, rfl⟩ := chooseFrom_eq_none_iff.1 hnone
    unfold Picks at hc
    split at hc
    · cases hc
    · cases hc.1
  rw [hd, (picks_of_chooseFrom hl hd).unique hl hc]

end Survey

namespace Outline

variable {o : Outline} {r : Routine} {minSize maxSize firstAtLeast : Int}

/-- What is found is what a survey chooses. -/
theorem find_eq {s : Survey} (hs : o.survey r minSize maxSize = .ok s) {best : Option Cut}
    (hbest : (s.select firstAtLeast : Array Note × Answer OutlineError (Option Cut)).2 = .ok best) :
    (o.find r minSize maxSize firstAtLeast).2 = best.elim (Answer.refuse (.noCut r.key)) .ok := by
  unfold find
  rw [hs]
  dsimp only
  generalize s.select firstAtLeast = answer at hbest
  obtain ⟨notes, result⟩ := answer
  obtain rfl : result = _ := hbest
  cases best <;> rfl

theorem splitWithin_eq : (o.splitWithin r minSize maxSize firstAtLeast).2 =
    ((o.find r minSize maxSize firstAtLeast).2 >>= o.apply r) := by
  unfold splitWithin
  generalize o.find r minSize maxSize firstAtLeast = answer
  obtain ⟨notes, stop | cut⟩ := answer
  · rfl
  · change (o.splitAt r cut).2 = o.apply r cut
    unfold splitAt
    cases o.apply r cut <;> rfl

/-- Halves within bounds are those of the cut that is found within them. -/
theorem exists_find_of_splitWithin {p : Parted}
    (h : (o.splitWithin r minSize maxSize firstAtLeast).2 = .ok p) :
    ∃ c, (o.find r minSize maxSize firstAtLeast).2 = .ok c ∧ o.apply r c = .ok p := by
  rw [splitWithin_eq] at h
  cases hc : (o.find r minSize maxSize firstAtLeast).2 with
  | error stop =>
    rw [hc] at h
    cases h
  | ok c =>
    rw [hc] at h
    exact ⟨c, rfl, h⟩

/-- **Selection is optimal and stable.** A cursor over the survey of an analyzed routine reads a
list of candidates. No cut is found exactly if the list is empty, and the cut found is the one to
pick from the list: the first that is long enough if there is one, or else the longest, the one with
the smallest start among equals. Splitting within the same bounds splits at that cut: whatever
halves it gives, the cut between them is the one to pick, the extracted routine holds its range, and
a call stands in its place in the trimmed one. It does give halves if the routine is canonical and
the values that the cut takes have descriptors. -/
theorem find_picks (o : Outline) (ε : Type) {r : Routine} (hr : r.Made) {flow : Flow}
    (hflow : Flow.analyze o.hierarchy r = .ok flow) {minSize maxSize : Int}
    (hroom : Survey.Roomy r minSize maxSize) (firstAtLeast : Int) :
    ∃ s l, o.survey r minSize maxSize = .ok s ∧ flow.IsListing minSize maxSize l ∧
      (∀ moves, (Cursor.atStart.play s moves : Answer ε (List (Option Cut))) =
        .ok (Move.answers l 0 moves)) ∧
      ((o.find r minSize maxSize firstAtLeast).2 = Answer.refuse (.noCut r.key) ↔ l = []) ∧
      (∀ c, (o.find r minSize maxSize firstAtLeast).2 = .ok c ↔ Survey.Picks firstAtLeast l c) ∧
      (o.splitWithin r minSize maxSize firstAtLeast).2 =
        ((o.find r minSize maxSize firstAtLeast).2 >>= o.apply r) ∧
      (∀ p, (o.splitWithin r minSize maxSize firstAtLeast).2 = .ok p →
        Survey.Picks firstAtLeast l p.cut ∧ ∃ start stop plan, p.Divides o r start stop plan) ∧
      ∀ c, Survey.Picks firstAtLeast l c → r.Canonical → r.size ≤ longestSequence →
        (∀ t ∈ c.arguments, ∃ u, JType.parse t.descriptor = .ok u) →
        ∃ p, (o.splitWithin r minSize maxSize firstAtLeast).2 = .ok p ∧ p.cut = c := by
  obtain ⟨rfl, -⟩ := Flow.analyze_onward hr.checked hflow
  have hlisting := Survey.isListing_upcoming hr.checked hflow hroom
  have hsteady := Survey.steady_make hr.checked hflow hroom
  have hsurvey : o.survey flow.routine minSize maxSize =
      .ok (Survey.make flow minSize maxSize) := by
    rw [Outline.survey, hflow]
    rfl
  have hnone := @Survey.chooseFrom_eq_none_iff firstAtLeast none
    ((Survey.make flow minSize maxSize).upcoming 0)
  have hsome := @Survey.chooseFrom_eq_some_iff firstAtLeast _ hlisting.ascending
  have hfind := find_eq hsurvey (Survey.select_eq OutlineError hsteady firstAtLeast)
  rw [and_iff_right rfl] at hnone
  have hfound (c : Cut) : (o.find flow.routine minSize maxSize firstAtLeast).2 = .ok c ↔
      Survey.Picks firstAtLeast ((Survey.make flow minSize maxSize).upcoming 0) c := by
    rw [hfind, ← hsome]
    -- the choice is the same one, found or not
    cases Survey.chooseFrom firstAtLeast none _ with
    | none => exact iff_of_false (fun h => by cases h) fun h => by cases h
    | some d =>
      exact ⟨fun h => congrArg some (Except.ok.inj h),
        fun h => congrArg Except.ok (Option.some.inj h)⟩
  -- what is picked is a candidate, and the range of a candidate can be moved
  have hchosen {c : Cut}
      (hc : Survey.Picks firstAtLeast ((Survey.make flow minSize maxSize).upcoming 0) c) :
      ∃ start stop, Chosen flow c start stop := by
    obtain ⟨start, hcandidate⟩ := (hlisting.mem_iff c).1 hc.mem
    exact ⟨start, hcandidate.chosen⟩
  refine ⟨_, _, hsurvey, hlisting, fun moves => Cursor.stands_atStart.play (k := 0) hsteady moves,
    ?_, hfound, splitWithin_eq, fun p hp => ?_, fun c hc hcanonical hheld hargs => ?_⟩
  · rw [hfind, ← hnone]
    cases Survey.chooseFrom firstAtLeast none _ with
    | none => exact iff_of_true rfl rfl
    | some c => exact iff_of_false (fun h => by cases h) fun h => by cases h
  · obtain ⟨c, hc, happly⟩ := exists_find_of_splitWithin hp
    have hpicks := (hfound c).1 hc
    obtain ⟨start, stop, hrange⟩ := hchosen hpicks
    have hsize : (flow.routine.size : Int) ≤ Word.max :=
      Int.le_trans (Int.le_of_lt hroom.1) (by decide)
    obtain ⟨plan, hdivides⟩ := hrange.divides hr hsize happly
    exact ⟨(apply_eq_ok happly).1 ▸ hpicks, start, stop, plan, hdivides⟩
  · obtain ⟨start, stop, hrange⟩ := hchosen hc
    obtain ⟨p, happly, -⟩ := hrange.exists_apply o hr hcanonical hheld hargs
    rw [splitWithin_eq, (hfound c).2 hc]
    exact ⟨p, happly, (apply_eq_ok happly).1⟩

/-- A loop behind an operation that does nothing. -/
def delayedLoop : RoutineParts where
  owner := "Loop"
  name := "run"
  descriptor := "(I)V"
  access := .static
  code := #[some (.plain .nop), some (.label ⟨0, ""⟩), some (.iinc 0 (-1)),
    some (.slot (.load .int) 0), some (.jump (.ifZero .ne) ⟨0, ""⟩), some (.plain .returnVoid)]
  blocks := []
  maxLocals := 1
  maxStack := 1

/-- Of the candidates of `delayedLoop` the loop is the longest, and it is moved into a routine that
returns the counter; the operation in front of it is the first of at least one instruction. -/
theorem find_picks_delayedLoop :
    ∃ r flow, Routine.make delayedLoop = .ok r ∧ Flow.analyze .flat r = .ok flow ∧
      Survey.Roomy r 1 4 ∧
      (∃ l p plan, flow.IsListing 1 4 l ∧ (({} : Outline).splitWithin r 1 4 0).2 = .ok p ∧
        (({} : Outline).find r 1 4 0).2 = .ok p.cut ∧ Survey.Picks 0 l p.cut ∧
        p.Divides {} r 1 5 plan ∧
        p.extracted.code.toList.take 4 = (r.code.toList.drop 1).take 4 ∧
        p.trimmed.code.toList.take 3 = [.plain .nop, .slot (.load .int) 0,
          Snippet.invoke .static "Loop" "run$split" "(I)[Ljava/lang/Object;"]) ∧
      ∃ l p plan, flow.IsListing 1 4 l ∧ (({} : Outline).splitWithin r 1 4 1).2 = .ok p ∧
        (({} : Outline).find r 1 4 1).2 = .ok p.cut ∧ Survey.Picks 1 l p.cut ∧
        p.Divides {} r 0 1 plan ∧
        p.extracted.code.toList.take 1 = [.plain .nop] ∧
        p.trimmed.code.toList.take 2 =
          [Snippet.invoke .static "Loop" "run$split" "()[Ljava/lang/Object;", .plain .pop] := by
  have hrun : (Routine.make delayedLoop).toOption.any fun r =>
      decide ((r.size : Int) < 0x4000000000000000) &&
        (Flow.analyze .flat r).toOption.any fun _ =>
          ((({} : Outline).splitWithin r 1 4 0).2.toOption.any fun p => decide (
            (p.cut.start = 1 ∧ p.cut.stop = 5) ∧
            p.extracted.code.toList.take 4 = (r.code.toList.drop 1).take 4 ∧
            p.trimmed.code.toList.take 3 = [.plain .nop, .slot (.load .int) 0,
              Snippet.invoke .static "Loop" "run$split" "(I)[Ljava/lang/Object;"])) &&
          ((({} : Outline).splitWithin r 1 4 1).2.toOption.any fun p => decide (
            (p.cut.start = 0 ∧ p.cut.stop = 1) ∧
            p.extracted.code.toList.take 1 = [.plain .nop] ∧
            p.trimmed.code.toList.take 2 =
              [Snippet.invoke .static "Loop" "run$split" "()[Ljava/lang/Object;",
              .plain .pop])) := by
    decide +kernel
  obtain ⟨r, hr, hrun⟩ := exists_ok_of_any hrun
  rw [Bool.and_eq_true, decide_eq_true_iff] at hrun
  obtain ⟨hsize, hrun⟩ := hrun
  obtain ⟨flow, hflow, hrun⟩ := exists_ok_of_any hrun
  rw [Bool.and_eq_true] at hrun
  obtain ⟨p, hp, hlongest⟩ := exists_ok_of_any hrun.1
  obtain ⟨q, hq, hfirst⟩ := exists_ok_of_any hrun.2
  obtain ⟨hbounds, hlongest⟩ := of_decide_eq_true hlongest
  obtain ⟨hbounds', hfirst⟩ := of_decide_eq_true hfirst
  have hroom : Survey.Roomy r 1 4 := ⟨hsize, by decide, by decide, by decide⟩
  obtain ⟨-, l, -, hl, -, -, hfound, -, hsplit, -⟩ := find_picks {} Empty ⟨_, hr⟩ hflow hroom 0
  obtain ⟨-, l', -, hl', -, -, hfound', -, hsplit', -⟩ := find_picks {} Empty ⟨_, hr⟩ hflow hroom 1
  obtain ⟨hpicks, start, stop, plan, hdivides⟩ := hsplit p hp
  obtain ⟨hpicks', start', stop', plan', hdivides'⟩ := hsplit' q hq
  obtain rfl : start = 1 := Int.ofNat.inj (hdivides.start_eq.symm.trans hbounds.1)
  obtain rfl : stop = 5 := Int.ofNat.inj (hdivides.stop_eq.symm.trans hbounds.2)
  obtain rfl : start' = 0 := Int.ofNat.inj (hdivides'.start_eq.symm.trans hbounds'.1)
  obtain rfl : stop' = 1 := Int.ofNat.inj (hdivides'.stop_eq.symm.trans hbounds'.2)
  exact ⟨r, flow, hr, hflow, hroom,
    ⟨l, p, plan, hl, hp, (hfound _).2 hpicks, hpicks, hdivides, hlongest⟩,
    l', q, plan', hl', hq, (hfound' _).2 hpicks', hpicks', hdivides', hfirst⟩

end Outline

end Outliner
