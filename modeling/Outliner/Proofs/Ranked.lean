import Mathlib.Algebra.GroupWithZero.Nat
import Mathlib.Algebra.Order.Monoid.Prod
import Mathlib.Data.Prod.Lex
import Outliner.Proofs.Resting

/-!
# Hierarchies under which every pass ends

A hierarchy is any function from two names to a third, so merging need not lead anywhere: a type can
change again and again. It cannot if merging lowers a rank. A hierarchy is *ranked* when merging two
references that are not null gives the first back or a type of lower rank (`Hierarchy.Ranked`). The
flat hierarchy is (`Hierarchy.flat_ranked`), and so is every hierarchy that goes up a finite tree.

Under a ranked hierarchy every pass ends (`Flow.Pass.exists_run_ne_restless`), over any routine.
There is no bound on the number of visits here, as there is for the flat hierarchy: a null takes any
reference for its own when it is merged, of whatever rank. So the cells and slots are weighed by
pairs of numbers in lexicographic order, with the number of nulls first (`JType.load`).

A pass that ends does not depend on how many visits it was allowed (`Flow.Pass.run_stable`).
-/

namespace Outliner

/-! ### Ranks -/

/-- Merging two references that are not null gives the first back or lowers the rank. -/
def Hierarchy.Ranked (h : Hierarchy) (rank : JType → Nat) : Prop :=
  ∀ a b : JType, a.isMergeable → a ≠ .null → b.isMergeable → b ≠ .null →
    a.merge h b ≠ a → rank (a.merge h b) < rank a

/-- Two different references have only the root in common, which has nothing above it. -/
theorem Hierarchy.flat_ranked :
    Hierarchy.Ranked .flat fun t => if t = .anyObject then 0 else 1 := by
  intro a b ha hanull hb hbnull hne
  have hab : a ≠ b := by
    rintro rfl
    exact hne (JType.merge_self a)
  have hmerge : a.merge .flat b = .anyObject := by
    rw [JType.merge_flat hab, if_pos (by rw [ha, hb]; rfl), if_neg hanull, if_neg hbnull]
  rw [hmerge] at hne ⊢
  dsimp only
  rw [if_pos rfl, if_neg (Ne.symm hne)]
  exact Nat.one_pos

namespace JType

variable {h : Hierarchy} {rank : JType → Nat}

/-- What a type counts for in a pass: a null for more than any other type, an unusable one for
nothing. -/
def load (rank : JType → Nat) (t : JType) : ℕ ×ₗ ℕ :=
  if t = null then toLex (1, 0) else if t = top then 0 else toLex (0, rank t + 1)

theorem load_of_ne {t : JType} (hnull : t ≠ null) (htop : t ≠ top) :
    t.load rank = toLex (0, rank t + 1) := by
  rw [load, if_neg hnull, if_neg htop]

theorem load_top : top.load rank = 0 := rfl

theorem load_pos {t : JType} (htop : t ≠ top) : 0 < t.load rank := by
  by_cases hnull : t = null
  · rw [hnull, load, if_pos rfl]
    exact Prod.Lex.toLex_lt_toLex.2 (.inl Nat.one_pos)
  · rw [load_of_ne hnull htop]
    exact Prod.Lex.toLex_lt_toLex.2 (.inr ⟨rfl, Nat.succ_pos _⟩)

theorem ne_top_of_isMergeable {t : JType} (ht : t.isMergeable) : t ≠ top := by
  rintro rfl
  cases ht

theorem ofClassName_ne_null (name : String) : ofClassName name ≠ null := by
  unfold ofClassName
  split <;> intro heq <;> cases heq

theorem ofClassName_ne_top (name : String) : ofClassName name ≠ top := by
  unfold ofClassName
  split <;> intro heq <;> cases heq

/-- **A type that changes in a merge under a ranked hierarchy counts for less afterwards.** -/
theorem load_merge (hh : h.Ranked rank) (a b : JType) :
    a.merge h b = a ∨ (a.merge h b).load rank < a.load rank := by
  rw [or_iff_not_imp_left]
  intro hne
  have hab : a ≠ b := by
    rintro rfl
    exact hne (merge_self a)
  have hatop : a ≠ top := by
    rintro rfl
    exact hne (top_merge b)
  by_cases hmergeable : a.isMergeable ∧ b.isMergeable
  · obtain ⟨ha, hb⟩ := hmergeable
    have hrefs : ¬ (!a.isMergeable || !b.isMergeable) = true := by simp [ha, hb]
    by_cases hanull : a = null
    · -- a null becomes the other reference
      have hbnull : b ≠ null := fun heq => hab (hanull.trans heq.symm)
      have hmerge : a.merge h b = b := by
        rw [merge, if_neg hab, if_neg hrefs, if_pos hanull]
      rw [hmerge, load_of_ne hbnull (ne_top_of_isMergeable hb), load, if_pos hanull]
      exact Prod.Lex.toLex_lt_toLex.2 (.inl Nat.one_pos)
    · have hbnull : b ≠ null := by
        rintro rfl
        exact hne (by rw [merge, if_neg hab, if_neg hrefs, if_neg hanull, if_pos rfl])
      have hlower := hh a b ha hanull hb hbnull hne
      have hmerge : a.merge h b = ofClassName (h a.internalName b.internalName) := by
        rw [merge, if_neg hab, if_neg hrefs, if_neg hanull, if_neg hbnull]
      rw [hmerge] at hlower ⊢
      rw [load_of_ne (ofClassName_ne_null _) (ofClassName_ne_top _), load_of_ne hanull hatop]
      exact Prod.Lex.toLex_lt_toLex.2 (.inr ⟨rfl, Nat.succ_lt_succ hlower⟩)
  · have hmerge : a.merge h b = top := by
      rw [merge, if_neg hab, if_pos]
      cases ha : a.isMergeable <;> cases hb : b.isMergeable <;> simp_all
    rw [hmerge, load_top]
    exact load_pos hatop

end JType

namespace Flow

/-! ### What a pass has left to do -/

namespace Pass

variable {r : Routine} {h : Hierarchy} {rank : JType → Nat} {p p' p'' : Pass} {offset : Nat}

/-- What the frame at an offset counts for. -/
def loadAt (rank : JType → Nat) (known : Option Frame) : ℕ ×ₗ ℕ :=
  known.elim 0 (Frame.weight (JType.load rank))

/-- What the frames of a pass count for: the offsets without one first. -/
def burden (rank : JType → Nat) (p : Pass) : ℕ ×ₗ (ℕ ×ₗ ℕ) :=
  toLex (unknown p.frames.toList, (p.frames.toList.map (loadAt rank)).sum)

/-- The number of instructions that wait in line. -/
def pending (p : Pass) : Nat :=
  p.work.countP (· < p.frames.size)

/-- A pass goes on to another in which the frames count for less, or nothing has changed in them and
no instruction has been put in line. -/
def Settles (rank : JType → Nat) (p p' : Pass) : Prop :=
  p'.burden rank < p.burden rank ∨ p'.burden rank = p.burden rank ∧ p'.pending = p.pending

theorem Settles.trans (hs : Settles rank p p') (hs' : Settles rank p' p'') :
    Settles rank p p'' := by
  rcases hs with hlt | ⟨heq, hpending⟩
  · rcases hs' with hlt' | ⟨heq', -⟩
    · exact .inl (hlt'.trans hlt)
    · exact .inl (heq' ▸ hlt)
  · rcases hs' with hlt' | ⟨heq', hpending'⟩
    · exact .inl (heq ▸ hlt')
    · exact .inr ⟨heq'.trans heq, hpending'.trans hpending⟩

theorem settles_of_eq (hframes : p'.frames = p.frames) (hwork : p'.work = p.work) :
    Settles rank p p' :=
  .inr ⟨by rw [burden, burden, hframes], by rw [pending, pending, hframes, hwork]⟩

/-- A frame that is new, or counts for less than the one before it, lowers the burden. -/
theorem burden_raise_lt (hlt : offset < p.frames.size) {f : Frame}
    (hf : p.frame? offset = none ∨
      ∃ known, p.frame? offset = some known ∧
        f.weight (JType.load rank) < known.weight (JType.load rank)) :
    (p.raise offset f).burden rank < p.burden rank := by
  have hentry := getElem?_frames_toList hlt
  have hunknown := unknown_set hentry f
  have hsum := sum_map_set (loadAt rank) hentry (some f)
  have hframes : (p.raise offset f).frames.toList = p.frames.toList.set offset (some f) := by
    rw [raise, enqueue_frames, Array.toList_setIfInBounds]
  rw [burden, burden, hframes]
  refine Prod.Lex.toLex_lt_toLex.2 ?_
  rcases hf with hnone | ⟨known, hknown, hless⟩
  · rw [hnone, Option.isNone_none, if_pos rfl] at hunknown
    exact .inl (by omega)
  · rw [hknown] at hunknown hsum
    refine .inr ⟨hunknown, lt_of_add_lt_add_right (a := loadAt rank (some known)) ?_⟩
    rw [hsum]
    exact add_lt_add_right hless _

/-- Putting an offset in line at which there is no instruction changes nothing that counts. -/
theorem settles_raise_of_le (hle : p.frames.size ≤ offset) (f : Frame) :
    Settles rank p (p.raise offset f) := by
  have hframes : (p.raise offset f).frames = p.frames := by
    rw [raise, enqueue_frames]
    exact Array.setIfInBounds_eq_of_size_le hle
  refine .inr ⟨by rw [burden, burden, hframes], ?_⟩
  rw [pending, pending, hframes]
  unfold raise enqueue
  split
  · rfl
  · exact List.countP_cons_of_neg (by simpa using hle)

/-- **An arrival lowers the burden, or leaves the frames and the line as they are.** -/
theorem settles_arrive (hh : h.Ranked rank) (p : Pass) (offset : Nat) (f : Frame) :
    Settles rank p (p.arrive r h offset f) := by
  obtain heq | ⟨e, heq⟩ | ⟨g, -, hg, heq⟩ := arrive_cases (r := r) (h := h) offset f p
  · exact settles_of_eq (by rw [heq]) (by rw [heq])
  · rw [heq]
    exact settles_of_eq (fail_frames p offset e) (fail_work p offset e)
  · rw [heq]
    by_cases hlt : offset < p.frames.size
    · refine .inl (burden_raise_lt hlt ?_)
      rcases hg with ⟨hnone, -⟩ | ⟨known, hknown, hmerge⟩
      · exact .inl hnone
      · exact .inr ⟨known, hknown, (Frame.weight_merged (JType.load_merge hh) hmerge).1⟩
    · exact settles_raise_of_le (Nat.le_of_not_lt hlt) g

/-- **A visit lowers the burden, or leaves the frames and the line as they are.** -/
theorem settles_visit (hh : h.Ranked rank) (hv : p.visit r h offset = .ok p') :
    Settles rank p p' := by
  obtain ⟨insn, before, -, -, hcase⟩ := visit_cases hv
  rcases hcase with ⟨e, rfl⟩ | ⟨after, effect, -, rfl⟩
  · exact settles_of_eq (fail_frames p offset e) (fail_work p offset e)
  · refine spread_induction (Q := Settles rank p) (settles_of_eq rfl rfl) ?_ ?_
    · intro q target f hq _
      exact hq.trans (settles_arrive hh q target f)
    · intro _ _ q e hq
      exact hq.trans (settles_of_eq (fail_frames q offset e) (fail_work q offset e))

/-- Only an instruction that has a frame can be visited. -/
theorem lt_of_visit (hv : p.visit r h offset = .ok p') : offset < p.frames.size := by
  obtain ⟨-, before, -, hbefore, -⟩ := visit_cases hv
  by_contra hle
  rw [frame?, Array.getElem?_eq_none (Nat.le_of_not_lt hle)] at hbefore
  cases hbefore

/-! ### Passes end -/

/-- What is left to do: what the frames count for, then how many instructions wait in line, then how
long the line is. -/
def remaining (rank : JType → Nat) (p : Pass) : (ℕ ×ₗ (ℕ ×ₗ ℕ)) ×ₗ (ℕ ×ₗ ℕ) :=
  toLex (p.burden rank, toLex (p.pending, p.work.length))

theorem remaining_dequeue_lt {rest : List Nat} (hwork : p.work = offset :: rest) :
    (p.dequeue offset rest).remaining rank < p.remaining rank := by
  have hpending : (p.dequeue offset rest).pending ≤ p.pending := by
    rw [pending, pending, hwork]
    exact List.Sublist.countP_le (List.sublist_cons_self offset rest)
  have hlength : (p.dequeue offset rest).work.length < p.work.length := by
    rw [hwork]
    exact Nat.lt_succ_self _
  refine Prod.Lex.toLex_lt_toLex.2 (.inr ⟨rfl, Prod.Lex.toLex_lt_toLex.2 ?_⟩)
  rcases Nat.lt_or_eq_of_le hpending with hlt | heq
  · exact .inl hlt
  · exact .inr ⟨heq, hlength⟩

/-- **A visit to the first in line leaves less to do.** -/
theorem remaining_visit_lt (hh : h.Ranked rank) {rest : List Nat} (hwork : p.work = offset :: rest)
    (hv : (p.dequeue offset rest).visit r h offset = .ok p') :
    p'.remaining rank < p.remaining rank := by
  have hlt : offset < p.frames.size := lt_of_visit (p := p.dequeue offset rest) hv
  rcases settles_visit hh hv with hburden | ⟨hburden, hpending⟩
  · exact Prod.Lex.toLex_lt_toLex.2 (.inl hburden)
  · refine Prod.Lex.toLex_lt_toLex.2 (.inr ⟨hburden, Prod.Lex.toLex_lt_toLex.2 (.inl ?_)⟩)
    calc p'.pending = (p.dequeue offset rest).pending := hpending
      _ < (p.dequeue offset rest).pending + 1 := Nat.lt_succ_self _
      _ = p.pending := by
        rw [pending, pending, hwork, List.countP_cons_of_pos (by simpa using hlt)]
        rfl

/-- **Under a ranked hierarchy every pass ends.** -/
theorem exists_run_ne_restless (hh : h.Ranked rank) (p : Pass) :
    ∃ n, run r h n p ≠ Answer.refuse .restless := by
  -- The work that remains gets less with every visit, in a lexicographic order that has no bound
  -- given beforehand, so the number of steps is found along with the proof.
  induction hm : p.remaining rank using WellFoundedLT.induction generalizing p with
  | ind m ih =>
    subst hm
    cases hwork : p.work with
    | nil =>
      refine ⟨0, ?_⟩
      rw [run, hwork]
      intro heq
      cases heq
    | cons offset rest =>
      cases hfailed : (p.dequeue offset rest).hasFailed offset with
      | true =>
        obtain ⟨n, hn⟩ := ih _ (remaining_dequeue_lt hwork) _ rfl
        exact ⟨n + 1, by rwa [run_of_failed hwork hfailed]⟩
      | false =>
        cases hvisit : (p.dequeue offset rest).visit r h offset with
        | ok q =>
          obtain ⟨n, hn⟩ := ih _ (remaining_visit_lt hh hwork hvisit) _ rfl
          exact ⟨n + 1, by rwa [run_of_visit hwork hfailed hvisit]⟩
        | error stop =>
          refine ⟨1, ?_⟩
          rw [run_of_visit_error hwork hfailed hvisit, (visit_error hvisit).1]
          intro heq
          cases heq

/-- **A pass that ends does so in the same way when it is allowed more visits.** -/
theorem run_stable {n m : Nat} (hrun : run r h n p ≠ Answer.refuse .restless) (hle : n ≤ m) :
    run r h m p = run r h n p := by
  induction n generalizing p m with
  | zero =>
    cases hwork : p.work with
    | nil => rw [run, run, hwork]
    | cons offset rest => exact absurd (by rw [run, hwork]) hrun
  | succ n ih =>
    obtain ⟨m, rfl⟩ := Nat.exists_eq_add_of_le' (Nat.le_trans (Nat.le_add_left 1 n) hle)
    cases hwork : p.work with
    | nil => rw [run, run, hwork]
    | cons offset rest =>
      have hle' : n ≤ m := Nat.le_of_succ_le_succ hle
      cases hfailed : (p.dequeue offset rest).hasFailed offset with
      | true =>
        rw [run_of_failed hwork hfailed] at hrun ⊢
        rw [run_of_failed hwork hfailed]
        exact ih hrun hle'
      | false =>
        cases hvisit : (p.dequeue offset rest).visit r h offset with
        | ok q =>
          rw [run_of_visit hwork hfailed hvisit] at hrun ⊢
          rw [run_of_visit hwork hfailed hvisit]
          exact ih hrun hle'
        | error stop =>
          rw [run_of_visit_error hwork hfailed hvisit, run_of_visit_error hwork hfailed hvisit]

end Pass

/-! ### Every analysis ends -/

/-- An analysis that ends: there is a number of visits in which it does, and no larger number gives
a different answer. -/
def ComesToRest (h : Hierarchy) (r : Routine) : Prop :=
  ∃ n, analyzeWithin n h r ≠ Answer.refuse .restless ∧
    ∀ fuel, n ≤ fuel → analyzeWithin fuel h r = analyzeWithin n h r

theorem comesToRest_of_ranked {h : Hierarchy} {rank : JType → Nat} (hh : h.Ranked rank)
    (r : Routine) : ComesToRest h r := by
  obtain ⟨n, hn⟩ := Pass.exists_run_ne_restless (r := r) hh (Pass.initial r h)
  refine ⟨n, ?_, fun fuel hle => ?_⟩
  · exact analyzeWithin_ne_restless hn
  · rw [analyzeWithin_eq, analyzeWithin_eq, Pass.run_stable hn hle]

/-- **The analysis of a routine ends**, under the flat hierarchy and under every hierarchy in which
merging lowers a rank. Under the flat one it ends before it is given up. -/
theorem analysis_ends (r : Routine) :
    (ComesToRest .flat r ∧ (r.Checked → analyze .flat r ≠ Answer.refuse .restless)) ∧
      ∀ (h : Hierarchy) (rank : JType → Nat), h.Ranked rank → ComesToRest h r :=
  ⟨⟨comesToRest_of_ranked Hierarchy.flat_ranked r, analyze_ne_restless⟩,
    fun _ _ hh => comesToRest_of_ranked hh r⟩

/-- A hierarchy of three classes, two of which are subclasses of the third. -/
def siblings : Hierarchy := fun a b =>
  if (a = "B" ∨ a = "C") ∧ (b = "B" ∨ b = "C") then "A" else JType.objectClass

/-- How far below the root a type can be among the siblings. -/
def siblingsRank (t : JType) : Nat :=
  if t = .anyObject then 0 else if t = .object "A" then 1 else 2

theorem siblings_ranked : siblings.Ranked siblingsRank := by
  intro a b ha hanull hb hbnull hne
  have hab : a ≠ b := by
    rintro rfl
    exact hne (JType.merge_self a)
  have hmerge : a.merge siblings b = .ofClassName (siblings a.internalName b.internalName) := by
    rw [JType.merge, if_neg hab, if_neg (by simp [ha, hb]), if_neg hanull, if_neg hbnull]
  rw [hmerge] at hne ⊢
  by_cases hkin : (a.internalName = "B" ∨ a.internalName = "C") ∧
      (b.internalName = "B" ∨ b.internalName = "C")
  · have hcommon : JType.ofClassName (siblings a.internalName b.internalName) = .object "A" := by
      rw [siblings, if_pos hkin]
      rfl
    -- a class named B or C is neither the root nor A
    have hroot : a ≠ .anyObject := by
      rintro rfl
      exact absurd hkin.1 (by decide)
    rw [hcommon] at hne ⊢
    rw [siblingsRank, siblingsRank, if_neg (by decide), if_pos rfl, if_neg hroot,
      if_neg (Ne.symm hne)]
    exact Nat.lt_succ_self 1
  · have hcommon : JType.ofClassName (siblings a.internalName b.internalName) = .anyObject := by
      rw [siblings, if_neg hkin]
      rfl
    rw [hcommon] at hne ⊢
    rw [siblingsRank, siblingsRank, if_pos rfl, if_neg (Ne.symm hne)]
    split <;> decide

/-- A loop that replaces its first argument by the second. -/
def replacing : RoutineParts where
  owner := "Loop"
  name := "on"
  descriptor := "(LB;LC;)V"
  access := .static
  code := #[some (.label ⟨0, ""⟩), some (.slot (.load .ref) 1), some (.slot (.store .ref) 0),
    some (.jump .goto ⟨0, ""⟩)]
  blocks := []
  maxLocals := 2
  maxStack := 1

/-- The two arguments are siblings, and where the loop begins the first is of their common class. -/
theorem analysis_ends_replacing :
    ∃ r flow, Routine.make replacing = .ok r ∧ siblings.Ranked siblingsRank ∧
      ComesToRest siblings r ∧ analyze siblings r = .ok flow ∧
      flow.frame? 0 = some (some ⟨[], .ofList [(0, .object "A"), (1, .object "C")]⟩) := by
  have hrun : (Routine.make replacing).toOption.any fun r =>
      (analyze siblings r).toOption.any fun flow =>
        decide (flow.frame? 0 =
          some (some ⟨[], .ofList [(0, .object "A"), (1, .object "C")]⟩)) := by
    decide +kernel
  obtain ⟨r, hr, hrun⟩ := exists_ok_of_any hrun
  obtain ⟨flow, hflow, hrun⟩ := exists_ok_of_any hrun
  exact ⟨r, flow, hr, siblings_ranked, (analysis_ends r).2 siblings siblingsRank siblings_ranked,
    hflow, of_decide_eq_true hrun⟩

end Flow

end Outliner
