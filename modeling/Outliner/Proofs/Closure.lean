import Outliner.Proofs.Rest
import Outliner.Proofs.Trimming

/-!
# Cuts are closed under jumps

A range can be moved only if no jump crosses its boundary: what jumps inside it lands inside it, and
nothing outside jumps into it. A boundary knows the jumps of a routine by the form that their
opcodes are written in, while the labels an instruction refers to are known by its own form. So the
ranges that are found are closed under the jumps whose opcode is one of a jump
(`Routine.JumpsByName`), and both halves of a split then have every label they jump to
(`Survey.yields_closed`).

The wide jumps have no written form of their own. A range may leave the label of such a jump behind,
and is then refused only when it is to be moved (`Survey.yields_open_wideJump`).
-/

namespace Outliner

open Routine Outline

/-- Every jump of the routine carries the opcode of an operation that names labels. -/
def Routine.JumpsByName (r : Routine) : Prop :=
  ∀ op l, .jump op l ∈ r.code → op.isBranch

/-- **No jump crosses the boundary** of the instructions from `start` up to `stop`. -/
structure Routine.ClosedUnderJumps (r : Routine) (start stop : Nat) : Prop where
  inside : ∀ i insn, start ≤ i → i < stop → r.code[i]? = some insn → ∀ l ∈ insn.targets,
    ∃ k, r.offset? l = some k ∧ start ≤ k ∧ k < stop
  outside : ∀ i insn, i < start ∨ stop ≤ i → r.code[i]? = some insn → ∀ l ∈ insn.targets,
    ∃ k, r.offset? l = some k ∧ (k < start ∨ stop ≤ k)

/-- Whether a routine is not split because one of the halves jumps to a label that is not there. -/
def OutlineError.missesLabel : OutlineError → Bool
  | badExtract _ (.unplacedTarget _ _ _) | badTrim _ (.unplacedTarget _ _ _) => true
  | _ => false

/-- Why an answer was refused, if it was. -/
def Answer.refusal? {ε α : Type} : Answer ε α → Option ε
  | .error (.refused reason) => some reason
  | _ => none

theorem Answer.eq_refuse {ε α : Type} {a : Answer ε α} {reason : ε}
    (h : a.refusal? = some reason) : a = refuse reason := by
  unfold refusal? at h
  split at h
  · rw [Option.some.inj h]
    rfl
  · cases h

/-! ### The jumps of a routine -/

theorem Routine.JumpsByName.isBranch {r : Routine} (hr : r.JumpsByName) {insn : Instruction}
    (hinsn : insn ∈ r.code) {l : Label} (hl : l ∈ insn.targets) :
    insn.isMarker = false ∧ insn.opcode.isBranch := by
  cases insn with
  | jump op target =>
    have hop : op.isBranch := hr op target hinsn
    refine ⟨?_, hop⟩
    cases op <;> first | rfl | cases hop
  | tableSwitch => exact ⟨rfl, rfl⟩
  | lookupSwitch => exact ⟨rfl, rfl⟩
  | _ => cases hl

/-- A movable range is closed under the jumps that are known by name. -/
theorem Movable.closedUnderJumps {r : Routine} {start stop : Nat} (hm : Movable r start stop)
    (hchecked : r.Checked) (hr : r.JumpsByName) : r.ClosedUnderJumps start stop where
  inside i insn hlow hhigh hi l hl := by
    have hmem := Array.mem_of_getElem? hi
    obtain ⟨hmarker, hbranch⟩ := hr.isBranch hmem hl
    obtain ⟨k, hk⟩ := hchecked.targets insn hmem l hl
    exact ⟨k, hk, (hm.stays i insn hlow hhigh hi hmarker).2.2 hbranch k
      (List.mem_filterMap.2 ⟨l, hl, hk⟩)⟩
  outside i insn hside hi l hl := by
    have hmem := Array.mem_of_getElem? hi
    obtain ⟨hmarker, hbranch⟩ := hr.isBranch hmem hl
    obtain ⟨k, hk⟩ := hchecked.targets insn hmem l hl
    exact ⟨k, hk, hm.enters i insn hside hi hmarker hbranch k (List.mem_filterMap.2 ⟨l, hl, hk⟩)⟩

/-! ### Labels that are missing -/

namespace Routine

theorem checkTargets_error {key : String} {table : LabelTable} {offset : Nat}
    {code : List Instruction} {e : RoutineError}
    (h : checkTargets key table offset code = .error e) :
    ∃ insn ∈ code, ∃ l ∈ insn.targets, table[l.id]? = none := by
  refine Decidable.byContradiction fun hnone => ?_
  rw [checkTargets_ok_iff.2 fun insn hinsn l hl => ?_] at h
  · cases h
  · rw [← Option.isSome_iff_exists, Option.isSome_iff_ne_none]
    exact fun hmissing => hnone ⟨insn, hinsn, l, hl, hmissing⟩

theorem resolveBlocks_ne_unplacedTarget {key key' : String} {table : LabelTable}
    {index offset : Nat} {blocks : List TryCatch} {l : Label} :
    resolveBlocks key table index blocks ≠ .error (.unplacedTarget key' offset l) := by
  induction blocks generalizing index with
  | nil => nofun
  | cons b blocks ih =>
    intro h
    unfold resolveBlocks at h
    split at h
    · split at h
      · cases h
      · split at h
        · cases h
        · next hrest => exact ih (hrest.trans h)
    · cases h

theorem placeLabels_ne_unplacedTarget {key key' : String} {places : List (Option Instruction)}
    {offset position : Nat} {table : LabelTable} {l : Label} :
    placeLabels key offset places table ≠ .error (.unplacedTarget key' position l) := by
  fun_induction placeLabels key offset places table with
  | case1 => nofun
  | case2 => nofun
  | case3 => nofun
  | case4 _ _ _ _ _ ih => exact ih
  | case5 _ _ _ _ _ ih => exact ih

/-- Parts whose jumps all find their labels are not refused for a label that is missing. -/
theorem make_ne_unplacedTarget {p : RoutineParts} {code : List Instruction}
    (hcode : p.code.toList = code.map some)
    (targets : ∀ insn ∈ code, ∀ l ∈ insn.targets, l.id ∈ placedIds code) {key : String}
    {offset : Nat} {l : Label} : make p ≠ .error (.unplacedTarget key offset l) := by
  intro h
  unfold make at h
  split at h
  · cases h
  split at h
  · next e hplace =>
    obtain rfl := Except.error.inj h
    exact placeLabels_ne_unplacedTarget hplace
  next table hplace =>
  obtain ⟨code', hcode', -, -, htable⟩ := placeLabels_ok hplace
  obtain rfl : code = code' := by
    rw [hcode] at hcode'
    exact List.map_inj_right (fun _ _ h => Option.some.inj h) |>.1 hcode'
  dsimp only at h
  rw [filterMap_id_of_toList hcode] at h
  split at h
  -- the only check that can report such a target is the one of targets, and they are all placed
  · next hcheck =>
    obtain ⟨insn, hinsn, l', hl', hmissing⟩ := checkTargets_error hcheck
    have hplaced := targets insn hinsn l' hl'
    rw [htable, Std.TreeMap.getElem?_emptyc, Option.none_or, placeOf_eq_none_iff] at hmissing
    exact hmissing hplaced
  split at h
  · next e hresolve =>
    obtain rfl := Except.error.inj h
    exact resolveBlocks_ne_unplacedTarget hresolve
  · cases h

end Routine

/-! ### Both halves have the labels they jump to -/

section Halves

variable {flow : Flow} {c : Cut} {start stop : Nat}

theorem Routine.ClosedUnderJumps.mem_placedIds {r : Routine}
    (h : r.ClosedUnderJumps start stop) (hchecked : r.Checked) {insn : Instruction}
    (hinsn : insn ∈ range r.code.toList start stop) {l : Label} (hl : l ∈ insn.targets) :
    l.id ∈ placedIds (range r.code.toList start stop) := by
  obtain ⟨i, hlow, hhigh, hi⟩ := exists_of_mem_range hinsn
  obtain ⟨k, hk, hlow', hhigh'⟩ := h.inside i insn hlow hhigh (by simpa using hi) l hl
  obtain ⟨l', hl', hid⟩ := hchecked.offset?_eq_some_iff.1 hk
  exact Routine.mem_placedIds.2 ⟨l', mem_range_of_getElem? (by simpa using hl') hlow' hhigh', hid⟩

/-- The extracted routine has the labels it jumps to. -/
theorem Chosen.extract_ne_unplacedTarget (o : Outline) (h : Chosen flow c start stop)
    (hchecked : flow.routine.Checked) (hclosed : flow.routine.ClosedUnderJumps start stop)
    (hsize : (flow.routine.size : Int) ≤ Word.max) {key : String} {offset : Nat} {l : Label} :
    o.extract flow.routine c ≠ .error (.unplacedTarget key offset l) := by
  unfold Outline.extract
  rw [h.instructions_eq hsize]
  refine make_ne_unplacedTarget rfl fun insn hinsn l hl => ?_
  rw [placedIds_append, placedIds_append, placedIds_moved]
  rcases List.mem_append.1 hinsn with hinsn | hinsn
  · rcases List.mem_append.1 hinsn with hinsn | hinsn
    · rw [(Inline.prologue _ _ insn hinsn).2] at hl
      cases hl
    · obtain ⟨insn', hmem, hmoved⟩ := List.mem_filterMap.1 hinsn
      rw [(moved_placed? hmoved).2] at hl
      exact List.mem_append_left _ (List.mem_append_right _
        (hclosed.mem_placedIds hchecked hmem hl))
  · rw [(Inline.epilogue _ _ insn hinsn).2] at hl
    cases hl

/-- The trimmed routine has the labels it jumps to. -/
theorem Chosen.trim_ne_unplacedTarget (h : Chosen flow c start stop)
    (hchecked : flow.routine.Checked) (hclosed : flow.routine.ClosedUnderJumps start stop)
    (hsize : (flow.routine.size : Int) ≤ Word.max) (extracted : Routine) {key : String}
    {offset : Nat} {l : Label} :
    trim flow.routine c extracted ≠ .error (.unplacedTarget key offset l) := by
  rw [h.trim_eq hsize]
  refine make_ne_unplacedTarget rfl fun insn hinsn l hl => ?_
  -- whatever refers to a label stays, and so does the label
  obtain ⟨i, hside, hi⟩ : ∃ i, (i < start ∨ stop ≤ i) ∧ flow.routine.code[i]? = some insn := by
    simp only [Splice.result, Cut.splice, List.mem_append] at hinsn
    rcases hinsn with ((hinsn | hinsn) | hinsn) | hinsn
    · obtain ⟨i, hi⟩ := List.mem_iff_getElem?.1 (List.mem_of_mem_filter hinsn)
      obtain ⟨hlt, -⟩ := List.getElem?_eq_some_iff.1 hi
      rw [List.length_take] at hlt
      rw [List.getElem?_take_of_lt (by omega)] at hi
      exact ⟨i, .inl (by omega), by simpa using hi⟩
    · obtain ⟨l', -, rfl⟩ := List.mem_map.1 hinsn
      cases hl
    · rw [(((Inline.call c extracted).append (Inline.unpack c)) insn
        (List.mem_append.2 hinsn)).2] at hl
      cases hl
    · obtain ⟨i, hi⟩ := List.mem_iff_getElem?.1 (List.mem_of_mem_filter hinsn)
      rw [List.getElem?_drop] at hi
      exact ⟨stop + i, .inr (by omega), by simpa using hi⟩
  obtain ⟨k, hk, hside'⟩ := hclosed.outside i insn hside hi l hl
  obtain ⟨l', hl', hid⟩ := hchecked.offset?_eq_some_iff.1 hk
  obtain ⟨j, hj, -⟩ : ∃ j, placeOf 0 (c.splice flow.routine start stop extracted).result l'.id =
      some j ∧ (c.splice flow.routine start stop extracted).Lands k j :=
    c.exists_lands hchecked.nodup (Nat.le_of_lt h.movable.lt) hl' (.inl hside')
  rw [hid] at hj
  exact Decidable.byContradiction fun hnot => by
    rw [placeOf_eq_none_iff.2 hnot] at hj
    cases hj

end Halves

/-- **Cuts are closed under jumps.** Where every jump carries the opcode of one, a cut that a survey
finds has a range that no jump leaves or enters, and splitting there does not fail for a label that
is missing from one of the halves. -/
theorem Survey.yields_closed (o : Outline) {r : Routine} (hmade : r.Made) (hjumps : r.JumpsByName)
    (hsize : (r.size : Int) ≤ Word.max) {minSize maxSize : Int} {s : Survey}
    (hsurvey : o.survey r minSize maxSize = .ok s) {c : Cut} (hcut : s.Yields c) :
    ∃ start stop : Nat, c.start = start ∧ c.stop = stop ∧ r.ClosedUnderJumps start stop ∧
      ∀ e, o.apply r c = Answer.refuse e → e.missesLabel = false := by
  obtain ⟨flow, -, rfl, rfl⟩ := survey_eq_ok hsurvey
  have hchecked := hmade.checked
  obtain ⟨start, stop, h⟩ := Survey.chosen_of_yields hsize hcut
  have hclosed := h.movable.closedUnderJumps hchecked hjumps
  refine ⟨start, stop, h.start_eq, h.stop_eq hsize, hclosed, fun e he => ?_⟩
  -- of all steps, only the making of the two halves can miss a label
  unfold Outline.apply at he
  split at he
  · cases he
    rfl
  split at he
  · cases he
  split at he
  · next e' hextract =>
    cases he
    cases e' with
    | unplacedTarget => exact absurd hextract (h.extract_ne_unplacedTarget o hchecked hclosed hsize)
    | _ => rfl
  split at he
  · cases he
  split at he
  · next e' htrim =>
    cases he
    cases e' with
    | unplacedTarget => exact absurd htrim (h.trim_ne_unplacedTarget hchecked hclosed hsize _)
    | _ => rfl
  · cases he

/-- The loop of `Flow.countdown` is a cut with a jump in it. -/
theorem Survey.yields_closed_countdown :
    ∃ r s c, Routine.make Flow.countdown = .ok r ∧ ({} : Outline).survey r 4 4 = .ok s ∧
      s.Yields c ∧ ∃ start stop : Nat, c.start = start ∧ c.stop = stop ∧
        r.ClosedUnderJumps start stop ∧
        ∀ e, ({} : Outline).apply r c = Answer.refuse e → e.missesLabel = false := by
  have hrun : (Routine.make Flow.countdown).toOption.any fun r =>
      (r.code.all fun insn => insn.isCanonical) && decide ((r.size : Int) ≤ Word.max) &&
        (({} : Outline).survey r 4 4).toOption.any fun s =>
          (s.attemptAt 0 : Answer Empty Attempt).toOption.any fun a => a.cut?.isSome := by
    decide +kernel
  obtain ⟨r, hr, hrun⟩ := exists_ok_of_any hrun
  rw [Bool.and_eq_true, Bool.and_eq_true, decide_eq_true_iff, Array.all_eq_true'] at hrun
  obtain ⟨⟨hcanonical, hsize⟩, hrun⟩ := hrun
  obtain ⟨s, hs, hrun⟩ := exists_ok_of_any hrun
  obtain ⟨a, ha, hrun⟩ := exists_ok_of_any hrun
  obtain ⟨c, hc⟩ := Option.isSome_iff_exists.1 hrun
  have hyields : s.Yields c := ⟨0, Nat.zero_le _, Attempt.cut?_eq_some hc ▸ ha⟩
  have hjumps : r.JumpsByName := fun op l hmem =>
    (Instruction.isBranch_of_mem_targets (hcanonical _ hmem) (List.mem_singleton.2 rfl)).2
  exact ⟨r, s, c, hr, hs, hyields, Survey.yields_closed {} ⟨_, hr⟩ hjumps hsize hs hyields⟩

/-- A wide jump over an operation that does nothing. -/
def wideJump : RoutineParts where
  owner := "T"
  name := "f"
  descriptor := "()V"
  access := .static
  code := #[some (.jump .gotoWide ⟨1, "1"⟩), some (.plain .nop), some (.label ⟨1, "1"⟩),
    some (.plain .returnVoid)]
  blocks := []
  maxLocals := 0
  maxStack := 0

/-- Two instructions of `wideJump` make a cut although the first of them jumps out of it. The
extracted half would jump to a label that it does not have. -/
theorem Survey.yields_open_wideJump :
    ∃ r s c, Routine.make wideJump = .ok r ∧ ({} : Outline).survey r 2 2 = .ok s ∧ s.Yields c ∧
      c.start = 0 ∧ c.stop = 2 ∧ r.code[0]? = some (.jump .gotoWide ⟨1, "1"⟩) ∧
      r.offset? ⟨1, "1"⟩ = some 2 ∧
      ∃ e, ({} : Outline).apply r c = Answer.refuse e ∧ e.missesLabel := by
  have hrun : (Routine.make wideJump).toOption.any fun r =>
      decide (r.code[0]? = some (.jump .gotoWide ⟨1, "1"⟩)) &&
        decide (r.offset? ⟨1, "1"⟩ = some 2) &&
        (({} : Outline).survey r 2 2).toOption.any fun s =>
          (s.attemptAt 0 : Answer Empty Attempt).toOption.any fun a => a.cut?.any fun c =>
            decide (c.start = 0) && decide (c.stop = 2) &&
              (({} : Outline).apply r c).refusal?.any OutlineError.missesLabel := by
    decide +kernel
  obtain ⟨r, hr, hrun⟩ := exists_ok_of_any hrun
  rw [Bool.and_eq_true, Bool.and_eq_true, decide_eq_true_iff, decide_eq_true_iff] at hrun
  obtain ⟨⟨hjump, htarget⟩, hrun⟩ := hrun
  obtain ⟨s, hs, hrun⟩ := exists_ok_of_any hrun
  obtain ⟨a, ha, hrun⟩ := exists_ok_of_any hrun
  obtain ⟨c, hc, hrun⟩ := (Option.any_eq_true _ _).1 hrun
  rw [Bool.and_eq_true, Bool.and_eq_true, decide_eq_true_iff, decide_eq_true_iff] at hrun
  obtain ⟨⟨hstart, hstop⟩, happly⟩ := hrun
  obtain ⟨e, he, hmisses⟩ := (Option.any_eq_true _ _).1 happly
  exact ⟨r, s, c, hr, hs, ⟨0, Nat.zero_le _, Attempt.cut?_eq_some hc ▸ ha⟩, hstart, hstop, hjump,
    htarget, e, Answer.eq_refuse he, hmisses⟩

end Outliner
