import Outliner.Proofs.ExtractedFlow
import Outliner.Proofs.Remapping
import Outliner.Proofs.TrimmedFlow

/-!
# Splitting preserves analyzability

A routine that has a verified data flow is split into two that have a data flow again
(`Outline.exists_flows_of_apply`): in neither does the tracker refuse an instruction, meet stacks of
different depth, or fall off the end.
-/

namespace Outliner

open Outline

section Halves

variable {flow : Flow} (hp : flow.Proper) {c : Cut} {start stop : Nat}
  (h : Chosen flow c start stop)

include hp h

/-- The trimmed routine of a chosen cut has a data flow. -/
theorem Chosen.exists_flow_trimmed (hplain : flow.routine.Subroutineless) {first : Nat}
    (hfirst : FirstReal flow.routine start stop first) {x t : Routine} {seat : Nat → Nat}
    {entry : Nat}
    (hparse : Signature.parse x.descriptor = .ok ⟨c.arguments.map JType.passed, .objectArray⟩)
    (ht : Trimmed flow.routine t start stop (c.inserted x) seat entry) :
    ∃ trimmed, Flow.analyze .flat t = .ok trimmed := by
  obtain ⟨before, exit, floor, hx⟩ := h.crossing
  obtain ⟨form, hfills⟩ := hx.exists_fills hp h.movable x hparse
  exact (Trimmed.expects hp hx h.movable hfirst ht hfills hplain).upheld.exists_flow ht.checked

/-- The extracted routine of a chosen cut has a data flow. -/
theorem Chosen.exists_flow_extracted {x : Routine} {spot : Nat → Nat}
    (hextracted : Extracted flow.routine x c start stop
      (.ofCut c (accessWidths (range flow.routine.code.toList start stop))) spot) :
    ∃ extracted, Flow.analyze .flat x = .ok extracted := by
  obtain ⟨before, exit, floor, hx⟩ := h.crossing
  have htouched (i : Nat) (insn : Instruction) (hlow : start ≤ i) (hhigh : i < stop)
      (hinsn : flow.routine.code[i]? = some insn) (slot : Int) (width : Nat)
      (haccess : insn.slotAccess? = some (slot, width)) :
      (accessWidths (range flow.routine.code.toList start stop)).contains slot :=
    (SlotPlan.accessWidths_spec _).2 insn
      (mem_range_of_getElem? (by simpa using hinsn) hlow hhigh) slot width haccess
  have hplaces := h.places hp.checked hp.analyzed
  obtain ⟨head, tail, hwraps⟩ := hx.exists_wraps hp h.movable hextracted hplaces
    fun _ hslot => hslot.contains hp.checked hp.analyzed
  exact (Extracted.expects hp hx h.movable hextracted hwraps
    (fun _ _ hs hs' => hplaces.slot_inj hs hs') htouched).upheld.exists_flow hextracted.checked

end Halves

/-- **Splitting preserves analyzability.** A canonical routine without subroutines that has a
verified data flow under the flat hierarchy can be split at every cut a survey finds, as long as
there is a real instruction in the range and the values it takes have descriptors. Both halves then
have a data flow. The routine must be one that can be held in memory at all. -/
theorem Outline.exists_flows_of_apply (o : Outline) (hflat : o.hierarchy = .flat) {r : Routine}
    (hmade : r.Made) (hcanonical : r.Canonical) (hplain : r.Subroutineless)
    (hheld : r.size ≤ longestSequence) {flow : Flow} (hflow : Flow.analyze .flat r = .ok flow)
    (hverified : flow.Verified) {minSize maxSize : Int} {s : Survey}
    (hsurvey : o.survey r minSize maxSize = .ok s) {c : Cut} (hcut : s.Yields c)
    (hreal : ∃ (i : Nat) (insn : Instruction), c.start ≤ i ∧ i < c.stop ∧
      r.code[i]? = some insn ∧ insn.isMarker = false)
    (hargs : ∀ t ∈ c.arguments, ∃ u, JType.parse t.descriptor = .ok u) :
    ∃ p, o.apply r c = .ok p ∧ (∃ trimmed, Flow.analyze .flat p.trimmed = .ok trimmed) ∧
      ∃ extracted, Flow.analyze .flat p.extracted = .ok extracted := by
  obtain ⟨flow', hflow', rfl, rfl⟩ := survey_eq_ok hsurvey
  rw [hflat, hflow] at hflow'
  obtain rfl := Except.ok.inj hflow'
  have hsize : (flow.routine.size : Int) ≤ Word.max := by
    unfold longestSequence at hheld
    unfold Word.max
    omega
  have hp : flow.Proper := ⟨hmade.checked, hcanonical, hflow, hverified⟩
  obtain ⟨start, stop, h⟩ := Survey.chosen_of_yields hsize hcut
  obtain ⟨p, happly, hextract, htrim⟩ := h.exists_apply o hmade hcanonical hheld hargs
  have hextracted := h.extracted o hmade hcanonical hsize hargs hextract
  -- the call takes the place of the first real instruction of the range
  obtain ⟨i, insn, hlow, hhigh, hinsn, hmarker⟩ := hreal
  rw [h.start_eq] at hlow
  rw [h.stop_eq hsize] at hhigh
  obtain ⟨first, hfirst⟩ :=
    exists_firstReal (Int.ofNat_le.1 hlow) (Int.ofNat_lt.1 hhigh) hinsn hmarker
  refine ⟨p, happly, ?_, h.exists_flow_extracted hp hextracted⟩
  exact h.exists_flow_trimmed hp hplain hfirst (hextracted.signature ▸ hextracted.parse)
    (h.trimmed hmade hcanonical hsize htrim)

/-- The frames of `guardedSum`. -/
def guardedFrames : List (Option Frame) :=
  let one : SlotMap JType := .ofList [(0, .int)]
  let two : SlotMap JType := .ofList [(0, .int), (1, .int)]
  [some ⟨[], one⟩, some ⟨[], one⟩, some ⟨[.int], one⟩, some ⟨[.int, .int], one⟩, some ⟨[.int], one⟩,
    some ⟨[], two⟩, some ⟨[], two⟩, some ⟨[.int], two⟩, none, some ⟨[.throwable], one⟩,
    some ⟨[.throwable], one⟩, some ⟨[], one⟩, some ⟨[.int], one⟩]

theorem guardedFrames_verified {i : Nat} {f : Frame} {insn : Instruction}
    (hf : guardedFrames[i]? = some (some f))
    (hinsn : guardedSum.code.toList[i]? = some (some insn)) :
    insn.Verified f ∧ insn.ArrayVerified f.stack := by
  have hno {insn : Instruction} {f : Frame} (hstack : insn.StackVerified f.stack)
      (hslot : insn.SlotVerified f) (hfield : insn.FieldVerified)
      (harray : insn.opcode ≠ .arrayLoad .ref) : insn.Verified f ∧ insn.ArrayVerified f.stack :=
    ⟨⟨hstack, hslot, hfield⟩, fun h => absurd h harray⟩
  have hone : Begins [.int] [.int] := ⟨.int, [], rfl, rfl, trivial⟩
  have htwo : Begins [.int, .int] [.int, .int] := ⟨.int, [.int], rfl, rfl, hone⟩
  rcases i with _ | _ | _ | _ | _ | _ | _ | _ | _ | _ | _ | _ | _ | i
  all_goals cases hf
  all_goals cases hinsn
  all_goals first
    | exact hno trivial trivial trivial (by decide)
    | exact hno trivial rfl trivial (by decide)
    | exact hno hone trivial trivial (by decide)
    | exact hno htwo trivial trivial (by decide)
    | exact hno (.single rfl (.zero _)) trivial trivial (by decide)

theorem Outline.exists_flows_of_apply_guardedSum :
    ∃ r flow s c p, Routine.make guardedSum = .ok r ∧ Flow.analyze .flat r = .ok flow ∧
      flow.Verified ∧ ({} : Outline).survey r 3 4 = .ok s ∧ s.Yields c ∧
      ({} : Outline).apply r c = .ok p ∧
      (∃ trimmed, Flow.analyze .flat p.trimmed = .ok trimmed) ∧
      ∃ extracted, Flow.analyze .flat p.extracted = .ok extracted := by
  -- all that can be computed about the example is computed at once
  have hrun : (Routine.make guardedSum).toOption.any fun r =>
      (r.code.all Instruction.isCanonical && r.code.all fun insn =>
        !insn.opcode.isSubroutineCall && decide (insn.opcode ≠ .ret)) &&
      decide (r.size ≤ longestSequence) &&
      (Flow.analyze .flat r).toOption.any fun flow =>
        decide (flow.frames.toList = guardedFrames) &&
        (({} : Outline).survey r 3 4).toOption.any fun s =>
          (s.attemptAt 0 : Answer Empty Attempt).toOption.any fun a => a.cut?.any fun c =>
            decide (c.start = 0 ∧ c.stop = 4) &&
            c.arguments.all fun t => (JType.parse t.descriptor).toOption.any fun _ => true := by
    decide +kernel
  obtain ⟨r, hr, hrun⟩ := exists_ok_of_any hrun
  rw [Bool.and_eq_true, Bool.and_eq_true, Bool.and_eq_true, decide_eq_true_iff, Array.all_eq_true',
    Array.all_eq_true'] at hrun
  obtain ⟨⟨⟨hcanonical, hplain⟩, hheld⟩, hrun⟩ := hrun
  obtain ⟨flow, hflow, hrun⟩ := exists_ok_of_any hrun
  rw [Bool.and_eq_true, decide_eq_true_iff] at hrun
  obtain ⟨hframes, hrun⟩ := hrun
  obtain ⟨s, hs, hrun⟩ := exists_ok_of_any hrun
  obtain ⟨a, ha, hrun⟩ := exists_ok_of_any hrun
  obtain ⟨c, hc, hrun⟩ := (Option.any_eq_true _ _).1 hrun
  rw [Bool.and_eq_true, decide_eq_true_iff] at hrun
  obtain ⟨⟨hstart, hstop⟩, hrun⟩ := hrun
  have hcode := (Routine.make_ok hr).2.1
  have hroutine := (Flow.analyze_onward (Routine.make_ok hr).1 hflow).1
  -- the frames are those written out above, for which it has been checked
  have hverified : flow.Verified := by
    intro i f insn hf hinsn
    refine guardedFrames_verified (i := i) ?_ ?_
    · rw [Flow.frame?_natCast] at hf
      rw [← hframes]
      simpa using hf
    · rw [hroutine] at hinsn
      rw [hcode]
      simpa using hinsn
  have hyields : s.Yields c := ⟨0, Nat.zero_le _, Attempt.cut?_eq_some hc ▸ ha⟩
  have hload : r.code[1]? = some (.slot (.load .int) 0) := by
    have hget : (r.code.toList.map some)[1]? = some (some (.slot (.load .int) 0)) := by
      rw [← hcode]
      rfl
    simpa using hget
  have hreal : ∃ (i : Nat) (insn : Instruction), c.start ≤ i ∧ i < c.stop ∧
      r.code[i]? = some insn ∧ insn.isMarker = false :=
    ⟨1, _, by rw [hstart]; decide, by rw [hstop]; decide, hload, rfl⟩
  have hargs : ∀ t ∈ c.arguments, ∃ u, JType.parse t.descriptor = .ok u := fun t ht =>
    (exists_ok_of_any (List.all_eq_true.1 hrun t ht)).imp fun _ => And.left
  obtain ⟨p, hall⟩ := Outline.exists_flows_of_apply {} rfl ⟨_, hr⟩ hcanonical
    (fun insn hinsn => by simpa using hplain insn hinsn) hheld hflow hverified hs hyields
    hreal hargs
  exact ⟨r, flow, s, c, p, hr, hflow, hverified, hs, hyields, hall⟩

end Outliner
