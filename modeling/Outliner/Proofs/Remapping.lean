import Mathlib.Data.List.Nodup
import Outliner.Proofs.Checking
import Outliner.Proofs.Halves
import Outliner.Proofs.Handover
import Outliner.Proofs.Placement
import Outliner.Proofs.Rework
import Outliner.Proofs.Sparing

/-!
# Locals of an extracted routine do not overlap

The instructions of a range are moved with their slots renamed. A slot can hold values of different
sizes in the course of the range: what it comes in with, what the range stores there, and what is
written back at the end (`SlotPlan.need`). The theorem `Outline.extract_keeps_locals_apart` says
that each slot has a place that is large enough for all of them, and that these places overlap
neither each other nor the arguments that have not been moved away yet.

The plan is made from the widths of the accesses and the sizes of the arguments. That the values
written back fit as well is a fact about the data flow: a wide value that is in a written slot at
the end of the range was stored there by the range, or it has been there from the start
(`Crossing.wide_exit`), and then the slot is among those that are read, since a path around the
write leads through the range.
-/

namespace Outliner

open Outline

/-! ### Wide values -/

namespace JType

theorem size_ofClassName (name : String) : (ofClassName name).size = 1 := by
  unfold ofClassName
  split <;> rfl

theorem size_of_isMergeable {t : JType} (h : t.isMergeable) : t.size = 1 := by
  cases t <;> first | rfl | cases h

/-- Only a wide type merges into a wide type, and only with itself. -/
theorem eq_of_merge_wide {H : Hierarchy} {a b : JType} (h : (a.merge H b).size = 2) :
    a = b ∧ a.merge H b = b := by
  unfold merge at h ⊢
  split
  · next heq => exact ⟨heq, heq⟩
  · next hne =>
    rw [if_neg hne] at h
    split at h
    · cases h
    · next hmergeable =>
      simp only [Bool.not_eq_true', Bool.or_eq_true, not_or, Bool.not_eq_false] at hmergeable
      split at h
      · rw [size_of_isMergeable hmergeable.2] at h
        cases h
      · split at h
        · rw [size_of_isMergeable hmergeable.1] at h
          cases h
        · rw [size_ofClassName] at h
          cases h

end JType

namespace Frame

/-- Where `f` has a wide value, `g` has the same. -/
def WideWithin (f g : Frame) : Prop :=
  ∀ slot, (f.slot slot).size = 2 → g.slot slot = f.slot slot

/-- Merging makes no wide values, whatever the hierarchy. -/
theorem lasts_wideWithin (H : Hierarchy) : Lasts H WideWithin where
  refl f slot _ := rfl
  merged hm slot hwide := by
    obtain ⟨-, -, hslot, -⟩ := merge_eq_ok hm
    rw [hslot] at hwide ⊢
    exact (JType.eq_of_merge_wide hwide).2.symm
  kept hk hm slot hwide := by
    obtain ⟨-, -, hslot, -⟩ := merge_eq_ok hm
    rw [hslot] at hwide ⊢
    obtain ⟨heq, hmerge⟩ := JType.eq_of_merge_wide hwide
    rw [hmerge, ← heq] at hwide ⊢
    exact hk slot hwide

end Frame

/-- Where a wide value in a slot comes from: it has been there, and the slot is not written, or it
has just been stored. -/
theorem Tracker.Does.wide {owner : String} {offset : Int} {insn : Instruction} {f after : Frame}
    {e : Effect} (h : Does owner offset insn f after e) {slot : Int}
    (hwide : (after.slot slot).size = 2) :
    (f.slot slot = after.slot slot ∧ ∀ a ∈ e.writes, a.slot ≠ slot) ∨
      insn.slotAccess? = some (slot, 2) := by
  -- a wide slot has not been cleared by a neighbour
  have hset {g : Frame} {index : Int} {t : JType}
      (hwide : ((g.setSlot index t).slot slot).size = 2) :
      (g.setSlot index t).slot slot = if slot = index then t else g.slot slot := by
    refine (Frame.slot_setSlot_or g index t slot).resolve_right fun htop => ?_
    rw [htop] at hwide
    cases hwide
  cases h with
  | stack _ _ writes _ _ reworks =>
    refine .inl ⟨?_, by simp [writes]⟩
    rcases reworks.slot slot with hslot | ⟨name, site, -, -, hslot⟩
    · exact hslot.symm
    · rw [hslot, initialized, JType.size_ofClassName] at hwide
      cases hwide
  | load _ _ _ _ writes => exact .inl ⟨rfl, by simp [writes]⟩
  -- a wide value is stored as one, so the access is wide
  | @store kind index t ts _ insn_eq holds _ _ _ writes =>
    have hslot := hset hwide
    by_cases heq : slot = index
    · rw [hslot, if_pos heq, (SlotKind.holds_usable holds).2] at hwide
      right
      rw [insn_eq, heq, ← hwide]
      rfl
    · rw [if_neg heq] at hslot
      exact .inl ⟨hslot.symm, by simpa [writes] using Ne.symm heq⟩
  | @increment index _ _ _ _ _ _ writes =>
    have hslot := hset hwide
    by_cases heq : slot = index
    · rw [hslot, if_pos heq] at hwide
      cases hwide
    · rw [if_neg heq] at hslot
      exact .inl ⟨hslot.symm, by simpa [writes] using Ne.symm heq⟩
  | ret _ _ _ writes => exact .inl ⟨rfl, by simp [writes]⟩

section Range

variable {flow : Flow} {H : Hierarchy} (hr : flow.routine.Checked)
  (hcanonical : flow.routine.Canonical) (hflow : Flow.analyze H flow.routine = .ok flow)
  (hverified : flow.Verified) {c : Cut} {start stop floor : Nat} {before exit : Frame}
  (hx : Crossing flow c start stop before exit floor) (hm : Movable flow.routine start stop)
  {slot : Int} (hnarrow : ∀ i insn, start ≤ i → i < stop → flow.routine.code[i]? = some insn →
    insn.slotAccess? ≠ some (slot, 2))

include hr hcanonical hflow hverified hx hm hnarrow

/-- **A wide value in a slot that the range accesses as a narrow one has been there from the
start.** If the range has no jumps, it has not been written so far. -/
theorem Crossing.wide_before {i : Nat} {f : Frame} (hf : flow.frame? i = some (some f))
    (hlow : start ≤ i) (hhigh : i < stop) (hwide : (f.slot slot).size = 2) :
    before.slot slot = f.slot slot ∧
      ((∀ (j : Nat) (insn : Instruction), start ≤ j → j < stop →
          flow.routine.code[j]? = some insn → insn.targets = []) →
        ∀ j, start ≤ j → j < i → ∀ a ∈ (flow.effect j).writes, a.slot ≠ slot) := by
  have hstart {f : Frame} (hf : flow.frame? start = some (some f)) : before = f :=
    Option.some.inj (Option.some.inj (hx.before_eq.symm.trans hf))
  refine Flow.settled_induction (Frame.lasts_wideWithin H) hr hflow
    (P := fun i f => flow.frame? i = some (some f) → start ≤ i → i < stop →
      (f.slot slot).size = 2 → before.slot slot = f.slot slot ∧
        ((∀ (j : Nat) (insn : Instruction), start ≤ j → j < stop →
            flow.routine.code[j]? = some insn → insn.targets = []) →
          ∀ j, start ≤ j → j < i → ∀ a ∈ (flow.effect j).writes, a.slot ≠ slot))
    (fun f _ hf hlow _ _ => ?_)
    (fun i j f f' after g insn hf hinsn hexec ih hd hf' hwithin _ hlow hhigh hwide => ?_)
    i f hf hf hlow hhigh hwide
  · obtain rfl : start = 0 := by omega
    exact ⟨by rw [hstart hf], fun _ j _ hj => absurd hj (Nat.not_lt_zero j)⟩
  · rcases Nat.eq_or_lt_of_le hlow with rfl | hlt
    · exact ⟨by rw [hstart hf'], fun _ j hj hj' => absurd hj' (by omega)⟩
    obtain ⟨hlow', hhigh'⟩ := hm.source_mem hcanonical hinsn hd hlt hhigh
    have hdoes := Tracker.does_of_execute (hcanonical insn (Array.mem_of_getElem? hinsn))
      (hverified i f insn hf hinsn).1 hexec
    -- what arrives at the offset is what the instruction leaves
    obtain ⟨rfl, hnext⟩ : g = after ∧ (insn.targets = [] → j = i + 1) := by
      cases hd with
      | next => exact ⟨rfl, fun _ => rfl⟩
      | target mem =>
        refine ⟨rfl, fun hnone => ?_⟩
        rw [Routine.targetOffsets, hnone] at mem
        cases mem
      | handler mem contains =>
        have := hm.handler _ mem (Region.isEmpty_of_contains contains)
        omega
      | resume calls =>
        rw [(hm.plain hcanonical hinsn hlow' hhigh').1] at calls
        cases calls
    have hg := hwithin slot hwide
    obtain ⟨hsame, hunwritten⟩ := (hdoes.wide (hg ▸ hwide)).resolve_right
      (hnarrow i insn hlow' hhigh' hinsn)
    rw [← hg, ← hsame]
    obtain ⟨hbefore, hearlier⟩ := ih hf hlow' hhigh' (by rw [hsame, hg]; exact hwide)
    refine ⟨hbefore, fun hstraight k hk hkj a ha => ?_⟩
    rw [hnext (hstraight i insn hlow' hhigh' hinsn)] at hkj
    rcases Nat.eq_or_lt_of_le (Nat.le_of_lt_succ hkj) with rfl | hlt'
    · exact hunwritten a ha
    · exact hearlier hstraight k hk hlt' a ha

/-- **A wide value written back from a slot that the range accesses as a narrow one is read.** -/
theorem Crossing.wide_exit {t : JType} (ht : c.written.get? slot = some t) (hwide : t.size = 2) :
    c.read.get? slot = some t := by
  obtain ⟨rfl, hdefinite, hwrites⟩ := hx.written_eq slot t ht
  have hlt := hm.lt
  obtain ⟨insn, f, effect, hinsn, hf, hexec⟩ := Flow.frameAfter_eq_ok hx.after_eq
  rw [show ((stop : Int) - 1) = ((stop - 1 : Nat) : Int) by omega] at hf hinsn hexec
  obtain ⟨insn', after, hinsn', hexec'⟩ := Flow.executed hr hflow hf
  obtain rfl := Option.some.inj (hinsn.symm.trans hinsn')
  obtain ⟨rfl, -⟩ := Prod.mk.inj (hexec.symm.trans hexec')
  have hdoes := Tracker.does_of_execute (hcanonical insn (Array.mem_of_getElem? hinsn))
    (hverified _ f insn hf hinsn).1 hexec'
  obtain ⟨hsame, hunwritten⟩ := (hdoes.wide hwide).resolve_right
    (hnarrow (stop - 1) insn (by omega) (by omega) hinsn)
  obtain ⟨hbefore, hearlier⟩ := hx.wide_before hr hcanonical hflow hverified hm hnarrow hf
    (by omega) (by omega) (hsame.symm ▸ hwide)
  rw [← hsame, ← hbefore] at hdefinite ⊢
  rcases hx.straight with hstraight | hread
  · -- the slot would not be written at all
    obtain ⟨i, hlow, hhigh, -, a, ha, heq⟩ := hwrites
    rcases Nat.eq_or_lt_of_le (Nat.le_sub_one_of_lt hhigh) with rfl | hlt'
    · exact absurd heq (hunwritten a ha)
    · exact absurd heq (hearlier hstraight i hlow hlt' a ha)
  · exact hread slot hwrites hdefinite

end Range

/-! ### Widths -/

namespace SlotPlan

/-- The widest access of instructions to a slot. -/
def widestAccess (insns : List Instruction) (slot : Int) : Nat :=
  (insns.filterMap Instruction.slotAccess?).foldr
    (fun access n => if access.1 = slot then max access.2 n else n) 0

theorem le_widestAccess {insns : List Instruction} {insn : Instruction} (hmem : insn ∈ insns)
    {slot : Int} {width : Nat} (h : insn.slotAccess? = some (slot, width)) :
    width ≤ widestAccess insns slot := by
  have hmem' : (slot, width) ∈ insns.filterMap Instruction.slotAccess? :=
    List.mem_filterMap.2 ⟨insn, hmem, h⟩
  unfold widestAccess
  generalize insns.filterMap Instruction.slotAccess? = accesses at hmem'
  induction accesses with
  | nil => cases hmem'
  | cons access rest ih =>
    rw [List.foldr_cons]
    rcases List.mem_cons.1 hmem' with rfl | hrest
    · rw [if_pos rfl]
      exact Nat.le_max_left _ _
    · split
      · exact Nat.le_trans (ih hrest) (Nat.le_max_right _ _)
      · exact ih hrest

theorem getD_widen (widths : SlotMap Nat) (insn : Instruction) (slot : Int) :
    ((widen widths insn).get? slot).getD 0 =
      max ((widths.get? slot).getD 0) (widestAccess [insn] slot) := by
  unfold widen widestAccess
  cases haccess : insn.slotAccess? with
  | none => simp [haccess]
  | some access =>
    obtain ⟨index, width⟩ := access
    simp only [List.filterMap_cons, haccess, List.filterMap_nil, List.foldr_cons, List.foldr_nil]
    by_cases heq : index = slot
    · subst heq
      split
      · rw [SlotMap.get?_insert, if_pos rfl, Option.getD_some, if_pos rfl]
        omega
      · rw [if_pos rfl]
        omega
    · rw [if_neg heq, Nat.max_zero]
      split
      · rw [SlotMap.get?_insert, if_neg heq]
      · rfl

/-- The plan is made from the widest access to each slot. -/
theorem getD_accessWidths (insns : List Instruction) (slot : Int) :
    ((accessWidths insns).get? slot).getD 0 = widestAccess insns slot := by
  have hfold (widths : SlotMap Nat) : ((insns.foldl widen widths).get? slot).getD 0 =
      max ((widths.get? slot).getD 0) (widestAccess insns slot) := by
    induction insns generalizing widths with
    | nil => exact (Nat.max_zero _).symm
    | cons insn rest ih =>
      rw [List.foldl_cons, ih, getD_widen, Nat.max_assoc]
      congr 1
      unfold widestAccess
      cases haccess : insn.slotAccess? with
      | none => simp [haccess]
      | some access =>
        simp only [List.filterMap_cons, haccess, List.filterMap_nil, List.foldr_cons,
          List.foldr_nil]
        split <;> simp
  exact (hfold .empty).trans (Nat.zero_max _)

/-- The size of the value that a table has for a slot. -/
def sizeAt (table : SlotMap JType) (slot : Int) : Nat :=
  ((table.get? slot).map JType.size).getD 0

/-- **The number of slots that the local in a slot needs**: those of the widest access of the
instructions to it, and those of the values it comes in and goes out with. -/
def need (c : Cut) (insns : List Instruction) (slot : Int) : Nat :=
  max (widestAccess insns slot) (max (sizeAt c.read slot) (sizeAt c.written slot))

/-- Two intervals of slots do not meet. Each is given by its first slot and its length. -/
def Clear (k n k' n' : Nat) : Prop := k + n ≤ k' ∨ k' + n' ≤ k

theorem Clear.mono {k n m k' n' m' : Nat} (h : Clear k n k' n') (hm : m ≤ n) (hm' : m' ≤ n') :
    Clear k m k' m' := by
  unfold Clear at *
  omega

end SlotPlan

/-- The slot in which an argument of the extracted routine arrives, which is static: after the
arguments before it. -/
def Cut.parameterSlot (c : Cut) (i : Nat) : Nat := JType.sizeOfAll (c.arguments.take i)

/-- Of two arguments the later one arrives behind the earlier. -/
theorem Cut.parameterSlot_add_le (c : Cut) {i j : Nat} {t : JType} (ht : c.arguments[i]? = some t)
    (hij : i < j) : c.parameterSlot i + t.size ≤ c.parameterSlot j := by
  unfold parameterSlot
  generalize c.arguments = args at ht
  induction args generalizing i j with
  | nil => cases ht
  | cons u rest ih =>
    obtain ⟨j, rfl⟩ := Nat.exists_eq_add_one_of_ne_zero (Nat.ne_zero_of_lt hij)
    cases i with
    | zero =>
      obtain rfl : u = t := by simpa using ht
      simp only [List.take_zero, List.take_succ_cons, JType.sizeOfAll, List.foldr_nil,
        List.foldr_cons]
      omega
    | succ i =>
      have hrest := ih (Nat.lt_of_succ_lt_succ hij) ht
      simp only [List.take_succ_cons, JType.sizeOfAll, List.foldr_cons] at hrest ⊢
      omega

namespace SlotPlan

/-- **The places of the plan overlap neither each other nor arguments.** There is one for each slot
that the instructions access or that is written back, and it is large enough. -/
structure KeepsApart (c : Cut) (insns : List Instruction) (p : SlotPlan) : Prop where
  accessed : ∀ insn ∈ insns, ∀ s w, insn.slotAccess? = some (s, w) → p.remap.contains s
  written : ∀ s, c.written.contains s → p.remap.contains s
  apart : ∀ s s' k k', p.remap.get? s = some k → p.remap.get? s' = some k' → s ≠ s' →
    Clear k (need c insns s) k' (need c insns s')
  consumed : ∀ (i : Nat) (t : JType), c.consumed[i]? = some t →
    ∀ s k, p.remap.get? s = some k → Clear k (need c insns s) (c.parameterSlot i) t.size
  read : ∀ (i : Nat) (s' : Int) (t : JType), c.read.toList[i]? = some (s', t) →
    ∀ s k, p.remap.get? s = some k → s ≠ s' →
      Clear k (need c insns s) (c.parameterSlot (c.consumed.length + i)) t.size

/-- **The extracted routine has room for the places of the plan.** An argument that arrives in too
little room is moved to its place before the instructions; all that stands before them are loads and
stores of other arguments to their own places. -/
structure Houses (c : Cut) (insns : List Instruction) (p : SlotPlan) (x : Routine) : Prop where
  within : ∀ s k, p.remap.get? s = some k → ((k + need c insns s : Nat) : Int) ≤ x.maxLocals
  copied : ∀ (i : Nat) (s : Int) (t : JType), c.read.toList[i]? = some (s, t) →
    t.size < need c insns s → ∃ k pre post, p.remap.get? s = some k ∧
      x.code.toList = pre ++
        [Snippet.load t (c.parameterSlot (c.consumed.length + i) : Nat),
          Snippet.store t (k : Nat)] ++ post ++ insns.filterMap (moved p) ++ epilogue c p ∧
      ∀ insn ∈ pre ++ post, (∃ u a, insn = Snippet.load u a) ∨
        ∃ s' u k', s' ≠ s ∧ p.remap.get? s' = some k' ∧ insn = Snippet.store u (k' : Nat)

/-! ### What the promises of the plan come to -/

namespace Places

variable {c : Cut} {insns : List Instruction} {p : SlotPlan}
  (h : Places c (accessWidths insns) p)
  (hneed : ∀ s, need c insns s ≤ room c (accessWidths insns) s)

include h hneed

/-- A place does not meet an argument, unless it is the place where that argument arrives. -/
theorem clear_parameter {i : Nat} {t : JType} (ht : c.arguments[i]? = some t) {s : Int} {k : Nat}
    (hk : p.remap.get? s = some k)
    (hother : ∀ n u, c.read.toList[n]? = some (s, u) → c.consumed.length + n ≠ i) :
    Clear k (need c insns s) (c.parameterSlot i) t.size := by
  have hlt := (List.getElem?_eq_some_iff.1 ht).1
  have ha := getElem?_arrivals (n := 0) hlt
  rw [Nat.zero_add] at ha
  rcases h.fresh s k hk with hend | ⟨n, u, hn, hn', hroom⟩
  · exact .inr (Nat.le_trans (arrivals_bounds ha ht).2 hend)
  · have hne := hother n u hn
    have hu : c.arguments[c.consumed.length + n]? = some u := by
      rw [c.getElem?_arguments, hn]
      rfl
    have hlt' := (List.getElem?_eq_some_iff.1 hu).1
    rw [getElem?_arrivals hlt', Nat.zero_add] at hn'
    obtain rfl := Option.some.inj hn'
    have hsize := hneed s
    rw [hroom] at hsize
    rcases Nat.lt_or_gt_of_ne hne with hlt | hgt
    · exact .inl (Nat.le_trans (Nat.add_le_add_left hsize _) (c.parameterSlot_add_le hu hlt))
    · exact .inr (c.parameterSlot_add_le ht hgt)

/-- **The places of a plan that keeps its promises overlap neither each other nor arguments.** -/
theorem keepsApart (hwritten : ∀ s, c.written.contains s → (accessWidths insns).contains s) :
    KeepsApart c insns p where
  accessed insn hmem s w hs := h.touched s ((accessWidths_spec insns).2 insn hmem s w hs)
  written s hs := h.touched s (hwritten s hs)
  apart s s' k k' hk hk' hne := Clear.mono (h.apart s s' k k' hk hk' hne) (hneed s) (hneed s')
  consumed i t ht s k hk := by
    have hlt := (List.getElem?_eq_some_iff.1 ht).1
    refine h.clear_parameter hneed (t := t) ?_ hk fun n u _ => by omega
    rw [Cut.arguments, List.getElem?_append_left hlt]
    exact ht
  read i s' t ht s k hk hne := by
    refine h.clear_parameter hneed (t := t) ?_ hk fun n u hn heq => hne ?_
    · rw [c.getElem?_arguments, ht]
      rfl
    · obtain rfl : n = i := by omega
      exact (Prod.mk.inj (Option.some.inj (hn.symm.trans ht))).1

omit hneed in
/-- An argument that arrives in too little room is moved. -/
theorem mem_copies {i : Nat} {s : Int} {t : JType} (ht : c.read.toList[i]? = some (s, t))
    (hsize : 1 ≤ t.size) (hnarrow : t.size < room c (accessWidths insns) s) :
    ∃ k, p.remap.get? s = some k ∧
      (t, c.parameterSlot (c.consumed.length + i), k) ∈ p.copies := by
  have harg : c.arguments[c.consumed.length + i]? = some t := by
    rw [c.getElem?_arguments, ht]
    rfl
  have hlt := (List.getElem?_eq_some_iff.1 harg).1
  have ha := getElem?_arrivals (n := 0) hlt
  rw [Nat.zero_add] at ha
  obtain ⟨k, hk, hplace⟩ := h.settles i s t _ ht ha
  refine ⟨k, hk, hplace.resolve_left ?_⟩
  rintro rfl
  rcases h.fresh s _ hk with hend | ⟨n, u, hn, -, hroom⟩
  · have := (arrivals_bounds ha harg).2
    unfold argumentsEnd at hend
    omega
  · -- the room is that of the argument
    have hu := (SlotMap.mem_entries_iff c.read s u).1 (List.mem_of_getElem? hn)
    have ht' := (SlotMap.mem_entries_iff c.read s t).1 (List.mem_of_getElem? ht)
    obtain rfl := Option.some.inj (hu.symm.trans ht')
    omega

/-- **A routine that starts with the prologue of the plan has room for its places.** -/
theorem houses (hsize : ∀ e ∈ c.read.toList, 1 ≤ e.2.size) {x : Routine}
    (hlocals : (p.next : Int) ≤ x.maxLocals)
    (hcode : x.code.toList = prologue c p ++ insns.filterMap (moved p) ++ epilogue c p) :
    Houses c insns p x where
  within s k hk := by
    have := h.within s k hk
    have := hneed s
    omega
  copied i s t ht hnarrow := by
    obtain ⟨k, hk, hcopy⟩ := h.mem_copies ht (hsize _ (List.mem_of_getElem? ht))
      (Nat.lt_of_lt_of_le hnarrow (hneed s))
    obtain ⟨earlier, later, hcopies⟩ := List.append_of_mem hcopy
    -- the other copies go to other places
    have hothers (e : JType × Nat × Nat) (he : e ∈ earlier ++ later) (insn : Instruction)
        (hinsn : insn ∈ [Snippet.load e.1 (e.2.1 : Nat), Snippet.store e.1 (e.2.2 : Nat)]) :
        (∃ u a, insn = Snippet.load u a) ∨
          ∃ s' u k', s' ≠ s ∧ p.remap.get? s' = some k' ∧ insn = Snippet.store u (k' : Nat) := by
      rcases List.mem_cons.1 hinsn with rfl | hinsn
      · exact .inl ⟨_, _, rfl⟩
      · obtain rfl := List.mem_singleton.1 hinsn
        have hmem : e ∈ p.copies := by
          rw [hcopies]
          rcases List.mem_append.1 he with he | he
          · exact List.mem_append_left _ he
          · exact List.mem_append_right _ (List.mem_cons_of_mem _ he)
        obtain ⟨-, n, s', -, -, hplace⟩ := h.copies e hmem
        refine .inr ⟨s', e.1, e.2.2, ?_, hplace, rfl⟩
        rintro rfl
        obtain heq : k = e.2.2 := Option.some.inj (hk.symm.trans hplace)
        have hnodup := h.nodup
        rw [hcopies, List.map_append, List.map_cons, List.nodup_middle, List.nodup_cons] at hnodup
        refine hnodup.1 ?_
        rw [← List.map_append]
        exact List.mem_map.2 ⟨e, he, heq.symm⟩
    refine ⟨k, earlier.flatMap fun e => [Snippet.load e.1 e.2.1, Snippet.store e.1 e.2.2],
      (later.flatMap fun e => [Snippet.load e.1 e.2.1, Snippet.store e.1 e.2.2]) ++
        (c.consumed.zip (arrivals 0 c.consumed).1).map fun e => Snippet.load e.1 e.2, hk, ?_,
      fun insn hinsn => ?_⟩
    · rw [hcode, prologue, hcopies]
      simp
    · rw [← List.append_assoc, ← List.flatMap_append] at hinsn
      rcases List.mem_append.1 hinsn with hinsn | hinsn
      · obtain ⟨e, he, hinsn⟩ := List.mem_flatMap.1 hinsn
        exact hothers e he insn hinsn
      · obtain ⟨e, -, rfl⟩ := List.mem_map.1 hinsn
        exact .inl ⟨_, _, rfl⟩

end Places

end SlotPlan

/-! ### The plan of a chosen cut -/

/-- The plan knows every slot that the range writes. -/
theorem Flow.Writes.contains {flow : Flow} {H : Hierarchy} {start stop : Nat} {slot : Int}
    (h : flow.Writes start stop slot) (hr : flow.routine.Checked)
    (hflow : Flow.analyze H flow.routine = .ok flow) :
    (accessWidths (range flow.routine.code.toList start stop)).contains slot := by
  obtain ⟨i, hlow, hhigh, hreach, a, ha, rfl⟩ := h
  obtain ⟨f, hf⟩ := Flow.reachable_iff.1 hreach
  obtain ⟨insn, after, hinsn, hexec⟩ := Flow.executed hr hflow hf
  obtain ⟨width, haccess⟩ := Tracker.slotAccess?_of_mem_writes hexec ha
  exact (SlotPlan.accessWidths_spec _).2 insn
    (mem_range_of_getElem? (by simpa using hinsn) hlow hhigh) a.slot width haccess

namespace Chosen

variable {flow : Flow} {c : Cut} {start stop : Nat} (h : Chosen flow c start stop) {H : Hierarchy}
  (hr : flow.routine.Checked) (hflow : Flow.analyze H flow.routine = .ok flow)

include h hr hflow

/-- The plan of a chosen cut keeps its promises. -/
theorem places : SlotPlan.Places c (accessWidths (range flow.routine.code.toList start stop))
    (.ofCut c (accessWidths (range flow.routine.code.toList start stop))) := by
  obtain ⟨before, exit, floor, hx⟩ := h.crossing
  refine SlotPlan.places_ofCut (SlotPlan.accessWidths_spec _).1 (fun e he => ?_) fun e he =>
    (hx.written_eq e.1 e.2 ((SlotMap.mem_entries_iff c.written e.1 e.2).1 he)).2.2.contains hr hflow
  have hdefinite := (hx.read_eq e.1 e.2 ((SlotMap.mem_entries_iff c.read e.1 e.2).1 he)).2
  have := Form.size_of_isDefinite hdefinite
  omega

/-- **The room for a slot is enough for the value that is written back.** -/
theorem need_le_room (hcanonical : flow.routine.Canonical) (hverified : flow.Verified)
    (slot : Int) :
    SlotPlan.need c (range flow.routine.code.toList start stop) slot ≤
      SlotPlan.room c (accessWidths (range flow.routine.code.toList start stop)) slot := by
  obtain ⟨before, exit, floor, hx⟩ := h.crossing
  have hwidest := SlotPlan.getD_accessWidths (range flow.routine.code.toList start stop) slot
  suffices hwritten : SlotPlan.sizeAt c.written slot ≤
      SlotPlan.room c (accessWidths (range flow.routine.code.toList start stop)) slot by
    unfold SlotPlan.need
    rw [← hwidest]
    have hread : SlotPlan.sizeAt c.read slot ≤
        SlotPlan.room c (accessWidths (range flow.routine.code.toList start stop)) slot :=
      Nat.le_max_right _ _
    have hwidth : ((accessWidths (range flow.routine.code.toList start stop)).get? slot).getD 0 ≤
        SlotPlan.room c (accessWidths (range flow.routine.code.toList start stop)) slot :=
      Nat.le_max_left _ _
    omega
  cases ht : c.written.get? slot with
  | none =>
    rw [SlotPlan.sizeAt, ht]
    exact Nat.zero_le _
  | some t =>
    rw [SlotPlan.sizeAt, ht]
    change t.size ≤ _
    obtain ⟨-, hdefinite, hwrites⟩ := hx.written_eq slot t ht
    rcases Form.size_of_isDefinite hdefinite with hone | htwo
    · rw [hone]
      exact (h.places hr hflow).room_pos slot (.inl (hwrites.contains hr hflow))
    · rw [htwo]
      by_cases hwide : ∃ insn ∈ range flow.routine.code.toList start stop,
          insn.slotAccess? = some (slot, 2)
      · obtain ⟨insn, hmem, haccess⟩ := hwide
        have := SlotPlan.le_widestAccess hmem haccess
        rw [← hwidest] at this
        exact Nat.le_trans this (Nat.le_max_left _ _)
      · -- the range accesses the slot as a narrow one
        have hread := hx.wide_exit hr hcanonical hflow hverified h.movable
          (fun i insn hlow hhigh hinsn haccess =>
            hwide ⟨insn, mem_range_of_getElem? (by simpa using hinsn) hlow hhigh, haccess⟩) ht htwo
        refine Nat.le_trans (Nat.le_of_eq ?_) (Nat.le_max_right _ _)
        rw [hread]
        exact htwo.symm

end Chosen

/-- Adds the second parameter to the first, for which the first becomes a `long` in the meantime and
covers the slot of the second. -/
def widening : RoutineParts where
  owner := "Wide"
  name := "add"
  descriptor := "(II)I"
  access := .static
  code := #[some (.slot (.load .int) 1), some (.slot (.load .int) 0), some (.plain (.convert .i2l)),
    some (.slot (.store .long) 0), some (.slot (.load .long) 0), some (.plain (.convert .l2i)),
    some (.plain (.arith .add .int)), some (.plain (.returnValue .int))]
  blocks := []
  maxLocals := 2
  maxStack := 3

end Outliner
