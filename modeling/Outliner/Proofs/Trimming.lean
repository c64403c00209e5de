import Outliner.Proofs.Descriptors
import Outliner.Proofs.Ranges
import Outliner.Proofs.Slots
import Outliner.Proofs.Splice

/-!
# The trimmed routine

Splitting a routine at a cut that a survey found succeeds, and what is left of the routine is wired
as before: the instructions that stay keep their order, their targets and the protected blocks they
lie in, and the call with what follows it lies in the blocks that the range lay in.

Both halves rest on `Movable`. No jump crosses the boundary of the range, so each target is still
there in the half that refers to it. No block that is not empty begins, ends or is handled inside
the range, so its bounds keep their order with respect to all that stays.
-/

namespace Outliner

open Routine Outline

/-! ### Code without labels -/

/-- Code that neither places a label nor refers to one. -/
def Inline (code : List Instruction) : Prop :=
  ∀ insn ∈ code, insn.placed? = none ∧ insn.targets = []

namespace Inline

theorem nil : Inline [] := by simp [Inline]

theorem cons {insn : Instruction} {code : List Instruction} (hplaced : insn.placed? = none)
    (htargets : insn.targets = []) (h : Inline code) : Inline (insn :: code) := by
  intro insn' hmem
  rcases List.mem_cons.1 hmem with rfl | hmem
  · exact ⟨hplaced, htargets⟩
  · exact h insn' hmem

theorem append {code code' : List Instruction} (h : Inline code) (h' : Inline code') :
    Inline (code ++ code') := fun insn hmem =>
  (List.mem_append.1 hmem).elim (h insn) (h' insn)

theorem flatMap {α : Type} {l : List α} {f : α → List Instruction} (h : ∀ a ∈ l, Inline (f a)) :
    Inline (l.flatMap f) := by
  intro insn hmem
  obtain ⟨a, ha, hinsn⟩ := List.mem_flatMap.1 hmem
  exact h a ha insn hinsn

theorem placedIds_eq {code : List Instruction} (h : Inline code) : placedIds code = [] :=
  List.filterMap_eq_nil_iff.2 fun insn hmem => by rw [(h insn hmem).1]; rfl

theorem pushInt (v : Int32) : Inline [Snippet.pushInt v] := by
  unfold Snippet.pushInt
  repeat' split
  all_goals exact .cons rfl rfl .nil

theorem box (t : JType) : Inline (Snippet.box t) := by
  unfold Snippet.box
  split
  · exact .cons rfl rfl .nil
  · exact .nil

theorem unbox (t : JType) : Inline (Snippet.unbox t) := by
  unfold Snippet.unbox
  split
  · exact .cons rfl rfl (.cons rfl rfl .nil)
  · split
    · exact .nil
    · exact .cons rfl rfl .nil

theorem fetch (index : Nat) (t : JType) : Inline (Outline.fetch index t) :=
  ((pushInt _).append (.cons rfl rfl .nil)).append (unbox t)

theorem prologue (c : Cut) (p : SlotPlan) : Inline (Outline.prologue c p) := by
  refine .append (.flatMap fun e _ => .cons rfl rfl (.cons rfl rfl .nil)) fun insn hmem => ?_
  obtain ⟨e, -, rfl⟩ := List.mem_map.1 hmem
  exact ⟨rfl, rfl⟩

theorem packProduced (index : Nat) (t : JType) : Inline (Outline.packProduced index t) := by
  refine .append (.append ?_ (box t)) ((pushInt _).append (.cons rfl rfl (.cons rfl rfl .nil)))
  split
  · exact .cons rfl rfl (.cons rfl rfl (.cons rfl rfl .nil))
  · exact .cons rfl rfl (.cons rfl rfl .nil)

theorem packWritten (index : Nat) (t : JType) (slot : Int) :
    Inline (Outline.packWritten index t slot) :=
  .append (.append (.cons rfl rfl ((pushInt _).append (.cons rfl rfl .nil))) (box t))
    (.cons rfl rfl .nil)

theorem epilogue (c : Cut) (p : SlotPlan) : Inline (Outline.epilogue c p) :=
  .append (.append (.append ((pushInt _).append (.cons rfl rfl .nil))
    (.flatMap fun _ _ => packProduced _ _)) (.flatMap fun _ _ => packWritten _ _ _))
    (.cons rfl rfl .nil)

theorem call (c : Cut) (extracted : Routine) : Inline (Outline.call c extracted) := by
  refine .append (fun insn hmem => ?_) (.cons rfl rfl .nil)
  obtain ⟨e, -, rfl⟩ := List.mem_map.1 hmem
  exact ⟨rfl, rfl⟩

theorem unpackProduced (index : Nat) (types : List JType) :
    Inline (Outline.unpackProduced index types) := by
  fun_induction Outline.unpackProduced index types with
  | case1 => exact .nil
  | case2 index t => exact fetch index t
  | case3 index t rest _ ih =>
    refine .append (.append (.cons rfl rfl (fetch index t)) ?_) ih
    unfold raiseArray
    split
    · exact .cons rfl rfl (.cons rfl rfl .nil)
    · exact .cons rfl rfl .nil

theorem unpackWritten (keep : Bool) (index : Nat) (locals : List (Int × JType)) :
    Inline (Outline.unpackWritten keep index locals) := by
  induction locals generalizing index with
  | nil => exact .nil
  | cons e rest ih =>
    refine .append (.append (.append ?_ (fetch index e.2)) (.cons rfl rfl .nil)) (ih _)
    split
    · exact .cons rfl rfl .nil
    · exact .nil

theorem unpack (c : Cut) : Inline (Outline.unpack c) := by
  refine .append (.append (unpackWritten _ _ _) (unpackProduced _ _)) ?_
  split
  · exact .cons rfl rfl .nil
  · exact .nil

end Inline

/-! ### Labels of moved and of staying code -/

theorem placedIds_staying (code : List Instruction) :
    placedIds (staying code) = placedIds code := by
  unfold placedIds staying
  rw [List.filterMap_filter]
  congr 1
  funext insn
  cases insn <;> rfl

theorem moved_placed? {p : SlotPlan} {insn insn' : Instruction} (h : moved p insn = some insn') :
    insn'.placed? = insn.placed? ∧ insn'.targets = insn.targets := by
  cases insn <;> cases h <;> exact ⟨rfl, rfl⟩

theorem placedIds_moved (p : SlotPlan) (code : List Instruction) :
    placedIds (code.filterMap (moved p)) = placedIds code := by
  unfold placedIds
  rw [List.filterMap_filterMap]
  congr 1
  funext insn
  cases insn <;> rfl

/-- The labels among instructions that pass a test, as instructions. -/
def labelsOf (keep : Label → Bool) (code : List Instruction) : List Instruction :=
  ((code.filterMap Instruction.placed?).filter keep).map .label

theorem mem_labelsOf {keep : Label → Bool} {code : List Instruction} {l : Label}
    (h : .label l ∈ code) (hkeep : keep l) : .label l ∈ labelsOf keep code :=
  List.mem_map.2 ⟨l, List.mem_filter.2 ⟨List.mem_filterMap.2 ⟨_, h, rfl⟩, hkeep⟩, rfl⟩

theorem placedIds_labelsOf_sublist (keep : Label → Bool) (code : List Instruction) :
    (placedIds (labelsOf keep code)).Sublist (placedIds code) := by
  have hids : placedIds (labelsOf keep code) =
      ((code.filterMap Instruction.placed?).filter keep).map Label.id := by
    simp [placedIds, labelsOf, List.filterMap_map, Instruction.placed?]
  have hids' : placedIds code = (code.filterMap Instruction.placed?).map Label.id := by
    unfold placedIds
    rw [List.map_filterMap]
  rw [hids, hids']
  exact (List.filter_sublist).map _

/-- An instruction with a target that is written in the form of its opcode is a branch. -/
theorem Instruction.isBranch_of_carries {insn : Instruction} {l : Label}
    (h : insn.carries insn.opcode.form) (hl : l ∈ insn.targets) :
    insn.isMarker = false ∧ insn.opcode.isBranch := by
  cases insn with
  | jump op target =>
    have hform : op.form = .jump := by
      simp only [opcode] at h
      cases hf : op.form <;> simp [carries, hf] at h ⊢
    refine ⟨?_, by simp [opcode, Opcode.isBranch, hform]⟩
    cases op <;> first | rfl | cases hform
  | tableSwitch => exact ⟨rfl, rfl⟩
  | lookupSwitch => exact ⟨rfl, rfl⟩
  | _ => cases hl

/-- A canonical instruction with a target is a branch. -/
theorem Instruction.isBranch_of_mem_targets {insn : Instruction} {l : Label}
    (h : insn.isCanonical) (hl : l ∈ insn.targets) :
    insn.isMarker = false ∧ insn.opcode.isBranch := by
  refine isBranch_of_carries (carries_of_isCanonical h ?_).2 hl
  cases insn with
  | label l | line n | frame => cases hl
  | _ => rfl

/-! ### Ranges of code -/

/-- The instructions from `start` up to `stop`. -/
def range (code : List Instruction) (start stop : Nat) : List Instruction :=
  (code.drop start).take (stop - start)

section Range

variable {code : List Instruction} {start stop i : Nat} {insn : Instruction}

theorem mem_range_of_getElem? (h : code[i]? = some insn) (hlow : start ≤ i) (hhigh : i < stop) :
    insn ∈ range code start stop := by
  apply List.mem_of_getElem? (i := i - start)
  rw [range, List.getElem?_take_of_lt (by omega), List.getElem?_drop, ← h]
  congr 1
  omega

theorem exists_of_mem_range (h : insn ∈ range code start stop) :
    ∃ i, start ≤ i ∧ i < stop ∧ code[i]? = some insn := by
  obtain ⟨k, hk⟩ := List.mem_iff_getElem?.1 h
  have hlt : k < stop - start := by
    obtain ⟨hlt, -⟩ := List.getElem?_eq_some_iff.1 hk
    rw [range, List.length_take] at hlt
    omega
  rw [range, List.getElem?_take_of_lt hlt, List.getElem?_drop] at hk
  exact ⟨start + k, by omega, by omega, hk⟩

theorem range_sublist : (range code start stop).Sublist code :=
  (List.take_sublist _ _).trans (List.drop_sublist _ _)

/-- Code is what comes before a range, the range, and what comes after it. -/
theorem take_append_range_append_drop (code : List Instruction) (h : start ≤ stop) :
    code.take start ++ range code start stop ++ code.drop stop = code := by
  have hdrop : range code start stop ++ code.drop stop = code.drop start := by
    rw [range, show code.drop stop = (code.drop start).drop (stop - start) by
      rw [List.drop_drop]; congr 1; omega, List.take_append_drop]
  rw [List.append_assoc, hdrop, List.take_append_drop]

end Range

/-! ### The two halves of a cut -/

namespace Chosen

variable {flow : Flow} {c : Cut} {start stop : Nat}

theorem stop_eq (h : Chosen flow c start stop) (hsize : (flow.routine.size : Int) ≤ Word.max) :
    c.stop = stop := by
  have hle := h.movable.le_size
  have hlt := h.movable.lt
  have hsum : (start : Int) + (stop - start) = stop := by omega
  rw [Cut.stop, h.start_eq, h.length_eq, hsum]
  refine Word.wrap_eq_self ?_ (by omega)
  unfold Word.min
  omega

theorem instructions_eq (h : Chosen flow c start stop)
    (hsize : (flow.routine.size : Int) ≤ Word.max) :
    c.instructions flow.routine = range flow.routine.code.toList start stop := by
  rw [Cut.instructions, h.stop_eq hsize, h.start_eq, Int.toNat_natCast, Int.toNat_natCast,
    Array.toList_extract]
  rfl

/-- The extracted routine takes values that can be passed. -/
theorem isDefinite (h : Chosen flow c start stop) : ∀ t ∈ c.arguments, t.isDefinite = true := by
  obtain ⟨fp, -, hcut⟩ := h.footprint
  obtain ⟨⟨hconsumed, -⟩, rfl⟩ := Cut.ofFootprint_eq_ok hcut
  intro t ht
  rcases List.mem_append.1 ht with ht | ht
  · exact hconsumed t ht
  · obtain ⟨e, he, rfl⟩ := List.mem_map.1 ht
    exact (List.mem_filter.1 (SlotMap.mem_of_mem_ofList he)).2

end Chosen

/-- What takes the place of the range of a cut. -/
def Cut.splice (c : Cut) (r : Routine) (start stop : Nat) (extracted : Routine) : Splice where
  code := r.code.toList
  start := start
  stop := stop
  kept := labelsOf (boundsBlock r) (range r.code.toList start stop)
  inserted := call c extracted ++ unpack c

section Halves

variable {flow : Flow} {c : Cut} {start stop : Nat}

/-- **The instructions of a range make a routine of their own.** -/
theorem Chosen.exists_extract (o : Outline) (h : Chosen flow c start stop)
    (hmade : flow.routine.Made) (hcanonical : flow.routine.Canonical)
    (hsize : (flow.routine.size : Int) ≤ Word.max)
    (hargs : ∀ t ∈ c.arguments, ∃ u, JType.parse t.descriptor = .ok u) :
    ∃ extracted, o.extract flow.routine c = .ok extracted := by
  have hchecked := hmade.checked
  unfold Outline.extract
  rw [h.instructions_eq hsize]
  refine exists_make (Signature.parse_ofSignature (fun t ht => ⟨h.isDefinite t ht, hargs t ht⟩) rfl
    ⟨_, rfl⟩) rfl ?_ ?_ (by simp)
  · rw [placedIds_append, placedIds_append, (Inline.prologue _ _).placedIds_eq,
      (Inline.epilogue _ _).placedIds_eq, placedIds_moved, List.nil_append, List.append_nil]
    exact hchecked.nodup.sublist (range_sublist.filterMap _)
  · intro insn hinsn l hl
    rcases List.mem_append.1 hinsn with hinsn | hinsn
    · rcases List.mem_append.1 hinsn with hinsn | hinsn
      · rw [(Inline.prologue _ _ insn hinsn).2] at hl
        cases hl
      · -- a branch of the range stays in it, so its target is moved along
        obtain ⟨insn', hmem, hmoved⟩ := List.mem_filterMap.1 hinsn
        rw [(moved_placed? hmoved).2] at hl
        obtain ⟨i, hlow, hhigh, hi⟩ := exists_of_mem_range hmem
        have hcode : insn' ∈ flow.routine.code := by
          rw [← Array.mem_toList_iff]
          exact List.mem_of_getElem? hi
        obtain ⟨hmarker, hbranch⟩ :=
          Instruction.isBranch_of_mem_targets (hcanonical insn' hcode) hl
        obtain ⟨k, hk⟩ := hchecked.targets insn' hcode l hl
        obtain ⟨hlow', hhigh'⟩ := (h.movable.stays i insn' hlow hhigh
          (by simpa using hi) hmarker).2.2 hbranch k (List.mem_filterMap.2 ⟨l, hl, hk⟩)
        obtain ⟨l', hl', hid⟩ := hchecked.offset?_eq_some_iff.1 hk
        rw [placedIds_append, placedIds_append, placedIds_moved, ← hid]
        refine List.mem_append_left _ (List.mem_append_right _ (mem_placedIds.2 ⟨l', ?_, rfl⟩))
        exact mem_range_of_getElem? (by simpa using hl') hlow' hhigh'
    · rw [(Inline.epilogue _ _ insn hinsn).2] at hl
      cases hl

/-- The code of the trimmed routine is a splice. -/
theorem Chosen.trim_eq (h : Chosen flow c start stop)
    (hsize : (flow.routine.size : Int) ≤ Word.max) (extracted : Routine) :
    trim flow.routine c extracted = Routine.make {
      owner := flow.routine.owner
      name := flow.routine.name
      descriptor := flow.routine.descriptor
      access := flow.routine.access
      code := ((c.splice flow.routine start stop extracted).result.map some).toArray
      blocks := flow.routine.blocks
      maxLocals := localsNeeded flow.routine.maxLocals
        (c.splice flow.routine start stop extracted).result
      maxStack := 0 } := by
  have hcode : staying (flow.routine.code.extract 0 c.start.toNat).toList ++
      keptLabels flow.routine c ++ call c extracted ++ unpack c ++
        staying (flow.routine.code.extract c.stop.toNat flow.routine.size).toList =
      (c.splice flow.routine start stop extracted).result := by
    rw [keptLabels, h.instructions_eq hsize, h.stop_eq hsize, h.start_eq, Int.toNat_natCast,
      Int.toNat_natCast, Array.toList_extract, Array.toList_extract]
    have hrest : (flow.routine.code.toList.drop stop).take (flow.routine.size - stop) =
        flow.routine.code.toList.drop stop := List.take_of_length_le (by simp [Routine.size])
    simp [Splice.result, Cut.splice, labelsOf, List.extract, hrest]
  simp only [trim, hcode]

variable {r extracted : Routine}

theorem Cut.nodup_splice (hnodup : (placedIds r.code.toList).Nodup) (hle : start ≤ stop) :
    (placedIds (c.splice r start stop extracted).result).Nodup := by
  have hinserted : placedIds (call c extracted ++ unpack c) = [] :=
    ((Inline.call c extracted).append (Inline.unpack c)).placedIds_eq
  rw [← take_append_range_append_drop r.code.toList hle, placedIds_append, placedIds_append]
    at hnodup
  refine hnodup.sublist ?_
  rw [Splice.result, placedIds_append, placedIds_append, placedIds_append, placedIds_staying,
    placedIds_staying]
  simp only [Cut.splice, hinserted, List.append_nil]
  exact ((List.Sublist.refl _).append (placedIds_labelsOf_sublist _ _)).append (.refl _)

/-- A label that stays, or that bounds a block, is still there. -/
theorem Cut.exists_lands (hnodup : (placedIds r.code.toList).Nodup) (hle : start ≤ stop) {l : Label}
    {j : Nat} (hj : r.code[j]? = some (.label l))
    (hkeep : (j < start ∨ stop ≤ j) ∨ boundsBlock r l) :
    ∃ k, placeOf 0 (c.splice r start stop extracted).result l.id = some k ∧
      (c.splice r start stop extracted).Lands j k := by
  have hj' : r.code.toList[j]? = some (.label l) := by simpa using hj
  have hresult : (placedIds (c.splice r start stop extracted).result).Nodup :=
    c.nodup_splice hnodup hle
  by_cases hside : j < start ∨ stop ≤ j
  · have hstays : (c.splice r start stop extracted).Stays j := ⟨hside, _, hj', nofun⟩
    exact ⟨_, placeOf_zero_of_getElem? hresult (Splice.getElem?_relocate hstays hj'),
      .inl ⟨hstays, rfl⟩⟩
  · have hbounds := hkeep.resolve_left hside
    have hrange : start ≤ j ∧ j < stop := by omega
    obtain ⟨k, hk⟩ := List.mem_iff_getElem?.1
      (mem_labelsOf (mem_range_of_getElem? hj' hrange.1 hrange.2) hbounds)
    obtain ⟨hlt, -⟩ := List.getElem?_eq_some_iff.1 hk
    refine ⟨_, placeOf_zero_of_getElem? hresult
      (Splice.getElem?_kept (s := c.splice r start stop extracted) hk), .inr ⟨hrange,
        Nat.le_add_right _ _, ?_⟩⟩
    exact Nat.add_lt_add_left hlt _

/-! ### Protected blocks -/

theorem Routine.Resolves.unique {place : Nat → Option Nat} {b : TryCatch} {region region' : Region}
    (h : Resolves place b region) (h' : Resolves place b region') : region = region' := by
  have hstart := Option.some.inj (h.start.symm.trans h'.start)
  have hstop := Option.some.inj (h.stop.symm.trans h'.stop)
  have hhandler := Option.some.inj (h.handler.symm.trans h'.handler)
  have htype := h.type.trans h'.type.symm
  cases region
  cases region'
  simp_all

/-- The bounds of a block that is not empty lie outside the range or at its start. -/
theorem Movable.outside (hm : Movable r start stop) {region : Region} (hmem : region ∈ r.regions)
    (hne : region.isEmpty = false) :
    (region.start ≤ start ∨ stop ≤ region.start) ∧ (region.stop ≤ start ∨ stop ≤ region.stop) ∧
      (region.handler < start ∨ stop ≤ region.handler) := by
  have hstart := hm.start_le region hmem hne
  have hinside := hm.inside region hmem hne
  have hlt : region.start < region.stop := by simpa [Region.isEmpty] using hne
  simp only [Region.contains, Bool.and_eq_true, decide_eq_true_eq, and_imp] at hinside
  have := hm.lt
  exact ⟨hstart, by omega, hm.handler region hmem hne⟩

/-- **Each block of a routine is still there after the splice**, with its bounds where their labels
went. -/
theorem Movable.exists_resolves (hm : Movable r start stop) (c : Cut) (extracted : Routine)
    (hchecked : r.Checked) {b : TryCatch}
    (hb : b ∈ r.blocks) {region : Region} (hmem : region ∈ r.regions)
    (h : Resolves (placeOf 0 r.code.toList) b region) :
    ∃ region', Resolves (placeOf 0 (c.splice r start stop extracted).result) b region' ∧
      (c.splice r start stop extracted).Lands region.start region'.start ∧
      (c.splice r start stop extracted).Lands region.stop region'.stop ∧
      (c.splice r start stop extracted).Lands region.handler region'.handler := by
  have hle : start ≤ stop := Nat.le_of_lt hm.lt
  -- every label that bounds the block has been kept
  have hland : ∀ {l : Label} {j : Nat}, placeOf 0 r.code.toList l.id = some j →
      (b.start.id = l.id ∨ b.stop.id = l.id ∨ b.handler.id = l.id) →
      ∃ k, placeOf 0 (c.splice r start stop extracted).result l.id = some k ∧
        (c.splice r start stop extracted).Lands j k := by
    intro l j hplace hbound
    obtain ⟨j', l', rfl, hl', hid⟩ := exists_of_placeOf hplace
    rw [Nat.zero_add, ← hid]
    refine c.exists_lands hchecked.nodup hle (by simpa using hl')
      (.inr (List.any_eq_true.2 ⟨b, hb, ?_⟩))
    simpa [hid, or_assoc] using hbound
  obtain ⟨first, hfirst, hlandFirst⟩ := hland h.start (.inl rfl)
  obtain ⟨last, hlast, hlandLast⟩ := hland h.stop (.inr (.inl rfl))
  obtain ⟨handler, hhandler, hlandHandler⟩ := hland h.handler (.inr (.inr rfl))
  refine ⟨⟨first, last, handler, b.type⟩, ⟨hfirst, hlast, hhandler, rfl, ?_⟩, hlandFirst, hlandLast,
    hlandHandler⟩
  rcases Nat.lt_or_eq_of_le h.ordered with hlt | heq
  · have hne : region.isEmpty = false := by simpa [Region.isEmpty] using hlt
    obtain ⟨hstart, hstop, -⟩ := hm.outside hmem hne
    -- not both bounds of a block that is not empty lie in the range
    refine hlandFirst.le hle hlandLast hlt ?_
    by_cases hout : region.start < start ∨ stop ≤ region.start
    · obtain ⟨j, l, hj, hl, -⟩ := exists_of_placeOf h.start
      rw [Nat.zero_add] at hj
      exact .inl ⟨hout, .label l, by rw [hj]; exact hl, nofun⟩
    · obtain ⟨j, l, hj, hl, -⟩ := exists_of_placeOf h.stop
      rw [Nat.zero_add] at hj
      exact .inr ⟨.inr (by change stop ≤ region.stop; omega), .label l, by rw [hj]; exact hl, nofun⟩
  · -- the bounds of an empty block are one label
    obtain ⟨j, l, hj, hl, hid⟩ := exists_of_placeOf h.start
    obtain ⟨j', l', hj', hl', hid'⟩ := exists_of_placeOf h.stop
    obtain rfl : j = j' := by omega
    obtain rfl := Instruction.label.inj (Option.some.inj (hl.symm.trans hl'))
    rw [← hid] at hfirst
    rw [← hid'] at hlast
    exact Nat.le_of_eq (Option.some.inj (hfirst.symm.trans hlast))

/-- A jump that stays goes to a label that stays. -/
theorem Movable.exists_target (hm : Movable r start stop) (c : Cut) (extracted : Routine)
    (hchecked : r.Checked)
    (hcanonical : r.Canonical) {i : Nat} {insn : Instruction} (hside : i < start ∨ stop ≤ i)
    (hi : r.code[i]? = some insn) {l : Label} (hl : l ∈ insn.targets) :
    ∃ k, r.offset? l = some k ∧ (c.splice r start stop extracted).Stays k ∧
      placeOf 0 (c.splice r start stop extracted).result l.id =
        some ((c.splice r start stop extracted).relocate k) := by
  have hmem : insn ∈ r.code := Array.mem_of_getElem? hi
  obtain ⟨hmarker, hbranch⟩ := Instruction.isBranch_of_mem_targets (hcanonical insn hmem) hl
  obtain ⟨k, hk⟩ := hchecked.targets insn hmem l hl
  have hout := hm.enters i insn hside hi hmarker hbranch k (List.mem_filterMap.2 ⟨l, hl, hk⟩)
  obtain ⟨l', hl', hid⟩ := hchecked.offset?_eq_some_iff.1 hk
  have hstays : (c.splice r start stop extracted).Stays k :=
    ⟨hout, .label l', by simpa [Cut.splice] using hl', nofun⟩
  refine ⟨k, hk, hstays, ?_⟩
  rw [← hid]
  exact placeOf_zero_of_getElem? (c.nodup_splice hchecked.nodup (Nat.le_of_lt hm.lt))
    (Splice.getElem?_relocate hstays (by simpa [Cut.splice] using hl'))

theorem Movable.mem_placedIds_of_mem_targets (hm : Movable r start stop) (hchecked : r.Checked)
    (hcanonical : r.Canonical) {insn : Instruction}
    (hinsn : insn ∈ (c.splice r start stop extracted).result) {l : Label}
    (hl : l ∈ insn.targets) : l.id ∈ placedIds (c.splice r start stop extracted).result := by
  obtain ⟨k, hk⟩ := List.mem_iff_getElem?.1 hinsn
  obtain ⟨hlt, -⟩ := List.getElem?_eq_some_iff.1 hk
  rcases Splice.cases_of_lt (Nat.le_of_lt hm.lt) hlt with
    ⟨i, hstays, rfl⟩ | ⟨insn', hkept, hk'⟩ | ⟨hlow, hhigh⟩
  · obtain ⟨hside, insn', hi, -⟩ := id hstays
    obtain rfl := Option.some.inj ((Splice.getElem?_relocate hstays hi).symm.trans hk)
    obtain ⟨k, -, -, hplace⟩ := hm.exists_target c extracted hchecked hcanonical
      hside (by simpa [Cut.splice] using hi) hl
    obtain ⟨j, l', -, hl', hid⟩ := exists_of_placeOf hplace
    exact mem_placedIds.2 ⟨l', List.mem_of_getElem? hl', hid⟩
  · obtain ⟨l', -, rfl⟩ := List.mem_map.1 hkept
    obtain rfl := Option.some.inj (hk'.symm.trans hk)
    cases hl
  · have hq : k - (c.splice r start stop extracted).entry <
        (c.splice r start stop extracted).inserted.length := by omega
    have := Splice.getElem?_entry_add (List.getElem?_eq_getElem hq)
    rw [Nat.add_sub_cancel' hlow, hk] at this
    obtain rfl := Option.some.inj this
    rw [(((Inline.call c extracted).append (Inline.unpack c)) _ (List.getElem_mem hq)).2] at hl
    cases hl

/-- **What is left of a routine makes a routine again.** -/
theorem Chosen.exists_trim (h : Chosen flow c start stop) (hmade : flow.routine.Made)
    (hcanonical : flow.routine.Canonical) (hsize : (flow.routine.size : Int) ≤ Word.max)
    (extracted : Routine) : ∃ trimmed, trim flow.routine c extracted = .ok trimmed := by
  have hchecked := hmade.checked
  rw [h.trim_eq hsize]
  refine exists_make hchecked.signature rfl
    (c.nodup_splice hchecked.nodup (Nat.le_of_lt h.movable.lt))
    (fun insn hinsn l hl => h.movable.mem_placedIds_of_mem_targets hchecked hcanonical hinsn hl)
    fun b hb => ?_
  obtain ⟨hlen, hget⟩ := List.forall₂_iff_get.1 hchecked.regions
  obtain ⟨i, hi, rfl⟩ := List.mem_iff_getElem.1 hb
  obtain ⟨region, hresolves, -⟩ := h.movable.exists_resolves c extracted
    hchecked hb (List.getElem_mem (hlen ▸ hi)) (hget i hi (hlen ▸ hi))
  exact ⟨region, hresolves⟩

end Halves

/-! ### Rewiring -/

/-- The offset holds an instruction outside a range that is no frame marker. -/
def Routine.Keeps (r : Routine) (start stop i : Nat) : Prop :=
  (i < start ∨ stop ≤ i) ∧ ∃ insn, r.code[i]? = some insn ∧ insn ≠ .frame

/-- **One routine is another with a range replaced**: `φ` tells where the instructions outside the
range have gone, and `inserted` stands from `entry` on. -/
structure Rewires (r t : Routine) (start stop : Nat) (inserted : List Instruction) (φ : Nat → Nat)
    (entry : Nat) : Prop where
  strictMono : ∀ i j, r.Keeps start stop i → r.Keeps start stop j → i < j → φ i < φ j
  code : ∀ i insn, r.Keeps start stop i → r.code[i]? = some insn → t.code[φ i]? = some insn
  targets : ∀ i insn, r.Keeps start stop i → r.code[i]? = some insn → ∀ l ∈ insn.targets,
    ∃ k, r.offset? l = some k ∧ r.Keeps start stop k ∧ t.offset? l = some (φ k)
  stands : ∀ q insn, inserted[q]? = some insn → t.code[entry + q]? = some insn
  /-- What is inserted stands between what comes before the range and what comes after it. -/
  between : ∀ i, r.Keeps start stop i →
    (i < start → φ i < entry) ∧ (stop ≤ i → entry + inserted.length ≤ φ i)
  /-- Beside what stays and what is inserted there are only labels. -/
  rest : ∀ k < t.size, (∃ i, r.Keeps start stop i ∧ φ i = k) ∨
    (entry ≤ k ∧ k < entry + inserted.length) ∨ ∃ l, t.code[k]? = some (.label l)
  regions_length : t.regions.length = r.regions.length
  regions : ∀ (n : Nat) (region region' : Region), r.regions[n]? = some region →
    t.regions[n]? = some region' → region.isEmpty = false → region'.type = region.type ∧
      (r.Keeps start stop region.handler ∧ region'.handler = φ region.handler) ∧
      (∀ i, r.Keeps start stop i → region'.contains (φ i) = region.contains i) ∧
      ∀ q < inserted.length, region'.contains (entry + q) = region.contains start

section Rewiring

variable {flow : Flow} {c : Cut} {start stop : Nat} {r extracted : Routine}

theorem Cut.stays_iff {i : Nat} :
    (c.splice r start stop extracted).Stays i ↔ r.Keeps start stop i := by
  simp [Splice.Stays, Routine.Keeps, Cut.splice]

/-- A region whose bounds landed somewhere covers the same instructions as before. -/
theorem contains_of_lands {s : Splice} {region region' : Region} (hle : s.start ≤ s.stop)
    (hfirst : s.Lands region.start region'.start) (hlast : s.Lands region.stop region'.stop)
    {i : Nat} (hi : s.Stays i) : region'.contains (s.relocate i) = region.contains i := by
  have hlow := hfirst.le_relocate_iff hle hi
  have hhigh := (hlast.le_relocate_iff hle hi).not
  rw [Nat.not_le, Nat.not_le] at hhigh
  simp only [Region.contains, hlow, hhigh]

/-- Making the extracted routine keeps the moved code of the range. -/
theorem Chosen.extract_ok (h : Chosen flow c start stop)
    (hsize : (flow.routine.size : Int) ≤ Word.max) {o : Outline} {x : Routine} {plan : SlotPlan}
    (hplan : plan = .ofCut c (accessWidths (range flow.routine.code.toList start stop)))
    (hextract : o.extract flow.routine c = .ok x) :
    x.Checked ∧ x.code.toList = prologue c plan ++
        (range flow.routine.code.toList start stop).filterMap (moved plan) ++ epilogue c plan ∧
      x.owner = flow.routine.owner ∧ x.name = flow.routine.name ++ o.suffix ∧
      x.descriptor = c.routineDescriptor ∧ x.access = .privateStaticSynthetic ∧ x.blocks = [] := by
  subst hplan
  unfold Outline.extract at hextract
  rw [h.instructions_eq hsize] at hextract
  obtain ⟨hchecked, hcode, howner, hname, hdescriptor, haccess, hblocks, -, -⟩ := make_ok hextract
  exact ⟨hchecked, (List.map_injective_iff.2 (fun _ _ => Option.some.inj) hcode).symm, howner,
    hname, hdescriptor, haccess, hblocks⟩

/-- Making the trimmed routine keeps the spliced code and the blocks. -/
theorem Chosen.trim_ok (h : Chosen flow c start stop)
    (hsize : (flow.routine.size : Int) ≤ Word.max) {trimmed : Routine}
    (htrim : trim flow.routine c extracted = .ok trimmed) :
    trimmed.Checked ∧ trimmed.code.toList = (c.splice flow.routine start stop extracted).result ∧
      trimmed.blocks = flow.routine.blocks := by
  rw [h.trim_eq hsize] at htrim
  obtain ⟨hchecked, hcode, -, -, -, -, hblocks, -, -⟩ := make_ok htrim
  exact ⟨hchecked, (List.map_injective_iff.2 (fun _ _ => Option.some.inj) hcode).symm, hblocks⟩

/-- The regions of the trimmed routine are those of the routine, with their bounds where the labels
went. -/
theorem Movable.lands_regions (hm : Movable r start stop) (hchecked : r.Checked) {t : Routine}
    (htrimmed : t.Checked) (hcode : t.code.toList = (c.splice r start stop extracted).result)
    (hblocks : t.blocks = r.blocks) :
    List.Forall₂ (fun region region' => region'.type = region.type ∧
      (c.splice r start stop extracted).Lands region.start region'.start ∧
      (c.splice r start stop extracted).Lands region.stop region'.stop ∧
      (c.splice r start stop extracted).Lands region.handler region'.handler)
      r.regions t.regions := by
  obtain ⟨hlen, hresolves⟩ := List.forall₂_iff_get.1 hchecked.regions
  have htables := htrimmed.regions
  rw [hblocks, hcode] at htables
  obtain ⟨hlen', hresolves'⟩ := List.forall₂_iff_get.1 htables
  refine List.forall₂_iff_get.2 ⟨hlen.symm.trans hlen', fun n hn hn' => ?_⟩
  have hblock : n < r.blocks.length := hlen ▸ hn
  have hregion := hresolves n hblock hn
  obtain ⟨region', hres, hlands⟩ := hm.exists_resolves c extracted hchecked
    (List.get_mem _ ⟨n, hblock⟩) (List.get_mem _ ⟨n, hn⟩) hregion
  rw [(hresolves' n hblock hn').unique hres]
  exact ⟨hres.type.trans hregion.type.symm, hlands⟩

/-- **The trimmed routine of a cut is wired as the routine was.** -/
theorem Chosen.rewires (h : Chosen flow c start stop) (hmade : flow.routine.Made)
    (hcanonical : flow.routine.Canonical) (hsize : (flow.routine.size : Int) ≤ Word.max)
    {trimmed : Routine} (htrim : trim flow.routine c extracted = .ok trimmed) :
    Rewires flow.routine trimmed start stop (call c extracted ++ unpack c)
      (c.splice flow.routine start stop extracted).relocate
      (c.splice flow.routine start stop extracted).entry := by
  have hm := h.movable
  have hchecked := hmade.checked
  have hle : start ≤ stop := Nat.le_of_lt hm.lt
  obtain ⟨htrimmed, hcode, hblocks⟩ := h.trim_ok hsize htrim
  -- the code of the trimmed routine is the splice, so all can be read off there
  have hget : ∀ (k : Nat) (insn : Instruction),
      (c.splice flow.routine start stop extracted).result[k]? = some insn →
      trimmed.code[k]? = some insn := by
    intro k insn hk
    rw [← hcode] at hk
    simpa using hk
  have hstays : ∀ {i : Nat}, flow.routine.Keeps start stop i →
      (c.splice flow.routine start stop extracted).Stays i := Cut.stays_iff.2
  obtain ⟨hlen, hlands⟩ :=
    List.forall₂_iff_get.1 (hm.lands_regions hchecked htrimmed hcode hblocks)
  refine ⟨?_, ?_, ?_, ?_, ?_, ?_, hlen.symm, ?_⟩
  · exact fun i j hi _ hlt => Splice.relocate_lt_relocate (hstays hi) hlt
  · exact fun i insn hi hinsn => hget _ _
      (Splice.getElem?_relocate (hstays hi) (by simpa [Cut.splice] using hinsn))
  · intro i insn hi hinsn l hl
    obtain ⟨k, hk, hstays, hplace⟩ := hm.exists_target c extracted hchecked hcanonical hi.1 hinsn hl
    refine ⟨k, hk, Cut.stays_iff.1 hstays, ?_⟩
    rw [htrimmed.offset?_eq, hcode]
    exact hplace
  · exact fun q insn hq => hget _ _ (Splice.getElem?_entry_add hq)
  · refine fun i hi => ⟨fun hlt => ?_, fun hge => Splice.le_relocate (Nat.le_trans hle hge)⟩
    exact Nat.lt_of_lt_of_le (Splice.relocate_lt (hstays hi) hlt) (Nat.le_add_right _ _)
  · intro k hk
    have hk' : k < (c.splice flow.routine start stop extracted).result.length := by
      rw [← hcode]
      simpa [Routine.size] using hk
    -- an offset is one of what stays, of the labels that are kept, or of the inserted code
    rcases Splice.cases_of_lt hle hk' with ⟨i, hi, rfl⟩ | ⟨insn, hmem, hinsn⟩ | hinside
    · exact .inl ⟨i, Cut.stays_iff.1 hi, rfl⟩
    · obtain ⟨l, -, rfl⟩ := List.mem_map.1 hmem
      exact .inr (.inr ⟨l, hget _ _ hinsn⟩)
    · exact .inr (.inl hinside)
  · intro n region region' hn hn' hne
    obtain ⟨hlt, rfl⟩ := List.getElem?_eq_some_iff.1 hn
    obtain ⟨hlt', rfl⟩ := List.getElem?_eq_some_iff.1 hn'
    obtain ⟨htype, hfirst, hlast, hhandler⟩ := hlands n hlt hlt'
    -- a region that protects something begins and ends outside of the range or around it
    obtain ⟨hstart, hstop, hout⟩ := hm.outside (List.getElem_mem hlt) hne
    refine ⟨htype, ?_, fun i hi => contains_of_lands hle hfirst hlast (hstays hi), fun q hq => ?_⟩
    · rcases hhandler with ⟨hstays, heq⟩ | ⟨hrange, -⟩
      · exact ⟨Cut.stays_iff.1 hstays, heq⟩
      · exact absurd hrange
          (by change ¬ (start ≤ _ ∧ _ < stop); simp only [List.get_eq_getElem]; omega)
    · have hlow := hfirst.le_entry_add_iff hstart hq hm.lt
      have hhigh := (hlast.le_entry_add_iff hstop hq hm.lt).not
      rw [Nat.not_le, Nat.not_le] at hhigh
      simp only [List.get_eq_getElem] at hlow hhigh
      simp only [Region.contains, hlow, hhigh]
      rfl

/-- The data flow of a routine knows the routine. -/
theorem Flow.routine_eq_of_analyze {h : Hierarchy} (hflow : Flow.analyze h r = .ok flow) :
    flow.routine = r := by
  unfold Flow.analyze Flow.analyzeWithin at hflow
  dsimp only at hflow
  generalize Flow.Pass.run r h (Flow.patience r) _ = result at hflow
  cases result with
  | error stop => cases hflow
  | ok p =>
    simp only [bind, Except.bind] at hflow
    split at hflow
    · exact (Except.ok.inj hflow) ▸ rfl
    · cases hflow

/-- A survey is one of the data flow of the routine. -/
theorem Outline.survey_eq_ok {o : Outline} {minSize maxSize : Int} {s : Survey}
    (h : o.survey r minSize maxSize = .ok s) :
    ∃ flow, Flow.analyze o.hierarchy r = .ok flow ∧ flow.routine = r ∧
      s = Survey.make flow minSize maxSize := by
  unfold Outline.survey at h
  cases hflow : Flow.analyze o.hierarchy r with
  | error stop => cases stop <;> rw [hflow] at h <;> cases h
  | ok flow =>
    rw [hflow] at h
    exact ⟨flow, rfl, Flow.routine_eq_of_analyze hflow, (Except.ok.inj h).symm⟩

/-- Splitting at a cut that was found makes both halves. -/
theorem Chosen.exists_apply (o : Outline) (h : Chosen flow c start stop)
    (hmade : flow.routine.Made) (hcanonical : flow.routine.Canonical)
    (hheld : flow.routine.size ≤ longestSequence)
    (hargs : ∀ t ∈ c.arguments, ∃ u, JType.parse t.descriptor = .ok u) :
    ∃ p, o.apply flow.routine c = .ok p ∧ o.extract flow.routine c = .ok p.extracted ∧
      trim flow.routine c p.extracted = .ok p.trimmed := by
  have hsize : (flow.routine.size : Int) ≤ Word.max := by
    unfold longestSequence at hheld
    unfold Word.max
    omega
  obtain ⟨extracted, hextract⟩ := h.exists_extract o hmade hcanonical hsize hargs
  obtain ⟨trimmed, htrim⟩ := h.exists_trim hmade hcanonical hsize extracted
  refine ⟨⟨trimmed, extracted, c⟩, ?_, hextract, htrim⟩
  have hlt := h.movable.lt
  have hle := h.movable.le_size
  -- the cut lies within the routine, so no check refuses it
  have hbounds : ¬ (c.length < 1 || c.start < 0 || flow.routine.size < c.stop) = true := by
    rw [h.length_eq, h.start_eq, h.stop_eq hsize]
    simp only [Bool.or_eq_true, decide_eq_true_eq]
    omega
  have hlength : ¬ (longestSequence : Int) < c.length := by
    rw [h.length_eq]
    omega
  have hstart : ¬ (flow.routine.size : Int) < c.start := by
    rw [h.start_eq]
    omega
  simp only [apply, if_neg hbounds, if_neg hlength, hextract, if_neg hstart, htrim]

end Rewiring

/-! ### Both halves -/

/-- **The two halves of a routine split at a cut.** The extracted routine is the range with its
slots moved, between a prologue and an epilogue. In the trimmed routine a call of it and what
unpacks its result stand in place of the range, and all the rest is wired as before. -/
structure Parted.Divides (p : Parted) (o : Outline) (r : Routine) (start stop : Nat)
    (plan : SlotPlan) : Prop where
  start_eq : p.cut.start = start
  stop_eq : p.cut.stop = stop
  lt : start < stop
  le_size : stop ≤ r.size
  plan_eq : plan = .ofCut p.cut (accessWidths (range r.code.toList start stop))
  extracted : p.extracted.owner = r.owner ∧ p.extracted.name = r.name ++ o.suffix ∧
    p.extracted.descriptor = p.cut.routineDescriptor
  extracted_code : p.extracted.code.toList = prologue p.cut plan ++
    (range r.code.toList start stop).filterMap (moved plan) ++ epilogue p.cut plan
  trimmed : p.trimmed.owner = r.owner ∧ p.trimmed.name = r.name ∧
    p.trimmed.descriptor = r.descriptor
  trimmed_code : p.trimmed.code.toList = staying (r.code.toList.take start) ++ keptLabels r p.cut ++
    (call p.cut p.extracted ++ unpack p.cut) ++ staying (r.code.toList.drop stop)
  rewires : r.Canonical → ∃ φ entry,
    Rewires r p.trimmed start stop (call p.cut p.extracted ++ unpack p.cut) φ entry

namespace Outline

/-- Splitting at a cut gives the extracted and the trimmed routine of the cut. -/
theorem apply_eq_ok {o : Outline} {r : Routine} {c : Cut} {p : Parted} (h : o.apply r c = .ok p) :
    p.cut = c ∧ o.extract r c = .ok p.extracted ∧ trim r c p.extracted = .ok p.trimmed := by
  unfold apply at h
  split at h
  · cases h
  split at h
  · cases h
  split at h
  · cases h
  next extracted hextract =>
  split at h
  · cases h
  split at h
  · cases h
  next trimmed htrim =>
  obtain rfl := Except.ok.inj h
  exact ⟨rfl, hextract, htrim⟩

end Outline

/-- Splitting at a cut makes the halves of its range. -/
theorem Chosen.divides {o : Outline} {flow : Flow} {c : Cut} {start stop : Nat} {p : Parted}
    (h : Chosen flow c start stop) (hmade : flow.routine.Made)
    (hsize : (flow.routine.size : Int) ≤ Word.max) (happly : o.apply flow.routine c = .ok p) :
    ∃ plan, p.Divides o flow.routine start stop plan := by
  obtain ⟨rfl, hextract, htrim⟩ := apply_eq_ok happly
  obtain ⟨-, hx, howner, hname, hdescriptor, -, -⟩ := h.extract_ok hsize rfl hextract
  -- the trimmed routine is made as a splice, whose parts are those of the statement
  obtain ⟨-, ht, -⟩ := h.trim_ok hsize htrim
  obtain ⟨-, -, hsame, hsame', hsame'', -⟩ := make_ok htrim
  refine ⟨_, h.start_eq, h.stop_eq hsize, h.movable.lt, h.movable.le_size, rfl,
    ⟨howner, hname, hdescriptor⟩, hx, ⟨hsame, hsame', hsame''⟩, ?_, fun hcanonical =>
      ⟨_, _, h.rewires hmade hcanonical hsize htrim⟩⟩
  rw [ht, keptLabels, h.instructions_eq hsize]
  rfl

/-- **Splitting rewires a routine faithfully.** A routine whose instructions are written the way
their opcodes are can be split at every cut a survey finds, as long as the values it takes have
descriptors. The instructions outside the range, frame markers apart, keep their order, their
targets and their blocks, and the call and what unpacks its result lie in the blocks that the start
of the range lay in. The routine must be one that can be held in memory at all. -/
theorem Outline.apply_rewires (o : Outline) {r : Routine} (hmade : r.Made)
    (hcanonical : r.Canonical) (hheld : r.size ≤ longestSequence) {minSize maxSize : Int}
    {s : Survey} (hsurvey : o.survey r minSize maxSize = .ok s) {c : Cut} (hcut : s.Yields c)
    (hargs : ∀ t ∈ c.arguments, ∃ u, JType.parse t.descriptor = .ok u) :
    ∃ p start stop φ entry, o.apply r c = .ok p ∧ c.start = (start : Nat) ∧
      c.stop = (stop : Nat) ∧ start < stop ∧ stop ≤ r.size ∧
      Rewires r p.trimmed start stop (call c p.extracted ++ unpack c) φ entry := by
  obtain ⟨flow, -, rfl, rfl⟩ := survey_eq_ok hsurvey
  have hsize : (flow.routine.size : Int) ≤ Word.max := by
    unfold longestSequence at hheld
    unfold Word.max
    omega
  obtain ⟨start, stop, h⟩ := Survey.chosen_of_yields hsize hcut
  obtain ⟨p, happly, -, htrim⟩ := h.exists_apply o hmade hcanonical hheld hargs
  exact ⟨p, start, stop, _, _, happly, h.start_eq, h.stop_eq hsize, h.movable.lt, h.movable.le_size,
    h.rewires hmade hcanonical hsize htrim⟩

/-- An addition in a protected block whose first label begins the range. -/
def guardedSum : RoutineParts where
  owner := "Sum"
  name := "of"
  descriptor := "(I)I"
  access := .static
  code := #[some (.label ⟨0, ""⟩), some (.slot (.load .int) 0), some (.int .bipush 1),
    some (.plain (.arith .add .int)), some (.slot (.store .int) 1), some .frame,
    some (.slot (.load .int) 1), some (.plain (.returnValue .int)), some (.label ⟨1, ""⟩),
    some (.label ⟨2, ""⟩), some (.plain .pop), some (.int .bipush 0),
    some (.plain (.returnValue .int))]
  blocks := [⟨⟨0, ""⟩, ⟨1, ""⟩, ⟨2, ""⟩, ""⟩]
  maxLocals := 2
  maxStack := 2

theorem Outline.apply_rewires_guardedSum :
    ∃ r s c p start stop φ entry, Routine.make guardedSum = .ok r ∧
      ({} : Outline).survey r 3 4 = .ok s ∧ s.Yields c ∧ ({} : Outline).apply r c = .ok p ∧
      c.start = (start : Nat) ∧ c.stop = (stop : Nat) ∧ start < stop ∧ stop ≤ r.size ∧
      Rewires r p.trimmed start stop (call c p.extracted ++ unpack c) φ entry := by
  have hrun : (Routine.make guardedSum).toOption.any fun r =>
      r.code.all Instruction.isCanonical && decide (r.size ≤ longestSequence) &&
        (({} : Outline).survey r 3 4).toOption.any fun s =>
          (s.attemptAt 0 : Answer Empty Attempt).toOption.any fun a => a.cut?.any fun c =>
            c.arguments.all fun t => (JType.parse t.descriptor).toOption.any fun _ => true := by
    decide +kernel
  obtain ⟨r, hr, hrun⟩ := exists_ok_of_any hrun
  rw [Bool.and_eq_true, Bool.and_eq_true, decide_eq_true_iff, Array.all_eq_true'] at hrun
  obtain ⟨⟨hcanonical, hheld⟩, hrun⟩ := hrun
  obtain ⟨s, hs, hrun⟩ := exists_ok_of_any hrun
  obtain ⟨a, ha, hrun⟩ := exists_ok_of_any hrun
  obtain ⟨c, hc, hrun⟩ := (Option.any_eq_true _ _).1 hrun
  have hyields : s.Yields c := ⟨0, Nat.zero_le _, Attempt.cut?_eq_some hc ▸ ha⟩
  have hargs : ∀ t ∈ c.arguments, ∃ u, JType.parse t.descriptor = .ok u := fun t ht =>
    (exists_ok_of_any (List.all_eq_true.1 hrun t ht)).imp fun _ => And.left
  obtain ⟨p, start, stop, φ, entry, hall⟩ :=
    Outline.apply_rewires {} ⟨_, hr⟩ hcanonical hheld hs hyields hargs
  exact ⟨r, s, c, p, start, stop, φ, entry, hr, hs, hyields, hall⟩

end Outliner
