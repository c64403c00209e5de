import Mathlib.Data.List.Nodup
import Outliner.Proofs.Made

/-!
# Routines up to the identity of labels

Labels are identities: what a routine does depends on where they stand and which instructions refer
to them, not on the numbers that tell them apart. This module says when two routines differ in those
numbers only.

* `Routine.Renames` — a replacement of labels that keeps the labels of some code apart and keeps
  their names. It moves no label (`Renames.placeOf_relabel`) and keeps the order in which they stand
  (`Renames.idxOf_relabel`).
* `Routine.anchor` — the replacement of each label by the place where it stands. It renames the
  labels of every made routine (`Routine.Checked.renames_anchor`).
* `Routine.Alike` — two routines are the same once every label is replaced by its place.

A label that is referred to is told by its identity alone, so the name it carries there does not
count: `Routine.anchor` takes the name of the label that stands at the place.
-/

namespace Outliner

namespace Instruction

@[simp] theorem placed?_relabel (f : Label → Label) (insn : Instruction) :
    (insn.relabel f).placed? = insn.placed?.map f := by
  cases insn <;> rfl

@[simp] theorem targets_relabel (f : Label → Label) (insn : Instruction) :
    (insn.relabel f).targets = insn.targets.map f := by
  cases insn <;> rfl

theorem relabel_relabel (f g : Label → Label) (insn : Instruction) :
    (insn.relabel f).relabel g = insn.relabel (g ∘ f) := by
  cases insn <;> simp [relabel]

/-- Only the labels an instruction places or jumps to are replaced. -/
theorem relabel_congr {f g : Label → Label} {insn : Instruction}
    (hplaced : ∀ l, insn = .label l → f l = g l) (htargets : ∀ l ∈ insn.targets, f l = g l) :
    insn.relabel f = insn.relabel g := by
  cases insn with
  | label l => rw [relabel, relabel, hplaced l rfl]
  | jump op target => rw [relabel, relabel, htargets target List.mem_cons_self]
  | tableSwitch low high fallback targets | lookupSwitch fallback keys targets =>
    rw [relabel, relabel, htargets fallback List.mem_cons_self,
      List.map_congr_left fun l hl => htargets l (List.mem_cons_of_mem _ hl)]
  | _ => rfl

end Instruction

namespace TryCatch

/-- Replaces the labels of a block. -/
def relabel (f : Label → Label) (b : TryCatch) : TryCatch :=
  ⟨f b.start, f b.stop, f b.handler, b.type⟩

end TryCatch

namespace Routine

/-! ### Replacements that keep labels apart -/

theorem placedIds_eq_map (code : List Instruction) :
    placedIds code = (code.filterMap Instruction.placed?).map Label.id := by
  rw [placedIds, List.map_filterMap]

theorem placedIds_relabel (f : Label → Label) (code : List Instruction) :
    placedIds (code.map (Instruction.relabel f)) =
      (code.filterMap Instruction.placed?).map fun l => (f l).id := by
  rw [placedIds_eq_map, List.filterMap_map, List.map_filterMap, List.map_filterMap]
  simp [Function.comp_def]

theorem mem_filterMap_placed? {code : List Instruction} {l : Label} :
    l ∈ code.filterMap Instruction.placed? ↔ .label l ∈ code := by
  rw [List.mem_filterMap]
  constructor
  · rintro ⟨insn, hmem, hl⟩
    cases insn <;> simp [Instruction.placed?] at hl
    exact hl ▸ hmem
  · exact fun h => ⟨_, h, rfl⟩

/-- **A replacement renames the labels of some code**: labels that stand in it are still told apart,
and keep their names. -/
structure Renames (code : List Instruction) (f : Label → Label) : Prop where
  id_eq_iff : ∀ l l', l.id ∈ placedIds code → l'.id ∈ placedIds code →
    ((f l).id = (f l').id ↔ l.id = l'.id)
  name_eq : ∀ l, .label l ∈ code → (f l).name = l.name

namespace Renames

variable {code : List Instruction} {f : Label → Label} (h : Renames code f)

include h

/-- A renamed label stands where it stood. -/
theorem placeOf_relabel {l : Label} (hl : l.id ∈ placedIds code) (offset : Nat) :
    placeOf offset (code.map (Instruction.relabel f)) (f l).id = placeOf offset code l.id := by
  -- the replacement is one for the whole code, so the induction is over a part of it
  have hpart (part : List Instruction) (hpart : part ⊆ code) (offset : Nat) :
      placeOf offset (part.map (Instruction.relabel f)) (f l).id = placeOf offset part l.id := by
    induction part generalizing offset with
    | nil => rfl
    | cons insn part ih =>
      have hinsn : insn ∈ code := hpart List.mem_cons_self
      have hsame : (insn.relabel f).placed?.any (·.id = (f l).id) =
          insn.placed?.any (·.id = l.id) := by
        rw [Instruction.placed?_relabel]
        cases insn with
        | label l' =>
          have hl' : l'.id ∈ placedIds code := mem_placedIds.2 ⟨l', hinsn, rfl⟩
          simp [Instruction.placed?, h.id_eq_iff l' l hl' hl]
        | _ => rfl
      rw [List.map_cons, placeOf_cons, placeOf_cons, hsame,
        ih (fun _ hmem => hpart (List.mem_cons_of_mem _ hmem))]
  exact hpart code (List.Subset.refl _) offset

/-- A renamed label is as far down the list of labels as it was. -/
theorem idxOf_relabel {l : Label} (hl : l.id ∈ placedIds code) :
    (placedIds (code.map (Instruction.relabel f))).idxOf (f l).id =
      (placedIds code).idxOf l.id := by
  rw [placedIds_relabel, placedIds_eq_map]
  have hmem : ∀ l' ∈ code.filterMap Instruction.placed?, l'.id ∈ placedIds code := by
    intro l' hl'
    exact mem_placedIds.2 ⟨l', mem_filterMap_placed?.1 hl', rfl⟩
  -- only that these labels stand in the code matters for the induction
  generalize code.filterMap Instruction.placed? = labels at hmem
  induction labels with
  | nil => rfl
  | cons l' rest ih =>
    have hiff := h.id_eq_iff l' l (hmem l' List.mem_cons_self) hl
    have hbeq : ((f l').id == (f l).id) = (l'.id == l.id) := by
      rw [Bool.eq_iff_iff, beq_iff_eq, beq_iff_eq, hiff]
    rw [List.map_cons, List.map_cons, List.idxOf_cons, List.idxOf_cons, hbeq,
      ih fun l'' hl'' => hmem l'' (List.mem_cons_of_mem _ hl'')]

theorem mem_placedIds_relabel {l : Label} (hl : l.id ∈ placedIds code) :
    (f l).id ∈ placedIds (code.map (Instruction.relabel f)) := by
  have hplace := h.placeOf_relabel hl 0
  by_contra hnot
  rw [placeOf_eq_none_iff.2 hnot, eq_comm, placeOf_eq_none_iff] at hplace
  exact hplace hl

/-- Labels that stand once each still do. -/
theorem nodup_relabel (nodup : (placedIds code).Nodup) :
    (placedIds (code.map (Instruction.relabel f))).Nodup := by
  rw [placedIds_relabel]
  rw [placedIds_eq_map] at nodup
  refine List.Nodup.map_on ?_ (List.Nodup.of_map _ nodup)
  intro l hl l' hl' heq
  have hmem : ∀ {l}, l ∈ code.filterMap Instruction.placed? → l.id ∈ placedIds code := fun hl =>
    mem_placedIds.2 ⟨_, mem_filterMap_placed?.1 hl, rfl⟩
  exact List.inj_on_of_nodup_map nodup hl hl' ((h.id_eq_iff l l' (hmem hl) (hmem hl')).1 heq)

end Renames

/-! ### Labels by their places -/

/-- **The place of a label**, with the name of the label that stands there. -/
def anchor (r : Routine) (l : Label) : Label :=
  match r.offset? l with
  | some i => ⟨i, ((r.code[i]?.bind Instruction.placed?).map Label.name).getD l.name⟩
  | none => l

theorem anchor_eq {r : Routine} {l l' : Label} {i : Nat} (hoffset : r.offset? l = some i)
    (hplaced : r.code[i]? = some (.label l')) : r.anchor l = ⟨i, l'.name⟩ := by
  rw [anchor, hoffset]
  simp [hplaced, Instruction.placed?]

namespace Checked

variable {r : Routine} (h : r.Checked)

include h

theorem mem_placedIds_iff {l : Label} :
    l.id ∈ placedIds r.code.toList ↔ ∃ i, r.offset? l = some i := by
  rw [h.offset?_eq, ← not_iff_not, ← @placeOf_eq_none_iff r.code.toList 0 l.id, not_exists,
    Option.eq_none_iff_forall_ne_some]

/-- The place of a label that stands somewhere. -/
theorem exists_anchor {l : Label} (hl : l.id ∈ placedIds r.code.toList) :
    ∃ i l', r.offset? l = some i ∧ r.code[i]? = some (.label l') ∧ l'.id = l.id ∧
      r.anchor l = ⟨i, l'.name⟩ := by
  obtain ⟨i, hi⟩ := h.mem_placedIds_iff.1 hl
  obtain ⟨l', hl', hid⟩ := h.offset?_eq_some_iff.1 hi
  exact ⟨i, l', hi, hl', hid, anchor_eq hi hl'⟩

/-- Replacing labels by their places keeps them apart. -/
theorem renames_anchor : Renames r.code.toList r.anchor := by
  refine ⟨fun l l' hl hl' => ?_, fun l hl => ?_⟩
  · obtain ⟨i, l₀, hi, hplaced, hid, hanchor⟩ := h.exists_anchor hl
    obtain ⟨i', l₀', hi', hplaced', hid', hanchor'⟩ := h.exists_anchor hl'
    rw [hanchor, hanchor', ← hid, ← hid']
    -- one label stands at a place, and a label has one place
    constructor
    · rintro rfl
      rw [hplaced] at hplaced'
      cases hplaced'
      rfl
    · intro heq
      rw [h.offset?_eq, ← hid, heq, hid', ← h.offset?_eq, hi'] at hi
      exact (Option.some.inj hi).symm
  · obtain ⟨i, hi, hget⟩ := Array.mem_iff_getElem.1 (Array.mem_toList_iff.1 hl)
    have hplaced : r.code[i]? = some (.label l) := by rw [Array.getElem?_eq_getElem hi, hget]
    rw [anchor_eq (h.offset?_eq_some_iff.2 ⟨l, hplaced, rfl⟩) hplaced]

/-- Every block has a region. -/
theorem exists_region {b : TryCatch} (hb : b ∈ r.blocks) :
    ∃ region, Resolves (placeOf 0 r.code.toList) b region := by
  obtain ⟨hlen, hget⟩ := List.forall₂_iff_get.1 h.regions
  obtain ⟨i, hi, rfl⟩ := List.mem_iff_getElem.1 hb
  exact ⟨_, hget i hi (hlen ▸ hi)⟩

/-- The labels of a block stand somewhere. -/
theorem mem_placedIds_of_mem_blocks {b : TryCatch} (hb : b ∈ r.blocks) :
    b.start.id ∈ placedIds r.code.toList ∧ b.stop.id ∈ placedIds r.code.toList ∧
      b.handler.id ∈ placedIds r.code.toList := by
  obtain ⟨region, hresolves⟩ := h.exists_region hb
  have hplaced {id k : Nat} (hk : placeOf 0 r.code.toList id = some k) :
      id ∈ placedIds r.code.toList := by
    by_contra hnot
    rw [placeOf_eq_none_iff.2 hnot] at hk
    cases hk
  exact ⟨hplaced hresolves.start, hplaced hresolves.stop, hplaced hresolves.handler⟩

/-- The labels that instructions jump to stand somewhere. -/
theorem mem_placedIds_of_mem_targets {insn : Instruction} (hinsn : insn ∈ r.code.toList)
    {l : Label} (hl : l ∈ insn.targets) : l.id ∈ placedIds r.code.toList :=
  h.mem_placedIds_iff.2 (h.targets insn (Array.mem_toList_iff.1 hinsn) l hl)

end Checked

/-- **Two routines are alike**: they are the same up to the identity of labels. -/
structure Alike (r r' : Routine) : Prop where
  owner : r.owner = r'.owner
  name : r.name = r'.name
  descriptor : r.descriptor = r'.descriptor
  access : r.access = r'.access
  maxLocals : r.maxLocals = r'.maxLocals
  maxStack : r.maxStack = r'.maxStack
  code : r.code.toList.map (Instruction.relabel r.anchor) =
    r'.code.toList.map (Instruction.relabel r'.anchor)
  blocks : r.blocks.map (TryCatch.relabel r.anchor) = r'.blocks.map (TryCatch.relabel r'.anchor)

namespace Alike

variable {r r' r'' : Routine}

theorem symm (h : r.Alike r') : r'.Alike r :=
  ⟨h.owner.symm, h.name.symm, h.descriptor.symm, h.access.symm, h.maxLocals.symm, h.maxStack.symm,
    h.code.symm, h.blocks.symm⟩

theorem trans (h : r.Alike r') (h' : r'.Alike r'') : r.Alike r'' :=
  ⟨h.owner.trans h'.owner, h.name.trans h'.name, h.descriptor.trans h'.descriptor,
    h.access.trans h'.access, h.maxLocals.trans h'.maxLocals, h.maxStack.trans h'.maxStack,
    h.code.trans h'.code, h.blocks.trans h'.blocks⟩

end Alike

/-- A routine whose labels have been renamed is like the one before. -/
theorem alike_of_renames {r r' : Routine} {f : Label → Label} (hmade : r.Made) (hmade' : r'.Made)
    (hf : Renames r.code.toList f) (howner : r.owner = r'.owner) (hname : r.name = r'.name)
    (hdescriptor : r.descriptor = r'.descriptor) (haccess : r.access = r'.access)
    (hmaxLocals : r.maxLocals = r'.maxLocals) (hmaxStack : r.maxStack = r'.maxStack)
    (hcode : r'.code.toList = r.code.toList.map (Instruction.relabel f))
    (hblocks : r'.blocks = r.blocks.map (TryCatch.relabel f)) : r.Alike r' := by
  have hchecked := hmade.checked
  -- a renamed label has the place it had, where a label of the same name stands
  have hanchor {l : Label} (hl : l.id ∈ placedIds r.code.toList) :
      r'.anchor (f l) = r.anchor l := by
    obtain ⟨i, l₀, hi, hplaced, hid, hplace⟩ := hchecked.exists_anchor hl
    have hi' : r'.offset? (f l) = some i := by
      rw [hmade'.checked.offset?_eq, hcode, hf.placeOf_relabel hl, ← hchecked.offset?_eq, hi]
    have hplaced' : r'.code[i]? = some (.label (f l₀)) := by
      rw [← Array.getElem?_toList, hcode, List.getElem?_map, Array.getElem?_toList, hplaced]
      rfl
    have hmem : .label l₀ ∈ r.code.toList := Array.mem_toList_iff.2 (Array.mem_of_getElem? hplaced)
    rw [hplace, anchor_eq hi' hplaced', hf.name_eq l₀ hmem]
  refine ⟨howner, hname, hdescriptor, haccess, hmaxLocals, hmaxStack, ?_, ?_⟩
  · rw [hcode, List.map_map]
    refine List.map_congr_left fun insn hinsn => ?_
    rw [Function.comp_apply, Instruction.relabel_relabel]
    refine Instruction.relabel_congr (fun l hl => ?_) (fun l hl => ?_)
    · exact (hanchor (mem_placedIds.2 ⟨l, hl ▸ hinsn, rfl⟩)).symm
    · exact (hanchor (hchecked.mem_placedIds_of_mem_targets hinsn hl)).symm
  · rw [hblocks, List.map_map]
    refine List.map_congr_left fun b hb => ?_
    obtain ⟨hstart, hstop, hhandler⟩ := hchecked.mem_placedIds_of_mem_blocks hb
    simp only [Function.comp_apply, TryCatch.relabel, hanchor hstart, hanchor hstop,
      hanchor hhandler]

/-- The parts of a routine, with its labels replaced. -/
def relabelled (r : Routine) (f : Label → Label) : RoutineParts where
  owner := r.owner
  name := r.name
  descriptor := r.descriptor
  access := r.access
  code := (r.code.toList.map fun insn => some (insn.relabel f)).toArray
  blocks := r.blocks.map (TryCatch.relabel f)
  maxLocals := r.maxLocals
  maxStack := r.maxStack

/-- **The labels of a made routine can be renamed.** -/
theorem Made.exists_relabel {r : Routine} (hmade : r.Made) {f : Label → Label}
    (hf : Renames r.code.toList f) : ∃ r', make (r.relabelled f) = .ok r' ∧ r.Alike r' := by
  have hchecked := hmade.checked
  -- a routine is made anew of the renamed parts, so all that is checked has to be shown
  have htargets : ∀ insn ∈ r.code.toList.map (Instruction.relabel f), ∀ l ∈ insn.targets,
      l.id ∈ placedIds (r.code.toList.map (Instruction.relabel f)) := by
    intro insn' hinsn' l hl
    obtain ⟨insn, hinsn, rfl⟩ := List.mem_map.1 hinsn'
    rw [Instruction.targets_relabel] at hl
    obtain ⟨l', hl', rfl⟩ := List.mem_map.1 hl
    exact hf.mem_placedIds_relabel (hchecked.mem_placedIds_of_mem_targets hinsn hl')
  have hblocks : ∀ b ∈ r.blocks.map (TryCatch.relabel f), ∃ region,
      Resolves (placeOf 0 (r.code.toList.map (Instruction.relabel f))) b region := by
    intro b' hb'
    obtain ⟨b, hb, rfl⟩ := List.mem_map.1 hb'
    obtain ⟨region, hregion⟩ := hchecked.exists_region hb
    obtain ⟨hstart, hstop, hhandler⟩ := hchecked.mem_placedIds_of_mem_blocks hb
    refine ⟨region, ?_, ?_, ?_, hregion.type, hregion.ordered⟩
    · exact (hf.placeOf_relabel hstart 0).trans hregion.start
    · exact (hf.placeOf_relabel hstop 0).trans hregion.stop
    · exact (hf.placeOf_relabel hhandler 0).trans hregion.handler
  obtain ⟨r', hr'⟩ := exists_make (p := r.relabelled f) hchecked.signature (by simp [relabelled])
    (hf.nodup_relabel hchecked.nodup) htargets hblocks
  refine ⟨r', hr', ?_⟩
  obtain ⟨hchecked', hparts, howner, hname, hdescriptor, haccess, hblocks', hlocals, hstack⟩ :=
    make_ok hr'
  -- the number of locals is raised to what the arguments need, which it was already
  have hsignature : r'.signature = r.signature := by
    have hsame : r'.descriptor = r.descriptor := hdescriptor
    have hparse := hchecked'.signature
    rw [hsame, hchecked.signature] at hparse
    exact (Except.ok.inj hparse).symm
  have hsize : r'.argumentsSize = r.argumentsSize := by
    rw [argumentsSize, argumentsSize, hsignature, isStatic, haccess]
    rfl
  have hcode : r'.code.toList = r.code.toList.map (Instruction.relabel f) := by
    have hsome : (r.code.toList.map (Instruction.relabel f)).map some =
        r'.code.toList.map some := by
      rw [← hparts]
      simp [relabelled]
    exact (List.map_injective_iff.2 (fun _ _ => Option.some.inj) hsome).symm
  refine alike_of_renames hmade ⟨_, hr'⟩ hf howner.symm hname.symm hdescriptor.symm haccess.symm ?_
    hstack.symm hcode hblocks'
  rw [hlocals, hsize]
  exact (Int.max_eq_left hchecked.argumentsSize_le).symm

end Routine

end Outliner
