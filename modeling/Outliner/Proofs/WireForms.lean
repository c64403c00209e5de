import Outliner.Proofs.Descriptors
import Outliner.Proofs.Operands
import Outliner.Proofs.Renaming
import Outliner.Wire.Document

/-!
# The wire form loses nothing

In memory labels are identities, and in the wire form of a routine they are numbers that count the
places where labels stand. The form of an instruction has fields for the operands of every kind, of
which writing sets those that the instruction has, and reading takes those that the opcode asks for.
This module proves that the two sides agree.

* `Wire.canonical_of_toRoutine` — what is read is canonical.
* `Wire.exists_toRoutine_ofRoutine` — a canonical routine can be written, and what is read back is
  like it.
* `Wire.ofRoutine_eq_iff` — canonical routines have the same form exactly if they are alike.
* `Wire.Codec.Returns.exists_decode_encode` — a canonical routine is read back from its document in
  every format that gives its form back.

Reading gives the label numbered `k` the identity `k`. So what is read back is the routine with its
labels renamed to their numbers (`Wire.numbered`).
-/

namespace Outliner

/-! ### Descriptors -/

/-- A type that is read from its own text is read from its descriptor as well. -/
theorem JType.parse_descriptor {t : JType} (h : JType.parse t.text = .ok t) :
    JType.parse t.descriptor = .ok t := by
  obtain ⟨type, -, rfl⟩ := parse_eq_ok.1 h
  rcases type with _ | field
  · exact h
  · cases field <;> exact h

theorem JType.toList_text_ofResult (type : Option FieldType) :
    (ofResult type).text.toList = MethodType.renderResult type := by
  rcases type with _ | field
  · rfl
  · cases field with
    | prim p => cases p <;> rfl
    | object name => simp [ofResult, ofField, text, MethodType.renderResult, FieldType.render]
    | array t => simp [ofResult, ofField, text, MethodType.renderResult, FieldType.render]

/-- A type that is read from some text is read from its own. -/
theorem JType.parse_text {text : String} {t : JType} (h : JType.parse text = .ok t) :
    JType.parse t.text = .ok t := by
  obtain ⟨type, hread, rfl⟩ := parse_eq_ok.1 h
  have htext : (ofResult type).text.toList = text.toList := by
    rw [hread.eq_render, toList_text_ofResult]
  rwa [String.toList_inj.1 htext]

/-- An operation that is written the way its opcode is. -/
theorem Instruction.isCanonical_of_carries {insn : Instruction}
    (hnamed : insn.opcode.mnemonic?.isSome) (hcarries : insn.carries insn.opcode.form)
    (hconsistent : insn.isConsistent) :
    insn.isCanonical := by
  unfold Instruction.isCanonical
  split
  · rfl
  · rfl
  · rfl
  · rw [hnamed, hcarries, hconsistent]
    rfl

/-- The operands of an operation fit together. -/
theorem Instruction.isConsistent_of_isCanonical {insn : Instruction} (h : insn.isCanonical)
    (hpos : insn.isPosition = false) : insn.isConsistent := by
  unfold isCanonical at h
  split at h
  · cases hpos
  · cases hpos
  · cases hpos
  · exact (Bool.and_eq_true _ _ ▸ h).2

namespace Wire

open Routine (placedIds mem_placedIds placedIds_eq_map mem_filterMap_placed? Renames)

/-! ### What is read is canonical -/

theorem isConsistent_of_constantOf {form : InsnForm} {c : Constant} (h : constantOf form = .ok c) :
    (Instruction.ldc c).isConsistent := by
  unfold constantOf at h
  split at h
  case h_6 =>
    split at h
    · next t ht =>
      obtain rfl := Except.ok.inj h
      simp [Instruction.isConsistent, JType.parse_text ht]
    · cases h
  case h_7 => cases h
  all_goals
    obtain rfl := Except.ok.inj h
    rfl

theorem bind_eq_ok {ε α β : Type} {x : Except ε α} {f : α → Except ε β} {b : β} :
    (x >>= f) = .ok b ↔ ∃ a, x = .ok a ∧ f a = .ok b := by
  cases x with
  | ok a => exact ⟨fun h => ⟨a, rfl, h⟩, fun ⟨_, ha, h⟩ => Except.ok.inj ha ▸ h⟩
  | error e => exact ⟨fun h => (nomatch h), fun ⟨_, ha, _⟩ => (nomatch ha)⟩

/-- **An operation that is read is written the way its opcode is.** -/
theorem isCanonical_of_operationOf {labels : Array Label} {form : InsnForm} {insn : Instruction}
    (h : operationOf labels form = .ok insn) : insn.isCanonical := by
  unfold operationOf at h
  dsimp only at h
  split at h
  · cases h
  next hnone =>
  have hnamed : (Opcode.ofCode form.op).mnemonic?.isSome := by
    simpa [Option.isSome_iff_ne_none] using hnone
  -- increments and arrays have one opcode each; for other kinds the opcode is read with the form
  split at h
  case h_4 | h_13 =>
    obtain rfl := Except.ok.inj h
    exact Instruction.isCanonical_of_carries rfl rfl rfl
  case h_9 =>
    obtain ⟨c, hc, h⟩ := bind_eq_ok.1 h
    obtain rfl := Except.ok.inj h
    exact Instruction.isCanonical_of_carries rfl rfl (isConsistent_of_constantOf hc)
  case h_10 hform =>
    obtain ⟨target, -, h⟩ := bind_eq_ok.1 h
    obtain rfl := Except.ok.inj h
    refine Instruction.isCanonical_of_carries hnamed ?_ rfl
    rw [Instruction.opcode, hform]
    rfl
  case h_11 =>
    obtain ⟨fallback, -, h⟩ := bind_eq_ok.1 h
    obtain ⟨targets, -, h⟩ := bind_eq_ok.1 h
    obtain rfl := Except.ok.inj h
    exact Instruction.isCanonical_of_carries rfl rfl (decide_eq_true rfl)
  case h_12 =>
    obtain ⟨fallback, -, h⟩ := bind_eq_ok.1 h
    obtain ⟨targets, -, h⟩ := bind_eq_ok.1 h
    split at h
    · cases h
    next hsizes =>
    obtain rfl := Except.ok.inj h
    exact Instruction.isCanonical_of_carries rfl rfl (decide_eq_true (not_ne_iff.1 hsizes).symm)
  all_goals
    next hform =>
    obtain rfl := Except.ok.inj h
    refine Instruction.isCanonical_of_carries hnamed ?_ rfl
    rw [Instruction.opcode, hform]
    rfl

/-- An instruction that is read is an operation, or one that is always canonical. -/
theorem isCanonical_of_instructionOf {labels : Array Label} {placed placed' : Nat}
    {form : InsnForm} {insn : Instruction}
    (h : instructionOf labels placed form = .ok (insn, placed')) : insn.isCanonical := by
  unfold instructionOf at h
  split at h
  · split at h
    · obtain ⟨rfl, -⟩ := Prod.mk.inj (Except.ok.inj h)
      rfl
    · cases h
  · obtain ⟨rfl, -⟩ := Prod.mk.inj (Except.ok.inj h)
    rfl
  · obtain ⟨rfl, -⟩ := Prod.mk.inj (Except.ok.inj h)
    rfl
  · cases hop : operationOf labels form with
    | error e => rw [hop] at h; cases h
    | ok insn' =>
      rw [hop] at h
      obtain ⟨rfl, -⟩ := Prod.mk.inj (Except.ok.inj h)
      exact isCanonical_of_operationOf hop
  · cases h

theorem isCanonical_of_instructionsOf {key : String} {labels : Array Label} {offset placed : Nat}
    {forms : List InsnForm} {code code' : Array (Option Instruction)}
    (h : instructionsOf key labels offset placed forms code = .ok code')
    (hcode : ∀ insn, some insn ∈ code → insn.isCanonical) :
    ∀ insn, some insn ∈ code' → insn.isCanonical := by
  induction forms generalizing offset placed code with
  | nil =>
    obtain rfl := Except.ok.inj h
    exact hcode
  | cons form rest ih =>
    unfold instructionsOf at h
    split at h
    · next insn placed' hinsn =>
      refine ih h fun insn' hmem => ?_
      rcases Array.mem_push.1 hmem with hmem | heq
      · exact hcode insn' hmem
      · obtain rfl := Option.some.inj heq
        exact isCanonical_of_instructionOf hinsn
    · cases h

/-- What it takes for a form to be read. -/
theorem toRoutine_eq_ok {form : RoutineForm} {r : Routine} :
    toRoutine form = .ok r ↔ form.version = version ∧ ∃ code blocks,
      instructionsOf (qualifiedName form.owner form.name form.descriptor)
        (placedLabels form.insns) 0 0 form.insns #[] = .ok code ∧
      form.blocks.zipIdx.mapM (fun p => blockOf (placedLabels form.insns) p.2 p.1) = .ok blocks ∧
      Routine.make {
        owner := form.owner
        name := form.name
        descriptor := form.descriptor
        access := ⟨form.access⟩
        code := code
        blocks := blocks
        maxLocals := form.maxLocals
        maxStack := form.maxStack } = .ok r := by
  unfold toRoutine
  split
  · next hversion => simp [hversion]
  next hversion =>
  rw [and_iff_right (not_ne_iff.1 hversion), bind_eq_ok]
  refine exists_congr fun code => ?_
  rw [exists_and_left, bind_eq_ok]
  refine and_congr_right fun _ => exists_congr fun blocks => and_congr_right fun _ => ?_
  split
  · next r' hmake =>
    rw [hmake]
    exact ⟨fun h => by rw [Except.ok.inj h], fun h => by rw [Except.ok.inj h]; rfl⟩
  · next hmake => simp [hmake]

/-- **What is read is canonical.** -/
theorem canonical_of_toRoutine {form : RoutineForm} {r : Routine} (h : toRoutine form = .ok r) :
    r.Made ∧ r.Canonical := by
  obtain ⟨-, code, blocks, hcode, -, hmake⟩ := toRoutine_eq_ok.1 h
  refine ⟨⟨_, hmake⟩, fun insn hinsn => ?_⟩
  obtain ⟨-, hparts, -⟩ := Routine.make_ok hmake
  refine isCanonical_of_instructionsOf hcode (by simp) insn ?_
  rw [← Array.mem_toList_iff, hparts]
  exact List.mem_map_of_mem (Array.mem_toList_iff.2 hinsn)

/-! ### Labels by their numbers -/

/-- Labels that are numbered one after the other, on top of those that have a number. -/
theorem getElem?_foldl_insert {labels : List Label} (nodup : (labels.map Label.id).Nodup)
    {table : LabelTable} (fresh : ∀ l ∈ labels, table[l.id]? = none) (id : Nat) :
    (labels.foldl (fun table l => table.insert l.id table.size) table)[id]? =
      if id ∈ labels.map Label.id then some (table.size + (labels.map Label.id).idxOf id)
      else table[id]? := by
  induction labels generalizing table with
  | nil => rfl
  | cons l rest ih =>
    rw [List.map_cons, List.nodup_cons] at nodup
    have hnone : table[l.id]? = none := fresh l List.mem_cons_self
    have hsize : (table.insert l.id table.size).size = table.size + 1 := by
      rw [Std.TreeMap.size_insert, Std.TreeMap.contains_eq_isSome_getElem?, hnone]
      rfl
    have fresh' : ∀ l' ∈ rest, (table.insert l.id table.size)[l'.id]? = none := by
      intro l' hl'
      have hne : l.id ≠ l'.id := fun heq => nodup.1 (heq ▸ List.mem_map_of_mem hl')
      simpa [Std.TreeMap.getElem?_insert, hne] using fresh l' (List.mem_cons_of_mem _ hl')
    rw [List.foldl_cons, ih nodup.2 fresh', hsize, List.map_cons]
    -- the first label gets the size of the table for its number, the others come after it
    by_cases hid : l.id = id
    · subst hid
      rw [if_neg nodup.1, if_pos List.mem_cons_self, List.idxOf_cons_self,
        Std.TreeMap.getElem?_insert_self, Nat.add_zero]
    · rw [List.idxOf_cons_ne _ hid, Std.TreeMap.getElem?_insert, Nat.add_right_comm, Nat.add_assoc]
      simp [hid, Ne.symm hid]

/-- The number of a label counts the labels that stand before it. -/
theorem labelNumber_eq {code : List Instruction} (nodup : (placedIds code).Nodup) {l : Label}
    (hl : l.id ∈ placedIds code) :
    labelNumber (numberLabels code) l = ((placedIds code).idxOf l.id : Nat) := by
  rw [placedIds_eq_map] at nodup hl ⊢
  rw [labelNumber, numberLabels, Std.TreeMap.get?_eq_getElem?,
    getElem?_foldl_insert nodup (by simp), if_pos hl]
  simp

/-- **The label with its number as its identity**, and the name of the label that stands where it
does. -/
def numbered (code : List Instruction) (l : Label) : Label :=
  let number := (placedIds code).idxOf l.id
  ⟨number, (((code.filterMap Instruction.placed?)[number]?).map Label.name).getD ""⟩

/-- The label that has the number of a label. -/
theorem exists_getElem?_idxOf {code : List Instruction} {l : Label} (hl : l.id ∈ placedIds code) :
    ∃ l', (code.filterMap Instruction.placed?)[(placedIds code).idxOf l.id]? = some l' ∧
      l'.id = l.id := by
  have hget : (placedIds code)[(placedIds code).idxOf l.id]? = some l.id :=
    List.getElem?_idxOf hl
  rw [placedIds_eq_map, List.getElem?_map] at hget
  rw [placedIds_eq_map]
  exact Option.map_eq_some_iff.1 hget

/-- Numbers keep labels apart. -/
theorem renames_numbered {code : List Instruction} (nodup : (placedIds code).Nodup) :
    Renames code (numbered code) := by
  refine ⟨fun l l' hl _ => List.idxOf_inj hl, fun l hl => ?_⟩
  have hid : l.id ∈ placedIds code := mem_placedIds.2 ⟨l, hl, rfl⟩
  obtain ⟨l', hget, hsame⟩ := exists_getElem?_idxOf hid
  rw [placedIds_eq_map] at nodup
  -- a label stands once, so the label with this number is the label itself
  obtain rfl : l' = l := List.inj_on_of_nodup_map nodup (List.mem_of_getElem? hget)
    (mem_filterMap_placed?.2 hl) hsame
  simp [numbered, hget]

/-- The number of a label that stands in code. -/
theorem numbered_of_getElem? {code : List Instruction} (nodup : (placedIds code).Nodup) {k : Nat}
    {l : Label} (hk : (code.filterMap Instruction.placed?)[k]? = some l) :
    numbered code l = ⟨k, l.name⟩ := by
  have hnumber : (placedIds code).idxOf l.id = k := by
    rw [placedIds_eq_map] at nodup ⊢
    obtain ⟨hlt, rfl⟩ := List.getElem?_eq_some_iff.1 hk
    have hget := nodup.idxOf_getElem k (by simpa using hlt)
    rwa [List.getElem_map] at hget
  simp [numbered, hnumber, hk]

/-! ### Forms of instructions -/

/-- The marker in the form of an instruction. -/
def markerOf : Instruction → String
  | .label _ => "label"
  | .line _ => "line"
  | .frame => "frame"
  | _ => ""

theorem marker_of_insnForm {numbers : LabelTable} {insn : Instruction} {form : InsnForm}
    (h : insnForm numbers insn = .ok form) : form.marker = markerOf insn := by
  cases insn with
  | ldc c =>
    cases c with
    | missing => cases h
    | _ =>
      obtain rfl := Except.ok.inj h
      rfl
  | _ =>
    obtain rfl := Except.ok.inj h
    rfl

/-- The names in the forms of labels are those of the labels, in order. -/
theorem names_of_insnForm {numbers : LabelTable} {code : List Instruction} {forms : List InsnForm}
    (h : List.Forall₂ (fun insn form => insnForm numbers insn = .ok form) code forms) :
    (forms.filter (·.marker = "label")).map InsnForm.name =
      (code.filterMap Instruction.placed?).map Label.name := by
  induction h with
  | nil => rfl
  | @cons insn form code forms hform _ ih =>
    have hmarker := marker_of_insnForm hform
    cases insn with
    | label l =>
      obtain rfl := Except.ok.inj hform
      rw [List.filter_cons_of_pos (by simp), List.map_cons, ih]
      rfl
    | _ => rw [List.filter_cons_of_neg (by simp [hmarker, markerOf]), ih]; rfl

/-- The label read for a number is the label with that number. -/
theorem getElem?_placedLabels {numbers : LabelTable} {code : List Instruction}
    {forms : List InsnForm}
    (h : List.Forall₂ (fun insn form => insnForm numbers insn = .ok form) code forms) (k : Nat) :
    (placedLabels forms)[k]? =
      ((code.filterMap Instruction.placed?)[k]?).map fun l => ⟨k, l.name⟩ := by
  rw [placedLabels, List.getElem?_toArray, names_of_insnForm h]
  simp [Option.map_map, Function.comp_def]

theorem labelAt_labelNumber {numbers : LabelTable} {code : List Instruction}
    {forms : List InsnForm} (nodup : (placedIds code).Nodup)
    (h : List.Forall₂ (fun insn form => insnForm numbers insn = .ok form) code forms) {l : Label}
    (hl : l.id ∈ placedIds code) :
    labelAt (placedLabels forms) (labelNumber (numberLabels code) l) = .ok (numbered code l) := by
  obtain ⟨l', hget, -⟩ := exists_getElem?_idxOf hl
  rw [labelNumber_eq nodup hl, labelAt, if_neg (by omega), Int.toNat_natCast,
    getElem?_placedLabels h, hget]
  simp [numbered, hget]

theorem mapM_map_eq_ok {ε α β γ : Type} {f : β → Except ε γ} {k : α → β} {g : α → γ} {l : List α}
    (h : ∀ a ∈ l, f (k a) = .ok (g a)) : (l.map k).mapM f = .ok (l.map g) := by
  induction l with
  | nil => rfl
  | cons a rest ih =>
    rw [List.map_cons, List.mapM_cons, h a List.mem_cons_self,
      ih fun a' ha' => h a' (List.mem_cons_of_mem _ ha')]
    rfl

/-- A constant that can be written down is read from its form. -/
theorem exists_constantOf {c : Constant} (h : (Instruction.ldc c).isConsistent) (code : Int) :
    ∃ form, constantForm { op := code } c = .ok form ∧ form.op = code ∧
      constantOf form = .ok c := by
  cases c with
  | missing => cases h
  | int n => exact ⟨_, rfl, rfl, by simp [constantOf]⟩
  | long n => exact ⟨_, rfl, rfl, by simp [constantOf]⟩
  | float bits => exact ⟨_, rfl, rfl, by simp [constantOf]⟩
  | double bits => exact ⟨_, rfl, rfl, by simp [constantOf]⟩
  | string value => exact ⟨_, rfl, rfl, by simp [constantOf]⟩
  | «class» t =>
    have hparse : JType.parse t.text = .ok t := by
      unfold Instruction.isConsistent at h
      dsimp only at h
      split at h
      · next u hu => rw [hu, of_decide_eq_true h]
      · cases h
    exact ⟨_, rfl, rfl, by simp [constantOf, JType.parse_descriptor hparse]⟩

/-- **An operation is read from its form**, with the labels that are read for the numbers of its
targets. -/
theorem exists_operationOf {numbers : LabelTable} {labels : Array Label} {f : Label → Label}
    {insn : Instruction} (hcanonical : insn.isCanonical) (hpos : insn.isPosition = false)
    (htargets : ∀ l ∈ insn.targets, labelAt labels (labelNumber numbers l) = .ok (f l)) :
    ∃ form, insnForm numbers insn = .ok form ∧ operationOf labels form = .ok (insn.relabel f) := by
  obtain ⟨hnamed, hcarries⟩ := Instruction.carries_of_isCanonical hcanonical hpos
  have hop := Opcode.ofCode_code hnamed
  have hnone : insn.opcode.mnemonic?.isNone = false := by
    rw [Option.isNone_eq_false_iff, hnamed]
  have hconsistent := Instruction.isConsistent_of_isCanonical hcanonical hpos
  generalize hform : insn.opcode.form = form at hcarries
  unfold Instruction.carries at hcarries
  -- the form that the opcode asks for is the one that the instruction has
  split at hcarries
  case h_9 c =>
    obtain ⟨form, hwritten, hop', hread⟩ := exists_constantOf hconsistent (Opcode.code .ldc)
    refine ⟨form, hwritten, ?_⟩
    simp only [operationOf, hop', Instruction.opcode] at hop hnone hform ⊢
    simp only [hop, hnone, hform, Bool.false_eq_true, if_false, hread]
    rfl
  case h_10 op target =>
    refine ⟨_, rfl, ?_⟩
    simp only [operationOf, hop, hnone, hform, Bool.false_eq_true, if_false]
    rw [htargets target List.mem_cons_self]
    rfl
  case h_11 low high fallback targets =>
    refine ⟨_, rfl, ?_⟩
    have hmap := mapM_map_eq_ok fun l hl => htargets l (List.mem_cons_of_mem _ hl)
    have hhigh : high = low + Int32.ofNat targets.length - 1 := of_decide_eq_true hconsistent
    simp only [operationOf, hop, hnone, hform, Bool.false_eq_true, if_false, Int32.ofInt_toInt]
    rw [htargets fallback List.mem_cons_self, hmap, hhigh]
    simp [Instruction.relabel, bind, Except.bind, pure, Except.pure]
  case h_12 fallback keys targets =>
    refine ⟨_, rfl, ?_⟩
    have hmap := mapM_map_eq_ok fun l hl => htargets l (List.mem_cons_of_mem _ hl)
    have hsizes : keys.length = targets.length := of_decide_eq_true hconsistent
    simp only [operationOf, hop, hnone, hform, Bool.false_eq_true, if_false]
    rw [htargets fallback List.mem_cons_self, hmap]
    simp [Instruction.relabel, bind, Except.bind, pure, Except.pure, hsizes]
  case h_14 => cases hcarries
  all_goals
    refine ⟨_, rfl, ?_⟩
    simp only [operationOf, hop, hnone, hform, Bool.false_eq_true, if_false, Int32.ofInt_toInt]
    rfl

/-- Every instruction is read from its form, the labels that stand in code one after the other. -/
theorem exists_instructionOf {numbers : LabelTable} {labels : Array Label} {f : Label → Label}
    {insn : Instruction} {placed : Nat} (hcanonical : insn.isCanonical)
    (htargets : ∀ l ∈ insn.targets, labelAt labels (labelNumber numbers l) = .ok (f l))
    (hplaced : ∀ l, insn.placed? = some l → labels[placed]? = some (f l)) :
    ∃ form, insnForm numbers insn = .ok form ∧ instructionOf labels placed form =
      .ok (insn.relabel f, placed + (placedIds [insn]).length) := by
  -- a position is written as a marker, everything else as an operation
  cases hpos : insn.isPosition with
  | true =>
    cases insn with
    | label l => exact ⟨_, rfl, by simp [instructionOf, hplaced l rfl, Instruction.relabel]; rfl⟩
    | line n => exact ⟨_, rfl, by simp [instructionOf, Instruction.relabel]; rfl⟩
    | frame => exact ⟨_, rfl, by simp [instructionOf, Instruction.relabel]; rfl⟩
    | _ => cases hpos
  | false =>
    obtain ⟨form, hwritten, hread⟩ := exists_operationOf hcanonical hpos htargets
    have hmarker : form.marker = "" := by
      rw [marker_of_insnForm hwritten]
      cases insn with
      | label l | line n | frame => cases hpos
      | _ => rfl
    have hnone : (placedIds [insn]).length = 0 := by
      cases insn with
      | label l => cases hpos
      | _ => rfl
    refine ⟨form, hwritten, ?_⟩
    simp [instructionOf, hmarker, hread, hnone, Except.map]

/-- Canonical instructions can be written. -/
theorem exists_insnForm (numbers : LabelTable) {insn : Instruction} (h : insn.isCanonical) :
    ∃ form, insnForm numbers insn = .ok form := by
  cases insn with
  | ldc c =>
    obtain ⟨form, hform, -⟩ :=
      exists_constantOf (Instruction.isConsistent_of_isCanonical h rfl) (Opcode.code .ldc)
    exact ⟨form, hform⟩
  | _ => exact ⟨_, rfl⟩

/-- What is written for code is what is written for each instruction. -/
theorem insnForms_eq_ok {key : String} {numbers : LabelTable} {code : List Instruction}
    {forms : List InsnForm}
    (h : List.Forall₂ (fun insn form => insnForm numbers insn = .ok form) code forms)
    (offset : Nat) (before : List InsnForm) :
    insnForms key numbers offset code before = .ok (before.reverse ++ forms) := by
  induction h generalizing offset before with
  | nil => rw [insnForms, List.append_nil]
  | cons hform _ ih =>
    rw [insnForms, hform]
    dsimp only
    rw [ih, List.reverse_cons, List.append_assoc, List.singleton_append]

theorem exists_forms (numbers : LabelTable) {code : List Instruction}
    (h : ∀ insn ∈ code, insn.isCanonical) :
    ∃ forms, List.Forall₂ (fun insn form => insnForm numbers insn = .ok form) code forms := by
  induction code with
  | nil => exact ⟨[], .nil⟩
  | cons insn code ih =>
    obtain ⟨form, hform⟩ := exists_insnForm numbers (h insn List.mem_cons_self)
    obtain ⟨forms, hforms⟩ := ih fun insn' hinsn' => h insn' (List.mem_cons_of_mem _ hinsn')
    exact ⟨form :: forms, .cons hform hforms⟩

/-- **Code is read from its forms**, when the labels that stand in it come next. -/
theorem instructionsOf_forms {numbers : LabelTable} {labels : Array Label} {f : Label → Label}
    (key : String) {code : List Instruction} {forms : List InsnForm}
    (hforms : List.Forall₂ (fun insn form => insnForm numbers insn = .ok form) code forms)
    (hcanonical : ∀ insn ∈ code, insn.isCanonical)
    (htargets : ∀ insn ∈ code, ∀ l ∈ insn.targets,
      labelAt labels (labelNumber numbers l) = .ok (f l))
    (offset : Nat) {placed : Nat}
    (hplaced : ∀ (k : Nat) (l : Label), (code.filterMap Instruction.placed?)[k]? = some l →
      labels[placed + k]? = some (f l)) (before : Array (Option Instruction)) :
    instructionsOf key labels offset placed forms before =
      .ok (before ++ (code.map fun insn => some (insn.relabel f)).toArray) := by
  induction hforms generalizing offset placed before with
  | nil => simp [instructionsOf]
  | @cons insn form code forms hform _ ih =>
    -- the label that stands here is the next of those placed
    have hhere : ∀ l, insn.placed? = some l → labels[placed]? = some (f l) := by
      intro l hl
      exact hplaced 0 l (by rw [List.filterMap_cons_some hl]; rfl)
    obtain ⟨form', hwritten, hread⟩ := exists_instructionOf (hcanonical insn List.mem_cons_self)
      (htargets insn List.mem_cons_self) hhere
    obtain rfl : form = form' := Except.ok.inj (hform.symm.trans hwritten)
    -- and the ones that follow come behind it
    have hnext : ∀ (k : Nat) (l : Label), (code.filterMap Instruction.placed?)[k]? = some l →
        labels[placed + (placedIds [insn]).length + k]? = some (f l) := by
      intro k l hk
      rw [Nat.add_assoc]
      refine hplaced _ l ?_
      cases hp : insn.placed? with
      | none =>
        rw [List.filterMap_cons_none hp, Routine.placedIds_cons_of_placed?_eq_none hp]
        simpa [placedIds] using hk
      | some l' =>
        rw [List.filterMap_cons_some hp]
        simpa [placedIds, hp, Nat.add_comm] using hk
    rw [instructionsOf, hread]
    dsimp only
    rw [ih (fun insn' h => hcanonical insn' (List.mem_cons_of_mem _ h))
      (fun insn' h => htargets insn' (List.mem_cons_of_mem _ h)) _ hnext]
    simp

/-- The blocks of a routine are read from their forms. -/
theorem mapM_blockOf {labels : Array Label} {number : Label → Int} {f : Label → Label}
    (blocks : List TryCatch)
    (h : ∀ b ∈ blocks, labelAt labels (number b.start) = .ok (f b.start) ∧
      labelAt labels (number b.stop) = .ok (f b.stop) ∧
      labelAt labels (number b.handler) = .ok (f b.handler)) :
    ((blocks.map fun b => (⟨number b.start, number b.stop, number b.handler, b.type⟩ :
      BlockForm)).zipIdx.mapM fun p => blockOf labels p.2 p.1) =
      .ok (blocks.map (TryCatch.relabel f)) := by
  rw [List.zipIdx_map]
  have hmap : blocks.map (TryCatch.relabel f) =
      blocks.zipIdx.map fun p => TryCatch.relabel f p.1 :=
    calc blocks.map (TryCatch.relabel f)
      _ = (blocks.zipIdx.map Prod.fst).map (TryCatch.relabel f) := by rw [List.zipIdx_map_fst]
      _ = blocks.zipIdx.map fun p => TryCatch.relabel f p.1 := List.map_map
  rw [hmap]
  refine mapM_map_eq_ok fun p hp => ?_
  obtain ⟨hstart, hstop, hhandler⟩ := h p.1 (List.fst_mem_of_mem_zipIdx hp)
  simp [blockOf, hstart, hstop, hhandler, TryCatch.relabel, bind, Except.bind, pure, Except.pure]

/-! ### Forms of routines -/

/-- The form of a routine whose instructions have the given forms. -/
def formWith (r : Routine) (insns : List InsnForm) : RoutineForm :=
  let number := labelNumber (numberLabels r.code.toList)
  { version := version
    owner := r.owner
    name := r.name
    descriptor := r.descriptor
    access := r.access.bits
    maxLocals := r.maxLocals
    maxStack := r.maxStack
    insns := insns
    blocks := r.blocks.map fun b =>
      ⟨number b.start, number b.stop, number b.handler, b.type⟩ }

theorem ofRoutine_eq (r : Routine) :
    ofRoutine r = (insnForms r.key (numberLabels r.code.toList) 0 r.code.toList []).map
      (formWith r) := by
  unfold ofRoutine
  dsimp only
  cases insnForms r.key (numberLabels r.code.toList) 0 r.code.toList [] <;> rfl

/-- **A canonical routine can be written, and what is read back is like it.** -/
theorem exists_toRoutine_ofRoutine {r : Routine} (hmade : r.Made) (hcanonical : r.Canonical) :
    ∃ form r', ofRoutine r = .ok form ∧ toRoutine form = .ok r' ∧ r.Alike r' := by
  have hchecked := hmade.checked
  have hlist : ∀ insn ∈ r.code.toList, insn.isCanonical := fun insn hinsn =>
    hcanonical insn (Array.mem_toList_iff.1 hinsn)
  obtain ⟨forms, hforms⟩ := exists_forms (numberLabels r.code.toList) hlist
  have hwritten : ofRoutine r = .ok (formWith r forms) := by
    rw [ofRoutine_eq, insnForms_eq_ok hforms]
    rfl
  -- reading gives each label its number for its identity
  have hlabel {l : Label} (hl : l.id ∈ placedIds r.code.toList) :=
    labelAt_labelNumber hchecked.nodup hforms hl
  have hrenames := renames_numbered hchecked.nodup
  have hplaced : ∀ (k : Nat) (l : Label),
      (r.code.toList.filterMap Instruction.placed?)[k]? = some l →
      (placedLabels forms)[0 + k]? = some (numbered r.code.toList l) := by
    intro k l hk
    rw [Nat.zero_add, getElem?_placedLabels hforms, hk, numbered_of_getElem? hchecked.nodup hk]
    rfl
  have hcode := instructionsOf_forms r.key hforms hlist
    (fun insn hinsn l hl => hlabel (hchecked.mem_placedIds_of_mem_targets hinsn hl)) 0 hplaced #[]
  have hblocks := mapM_blockOf r.blocks fun b hb =>
    have ⟨hstart, hstop, hhandler⟩ := hchecked.mem_placedIds_of_mem_blocks hb
    ⟨hlabel hstart, hlabel hstop, hlabel hhandler⟩
  obtain ⟨r', hmake, halike⟩ := hmade.exists_relabel hrenames
  rw [Array.empty_append] at hcode
  exact ⟨_, r', hwritten, toRoutine_eq_ok.2 ⟨rfl, _, _, hcode, hblocks, hmake⟩, halike⟩

/-- Renaming labels keeps their numbers. -/
theorem labelNumber_relabel {code : List Instruction} (nodup : (placedIds code).Nodup)
    {f : Label → Label} (hf : Renames code f) {l : Label} (hl : l.id ∈ placedIds code) :
    labelNumber (numberLabels (code.map (Instruction.relabel f))) (f l) =
      labelNumber (numberLabels code) l := by
  rw [labelNumber_eq (hf.nodup_relabel nodup) (hf.mem_placedIds_relabel hl),
    labelNumber_eq nodup hl, hf.idxOf_relabel hl]

/-- The form of an instruction has the numbers of labels, and the name of a label that stands
there. -/
theorem insnForm_relabel {numbers numbers' : LabelTable} {f : Label → Label} {insn : Instruction}
    (htargets : ∀ l ∈ insn.targets, labelNumber numbers' (f l) = labelNumber numbers l)
    (hname : ∀ l, insn = .label l → (f l).name = l.name) :
    insnForm numbers' (insn.relabel f) = insnForm numbers insn := by
  cases insn with
  | label l => simp only [Instruction.relabel, insnForm, hname l rfl, Instruction.opcode]
  | jump op target =>
    simp only [Instruction.relabel, insnForm, htargets target List.mem_cons_self,
      Instruction.opcode]
  | tableSwitch low high fallback targets | lookupSwitch fallback keys targets =>
    have hmap : (targets.map f).map (labelNumber numbers') = targets.map (labelNumber numbers) := by
      rw [List.map_map]
      exact List.map_congr_left fun l hl => htargets l (List.mem_cons_of_mem _ hl)
    simp only [Instruction.relabel, insnForm, htargets fallback List.mem_cons_self, hmap,
      Instruction.opcode]
  | _ => rfl

theorem insnForms_congr {numbers numbers' : LabelTable} {f : Instruction → Instruction}
    {key : String} {code : List Instruction}
    (h : ∀ insn ∈ code, insnForm numbers' (f insn) = insnForm numbers insn) (offset : Nat)
    (before : List InsnForm) :
    insnForms key numbers' offset (code.map f) before =
      insnForms key numbers offset code before := by
  induction code generalizing offset before with
  | nil => rfl
  | cons insn code ih =>
    rw [List.map_cons, insnForms, insnForms, h insn List.mem_cons_self]
    split
    · exact ih (fun insn' hinsn' => h insn' (List.mem_cons_of_mem _ hinsn')) _ _
    · rfl

/-- **Routines that are alike have the same form.** -/
theorem ofRoutine_eq_of_alike {r r' : Routine} (hmade : r.Made) (hmade' : r'.Made)
    (h : r.Alike r') : ofRoutine r = ofRoutine r' := by
  -- both have the form of the code in which labels are replaced by their places
  have hinsns {r : Routine} (hmade : r.Made) (key : String) :
      insnForms key (numberLabels (r.code.toList.map (Instruction.relabel r.anchor))) 0
          (r.code.toList.map (Instruction.relabel r.anchor)) [] =
        insnForms key (numberLabels r.code.toList) 0 r.code.toList [] := by
    have hchecked := hmade.checked
    have hrenames := hchecked.renames_anchor
    refine insnForms_congr (fun insn hinsn => insnForm_relabel (fun l hl => ?_) fun l hl => ?_) _ _
    · exact labelNumber_relabel hchecked.nodup hrenames
        (hchecked.mem_placedIds_of_mem_targets hinsn hl)
    · exact hrenames.name_eq l (hl ▸ hinsn)
  have hblocks {r : Routine} (hmade : r.Made) : (formWith r []).blocks =
      (r.blocks.map (TryCatch.relabel r.anchor)).map fun b =>
        let number := labelNumber
          (numberLabels (r.code.toList.map (Instruction.relabel r.anchor)))
        ⟨number b.start, number b.stop, number b.handler, b.type⟩ := by
    have hchecked := hmade.checked
    have hnumber {l : Label} (hl : l.id ∈ placedIds r.code.toList) :=
      labelNumber_relabel hchecked.nodup hchecked.renames_anchor hl
    rw [List.map_map]
    refine List.map_congr_left fun b hb => ?_
    obtain ⟨hstart, hstop, hhandler⟩ := hchecked.mem_placedIds_of_mem_blocks hb
    simp only [Function.comp_apply, TryCatch.relabel, hnumber hstart, hnumber hstop,
      hnumber hhandler]
  have hkey : r.key = r'.key := by
    rw [Routine.key, Routine.key, h.owner, h.name, h.descriptor]
  have hform : formWith r = formWith r' := by
    funext insns
    have hsame : (formWith r []).blocks = (formWith r' []).blocks := by
      rw [hblocks hmade, hblocks hmade', h.code, h.blocks]
    simp only [formWith] at hsame ⊢
    rw [h.owner, h.name, h.descriptor, h.access, h.maxLocals, h.maxStack, hsame]
  rw [ofRoutine_eq, ofRoutine_eq, ← hinsns hmade, ← hinsns hmade', h.code, hkey, hform]

/-- **Canonical routines have the same form exactly if they are alike.** -/
theorem ofRoutine_eq_iff {r r' : Routine} (hmade : r.Made) (hcanonical : r.Canonical)
    (hmade' : r'.Made) (hcanonical' : r'.Canonical) :
    ofRoutine r = ofRoutine r' ↔ r.Alike r' := by
  refine ⟨fun h => ?_, ofRoutine_eq_of_alike hmade hmade'⟩
  obtain ⟨form, s, hwritten, hread, halike⟩ := exists_toRoutine_ofRoutine hmade hcanonical
  obtain ⟨form', s', hwritten', hread', halike'⟩ := exists_toRoutine_ofRoutine hmade' hcanonical'
  obtain rfl : form = form' := by
    rw [hwritten, hwritten'] at h
    exact Except.ok.inj h
  obtain rfl : s = s' := Except.ok.inj (hread.symm.trans hread')
  exact halike.trans halike'.symm

/-! ### Documents -/

/-- A format that gives a record back from the bytes it writes for it. -/
def Codec.Returns (c : Codec) (form : RoutineForm) : Prop :=
  ∃ bytes, c.write form = .ok bytes ∧ c.read bytes = .ok form

theorem Codec.Returns.exists_decode_encode {c : Codec} {r : Routine} {form : RoutineForm}
    (h : c.Returns form) (hmade : r.Made) (hcanonical : r.Canonical)
    (hform : ofRoutine r = .ok form) :
    ∃ bytes r', c.encode r = .ok bytes ∧ c.decode bytes = .ok r' ∧ r.Alike r' := by
  obtain ⟨form', r', hwritten, hread, halike⟩ := exists_toRoutine_ofRoutine hmade hcanonical
  obtain rfl : form = form' := Except.ok.inj (hform.symm.trans hwritten)
  -- bytes to form, form to routine
  obtain ⟨bytes, hbytes, hback⟩ := h
  exact ⟨bytes, r', bind_eq_ok.2 ⟨form, hwritten, hbytes⟩, bind_eq_ok.2 ⟨form, hback, hread⟩,
    halike⟩

/-- **The wire form loses nothing.** What is read is canonical. A canonical routine can be written;
what is read back from its form is like it; the routines with the same form are those that are like
it; and in every format that gives the form back from its bytes, what is read from the document of
the routine is like it too. -/
theorem forms_faithful :
    (∀ (form : RoutineForm) (r : Routine), toRoutine form = .ok r → r.Made ∧ r.Canonical) ∧
    ∀ r : Routine, r.Made → r.Canonical → ∃ form, ofRoutine r = .ok form ∧
      (∃ r', toRoutine form = .ok r' ∧ r.Alike r') ∧
      (∀ r' : Routine, r'.Made → r'.Canonical → (ofRoutine r' = .ok form ↔ r.Alike r')) ∧
      ∀ c : Codec, c.Returns form →
        ∃ bytes r', c.encode r = .ok bytes ∧ c.decode bytes = .ok r' ∧ r.Alike r' := by
  refine ⟨fun form r h => canonical_of_toRoutine h, fun r hmade hcanonical => ?_⟩
  obtain ⟨form, r', hwritten, hread, halike⟩ := exists_toRoutine_ofRoutine hmade hcanonical
  refine ⟨form, hwritten, ⟨r', hread, halike⟩, fun s hs hs' => ?_, fun c hreturns => ?_⟩
  · rw [← hwritten, eq_comm]
    exact ofRoutine_eq_iff hmade hcanonical hs hs'
  · exact hreturns.exists_decode_encode hmade hcanonical hwritten

/-- A switch under protection, and labels whose identities are not in order. -/
def protectedSwitch : RoutineParts where
  owner := "T"
  name := "f"
  descriptor := "(I)D"
  access := .static
  code := #[some (.label ⟨7, "start"⟩), some (.slot (.load .int) 0),
    some (.tableSwitch (-1) 0 ⟨2, "rest"⟩ [⟨7, "start"⟩, ⟨2, "rest"⟩]), some (.label ⟨2, "rest"⟩),
    some (.ldc (.double 0x8000000000000000)), some (.plain (.returnValue .double)),
    some (.label ⟨5, "caught"⟩), some (.plain .pop), some (.ldc (.double 0)),
    some (.plain (.returnValue .double))]
  blocks := [⟨⟨7, "start"⟩, ⟨2, "rest"⟩, ⟨5, "caught"⟩, "java/lang/Error"⟩]
  maxLocals := 1
  maxStack := 2

theorem forms_faithful_protectedSwitch :
    ∃ r form bytes r', Routine.make protectedSwitch = .ok r ∧ r.Canonical ∧
      ofRoutine r = .ok form ∧ Codec.cbor.Returns form ∧ encode r = .ok bytes ∧
      decode bytes = .ok r' ∧ r.Alike r' := by
  have hrun : (Routine.make protectedSwitch).toOption.any fun r =>
      r.code.all Instruction.isCanonical && (ofRoutine r).toOption.any fun form =>
        (Codec.cbor.write form).toOption.any fun bytes =>
          (Codec.cbor.read bytes).toOption.any fun form' => decide (form' = form) := by
    decide +kernel
  obtain ⟨r, hr, hrun⟩ := exists_ok_of_any hrun
  rw [Bool.and_eq_true, Array.all_eq_true'] at hrun
  obtain ⟨hcanonical, hrun⟩ := hrun
  obtain ⟨form, hform, hrun⟩ := exists_ok_of_any hrun
  obtain ⟨bytes, hbytes, hrun⟩ := exists_ok_of_any hrun
  obtain ⟨form', hback, heq⟩ := exists_ok_of_any hrun
  obtain rfl : form' = form := of_decide_eq_true heq
  have hreturns : Codec.cbor.Returns form' := ⟨bytes, hbytes, hback⟩
  obtain ⟨form, hform', -, -, hformats⟩ := forms_faithful.2 r ⟨_, hr⟩ hcanonical
  obtain rfl : form' = form := Except.ok.inj (hform.symm.trans hform')
  obtain ⟨bytes, r', hread⟩ := hformats Codec.cbor hreturns
  exact ⟨r, form', bytes, r', hr, hcanonical, hform, hreturns, hread⟩

/-- A routine that pushes nothing that could be written down. -/
def missingConstant : RoutineParts where
  owner := "T"
  name := "f"
  descriptor := "()V"
  access := .static
  code := #[some (.ldc .missing), some (.plain .pop), some (.plain .returnVoid)]
  blocks := []
  maxLocals := 0
  maxStack := 0

/-- **A missing constant has no form.** All opcodes are named and all operands are those of their
opcodes, without a switch or a class among them, and the routine cannot be written. -/
theorem ofRoutine_missingConstant :
    ∃ r, Routine.make missingConstant = .ok r ∧
      (∀ insn ∈ r.code, insn.opcode.mnemonic?.isSome ∧ insn.carries insn.opcode.form ∧
        insn.targets = [] ∧ ∀ t, insn ≠ .ldc (.class t)) ∧
      ofRoutine r = .error (.instruction "T.f()V" 0 .unsupportedConstant) := by
  obtain ⟨r, hr, hcode⟩ : ∃ r, Routine.make missingConstant = .ok r ∧
      (decide (r.code = #[.ldc .missing, .plain .pop, .plain .returnVoid]) &&
        decide (r.key = "T.f()V")) = true :=
    exists_ok_of_any (by decide +kernel)
  rw [Bool.and_eq_true, decide_eq_true_iff, decide_eq_true_iff] at hcode
  obtain ⟨hcode, hkey⟩ := hcode
  refine ⟨r, hr, ?_, ?_⟩
  · rw [hcode]
    intro insn hinsn
    have hinsn : insn = .ldc .missing ∨ insn = .plain .pop ∨ insn = .plain .returnVoid := by
      simpa using hinsn
    rcases hinsn with rfl | rfl | rfl <;> exact ⟨rfl, rfl, rfl, fun t => by simp⟩
  · rw [ofRoutine_eq, hcode, hkey]
    rfl

end Wire

end Outliner
