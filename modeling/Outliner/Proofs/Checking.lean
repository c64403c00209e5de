import Outliner.Proofs.Routes

/-!
# Checking a data flow

Whether a data flow is verified can be computed: there are finitely many instructions with a frame,
and whether a frame offers what an instruction asks for is found out by taking its operands off
(`Begins`, `Whole`).
-/

namespace Outliner

/-! ### Operands -/

/-- Takes operands off a stack. -/
def Begins.check : List SlotKind → List JType → Bool
  | [], _ => true
  | _ :: _, [] => false
  | kind :: kinds, .top :: t :: rest => t.size = 2 && kind.holds t && check kinds rest
  | kind :: kinds, t :: rest => t.size ≠ 2 && kind.holds t && check kinds rest

theorem Begins.check_iff {kinds : List SlotKind} {ts : List JType} :
    check kinds ts = true ↔ Begins kinds ts := by
  fun_induction check kinds ts with
  | case1 => simp [Begins]
  | case2 kind kinds =>
    simp only [Bool.false_eq_true, Begins, false_iff]
    rintro ⟨t, rest, -, heq, -⟩
    unfold Frame.cellsOf at heq
    split at heq <;> cases heq
  | case3 kind kinds t rest ih =>
    simp only [Bool.and_eq_true, decide_eq_true_eq, ih, Begins]
    constructor
    · rintro ⟨⟨hsize, hholds⟩, hrest⟩
      exact ⟨t, rest, hholds, by simp [Frame.cellsOf, hsize], hrest⟩
    -- a value that begins with the mark of a second half must be a wide one
    · rintro ⟨u, rest', hholds, heq, hrest⟩
      unfold Frame.cellsOf at heq
      split at heq
      · next hsize =>
        obtain ⟨rfl, rfl⟩ := List.cons.inj (List.cons.inj heq).2
        exact ⟨⟨hsize, hholds⟩, hrest⟩
      · obtain ⟨rfl, -⟩ := List.cons.inj heq
        cases kind <;> cases hholds
  | case4 kind kinds t rest hne ih =>
    simp only [Bool.and_eq_true, decide_eq_true_eq, ih, Begins]
    constructor
    · rintro ⟨⟨hsize, hholds⟩, hrest⟩
      exact ⟨t, rest, hholds, by simp [Frame.cellsOf, hsize], hrest⟩
    -- conversely, one without the mark takes a single cell
    · rintro ⟨u, rest', hholds, heq, hrest⟩
      unfold Frame.cellsOf at heq
      split at heq
      · obtain ⟨rfl, rfl⟩ := List.cons.inj heq
        exact absurd rfl (hne u rest' rfl)
      · next hsize =>
        obtain ⟨rfl, rfl⟩ := List.cons.inj heq
        exact ⟨⟨hsize, hholds⟩, hrest⟩

instance (kinds : List SlotKind) (ts : List JType) : Decidable (Begins kinds ts) :=
  decidable_of_iff _ Begins.check_iff

/-- Takes whole values off a stack. -/
def Whole.check : Nat → List JType → Bool
  | 0, _ => true
  | n + 2, .top :: t :: ts => t.size = 2 && check n ts
  | n + 1, t :: ts => t.isSingle && check n ts
  | _ + 1, [] => false

theorem Whole.check_iff {n : Nat} {ts : List JType} : check n ts = true ↔ Whole n ts := by
  fun_induction check n ts with
  | case1 => simp [Whole.zero]
  | case2 n t ts ih =>
    simp only [Bool.and_eq_true, decide_eq_true_eq, ih]
    constructor
    · rintro ⟨hsize, hrest⟩
      exact .wide hsize hrest
    · intro h
      cases h with
      | single h => cases h
      | wide hsize hrest => exact ⟨hsize, hrest⟩
  | case3 n t ts hne ih =>
    simp only [Bool.and_eq_true, ih]
    constructor
    · rintro ⟨hsingle, hrest⟩
      exact .single hsingle hrest
    · intro h
      cases h with
      | single h hrest => exact ⟨h, hrest⟩
      | wide => exact absurd rfl (hne _ _ _ rfl rfl)
  | case4 n =>
    simp only [Bool.false_eq_true, false_iff]
    rintro ⟨⟩

instance (n : Nat) (ts : List JType) : Decidable (Whole n ts) := decidable_of_iff _ Whole.check_iff

/-! ### Instructions -/

namespace Instruction

/-- Whether a stack offers the operands of an instruction. -/
def checkStack (insn : Instruction) (stack : List JType) : Bool :=
  match insn.opcode with
  | .pop => Whole.check 1 stack
  | .pop2 => Whole.check 2 stack
  | .shuffle form => Whole.check form.upper stack && Whole.check form.lower (stack.drop form.upper)
  | _ => Begins.check insn.operands stack

theorem checkStack_iff {insn : Instruction} {stack : List JType} :
    insn.checkStack stack = true ↔ insn.StackVerified stack := by
  unfold checkStack StackVerified
  cases insn.opcode with
  | pop | pop2 => exact Whole.check_iff
  | shuffle form => exact Bool.and_eq_true_iff.trans (and_congr Whole.check_iff Whole.check_iff)
  | _ => exact Begins.check_iff

/-- Whether the slot that an instruction reads holds a value of the right kind, and the field it
accesses has a value. -/
def checkNamed : Instruction → Frame → Bool
  | slot (.load kind) index, f => kind.holds (f.slot index)
  | iinc index _, f => f.slot index = .int
  | field _ _ _ descriptor, _ => (JType.parse descriptor).toOption ≠ some .void
  | _, _ => true

theorem checkNamed_iff {insn : Instruction} {f : Frame} :
    insn.checkNamed f = true ↔ insn.SlotVerified f ∧ insn.FieldVerified := by
  cases insn with
  | slot op index => cases op <;> simp [checkNamed, SlotVerified, FieldVerified]
  | field op owner name descriptor =>
    change decide ((JType.parse descriptor).toOption ≠ some .void) = true ↔
      True ∧ JType.parse descriptor ≠ .ok .void
    cases hparse : JType.parse descriptor <;> simp [Except.toOption]
  | _ => simp [checkNamed, SlotVerified, FieldVerified]

/-- Whether the array that a reference is loaded from is known to hold references. -/
def checkArray (insn : Instruction) : List JType → Bool
  | _ :: array :: _ => insn.opcode ≠ .arrayLoad .ref || array.holdsReferences
  | _ => insn.opcode ≠ .arrayLoad .ref

theorem checkArray_iff {insn : Instruction} {stack : List JType} :
    insn.checkArray stack = true ↔ insn.ArrayVerified stack := by
  unfold checkArray ArrayVerified
  split
  · next index array rest =>
    rw [Bool.or_eq_true, decide_eq_true_iff, ← imp_iff_not_or]
    refine imp_congr_right fun _ => ⟨fun h => ⟨index, array, rest, rfl, h⟩, ?_⟩
    rintro ⟨_, _, _, heq, h⟩
    obtain ⟨rfl, -⟩ := List.cons.inj (List.cons.inj heq).2
    exact h
  · next hne =>
    rw [decide_eq_true_iff]
    refine imp_congr_right fun _ => ⟨False.elim, ?_⟩
    rintro ⟨_, _, _, heq, -⟩
    exact hne _ _ _ heq

/-- Whether a frame offers what an instruction asks for. -/
def check (insn : Instruction) (f : Frame) : Bool :=
  insn.checkStack f.stack && insn.checkNamed f && insn.checkArray f.stack

theorem check_iff {insn : Instruction} {f : Frame} :
    insn.check f = true ↔ insn.Verified f ∧ insn.ArrayVerified f.stack := by
  unfold check
  rw [Bool.and_eq_true, Bool.and_eq_true, checkStack_iff, checkNamed_iff, checkArray_iff]
  constructor
  · rintro ⟨⟨hstack, hslot, hfield⟩, harray⟩
    exact ⟨⟨hstack, hslot, hfield⟩, harray⟩
  · rintro ⟨⟨hstack, hslot, hfield⟩, harray⟩
    exact ⟨⟨hstack, hslot, hfield⟩, harray⟩

end Instruction

/-! ### Data flows -/

namespace Flow

/-- Whether every instruction that has a frame finds there what it asks for. -/
def check (flow : Flow) : Bool :=
  (flow.frames.toList.zip flow.routine.code.toList).all fun e => e.1.all fun f => e.2.check f

/-- **Whether a data flow is verified can be computed.** -/
theorem check_iff {flow : Flow} : flow.check = true ↔ flow.Verified := by
  unfold check Verified
  rw [List.all_eq_true]
  constructor
  · intro h i f insn hf hinsn
    rw [frame?_natCast] at hf
    refine Instruction.check_iff.1 (h (some f, insn) (List.mem_of_getElem? (i := i) ?_))
    rw [List.getElem?_zip_eq_some]
    simp [hf, hinsn]
  · intro h e he
    obtain ⟨i, hi⟩ := List.getElem?_of_mem he
    rw [List.getElem?_zip_eq_some] at hi
    cases hframe : e.1 with
    | none => rfl
    | some f =>
      refine Instruction.check_iff.2 (h i f e.2 ?_ (by simpa using hi.2))
      rw [frame?_natCast, ← hframe]
      simpa using hi.1

instance (flow : Flow) : Decidable flow.Verified := decidable_of_iff _ check_iff

end Flow

end Outliner
