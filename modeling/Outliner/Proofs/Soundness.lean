import Outliner.Proofs.Conformance

/-!
# The tracker is sound for the machine

The elementary instructions move numbers and references between the stack, the slots and the
arithmetic of the machine; they do not look into the heap and call nothing. For each of them, what
the tracker says is what happens: from an activation that conforms to a frame at which the
instruction is verified, the tracker accepts the instruction, the machine carries it out, and the
activation afterwards conforms to the frame the tracker leaves. The only other ending is an
exception for a division by zero.

The proof goes by the form of the instruction. Being verified says of which constructors the top of
the frame's stack is made, and conforming carries this over to the activation; from there both sides
compute.
-/

namespace Outliner

namespace Instruction

/-- Whether an operation without operands works on the stack alone. -/
def isElementaryOp : Opcode → Bool
  | .nop | .aconstNull | .iconst _ | .lconst _ | .fconst _ | .dconst _ | .pop | .pop2 | .shuffle _
  | .arith _ _ | .neg _ | .shift _ _ | .bitwise _ _ | .convert _ | .lcmp | .fcmp _ | .dcmp _ => true
  | _ => false

/-- **The elementary instructions**: constants, loads and stores, rearrangements of the stack,
arithmetic, conversions, comparisons, jumps and switches. -/
def isElementary : Instruction → Bool
  | plain op => isElementaryOp op
  | int op _ => op = .bipush || op = .sipush
  | jump op _ => op.form = .jump
  | slot (.load _) _ | slot (.store _) _ | iinc _ _ | ldc _ | tableSwitch _ _ _ _
  | lookupSwitch _ _ _ => true
  | _ => false

/-- Whether the slots and tables of an instruction are within the limits of the machine: slots lie
below `2 ^ 31`, and a table has at least one label and fewer than `2 ^ 31`. -/
def isBounded : Instruction → Bool
  | slot _ index | iinc index _ => 0 ≤ index && index < 0x80000000
  | tableSwitch _ _ _ targets => 1 ≤ targets.length && targets.length < 0x80000000
  | _ => true

end Instruction

/-- **How the machine may carry out an instruction** that takes activation `a` to one conforming to
`after`: control goes on with the next instruction or at a target, or a division by zero is
raised. -/
inductive StepsSoundly (insn : Instruction) (a : Activation) (after : Frame) :
    EStateM.Result Halt Workplace Progress → Prop where
  | next (s : Workplace) (conforms : s.frame.Conforms after)
    (falls : insn.opcode.fallsThrough) (ip : s.frame.ip = a.ip + 1) :
    StepsSoundly insn a after (.ok .next s)
  | target (s : Workplace) (conforms : s.frame.Conforms after) (l : Label) (mem : l ∈ insn.targets)
    (ip : a.routine.offset? l = some s.frame.ip) : StepsSoundly insn a after (.ok .next s)
  | byZero (s : Workplace) (exception : Addr)
    (object : s.heap.get? exception =
      some (.object "java/lang/ArithmeticException" [("message", .string "/ by zero")])) :
    StepsSoundly insn a after (.error (.raised exception) s)

/-- **An instruction is tracked soundly** at a frame and a workplace. -/
def SoundAt (classes : Classes) (owner : String) (offset : Int) (insn : Instruction) (f : Frame)
    (s : Workplace) : Prop :=
  ∃ after effect, Tracker.execute owner f insn offset = (after, .ok effect) ∧
    StepsSoundly insn s.frame after ((Exec.perform classes insn).run s)

/-! ### Operands, tracked and held -/

namespace Begins

variable {k : SlotKind} {ks : List SlotKind} {ts : List JType} {vs : List Value}

/-- The topmost operand. -/
theorem head (h : Begins (k :: ks) ts) (hs : StackFits Value.Typed ts vs) :
    ∃ (t : JType) (ts' : List JType) (v : Value) (vs' : List Value), k.holds t ∧ t ≠ .top ∧
      ts = Frame.cellsOf t ++ ts' ∧ v.hasType t ∧ vs = v.cells ++ vs' ∧ Begins ks ts' ∧
      StackFits Value.Typed ts' vs' := by
  obtain ⟨t, ts', hk, rfl, hrest⟩ := h
  have ht : t ≠ .top := by
    rintro rfl
    cases k <;> cases hk
  obtain ⟨v, vs', rfl, hv, hs'⟩ := hs.pop (fun _ _ h => h) ht
  exact ⟨t, ts', v, vs', hk, ht, rfl, hv, rfl, hrest, hs'⟩

theorem int (h : Begins (.int :: ks) ts) (hs : StackFits Value.Typed ts vs) :
    ∃ n ts' vs', ts = .int :: ts' ∧ vs = .int n :: vs' ∧ Begins ks ts' ∧
      StackFits Value.Typed ts' vs' := by
  obtain ⟨t, ts', v, vs', hk, -, rfl, hv, rfl, hrest⟩ := h.head hs
  obtain rfl := of_decide_eq_true hk
  cases v <;> first | exact ⟨_, ts', vs', rfl, rfl, hrest⟩ | cases hv

theorem float (h : Begins (.float :: ks) ts) (hs : StackFits Value.Typed ts vs) :
    ∃ x ts' vs', ts = .float :: ts' ∧ vs = .float x :: vs' ∧ Begins ks ts' ∧
      StackFits Value.Typed ts' vs' := by
  obtain ⟨t, ts', v, vs', hk, -, rfl, hv, rfl, hrest⟩ := h.head hs
  obtain rfl := of_decide_eq_true hk
  cases v <;> first | exact ⟨_, ts', vs', rfl, rfl, hrest⟩ | cases hv

theorem long (h : Begins (.long :: ks) ts) (hs : StackFits Value.Typed ts vs) :
    ∃ n ts' vs', ts = .top :: .long :: ts' ∧ vs = .wide :: .long n :: vs' ∧ Begins ks ts' ∧
      StackFits Value.Typed ts' vs' := by
  obtain ⟨t, ts', v, vs', hk, -, rfl, hv, rfl, hrest⟩ := h.head hs
  obtain rfl := of_decide_eq_true hk
  cases v <;> first | exact ⟨_, ts', vs', rfl, rfl, hrest⟩ | cases hv

theorem double (h : Begins (.double :: ks) ts) (hs : StackFits Value.Typed ts vs) :
    ∃ x ts' vs', ts = .top :: .double :: ts' ∧ vs = .wide :: .double x :: vs' ∧ Begins ks ts' ∧
      StackFits Value.Typed ts' vs' := by
  obtain ⟨t, ts', v, vs', hk, -, rfl, hv, rfl, hrest⟩ := h.head hs
  obtain rfl := of_decide_eq_true hk
  cases v <;> first | exact ⟨_, ts', vs', rfl, rfl, hrest⟩ | cases hv

theorem ref (h : Begins (.ref :: ks) ts) (hs : StackFits Value.Typed ts vs) :
    ∃ (t : JType) (ts' : List JType) (v : Value) (vs' : List Value), t.isReference ∧
      ts = t :: ts' ∧ v.isReference ∧ vs = v :: vs' ∧ Begins ks ts' ∧
      StackFits Value.Typed ts' vs' := by
  obtain ⟨t, ts', v, vs', hk, -, rfl, hv, rfl, hrest⟩ := h.head hs
  have href : v.isReference := Value.isOfKind_of_hasType (k := .ref) hk hv
  refine ⟨t, ts', v, vs', hk, ?_, href, ?_, hrest⟩
  · simp [Frame.cellsOf, JType.size_of_isReference hk]
  · cases v <;> first | rfl | cases href

end Begins

/-! ### Instructions that change nothing but the stack -/

section Stack

variable {classes : Classes} {owner : String} {offset : Int} {f : Frame} {s : Workplace}
  {insn : Instruction} {effect : Effect} {ts : List JType} {vs : List Value}

/-- An instruction that changes nothing but the stack and goes on with the next instruction. -/
theorem soundAt_of_stack (hfits : StackFits Value.Typed ts vs) (hconf : s.frame.Conforms f)
    (hexec : Tracker.execute owner f insn offset = (⟨ts, f.locals⟩, .ok effect))
    (hrun : (Exec.perform classes insn).run s =
      .ok .next ⟨{ s.frame with stack := vs, ip := s.frame.ip + 1 }, s.heap, s.statics⟩)
    (hfalls : insn.opcode.fallsThrough) : SoundAt classes owner offset insn f s := by
  refine ⟨_, effect, hexec, ?_⟩
  rw [hrun]
  exact .next _ ⟨hfits, hconf.slots⟩ hfalls rfl

/-- An instruction that pushes a value over what is left of the stack. -/
theorem soundAt_of_push (t : JType) (v : Value) (hs : StackFits Value.Typed ts vs)
    (hconf : s.frame.Conforms f) (hv : v.hasType t) (hwide : v.isWide = decide (t.size = 2))
    (hexec : Tracker.execute owner f insn offset = (⟨Frame.cellsOf t ++ ts, f.locals⟩, .ok effect))
    (hrun : (Exec.perform classes insn).run s =
      .ok .next ⟨{ s.frame with stack := v.cells ++ vs, ip := s.frame.ip + 1 }, s.heap, s.statics⟩)
    (hfalls : insn.opcode.fallsThrough) : SoundAt classes owner offset insn f s :=
  soundAt_of_stack (hs.push hwide hv) hconf hexec hrun hfalls

/-- An instruction that pushes a quotient, if there is one. -/
theorem soundAt_of_divided {α : Type} {after : Frame} {a : Activation} (z : Option α)
    (push : α → Exec Unit)
    (hexec : Tracker.execute owner f insn offset = (after, .ok effect))
    (hrun : (Exec.perform classes insn).run s =
      (((Exec.divided z >>= push) *> pure .next : Exec Progress)).run ⟨a, s.heap, s.statics⟩)
    (hsome : ∀ x, z = some x → SoundAt classes owner offset insn f s) :
    SoundAt classes owner offset insn f s := by
  cases hz : z with
  | some x => exact hsome x hz
  | none =>
    refine ⟨after, effect, hexec, ?_⟩
    rw [hrun, hz]
    exact .byZero _ s.heap.cells.size Array.getElem?_push_size

theorem soundAt_arith {op : ArithOp} {kind : NumKind} (hconf : s.frame.Conforms f)
    (hv : Begins [kind.slotKind, kind.slotKind] f.stack) :
    SoundAt classes owner offset (.plain (.arith op kind)) f s := by
  obtain ⟨stack, locals⟩ := f
  obtain ⟨⟨routine, values, slots, count, ip, line, fresh, wants⟩, heap, statics⟩ := s
  cases kind with
  -- an integer division may raise an exception before anything is pushed
  | int =>
    obtain ⟨b, ts, vs, rfl, rfl, hv, hs⟩ := hv.int hconf.stack
    obtain ⟨a, ts, vs, rfl, rfl, -, hs⟩ := hv.int hs
    have hrun : (Exec.perform classes (.plain (.arith op .int))).run
        ⟨⟨routine, .int b :: .int a :: vs, slots, count, ip, line, fresh, wants⟩, heap, statics⟩ =
        ((Exec.divided (Numeric.intArith op a b) >>= Exec.pushInt) *> pure .next :
          Exec Progress).run
          ⟨⟨routine, vs, slots, count, ip + 1, line, fresh, wants⟩, heap, statics⟩ := rfl
    refine soundAt_of_divided _ Exec.pushInt rfl hrun fun n hn => ?_
    rw [hn] at hrun
    exact soundAt_of_push .int (.int n) hs hconf rfl rfl rfl hrun rfl
  | long =>
    obtain ⟨b, ts, vs, rfl, rfl, hv, hs⟩ := hv.long hconf.stack
    obtain ⟨a, ts, vs, rfl, rfl, -, hs⟩ := hv.long hs
    have hrun : (Exec.perform classes (.plain (.arith op .long))).run
        ⟨⟨routine, .wide :: .long b :: .wide :: .long a :: vs, slots, count, ip, line, fresh,
          wants⟩, heap, statics⟩ =
        ((Exec.divided (Numeric.longArith op a b) >>= Exec.pushLong) *> pure .next :
          Exec Progress).run
          ⟨⟨routine, vs, slots, count, ip + 1, line, fresh, wants⟩, heap, statics⟩ := rfl
    refine soundAt_of_divided _ Exec.pushLong rfl hrun fun n hn => ?_
    rw [hn] at hrun
    exact soundAt_of_push .long (.long n) hs hconf rfl rfl rfl hrun rfl
  | float =>
    obtain ⟨b, ts, vs, rfl, rfl, hv, hs⟩ := hv.float hconf.stack
    obtain ⟨a, ts, vs, rfl, rfl, -, hs⟩ := hv.float hs
    exact soundAt_of_push .float
      (.float (Numeric.floatArith op (.ofBits a) (.ofBits b)).toBits) hs hconf rfl rfl rfl rfl rfl
  | double =>
    obtain ⟨b, ts, vs, rfl, rfl, hv, hs⟩ := hv.double hconf.stack
    obtain ⟨a, ts, vs, rfl, rfl, -, hs⟩ := hv.double hs
    exact soundAt_of_push .double
      (.double (Numeric.doubleArith op (.ofBits a) (.ofBits b)).toBits) hs hconf rfl rfl rfl rfl rfl

theorem soundAt_neg {kind : NumKind} (hconf : s.frame.Conforms f)
    (hv : Begins [kind.slotKind] f.stack) :
    SoundAt classes owner offset (.plain (.neg kind)) f s := by
  obtain ⟨stack, locals⟩ := f
  obtain ⟨⟨routine, values, slots, count, ip, line, fresh, wants⟩, heap, statics⟩ := s
  cases kind with
  | int =>
    obtain ⟨a, ts, vs, rfl, rfl, -, hs⟩ := hv.int hconf.stack
    exact soundAt_of_push .int (.int _) hs hconf rfl rfl rfl rfl rfl
  | long =>
    obtain ⟨a, ts, vs, rfl, rfl, -, hs⟩ := hv.long hconf.stack
    exact soundAt_of_push .long (.long _) hs hconf rfl rfl rfl rfl rfl
  | float =>
    obtain ⟨a, ts, vs, rfl, rfl, -, hs⟩ := hv.float hconf.stack
    exact soundAt_of_push .float (.float _) hs hconf rfl rfl rfl rfl rfl
  | double =>
    obtain ⟨a, ts, vs, rfl, rfl, -, hs⟩ := hv.double hconf.stack
    exact soundAt_of_push .double (.double _) hs hconf rfl rfl rfl rfl rfl

theorem soundAt_shift {op : ShiftOp} {wide : Bool} (hconf : s.frame.Conforms f)
    (hv : Begins [.int, .ofWidth wide] f.stack) :
    SoundAt classes owner offset (.plain (.shift op wide)) f s := by
  obtain ⟨stack, locals⟩ := f
  obtain ⟨⟨routine, values, slots, count, ip, line, fresh, wants⟩, heap, statics⟩ := s
  obtain ⟨amount, ts, vs, rfl, rfl, hv, hs⟩ := hv.int hconf.stack
  cases wide with
  | false =>
    obtain ⟨n, ts, vs, rfl, rfl, -, hs⟩ := hv.int hs
    exact soundAt_of_push .int (.int _) hs hconf rfl rfl rfl rfl rfl
  | true =>
    obtain ⟨n, ts, vs, rfl, rfl, -, hs⟩ := hv.long hs
    exact soundAt_of_push .long (.long _) hs hconf rfl rfl rfl rfl rfl

theorem soundAt_bitwise {op : BitOp} {wide : Bool} (hconf : s.frame.Conforms f)
    (hv : Begins [.ofWidth wide, .ofWidth wide] f.stack) :
    SoundAt classes owner offset (.plain (.bitwise op wide)) f s := by
  obtain ⟨stack, locals⟩ := f
  obtain ⟨⟨routine, values, slots, count, ip, line, fresh, wants⟩, heap, statics⟩ := s
  cases wide with
  | false =>
    obtain ⟨b, ts, vs, rfl, rfl, hv, hs⟩ := hv.int hconf.stack
    obtain ⟨a, ts, vs, rfl, rfl, -, hs⟩ := hv.int hs
    exact soundAt_of_push .int (.int _) hs hconf rfl rfl rfl rfl rfl
  | true =>
    obtain ⟨b, ts, vs, rfl, rfl, hv, hs⟩ := hv.long hconf.stack
    obtain ⟨a, ts, vs, rfl, rfl, -, hs⟩ := hv.long hs
    exact soundAt_of_push .long (.long _) hs hconf rfl rfl rfl rfl rfl

theorem soundAt_convert {conversion : Conversion} (hconf : s.frame.Conforms f)
    (hv : Begins [conversion.source.slotKind] f.stack) :
    SoundAt classes owner offset (.plain (.convert conversion)) f s := by
  obtain ⟨stack, locals⟩ := f
  obtain ⟨⟨routine, values, slots, count, ip, line, fresh, wants⟩, heap, statics⟩ := s
  -- the operand decides which values are on the stack, the result what is pushed
  cases conversion with
  | i2l | i2f | i2d | i2b | i2c | i2s =>
    obtain ⟨a, ts, vs, rfl, rfl, -, hs⟩ := hv.int hconf.stack
    first
    | exact soundAt_of_push .int (.int _) hs hconf rfl rfl rfl rfl rfl
    | exact soundAt_of_push .long (.long _) hs hconf rfl rfl rfl rfl rfl
    | exact soundAt_of_push .float (.float _) hs hconf rfl rfl rfl rfl rfl
    | exact soundAt_of_push .double (.double _) hs hconf rfl rfl rfl rfl rfl
  | l2i | l2f | l2d =>
    obtain ⟨a, ts, vs, rfl, rfl, -, hs⟩ := hv.long hconf.stack
    first
    | exact soundAt_of_push .int (.int _) hs hconf rfl rfl rfl rfl rfl
    | exact soundAt_of_push .float (.float _) hs hconf rfl rfl rfl rfl rfl
    | exact soundAt_of_push .double (.double _) hs hconf rfl rfl rfl rfl rfl
  | f2i | f2l | f2d =>
    obtain ⟨a, ts, vs, rfl, rfl, -, hs⟩ := hv.float hconf.stack
    first
    | exact soundAt_of_push .int (.int _) hs hconf rfl rfl rfl rfl rfl
    | exact soundAt_of_push .long (.long _) hs hconf rfl rfl rfl rfl rfl
    | exact soundAt_of_push .double (.double _) hs hconf rfl rfl rfl rfl rfl
  | d2i | d2l | d2f =>
    obtain ⟨a, ts, vs, rfl, rfl, -, hs⟩ := hv.double hconf.stack
    first
    | exact soundAt_of_push .int (.int _) hs hconf rfl rfl rfl rfl rfl
    | exact soundAt_of_push .long (.long _) hs hconf rfl rfl rfl rfl rfl
    | exact soundAt_of_push .float (.float _) hs hconf rfl rfl rfl rfl rfl

/-- The cells a rearrangement moves, the cells it moves them over, and the rest. -/
theorem Whole.parts {m n : Nat} (hm : Whole m ts) (hn : Whole n (ts.drop m))
    (h : StackFits Value.Typed ts vs) :
    ∃ u l r u' l' r', ts = u ++ (l ++ r) ∧ vs = u' ++ (l' ++ r') ∧ u.length = m ∧ u'.length = m ∧
      l.length = n ∧ l'.length = n ∧ StackFits Value.Typed u u' ∧ StackFits Value.Typed l l' ∧
      StackFits Value.Typed r r' := by
  obtain ⟨hu, hrest⟩ := h.split hm
  obtain ⟨hl, hr⟩ := hrest.split hn
  have hm' := hm.le_length
  have hn' := hn.le_length
  have hts := h.length_eq
  rw [List.length_drop] at hn'
  refine ⟨_, _, _, _, _, _, ?_, ?_, ?_, ?_, ?_, ?_, hu, hl, hr⟩
  · rw [List.take_append_drop, List.take_append_drop]
  · rw [List.take_append_drop, List.take_append_drop]
  all_goals
    simp only [List.length_take, List.length_drop]
    omega

theorem soundAt_shuffle {form : Shuffle} (hconf : s.frame.Conforms f)
    (hv : Whole form.upper f.stack ∧ Whole form.lower (f.stack.drop form.upper)) :
    SoundAt classes owner offset (.plain (.shuffle form)) f s := by
  obtain ⟨stack, locals⟩ := f
  obtain ⟨⟨routine, values, slots, count, ip, line, fresh, wants⟩, heap, statics⟩ := s
  obtain ⟨u, l, r, u', l', r', rfl, rfl, hu, hu', hl, hl', hsu, hsl, hsr⟩ :=
    hv.1.parts hv.2 hconf.stack
  -- every form but the exchange leaves the upper values twice, around the lower ones
  have hdup := hsu.append (hsl.append (hsu.append hsr))
  cases form with
  | dup =>
    obtain ⟨a, rfl⟩ := List.length_eq_one_iff.1 hu
    obtain ⟨a', rfl⟩ := List.length_eq_one_iff.1 hu'
    obtain rfl := List.length_eq_zero_iff.1 hl
    obtain rfl := List.length_eq_zero_iff.1 hl'
    exact soundAt_of_stack hdup hconf rfl rfl rfl
  | dupX1 =>
    obtain ⟨a, rfl⟩ := List.length_eq_one_iff.1 hu
    obtain ⟨a', rfl⟩ := List.length_eq_one_iff.1 hu'
    obtain ⟨b, rfl⟩ := List.length_eq_one_iff.1 hl
    obtain ⟨b', rfl⟩ := List.length_eq_one_iff.1 hl'
    exact soundAt_of_stack hdup hconf rfl rfl rfl
  | dupX2 =>
    obtain ⟨a, rfl⟩ := List.length_eq_one_iff.1 hu
    obtain ⟨a', rfl⟩ := List.length_eq_one_iff.1 hu'
    obtain ⟨b, c, rfl⟩ := List.length_eq_two.1 hl
    obtain ⟨b', c', rfl⟩ := List.length_eq_two.1 hl'
    exact soundAt_of_stack hdup hconf rfl rfl rfl
  | dup2 =>
    obtain ⟨a, b, rfl⟩ := List.length_eq_two.1 hu
    obtain ⟨a', b', rfl⟩ := List.length_eq_two.1 hu'
    obtain rfl := List.length_eq_zero_iff.1 hl
    obtain rfl := List.length_eq_zero_iff.1 hl'
    exact soundAt_of_stack hdup hconf rfl rfl rfl
  | dup2X1 =>
    obtain ⟨a, b, rfl⟩ := List.length_eq_two.1 hu
    obtain ⟨a', b', rfl⟩ := List.length_eq_two.1 hu'
    obtain ⟨c, rfl⟩ := List.length_eq_one_iff.1 hl
    obtain ⟨c', rfl⟩ := List.length_eq_one_iff.1 hl'
    exact soundAt_of_stack hdup hconf rfl rfl rfl
  | dup2X2 =>
    obtain ⟨a, b, rfl⟩ := List.length_eq_two.1 hu
    obtain ⟨a', b', rfl⟩ := List.length_eq_two.1 hu'
    obtain ⟨c, d, rfl⟩ := List.length_eq_two.1 hl
    obtain ⟨c', d', rfl⟩ := List.length_eq_two.1 hl'
    exact soundAt_of_stack hdup hconf rfl rfl rfl
  | swap =>
    obtain ⟨a, rfl⟩ := List.length_eq_one_iff.1 hu
    obtain ⟨a', rfl⟩ := List.length_eq_one_iff.1 hu'
    obtain ⟨b, rfl⟩ := List.length_eq_one_iff.1 hl
    obtain ⟨b', rfl⟩ := List.length_eq_one_iff.1 hl'
    exact soundAt_of_stack (hsl.append (hsu.append hsr)) hconf rfl rfl rfl

theorem soundAt_pop (hconf : s.frame.Conforms f) (hv : Whole 1 f.stack) :
    SoundAt classes owner offset (.plain .pop) f s := by
  obtain ⟨stack, locals⟩ := f
  obtain ⟨⟨routine, values, slots, count, ip, line, fresh, wants⟩, heap, statics⟩ := s
  obtain ⟨u, l, r, u', l', r', rfl, rfl, hu, hu', hl, hl', -, -, hsr⟩ :=
    hv.parts (.zero _) hconf.stack
  obtain ⟨a, rfl⟩ := List.length_eq_one_iff.1 hu
  obtain ⟨a', rfl⟩ := List.length_eq_one_iff.1 hu'
  obtain rfl := List.length_eq_zero_iff.1 hl
  obtain rfl := List.length_eq_zero_iff.1 hl'
  exact soundAt_of_stack hsr hconf rfl rfl rfl

theorem soundAt_pop2 (hconf : s.frame.Conforms f) (hv : Whole 2 f.stack) :
    SoundAt classes owner offset (.plain .pop2) f s := by
  obtain ⟨stack, locals⟩ := f
  obtain ⟨⟨routine, values, slots, count, ip, line, fresh, wants⟩, heap, statics⟩ := s
  obtain ⟨u, l, r, u', l', r', rfl, rfl, hu, hu', hl, hl', -, -, hsr⟩ :=
    hv.parts (.zero _) hconf.stack
  obtain ⟨a, b, rfl⟩ := List.length_eq_two.1 hu
  obtain ⟨a', b', rfl⟩ := List.length_eq_two.1 hu'
  obtain rfl := List.length_eq_zero_iff.1 hl
  obtain rfl := List.length_eq_zero_iff.1 hl'
  exact soundAt_of_stack hsr hconf rfl rfl rfl

theorem soundAt_lcmp (hconf : s.frame.Conforms f) (hv : Begins [.long, .long] f.stack) :
    SoundAt classes owner offset (.plain .lcmp) f s := by
  obtain ⟨stack, locals⟩ := f
  obtain ⟨⟨routine, values, slots, count, ip, line, fresh, wants⟩, heap, statics⟩ := s
  obtain ⟨b, ts, vs, rfl, rfl, hv, hs⟩ := hv.long hconf.stack
  obtain ⟨a, ts, vs, rfl, rfl, -, hs⟩ := hv.long hs
  exact soundAt_of_push .int (.int _) hs hconf rfl rfl rfl rfl rfl

theorem soundAt_fcmp {high : Bool} (hconf : s.frame.Conforms f)
    (hv : Begins [.float, .float] f.stack) :
    SoundAt classes owner offset (.plain (.fcmp high)) f s := by
  obtain ⟨stack, locals⟩ := f
  obtain ⟨⟨routine, values, slots, count, ip, line, fresh, wants⟩, heap, statics⟩ := s
  obtain ⟨b, ts, vs, rfl, rfl, hv, hs⟩ := hv.float hconf.stack
  obtain ⟨a, ts, vs, rfl, rfl, -, hs⟩ := hv.float hs
  exact soundAt_of_push .int (.int _) hs hconf rfl rfl rfl rfl rfl

theorem soundAt_dcmp {high : Bool} (hconf : s.frame.Conforms f)
    (hv : Begins [.double, .double] f.stack) :
    SoundAt classes owner offset (.plain (.dcmp high)) f s := by
  obtain ⟨stack, locals⟩ := f
  obtain ⟨⟨routine, values, slots, count, ip, line, fresh, wants⟩, heap, statics⟩ := s
  obtain ⟨b, ts, vs, rfl, rfl, hv, hs⟩ := hv.double hconf.stack
  obtain ⟨a, ts, vs, rfl, rfl, -, hs⟩ := hv.double hs
  exact soundAt_of_push .int (.int _) hs hconf rfl rfl rfl rfl rfl

/-- **Operations without operands.** -/
theorem soundAt_plain {op : Opcode} (hconf : s.frame.Conforms f)
    (helem : Instruction.isElementaryOp op) (hv : (Instruction.plain op).StackVerified f.stack) :
    SoundAt classes owner offset (.plain op) f s := by
  cases op with
  | nop => exact soundAt_of_stack hconf.stack hconf rfl rfl rfl
  | aconstNull => exact soundAt_of_push .null .null hconf.stack hconf rfl rfl rfl rfl rfl
  | iconst k => exact soundAt_of_push .int (.int _) hconf.stack hconf rfl rfl rfl rfl rfl
  | lconst k => exact soundAt_of_push .long (.long _) hconf.stack hconf rfl rfl rfl rfl rfl
  | fconst k => exact soundAt_of_push .float (.float _) hconf.stack hconf rfl rfl rfl rfl rfl
  | dconst k => exact soundAt_of_push .double (.double _) hconf.stack hconf rfl rfl rfl rfl rfl
  | pop => exact soundAt_pop hconf hv
  | pop2 => exact soundAt_pop2 hconf hv
  | shuffle form => exact soundAt_shuffle hconf hv
  | arith op kind => exact soundAt_arith hconf hv
  | neg kind => exact soundAt_neg hconf hv
  | shift op wide => exact soundAt_shift hconf hv
  | bitwise op wide => exact soundAt_bitwise hconf hv
  | convert conversion => exact soundAt_convert hconf hv
  | lcmp => exact soundAt_lcmp hconf hv
  | fcmp high => exact soundAt_fcmp hconf hv
  | dcmp high => exact soundAt_dcmp hconf hv
  | _ => cases helem

theorem soundAt_ldc {c : Constant} (hconf : s.frame.Conforms f) (hc : c ≠ .missing) :
    SoundAt classes owner offset (.ldc c) f s := by
  cases c with
  | int n => exact soundAt_of_push .int (.int n) hconf.stack hconf rfl rfl rfl rfl rfl
  | long n => exact soundAt_of_push .long (.long n) hconf.stack hconf rfl rfl rfl rfl rfl
  | float x => exact soundAt_of_push .float (.float x) hconf.stack hconf rfl rfl rfl rfl rfl
  | double x => exact soundAt_of_push .double (.double x) hconf.stack hconf rfl rfl rfl rfl rfl
  | string text =>
    exact soundAt_of_push .string (.string text) hconf.stack hconf rfl rfl rfl rfl rfl
  | «class» t => exact soundAt_of_push .classObject (.class _) hconf.stack hconf rfl rfl rfl rfl rfl
  | missing => exact absurd rfl hc

end Stack

/-! ### Slots -/

section Slots

variable {classes : Classes} {owner : String} {offset : Int} {f : Frame} {s : Workplace}
  {kind : SlotKind} {index : Int}

/-- A load pushes the type of the slot. -/
theorem Tracker.execute_load (owner : String) (offset : Int) (hk : kind.holds (f.slot index)) :
    ∃ effect, Tracker.execute owner f (.slot (.load kind) index) offset =
      (⟨Frame.cellsOf (f.slot index) ++ f.stack, f.locals⟩, .ok effect) ∧ effect.pops = 0 ∧
      effect.reads = [⟨index, kind.size⟩] ∧ effect.writes = [] := by
  cases kind with
  | ref =>
    have href : (if (f.slot index).isReference then f.slot index else .anyObject) = f.slot index :=
      if_pos hk
    refine ⟨_, Prod.ext ?_ rfl, Nat.sub_self _, rfl, rfl⟩
    change (⟨Frame.cellsOf (if (f.slot index).isReference then f.slot index else .anyObject) ++
      f.stack, f.locals⟩ : Frame) = _
    rw [href]
  | _ =>
    rw [of_decide_eq_true hk]
    exact ⟨_, rfl, Nat.sub_self _, rfl, rfl⟩

/-- Push a value of a kind, with the marker when values of the kind take two cells. -/
def Exec.pushKind : SlotKind → Value → Exec Unit
  | .long | .double => Exec.pushValue
  | _ => Exec.push

/-- A load pushes the value in the slot. -/
theorem Exec.perform_load {v : Value} (hload : s.frame.load? index = some v)
    (hk : v.isOfKind kind) :
    (Exec.perform classes (.slot (.load kind) index)).run s = .ok .next
      ⟨{ s.frame with stack := v.cells ++ s.frame.stack, ip := s.frame.ip + 1 }, s.heap,
        s.statics⟩ := by
  have hrun : (Exec.perform classes (.slot (.load kind) index)).run s =
      ((Exec.require (s.frame.load? index) >>= Exec.pushKind kind) *> pure .next :
        Exec Progress).run ⟨{ s.frame with ip := s.frame.ip + 1 }, s.heap, s.statics⟩ := by
    cases kind <;> rfl
  rw [hrun, hload]
  cases kind <;> cases v <;> first | rfl | cases hk

theorem soundAt_load (hconf : s.frame.Conforms f) (hk : kind.holds (f.slot index)) :
    SoundAt classes owner offset (.slot (.load kind) index) f s := by
  have hne : f.slot index ≠ .top := by
    intro htop
    rw [htop] at hk
    cases kind <;> cases hk
  obtain ⟨v, hload, hv, -⟩ := hconf.slots index hne
  obtain ⟨effect, hexec, -⟩ := Tracker.execute_load owner offset hk
  exact soundAt_of_push _ v hconf.stack hconf hv (Value.isWide_of_hasType hne hv) hexec
    (Exec.perform_load hload (Value.isOfKind_of_hasType hk hv)) rfl

/-- A store takes a value off and puts its type into the slot. -/
theorem Tracker.execute_store (owner : String) (offset index : Int) {t : JType} (hk : kind.holds t)
    (ts : List JType) (locals : SlotMap JType) :
    ∃ effect, Tracker.execute owner ⟨Frame.cellsOf t ++ ts, locals⟩ (.slot (.store kind) index)
      offset = (Frame.setSlot ⟨ts, locals⟩ index t, .ok effect) ∧ effect.pops = kind.size ∧
      effect.reads = [] ∧ effect.writes = [⟨index, kind.size⟩] := by
  have hpops (n : Nat) : n + 1 - min (n + 1) n = 1 ∧ n + 2 - min (n + 2) n = 2 := by omega
  cases kind with
  | ref => cases t <;> first | exact ⟨_, rfl, (hpops ts.length).1, rfl, rfl⟩ | cases hk
  | int | float =>
    obtain rfl := of_decide_eq_true hk
    exact ⟨_, rfl, (hpops ts.length).1, rfl, rfl⟩
  | long | double =>
    obtain rfl := of_decide_eq_true hk
    exact ⟨_, rfl, (hpops ts.length).2, rfl, rfl⟩

/-- A store takes a value off and puts it into the slot. -/
theorem Exec.perform_store (classes : Classes) {v : Value} {vs : List Value}
    (hs : s.frame.stack = v.cells ++ vs) (hk : v.isOfKind kind) (hlow : 0 ≤ index)
    (hhigh : index < 0x80000000) :
    ∃ a, Activation.store? { s.frame with stack := vs, ip := s.frame.ip + 1 } index v = some a ∧
      a.ip = s.frame.ip + 1 ∧ a.stack = vs ∧
      (Exec.perform classes (.slot (.store kind) index)).run s =
        .ok .next ⟨a, s.heap, s.statics⟩ := by
  obtain ⟨⟨routine, values, slots, count, ip, line, fresh, wants⟩, heap, statics⟩ := s
  obtain rfl : values = v.cells ++ vs := hs
  have hstore (a : Activation) : a.store? index v = some { a with
      locals := Activation.storeIn a.locals index v
      localCount := max a.localCount (index.toNat + 2) } :=
    if_pos (by simp [hlow, hhigh])
  refine ⟨_, hstore _, rfl, rfl, ?_⟩
  have hrun : (Exec.perform classes (.slot (.store kind) index)).run
      ⟨⟨routine, v.cells ++ vs, slots, count, ip, line, fresh, wants⟩, heap, statics⟩ =
      (Exec.store index v *> pure .next : Exec Progress).run
        ⟨⟨routine, vs, slots, count, ip + 1, line, fresh, wants⟩, heap, statics⟩ := by
    cases kind <;> cases v <;> first | rfl | cases hk
  rw [hrun]
  change ((Exec.require (Activation.store? _ index v) >>= fun a =>
    set (⟨a, heap, statics⟩ : Workplace)) *> pure .next : Exec Progress).run _ = _
  rw [hstore]
  rfl

theorem soundAt_store (hconf : s.frame.Conforms f) (hv : Begins [kind] f.stack) (hlow : 0 ≤ index)
    (hhigh : index < 0x80000000) :
    SoundAt classes owner offset (.slot (.store kind) index) f s := by
  obtain ⟨stack, locals⟩ := f
  obtain ⟨t, ts, v, vs, hk, ht, rfl, hty, hcells, -, hs⟩ := hv.head hconf.stack
  obtain ⟨effect, hexec, -⟩ := Tracker.execute_store owner offset index hk ts locals
  obtain ⟨a, hstore, hip, hstack, hrun⟩ := Exec.perform_store classes hcells
    (Value.isOfKind_of_hasType hk hty) hlow hhigh
  refine ⟨_, effect, hexec, ?_⟩
  rw [hrun]
  refine .next _ ⟨?_, ?_⟩ rfl hip
  · rw [hstack]
    exact hs
  · refine Activation.slotsFit_store ?_ (fun _ _ h => h) hstore (Value.isWide_of_hasType ht hty) hty
    exact hconf.slots

/-- Add to an integer and put the sum into a slot. -/
def Exec.incrementInto (index : Int) (amount : Int32) : Value → Exec Unit
  | .int n => Exec.modifyFrame fun a =>
    { a with locals := a.locals.insert index (.int (n + amount)) }
  | _ => Exec.breakdown

/-- Incrementing a slot. -/
theorem soundAt_iinc {amount : Int32} (hconf : s.frame.Conforms f) (hslot : f.slot index = .int)
    (hlow : 0 ≤ index) (hhigh : index < 0x80000000) :
    SoundAt classes owner offset (.iinc index amount) f s := by
  obtain ⟨v, hload, hv, -⟩ := hconf.slots index (by rw [hslot]; nofun)
  rw [hslot] at hv
  cases v with
  | int n =>
    refine ⟨f.setSlot index .int, _, rfl, ?_⟩
    have hrun : (Exec.perform classes (.iinc index amount)).run s =
        ((Exec.require (s.frame.load? index) >>= Exec.incrementInto index amount) *> pure .next :
          Exec Progress).run ⟨{ s.frame with ip := s.frame.ip + 1 }, s.heap, s.statics⟩ := rfl
    rw [hrun, hload]
    exact .next _ ⟨hconf.stack, Activation.slotsFit_increment hconf.slots hslot hlow hhigh rfl⟩ rfl
      rfl
  | _ => cases hv

end Slots

/-! ### Jumps and switches -/

/-- The label a table selects for a key. The last key of the table wraps around only when there is
no key in it at all. -/
theorem Exec.tableTarget_mem {low high : Int32} {fallback : Label} {targets : List Label}
    (hhigh : high = low + Int32.ofNat targets.length - 1) (hpos : 1 ≤ targets.length)
    (hlen : targets.length < 0x80000000) (key : Int32) :
    ∃ l ∈ fallback :: targets, Exec.tableTarget low high fallback targets key = some l := by
  unfold Exec.tableTarget
  split
  · next hkey =>
    simp only [Bool.and_eq_true, decide_eq_true_eq, Int32.le_iff_toInt_le] at hkey
    have hofNat : (Int32.ofNat targets.length).toInt = targets.length := by
      rw [Int32.toInt_ofNat']
      exact Int.bmod_eq_of_le (by simp [Int32.size]) (by simp [Int32.size]; omega)
    -- nothing wraps between the bounds, so the index into the targets is the plain difference
    have hl1 := low.le_toInt
    have hl2 := low.toInt_lt
    have hk1 := key.le_toInt
    have hk2 := key.toInt_lt
    have hle : high.toInt ≤ low.toInt + targets.length - 1 := by
      rw [hhigh, Int32.toInt_sub, Int32.toInt_add, hofNat]
      rw [Int.bmod_sub_bmod, show Int32.toInt 1 = 1 from rfl, Int.bmod_def]
      split <;> omega
    have hsub : (key - low).toInt = key.toInt - low.toInt := by
      rw [Int32.toInt_sub]
      exact Int.bmod_eq_of_le (by simp; omega) (by simp; omega)
    have hnonneg : ¬ key - low < 0 := by
      rw [Int32.lt_iff_toInt_lt, hsub]
      simp
      omega
    rw [if_neg (by simpa using hnonneg), hsub]
    have hidx : (key.toInt - low.toInt).toNat < targets.length := by omega
    exact ⟨targets[(key.toInt - low.toInt).toNat], by simp, List.getElem?_eq_getElem hidx⟩
  · exact ⟨fallback, by simp, rfl⟩

/-- The label a list selects for a key. -/
theorem Exec.lookupTarget_mem {fallback : Label} {keys : List Int32} {targets : List Label}
    (hlen : keys.length = targets.length) (key : Int32) :
    ∃ l ∈ fallback :: targets, Exec.lookupTarget fallback keys targets key = some l := by
  unfold Exec.lookupTarget
  split
  · next index hindex =>
    have hlt : index < targets.length := by
      obtain ⟨h, -⟩ := List.findIdx?_eq_some_iff_getElem.1 hindex
      omega
    exact ⟨targets[index], by simp, List.getElem?_eq_getElem hlt⟩
  · exact ⟨fallback, by simp, rfl⟩

section Jumps

variable {classes : Classes} {owner : String} {offset : Int} {f : Frame} {s : Workplace}
  {insn : Instruction} {effect : Effect} {ts : List JType} {vs : List Value}

/-- An instruction that goes on at one of its targets. -/
theorem soundAt_of_target (hfits : StackFits Value.Typed ts vs) (hconf : s.frame.Conforms f)
    (hexec : Tracker.execute owner f insn offset = (⟨ts, f.locals⟩, .ok effect)) {l : Label}
    (hl : l ∈ insn.targets) {t : Nat} (ht : s.frame.routine.offset? l = some t)
    (hrun : (Exec.perform classes insn).run s = (Exec.goToLabel l *> pure .next : Exec Progress).run
      ⟨{ s.frame with stack := vs, ip := s.frame.ip + 1 }, s.heap, s.statics⟩) :
    SoundAt classes owner offset insn f s := by
  refine ⟨_, effect, hexec, ?_⟩
  have hgo : (Exec.goToLabel l *> pure .next : Exec Progress).run
      ⟨{ s.frame with stack := vs, ip := s.frame.ip + 1 }, s.heap, s.statics⟩ =
      ((Exec.require (s.frame.routine.offset? l) >>= Exec.goTo) *> pure .next : Exec Progress).run
        ⟨{ s.frame with stack := vs, ip := s.frame.ip + 1 }, s.heap, s.statics⟩ := rfl
  rw [hrun, hgo, ht]
  exact .target _ ⟨hfits, hconf.slots⟩ l hl ht

/-- A jump that may be taken. -/
theorem soundAt_of_jump {op : Opcode} {target : Label} (hfits : StackFits Value.Typed ts vs)
    (hconf : s.frame.Conforms f)
    (hexec : Tracker.execute owner f (.jump op target) offset = (⟨ts, f.locals⟩, .ok effect))
    {t : Nat} (ht : s.frame.routine.offset? target = some t) (taken : Bool)
    (hrun : (Exec.jumpTaken op).run ⟨{ s.frame with ip := s.frame.ip + 1 }, s.heap, s.statics⟩ =
      .ok taken ⟨{ s.frame with stack := vs, ip := s.frame.ip + 1 }, s.heap, s.statics⟩)
    (hfalls : op.fallsThrough ∨ taken) :
    SoundAt classes owner offset (.jump op target) f s := by
  have hperform : (Exec.perform classes (.jump op target)).run s =
      (Exec.jumpTaken op >>= fun taken =>
        if taken then Exec.goToLabel target *> pure .next else pure .next : Exec Progress).run
        ⟨{ s.frame with ip := s.frame.ip + 1 }, s.heap, s.statics⟩ := rfl
  rw [EStateM.run_bind, hrun] at hperform
  cases taken with
  | true => exact soundAt_of_target hfits hconf hexec List.mem_cons_self ht hperform
  | false =>
    exact soundAt_of_stack hfits hconf hexec hperform (hfalls.resolve_right Bool.false_ne_true)

theorem soundAt_jump {op : Opcode} {target : Label} (hconf : s.frame.Conforms f)
    (hform : op.form = .jump) (hv : Begins op.operands f.stack) {t : Nat}
    (ht : s.frame.routine.offset? target = some t) :
    SoundAt classes owner offset (.jump op target) f s := by
  obtain ⟨stack, locals⟩ := f
  obtain ⟨⟨routine, values, slots, count, ip, line, fresh, wants⟩, heap, statics⟩ := s
  cases op with
  | ifZero cond =>
    obtain ⟨a, ts, vs, rfl, rfl, -, hs⟩ := hv.int hconf.stack
    exact soundAt_of_jump hs hconf rfl ht _ rfl (.inl rfl)
  | ifInt cond =>
    obtain ⟨b, ts, vs, rfl, rfl, hv, hs⟩ := hv.int hconf.stack
    obtain ⟨a, ts, vs, rfl, rfl, -, hs⟩ := hv.int hs
    exact soundAt_of_jump hs hconf rfl ht _ rfl (.inl rfl)
  | ifRef differ =>
    obtain ⟨_, ts, b, vs, -, rfl, -, rfl, hv, hs⟩ := hv.ref hconf.stack
    obtain ⟨_, ts, a, vs, -, rfl, -, rfl, -, hs⟩ := hv.ref hs
    exact soundAt_of_jump hs hconf rfl ht _ rfl (.inl rfl)
  | ifNull | ifNonNull =>
    obtain ⟨_, ts, a, vs, -, rfl, -, rfl, -, hs⟩ := hv.ref hconf.stack
    exact soundAt_of_jump hs hconf rfl ht _ rfl (.inl rfl)
  | goto => exact soundAt_of_jump hconf.stack hconf rfl ht _ rfl (.inr rfl)
  | jsr =>
    -- a return address is pushed, of which the tracker knows nothing
    exact soundAt_of_jump (hconf.stack.cell (v := .returnAddress (ip + 1)) (t := .top)
      (by decide) rfl) hconf rfl ht _ rfl (.inr rfl)
  | invoke op => cases op <;> cases hform
  | _ => cases hform

theorem soundAt_tableSwitch {low high : Int32} {fallback : Label} {targets : List Label}
    (hconf : s.frame.Conforms f) (hv : Begins [.int] f.stack)
    (hhigh : high = low + Int32.ofNat targets.length - 1) (hpos : 1 ≤ targets.length)
    (hlen : targets.length < 0x80000000)
    (ht : ∀ l ∈ fallback :: targets, ∃ t, s.frame.routine.offset? l = some t) :
    SoundAt classes owner offset (.tableSwitch low high fallback targets) f s := by
  obtain ⟨stack, locals⟩ := f
  obtain ⟨⟨routine, values, slots, count, ip, line, fresh, wants⟩, heap, statics⟩ := s
  obtain ⟨key, ts, vs, rfl, rfl, -, hs⟩ := hv.int hconf.stack
  obtain ⟨l, hl, htarget⟩ := Exec.tableTarget_mem hhigh hpos hlen key
  obtain ⟨t, ht⟩ := ht l hl
  have hrun : (Exec.perform classes (.tableSwitch low high fallback targets)).run
      ⟨⟨routine, .int key :: vs, slots, count, ip, line, fresh, wants⟩, heap, statics⟩ =
      (Exec.require (Exec.tableTarget low high fallback targets key) >>= fun l =>
        Exec.goToLabel l *> pure .next : Exec Progress).run
        ⟨⟨routine, vs, slots, count, ip + 1, line, fresh, wants⟩, heap, statics⟩ := rfl
  rw [htarget] at hrun
  exact soundAt_of_target hs hconf rfl hl ht hrun

theorem soundAt_lookupSwitch {fallback : Label} {keys : List Int32} {targets : List Label}
    (hconf : s.frame.Conforms f) (hv : Begins [.int] f.stack) (hlen : keys.length = targets.length)
    (ht : ∀ l ∈ fallback :: targets, ∃ t, s.frame.routine.offset? l = some t) :
    SoundAt classes owner offset (.lookupSwitch fallback keys targets) f s := by
  obtain ⟨stack, locals⟩ := f
  obtain ⟨⟨routine, values, slots, count, ip, line, fresh, wants⟩, heap, statics⟩ := s
  obtain ⟨key, ts, vs, rfl, rfl, -, hs⟩ := hv.int hconf.stack
  obtain ⟨l, hl, htarget⟩ := Exec.lookupTarget_mem hlen key
  obtain ⟨t, ht⟩ := ht l hl
  have hrun : (Exec.perform classes (.lookupSwitch fallback keys targets)).run
      ⟨⟨routine, .int key :: vs, slots, count, ip, line, fresh, wants⟩, heap, statics⟩ =
      (Exec.require (Exec.lookupTarget fallback keys targets key) >>= fun l =>
        Exec.goToLabel l *> pure .next : Exec Progress).run
        ⟨⟨routine, vs, slots, count, ip + 1, line, fresh, wants⟩, heap, statics⟩ := rfl
  rw [htarget] at hrun
  exact soundAt_of_target hs hconf rfl hl ht hrun

end Jumps

/-! ### All elementary instructions -/

/-- **Elementary instructions are tracked soundly.** -/
theorem soundAt_of_isElementary (classes : Classes) (owner : String) (offset : Int)
    {insn : Instruction} {f : Frame} {s : Workplace} (helem : insn.isElementary)
    (hcanon : insn.isCanonical) (hbounds : insn.isBounded) (hv : insn.Verified f)
    (hconf : s.frame.Conforms f)
    (ht : ∀ l ∈ insn.targets, ∃ t, s.frame.routine.offset? l = some t) :
    SoundAt classes owner offset insn f s := by
  cases insn with
  | plain op => exact soundAt_plain hconf helem hv.stack
  | int op operand =>
    -- a canonical instruction carries the opcode it is named after
    simp only [Instruction.isElementary, Bool.or_eq_true, decide_eq_true_eq] at helem
    rcases helem with rfl | rfl <;>
      exact soundAt_of_push .int (.int operand) hconf.stack hconf rfl rfl rfl rfl rfl
  | slot op index =>
    simp only [Instruction.isBounded, Bool.and_eq_true, decide_eq_true_eq] at hbounds
    cases op with
    | load kind => exact soundAt_load hconf hv.slot
    | store kind => exact soundAt_store hconf hv.stack hbounds.1 hbounds.2
    | _ => cases helem
  | iinc index amount =>
    simp only [Instruction.isBounded, Bool.and_eq_true, decide_eq_true_eq] at hbounds
    exact soundAt_iinc hconf hv.slot hbounds.1 hbounds.2
  | ldc c =>
    refine soundAt_ldc hconf ?_
    rintro rfl
    cases hcanon
  | jump op target =>
    obtain ⟨t, ht⟩ := ht target List.mem_cons_self
    have hform : op.form = .jump := of_decide_eq_true helem
    refine soundAt_jump hconf hform ?_ ht
    cases op <;> first | exact hv.stack | cases hform
  | tableSwitch low high fallback targets =>
    simp only [Instruction.isBounded, Bool.and_eq_true, decide_eq_true_eq] at hbounds
    exact soundAt_tableSwitch hconf hv.stack (of_decide_eq_true hcanon) hbounds.1 hbounds.2 ht
  | lookupSwitch fallback keys targets =>
    exact soundAt_lookupSwitch hconf hv.stack (of_decide_eq_true hcanon) ht
  | _ => cases helem

/-- A routine that gives back the object it gets. -/
def identityParts : RoutineParts where
  owner := "Pass"
  name := "on"
  descriptor := "(Ljava/lang/Object;)Ljava/lang/Object;"
  access := .static
  code := #[some (.slot (.load .ref) 0), some (.plain (.returnValue .ref))]
  blocks := []
  maxLocals := 1
  maxStack := 1

/-- Conversion does not look at what is passed for a reference: a number passed for an object gives
an activation that does not conform to the frame on entry. -/
theorem entry_unfit :
    ∃ (m : Machine) (r : Routine) (args values : List Value) (a : Activation), r.Made ∧
      m.world.routines.lookup r.key = some r ∧
      m.prepare r.owner r.name r.descriptor args = .ok values ∧
      Activation.enter r values true = some a ∧ ¬ a.Conforms (Flow.entry r) := by
  -- the call is run up to the entry into the routine
  have hrun : (match Routine.make identityParts with
      | .ok r => match (Machine.define {} r).prepare r.owner r.name r.descriptor [.int 5] with
        | .ok values => match Activation.enter r values true with
          | some a => decide ((Flow.entry r).slot 0 = .anyObject ∧ a.load? 0 = some (.int 5))
          | none => false
        | .error _ => false
      | .error _ => false) = true := by decide +kernel
  split at hrun
  case h_2 => cases hrun
  next r hr =>
  split at hrun
  case h_2 => cases hrun
  next values hvalues =>
  split at hrun
  case h_2 => cases hrun
  next a ha =>
  obtain ⟨hslot, hload⟩ := of_decide_eq_true hrun
  refine ⟨.define {} r, r, [.int 5], values, a, ⟨_, hr⟩, by simp [Machine.define], hvalues, ha,
    fun hconf => ?_⟩
  obtain ⟨v, hv, hty, -⟩ := hconf.slots 0 (by rw [hslot]; nofun)
  obtain rfl := Option.some.inj (hload.symm.trans hv)
  rw [hslot] at hty
  cases hty

/-- **The tracker is sound for the machine.** A routine entered with converted arguments, those for
references being references, conforms to the frame on entry; and an elementary instruction that is
verified at a frame takes an activation conforming to it to one conforming to the frame after it, on
to the next instruction or to one of its targets, unless it divides by zero. -/
theorem tracker_sound :
    (∀ (m : Machine) (r : Routine) (args values : List Value) (wantsResult : Bool),
      r.Made → r.Fits → m.world.routines.lookup r.key = some r →
      List.Forall₂ (fun t (v : Value) => t.isReference → v.isReference) r.parameters args →
      m.prepare r.owner r.name r.descriptor args = .ok values →
      ∃ a, Activation.enter r values wantsResult = some a ∧ a.routine = r ∧ a.ip = 0 ∧
        a.Conforms (Flow.entry r)) ∧
    (∀ (classes : Classes) (owner : String) (offset : Int) (insn : Instruction) (f : Frame)
      (s : Workplace), s.frame.routine.Made → insn ∈ s.frame.routine.code →
      insn.isElementary → insn.isCanonical → insn.isBounded → s.frame.Conforms f →
      insn.Verified f → SoundAt classes owner offset insn f s) := by
  refine ⟨fun m r args values wantsResult hr hfits hdef hrefs hprep => ?_,
    fun classes owner offset insn f s hr hmem helem hcanon hbounds hconf hv => ?_⟩
  · have hargs := Machine.prepare_ok hr.checked hdef hrefs hprep
    obtain ⟨a, ha, hroutine, hip, hstack, hslots⟩ :=
      Activation.conforms_entry (M := Value.Typed) hfits hargs wantsResult
    refine ⟨a, ha, hroutine, hip, ?_, hslots⟩
    rw [hstack, Flow.entry_eq, Flow.setArguments_stack]
    exact .nil
  · exact soundAt_of_isElementary classes owner offset helem hcanon hbounds hv hconf
      fun l hl => hr.checked.targets insn hmem l hl

theorem tracker_sound_identity :
    ∃ r a, Routine.make identityParts = .ok r ∧
      Activation.enter r [.string "text"] true = some a ∧ a.Conforms (Flow.entry r) ∧
      SoundAt Classes.builtin r.owner 0 (.slot (.load .ref) 0) (Flow.entry r) ⟨a, .empty, []⟩ := by
  have hrun : (match Routine.make identityParts with
      | .ok r =>
        decide (max r.maxLocals r.argumentsSize ≤ Activation.capacity ∧
          0 ≤ Word.wrap (r.maxStack + 2) ∧ Word.wrap (r.maxStack + 2) ≤ Activation.capacity ∧
          r.parameters = [.anyObject] ∧ r.code.toList.head? = some (.slot (.load .ref) 0) ∧
          (Flow.entry r).slot 0 = .anyObject) &&
        match (Machine.define {} r).prepare r.owner r.name r.descriptor [.string "text"] with
        | .ok values => values = [.string "text"]
        | .error _ => false
      | .error _ => false) = true := by decide +kernel
  split at hrun
  case h_2 => cases hrun
  next r hr =>
  rw [Bool.and_eq_true, decide_eq_true_iff] at hrun
  obtain ⟨⟨hlocals, hstack, hcells, hparams, hhead, hslot⟩, hprep⟩ := hrun
  split at hprep
  case h_2 => cases hprep
  next values hvalues =>
  obtain rfl := of_decide_eq_true hprep
  obtain ⟨a, ha, rfl, -, hconf⟩ := tracker_sound.1 (.define {} r) r [.string "text"] _ true ⟨_, hr⟩
    ⟨hlocals, hstack, hcells⟩ (by simp [Machine.define]) (by rw [hparams]; simp [Value.isReference])
    hvalues
  refine ⟨a.routine, a, hr, ha, hconf, tracker_sound.2 Classes.builtin a.routine.owner 0 _ _
    ⟨a, .empty, []⟩ ⟨_, hr⟩ ?_ rfl rfl rfl hconf ⟨trivial, ?_, trivial⟩⟩
  · exact Array.mem_toList_iff.1 (List.mem_of_mem_head? hhead)
  · change SlotKind.holds .ref ((Flow.entry a.routine).slot 0) = true
    rw [hslot]
    rfl

end Outliner
