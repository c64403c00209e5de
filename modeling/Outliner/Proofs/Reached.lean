import Outliner.Machine.Run
import Outliner.Proofs.Operands
import Outliner.Proofs.Visits

/-!
# A run stays on the code the analysis has reached

Where control goes is decided twice: by the analysis, from the flow of the opcodes and the labels of
the instructions, and by the machine, from the instruction pointer, the labels and the regions. This
module shows that the machine goes nowhere the analysis has not been.

An instruction is a program over an activation, and all but its very last part leaves the
instruction pointer alone (`Exec.Stays`). So an instruction that is done either returns, or has come
to the next instruction or to one of its targets (`Exec.perform_lands`); one that is cut short, by
an exception or a call, stands behind itself. This is the step. The invariant of a run is that the
running activation stands at a reached instruction and each waiting one behind a reached instruction
that control can leave (`Flow.Sustains`); the analysis has followed control from there, to the next
instruction and to the handlers.
-/

namespace Outliner

/-! ### Programs that leave the instruction pointer alone -/

namespace Exec

variable {α β : Type}

/-- An outcome in which an activation is where it was. It may have failed, but not for want of an
instruction. -/
inductive Remains (s : Workplace) (Q : α → Prop) : EStateM.Result Halt Workplace α → Prop where
  | ok {a : α} {p : Workplace} (routine : p.frame.routine = s.frame.routine)
    (ip : p.frame.ip = s.frame.ip) (value : Q a) : Remains s Q (.ok a p)
  | error {halt : Halt} {p : Workplace} (routine : p.frame.routine = s.frame.routine)
    (ip : p.frame.ip = s.frame.ip) (cause : halt ≠ .failed .fellOff) : Remains s Q (.error halt p)

/-- **A program leaves the instruction pointer alone**, and its result is as `Q` says. -/
def Stays (Q : α → Prop) (x : Exec α) : Prop :=
  ∀ s, Remains s Q (x.run s)

/-- Nothing to be said of a result. -/
def Anything : α → Prop := fun _ => True

namespace Stays

variable {Q : α → Prop} {R : β → Prop} {x : Exec α} {f : α → Exec β}

protected theorem pure {a : α} (h : Q a) : Stays Q (pure a) := fun _ => .ok rfl rfl h

theorem throw {halt : Halt} (h : halt ≠ .failed .fellOff) : Stays Q (throw halt : Exec α) :=
  fun _ => .error rfl rfl h

/-- The parts of a program may each leave the instruction pointer alone. -/
protected theorem bind (hx : Stays Q x) (hf : ∀ a, Q a → Stays R (f a)) : Stays R (x >>= f) := by
  intro s
  have hbind : (x >>= f).run s = EStateM.bind x f s := rfl
  rw [hbind, EStateM.bind]
  have hs := hx s
  generalize hresult : x s = result
  rw [EStateM.run, hresult] at hs
  cases hs with
  | @ok a p routine ip value =>
    have hp := hf a value p
    generalize hresult' : (f a).run p = result at hp
    change Remains s R ((f a).run p)
    rw [hresult']
    cases hp with
    | ok routine' ip' value' => exact .ok (routine'.trans routine) (ip'.trans ip) value'
    | error routine' ip' cause => exact .error (routine'.trans routine) (ip'.trans ip) cause
  | error routine ip cause => exact .error routine ip cause

theorem mono {Q' : α → Prop} (hx : Stays Q x) (h : ∀ a, Q a → Q' a) : Stays Q' x := by
  intro s
  have hs := hx s
  generalize x.run s = result at hs
  cases hs with
  | ok routine ip value => exact .ok routine ip (h _ value)
  | error routine ip cause => exact .error routine ip cause

/-- A program whose result does not matter. -/
theorem andThen (hx : Stays Q x) (hf : ∀ a, Stays R (f a)) : Stays R (x >>= f) :=
  hx.bind fun a _ => hf a

/-- A program that looks at where it works. -/
theorem get_bind {f : Workplace → Exec α} (h : ∀ s, Remains s Q ((f s).run s)) :
    Stays Q (get >>= f) := h

theorem look {f : Workplace → Exec α} (h : ∀ s, Stays Q (f s)) : Stays Q (get >>= f) :=
  get_bind fun s => h s s

theorem modifyFrame {g : Activation → Activation} (hroutine : ∀ a, (g a).routine = a.routine)
    (hip : ∀ a, (g a).ip = a.ip) : Stays Anything (Exec.modifyFrame g) :=
  fun s => .ok (hroutine s.frame) (hip s.frame) trivial

theorem modify {g : Workplace → Workplace} (hframe : ∀ s, (g s).frame = s.frame) :
    Stays Anything (modify g : Exec Unit) :=
  fun s => .ok (congrArg Activation.routine (hframe s)) (congrArg Activation.ip (hframe s)) trivial

theorem breakdown : Stays Q Exec.breakdown := throw nofun

theorem fail {cause : Cause} (h : cause ≠ .fellOff) : Stays Q (Exec.fail cause) :=
  throw fun heq => h (Halt.failed.inj heq)

theorem require (o : Option α) : Stays (fun a => o = some a) (Exec.require o) := by
  cases o with
  | some a => exact .pure rfl
  | none => exact breakdown

theorem raise (className message : String) : Stays Q (Exec.raise className message) :=
  fun _ => .error rfl rfl nofun

theorem push (v : Value) : Stays Anything (Exec.push v) :=
  modifyFrame (fun _ => rfl) fun _ => rfl

theorem pushValue (v : Value) : Stays Anything (Exec.pushValue v) :=
  modifyFrame (fun _ => rfl) fun _ => rfl

theorem pop : Stays Anything Exec.pop := by
  refine get_bind fun s => ?_
  cases s.frame.stack with
  | nil => exact .error rfl rfl nofun
  | cons v rest => exact .ok rfl rfl trivial

theorem popValue : Stays Anything Exec.popValue := by
  refine pop.andThen fun v => ?_
  cases v with
  | wide => exact pop
  | _ => exact .pure trivial

theorem takeCells (n : Nat) : Stays Anything (Exec.takeCells n) := by
  refine get_bind fun s => ?_
  dsimp only
  split
  · exact .error rfl rfl nofun
  · exact .ok rfl rfl trivial

theorem popInt : Stays Anything Exec.popInt := by
  refine pop.andThen fun v => ?_
  cases v with
  | int n => exact .pure trivial
  | _ => exact breakdown

theorem popFloat : Stays Anything Exec.popFloat := by
  refine pop.andThen fun v => ?_
  cases v with
  | float bits => exact .pure trivial
  | _ => exact breakdown

theorem popLong : Stays Anything Exec.popLong := by
  refine popValue.andThen fun v => ?_
  cases v with
  | long n => exact .pure trivial
  | _ => exact breakdown

theorem popDouble : Stays Anything Exec.popDouble := by
  refine popValue.andThen fun v => ?_
  cases v with
  | double bits => exact .pure trivial
  | _ => exact breakdown

theorem load (slot : Int) : Stays Anything (Exec.load slot) :=
  look fun _ => (require _).mono fun _ _ => trivial

theorem store (slot : Int) (v : Value) : Stays Anything (Exec.store slot v) := by
  refine get_bind fun s => ?_
  unfold Activation.store?
  split
  · exact .ok rfl rfl trivial
  · exact .error rfl rfl nofun

theorem alloc (cell : HeapCell) : Stays Anything (Exec.alloc cell) :=
  fun _ => .ok rfl rfl trivial

/-! ### The parts of instructions -/

theorem divided (o : Option α) : Stays Anything (Exec.divided o) := by
  cases o with
  | some a => exact .pure trivial
  | none => exact raise _ _

theorem elementOf (v : Value) (index : Int32) : Stays Anything (Exec.elementOf v index) := by
  cases v with
  | null => exact raise _ _
  | ref addr =>
    refine look fun s => ?_
    split
    · split
      · exact raise _ _
      · exact .pure trivial
    · exact breakdown
  | _ => exact breakdown

theorem loadElement : Stays Anything Exec.loadElement :=
  popInt.andThen fun index => pop.andThen fun v => (elementOf v index).andThen fun _ =>
    look fun _ => (require _).andThen fun w => pushValue w

theorem storeElement : Stays Anything Exec.storeElement :=
  popValue.andThen fun _ => popInt.andThen fun index => pop.andThen fun a =>
    (elementOf a index).andThen fun _ => modify fun _ => rfl

theorem arith (op : ArithOp) (kind : NumKind) : Stays Anything (Exec.arith op kind) := by
  cases kind with
  | int => exact popInt.andThen fun _ => popInt.andThen fun _ => (divided _).andThen fun _ => push _
  | long =>
    exact popLong.andThen fun _ => popLong.andThen fun _ => (divided _).andThen fun _ => pushValue _
  | float => exact popFloat.andThen fun _ => popFloat.andThen fun _ => push _
  | double => exact popDouble.andThen fun _ => popDouble.andThen fun _ => pushValue _

theorem negate (kind : NumKind) : Stays Anything (Exec.negate kind) := by
  cases kind with
  | int => exact popInt.andThen fun _ => push _
  | long => exact popLong.andThen fun _ => pushValue _
  | float => exact popFloat.andThen fun _ => push _
  | double => exact popDouble.andThen fun _ => pushValue _

theorem convert (conversion : Conversion) : Stays Anything (Exec.convert conversion) := by
  cases conversion with
  | i2l | i2d => exact popInt.andThen fun _ => pushValue _
  | i2f | i2b | i2c | i2s => exact popInt.andThen fun _ => push _
  | l2i | l2f => exact popLong.andThen fun _ => push _
  | l2d => exact popLong.andThen fun _ => pushValue _
  | f2i => exact popFloat.andThen fun _ => push _
  | f2l | f2d => exact popFloat.andThen fun _ => pushValue _
  | d2i | d2f => exact popDouble.andThen fun _ => push _
  | d2l => exact popDouble.andThen fun _ => pushValue _

theorem immediate (op : Opcode) (operand : Int32) : Stays Anything (Exec.immediate op operand) := by
  unfold Exec.immediate
  split
  · split
    · exact fail nofun
    · refine popInt.andThen fun _ => ?_
      split
      · exact raise _ _
      · exact (alloc _).andThen fun _ => push _
  · exact push _

theorem increment (index : Int) (amount : Int32) :
    Stays Anything (Exec.increment index amount) := by
  refine (load index).andThen fun v => ?_
  cases v with
  | int n => exact modifyFrame (fun _ => rfl) fun _ => rfl
  | _ => exact breakdown

/-- An operation on a slot, other than going on at the address in it. -/
theorem slotAccess {op : Opcode} (hop : op ≠ .ret) (index : Int) :
    Stays Anything (Exec.slotAccess op index) := by
  unfold Exec.slotAccess
  split
  · exact (load index).andThen fun _ => pushValue _
  · exact (load index).andThen fun _ => pushValue _
  · exact (load index).andThen fun _ => push _
  · exact popValue.andThen fun _ => store _ _
  · exact popValue.andThen fun _ => store _ _
  · exact pop.andThen fun _ => store _ _
  · exact absurd rfl hop
  · exact .pure trivial

theorem classAccess (classes : Classes) (op : Opcode) (name : String) :
    Stays Anything (Exec.classAccess classes op name) := by
  unfold Exec.classAccess
  split
  · exact (alloc _).andThen fun _ => push _
  · refine popInt.andThen fun _ => ?_
    split
    · exact raise _ _
    · exact (alloc _).andThen fun _ => push _
  · refine pop.andThen fun _ => look fun _ => ?_
    dsimp only
    split
    · exact raise _ _
    · exact push _
  · exact pop.andThen fun _ => look fun _ => push _
  · exact .pure trivial

theorem objectOf (v : Value) (action : String) : Stays Anything (Exec.objectOf v action) := by
  cases v with
  | null => exact raise _ _
  | ref addr =>
    refine look fun _ => ?_
    dsimp only
    split
    · exact .pure trivial
    · exact fail nofun
  | _ => exact look fun _ => fail nofun

theorem fieldAccess (op : Opcode) (owner name descriptor : String) :
    Stays Anything (Exec.fieldAccess op owner name descriptor) := by
  unfold Exec.fieldAccess
  split
  · exact fail nofun
  · dsimp only
    split
    · exact look fun _ => pushValue _
    · exact popValue.andThen fun _ => modify fun _ => rfl
    · exact pop.andThen fun v => (objectOf v _).andThen fun _ => pushValue _
    · exact popValue.andThen fun _ => pop.andThen fun v => (objectOf v _).andThen fun _ =>
        modify fun _ => rfl
    · exact .pure trivial

theorem popArguments (n : Nat) (args : List Value) : Stays Anything (Exec.popArguments n args) := by
  induction n generalizing args with
  | zero => exact .pure trivial
  | succ n ih => exact popValue.andThen fun v => ih (v :: args)

theorem methodCall (op : Opcode) (owner name descriptor : String) :
    Stays Anything (Exec.methodCall op owner name descriptor) := by
  unfold Exec.methodCall
  split
  · exact fail nofun
  · split
    · exact fail nofun
    · refine (popArguments _ _).andThen fun args => ?_
      split
      · exact .pure trivial
      · refine pop.andThen fun receiver => ?_
        split
        · exact andThen (Q := Anything) (raise _ _) fun _ => .pure trivial
        · exact .pure trivial

/-- Whether a jump is taken, which one that does not fall through always is. -/
theorem jumpTaken (op : Opcode) :
    Stays (fun taken => taken = false → op.form = .jump → op.fallsThrough) (Exec.jumpTaken op) := by
  have plainly : ∀ taken, op.form ≠ .jump →
      Stays (fun taken => taken = false → op.form = .jump → op.fallsThrough) (pure taken) :=
    fun _ hop => .pure fun _ hform => absurd hform hop
  cases op with
  | ifZero cond => exact popInt.andThen fun _ => .pure fun _ _ => rfl
  | ifInt cond => exact popInt.andThen fun _ => popInt.andThen fun _ => .pure fun _ _ => rfl
  | ifRef differ => exact pop.andThen fun _ => pop.andThen fun _ => .pure fun _ _ => rfl
  | ifNull | ifNonNull => exact pop.andThen fun _ => .pure fun _ _ => rfl
  | goto | gotoWide => exact .pure nofun
  | jsr | jsrWide => exact look fun _ => (push _).andThen fun _ => .pure nofun
  | invoke op => exact plainly false (by cases op <;> nofun)
  | _ => exact plainly false nofun

theorem arrayLengths (cells : List Value) : Stays Anything (Exec.arrayLengths cells) := by
  induction cells with
  | nil => exact .pure trivial
  | cons v rest ih =>
    cases v with
    | int n =>
      unfold Exec.arrayLengths
      split
      · exact raise _ _
      · exact ih.andThen fun _ => .pure trivial
    | _ => exact breakdown

theorem multiArray (descriptor : String) (dims : Int) :
    Stays Anything (Exec.multiArray descriptor dims) := by
  unfold Exec.multiArray
  split
  · exact breakdown
  · refine (takeCells _).andThen fun cells => (arrayLengths _).andThen fun lengths => ?_
    split
    · exact fail nofun
    · refine get_bind fun s => ?_
      cases nestedArrays _ lengths s.heap with
      | none => exact .error rfl rfl nofun
      | some made => exact .ok rfl rfl trivial

/-- What an operation without operands comes to: one that is done has let control go on, or has left
the routine. -/
def Flows (op : Opcode) (progress : Progress) : Prop :=
  (progress = .next ∧ op.fallsThrough) ∨ ∃ v, progress = .leave v

theorem plain (op : Opcode) : Stays (Flows op) (Exec.plain op) := by
  have next : ∀ {x : Exec Unit}, Stays Anything x → op.fallsThrough →
      Stays (Flows op) (x >>= fun _ => pure .next) :=
    fun hx hop => hx.andThen fun _ => .pure (.inl ⟨rfl, hop⟩)
  have leaves : ∀ {x : Exec Value}, Stays Anything x →
      Stays (Flows op) (x >>= fun v => pure (.leave v)) :=
    fun hx => hx.andThen fun v => .pure (.inr ⟨v, rfl⟩)
  -- an operation goes on or leaves; those that raise an exception are covered by either
  cases op with
  | nop => exact .pure (.inl ⟨rfl, rfl⟩)
  | aconstNull => exact next (push _) rfl
  | iconst k => exact next (push _) rfl
  | lconst k => exact next (pushValue _) rfl
  | fconst k => exact next (push _) rfl
  | dconst k => exact next (pushValue _) rfl
  | arrayLoad kind => exact next loadElement rfl
  | arrayStore kind => exact next storeElement rfl
  | pop => exact pop.andThen fun _ => .pure (.inl ⟨rfl, rfl⟩)
  | pop2 => exact (takeCells 2).andThen fun _ => .pure (.inl ⟨rfl, rfl⟩)
  | shuffle form =>
    exact (takeCells _).andThen fun _ => (require _).andThen fun _ =>
      next (modifyFrame (fun _ => rfl) fun _ => rfl) rfl
  | arith op kind => exact next (arith op kind) rfl
  | neg kind => exact next (negate kind) rfl
  | shift op wide =>
    cases wide with
    | false => exact popInt.andThen fun _ => popInt.andThen fun _ => next (push _) rfl
    | true => exact popInt.andThen fun _ => popLong.andThen fun _ => next (pushValue _) rfl
  | bitwise op wide =>
    cases wide with
    | false => exact popInt.andThen fun _ => popInt.andThen fun _ => next (push _) rfl
    | true => exact popLong.andThen fun _ => popLong.andThen fun _ => next (pushValue _) rfl
  | convert conversion => exact next (convert conversion) rfl
  | lcmp => exact popLong.andThen fun _ => popLong.andThen fun _ => next (push _) rfl
  | fcmp high => exact popFloat.andThen fun _ => popFloat.andThen fun _ => next (push _) rfl
  | dcmp high => exact popDouble.andThen fun _ => popDouble.andThen fun _ => next (push _) rfl
  | returnValue kind =>
    cases kind with
    | long | double => exact leaves popValue
    | int | float | ref => exact leaves pop
  | returnVoid => exact .pure (.inr ⟨_, rfl⟩)
  | arrayLength =>
    refine pop.andThen fun v => ?_
    cases v with
    | null => exact andThen (Q := Anything) (raise _ _) fun _ => .pure (.inl ⟨rfl, rfl⟩)
    | ref addr =>
      refine look fun s => ?_
      cases s.heap.get? addr with
      | none => exact breakdown
      | some cell =>
        cases cell with
        | array type elements => exact next (push _) rfl
        | _ => exact breakdown
    | _ => exact breakdown
  | athrow =>
    refine pop.andThen fun v => ?_
    cases v with
    | null => exact raise _ _
    | ref addr =>
      refine look fun s => ?_
      cases s.heap.get? addr with
      | none => exact breakdown
      | some cell =>
        cases cell with
        | object className fields => exact throw nofun
        | _ => exact breakdown
    | _ => exact breakdown
  | monitorEnter | monitorExit =>
    refine pop.andThen fun v => ?_
    cases v with
    | null => exact andThen (Q := Anything) (raise _ _) fun _ => .pure (.inl ⟨rfl, rfl⟩)
    | _ => exact .pure (.inl ⟨rfl, rfl⟩)
  | _ => exact fail nofun

end Stays

/-! ### Where an instruction leads -/

/-- **Where an instruction at an offset of `r` leaves the activation.** An instruction that is cut
short leaves it behind the instruction, and so does a call. -/
inductive Landed (r : Routine) (insn : Instruction) (offset : Nat) :
    EStateM.Result Halt Workplace Progress → Prop where
  | next {p : Workplace} (routine : p.frame.routine = r)
    (ip : insn.isCanonical → insn.opcode ≠ .ret →
      (p.frame.ip = offset + 1 ∧ insn.fallsThrough) ∨ p.frame.ip ∈ r.targetOffsets insn) :
    Landed r insn offset (.ok .next p)
  | leave {v : Value} {p : Workplace} : Landed r insn offset (.ok (.leave v) p)
  | call {c : Call} {p : Workplace} (routine : p.frame.routine = r) (ip : p.frame.ip = offset + 1)
    (falls : insn.isCanonical → insn.fallsThrough) : Landed r insn offset (.ok (.call c) p)
  | error {halt : Halt} {p : Workplace} (routine : p.frame.routine = r)
    (ip : p.frame.ip = offset + 1) (cause : halt ≠ .failed .fellOff) :
    Landed r insn offset (.error halt p)

/-- A program ends an instruction when it begins behind it. -/
def Lands (r : Routine) (insn : Instruction) (offset : Nat) (x : Exec Progress) : Prop :=
  ∀ s : Workplace, s.frame.routine = r → s.frame.ip = offset + 1 → Landed r insn offset (x.run s)

namespace Lands

variable {r : Routine} {insn : Instruction} {offset : Nat} {Q : α → Prop} {x : Exec α}
  {f : α → Exec Progress}

protected theorem bind (hx : Stays Q x) (hf : ∀ a, Q a → Lands r insn offset (f a)) :
    Lands r insn offset (x >>= f) := by
  intro s hroutine hip
  have hbind : (x >>= f).run s = EStateM.bind x f s := rfl
  rw [hbind, EStateM.bind]
  have hs := hx s
  generalize hresult : x s = result
  rw [EStateM.run, hresult] at hs
  cases hs with
  | @ok a p routine ip value => exact hf a value p (routine.trans hroutine) (ip.trans hip)
  | error routine ip cause => exact .error (routine.trans hroutine) (ip.trans hip) cause

theorem assoc {g : α → Exec β} {f : β → Exec Progress}
    (h : Lands r insn offset (x >>= fun a => g a >>= f)) : Lands r insn offset (x >>= g >>= f) := by
  rwa [bind_assoc]

/-- A part that leaves the instruction pointer alone, after which control goes on. -/
theorem done {x : Exec Unit} (hx : Stays Anything x)
    (hfalls : insn.isCanonical → insn.opcode ≠ .ret → insn.fallsThrough) :
    Lands r insn offset (x >>= fun _ => pure .next) :=
  .bind hx fun _ _ _ hroutine hip =>
    .next hroutine fun hcanonical hret => .inl ⟨hip, hfalls hcanonical hret⟩

/-- Going on at a label. -/
theorem goToLabel {l : Label} (hl : l ∈ insn.targets) :
    Lands r insn offset (Exec.goToLabel l >>= fun _ => pure .next) := by
  refine assoc fun s hroutine hip => ?_
  subst hroutine
  change Landed _ insn offset ((Exec.require (s.frame.routine.offset? l) >>= Exec.goTo >>= fun _ =>
    pure .next : Exec Progress).run s)
  cases hk : s.frame.routine.offset? l with
  | none => exact .error rfl hip nofun
  | some k => exact .next rfl fun _ _ => .inr (List.mem_filterMap.2 ⟨l, hl, hk⟩)

end Lands

theorem tableTarget_mem_targets {low high key : Int32} {fallback l : Label} {targets : List Label}
    (h : tableTarget low high fallback targets key = some l) : l ∈ fallback :: targets := by
  unfold tableTarget at h
  split at h
  · dsimp only at h
    split at h
    · cases h
    · exact List.mem_cons_of_mem _ (List.mem_of_getElem? h)
  · exact List.mem_cons.2 (.inl (Option.some.inj h).symm)

theorem lookupTarget_mem_targets {key : Int32} {fallback l : Label} {keys : List Int32}
    {targets : List Label} (h : lookupTarget fallback keys targets key = some l) :
    l ∈ fallback :: targets := by
  unfold lookupTarget at h
  split at h
  · exact List.mem_cons_of_mem _ (List.mem_of_getElem? h)
  · exact List.mem_cons.2 (.inl (Option.some.inj h).symm)

end Exec

/-- An opcode with operands that are no labels lets control go on. -/
theorem Opcode.fallsThrough_of_form {op : Opcode} (hplain : op.form ≠ .plain)
    (hbranch : op.isBranch = false) (hret : op ≠ .ret) : op.fallsThrough := by
  cases op <;> first | rfl | exact absurd rfl hplain | exact absurd rfl hret | cases hbranch

/-- A canonical instruction with operands that are no labels lets control go on. -/
theorem Instruction.fallsThrough_of_targets {insn : Instruction}
    (hplain : insn.carries .plain = false) (htargets : insn.targets = [])
    (hcanonical : insn.isCanonical) (hret : insn.opcode ≠ .ret) :
    insn.fallsThrough := by
  cases hmarker : insn.isMarker with
  | true => simp [fallsThrough, hmarker]
  | false =>
    have hform := (carries_of_isCanonical hcanonical (isPosition_of_isMarker hmarker)).2
    have hfalls : insn.opcode.fallsThrough := by
      refine Opcode.fallsThrough_of_form ?_ ?_ hret
      · intro heq
        rw [heq] at hform
        exact Bool.false_ne_true (hplain.symm.trans hform)
      · unfold Opcode.isBranch
        generalize insn.opcode.form = form at hform
        cases insn <;> first | (cases htargets; done) | (cases form <;> first | rfl | cases hform)
    simp [fallsThrough, hfalls]

namespace Exec

/-- **An instruction leads to the next one or to one of its targets**, unless it returns. -/
theorem perform_lands (classes : Classes) {insn : Instruction} (hreal : insn.isMarker = false)
    (s : Workplace) :
    Landed s.frame.routine insn s.frame.ip ((perform classes insn).run s) := by
  have hbody : ∀ {x : Exec Progress}, Lands s.frame.routine insn s.frame.ip x →
      Landed s.frame.routine insn s.frame.ip
        ((modifyFrame (fun f => { f with ip := f.ip + 1 }) >>= fun _ => x).run s) :=
    fun hx => hx ⟨{ s.frame with ip := s.frame.ip + 1 }, s.heap, s.statics⟩ rfl rfl
  cases insn with
  | plain op =>
    refine hbody fun p hroutine hip => ?_
    have hp := Stays.plain op p
    -- what the operation did is known by now, so its run can be forgotten
    generalize (Exec.plain op).run p = result at hp
    cases hp with
    | @ok progress q routine ip flows =>
      obtain ⟨rfl, hfalls⟩ | ⟨v, rfl⟩ := flows
      · refine .next (routine.trans hroutine) fun _ _ => .inl ⟨ip.trans hip, ?_⟩
        simp only [Instruction.fallsThrough, Instruction.opcode, hfalls, Bool.or_true]
      · exact .leave
    | error routine ip cause => exact .error (routine.trans hroutine) (ip.trans hip) cause
  | int op operand =>
    exact hbody (.done (Stays.immediate op operand) (Instruction.fallsThrough_of_targets rfl rfl))
  | slot op index =>
    by_cases hop : op = .ret
    · subst hop
      refine hbody (.assoc (.bind (Stays.load index) fun v _ p hroutine hip => ?_))
      cases v with
      | returnAddress k => exact .next hroutine fun _ hret => absurd rfl hret
      | _ => exact .error hroutine hip (by decide)
    · exact hbody (.done (Stays.slotAccess hop index) (Instruction.fallsThrough_of_targets rfl rfl))
  | iinc index amount =>
    exact hbody (.done (Stays.increment index amount)
      (Instruction.fallsThrough_of_targets rfl rfl))
  | ldc c =>
    exact hbody (.done (Stays.pushValue _) (Instruction.fallsThrough_of_targets rfl rfl))
  | type op name =>
    exact hbody (.done (Stays.classAccess classes op name)
      (Instruction.fallsThrough_of_targets rfl rfl))
  | field op owner name descriptor =>
    exact hbody (.done (Stays.fieldAccess op owner name descriptor)
      (Instruction.fallsThrough_of_targets rfl rfl))
  | method op owner name descriptor onInterface =>
    refine hbody (.bind (Stays.methodCall op owner name descriptor) fun c _ p hroutine hip =>
      .call hroutine hip fun hcanonical => ?_)
    refine Instruction.fallsThrough_of_targets rfl rfl hcanonical ?_
    rintro rfl
    exact Bool.false_ne_true (Instruction.carries_of_isCanonical hcanonical rfl).2
  | jump op target =>
    refine hbody (.bind (Stays.jumpTaken op) fun taken htaken => ?_)
    cases taken with
    | true => exact .goToLabel (List.mem_singleton_self _)
    | false =>
      intro p hroutine hip
      refine .next hroutine fun hcanonical _ => .inl ⟨hip, ?_⟩
      have hform := (Instruction.carries_of_isCanonical hcanonical rfl).2
      -- only a jump that has an opcode of a jump can be passed by
      have hjump : op.form = .jump := by
        generalize hop : op.form = form
        rw [Instruction.opcode, hop] at hform
        cases form <;> first | rfl | cases hform
      simp only [Instruction.fallsThrough, Instruction.opcode, htaken rfl hjump, Bool.or_true]
  | tableSwitch low high fallback targets =>
    exact hbody (.bind Stays.popInt fun key _ => .bind (Stays.require _) fun l hl =>
      .goToLabel (tableTarget_mem_targets hl))
  | lookupSwitch fallback keys targets =>
    exact hbody (.bind Stays.popInt fun key _ => .bind (Stays.require _) fun l hl =>
      .goToLabel (lookupTarget_mem_targets hl))
  | multiArray descriptor dims =>
    exact hbody (.done (Stays.multiArray descriptor dims)
      (Instruction.fallsThrough_of_targets rfl rfl))
  | label l => cases hreal
  | line n => cases hreal
  | frame => cases hreal

end Exec

/-! ### Where activations stand -/

/-- A routine is entered at its first instruction. -/
theorem Activation.start_of_enter {r : Routine} {args : List Value} {wanted : Bool} {a : Activation}
    (h : Activation.enter r args wanted = some a) : a.routine = r ∧ a.ip = 0 := by
  unfold Activation.enter at h
  dsimp only at h
  split at h
  · cases h
  · obtain ⟨locals, -, hlocals⟩ := Option.bind_eq_some_iff.1 h
    obtain rfl := Option.some.inj hlocals
    exact ⟨rfl, rfl⟩

namespace Flow

/-- An activation of the routine stands at a reached instruction. -/
def Runs (flow : Flow) (a : Activation) : Prop :=
  a.routine = flow.routine → flow.reachable a.ip

/-- An activation of the routine stands behind a reached operation, of which `Q` holds. -/
def Left (flow : Flow) (Q : Instruction → Prop) (a : Activation) : Prop :=
  a.routine = flow.routine → ∃ k insn, a.ip = k + 1 ∧ flow.reachable k ∧
    flow.routine.code[k]? = some insn ∧ insn.isMarker = false ∧ Q insn

/-- An activation of the routine waits for a call to come back. -/
def Waits (flow : Flow) (a : Activation) : Prop :=
  flow.Left (fun insn => insn.fallsThrough) a

/-- **The activations of a run stand where the analysis has been.** -/
def Sustains (flow : Flow) : List Activation → Prop
  | [] => True
  | a :: rest => flow.Runs a ∧ ∀ b ∈ rest, flow.Waits b

/-- **Control has been followed**: from the first instruction on, and from each instruction that is
reached. -/
structure Complete (flow : Flow) : Prop where
  entry : flow.reachable 0
  onward : ∀ i, flow.reachable i → ∃ insn, flow.routine.code[i]? = some insn ∧
    Pass.Onward flow.routine (fun j => flow.reachable j) i insn

theorem complete_of_analyze {h : Hierarchy} {r : Routine} {flow : Flow} (hr : r.Checked)
    (hsize : 0 < r.size) (hflow : analyze h r = .ok flow) : flow.routine = r ∧ flow.Complete := by
  obtain ⟨hroutine, -, hentry, honward⟩ := analyze_onward hr hflow
  refine ⟨hroutine, hentry hsize, fun i hi => ?_⟩
  obtain ⟨f, hf⟩ := reachable_iff.1 hi
  obtain ⟨insn, -, hinsn, -, ho⟩ := honward i f hf
  rw [hroutine]
  exact ⟨insn, hinsn, ho⟩

variable {flow : Flow} {Q : Instruction → Prop} {a : Activation} {w : World}

/-- An activation that has waited goes on at a reached instruction. -/
theorem Waits.runs (hf : flow.Complete) (ha : flow.Waits a) : flow.Runs a := fun hroutine => by
  obtain ⟨k, insn, hip, hk, hinsn, -, hfalls⟩ := ha hroutine
  obtain ⟨insn', hinsn', ho⟩ := hf.onward k hk
  obtain rfl := Option.some.inj (hinsn.symm.trans hinsn')
  exact hip ▸ ho.next hfalls

/-- The handler for an exception raised behind a reached instruction is reached. -/
theorem Left.reachable_handler (hf : flow.Complete) (ha : flow.Left Q a)
    (hroutine : a.routine = flow.routine) {className : String} {handler : Nat}
    (h : w.handler? a.routine (a.ip - 1) className = some handler) : flow.reachable handler := by
  obtain ⟨k, insn, hip, hk, hinsn, hreal, -⟩ := ha hroutine
  obtain ⟨insn', hinsn', ho⟩ := hf.onward k hk
  obtain rfl := Option.some.inj (hinsn.symm.trans hinsn')
  rw [World.handler?, hip, Nat.add_sub_cancel] at h
  obtain ⟨region, hregion, rfl⟩ := Option.map_eq_some_iff.1 h
  have hcatches := List.find?_some hregion
  rw [Bool.and_eq_true] at hcatches
  exact ho.handler hreal region (hroutine ▸ List.mem_of_find?_eq_some hregion) hcatches.1

/-- **An exception is caught at a reached handler**, however far up it goes. -/
theorem Sustains.of_unwind (hf : flow.Complete) {className : String} {exception : Addr}
    {rest frames : List Activation} (ha : flow.Left Q a)
    (hrest : ∀ b ∈ rest, flow.Waits b)
    (hframes : Run.unwind w className exception (a :: rest) = some frames) :
    flow.Sustains frames := by
  induction rest generalizing a Q with
  | nil =>
    unfold Run.unwind at hframes
    split at hframes
    · next handler hhandler =>
      obtain rfl := Option.some.inj hframes
      exact ⟨fun hroutine => ha.reachable_handler hf hroutine hhandler, hrest⟩
    · cases hframes
  | cons b rest ih =>
    unfold Run.unwind at hframes
    split at hframes
    · next handler hhandler =>
      obtain rfl := Option.some.inj hframes
      exact ⟨fun hroutine => ha.reachable_handler hf hroutine hhandler, hrest⟩
    · exact ih (hrest b List.mem_cons_self)
        (fun c hc => hrest c (List.mem_cons_of_mem _ hc)) hframes

end Flow

/-! ### Steps -/

/-- A run that goes on is sustained, and one that is over has not run off the code. -/
structure Flow.Carries (flow : Flow) (out : Run × Option Ending) : Prop where
  sustains : out.2 = none → flow.Sustains out.1.frames
  ending : ∀ place, out.2 ≠ some (Answer.refuse (.fault place .fellOff))

namespace Run

variable {flow : Flow} {w : World} {s : Run} {a : Activation} {rest : List Activation}

@[simp] theorem tell_frames (o : Observer) (e : Event) (s : Run) :
    (s.tell o e).1.frames = s.frames :=
  rfl

@[simp] theorem tellCall_frames (w : World) (routine : String) (n : Nat) (native : Bool) (s : Run) :
    (s.tellCall w routine n native).1.frames = s.frames := by
  unfold tellCall
  split
  · split <;> rfl
  · rfl

@[simp] theorem tellReturn_frames (w : World) (routine : String) (v : Value) (s : Run) :
    (s.tellReturn w routine v).1.frames = s.frames := by
  unfold tellReturn
  split
  · split <;> rfl
  · rfl

/-- What the observer is given back is the activation, at its place. -/
theorem tellStep_activation (o : Observer) (a : Activation) (op : Opcode) (s : Run) :
    (s.tellStep o a op).2.1.routine = a.routine ∧ (s.tellStep o a op).2.1.ip = a.ip := by
  unfold tellStep
  dsimp only
  split
  · exact ⟨rfl, rfl⟩
  · exact ⟨rfl, rfl⟩
  · split <;> exact ⟨rfl, rfl⟩
  · split <;> exact ⟨rfl, rfl⟩

theorem carries_ends {ending : Ending}
    (h : ∀ place, ending ≠ Answer.refuse (.fault place .fellOff)) :
    flow.Carries (s.ends ending) :=
  ⟨nofun, fun place heq => h place (Option.some.inj heq)⟩

theorem carries_failHere {cause : Cause} (h : cause ≠ .fellOff) :
    flow.Carries (s.failHere cause) := by
  unfold failHere
  split
  · exact carries_ends fun _ => by simp [Answer.refuse]
  · exact carries_ends fun _ heq => h (by simpa [Answer.refuse] using heq : _ ∧ _).2

theorem carries_raise (hf : flow.Complete) {Q : Instruction → Prop} (hframes : s.frames = a :: rest)
    (ha : flow.Left Q a) (hrest : ∀ b ∈ rest, flow.Waits b) (exception : Addr) :
    flow.Carries (s.raise w exception) := by
  unfold raise
  dsimp only
  split
  · next frames hunwind =>
    rw [hframes] at hunwind
    exact ⟨fun _ => .of_unwind hf ha hrest hunwind, nofun⟩
  · exact carries_ends fun _ => by simp [Answer.refuse]

theorem callNative_frames (w : World) (n : Native) (key : String) (args : List Value) (s : Run) :
    (s.callNative w n key args).2 ≠ .started ∧ (s.callNative w n key args).2 ≠ .failed .fellOff ∧
      (s.callNative w n key args).1.frames = s.frames := by
  unfold callNative
  dsimp only
  split
  · next v _ =>
    have htell := ({ s with heap := (n s.heap args).1 } : Run).tellReturn_frames w key v
    split
    · next s' heq => exact ⟨nofun, nofun, (congrArg (·.1.frames) heq).symm.trans htell⟩
    · next s' heq => exact ⟨nofun, nofun, (congrArg (·.1.frames) heq).symm.trans htell⟩
  all_goals exact ⟨nofun, nofun, rfl⟩

/-- A call enters a routine at its first instruction, or leaves the activations as they are. -/
theorem enter_frames (w : World) (c : Call) (s : Run) :
    ((s.enter w c).2 = .started ∧ ∃ a, a.ip = 0 ∧ (s.enter w c).1.frames = a :: s.frames) ∨
      ((s.enter w c).2 ≠ .started ∧ (s.enter w c).2 ≠ .failed .fellOff ∧
        (s.enter w c).1.frames = s.frames) := by
  unfold enter
  dsimp only
  split
  · exact .inr ⟨nofun, nofun, rfl⟩
  split
  · exact .inr ⟨nofun, nofun, rfl⟩
  -- telling the observer does not touch the activations
  have htell (key : String) (native : Bool) := s.tellCall_frames w key c.args.length native
  split
  · next n _ =>
    specialize htell (qualifiedName c.owner c.name c.descriptor) true
    split
    · next s' heq => exact .inr ⟨nofun, nofun, (congrArg (·.1.frames) heq).symm.trans htell⟩
    · next s' heq =>
      obtain ⟨hstarted, hcause, hframes⟩ := callNative_frames w n
        (qualifiedName c.owner c.name c.descriptor) c.args s'
      exact .inr ⟨hstarted, hcause, hframes.trans ((congrArg (·.1.frames) heq).symm.trans htell)⟩
  · next r _ =>
    specialize htell r.key false
    split
    · next s' heq => exact .inr ⟨nofun, nofun, (congrArg (·.1.frames) heq).symm.trans htell⟩
    · next s' heq =>
      have hframes : s'.frames = s.frames := (congrArg (·.1.frames) heq).symm.trans htell
      split
      · exact .inr ⟨nofun, nofun, hframes⟩
      · next a ha => exact .inl ⟨rfl, a, (Activation.start_of_enter ha).2, by rw [hframes]⟩

theorem carries_deliver (hf : flow.Complete) (hframes : s.frames = a :: rest) (ha : flow.Waits a)
    (hrest : ∀ b ∈ rest, flow.Waits b) (v : Value) (wanted : Bool) :
    flow.Carries (s.deliver v wanted).goesOn := by
  refine ⟨fun _ => ?_, nofun⟩
  unfold deliver
  rw [hframes]
  dsimp only
  split
  · exact ⟨(Flow.Waits.runs hf ha :), hrest⟩
  · rw [goesOn, hframes]
    exact ⟨ha.runs hf, hrest⟩

/-- The activations below one that leaves have waited. -/
theorem carries_leave (hf : flow.Complete) (hframes : ∀ b ∈ s.frames, flow.Waits b)
    (v : Value) : flow.Carries (s.leave w a v) := by
  have htell := s.tellReturn_frames w a.routine.key v
  unfold leave
  split
  · exact carries_failHere nofun
  · next s' heq =>
    have hsame : s'.frames = s.frames := (congrArg (·.1.frames) heq).symm.trans htell
    split
    · exact carries_ends fun _ => nofun
    · next b rest hcons =>
      rw [← hsame, hcons] at hframes
      exact carries_deliver hf hcons (hframes b List.mem_cons_self)
        (fun c hc => hframes c (List.mem_cons_of_mem _ hc)) v _

theorem carries_call (hf : flow.Complete) (hframes : s.frames = a :: rest) (ha : flow.Waits a)
    (hrest : ∀ b ∈ rest, flow.Waits b) (c : Call) : flow.Carries (s.call w c) := by
  have henter := enter_frames w c s
  unfold call
  split
  · next s' heq =>
    rw [heq, hframes] at henter
    obtain ⟨-, b, hip, hs'⟩ := henter.resolve_right fun h => h.1 rfl
    refine ⟨fun _ => ?_, nofun⟩
    rw [goesOn, hs']
    exact ⟨fun _ => hip ▸ hf.entry, List.forall_mem_cons.2 ⟨ha, hrest⟩⟩
  · next s' v heq =>
    rw [heq, hframes] at henter
    exact carries_deliver hf (henter.resolve_left nofun).2.2 ha hrest v _
  · next s' exception heq =>
    rw [heq, hframes] at henter
    exact carries_raise hf (henter.resolve_left nofun).2.2 ha hrest exception
  · next s' cause heq =>
    rw [heq] at henter
    exact carries_failHere fun hcause => (henter.resolve_left nofun).2.1 (congrArg _ hcause)
  · exact carries_ends fun _ => nofun

/-- The activation executes a reached instruction. -/
theorem carries_execute (hf : flow.Complete) (hcanonical : flow.routine.Canonical)
    (hplain : flow.routine.Subroutineless) {insn : Instruction}
    (hinsn : a.routine.code[a.ip]? = some insn) (hreal : insn.isMarker = false)
    (ha : flow.Runs a) (hrest : ∀ b ∈ rest, flow.Waits b) :
    flow.Carries (s.execute w insn a rest) := by
  have hlands := Exec.perform_lands w.classes hreal ⟨a, s.heap, s.statics⟩
  dsimp only at hlands
  unfold execute
  dsimp only
  generalize (Exec.perform w.classes insn).run ⟨a, s.heap, s.statics⟩ = result at hlands
  -- An activation that stands behind this instruction has left it.
  have hleft {p : Workplace} {Q : Instruction → Prop} (hroutine : p.frame.routine = a.routine)
      (hip : p.frame.ip = a.ip + 1) (hQ : a.routine = flow.routine → Q insn) :
      flow.Left Q p.frame := fun hp =>
    have hr := hroutine.symm.trans hp
    ⟨a.ip, insn, hip, ha hr, hr ▸ hinsn, hreal, hQ hr⟩
  have hknown (hr : a.routine = flow.routine) : insn.isCanonical ∧ insn.opcode ≠ .ret :=
    have hmem : insn ∈ flow.routine.code := hr ▸ Array.mem_of_getElem? hinsn
    ⟨hcanonical insn hmem, (hplain insn hmem).2⟩
  cases hlands with
  | @next p routine ip =>
    refine ⟨fun _ => ⟨fun hp => ?_, hrest⟩, nofun⟩
    have hr := routine.symm.trans hp
    obtain ⟨insn', hinsn', ho⟩ := hf.onward a.ip (ha hr)
    obtain rfl := Option.some.inj ((hr ▸ hinsn').symm.trans hinsn)
    obtain ⟨hip, hfalls⟩ | htarget := ip (hknown hr).1 (hknown hr).2
    · exact hip ▸ ho.next hfalls
    · exact ho.target _ (hr ▸ htarget)
  | leave => exact carries_leave hf hrest _
  | call routine ip falls =>
    exact carries_call hf rfl (hleft routine ip fun hr => falls (hknown hr).1) hrest _
  | @error halt p routine ip cause =>
    dsimp only
    cases halt with
    | raised exception =>
      exact carries_raise hf rfl (hleft (Q := fun _ => True) routine ip fun _ => trivial) hrest _
    | failed c => exact carries_failHere fun hc => cause (congrArg _ hc)
    | underflow => exact carries_ends fun _ => by simp [Answer.refuse]
    | breakdown => exact carries_ends fun _ => nofun

/-- **What one step preserves.** Only an activation that stands behind its code runs off it. -/
theorem carries_step (hf : flow.Complete) (hcanonical : flow.routine.Canonical)
    (hplain : flow.routine.Subroutineless) (hframes : s.frames = a :: rest)
    (hs : flow.Sustains s.frames) : flow.Carries (s.step w) ∨ (a.routine.code[a.ip]? = none ∧
      s.step w = s.ends (Answer.refuse (.fault ⟨a.routine.key, a.ip, .marker⟩ .fellOff))) := by
  obtain ⟨ha, hrest⟩ : flow.Runs a ∧ ∀ b ∈ rest, flow.Waits b := by rwa [hframes] at hs
  -- A marker is passed over.
  have hpass (b : Activation) (insn : Instruction) (hinsn : a.routine.code[a.ip]? = some insn)
      (hmarker : insn.isMarker) (hroutine : b.routine = a.routine) (hip : b.ip = a.ip + 1) :
      flow.Carries { s with frames := b :: rest }.goesOn := by
    refine ⟨fun _ => ⟨fun hb => ?_, hrest⟩, nofun⟩
    have hr := hroutine.symm.trans hb
    obtain ⟨insn', hinsn', ho⟩ := hf.onward a.ip (ha hr)
    obtain rfl := Option.some.inj ((hr ▸ hinsn').symm.trans hinsn)
    exact hip ▸ ho.next (by simp [Instruction.fallsThrough, hmarker])
  unfold step
  rw [hframes]
  dsimp only
  split
  · next hnone => exact .inr ⟨hnone, rfl⟩
  · next n hinsn => exact .inl (hpass _ _ hinsn rfl rfl rfl)
  · next insn hline hinsn =>
    refine .inl ?_
    split
    · next hmarker => exact hpass _ insn hinsn hmarker rfl rfl
    · next hreal =>
      unfold advance
      dsimp only
      split
      · exact carries_ends fun _ => by simp [Answer.refuse]
      split
      · exact carries_execute hf hcanonical hplain hinsn (Bool.eq_false_iff.2 hreal) ha hrest
      · next s' _ _ o _ =>
        obtain ⟨hroutine, hip⟩ := tellStep_activation o a insn.opcode s'
        split
        · exact carries_ends fun _ => by simp [Answer.refuse]
        · next s'' b heq =>
          rw [heq] at hroutine hip
          dsimp only at hroutine hip
          exact carries_execute hf hcanonical hplain (by rw [hroutine, hip, hinsn])
            (Bool.eq_false_iff.2 hreal) (fun hb => hip ▸ ha (hroutine.symm.trans hb)) hrest

/-- **What a whole run preserves.** -/
theorem sustains_run (hf : flow.Complete) (hcanonical : flow.routine.Canonical)
    (hplain : flow.routine.Subroutineless) {n : Nat} {s' : Run} (hs : flow.Sustains s.frames)
    (hrun : s.run w n = (s', none)) : flow.Sustains s'.frames := by
  induction n generalizing s with
  | zero => cases hrun; exact hs
  | succ n ih =>
    rw [run] at hrun
    split at hrun
    · next p hstep =>
      refine ih ?_ hrun
      cases hframes : s.frames with
      | nil => rw [step, hframes] at hstep; cases hstep
      | cons a rest =>
        obtain hcarries | ⟨-, hends⟩ := carries_step (w := w) hf hcanonical hplain hframes hs
        · rw [hstep] at hcarries
          exact hcarries.sustains rfl
        · rw [hstep] at hends
          cases hends
    · cases hrun

/-- A run that is over has ended in a step. -/
theorem exists_step_of_run {n : Nat} {s' : Run} {ending : Ending}
    (hrun : s.run w n = (s', some ending)) :
    ∃ k p, s.run w k = (p, none) ∧ p.step w = (s', some ending) := by
  induction n generalizing s with
  | zero => cases hrun
  | succ n ih =>
    rw [run] at hrun
    split at hrun
    · next p hstep =>
      obtain ⟨k, q, hk, hq⟩ := ih hrun
      exact ⟨k + 1, q, by rw [run, hstep]; exact hk, hq⟩
    · next p e hstep => exact ⟨0, s, rfl, hstep.trans hrun⟩

end Run

/-! ### Calls from outside -/

namespace Machine

/-- The call a machine makes when it is called from outside with arguments that have been
prepared. -/
def outerCall (owner name descriptor : String) (values : List Value) : Call where
  owner := owner
  name := name
  descriptor := descriptor
  args := values
  dispatched := false
  wantsResult := true

/-- The state in which a machine is called from outside. -/
def idle (m : Machine) : Run where
  heap := m.heap
  statics := m.statics
  frames := []
  eventCount := m.eventCount

/-- **A call from outside comes to a state**, after some number of steps. -/
def Attains (m : Machine) (owner name descriptor : String) (args : List Value) (s : Run) : Prop :=
  ∃ values start n, m.prepare owner name descriptor args = .ok values ∧
    begin m.world (outerCall owner name descriptor values) m.idle = (start, none) ∧
    start.run m.world n = (s, none)

variable {flow : Flow} {m : Machine} {owner name descriptor : String} {args : List Value} {c : Call}

/-- A call from outside starts with the first instruction of a routine, or is over at once. -/
theorem carries_begin (hf : flow.Complete) : flow.Carries (begin m.world c m.idle) := by
  have henter := Run.enter_frames m.world c m.idle
  unfold begin
  split
  · next s heq =>
    rw [heq] at henter
    obtain ⟨-, a, hip, hs⟩ := henter.resolve_right fun h => h.1 rfl
    refine ⟨fun _ => ?_, nofun⟩
    rw [hs]
    exact ⟨fun _ => hip ▸ hf.entry, by simp [idle]⟩
  · exact Run.carries_ends fun _ => nofun
  · next s exception heq =>
    rw [heq] at henter
    have hs : s.frames = [] := (henter.resolve_left nofun).2.2
    unfold Run.raise
    rw [hs]
    exact Run.carries_ends fun _ => by simp [Answer.refuse]
  · next s cause heq =>
    rw [heq] at henter
    exact Run.carries_failHere fun hcause => (henter.resolve_left nofun).2.1 (congrArg _ hcause)
  · exact Run.carries_ends fun _ => nofun

/-- The activations of every state a call comes to are sustained. -/
theorem Attains.sustains (hf : flow.Complete) (hcanonical : flow.routine.Canonical)
    (hplain : flow.routine.Subroutineless) {s : Run} (hs : m.Attains owner name descriptor args s) :
    flow.Sustains s.frames := by
  obtain ⟨values, start, n, -, hbegin, hrun⟩ := hs
  have hstart := (carries_begin (m := m) (c := outerCall owner name descriptor values) hf).sustains
  rw [hbegin] at hstart
  exact Run.sustains_run hf hcanonical hplain (hstart rfl) hrun

/-- A call that ends running off the code has come to a state whose next step does so. -/
theorem exists_attains_of_invoke (hf : flow.Complete) {fuel : Nat} {place : Location}
    (h : (m.invoke fuel owner name descriptor args).2.2 =
      some (Answer.refuse (.fault place .fellOff))) :
    ∃ s, m.Attains owner name descriptor args s ∧
      (s.step m.world).2 = some (Answer.refuse (.fault place .fellOff)) := by
  unfold invoke at h
  split at h
  · simp [Answer.refuse] at h
  next values hvalues =>
  have hbegin :=
    (carries_begin (m := m) (c := outerCall owner name descriptor values) hf).ending place
  dsimp only at h
  split at h
  · next s ending heq =>
    rw [outerCall, idle, heq] at hbegin
    exact absurd h hbegin
  · next start heq =>
    generalize hrun : start.run m.world fuel = out at h
    obtain ⟨s', ending⟩ := out
    obtain rfl : ending = _ := h
    obtain ⟨k, s, hs, hstep⟩ := Run.exists_step_of_run hrun
    exact ⟨s, ⟨values, start, k, hvalues, heq, hs⟩, congrArg Prod.snd hstep⟩

/-- **The machine executes only code the analysis has reached.** Whatever else the machine holds,
whatever is called with whatever arguments, and whatever exceptions are raised and caught on the
way: when an activation of an analyzed routine has its turn, it stands at a reached instruction. No
call ends because such an activation runs off its code; if one ends that way, it is the activation
of another routine that does. -/
theorem attains_reachable {h : Hierarchy} {r : Routine} (hr : r.Made) (hcanonical : r.Canonical)
    (hplain : r.Subroutineless) (hsize : 0 < r.size) (hflow : Flow.analyze h r = .ok flow)
    (m : Machine) (owner name descriptor : String) (args : List Value) :
    (∀ s a rest, m.Attains owner name descriptor args s → s.frames = a :: rest → a.routine = r →
      a.ip < r.size ∧ flow.reachable a.ip) ∧
    ∀ fuel place, (m.invoke fuel owner name descriptor args).2.2 =
        some (Answer.refuse (.fault place .fellOff)) →
      ∃ s a rest, m.Attains owner name descriptor args s ∧ s.frames = a :: rest ∧ a.routine ≠ r ∧
        place = ⟨a.routine.key, a.ip, .marker⟩ := by
  obtain ⟨rfl, hf⟩ := Flow.complete_of_analyze hr.checked hsize hflow
  have hreached (s : Run) (a : Activation) (rest : List Activation)
      (hs : m.Attains owner name descriptor args s) (hframes : s.frames = a :: rest)
      (ha : a.routine = flow.routine) : a.ip < flow.routine.size ∧ flow.reachable a.ip := by
    have hsustains := hs.sustains hf hcanonical hplain
    rw [hframes] at hsustains
    have hip := hsustains.1 ha
    obtain ⟨insn, hinsn, -⟩ := hf.onward a.ip hip
    exact ⟨(Array.getElem?_eq_some_iff.1 hinsn).1, hip⟩
  refine ⟨hreached, fun fuel place hfell => ?_⟩
  obtain ⟨s, hs, hstep⟩ := exists_attains_of_invoke hf hfell
  -- the activation that ran off its code was on top before the last step
  cases hframes : s.frames with
  | nil =>
    rw [Run.step, hframes] at hstep
    cases hstep
  | cons a rest =>
    obtain hcarries | ⟨hnone, hends⟩ := Run.carries_step (w := m.world) hf hcanonical hplain hframes
      (hs.sustains hf hcanonical hplain)
    · exact absurd hstep (hcarries.ending place)
    · refine ⟨s, a, rest, hs, hframes, fun ha => ?_, ?_⟩
      · have hlt := (hreached s a rest hs hframes ha).1
        rw [ha] at hnone
        exact absurd hlt (Nat.not_lt.2 (Array.getElem?_eq_none_iff.1 hnone))
      · rw [hends] at hstep
        exact (by simpa [Answer.refuse, Run.ends] using hstep : _ = _).symm

/-- A call of `Flow.countdown`, whose loop is protected, stands at reached instructions for as long
as it goes on. -/
theorem attains_reachable_countdown :
    ∃ r flow, Routine.make Flow.countdown = .ok r ∧ r.Canonical ∧ r.Subroutineless ∧
      Flow.analyze .flat r = .ok flow ∧
      (∀ s a rest, (Machine.define {} r).Attains "Loop" "run" "(I)V" [.int 2] s →
        s.frames = a :: rest → a.routine = r → a.ip < r.size ∧ flow.reachable a.ip) ∧
      ∀ fuel place, ((Machine.define {} r).invoke fuel "Loop" "run" "(I)V" [.int 2]).2.2 =
          some (Answer.refuse (.fault place .fellOff)) →
        ∃ s a rest, (Machine.define {} r).Attains "Loop" "run" "(I)V" [.int 2] s ∧
          s.frames = a :: rest ∧ a.routine ≠ r ∧ place = ⟨a.routine.key, a.ip, .marker⟩ := by
  have hrun : (Routine.make Flow.countdown).toOption.any fun r => decide (0 < r.size) &&
      (r.code.all fun insn => insn.isCanonical && decide (insn.opcode.isSubroutineCall = false ∧
        insn.opcode ≠ .ret)) && (Flow.analyze .flat r).toOption.any fun _ => true := by
    decide +kernel
  obtain ⟨r, hr, hrun⟩ := exists_ok_of_any hrun
  rw [Bool.and_eq_true, Bool.and_eq_true, decide_eq_true_iff, Array.all_eq_true'] at hrun
  obtain ⟨⟨hsize, hcode⟩, hrun⟩ := hrun
  obtain ⟨flow, hflow, -⟩ := exists_ok_of_any hrun
  have hcanonical : r.Canonical := fun insn hmem => (Bool.and_eq_true_iff.1 (hcode insn hmem)).1
  have hplain : r.Subroutineless := fun insn hmem =>
    of_decide_eq_true (Bool.and_eq_true_iff.1 (hcode insn hmem)).2
  exact ⟨r, flow, hr, hcanonical, hplain, hflow,
    attains_reachable ⟨_, hr⟩ hcanonical hplain hsize hflow _ _ _ _ _⟩

end Machine

end Outliner
