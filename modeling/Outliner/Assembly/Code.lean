import Outliner.Assembly.Emit
import Outliner.Flow
import Outliner.Text.Collected

/-!
# Assembly

`assemble` turns a routine into the code of a method: operands are bound to a constant pool, the
limits of stack and slots are computed from the flow of the routine, the code is laid out and
emitted, and the protected regions become a table of byte ranges.

Problems of single instructions are reported together. The pool given is extended even when assembly
fails.
-/

namespace Outliner

/-- One row of the exception table, in byte positions. The catch type is an index into the pool, 0
for a handler that takes everything. -/
structure Guarded where
  start : Nat
  stop : Nat
  handler : Nat
  catchType : Nat
  deriving DecidableEq, Repr, Inhabited

/-- The deepest operand stack and the number of slots a routine needs. -/
structure Limits where
  maxStack : Int
  maxLocals : Int
  deriving DecidableEq, Repr, Inhabited

/-- An assembled routine. `positions` has the byte position of each instruction. -/
structure MethodCode where
  owner : String
  name : String
  descriptor : String
  access : Access
  code : Array UInt8
  limits : Limits
  guarded : List Guarded
  positions : Array Nat
  deriving Inhabited

/-- One of the problems that are reported together. -/
inductive AssemblyFault where
  | instruction (offset : Nat) (fault : OperandFault)
  | limits (e : FlowError)
  deriving Repr

namespace AssemblyFault

/-- The wording of a problem. -/
def message : AssemblyFault → String
  | instruction offset fault => "instruction " ++ toString offset ++ ": " ++ fault.message
  | limits e => "computing limits: " ++ e.message

end AssemblyFault

/-- Why a routine cannot be assembled. -/
inductive AssemblyError where
  | faults (key : String) (all : List AssemblyFault)
  | tooLarge (key : String) (size : Nat)
  | pool (key : String) (e : PoolError)
  deriving Repr

namespace AssemblyError

/-- The wording of a refusal. -/
def message : AssemblyError → String
  | faults key all =>
    "assembling " ++ key ++ ": " ++ Text.collected (all.map AssemblyFault.message)
  | tooLarge key size => key ++ ": " ++ toString size ++ " bytes of code: method too large"
  | pool key e => "assembling " ++ key ++ ": " ++ e.message

end AssemblyError

namespace Assembly

/-- What binding the operands of a routine gives: the indexes, the faults and the pool. -/
structure Binding where
  indexes : Array Nat := #[]
  faults : Array AssemblyFault := #[]
  pool : Pool

/-- Binds the operand of the next instruction. -/
def Binding.next (b : Binding) (insn : Instruction) : Binding :=
  let offset := b.indexes.size
  match insn.bindOperand b.pool with
  | (.ok index, pool) => ⟨b.indexes.push index, b.faults, pool⟩
  | (.error fault, pool) =>
    ⟨b.indexes.push 0, b.faults.push (.instruction offset fault), pool⟩

/-- Binds all operands of a routine. -/
def bindAll (p : Pool) (r : Routine) : Binding :=
  r.code.foldl Binding.next { pool := p }

/-- What an instruction adds to the limits when it is reached with a frame. -/
def limitsWith (limits : Limits) (f : Frame) (e : Effect) : Limits :=
  let after : Int := f.depth - e.pops + e.pushes
  { maxStack := max (max limits.maxStack after) f.depth
    maxLocals := (e.reads ++ e.writes).foldl (fun n a => max n (a.slot + a.size)) limits.maxLocals }

/-- The limits of a routine: the deepest stack before or after any instruction, and the slots it
declares or touches. -/
def limitsOf (r : Routine) : Answer FlowError Limits := do
  let flow ← Flow.analyze Hierarchy.flat r
  return flow.frames.toList.zipIdx.foldl (fun limits (frame?, offset) =>
    match frame? with
    | some f => limitsWith limits f (flow.effect offset)
    | none => limits) ⟨0, r.maxLocals⟩

/-- Emits the instructions from an offset on, collecting bytes and faults after those given. -/
def emitFrom (b : Bound) (l : Layout) :
    (offset : Nat) → List Instruction → Array UInt8 → Array AssemblyFault →
    Answer AssemblyError (Array UInt8 × Array AssemblyFault)
  | _, [], code, faults => .ok (code, faults)
  | offset, insn :: rest, code, faults =>
    match b.emit l offset insn with
    | .ok bytes => emitFrom b l (offset + 1) rest (bytes.foldl Array.push code) faults
    | .error (.refused fault) =>
      emitFrom b l (offset + 1) rest code (faults.push (.instruction offset fault))
    | .error .breakdown => Answer.breakdown

/-- The rows of the exception table. Regions without code have none. -/
def guard (l : Layout) : List Region → Pooling (List Guarded)
  | [] => return []
  | region :: rest => do
    let start := l.position region.start
    let stop := l.position region.stop
    if start = stop then guard l rest
    else
      let catchType ← if region.type = "" then pure 0 else Pooling.classNamed region.type
      return ⟨start, stop, l.position region.handler, catchType⟩ :: (← guard l rest)

/-- The code of a routine whose operands are bound, and its layout. -/
def emitAll (b : Bound) : Answer AssemblyError (Layout × Array UInt8) := do
  let r := b.routine
  let l := b.layout
  if l.size r > maxCodeSize then Answer.refuse (.tooLarge r.key (l.size r))
  else
    let (code, faults) ← emitFrom b l 0 r.code.toList #[] #[]
    if faults.isEmpty then return (l, code)
    else Answer.refuse (.faults r.key faults.toList)

/-- **Assembles a routine** with the constants of a pool; gives the pool afterwards too. -/
def assemble (p : Pool) (r : Routine) : Answer AssemblyError MethodCode × Pool :=
  let binding := bindAll p r
  let finish (limits : Limits) : Answer AssemblyError MethodCode × Pool :=
    match emitAll ⟨r, binding.indexes⟩ with
    | .error stop => (.error stop, binding.pool)
    | .ok (l, code) =>
      match guard l r.regions binding.pool with
      | (.error e, pool) => (Answer.refuse (.pool r.key e), pool)
      | (.ok guarded, pool) =>
        (.ok {
          owner := r.owner
          name := r.name
          descriptor := r.descriptor
          access := r.access
          code := code
          limits := limits
          guarded := guarded
          positions := l.positions.pop }, pool)
  match limitsOf r with
  | .error .breakdown => (Answer.breakdown, binding.pool)
  | .error (.refused e) =>
    (Answer.refuse (.faults r.key (binding.faults.push (.limits e)).toList), binding.pool)
  | .ok limits =>
    if binding.faults.isEmpty then finish limits
    else (Answer.refuse (.faults r.key binding.faults.toList), binding.pool)

end Assembly

end Outliner
