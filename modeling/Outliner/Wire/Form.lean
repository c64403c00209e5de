import Outliner.Routine
import Outliner.Draft

/-!
# The wire form of a routine

The flat records in which a routine is stored. Labels are referred to by number, counting the places
at which they stand. `Wire.ofRoutine` writes the records and `Wire.toRoutine` reads them back,
checking everything on the way.
-/

namespace Outliner.Wire

/-- The wire form of one instruction. Only the fields of its operand form are set. -/
structure InsnForm where
  op : Int := 0
  /-- Which marker it is, empty for operations. -/
  marker : String := ""
  int : Int := 0
  slot : Int := 0
  owner : String := ""
  name : String := ""
  descriptor : String := ""
  onInterface : Bool := false
  /-- Which kind of constant it pushes. -/
  constant : String := ""
  bits : UInt64 := 0
  label : Int := 0
  labels : List Int := []
  keys : List Int32 := []
  deriving DecidableEq, Repr, Inhabited

/-- The wire form of a protected block. -/
structure BlockForm where
  start : Int := 0
  stop : Int := 0
  handler : Int := 0
  type : String := ""
  deriving DecidableEq, Repr, Inhabited

/-- The wire form of a routine. -/
structure RoutineForm where
  version : Int := 0
  owner : String := ""
  name : String := ""
  descriptor : String := ""
  access : UInt16 := 0
  maxLocals : Int := 0
  maxStack : Int := 0
  insns : List InsnForm := []
  blocks : List BlockForm := []
  deriving DecidableEq, Repr, Inhabited

/-- The version of the form that is written and read. -/
def version : Int := 1

/-- What is wrong with the wire form of an instruction. -/
inductive InsnFault where
  | unknownMarker (name : String)
  | unknownOpcode (code : Int)
  | badLabel (number : Int)
  | switchSizes (keys labels : Nat)
  | unknownConstant (kind : String)
  | descriptor (e : DescriptorError)
  | unsupportedConstant
  deriving DecidableEq, Repr

namespace InsnFault

/-- The wording of a fault. -/
def message : InsnFault → String
  | unknownMarker name => "unknown pseudo-instruction " ++ Text.quote name
  | unknownOpcode code => "unknown opcode " ++ toString code
  | badLabel number => "label " ++ toString number ++ " out of range"
  | switchSizes keys labels =>
    "lookupswitch has " ++ toString keys ++ " keys and " ++ toString labels ++ " labels"
  | unknownConstant kind => "unknown constant kind " ++ Text.quote kind
  | descriptor e => e.message
  | unsupportedConstant => "unsupported constant <nil>"

end InsnFault

/-- Why a routine cannot be written or read. -/
inductive WireError where
  /-- The bytes hold no record of a routine. -/
  | unreadable
  | version (found : Int)
  | instruction (key : String) (offset : Nat) (fault : InsnFault)
  | block (index : Nat) (label : Int)
  | routine (e : RoutineError)
  deriving Repr

namespace WireError

/-- The wording of a refusal. -/
def message : WireError → String
  | unreadable => "codec: unmarshal routine"
  | version found => "codec: unsupported version " ++ toString found
  | instruction key offset fault =>
    "codec: " ++ key ++ " at " ++ toString offset ++ ": " ++ fault.message
  | block index label =>
    "codec: try/catch block " ++ toString index ++ ": " ++ (InsnFault.badLabel label).message
  | routine e => "codec: " ++ e.message

end WireError

/-! ### Writing -/

/-- The number of each placed label, by identity. -/
def numberLabels (code : List Instruction) : LabelTable :=
  (code.filterMap Instruction.placed?).foldl (fun table l => table.insert l.id table.size) ∅

/-- The number of a label. -/
def labelNumber (numbers : LabelTable) (l : Label) : Int :=
  ((numbers.get? l.id).getD 0 : Nat)

/-- The wire form of a constant, put into that of its instruction. -/
def constantForm (form : InsnForm) : Constant → Except InsnFault InsnForm
  | .int n => .ok { form with constant := "I", int := n.toInt }
  | .long n => .ok { form with constant := "J", int := n.toInt }
  | .float bits => .ok { form with constant := "F", bits := bits.toUInt64 }
  | .double bits => .ok { form with constant := "D", bits := bits }
  | .string s => .ok { form with constant := "S", descriptor := s }
  | .class t => .ok { form with constant := "C", descriptor := t.descriptor }
  | .missing => .error .unsupportedConstant

/-- The wire form of an instruction. -/
def insnForm (numbers : LabelTable) (insn : Instruction) : Except InsnFault InsnForm :=
  let form : InsnForm := { op := insn.opcode.code }
  let number := labelNumber numbers
  match insn with
  | .label l => .ok { form with marker := "label", name := l.name }
  | .line n => .ok { form with marker := "line", int := n }
  | .frame => .ok { form with marker := "frame" }
  | .plain _ => .ok form
  | .int _ operand => .ok { form with int := operand.toInt }
  | .slot _ index => .ok { form with slot := index }
  | .iinc index amount => .ok { form with slot := index, int := amount.toInt }
  | .type _ name => .ok { form with descriptor := name }
  | .field _ owner name descriptor =>
    .ok { form with owner := owner, name := name, descriptor := descriptor }
  | .method _ owner name descriptor onInterface =>
    .ok { form with
      owner := owner, name := name, descriptor := descriptor, onInterface := onInterface }
  | .ldc c => constantForm form c
  | .jump _ target => .ok { form with label := number target }
  | .tableSwitch low _ fallback targets =>
    .ok { form with int := low.toInt, label := number fallback, labels := targets.map number }
  | .lookupSwitch fallback keys targets =>
    .ok { form with label := number fallback, keys := keys, labels := targets.map number }
  | .multiArray descriptor dims => .ok { form with descriptor := descriptor, int := dims }

/-- The wire forms of instructions from an offset on, in order after those given. -/
def insnForms (key : String) (numbers : LabelTable) :
    (offset : Nat) → List Instruction → List InsnForm → Except WireError (List InsnForm)
  | _, [], forms => .ok forms.reverse
  | offset, insn :: rest, forms =>
    match insnForm numbers insn with
    | .ok form => insnForms key numbers (offset + 1) rest (form :: forms)
    | .error fault => .error (.instruction key offset fault)

/-- **The wire form of a routine.** -/
def ofRoutine (r : Routine) : Except WireError RoutineForm := do
  let numbers := numberLabels r.code.toList
  let number := labelNumber numbers
  let insns ← insnForms r.key numbers 0 r.code.toList []
  return {
    version := version
    owner := r.owner
    name := r.name
    descriptor := r.descriptor
    access := r.access.bits
    maxLocals := r.maxLocals
    maxStack := r.maxStack
    insns := insns
    blocks := r.blocks.map fun b =>
      ⟨number b.start, number b.stop, number b.handler, b.type⟩ }

/-! ### Reading -/

/-- The labels of a form, in the order in which they stand. -/
def placedLabels (insns : List InsnForm) : Array Label :=
  let names := (insns.filter (·.marker = "label")).map InsnForm.name
  (names.zipIdx.map fun p => (⟨p.2, p.1⟩ : Label)).toArray

/-- The label with a number. -/
def labelAt (labels : Array Label) (number : Int) : Except InsnFault Label :=
  match (if number < 0 then none else labels[number.toNat]?) with
  | some l => .ok l
  | none => .error (.badLabel number)

/-- The constant of a form. -/
def constantOf (form : InsnForm) : Except InsnFault Constant :=
  match form.constant with
  | "I" => .ok (.int (Int32.ofInt form.int))
  | "J" => .ok (.long (Int64.ofInt form.int))
  | "F" => .ok (.float form.bits.toUInt32)
  | "D" => .ok (.double form.bits)
  | "S" => .ok (.string form.descriptor)
  | "C" =>
    match JType.parse form.descriptor with
    | .ok t => .ok (.class t)
    | .error e => .error (.descriptor e)
  | kind => .error (.unknownConstant kind)

/-- The operation of a form. -/
def operationOf (labels : Array Label) (form : InsnForm) : Except InsnFault Instruction := do
  let op := Opcode.ofCode form.op
  if op.mnemonic?.isNone then .error (.unknownOpcode form.op)
  else match op.form with
    | .plain => return .plain op
    | .int => return .int op (Int32.ofInt form.int)
    | .slot => return .slot op form.slot
    | .iinc => return .iinc form.slot (Int32.ofInt form.int)
    | .type => return .type op form.descriptor
    | .field => return .field op form.owner form.name form.descriptor
    | .method | .callSite =>
      return .method op form.owner form.name form.descriptor form.onInterface
    | .ldc => return .ldc (← constantOf form)
    | .jump => return .jump op (← labelAt labels form.label)
    | .tableSwitch =>
      let fallback ← labelAt labels form.label
      let targets ← form.labels.mapM (labelAt labels)
      let low := Int32.ofInt form.int
      return .tableSwitch low (low + Int32.ofNat targets.length - 1) fallback targets
    | .lookupSwitch =>
      let fallback ← labelAt labels form.label
      let targets ← form.labels.mapM (labelAt labels)
      if targets.length ≠ form.keys.length then
        .error (.switchSizes form.keys.length targets.length)
      else return .lookupSwitch fallback form.keys targets
    | .multiArray => return .multiArray form.descriptor form.int

/-- The instruction of a form, when the given number of labels stand before it; and the number after
it. -/
def instructionOf (labels : Array Label) (placed : Nat) (form : InsnForm) :
    Except InsnFault (Instruction × Nat) :=
  match form.marker with
  | "label" =>
    match labels[placed]? with
    | some l => .ok (.label l, placed + 1)
    | none => .error (.badLabel placed)
  | "line" => .ok (.line form.int, placed)
  | "frame" => .ok (.frame, placed)
  | "" => (operationOf labels form).map fun insn => (insn, placed)
  | name => .error (.unknownMarker name)

/-- The instructions of forms from an offset on, in order after those given. -/
def instructionsOf (key : String) (labels : Array Label) :
    (offset placed : Nat) → List InsnForm → Array (Option Instruction) →
    Except WireError (Array (Option Instruction))
  | _, _, [], code => .ok code
  | offset, placed, form :: rest, code =>
    match instructionOf labels placed form with
    | .ok (insn, placed) =>
      instructionsOf key labels (offset + 1) placed rest (code.push (some insn))
    | .error fault => .error (.instruction key offset fault)

/-- The protected block of a form. -/
def blockOf (labels : Array Label) (index : Nat) (form : BlockForm) : Except WireError TryCatch :=
  let label (number : Int) : Except WireError Label :=
    match labelAt labels number with
    | .ok l => .ok l
    | .error _ => .error (.block index number)
  do return ⟨← label form.start, ← label form.stop, ← label form.handler, form.type⟩

/-- **The routine of a form.** -/
def toRoutine (form : RoutineForm) : Except WireError Routine := do
  if form.version ≠ version then .error (.version form.version)
  else
    let labels := placedLabels form.insns
    let code ← instructionsOf (qualifiedName form.owner form.name form.descriptor) labels 0 0
      form.insns #[]
    let blocks ← form.blocks.zipIdx.mapM fun p => blockOf labels p.2 p.1
    match Routine.make {
      owner := form.owner
      name := form.name
      descriptor := form.descriptor
      access := ⟨form.access⟩
      code := code
      blocks := blocks
      maxLocals := form.maxLocals
      maxStack := form.maxStack } with
    | .ok r => return r
    | .error e => .error (.routine e)

end Outliner.Wire
