import Outliner.Machine.Activation
import Outliner.Machine.Classes
import Outliner.Machine.Numeric
import Outliner.Tracker

/-!
# Instructions at work

`perform` executes one instruction of an activation. It ends in one of three ways: control goes on
in the same activation, the routine returns, or a method is called.

The form of an instruction decides how its operands are found; a form that does not know its opcode
either ignores it or fails, and operands of an unexpected type are a breakdown.
-/

namespace Outliner

/-- A call of a method. -/
structure Call where
  owner : String
  name : String
  descriptor : String
  /-- The arguments, the receiver first. -/
  args : List Value
  /-- Whether the method is looked up from the class of the receiver. -/
  dispatched : Bool
  /-- Whether the caller goes on with the result on its stack. -/
  wantsResult : Bool
  deriving Repr

/-- How an instruction ends. -/
inductive Progress where
  | next
  | leave (v : Value)
  | call (c : Call)

namespace Exec

/-- Raise the exception for a null reference. -/
def nullPointer {α : Type} (message : String) : Exec α :=
  raise "java/lang/NullPointerException" message

/-- Raise the exception for a negative array length. -/
def negativeSize {α : Type} (n : Int32) : Exec α :=
  raise "java/lang/NegativeArraySizeException" (toString n.toInt)

/-- Raise the exception for a division by zero. -/
def byZero {α : Type} : Exec α :=
  raise "java/lang/ArithmeticException" "/ by zero"

/-- The result of a division, if it has one. -/
def divided {α : Type} : Option α → Exec α
  | some a => pure a
  | none => byZero

/-- An element of an array. -/
structure Element where
  addr : Addr
  index : Nat
  /-- The type of the array. -/
  type : JType

/-- The element of an array at an index. -/
def elementOf (v : Value) (index : Int32) : Exec Element := do
  match v with
  | .null => nullPointer "cannot access an element of a null array"
  | .ref addr =>
    match (← get).heap.get? addr with
    | some (.array type elements) =>
      if index < 0 || (elements.size : Int) ≤ index.toInt then
        raise "java/lang/ArrayIndexOutOfBoundsException"
          ("Index " ++ toString index.toInt ++ " out of bounds for length " ++
            toString elements.size)
      else return ⟨addr, index.toInt.toNat, type⟩
    | _ => breakdown
  | _ => breakdown

/-- Push an element of an array. -/
def loadElement : Exec Unit := do
  let index ← popInt
  let element ← elementOf (← pop) index
  pushValue (← require ((← get).heap.element? element.addr element.index))

/-- Narrow an integer to the elements of an array. -/
def narrowed (type : JType) : Value → Value
  | .int n =>
    match type.elementType with
    | .prim p => .int (Numeric.narrow p n)
    | _ => .int n
  | v => v

/-- Store into an element of an array. -/
def storeElement : Exec Unit := do
  let v ← popValue
  let index ← popInt
  let element ← elementOf (← pop) index
  modify fun s =>
    { s with heap := s.heap.storeElement element.addr element.index (narrowed element.type v) }

/-- Arithmetic on two operands. -/
def arith (op : ArithOp) (kind : NumKind) : Exec Unit := do
  match kind with
  | .int =>
    let b ← popInt
    let a ← popInt
    pushInt (← divided (Numeric.intArith op a b))
  | .long =>
    let b ← popLong
    let a ← popLong
    pushLong (← divided (Numeric.longArith op a b))
  | .float =>
    let b ← popFloat
    let a ← popFloat
    pushFloat (Numeric.floatArith op a b)
  | .double =>
    let b ← popDouble
    let a ← popDouble
    pushDouble (Numeric.doubleArith op a b)

/-- A number with its sign changed. -/
def negate (kind : NumKind) : Exec Unit := do
  match kind with
  | .int => pushInt (-(← popInt))
  | .long => pushLong (-(← popLong))
  | .float => pushFloat (-(← popFloat))
  | .double => pushDouble (-(← popDouble))

/-- A number of another type. -/
def convert (conversion : Conversion) : Exec Unit := do
  match conversion with
  | .i2l => pushLong (← popInt).toInt64
  | .i2f => pushFloat (← popInt).toFloat32
  | .i2d => pushDouble (← popInt).toFloat
  | .l2i => pushInt (← popLong).toInt32
  | .l2f => pushFloat (← popLong).toFloat32
  | .l2d => pushDouble (← popLong).toFloat
  | .f2i => pushInt (← popFloat).toFloat.toInt32
  | .f2l => pushLong (← popFloat).toFloat.toInt64
  | .f2d => pushDouble (← popFloat).toFloat
  | .d2i => pushInt (← popDouble).toInt32
  | .d2l => pushLong (← popDouble).toInt64
  | .d2f => pushFloat (← popDouble).toFloat32
  | .i2b => pushInt (Numeric.narrow .byte (← popInt))
  | .i2c => pushInt (Numeric.narrow .char (← popInt))
  | .i2s => pushInt (Numeric.narrow .short (← popInt))

/-- What a comparison answers for numbers that do not compare. -/
def unordered (high : Bool) : Int32 := if high then 1 else -1

/-- An operation without operands. -/
def plain (op : Opcode) : Exec Progress := do
  match op with
  | .nop => pure ()
  | .aconstNull => push .null
  | .iconst k => pushInt (Int32.ofNat k.val - 1)
  | .lconst k => pushLong (Int64.ofNat k.val)
  | .fconst k => pushFloat (Float32.ofNat k.val)
  | .dconst k => pushDouble (Float.ofNat k.val)
  | .arrayLoad _ => loadElement
  | .arrayStore _ => storeElement
  | .pop => let _ ← pop
  | .pop2 => let _ ← takeCells 2
  | .shuffle form => do
    let cells ← takeCells form.taken
    let cells ← require (form.apply cells)
    modifyFrame fun f => { f with stack := cells ++ f.stack }
  | .arith op kind => arith op kind
  | .neg kind => negate kind
  | .shift op false => do
    let amount ← popInt
    pushInt (Numeric.intShift op (← popInt) amount)
  | .shift op true => do
    let amount ← popInt
    pushLong (Numeric.longShift op (← popLong) amount)
  | .bitwise op false => do
    let b ← popInt
    pushInt (Numeric.intBits op (← popInt) b)
  | .bitwise op true => do
    let b ← popLong
    pushLong (Numeric.longBits op (← popLong) b)
  | .convert conversion => convert conversion
  | .lcmp => do
    let b ← popLong
    pushInt (Numeric.compareLongs (← popLong) b)
  | .fcmp high => do
    let b ← popFloat
    pushInt (Numeric.compareDoubles (unordered high) (← popFloat).toFloat b.toFloat)
  | .dcmp high => do
    let b ← popDouble
    pushInt (Numeric.compareDoubles (unordered high) (← popDouble) b)
  | .returnValue .long | .returnValue .double => return .leave (← popValue)
  | .returnValue _ => return .leave (← pop)
  | .returnVoid => return .leave .null
  | .arrayLength => do
    match ← pop with
    | .null => nullPointer "cannot read the array length"
    | v =>
      match ← deref v with
      | some (.array _ elements) => pushInt (Int32.ofNat elements.size)
      | _ => breakdown
  | .athrow => do
    match ← pop with
    | .null => nullPointer "cannot throw null"
    | .ref addr =>
      match (← get).heap.get? addr with
      | some (.object _ _) => throw (.raised addr)
      | _ => breakdown
    | _ => breakdown
  | .monitorEnter | .monitorExit => do
    match ← pop with
    | .null => nullPointer "cannot lock null"
    | _ => pure ()
  | op => fail (.unsupportedOpcode op)
  return .next

/-- An operation with an immediate integer: a new array of numbers, or the integer itself. -/
def immediate (op : Opcode) (operand : Int32) : Exec Unit := do
  match op with
  | .newArray =>
    match arrayElement? operand with
    | none => fail (.badArrayCode operand)
    | some p =>
      let length ← popInt
      if length < 0 then negativeSize length
      else
        let type := JType.arrayOf (.prim p)
        push (← alloc (.array type
          (Array.replicate length.toInt.toNat (Value.zero type.elementType))))
  | _ => pushInt operand

/-- An operation on a local slot. Opcodes that name no such operation do nothing. -/
def slotAccess (op : Opcode) (index : Int) : Exec Unit := do
  match op with
  | .load .long | .load .double => pushValue (← load index)
  | .load _ => push (← load index)
  | .store .long | .store .double => store index (← popValue)
  | .store _ => store index (← pop)
  | .ret =>
    match ← load index with
    | .returnAddress offset => goTo offset
    | _ => breakdown
  | _ => pure ()

/-- Add a constant to a local slot. -/
def increment (index : Int) (amount : Int32) : Exec Unit := do
  match ← load index with
  | .int n => modifyFrame fun f => { f with locals := f.locals.insert index (.int (n + amount)) }
  | _ => breakdown

/-- An operation on a class. Opcodes that name no such operation do nothing. -/
def classAccess (classes : Classes) (op : Opcode) (name : String) : Exec Unit := do
  match op with
  | .new => push (← alloc (.object name []))
  | .newObjectArray =>
    let length ← popInt
    if length < 0 then negativeSize length
    else
      let type := JType.arrayOf (.ofClassName name)
      push (← alloc (.array type
        (Array.replicate length.toInt.toNat (Value.zero type.elementType))))
  | .checkCast =>
    let v ← pop
    let className := (← get).heap.classNameOf v
    if v ≠ .null && !classes.isInstance className name then
      raise "java/lang/ClassCastException"
        ("class " ++ className ++ " cannot be cast to class " ++ name)
    else push v
  | .instanceOf =>
    let v ← pop
    let className := (← get).heap.classNameOf v
    pushInt (if v ≠ .null && classes.isInstance className name then 1 else 0)
  | _ => pure ()

/-- The object whose field is accessed, with its fields. -/
def objectOf (v : Value) (action : String) : Exec (Addr × List (String × Value)) := do
  match v with
  | .null => nullPointer ("cannot " ++ action)
  | v =>
    let heap := (← get).heap
    match v with
    | .ref addr =>
      match heap.get? addr with
      | some (.object _ fields) => return (addr, fields)
      | _ => fail (.notObject action (heap.classNameOf v))
    | _ => fail (.notObject action (heap.classNameOf v))

/-- An access to a field. Opcodes that name no such access do nothing. -/
def fieldAccess (op : Opcode) (owner name descriptor : String) : Exec Unit := do
  match JType.parse descriptor with
  | .error e => fail (.descriptor e)
  | .ok t =>
    let key := owner ++ "." ++ name
    match op with
    | .field .getStatic =>
      pushValue ((Heap.lookupField key (← get).statics).getD (Value.zero t))
    | .field .putStatic =>
      let v ← popValue
      modify fun s => { s with statics := Heap.setField key v s.statics }
    | .field .getField =>
      let (_, fields) ← objectOf (← pop) ("read field " ++ name)
      pushValue ((Heap.lookupField name fields).getD (Value.zero t))
    | .field .putField =>
      let v ← popValue
      let (addr, _) ← objectOf (← pop) ("assign field " ++ name)
      modify fun s => { s with heap := s.heap.storeField addr name v }
    | _ => pure ()

/-- Take `n` arguments off, the last one first; gives them in order. -/
def popArguments : (n : Nat) → List Value → Exec (List Value)
  | 0, args => return args
  | n + 1, args => do popArguments n ((← popValue) :: args)

/-- Prepare the call of a method. -/
def methodCall (op : Opcode) (owner name descriptor : String) : Exec Call := do
  if op = .invoke .dynamic then fail (.dynamicCall name descriptor)
  else match Signature.parse descriptor with
    | .error e => fail (.descriptor e)
    | .ok signature =>
      let args ← popArguments signature.args.length []
      let args ←
        if op = .invoke .static then pure args
        else do
          let receiver ← pop
          if receiver = .null then nullPointer ("cannot invoke " ++ owner ++ "." ++ name)
          else pure (receiver :: args)
      return {
        owner := owner
        name := name
        descriptor := descriptor
        args := args
        dispatched := op = .invoke .virtual || op = .invoke .interface
        wantsResult := signature.result ≠ .void }

/-- Whether a jump is taken. Opcodes that name no jump never are. -/
def jumpTaken (op : Opcode) : Exec Bool := do
  match op with
  | .ifZero cond => return Numeric.holds cond (← popInt) 0
  | .ifInt cond => do
    let b ← popInt
    return Numeric.holds cond (← popInt) b
  | .ifRef differ => do
    let b ← pop
    return (← pop).same b != differ
  | .ifNull => return (← pop) = .null
  | .ifNonNull => return (← pop) ≠ .null
  | .goto | .gotoWide => return true
  | .jsr | .jsrWide => do
    push (.returnAddress (← get).frame.ip)
    return true
  | _ => return false

/-- The label a key selects among consecutive ones starting at `low`. A key too far from `low` for
its distance to be a word selects nothing. -/
def tableTarget (low high : Int32) (fallback : Label) (targets : List Label) (key : Int32) :
    Option Label :=
  if low ≤ key && key ≤ high then
    let index := key - low
    if index < 0 then none else targets[index.toInt.toNat]?
  else some fallback

/-- The label a key selects in a list of keys. -/
def lookupTarget (fallback : Label) (keys : List Int32) (targets : List Label) (key : Int32) :
    Option Label :=
  match keys.findIdx? (· = key) with
  | some index => targets[index]?
  | none => some fallback

/-- New arrays nested as deep as there are lengths. -/
def nestedArrays : JType → List Nat → Heap → Option (Heap × Value)
  | _, [], _ => none
  | type, [length], h =>
    let (h, addr) := h.allocArray type length
    some (h, .ref addr)
  | type, length :: rest, h => do
    let (h, elements) ← (List.replicate length ()).foldlM (fun s _ => do
      let (h, inner) ← nestedArrays type.elementType rest s.1
      return (h, s.2.push inner)) (h, #[])
    let (h, addr) := h.alloc (.array type elements)
    some (h, .ref addr)

/-- Checks lengths one after the other, the outermost first. -/
def arrayLengths : List Value → Exec (List Nat)
  | [] => return []
  | .int n :: rest => do
    if n < 0 then negativeSize n
    else return n.toInt.toNat :: (← arrayLengths rest)
  | _ :: _ => breakdown

/-- The most lengths that can be set aside at once. -/
def maxDims : Int := 0x400000000000

/-- Create an array of arrays. -/
def multiArray (descriptor : String) (dims : Int) : Exec Unit := do
  if dims < 0 || maxDims < dims then breakdown
  else
    let cells ← takeCells dims.toNat
    let lengths ← arrayLengths cells.reverse
    match JType.parse descriptor with
    | .error e => fail (.descriptor e)
    | .ok type =>
      let s ← get
      let (heap, v) ← require (nestedArrays type lengths s.heap)
      set { s with heap := heap }
      push v

/-- **Executes one instruction.** -/
def perform (classes : Classes) (insn : Instruction) : Exec Progress := do
  modifyFrame fun f => { f with ip := f.ip + 1 }
  match insn with
  | .plain op => plain op
  | .int op operand => immediate op operand; return .next
  | .slot op index => slotAccess op index; return .next
  | .iinc index amount => increment index amount; return .next
  | .ldc c => pushValue (.ofConstant c); return .next
  | .type op name => classAccess classes op name; return .next
  | .field op owner name descriptor => fieldAccess op owner name descriptor; return .next
  | .method op owner name descriptor _ => return .call (← methodCall op owner name descriptor)
  | .jump op target =>
    if ← jumpTaken op then goToLabel target
    return .next
  | .tableSwitch low high fallback targets =>
    goToLabel (← require (tableTarget low high fallback targets (← popInt)))
    return .next
  | .lookupSwitch fallback keys targets =>
    goToLabel (← require (lookupTarget fallback keys targets (← popInt)))
    return .next
  | .multiArray descriptor dims => multiArray descriptor dims; return .next
  | .label _ | .line _ | .frame => return .next

end Exec

end Outliner
