import Outliner.Decimal.Text
import Outliner.Instruction

/-!
# Values and the heap

A machine computes with numbers, strings, class constants and references. Objects, boxed numbers and
arrays live in the heap and are identified by their address. A `long` or `double` takes two cells;
the second one holds the `wide` marker. Floating-point numbers are kept as bits.
-/

namespace Outliner

/-- Where something lives in the heap. -/
abbrev Addr := Nat

/-- The number types of a caller outside the machine. -/
inductive ScalarKind where
  | int
  | bool
  | int8
  | int16
  | uint16
  deriving DecidableEq, Repr, Inhabited

namespace ScalarKind

/-- The name of the type in messages. -/
def name : ScalarKind → String
  | int => "int"
  | bool => "bool"
  | int8 => "int8"
  | int16 => "int16"
  | uint16 => "uint16"

end ScalarKind

/-- What a cell or slot can hold. -/
inductive Value where
  | null
  | int (n : Int32)
  | long (n : Int64)
  | float (bits : UInt32)
  | double (bits : UInt64)
  | string (s : String)
  /-- Something in the heap. -/
  | ref (addr : Addr)
  /-- A class constant. -/
  | class (name : String)
  /-- The second half of a `long` or `double`. -/
  | wide
  /-- Where a subroutine goes on after its end. -/
  | returnAddress (offset : Nat)
  /-- A number handed in by the caller and not converted. -/
  | scalar (kind : ScalarKind) (n : Int)
  deriving DecidableEq, Repr, Inhabited

namespace Value

/-- Whether the value takes two cells. -/
def isWide : Value → Bool
  | long _ | double _ => true
  | _ => false

/-- The value an array element or a field has before anything is stored. -/
def zero (t : JType) : Value :=
  match t.computational with
  | .prim .int => int 0
  | .prim .long => long 0
  | .prim .float => float 0
  | .prim .double => double 0
  | _ => null

/-- Whether two cells hold the same thing. Numbers compare by value, so that a float that is no
number differs from itself. -/
def same : Value → Value → Bool
  | float a, float b => Float32.ofBits a == Float32.ofBits b
  | double a, double b => Float.ofBits a == Float.ofBits b
  | a, b => a = b

/-- The value of a pushed constant. -/
def ofConstant : Constant → Value
  | .int n => int n
  | .long n => long n
  | .float bits => float bits
  | .double bits => double bits
  | .string s => string s
  | .class t => .class t.internalName
  | .missing => null

end Value

/-- Something in the heap. -/
inductive HeapCell where
  | object (className : String) (fields : List (String × Value))
  /-- A number in its wrapper class. -/
  | boxed (className : String) (value : Value)
  | array (type : JType) (elements : Array Value)
  deriving DecidableEq, Repr, Inhabited

namespace HeapCell

/-- The class of what is in the cell. -/
def className : HeapCell → String
  | object className _ | boxed className _ => className
  | array type _ => type.internalName

end HeapCell

/-- What lives in the heap, by address. -/
structure Heap where
  cells : Array HeapCell
  deriving DecidableEq, Repr, Inhabited

namespace Heap

def empty : Heap := ⟨#[]⟩

/-- Puts something into the heap. -/
def alloc (h : Heap) (cell : HeapCell) : Heap × Addr :=
  (⟨h.cells.push cell⟩, h.cells.size)

/-- What lives at an address. -/
def get? (h : Heap) (addr : Addr) : Option HeapCell :=
  h.cells[addr]?

/-- Replaces what lives at an address. -/
def modify (h : Heap) (addr : Addr) (f : HeapCell → HeapCell) : Heap :=
  ⟨h.cells.modify addr f⟩

/-- The class of a value; any object for what is no reference. -/
def classNameOf (h : Heap) : Value → String
  | .string _ => "java/lang/String"
  | .class _ => "java/lang/Class"
  | .ref addr =>
    match h.get? addr with
    | some cell => cell.className
    | none => JType.objectClass
  | _ => JType.objectClass

/-- The value of a field, if one has been stored. -/
def lookupField (name : String) (fields : List (String × Value)) : Option Value :=
  (fields.find? (·.1 = name)).map (·.2)

/-- Fields with one of them set. -/
def setField (name : String) (v : Value) : List (String × Value) → List (String × Value)
  | [] => [(name, v)]
  | field :: rest => if field.1 = name then (name, v) :: rest else field :: setField name v rest

/-- Stores into a field of an object. -/
def storeField (h : Heap) (addr : Addr) (name : String) (v : Value) : Heap :=
  h.modify addr fun
    | .object className fields => .object className (setField name v fields)
    | cell => cell

/-- An element of an array. -/
def element? (h : Heap) (addr : Addr) (index : Nat) : Option Value :=
  match h.get? addr with
  | some (.array _ elements) => elements[index]?
  | _ => none

/-- Stores into an element of an array. -/
def storeElement (h : Heap) (addr : Addr) (index : Nat) (v : Value) : Heap :=
  h.modify addr fun
    | .array type elements => .array type (elements.setIfInBounds index v)
    | cell => cell

/-- A new array of the given array type and length. -/
def allocArray (h : Heap) (type : JType) (length : Nat) : Heap × Addr :=
  h.alloc (.array type (Array.replicate length (Value.zero type.elementType)))

/-- A new exception object of a class with a message. -/
def allocThrowable (h : Heap) (className message : String) : Heap × Addr :=
  h.alloc (.object className [("message", .string message)])

/-- The name of the type of a value in messages. -/
def typeName (h : Heap) : Value → String
  | .null => "<nil>"
  | .int _ => "int32"
  | .long _ => "int64"
  | .float _ => "float32"
  | .double _ => "float64"
  | .string _ => "string"
  | .class _ => "vm.Class"
  | .wide => "vm.wideHalf"
  | .returnAddress _ => "vm.returnAddress"
  | .scalar kind _ => kind.name
  | .ref addr =>
    match h.get? addr with
    | some (.object _ _) => "*vm.Object"
    | some (.boxed _ _) => "*vm.Boxed"
    | some (.array _ _) => "*vm.Array"
    | none => "<nil>"

/-- The text of a value as a string conversion gives it, following references at most `depth` levels
deep. -/
def textOf (h : Heap) : (depth : Nat) → Value → String
  | _, .null => "<nil>"
  | _, .int n => toString n.toInt
  | _, .long n => toString n.toInt
  | _, .float bits => Decimal.showSingle bits
  | _, .double bits => Decimal.showDouble bits
  | _, .string s => s
  | _, .class name => "\x7b" ++ name ++ "\x7d"
  | _, .wide => "\x7b\x7d"
  | _, .returnAddress offset => toString offset
  | _, .scalar .bool n => if n = 0 then "false" else "true"
  | _, .scalar _ n => toString n
  | 0, .ref _ => ""
  | depth + 1, .ref addr =>
    match h.get? addr with
    | none => "<nil>"
    | some (.object className _) => className
    | some (.boxed _ v) => h.textOf depth v
    | some (.array type elements) =>
      "&\x7b" ++ type.display ++ " [" ++
        " ".intercalate (elements.toList.map (h.textOf depth)) ++ "]\x7d"

/-- The text of a value. -/
def display (h : Heap) (v : Value) : String :=
  h.textOf (h.cells.size + 1) v

end Heap

/-- A value that cannot be passed for a parameter. -/
structure CoerceError where
  typeName : String
  parameter : JType
  deriving DecidableEq, Repr

namespace CoerceError

/-- The wording of a refusal. -/
def message (e : CoerceError) : String :=
  "cannot pass " ++ e.typeName ++ " as " ++ e.parameter.display

end CoerceError

namespace Heap

/-- Converts an argument to the form in which a parameter of type `t` is kept. References are passed
as they are. -/
def coerce (h : Heap) (t : JType) (v : Value) : Except CoerceError Value :=
  match t.computational, v with
  | .prim .int, .int n => .ok (.int n)
  | .prim .int, .scalar _ n => .ok (.int (Int32.ofInt n))
  | .prim .long, .long n => .ok (.long n)
  | .prim .long, .scalar .int n => .ok (.long (Int64.ofInt n))
  | .prim .float, .float bits => .ok (.float bits)
  | .prim .double, .double bits => .ok (.double bits)
  | .prim .double, .float bits => .ok (.double (Float32.ofBits bits).toFloat.toBits)
  | .prim _, v => .error ⟨h.typeName v, t⟩
  | _, v => .ok v

end Heap

end Outliner
