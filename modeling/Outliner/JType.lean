import Outliner.Descriptor

/-!
# Value types

The types a routine speaks about: those of descriptors, and three that only the type tracker uses.
`null` is the type of the null reference, `top` marks a cell that holds nothing usable (the second
half of a wide value, or values that could not be merged), and an uninitialized type is an object
whose constructor has not run, identified by the instruction that created it.

An array type keeps the text of its component: a class constant may name an array that the
descriptor grammar does not know, and such a type still has to be carried around unchanged.
-/

namespace Outliner

/-- A value type. -/
inductive JType where
  /-- No value. -/
  | void
  | prim (p : Primitive)
  /-- An array, by the descriptor of its component. -/
  | array (component : String)
  /-- An instance of a class, by internal name. -/
  | object (name : String)
  /-- A method type, by descriptor. -/
  | method (descriptor : String)
  /-- The null reference. -/
  | null
  /-- Nothing usable. -/
  | top
  /-- An object of class `name` before its constructor has run. `site` is the offset of the
  instruction that created it, negative for the receiver of a constructor. -/
  | uninitialized (name : String) (site : Int)
  deriving DecidableEq, Repr, Inhabited

namespace FieldType

/-- The text of a field type in messages. -/
def display : FieldType → String
  | prim p => p.name
  | object name => String.ofList name
  | array elem => elem.display ++ "[]"

end FieldType

/-- The wrapper class of a primitive type and the two methods converting between them. -/
structure Boxing where
  /-- The internal name of the wrapper. -/
  className : String
  /-- The descriptor of the static method `valueOf` of the wrapper. -/
  boxDescriptor : String
  /-- The instance method giving back the primitive. -/
  unboxName : String
  unboxDescriptor : String
  deriving DecidableEq, Repr

namespace Primitive

/-- The internal name of the wrapper class. -/
def wrapper : Primitive → String
  | boolean => "java/lang/Boolean"
  | char => "java/lang/Character"
  | byte => "java/lang/Byte"
  | short => "java/lang/Short"
  | int => "java/lang/Integer"
  | float => "java/lang/Float"
  | long => "java/lang/Long"
  | double => "java/lang/Double"

/-- How the type is boxed. -/
def boxing (p : Primitive) : Boxing where
  className := p.wrapper
  boxDescriptor := "(" ++ p.letter.toString ++ ")L" ++ p.wrapper ++ ";"
  unboxName := p.name ++ "Value"
  unboxDescriptor := "()" ++ p.letter.toString

/-- The primitive type with the given wrapper class. -/
def ofWrapper? (className : String) : Option Primitive :=
  all.find? (·.wrapper = className)

end Primitive

namespace JType

/-- The root of the class hierarchy. -/
def objectClass : String := "java/lang/Object"

abbrev int : JType := prim .int
abbrev long : JType := prim .long
abbrev float : JType := prim .float
abbrev double : JType := prim .double

/-- Any object. -/
def anyObject : JType := object objectClass

/-- The type of string constants. -/
def string : JType := object "java/lang/String"

/-- The type of whatever a catch-all handler catches. -/
def throwable : JType := object "java/lang/Throwable"

/-- The type of class constants. -/
def classObject : JType := object "java/lang/Class"

/-- The type of a tree of the descriptor grammar. -/
def ofField : FieldType → JType
  | .prim p => prim p
  | .object name => object (String.ofList name)
  | .array elem => array (String.ofList elem.render)

/-- The type of a method result, `void` when there is none. -/
def ofResult : Option FieldType → JType
  | none => void
  | some t => ofField t

/-- The type a class constant names: an array when the name starts with a bracket, and an object
otherwise. -/
def ofClassName (name : String) : JType :=
  match name.toList with
  | '[' :: component => array (String.ofList component)
  | _ => object name

/-- The text identifying a type, which is its descriptor where it has one of its own. -/
def text : JType → String
  | void => "V"
  | prim p => p.letter.toString
  | array component => "[" ++ component
  | object name => "L" ++ name ++ ";"
  | method descriptor => descriptor
  | null => "null"
  | top => "top"
  | uninitialized name _ => "L" ++ name ++ ";"

/-- The array type with the given component. -/
def arrayOf (t : JType) : JType :=
  array t.text

/-- An array of objects. -/
def objectArray : JType := arrayOf anyObject

/-- The descriptor of a type in a generated signature, where null and unusable values count as
objects. -/
def descriptor : JType → String
  | null | top => anyObject.text
  | t => t.text

/-- The method type with the given arguments and result. -/
def ofSignature (args : List JType) (result : JType) : JType :=
  method ("(" ++ String.join (args.map descriptor) ++ ")" ++ result.descriptor)

/-- The name of a type in class constants; empty for types that have none. -/
def internalName : JType → String
  | object name | uninitialized name _ => name
  | array component => "[" ++ component
  | null => objectClass
  | _ => ""

/-- The component of an array type; `top` for other types and for unknown components. -/
def elementType : JType → JType
  | array component =>
    match Descriptor.component? component.toList with
    | some type => ofResult type
    | none => top
  | _ => top

/-- The number of slots or cells a value takes. -/
def size : JType → Nat
  | void => 0
  | prim p => p.size
  | _ => 1

def isPrimitive : JType → Bool
  | prim _ => true
  | _ => false

/-- Whether values of the type are references. -/
def isReference : JType → Bool
  | array _ | object _ | null | uninitialized _ _ => true
  | _ => false

/-- Whether a value of the type can be loaded, passed and returned. -/
def isDefinite : JType → Bool
  | prim _ | array _ | object _ | null => true
  | _ => false

/-- The type a value has on the operand stack, where the small integers count as `int`. -/
def computational : JType → JType
  | prim .boolean | prim .char | prim .byte | prim .short => int
  | t => t

/-- Whether the type is an object awaiting its constructor. -/
def isUninitialized : JType → Bool
  | uninitialized _ _ => true
  | _ => false

/-- How the type is boxed; references are not. -/
def boxing? : JType → Option Boxing
  | prim p => some p.boxing
  | _ => none

/-- The text of a type in messages. -/
def display : JType → String
  | void => "void"
  | prim p => p.name
  | array component =>
    (match Descriptor.component? component.toList with
      | none => "top"
      | some none => "void"
      | some (some t) => t.display) ++ "[]"
  | object name => name
  | method descriptor => descriptor
  | null => "null"
  | top => "top"
  | uninitialized name site =>
    if site < 0 then "uninitialized this" else "uninitialized " ++ name ++ "@" ++ toString site

/-- Reads a field descriptor as a value type. -/
def parse (text : String) : Except DescriptorError JType :=
  (parseField text).map ofResult

/-- The number of slots a list of arguments takes. -/
def sizeOfAll (args : List JType) : Nat :=
  args.foldr (fun t total => t.size + total) 0

end JType

/-- The argument and result types of a method descriptor. -/
structure Signature where
  args : List JType
  result : JType
  deriving DecidableEq, Repr, Inhabited

namespace Signature

/-- Reads a method descriptor. -/
def parse (text : String) : Except DescriptorError Signature :=
  (readMethod text).map fun m => ⟨m.args.map JType.ofField, JType.ofResult m.result⟩

/-- The number of slots the arguments take, not counting a receiver. -/
def argumentsSize (s : Signature) : Nat :=
  JType.sizeOfAll s.args

end Signature

end Outliner
