import Outliner.Text.Quoted

/-!
# Descriptors

The textual form of types in the class file format. A field type is one of eight primitive letters,
`L` name `;` with a non-empty name free of `;`, or `[` followed by a field type. A method descriptor
lists its argument types between parentheses and then gives its result, where `V` stands for none.

`FieldType` and `MethodType` are the trees of this grammar and `render` writes them; `parseField`
and `readMethod` read them. A refusal says what is wrong and at which byte.
-/

namespace Outliner

/-- The primitive types. -/
inductive Primitive where
  | boolean
  | char
  | byte
  | short
  | int
  | float
  | long
  | double
  deriving DecidableEq, Repr, Inhabited

namespace Primitive

/-- Every primitive type, in the order of their sorts. -/
def all : List Primitive :=
  [boolean, char, byte, short, int, float, long, double]

/-- The letter of a primitive type in descriptors. -/
def letter : Primitive → Char
  | boolean => 'Z'
  | char => 'C'
  | byte => 'B'
  | short => 'S'
  | int => 'I'
  | float => 'F'
  | long => 'J'
  | double => 'D'

/-- The primitive type with the given letter. -/
def ofLetter? : Char → Option Primitive
  | 'Z' => some boolean
  | 'C' => some char
  | 'B' => some byte
  | 'S' => some short
  | 'I' => some int
  | 'F' => some float
  | 'J' => some long
  | 'D' => some double
  | _ => none

/-- The keyword naming the type. -/
def name : Primitive → String
  | boolean => "boolean"
  | char => "char"
  | byte => "byte"
  | short => "short"
  | int => "int"
  | float => "float"
  | long => "long"
  | double => "double"

/-- The number of slots or cells a value takes. -/
def size : Primitive → Nat
  | long | double => 2
  | _ => 1

@[simp] theorem ofLetter?_letter (p : Primitive) : ofLetter? p.letter = some p := by
  cases p <;> rfl

end Primitive

/-- A field type of the descriptor grammar. -/
inductive FieldType where
  | prim (p : Primitive)
  | object (name : List Char)
  | array (elem : FieldType)
  deriving DecidableEq, Repr, Inhabited

namespace FieldType

/-- The descriptor of a field type. -/
def render : FieldType → List Char
  | prim p => [p.letter]
  | object name => 'L' :: name ++ [';']
  | array elem => '[' :: elem.render

/-- The number of slots or cells a value takes. -/
def size : FieldType → Nat
  | prim p => p.size
  | _ => 1

end FieldType

/-- A method type: the arguments, and the result unless there is none. -/
structure MethodType where
  args : List FieldType
  result : Option FieldType
  deriving DecidableEq, Repr, Inhabited

namespace MethodType

/-- The descriptor of a result, `V` when there is none. -/
def renderResult : Option FieldType → List Char
  | none => ['V']
  | some t => t.render

/-- The descriptor of a method type. -/
def render (m : MethodType) : List Char :=
  '(' :: m.args.flatMap FieldType.render ++ ')' :: renderResult m.result

/-- The number of slots the arguments take. -/
def argumentsSize (m : MethodType) : Nat :=
  m.args.foldr (fun t total => t.size + total) 0

end MethodType

/-- What is wrong with a descriptor. Positions count bytes. -/
inductive DescriptorFault where
  /-- Something follows the type. -/
  | trailing
  /-- The text ends where a type has to start. -/
  | unexpectedEnd
  /-- A class name is empty or not closed. -/
  | badClassName (position : Nat)
  /-- An array of nothing. -/
  | voidArray
  /-- A character that starts no type; the byte is the first one of its encoding. -/
  | unexpected (byte : UInt8) (position : Nat)
  /-- A method descriptor that does not start with a parenthesis. -/
  | notMethod
  /-- A method argument of type `V`. -/
  | voidArgument
  /-- The argument list is not closed. -/
  | unclosed
  /-- Something follows the result type. -/
  | trailingMethod
  deriving DecidableEq, Repr

/-- A refused descriptor with its fault. -/
structure DescriptorError where
  text : String
  fault : DescriptorFault
  deriving DecidableEq, Repr

namespace DescriptorError

/-- The wording of a refusal. -/
def message (e : DescriptorError) : String :=
  let field := "invalid descriptor " ++ Text.quote e.text
  let method := "invalid method descriptor " ++ Text.quote e.text
  match e.fault with
  | .trailing => field ++ ": trailing characters"
  | .unexpectedEnd => field ++ ": unexpected end"
  | .badClassName position => field ++ ": bad class name at " ++ toString position
  | .voidArray => field ++ ": void array"
  | .unexpected byte position =>
    field ++ ": unexpected " ++ Text.quoteChar (Char.ofNat byte.toNat) ++ " at " ++
      toString position
  | .notMethod => method
  | .voidArgument => method ++ ": void argument"
  | .unclosed => method ++ ": missing ')'"
  | .trailingMethod => method ++ ": trailing characters"

end DescriptorError

namespace Descriptor

/-- The first byte of the encoding of a character. -/
def firstByte (c : Char) : UInt8 :=
  (String.utf8EncodeChar c).headD 0

/-- What a scan found: a type (`none` for `V`), the byte position after it, and the text after it.
-/
structure Scanned where
  type : Option FieldType
  position : Nat
  rest : List Char

/-- Reads one type from the front of a text that stands at the given byte position. -/
def scan (position : Nat) : List Char → Except DescriptorFault Scanned
  | [] => .error .unexpectedEnd
  | c :: rest =>
    if c = 'V' then .ok ⟨none, position + 1, rest⟩
    else if c = 'L' then
      let name := rest.takeWhile (· ≠ ';')
      match rest.dropWhile (· ≠ ';') with
      | [] => .error (.badClassName position)
      | _ :: after =>
        if name.isEmpty then .error (.badClassName position)
        else .ok ⟨some (.object name), position + 2 + (String.ofList name).utf8ByteSize, after⟩
    else if c = '[' then
      match scan (position + 1) rest with
      | .error fault => .error fault
      | .ok ⟨none, _, _⟩ => .error .voidArray
      | .ok ⟨some elem, position', after⟩ => .ok ⟨some (.array elem), position', after⟩
    else
      match Primitive.ofLetter? c with
      | some p => .ok ⟨some (.prim p), position + 1, rest⟩
      | none => .error (.unexpected (firstByte c) position)

/-- The text after a scanned type is shorter than the text before it. -/
theorem length_rest_lt {position : Nat} {text : List Char} {s : Scanned}
    (h : scan position text = .ok s) : s.rest.length < text.length := by
  induction text generalizing position s with
  | nil => simp [scan] at h
  | cons c rest ih =>
    unfold scan at h
    split at h
    · cases h; simp
    · split at h
      · split at h
        · cases h
        · rename_i after hdrop
          dsimp only at h
          split at h
          · cases h
          · cases h
            have hle := (rest.dropWhile_suffix (· ≠ ';')).length_le
            rw [hdrop] at hle
            simp at hle ⊢
            omega
      · split at h
        · split at h
          · cases h
          · cases h
          · rename_i hscan
            cases h
            have := ih hscan
            simp at this ⊢
            omega
        · split at h
          · cases h; simp
          · cases h

/-- Reads argument types up to the closing parenthesis; gives the types, and the position and text
after the parenthesis. -/
def scanArguments (position : Nat) (text : List Char) :
    Except DescriptorFault (List FieldType × Nat × List Char) :=
  match text with
  | [] => .error .unclosed
  | c :: rest =>
    if c = ')' then .ok ([], position + 1, rest)
    else match h : scan position (c :: rest) with
      | .error fault => .error fault
      | .ok ⟨none, _, _⟩ => .error .voidArgument
      | .ok ⟨some t, position', after⟩ =>
        have : after.length < (c :: rest).length := length_rest_lt h
        match scanArguments position' after with
        | .error fault => .error fault
        | .ok (args, position'', after') => .ok (t :: args, position'', after')
termination_by text.length
decreasing_by exact this

/-- Reads a whole method descriptor. -/
def scanMethod : List Char → Except DescriptorFault MethodType
  | '(' :: rest =>
    match scanArguments 1 rest with
    | .error fault => .error fault
    | .ok (args, position, after) =>
      match scan position after with
      | .error fault => .error fault
      | .ok ⟨result, _, []⟩ => .ok ⟨args, result⟩
      | .ok ⟨_, _, _ :: _⟩ => .error .trailingMethod
  | _ => .error .notMethod

/-- Reads a whole field descriptor; `none` stands for `V`. -/
def scanField (text : List Char) : Except DescriptorFault (Option FieldType) :=
  match scan 0 text with
  | .error fault => .error fault
  | .ok ⟨type, _, []⟩ => .ok type
  | .ok ⟨_, _, _ :: _⟩ => .error .trailing

/-- Reads the component type at the front of an array descriptor whose bracket has been taken off.
What follows the component is not looked at. -/
def component? (text : List Char) : Option (Option FieldType) :=
  match scan 1 text with
  | .error _ => none
  | .ok s => some s.type

end Descriptor

/-- Reads a field descriptor such as `I`, `[J` or `Ljava/lang/String;`; `none` stands for `V`. -/
def parseField (text : String) : Except DescriptorError (Option FieldType) :=
  match Descriptor.scanField text.toList with
  | .error fault => .error ⟨text, fault⟩
  | .ok type => .ok type

/-- Reads a method descriptor such as `(IJ)Ljava/lang/Object;`. -/
def readMethod (text : String) : Except DescriptorError MethodType :=
  match Descriptor.scanMethod text.toList with
  | .error fault => .error ⟨text, fault⟩
  | .ok type => .ok type

end Outliner
