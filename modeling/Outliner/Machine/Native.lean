import Outliner.Machine.Value
import Outliner.Routine

/-!
# Built-in methods

Methods without code of their own, implemented by the machine: boxing and unboxing, the constructors
of exceptions, and a few methods of strings and objects.
-/

namespace Outliner

/-- How a built-in method ends. -/
inductive NativeResult where
  | value (v : Value)
  /-- It raises an exception of a class with a message. -/
  | throws (className message : String)
  /-- It fails with a text of its own. -/
  | fails (text : String)
  /-- It calls back into the machine that runs it, which is refused. -/
  | reenters
  /-- Its arguments are outside its domain. -/
  | breakdown
  deriving DecidableEq, Repr

/-- A built-in method. It gets its arguments, the receiver first, and may change the heap. -/
abbrev Native := Heap → List Value → Heap × NativeResult

namespace Native

/-- The method that always gives the same value. -/
def constant (v : Value) : Native :=
  fun h _ => (h, .value v)

/-- Puts a number into its wrapper. -/
def box (p : Primitive) : Native :=
  fun h args => match args with
    | v :: _ =>
      let (h, addr) := h.alloc (.boxed p.wrapper v)
      (h, .value (.ref addr))
    | [] => (h, .breakdown)

/-- The number in a wrapper of the given type. -/
def unbox (p : Primitive) : Native :=
  fun h args => match args with
    | [] => (h, .breakdown)
    | v :: _ =>
      let wrong : NativeResult := .throws "java/lang/ClassCastException" (h.classNameOf v)
      match v with
      | .ref addr =>
        match h.get? addr with
        | some (.boxed className inner) =>
          (h, if className = p.wrapper then .value inner else wrong)
        | _ => (h, wrong)
      | _ => (h, wrong)

/-- The number of bytes of a string. -/
def stringLength : Native :=
  fun h args => match args with
    | .string s :: _ => (h, .value (.int (Int32.ofNat s.utf8ByteSize)))
    | _ => (h, .breakdown)

/-- The text of a value. -/
def stringValueOf : Native :=
  fun h args => match args with
    | v :: _ => (h, .value (.string (h.display v)))
    | [] => (h, .breakdown)

/-- Sets the message of a new exception. -/
def initMessage : Native :=
  fun h args => match args with
    | .ref addr :: v :: _ =>
      match h.get? addr with
      | some (.object _ _) => (h.storeField addr "message" v, .value .null)
      | _ => (h, .breakdown)
    | _ => (h, .breakdown)

/-- The message of an exception. -/
def getMessage : Native :=
  fun h args => match args with
    | .ref addr :: _ =>
      match h.get? addr with
      | some (.object _ fields) =>
        (h, .value ((Heap.lookupField "message" fields).getD .null))
      | _ => (h, .breakdown)
    | _ => (h, .breakdown)

/-- The methods that box and unbox a primitive type. -/
def boxing (p : Primitive) : List (String × Native) :=
  let b := p.boxing
  [(qualifiedName b.className "valueOf" b.boxDescriptor, box p),
    (qualifiedName b.className b.unboxName b.unboxDescriptor, unbox p)]

/-- The methods a machine has from the start, by key. -/
def builtin : List (String × Native) :=
  Primitive.all.flatMap boxing ++
    [(qualifiedName "java/lang/Object" "<init>" "()V", constant .null),
      (qualifiedName "java/lang/Object" "hashCode" "()I", constant (.int 0)),
      (qualifiedName "java/lang/String" "length" "()I", stringLength),
      (qualifiedName "java/lang/String" "valueOf" "(I)Ljava/lang/String;", stringValueOf),
      (qualifiedName "java/lang/Throwable" "<init>" "()V", constant .null),
      (qualifiedName "java/lang/Throwable" "<init>" "(Ljava/lang/String;)V", initMessage),
      (qualifiedName "java/lang/Throwable" "getMessage" "()Ljava/lang/String;", getMessage)]

end Native

end Outliner
