import Outliner.Assembly.Code
import Outliner.Machine.Value
import Outliner.Text.Grid
import Outliner.Text.Quoted

/-!
# Results as text

How values and routines are shown to whoever runs a command.
-/

namespace Outliner

namespace Heap

/-- The text of a value that is returned, looking into arrays and boxes at most `depth` levels deep;
nothing if they go deeper. -/
def showWithin (h : Heap) : (depth : Nat) → Value → Option String
  | _, .null => some "null"
  | _, .string s => some (Text.quote s)
  | _, .class name => some ("class " ++ name)
  | 0, .ref _ => none
  | depth + 1, .ref addr =>
    match h.get? addr with
    | none => some "null"
    | some (.object className _) => some (className ++ "@object")
    | some (.boxed _ v) => h.showWithin depth v
    | some (.array _ elements) => do
      let parts ← elements.toList.mapM (h.showWithin depth)
      return "[" ++ ", ".intercalate parts ++ "]"
  | _, v => some (h.display v)

/-- The text of a value that is returned. There is none for an array that is reached from itself. -/
def show? (h : Heap) (v : Value) : Option String :=
  h.showWithin (h.cells.size + 1) v

end Heap

/-- A line that begins with a label in a column of its own. -/
def labelled (label text : String) : String :=
  Text.pad .left 10 label ++ " " ++ text ++ "\n"

/-- A line about a routine and the size of its code, and why there is no code if there is none.
Nothing is said of a routine that cannot be assembled for another reason than its size. -/
def describe (label : String) (r : Routine) : String × Answer AssemblyError Unit :=
  let start := r.key ++ "  " ++ toString r.size ++ " instructions, "
  match (Assembly.assemble .empty r).1 with
  | .ok m =>
    (labelled label (start ++ toString m.code.size ++ " bytes (max_stack=" ++
      toString m.limits.maxStack ++ ", max_locals=" ++ toString m.limits.maxLocals ++ ")"), .ok ())
  | .error (.refused (.tooLarge key size)) =>
    (labelled label (start ++ toString size ++ " bytes (too large)"),
      Answer.refuse (.tooLarge key size))
  | .error stop => ("", .error stop)

end Outliner
