import Outliner.Decimal.Text
import Outliner.Routine
import Outliner.Text.Grid
import Outliner.Text.Quoted
import Outliner.Tracker

/-!
# Listings

A routine as text, one line per instruction: its offset, its name, its operands, and what they stand
for. Labels without a name of their own are numbered in the order in which they stand.
-/

namespace Outliner

/-- One line of a listing. -/
structure ListingLine where
  offset : Nat
  name : String
  opcode : Opcode
  operands : List String := []
  annotation : String := ""
  constant : Option Constant := none
  deriving DecidableEq, Repr, Inhabited

/-- Why a routine cannot be listed. -/
inductive ListingError where
  | unknownOpcode (key : String) (code : Int) (offset : Nat)
  | badArrayType (key : String) (code : Int32) (offset : Nat)
  deriving DecidableEq, Repr

namespace ListingError

/-- The wording of a refusal. -/
def message : ListingError → String
  | unknownOpcode key code offset =>
    key ++ ": unknown opcode " ++ toString code ++ " at " ++ toString offset
  | badArrayType key code offset =>
    key ++ ": bad array type " ++ toString code.toInt ++ " at " ++ toString offset

end ListingError

namespace Listing

/-- The names of labels, by identity. -/
abbrev LabelTitles := Std.TreeMap Nat String

/-- The names under which labels are listed. -/
def labelTitles (code : List Instruction) : LabelTitles :=
  (code.filterMap Instruction.placed?).zipIdx.foldl (fun names (l, n) =>
    names.insert l.id (if l.name = "" then "L" ++ toString n else l.name)) ∅

/-- What the protected blocks use a label for, the blocks being numbered from the given number on.
-/
def rolesFrom (l : Label) : (index : Nat) → List TryCatch → List String
  | _, [] => []
  | index, b :: rest =>
    let role (place : Label) (what : String) : List String :=
      if place.id = l.id then ["try#" ++ toString index ++ " " ++ what] else []
    role b.start "start" ++ role b.stop "end" ++
      role b.handler ("catch " ++ if b.type = "" then "any" else b.type) ++
      rolesFrom l (index + 1) rest

/-- The argument that starts at a slot, counting arguments and slots from those given. -/
def parameterAt (slot : Int) : (index position : Nat) → List JType → String
  | _, _, [] => ""
  | index, position, t :: rest =>
    if (position : Int) = slot then "arg" ++ toString index
    else parameterAt slot (index + 1) (position + t.size) rest

/-- What a slot holds when the routine is entered, if it has a name. -/
def slotName (r : Routine) (slot : Int) : String :=
  if r.isStatic then parameterAt slot 0 0 r.signature.args
  else if slot = 0 then "this"
  else parameterAt (slot - 1) 0 0 r.signature.args

/-- The cases of a switch; a target without a key is a breakdown. -/
def keyedCases {ε : Type} (name : Label → String) :
    List Int32 → List Label → Answer ε (List String)
  | _, [] => .ok []
  | [], _ :: _ => Answer.breakdown
  | key :: keys, target :: targets => do
    return (toString key.toInt ++ ": " ++ name target) :: (← keyedCases name keys targets)

/-- The text of the cases of a switch. -/
def showCases (cases : List String) (fallback : String) : String :=
  ", ".intercalate (cases ++ ["default: " ++ fallback])

/-- The line of one instruction. -/
def line (r : Routine) (names : LabelTitles) (offset : Nat) (insn : Instruction) :
    Answer ListingError ListingLine := do
  let label (l : Label) : String := names.getD l.id ""
  let mnemonic ←
    if insn.isMarker then pure ""
    else match insn.opcode.mnemonic? with
      | some name => pure name
      | none => Answer.refuse (.unknownOpcode r.key insn.opcode.code offset)
  let start : ListingLine := { offset := offset, name := mnemonic, opcode := insn.opcode }
  match insn with
  | .label l =>
    return { start with
      name := label l ++ ":", annotation := ", ".intercalate (rolesFrom l 0 r.blocks) }
  | .line n => return { start with name := "LINE", operands := [toString n] }
  | .frame => return { start with name := "FRAME" }
  | .plain _ => return start
  | .int op value =>
    let start := { start with operands := [toString value.toInt] }
    if op = .newArray then
      match arrayElement? value with
      | some p => return { start with annotation := p.name }
      | none => Answer.refuse (.badArrayType r.key value offset)
    else return start
  | .slot _ index =>
    return { start with operands := [toString index], annotation := slotName r index }
  | .iinc index amount =>
    return { start with
      operands := [toString index, toString amount.toInt], annotation := slotName r index }
  | .type _ name => return { start with annotation := name }
  | .field _ owner name descriptor =>
    return { start with annotation := owner ++ "." ++ name ++ ":" ++ descriptor }
  | .method op owner name descriptor _ =>
    let class? := if op = .invoke .dynamic then "" else owner ++ "."
    return { start with annotation := class? ++ name ++ descriptor }
  | .ldc c => return { start with constant := if c = .missing then none else some c }
  | .jump _ target => return { start with annotation := label target }
  | .tableSwitch low high fallback targets =>
    let cases := targets.zipIdx.map fun (l, k) => toString (low.toInt + k) ++ ": " ++ label l
    return { start with
      operands := [toString low.toInt, toString high.toInt]
      annotation := showCases cases (label fallback) }
  | .lookupSwitch fallback keys targets =>
    return { start with
      operands := [toString keys.length]
      annotation := showCases (← keyedCases label keys targets) (label fallback) }
  | .multiArray descriptor dims =>
    return { start with operands := [toString dims], annotation := descriptor }

/-- The lines of a routine. -/
def lines (r : Routine) : Answer ListingError (List ListingLine) :=
  let names := labelTitles r.code.toList
  r.code.toList.zipIdx.mapM fun (insn, offset) => line r names offset insn

/-! ### Printing -/

/-- A way to emphasize text: the codes that switch it on and off. -/
structure Style where
  on : String
  off : String

namespace Style

def bold : Style := ⟨"1", "22"⟩
def italic : Style := ⟨"3", "23"⟩
def yellow : Style := ⟨"33", "0"⟩
def green : Style := ⟨"32", "0"⟩
def magenta : Style := ⟨"35", "0"⟩
def cyan : Style := ⟨"96", "0"⟩

/-- A text with emphasis, if there are to be colours. -/
def apply (s : Style) (color : Bool) (text : String) : String :=
  if color then "\x1b[" ++ s.on ++ "m" ++ text ++ "\x1b[" ++ s.off ++ "m" else text

end Style

/-- A constant in a listing. Long strings are cut. -/
def showConstant (color : Bool) : Constant → String
  | .int n => Style.yellow.apply color (toString n.toInt)
  | .long n => Style.yellow.apply color (toString n.toInt)
  | .float bits => Style.yellow.apply color (Decimal.showSingle bits)
  | .double bits => Style.yellow.apply color (Decimal.showDouble bits)
  | .string s => Style.green.apply color (Text.quoteCut 80 77 s)
  | .class t => Style.magenta.apply color ("class:" ++ t.internalName)
  | .missing => ""

/-- The cells of a line. -/
def cells (color : Bool) (l : ListingLine) : List String :=
  let style := if l.opcode = .marker then Style.italic else Style.bold
  let info := match l.constant with
    | some c => showConstant color c
    | none => if l.annotation = "" then "" else Style.cyan.apply color l.annotation
  [toString l.offset, style.apply color l.name, ", ".intercalate l.operands, info]

/-- The grid of a listing. -/
def grid (color : Bool) (lines : List ListingLine) : Text.Grid where
  header := ["OFFSET", "OPCODE", "OPERANDS", "INFO"]
  rows := lines.map (cells color)
  alignments := [.right, .left, .right, .left]
  headerAlignments := [.center, .center, .center, .center]

/-- The heading of a listing: the routine with its access, and its size. -/
def heading (r : Routine) : String :=
  let access := r.access.display
  (if access = "" then "" else access ++ " ") ++ r.key ++ " (locals=" ++ toString r.maxLocals ++
    ", instructions=" ++ toString r.size ++ ")\n"

/-- **The listing of a routine.** -/
def render (color : Bool) (r : Routine) : Answer ListingError String := do
  return heading r ++ (grid color (← lines r)).render

end Listing

end Outliner
