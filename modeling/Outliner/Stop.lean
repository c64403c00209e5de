/-!
# Two ways of giving no answer

An operation that cannot answer either *refuses* its input for a stated reason, or it *breaks down*:
it was applied outside its domain, such as an index beyond the end of a table or an opcode inside an
instruction form that cannot carry it. A refusal is an ordinary result that callers report; a
breakdown says nothing about the input and ends everything that depends on it.
-/

namespace Outliner

/-- Why an operation gave no answer: a refusal with its reason, or a breakdown. -/
inductive Stop (ε : Type) where
  /-- The input was refused. -/
  | refused (reason : ε)
  /-- The operation was applied outside its domain. -/
  | breakdown
  deriving DecidableEq, Repr, Inhabited

namespace Stop

/-- Restates the reason of a refusal; a breakdown stays one. -/
def mapReason {ε ε' : Type} (f : ε → ε') : Stop ε → Stop ε'
  | refused reason => refused (f reason)
  | breakdown => breakdown

end Stop

/-- An answer, a refusal or a breakdown. -/
abbrev Answer (ε α : Type) := Except (Stop ε) α

namespace Answer

/-- Refuse the input for the given reason. -/
def refuse {ε α : Type} (reason : ε) : Answer ε α :=
  .error (.refused reason)

/-- Break down. -/
def breakdown {ε α : Type} : Answer ε α :=
  .error .breakdown

/-- The value of an option that has to be there; its absence is a breakdown. -/
def require {ε α : Type} : Option α → Answer ε α
  | some a => .ok a
  | none => breakdown

/-- Restates the reason of a refusal. -/
def mapReason {ε ε' α : Type} (f : ε → ε') : Answer ε α → Answer ε' α
  | .ok a => .ok a
  | .error stop => .error (stop.mapReason f)

/-- An operation that can only refuse, seen as one that might also break down. -/
def ofExcept {ε α : Type} : Except ε α → Answer ε α
  | .ok a => .ok a
  | .error reason => refuse reason

end Answer

end Outliner
