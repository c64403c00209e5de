import Outliner.Command.Help

/-!
# Completion of command lines

What may stand next on a command line, for shells that ask while it is being typed. The last
argument is the one being typed. If it begins with a dash, the flags that are not set yet are
offered; if it is the value of a flag, nothing is; else the commands are, where one may stand.

The answer ends in a directive that tells the shell whether names of files are wanted too.
-/

namespace Outliner

/-- What a shell should do besides what is offered. -/
inductive Directive where
  /-- Offer names of files if nothing else is offered. -/
  | usual
  | noFiles
  deriving DecidableEq, Repr, Inhabited

namespace Directive

/-- The number of a directive. -/
def number : Directive → Nat
  | usual => 0
  | noFiles => 4

/-- The name of a directive. -/
def name : Directive → String
  | usual => "ShellCompDirectiveDefault"
  | noFiles => "ShellCompDirectiveNoFileComp"

end Directive

/-- What is offered, each with an explanation. -/
structure Completion where
  choices : List (String × String) := []
  directive : Directive := .usual
  deriving DecidableEq, Repr, Inhabited

namespace Completion

/-- What is being typed: the value of a flag, or something else. -/
structure Goal where
  /-- The flag whose value it is. -/
  flag : Option Flag := none
  /-- It is the value of something written like a flag that there is not. -/
  isStray : Bool := false
  /-- The arguments before it, without the flag. -/
  before : List String
  typed : String

/-- The flag that a name or a letter stands for. -/
def findFlag (flags : List Flag) (name : List Char) : Option Flag :=
  flags.find? fun f => f.name.toList = name || f.letter.any fun l => name = [l]

/-- The name of the flag that an argument ends in, given without a value: all that follows two
dashes, or the last of several letters. -/
def trailingName : List Char → List Char
  | '-' :: '-' :: name => name
  | letters => letters.getLast?.toList

/-- Whether an argument is written like a flag. -/
def looksLikeFlag : List Char → Bool
  | '-' :: '-' :: rest => !rest.isEmpty
  | '-' :: _ :: _ => true
  | _ => false

/-- The goal when the argument before the last one may be a flag that waits for its value. -/
def goalAfter (flags : List Flag) (before : List String) (typed whole : String) : Goal :=
  match before.getLast? with
  | none => { before, typed }
  | some previous =>
    if !looksLikeFlag previous.toList || previous.contains '=' then { before, typed }
    else match findFlag flags (trailingName previous.toList) with
      | none => { isStray := true, before, typed := whole }
      | some f =>
        if f.implied.isSome then { before, typed }
        else { flag := some f, before := before.dropLast, typed }

/-- What is being typed, given the last argument and those before it. -/
def goal (flags : List Flag) (before : List String) (last : String) : Goal :=
  let text := last.toList
  let value := String.ofList ((text.dropWhile (· ≠ '=')).drop 1)
  if text.head? ≠ some '-' then goalAfter flags before last last
  else if !text.contains '=' then { before, typed := last }
  else match trailingName (text.takeWhile (· ≠ '=')) with
    | [] => goalAfter flags before value last
    | name =>
      match findFlag flags name with
      | none => { isStray := true, before, typed := last }
      | some f => { flag := some f, before, typed := value }

/-- The ways of writing a flag that begin like what is typed. -/
def writings (typed : String) (f : Flag) : List (String × String) :=
  let long := "--" ++ f.name
  let short := f.letter.toList.map fun l => "-" ++ String.singleton l
  ((long :: short).filter (·.startsWith typed)).map fun text => (text, f.purpose)

/-- The flags of a request that are not given yet: the shared ones first, and by name. -/
def flagsLeft (r : Request) (given : List (String × String)) : List Flag :=
  let sorted (flags : List Flag) : List Flag := flags.mergeSort fun a b => a.name ≤ b.name
  let groups := match r with
    | .bare _ => [r.flags]
    | _ => [Flag.shared, r.flags.filter fun f => !Flag.shared.contains f]
  (groups.flatMap sorted).filter fun f => (given.lookup f.name).isNone

/-- The commands that begin like what is typed. -/
def commandsLike (typed : String) : List (String × String) :=
  Topic.commands.filter (·.1.startsWith typed)

/-- What may stand in place of an argument that is no flag. -/
def words (r : Request) (rest : List String) (g : Goal) : Completion :=
  match r with
  | .bare _ => if g.flag.isNone && rest.isEmpty then ⟨commandsLike g.typed, .noFiles⟩ else {}
  | .help _ =>
    match findCommand rest with
    | .ok (.bare _) => ⟨commandsLike g.typed, .noFiles⟩
    | _ => { directive := .noFiles }
  | _ => {}

/-- Whether what is typed is the beginning of a flag. -/
def startsFlag (typed : String) : Bool :=
  typed.startsWith "-" && !typed.contains '='

/-- **What may stand in place of the last argument**, given those before it. -/
def find (before : List String) (last : String) : Completion :=
  match findCommand before with
  | .error _ => {}
  | .ok (.complete describe arguments) =>
    if startsFlag last then
      ⟨(flagsLeft (.complete describe arguments) []).flatMap (writings last), .noFiles⟩
    else {}
  | .ok r =>
    let g := goal r.flags r.arguments last
    match Arguments.read r.flags g.before {}, Arguments.read r.flags (g.before ++ ["--"]) {} with
    | .ok a, .ok closed =>
      -- After two dashes nothing is a flag any more, and two more count as an argument.
      let canBeFlag := closed.rest.length ≤ a.rest.length
      if g.isStray && canBeFlag then {}
      else if ["help", "version"].any fun name => (a.given.lookup name).isSome then
        { directive := .noFiles }
      else if g.flag.isSome && canBeFlag then {}
      else if g.flag.isNone && canBeFlag && startsFlag g.typed then
        ⟨(flagsLeft r a.given).flatMap (writings g.typed), .noFiles⟩
      else words r a.rest g
    | _, _ => {}

/-- The lines of an answer, with the explanations or without. -/
def lines (describe : Bool) (c : Completion) : List String :=
  c.choices.map (fun (text, purpose) => if describe then text ++ "\t" ++ purpose else text) ++
    [":" ++ toString c.directive.number]

/-- What is said to whoever looks at an answer. -/
def asides (c : Completion) : List String :=
  ["Completion ended with directive: " ++ c.directive.name]

end Completion

end Outliner
