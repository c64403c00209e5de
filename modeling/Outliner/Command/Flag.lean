import Outliner.Text.Number

/-!
# Flags

The named settings on a command line. A flag is written `--name value` or `--name=value`, and one
with a letter also `-l value`, `-lvalue` or `-l=value`. Flags and other arguments may be mixed;
after `--` everything is an argument. A flag with an implied value takes another value only after an
equals sign.
-/

namespace Outliner

/-- What values a flag takes. -/
inductive FlagKind where
  | text
  | number
  | truth
  deriving DecidableEq, Repr, Inhabited

/-- A flag that a command knows. -/
structure Flag where
  name : String
  kind : FlagKind := .text
  letter : Option Char := none
  /-- The value if it is not given. -/
  initial : String := ""
  /-- The value if it is given without one. -/
  implied : Option String := none
  /-- What it is for, in explanations. -/
  purpose : String := ""
  deriving DecidableEq, Repr, Inhabited

/-- What is wrong with the flags on a command line. -/
inductive FlagError where
  | badSyntax (argument : String)
  | unknown (name : String)
  | unknownLetter (byte : UInt8) (letters : String)
  | valueMissing (argument : String)
  | letterValueMissing (byte : UInt8) (letters : String)
  | badValue (value : String) (flag : Flag) (e : Text.NumberError)
  deriving DecidableEq, Repr

namespace Flag

/-- A flag for a number. -/
def number (name : String) (initial : Int) (purpose : String) : Flag :=
  { name := name, kind := .number, initial := toString initial, purpose := purpose }

/-- A flag that is off unless given. -/
def switch (name purpose : String) : Flag :=
  { name := name, kind := .truth, initial := "false", implied := some "true", purpose := purpose }

/-- The name of a flag in messages. -/
def display (f : Flag) : String :=
  match f.letter with
  | some l => "-" ++ String.singleton l ++ ", --" ++ f.name
  | none => "--" ++ f.name

/-- The value a flag gets from a text: numbers and truth values in one spelling. -/
def accept (f : Flag) (value : String) : Except FlagError String :=
  match f.kind with
  | .text => .ok value
  | .number =>
    match Text.readInteger 64 value with
    | .ok n => .ok (toString n)
    | .error e => .error (.badValue value f e)
  | .truth =>
    match Text.readBool value with
    | .ok b => .ok (if b then "true" else "false")
    | .error e => .error (.badValue value f e)

end Flag

namespace FlagError

/-- The wording of an error. -/
def message : FlagError → String
  | badSyntax argument => "bad flag syntax: " ++ argument
  | unknown name => "unknown flag: --" ++ name
  | unknownLetter byte letters =>
    "unknown shorthand flag: " ++ Text.quoteChar (Char.ofNat byte.toNat) ++ " in -" ++ letters
  | valueMissing argument => "flag needs an argument: " ++ argument
  | letterValueMissing byte letters =>
    "flag needs an argument: " ++ Text.quoteChar (Char.ofNat byte.toNat) ++ " in -" ++ letters
  | badValue value flag e =>
    "invalid argument " ++ Text.quote value ++ " for " ++ Text.quote flag.display ++ " flag: " ++
      e.message

end FlagError

/-- A command line taken apart: the flags given, the last one first, and the other arguments. -/
structure Arguments where
  given : List (String × String) := []
  rest : List String := []
  deriving DecidableEq, Repr, Inhabited

namespace Arguments

/-- Sets a flag. -/
def put (a : Arguments) (f : Flag) (value : String) : Except FlagError Arguments := do
  return { a with given := (f.name, ← f.accept value) :: a.given }

/-- Reads a flag given by name; `next` is the argument after it. Says whether that was taken for its
value. -/
def readLong (flags : List Flag) (argument : String) (text : List Char) (next : Option String)
    (a : Arguments) : Except FlagError (Arguments × Bool) := do
  let name := String.ofList (text.takeWhile (· ≠ '='))
  if text.isEmpty || text.head? = some '-' || text.head? = some '=' then
    .error (.badSyntax argument)
  else match flags.find? (·.name = name) with
    | none => .error (.unknown name)
    | some f =>
      match text.dropWhile (· ≠ '='), f.implied, next with
      | _ :: value, _, _ => return (← a.put f (String.ofList value), false)
      | [], some value, _ => return (← a.put f value, false)
      | [], none, some value => return (← a.put f value, true)
      | [], none, none => .error (.valueMissing argument)

/-- The first byte of a character. -/
def leadByte (c : Char) : UInt8 :=
  (String.utf8EncodeChar c).headD 0

/-- Reads flags given by letter. A letter that takes a value takes all that follows it. The word
`test.` with what follows it is passed over. -/
def readLetters (flags : List Flag) (next : Option String) :
    List Char → Arguments → Except FlagError (Arguments × Bool)
  | [], a | 't' :: 'e' :: 's' :: 't' :: '.' :: _, a => .ok (a, false)
  | c :: more, a =>
    match flags.find? (·.letter = some c) with
    | none => .error (.unknownLetter (leadByte c) (String.ofList (c :: more)))
    | some f =>
      match more, f.implied, next with
      | '=' :: d :: value, _, _ => do return (← a.put f (String.ofList (d :: value)), false)
      | more, some value, _ =>
        match a.put f value with
        | .ok a => readLetters flags next more a
        | .error e => .error e
      | d :: value, none, _ => do return (← a.put f (String.ofList (d :: value)), false)
      | [], none, some value => do return (← a.put f value, true)
      | [], none, none => .error (.letterValueMissing (leadByte c) (String.ofList [c]))

/-- Reads one argument that is a flag; `next` is the argument after it. -/
def readFlag (flags : List Flag) (argument : String) (next : Option String) (a : Arguments) :
    Except FlagError (Arguments × Bool) :=
  match argument.toList with
  | '-' :: '-' :: text => readLong flags argument text next a
  | '-' :: letters => readLetters flags next letters a
  | _ => .ok (a, false)

/-- Whether an argument is a flag. -/
def isFlag (argument : String) : Bool :=
  argument.startsWith "-" && argument.utf8ByteSize > 1

/-- **Takes a command line apart**, adding to what has been read before. -/
def read (flags : List Flag) : List String → Arguments → Except FlagError Arguments
  | [], a => .ok a
  | argument :: more, a =>
    if argument = "--" then .ok { a with rest := a.rest ++ more }
    else if !isFlag argument then read flags more { a with rest := a.rest ++ [argument] }
    else
      match more with
      | [] => (readFlag flags argument none a).map (·.1)
      | next :: later =>
        match readFlag flags argument (some next) a with
        | .error e => .error e
        | .ok (a, true) => read flags later a
        | .ok (a, false) => read flags (next :: later) a

end Arguments

end Outliner
