import Outliner.Command.Verb

/-!
# Settings

The value of a flag comes from the command line if it is given there, else from the environment,
else it is the initial one. In the environment the name is in capitals, with underscores for dashes
and the name of the program in front; an empty value counts as none. A value from the environment
that is no number counts as 0, and one that is no truth value as false.
-/

namespace Outliner

/-- Where settings come from. -/
structure Settings where
  flags : List Flag
  given : List (String × String)
  environment : List (String × String)
  deriving Repr, Inhabited

/-- The name of a setting in the environment. -/
def environmentName (name : String) : String :=
  "MSPLIT_" ++ String.ofList (name.toList.map fun c => if c = '-' then '_' else c.toUpper)

/-- A number without the zeros after its point, if there are only zeros there. The argument is in
reverse, and so is the result. -/
def withoutPlaces (whole : List Char) : List Char → List Char
  | '0' :: rest =>
    match rest.dropWhile (· = '0') with
    | '.' :: rest => rest
    | _ => whole
  | '.' :: rest => withoutPlaces whole rest
  | _ => whole

namespace Settings

/-- The value of a setting. -/
def text (s : Settings) (name : String) : String :=
  match s.given.lookup name with
  | some value => value
  | none =>
    match (s.environment.lookup (environmentName name)).filter (· ≠ "") with
    | some value => value
    | none => ((s.flags.find? (·.name = name)).map Flag.initial).getD ""

/-- The value of a setting that is a number. -/
def number (s : Settings) (name : String) : Int :=
  let digits := (s.text name).toList.reverse
  match Text.readInteger 64 (String.ofList (withoutPlaces digits digits).reverse) with
  | .ok n => n
  | .error _ => 0

/-- The value of a setting that is a truth value. -/
def truth (s : Settings) (name : String) : Bool :=
  match Text.readBool (s.text name) with
  | .ok b => b
  | .error _ => false

end Settings

end Outliner
