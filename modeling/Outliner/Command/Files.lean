/-!
# Files

The files around a command as a value, with the ways in which reading and writing can fail. There is
one tree of directories. A command works in one of them, which has no name, and what it reads and
writes by relative paths lies there.

A path is walked step by step. Every step needs a directory to start from, also the steps `.` and
`..`, and a slash at the end asks for a directory. A directory exists as long as it is known or
there is something in it.
-/

namespace Outliner

/-- What is wrong with a path. -/
inductive FileFault where
  | missing
  | notDirectory
  | isDirectory
  | nameTooLong
  /-- A path with a zero character in it. -/
  | malformed
  | denied
  | other (text : String)
  deriving DecidableEq, Repr

namespace FileFault

/-- The wording of a fault. -/
def message : FileFault → String
  | missing => "no such file or directory"
  | notDirectory => "not a directory"
  | isDirectory => "is a directory"
  | nameTooLong => "file name too long"
  | malformed => "invalid argument"
  | denied => "permission denied"
  | other text => text

end FileFault

/-- Why a file cannot be read or written, with the step that failed. -/
structure FileError where
  step : String
  path : String
  fault : FileFault
  deriving DecidableEq, Repr

namespace FileError

/-- The wording of an error. -/
def message (e : FileError) : String :=
  e.step ++ " " ++ e.path ++ ": " ++ e.fault.message

end FileError

/-- A place in the tree: the names on the way to it from the root. -/
abbrev Place := List String

/-- What can stand at a place. -/
inductive FileNode where
  | directory
  | file (bytes : List UInt8)
  /-- A device that is always empty and drops what is written to it. -/
  | sink
  deriving DecidableEq, Repr

/-- The files, and the directories that are known besides those with something in them. -/
structure Files where
  entries : List (Place × FileNode) := []
  directories : List Place := []
  deriving Repr

namespace Files

/-- Where a command works. No path has an empty step, so this place is not reached by its name. -/
def home : Place := ["tmp", ""]

/-- What is found on every system: the usual directories, the device that drops everything, and some
files, of which only that they hold no document is of interest. -/
def surroundings : Files where
  entries := (["dev", "null"], .sink) ::
    ["group", "hostname", "hosts", "passwd"].map fun name => (["etc", name], .file [])
  directories := home ::
    [["bin"], ["boot"], ["home"], ["lib"], ["media"], ["mnt"], ["opt"], ["proc"], ["root"],
      ["run"], ["sbin"], ["srv"], ["sys"], ["usr", "bin"], ["usr", "include"], ["usr", "lib"],
      ["usr", "local", "bin"], ["usr", "sbin"], ["usr", "share"], ["var", "cache"], ["var", "lib"],
      ["var", "log"], ["var", "tmp"]]

/-- What stands at a place, if anything. -/
def node? (files : Files) (place : Place) : Option FileNode :=
  match files.entries.lookup place with
  | some node => some node
  | none =>
    if files.directories.any place.isPrefixOf ||
        files.entries.any (fun entry => place.isPrefixOf entry.1) then
      some .directory
    else none

/-- Puts something at a place. -/
def put (files : Files) (place : Place) (node : FileNode) : Files :=
  { files with entries := (place, node) :: files.entries.filter (·.1 ≠ place) }

/-! ### Paths -/

/-- The greatest number of bytes of a name. -/
def maxName : Nat := 255

/-- The number of bytes from which on a path is too long. -/
def maxPath : Nat := 4096

/-- The steps of a path. -/
def steps (path : String) : List String :=
  (path.splitOn "/").filter (· ≠ "")

/-- Where a path starts. -/
def startOf (path : String) : Place :=
  if path.startsWith "/" then [] else home

/-- Goes on from a place by some steps. What stands at the end is not looked at. -/
def walk (files : Files) : Place → List String → Except FileFault Place
  | here, [] => .ok here
  | here, step :: rest =>
    match files.node? here with
    | none => .error .missing
    | some .directory =>
      if step = "." then walk files here rest
      else if step = ".." then walk files here.dropLast rest
      else if maxName < step.utf8ByteSize then .error .nameTooLong
      else walk files (here ++ [step]) rest
    | some _ => .error .notDirectory

/-- The place that a path leads to by the steps given. -/
def locate (files : Files) (path : String) (steps : List String) : Except FileFault Place :=
  if path.contains '\x00' then .error .malformed
  else if path = "" then .error .missing
  else if maxPath ≤ path.utf8ByteSize then .error .nameTooLong
  else walk files (startOf path) steps

/-! ### Reading and writing -/

/-- Reads a file. A slash at the end of the path counts as one more step to the same place. -/
def read (files : Files) (path : String) : Except FileError (List UInt8) :=
  let fail (step : String) (fault : FileFault) : Except FileError (List UInt8) :=
    .error ⟨step, path, fault⟩
  match files.locate path (steps path ++ if path.endsWith "/" then ["."] else []) with
  | .error fault => fail "open" fault
  | .ok place =>
    match files.node? place with
    | none => fail "open" .missing
    | some .directory => fail "read" .isDirectory
    | some (.file bytes) => .ok bytes
    | some .sink => .ok []

/-- Writes a file, in place of one that is there. A path with a slash at the end never names a file,
whatever stands there, so of such a path only the way to its last name counts. -/
def write (files : Files) (path : String) (bytes : List UInt8) : Except FileError Files :=
  let fail (fault : FileFault) : Except FileError Files := .error ⟨"open", path, fault⟩
  let way := if path.endsWith "/" then (steps path).dropLast ++ ["."] else steps path
  match files.locate path way with
  | .error fault => fail fault
  | .ok place =>
    match files.node? place with
    | some .directory => fail .isDirectory
    | some .sink => .ok files
    | _ => .ok (files.put place (.file bytes))

/-! ### The working directory -/

/-- The files with the ones given, by path, in the working directory. -/
def ofList (named : List (String × List UInt8)) : Files :=
  named.foldl (fun files (path, bytes) => files.put (home ++ steps path) (.file bytes)) surroundings

/-- The files in the working directory by path. -/
def toList (files : Files) : List (String × List UInt8) :=
  files.entries.filterMap fun (place, node) =>
    match node with
    | .file bytes =>
      if home.isPrefixOf place then some ("/".intercalate (place.drop home.length), bytes) else none
    | _ => none

end Files

end Outliner
