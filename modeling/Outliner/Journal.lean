import Outliner.Cut

/-!
# The journal

What happens on the way to a result and is worth telling someone who looks for the reason of it:
ranges that had to be passed over, candidates better than the ones before, and routines that were
split.
-/

namespace Outliner

/-- Why a range is passed over. -/
inductive SkipReason where
  | untracked (e : TrackError)
  | uncut (fault : CutFault)
  deriving Repr

namespace SkipReason

/-- The wording of a reason. -/
def message : SkipReason → String
  | untracked e => e.message
  | uncut fault => fault.message

end SkipReason

/-- An entry of the journal. -/
inductive Note where
  /-- The range from `start` to `stop` is passed over. -/
  | skipped (reason : SkipReason) (start stop : Int)
  /-- A candidate is longer than all before it. -/
  | candidate (start length : Int)
  /-- A routine was split; the last two numbers count the instructions of its two parts. -/
  | split (routine : String) (start length : Int) (trimmed extracted : Nat)
  deriving Repr

/-- The value of a field of an entry. -/
inductive NoteValue where
  | text (s : String)
  | number (n : Int)
  deriving DecidableEq, Repr

namespace Note

/-- The heading of an entry. -/
def message : Note → String
  | skipped _ _ _ => "skipping range"
  | candidate _ _ => "candidate"
  | split _ _ _ _ _ => "split routine"

/-- The fields of an entry, in the order in which they are noted. -/
def fields : Note → List (String × NoteValue)
  | skipped reason start stop =>
    [("error", .text reason.message), ("start", .number start), ("end", .number stop)]
  | candidate start length => [("start", .number start), ("length", .number length)]
  | split routine start length trimmed extracted =>
    [("routine", .text routine), ("start", .number start), ("length", .number length),
      ("trimmed", .number trimmed), ("extracted", .number extracted)]

end Note

end Outliner
