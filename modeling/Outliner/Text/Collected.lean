/-!
# Collected errors

Several errors that belong to one operation are reported together: a count, and then every error on
a line of its own, in the order in which they were found.
-/

namespace Outliner.Text

/-- The report of a list of error texts. -/
def collected (errors : List String) : String :=
  toString errors.length ++ (if errors.length = 1 then " error" else " errors") ++
    " occurred:\n\t* " ++ "\n\t* ".intercalate errors ++ "\n\n"

end Outliner.Text
