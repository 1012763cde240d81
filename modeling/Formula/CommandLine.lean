import Formula.LineInput
import Formula.Request

/-!
# The command line

The program as a function of its arguments and its standard input.  What answers a request is told
how typed lines are edited (`LineReader`), and here it is told how lines are edited that do not come
from a terminal (`editedLines`).  No theorem depends on that.
-/

namespace Formula

/-- The lines of a text after their backspaces. -/
def editedLines : LineReader := fun input => (linesFrom [] input).map editLine

/-- Run the program with its arguments and the standard input. -/
def runProgram (arguments : List Text) (input : Text) : Outcome :=
  match Request.ofArguments? arguments with
  | some request => request.run editedLines input
  | none => ⟨.usage, [], []⟩

end Formula
