/-
What a stage of the compiler tells the writer of a program.
-/
import Wordstack.Span

namespace Wordstack

/-- A message with the regions that it points to. Everything but a warning is fatal. -/
structure Diagnostic where
  message : String
  help : Option String := none
  isWarning : Bool := false
  labels : List (String × Span)

end Wordstack
