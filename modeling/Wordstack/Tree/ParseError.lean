/-
What can be wrong with the form of a program.
-/
import Wordstack.Diagnostic
import Wordstack.Token

namespace Wordstack

/-- What should have stood where something else was found. -/
inductive Expectation
  | expression
  | type
  | declaration
  | field
  | token (kind : TokenKind)

def Expectation.text : Expectation → String
  | .expression => "an expression"
  | .type => "a type"
  | .declaration => "a declaration"
  | .field => "a field declaration"
  | .token kind => "`" ++ kind.describe ++ "`"

inductive ParseError
  | lexical (error : LexError) (span : Span)
  /-- A brace that the end of the text leaves open. -/
  | unclosedBrace (span : Span)
  | unexpected (found : Token) (expected : Expectation)
  | missingIndex (span : Span)
  /-- A list of expressions where only declarations and swaps may stand. -/
  | misplaced (span : Span)

namespace ParseError

/-- How a token that does not fit is called. -/
def nameOf (t : Token) : String :=
  match t.kind with
  | .eof => "end of file"
  | .error _ => "invalid token"
  | _ => "`" ++ t.text ++ "`"

def diagnostic : ParseError → Diagnostic
  | .lexical e s => { message := "Invalid token: " ++ e.message, labels := [("here", s)] }
  | .unclosedBrace s =>
    { message := "Found an unclosed delimiter: \x7b"
      help := some "Must be closed before: end of file"
      labels := [("unclosed delimiter", s)] }
  | .unexpected found expected =>
    { message := "Encountered unexpected input: " ++ nameOf found
      help := some ("Expected " ++ expected.text)
      labels := [("here", found.span)] }
  | .missingIndex s => { message := "Index expression is missing", labels := [("here", s)] }
  | .misplaced s =>
    { message := "Only declarations and swap assignments are allowed at the top level"
      labels := [("here", s)] }

end ParseError
end Wordstack
