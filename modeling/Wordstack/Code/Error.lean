/-
What can be wrong with the statements and expressions of a program.
-/
import Wordstack.Scope.Error

namespace Wordstack

inductive CodeError
  | unresolvedName (name : String) (span : Span)
  | notAValue (name : String) (span declaration : Span)
  | notAnLvalue (span : Span)
  | expectedValue (span : Span)
  | notCallable (span : Span)
  | prototypeWithoutBody (name : String) (span prototype : Span)
  | argumentCount (name : String) (expected found : Nat) (span : Span)
  | multipleReturns (name : String) (span : Span)
  | returnCount (expected found : Nat) (span : Span)
  | valueCount (expected found : Nat) (span : Span)
  | outsideLoop (keyword : String) (span : Span)
  | memberAccess (span : Span)
  | nestedFunction (name : String) (span : Span)
  | arrayInitializer (name : String) (span : Span)
  | indexCount (span : Span)
  /-- Something is wrong with the names of a block. -/
  | scope (error : ScopeError)

namespace CodeError

def message : CodeError → String
  | .unresolvedName name _ => s!"Cannot find `{name}` in this scope"
  | .notAValue name .. => s!"`{name}` is not a value"
  | .notAnLvalue _ => "Cannot assign to or take the address of this expression"
  | .expectedValue _ => "Expected an expression that produces a value"
  | .notCallable _ => "Only functions can be called by name"
  | .prototypeWithoutBody name .. => s!"The prototype `{name}` is called but never defined"
  | .argumentCount name expected found _ =>
    s!"`{name}` takes {expected} arguments but {found} were given"
  | .multipleReturns name _ => s!"The function `{name}` declares more than one return value"
  | .returnCount expected found _ => s!"Expected {expected} return values, found {found}"
  | .valueCount expected found _ => s!"Expected {expected} values, found {found}"
  | .outsideLoop keyword _ => s!"`{keyword}` outside of a loop"
  | .memberAccess _ => "Member access is not supported"
  | .nestedFunction .. => "Functions can only be declared at the top level"
  | .arrayInitializer name _ => s!"The array `{name}` cannot be initialised with a single value"
  | .indexCount _ => "Expected a single index"
  | .scope e => e.message

def help : CodeError → Option String
  | .notCallable _ => some "Indirect calls through pointers are not supported"
  | .multipleReturns .. => some "Multiple return values are not supported yet"
  | .scope e => e.help
  | _ => none

def labels : CodeError → List (String × Span)
  | .unresolvedName _ span => [("not found", span)]
  | .notAValue _ span declaration =>
    [("used as a value here", span), ("declared here", declaration)]
  | .notAnLvalue span => [("not an lvalue", span)]
  | .expectedValue span => [("produces no value", span)]
  | .notCallable span => [("not a function", span)]
  | .prototypeWithoutBody _ span prototype =>
    [("called here", span), ("prototype declared here", prototype)]
  | .argumentCount _ _ _ span => [("this call", span)]
  | .multipleReturns _ span => [("declared here", span)]
  | .returnCount _ _ span => [("this return", span)]
  | .valueCount _ _ span => [("these values", span)]
  | .outsideLoop _ span => [("not inside a loop", span)]
  | .memberAccess span => [("here", span)]
  | .nestedFunction _ span => [("nested function", span)]
  | .arrayInitializer _ span => [("this initializer", span)]
  | .indexCount span => [("here", span)]
  | .scope e => e.labels

def diagnostic : CodeError → Diagnostic
  | .scope e => e.diagnostic
  | e => { message := e.message, help := e.help, labels := e.labels }

end CodeError
end Wordstack
