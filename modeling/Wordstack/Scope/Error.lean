/-
What can be wrong with the names that a program declares and the types that it
mentions.
-/
import Wordstack.Diagnostic

namespace Wordstack

inductive ScopeError
  | redefinition (name : String) (span first : Span)
  | prototypeAsType (name : String) (span prototype : Span)
  | functionAsType (name : String) (span function : Span)
  | notAType (name : String) (span declaration : Span)
  | blockInitializer (name : String) (span : Span)
  | functionBody (name : String) (span : Span)
  | externalNotFunction (name : String) (span : Span)
  | unknownType (name : String) (span : Span)
  | arrayLength (span : Span)
  | typeCount (names types : Nat) (span : Span)
  | invalidType (span : Span)
  | unusedPrototype (name : String) (span : Span)

namespace ScopeError

/-- A prototype without a body may be meant; all else is an error. -/
def isWarning : ScopeError → Bool
  | .unusedPrototype .. => true
  | _ => false

def message : ScopeError → String
  | .redefinition name .. => s!"`{name}` is already declared"
  | .prototypeAsType name .. => s!"The prototype `{name}` cannot be used as a type"
  | .functionAsType name .. => s!"The function `{name}` cannot be used as a type"
  | .notAType name .. => s!"`{name}` is not a type"
  | .blockInitializer name _ => s!"The variable `{name}` cannot be initialised with a block"
  | .functionBody name _ => s!"The function `{name}` needs a block as its body"
  | .externalNotFunction name _ =>
    s!"The external declaration `{name}` must have a function type"
  | .unknownType name _ => s!"Unknown type `{name}`"
  | .arrayLength _ => "Array lengths must be positive integer literals"
  | .typeCount names types _ => s!"Found {types} types for {names} names"
  | .invalidType _ => "Malformed type"
  | .unusedPrototype name _ => s!"The prototype `{name}` never receives a body"

def help : ScopeError → Option String
  | .blockInitializer .. => some "Only declarations with a function type take a block body"
  | .typeCount .. => some "Give either one type for all names or one type per name"
  | _ => none

def labels : ScopeError → List (String × Span)
  | .redefinition _ span first => [("declared again here", span), ("first declared here", first)]
  | .prototypeAsType _ span prototype =>
    [("used as a type here", span), ("prototype declared here", prototype)]
  | .functionAsType _ span function =>
    [("used as a type here", span), ("function declared here", function)]
  | .notAType _ span declaration =>
    [("used as a type here", span), ("declared here", declaration)]
  | .blockInitializer _ span => [("block initializer", span)]
  | .functionBody _ span => [("expected a block here", span)]
  | .externalNotFunction _ span => [("this type", span)]
  | .unknownType _ span => [("not declared anywhere", span)]
  | .arrayLength span => [("this length", span)]
  | .typeCount _ _ span => [("these types", span)]
  | .invalidType span => [("here", span)]
  | .unusedPrototype _ span => [("declared here", span)]

def diagnostic (e : ScopeError) : Diagnostic where
  message := e.message
  help := e.help
  isWarning := e.isWarning
  labels := e.labels

end ScopeError
end Wordstack
