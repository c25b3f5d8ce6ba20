/-
What all grammar rules are made of: looking at the next tokens, taking them, and
giving up on a statement. After an error a rule is in recovery: it reports nothing more,
and the statement that it belongs to is skipped.
-/
import Wordstack.Tree.ParseError
import Wordstack.Token.Scan

namespace Wordstack

structure ParseState where
  rest : List Token
  /-- The end-of-file token, which is never taken. -/
  stop : Token
  errors : List ParseError := []
  recovering : Bool := false

abbrev Rule := StateM ParseState

namespace Rule

def peek : Rule Token := do
  let s ← get
  return s.rest.headD s.stop

def peekSecond : Rule Token := do
  let s ← get
  return s.rest.tail.headD s.stop

def isRecovering : Rule Bool := return (← get).recovering

/-- How many tokens are left. -/
def left : Rule Nat := return (← get).rest.length

/-- The errors that taking a token reports. -/
def lexicalErrors (ts : List Token) : List ParseError :=
  ts.filterMap fun t =>
    match t.kind with
    | .error e => some (.lexical e t.span)
    | _ => none

/-- Takes the next `n` tokens. -/
def take (n : Nat) : Rule Unit :=
  modify fun s =>
    { s with rest := s.rest.drop n, errors := s.errors ++ lexicalErrors (s.rest.take n) }

/-- Takes the next token. -/
def bump : Rule Token := do
  let t ← peek
  take 1
  return t

def check (kind : TokenKind) : Rule Bool := return (← peek).kind == kind

/-- Takes the next token if it is of the given kind. -/
def eat (kind : TokenKind) : Rule Bool := do
  if ← check kind then
    take 1
    return true
  else return false

/-- Reports an error, unless one has been reported for this statement already. -/
def report (e : ParseError) : Rule Unit :=
  modify fun s =>
    { s with errors := if s.recovering then s.errors else s.errors ++ [e], recovering := true }

/-- Reports the next token, which is left where it is. -/
def unexpected (expected : Expectation) : Rule Token := do
  let found ← peek
  report (.unexpected found expected)
  return found

/-- Takes a token of the given kind or reports what stands there instead. In recovery nothing is
taken: the rest of the statement will be skipped. -/
def expect? (kind : TokenKind) : Rule (Option Token) := do
  if ← isRecovering then return none
  else
    let t ← peek
    if ← eat kind then return some t
    else
      let _ ← unexpected (.token kind)
      return none

def expect (kind : TokenKind) : Rule Bool := return (← expect? kind).isSome

/-! ## Recovery -/

/-- How many tokens belong to the rest of a statement inside `depth` braces: up to a semicolon
outside of all braces, up to the brace that closes the outermost one, or up to a brace that closes
one opened before the statement. -/
def statementLength : Nat → List Token → Nat
  | _, [] => 0
  | depth, t :: ts =>
    match t.kind, depth with
    | .symbol .semicolon, 0 => 1
    | .symbol .curlyOpen, d => statementLength (d + 1) ts + 1
    | .symbol .curlyClose, 0 => 0
    | .symbol .curlyClose, 1 =>
      if ts.head?.any (·.isSymbol .semicolon) then 2 else 1
    | .symbol .curlyClose, d + 2 => statementLength (d + 1) ts + 1
    | _, d => statementLength d ts + 1

/-- Gives up on the current statement and leaves recovery behind it. -/
def skipStatement : Rule Unit := do
  take (statementLength 0 (← get).rest)
  modify fun s => { s with recovering := false }

/-- How many tokens there are up to and with the first one of the given kind; inside of the statement
if there is none in it. -/
def lengthUntil (kind : TokenKind) : List Token → Nat
  | [] => 0
  | t :: ts =>
    if t.kind = kind then 1
    else if t.isSymbol .semicolon || t.isSymbol .curlyOpen || t.isSymbol .curlyClose then 0
    else lengthUntil kind ts + 1

/-- Skips to a token of the given kind and takes it, without leaving the statement. -/
def skipUntil (kind : TokenKind) : Rule Unit := do
  take (lengthUntil kind (← get).rest)

/-- Runs a rule; if it has taken nothing, takes a token, so that a loop over it gets on. -/
def advancing {α : Type} (rule : Rule α) : Rule α := do
  let before ← left
  let a ← rule
  if (← left) = before then take 1
  return a

end Rule
end Wordstack
