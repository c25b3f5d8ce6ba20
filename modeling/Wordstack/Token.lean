/-
Tokens: what kinds there are, how each is called in a diagnostic, and the values
that literals carry.
-/
import Wordstack.Span
import Wordstack.Text.Quoted

namespace Wordstack

/-- The types that need no declaration. -/
inductive Primitive
  | u8 | u16 | u32 | u64 | i8 | i16 | i32 | i64 | f32 | f64 | bool
deriving DecidableEq

def Primitive.text : Primitive → String
  | .u8 => "u8" | .u16 => "u16" | .u32 => "u32" | .u64 => "u64"
  | .i8 => "i8" | .i16 => "i16" | .i32 => "i32" | .i64 => "i64"
  | .f32 => "f32" | .f64 => "f64" | .bool => "bool"

/-- Punctuation and operators. -/
inductive Symbol
  | parenOpen | parenClose | bracketOpen | bracketClose | curlyOpen | curlyClose
  | comma | colon | semicolon | dot | arrow
  | assign | plus | minus | star | slash | percent
  | equals | notEquals | less | greater | lessEq | greaterEq
  | andAnd | orOr | bang | tilde | at | caret | ampersand | pipe
  | shiftLeft | shiftRight
deriving DecidableEq

def Symbol.text : Symbol → String
  | .parenOpen => "(" | .parenClose => ")"
  | .bracketOpen => "[" | .bracketClose => "]"
  | .curlyOpen => "\x7b" | .curlyClose => "\x7d"
  | .comma => "," | .colon => ":" | .semicolon => ";" | .dot => "." | .arrow => "->"
  | .assign => "=" | .plus => "+" | .minus => "-" | .star => "*" | .slash => "/" | .percent => "%"
  | .equals => "==" | .notEquals => "!="
  | .less => "<" | .greater => ">" | .lessEq => "<=" | .greaterEq => ">="
  | .andAnd => "&&" | .orOr => "||" | .bang => "!" | .tilde => "~" | .at => "@"
  | .caret => "^" | .ampersand => "&" | .pipe => "|"
  | .shiftLeft => "<<" | .shiftRight => ">>"

/-- Reserved words other than the primitive types. -/
inductive Keyword
  | useWord | asWord | ifWord | elseWord | whileWord | returnWord | breakWord | continueWord
  | castWord | externWord | structWord | unionWord | enumWord | trueWord | falseWord
deriving DecidableEq

def Keyword.text : Keyword → String
  | .useWord => "use" | .asWord => "as" | .ifWord => "if" | .elseWord => "else"
  | .whileWord => "while" | .returnWord => "return" | .breakWord => "break"
  | .continueWord => "continue" | .castWord => "cast" | .externWord => "extern"
  | .structWord => "struct" | .unionWord => "union" | .enumWord => "enum"
  | .trueWord => "true" | .falseWord => "false"

/-- Why some characters form no token. -/
inductive LexError
  | unterminatedString
  | oversizedToken
  | missingDigits
  | unexpectedChar (c : Char)
deriving DecidableEq

def LexError.message : LexError → String
  | .unterminatedString => "unterminated string literal"
  | .oversizedToken => "token is too large"
  | .missingDigits => "number prefix without digits"
  | .unexpectedChar c => "unexpected character " ++ Text.quoteChar c

inductive TokenKind
  | symbol (s : Symbol)
  | keyword (k : Keyword)
  | primitive (p : Primitive)
  | integer
  | float
  | string
  | ident
  | eof
  | error (e : LexError)
deriving DecidableEq

/-- How a kind of token is called where one is expected. -/
def TokenKind.describe : TokenKind → String
  | .symbol s => s.text
  | .keyword k => k.text
  | .primitive p => p.text
  | .integer => "integer literal"
  | .float => "float literal"
  | .string => "string literal"
  | .ident => "identifier"
  | .eof => "end of file"
  | .error _ => "invalid token"

/-- The value of a literal. A fraction is kept as the bits of its double. -/
inductive Literal
  | none
  | unsigned (value : UInt64)
  | float (bits : UInt64)
  | text (contents : String)
deriving DecidableEq

structure Token where
  kind : TokenKind
  /-- The characters of the source that the token stands for. -/
  text : String
  span : Span
  literal : Literal := .none
deriving DecidableEq

namespace Token

/-- The name of an identifier or the contents of a string literal. -/
def payload? (t : Token) : Option String :=
  match t.literal with
  | .text s => some s
  | _ => none

def isSymbol (t : Token) (s : Symbol) : Bool := t.kind == .symbol s

def isIdent (t : Token) : Bool := t.kind == .ident

end Token
end Wordstack
