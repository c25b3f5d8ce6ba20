/-
Cutting a source text into tokens. `lexeme` says what the token at the head of a
text is and how far it reaches; it never fails, characters that fit nothing become
error tokens. A `Cursor` keeps the rest of the text and the place where it starts.
-/
import Wordstack.Token.Keyword
import Wordstack.Token.Number

namespace Wordstack

/-- A token without its place: its kind, its value, and how many characters follow the first. -/
structure Lexeme where
  kind : TokenKind
  literal : Literal := .none
  more : Nat := 0

namespace Lexeme

/-- The longest word, in bytes. -/
def maxWord : Nat := 256

def isWordStart (c : Char) : Bool := c.isAlpha || c == '_'

def isWordPart (c : Char) : Bool := c.isAlphanum || c == '_'

/-- An identifier or a reserved word. -/
def word (c : Char) (cs : List Char) : Lexeme :=
  let tail := cs.takeWhile isWordPart
  if tail.length + 1 > maxWord then ⟨.error .oversizedToken, .none, tail.length⟩
  else
    match Keyword.recognise? (c :: tail) with
    | some (.keyword .trueWord) => ⟨.keyword .trueWord, .unsigned 1, tail.length⟩
    | some (.keyword .falseWord) => ⟨.keyword .falseWord, .unsigned 0, tail.length⟩
    | some kind => ⟨kind, .none, tail.length⟩
    | none => ⟨.ident, .text (String.ofList (c :: tail)), tail.length⟩

/-- A whole number whose digits start after `skipped` characters. -/
def whole (base skipped : Nat) (digits : List Nat) : Lexeme :=
  let last := skipped + digits.length - 1
  if digits.isEmpty then ⟨.error .missingDigits, .none, last⟩
  else if digits.length > Number.maxDigits then ⟨.error .oversizedToken, .none, last⟩
  else
    match Number.value? base digits with
    | none => ⟨.error .oversizedToken, .none, last⟩
    | some v => ⟨.integer, .unsigned v, last⟩

/-- A decimal number: a point that a digit follows starts its fraction. -/
def decimal (cs : List Char) : Lexeme :=
  let digits := Number.digits 10 cs
  let integer := whole 10 0 digits
  match integer.literal, cs.drop digits.length with
  | .unsigned v, '.' :: rest =>
    let fraction := Number.digits 10 rest
    let last := digits.length + fraction.length
    if fraction.isEmpty then integer
    else if fraction.length > Number.maxDigits then ⟨.error .oversizedToken, .none, last⟩
    else ⟨.float, .float (Number.decimal v fraction).toBits, last⟩
  | _, _ => integer

/-- A number whose first digit is `c`; `0x` and `0b` choose another base. -/
def number (c : Char) (cs : List Char) : Lexeme :=
  match c, cs with
  | '0', x :: rest =>
    if x = 'x' ∨ x = 'X' then whole 16 2 (Number.digits 16 rest)
    else if x = 'b' ∨ x = 'B' then whole 2 2 (Number.digits 2 rest)
    else decimal (c :: cs)
  | _, _ => decimal (c :: cs)

/-- How many characters stand before the quote that ends a string literal. A backslash takes the
character after it along, so that a quote can be part of the literal. -/
def untilQuote? : List Char → Option Nat
  | [] => none
  | '"' :: _ => some 0
  | '\\' :: _ :: cs => (untilQuote? cs).map (· + 2)
  | _ :: cs => (untilQuote? cs).map (· + 1)

/-- A string literal, after its opening quote. -/
def string (cs : List Char) : Lexeme :=
  match untilQuote? cs with
  | none => ⟨.error .unterminatedString, .none, cs.length⟩
  | some n => ⟨.string, .text (String.ofList (cs.take n)), n + 1⟩

/-- The symbol that `c` begins. Of two symbols the longer one is meant. -/
def symbol? (c : Char) (next : Option Char) : Option (Symbol × Nat) :=
  let pair (second : Char) (long short : Symbol) : Option (Symbol × Nat) :=
    if next = some second then some (long, 1) else some (short, 0)
  match c with
  | '(' => some (.parenOpen, 0)
  | ')' => some (.parenClose, 0)
  | '[' => some (.bracketOpen, 0)
  | ']' => some (.bracketClose, 0)
  | '\x7b' => some (.curlyOpen, 0)
  | '\x7d' => some (.curlyClose, 0)
  | ',' => some (.comma, 0)
  | ':' => some (.colon, 0)
  | ';' => some (.semicolon, 0)
  | '.' => some (.dot, 0)
  | '+' => some (.plus, 0)
  | '*' => some (.star, 0)
  | '/' => some (.slash, 0)
  | '%' => some (.percent, 0)
  | '~' => some (.tilde, 0)
  | '@' => some (.at, 0)
  | '^' => some (.caret, 0)
  | '-' => pair '>' .arrow .minus
  | '=' => pair '=' .equals .assign
  | '!' => pair '=' .notEquals .bang
  | '&' => pair '&' .andAnd .ampersand
  | '|' => pair '|' .orOr .pipe
  | '<' => if next = some '=' then some (.lessEq, 1) else pair '<' .shiftLeft .less
  | '>' => if next = some '=' then some (.greaterEq, 1) else pair '>' .shiftRight .greater
  | _ => none

/-- The token at the head of the text `c :: cs`, which is neither blank nor a comment. -/
def ofText (c : Char) (cs : List Char) : Lexeme :=
  if isWordStart c then word c cs
  else if c.isDigit then number c cs
  else if c = '"' then string cs
  else
    match symbol? c cs.head? with
    | some (s, more) => ⟨.symbol s, .none, more⟩
    | none => ⟨.error (.unexpectedChar c), .none, 0⟩

end Lexeme

/-! ## Between tokens -/

/-- What is being skipped. -/
inductive Gap
  | blank | lineComment | blockComment
deriving DecidableEq

def isBlank (c : Char) : Bool :=
  c == ' ' || c == '\t' || c == '\n' || c == '\x0c' || c == '\r'

/-- How many characters of white space and comments a text starts with. Block comments do not nest;
one that is left open reaches to the end. -/
def Gap.length : Gap → List Char → Nat
  | _, [] => 0
  | .blank, '/' :: '/' :: cs => Gap.length .lineComment cs + 2
  | .blank, '/' :: '*' :: cs => Gap.length .blockComment cs + 2
  | .blank, c :: cs => if isBlank c then Gap.length .blank cs + 1 else 0
  | .lineComment, c :: cs =>
    if c = '\n' then Gap.length .blank cs + 1 else Gap.length .lineComment cs + 1
  | .blockComment, '*' :: '/' :: cs => Gap.length .blank cs + 2
  | .blockComment, _ :: cs => Gap.length .blockComment cs + 1

/-! ## Cursors -/

/-- The part of a source text that is still to be read, and where it starts. -/
structure Cursor where
  rest : List Char
  pos : Position := {}

namespace Cursor

def ofSource (source : String) : Cursor := { rest := source.toList }

/-- Past the next `n` characters. -/
def skip (c : Cursor) (n : Nat) : Cursor := ⟨c.rest.drop n, c.pos.advance (c.rest.take n)⟩

/-- Past white space and comments. -/
def skipGap (c : Cursor) : Cursor := c.skip (Gap.length .blank c.rest)

/-- The token made of the next `n` characters. -/
def token (c : Cursor) (kind : TokenKind) (literal : Literal) (n : Nat) : Token where
  kind := kind
  text := String.ofList (c.rest.take n)
  span := ⟨c.pos, (c.skip n).pos⟩
  literal := literal

/-- The next token and the cursor behind it. At the end of the text that is the end-of-file token,
as often as it is asked for. -/
def next (c : Cursor) : Token × Cursor :=
  let c := c.skipGap
  match c.rest with
  | [] => (c.token .eof .none 0, c)
  | x :: xs =>
    let l := Lexeme.ofText x xs
    (c.token l.kind l.literal (l.more + 1), c.skip (l.more + 1))

/-- The part of `source` that starts at the byte offset of `pos`. -/
def seek (source : String) (pos : Position) : Cursor :=
  ⟨dropBytes pos.offset source.toList, pos⟩
where
  dropBytes : Nat → List Char → List Char
    | 0, cs => cs
    | _, [] => []
    | n + 1, c :: cs => dropBytes (n + 1 - c.utf8Size) cs

@[simp] theorem rest_skip (c : Cursor) (n : Nat) : (c.skip n).rest = c.rest.drop n := rfl

theorem length_skipGap_le (c : Cursor) : c.skipGap.rest.length ≤ c.rest.length := by
  simp [skipGap]

/-- A token takes at least one character, so reading tokens comes to an end. -/
theorem length_next_lt (c : Cursor) (h : c.skipGap.rest ≠ []) :
    c.next.2.rest.length < c.rest.length := by
  have hle := length_skipGap_le c
  simp only [next]
  split
  · contradiction
  next x xs heq =>
    simp only [rest_skip, List.length_drop, heq, List.length_cons]
    simp only [heq, List.length_cons] at hle
    omega

end Cursor

/-! ## Whole texts -/

/-- All tokens of a text, and the end-of-file token behind them. -/
structure TokenList where
  tokens : List Token
  stop : Token

def Cursor.tokens (c : Cursor) : TokenList :=
  if h : c.skipGap.rest = [] then ⟨[], c.next.1⟩
  else
    have := c.length_next_lt h
    let later := c.next.2.tokens
    ⟨c.next.1 :: later.tokens, later.stop⟩
termination_by c.rest.length

/-- The tokens of a source text. -/
def scan (source : String) : TokenList := (Cursor.ofSource source).tokens

end Wordstack
