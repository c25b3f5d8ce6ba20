/-
Recognising reserved words. A word is compared with all of them at once, column by
column: whoever differs in a column is out, and the word is reserved if one of exactly
its length is left at the end.
-/
import Wordstack.Token

namespace Wordstack.Keyword

def all : List Keyword :=
  [.useWord, .asWord, .ifWord, .elseWord, .whileWord, .returnWord, .breakWord, .continueWord,
   .castWord, .externWord, .structWord, .unionWord, .enumWord, .trueWord, .falseWord]

def primitives : List Primitive :=
  [.u8, .u16, .u32, .u64, .i8, .i16, .i32, .i64, .f32, .f64, .bool]

/-- Every reserved word with the kind of its token. -/
def table : List (List Char × TokenKind) :=
  all.map (fun k => (k.text.toList, .keyword k)) ++
  primitives.map (fun p => (p.text.toList, .primitive p))

/-- The candidates that agree with the rest of a word from `column` on. -/
def eliminate (candidates : List (List Char × TokenKind)) (column : Nat) :
    List Char → List (List Char × TokenKind)
  | [] => candidates
  | c :: cs =>
    match candidates.filter fun (spelling, _) => spelling[column]? == some c with
    | [] => []
    | rest => eliminate rest (column + 1) cs

/-- The kind of the reserved word `word`, if it is one. -/
def recognise? (word : List Char) : Option TokenKind :=
  ((eliminate table 0 word).find? fun (spelling, _) => spelling.length == word.length).map (·.2)

end Wordstack.Keyword
