/-
Reading a source text as a list of items.
-/
import Wordstack.Tree.Grammar

namespace Wordstack

/-- The items of a text, in their order, and what is wrong with its form. -/
structure Parsed where
  roots : List Stmt
  errors : List ParseError

/-- Whether the text is well formed. -/
def Parsed.isSuccess (p : Parsed) : Bool := p.errors.isEmpty && !p.roots.any Stmt.isError

/-- Reads all of a token list. -/
def TokenList.parse (ts : TokenList) : Parsed :=
  let (roots, s) := Rule.items (Rule.budget ts.tokens.length) { rest := ts.tokens, stop := ts.stop }
  ⟨roots, s.errors⟩

def parse (source : String) : Parsed := (scan source).parse

end Wordstack
