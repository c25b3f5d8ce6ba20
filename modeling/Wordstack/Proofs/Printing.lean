/-
Trees as texts. The canonical text of a tree has a space between any two tokens. Operands
and members of lists stand in parentheses unless they are names or literals, and
conditions always do, so that nothing depends on the powers of operators.

Only a tree with nothing missing has such a text. A function type shows its results
only where nothing can be taken for a further result: a type that may show them anywhere
is `complete`, and it is `delimited` if its lists cannot run into each other.
-/
import Wordstack.Proofs.Scanning
import Wordstack.Tree

namespace Wordstack

/-! ## Tokens -/

def Symbol.token (s : Symbol) : Token := ⟨.symbol s, s.text, default, .none⟩

def Keyword.token (k : Keyword) : Token where
  kind := .keyword k
  text := k.text
  span := default
  literal := match k with
    | .trueWord => .unsigned 1
    | .falseWord => .unsigned 0
    | _ => .none

def Primitive.token (p : Primitive) : Token := ⟨.primitive p, p.text, default, .none⟩

/-- A name, as texts have it. -/
def Token.ofName (text : String) : Token := ⟨.ident, text, default, .text text⟩

def UnaryOp.symbol : UnaryOp → Symbol
  | .neg => .minus | .not => .bang | .bitNot => .tilde | .deref => .caret | .addressOf => .at

def BinaryOp.symbol : BinaryOp → Symbol
  | .assign => .assign | .or => .orOr | .and => .andAnd
  | .equals => .equals | .notEquals => .notEquals
  | .less => .less | .greater => .greater | .lessEq => .lessEq | .greaterEq => .greaterEq
  | .add => .plus | .sub => .minus | .mul => .star | .div => .slash | .mod => .percent
  | .shiftLeft => .shiftLeft | .shiftRight => .shiftRight
  | .bitXor => .caret | .bitOr => .pipe | .bitAnd => .ampersand
  | .member => .dot

def LoopExit.keyword : LoopExit → Keyword
  | .leave => .breakWord
  | .again => .continueWord

def RecordKind.keyword : RecordKind → Keyword
  | .struct => .structWord
  | .union => .unionWord

namespace Token

def isName (t : Token) : Bool := t.spelled && t.kind == .ident

def isTypeName (t : Token) : Bool :=
  t.spelled && match t.kind with
    | .ident | .primitive _ => true
    | _ => false

/-- A name or a literal. -/
def isAtom (t : Token) : Bool :=
  t.spelled && match t.kind with
    | .integer | .float | .string | .ident | .keyword .trueWord | .keyword .falseWord => true
    | _ => false

end Token

/-- Pieces of text with a symbol between any two of them. -/
def separated (s : Symbol) : List (List Token) → List Token
  | [] => []
  | [ts] => ts
  | ts :: ts' :: tss => ts ++ s.token :: separated s (ts' :: tss)

/-- The first of the tokens of a text that is not empty. -/
def firstOf (ts : List Token) : Token := ts.headD ⟨.eof, "", default, .none⟩

/-! ## Printing -/

/-- Puts the text of an expression into parentheses unless it is a name or a literal. -/
def Expr.wrap : Expr → List Token → List Token
  | .atom _, ts => ts
  | _, ts => Symbol.parenOpen.token :: (ts ++ [Symbol.parenClose.token])

mutual

def Expr.print : Expr → List Token
  | .atom t => [t.bare]
  | .unary op _ e => op.symbol.token :: e.wrap e.print
  | .binary op _ l r => l.wrap l.print ++ op.symbol.token :: r.wrap r.print
  | .call _ f args =>
    f.wrap f.print ++ Symbol.parenOpen.token :: (separated .comma (Expr.printEach args) ++ [Symbol.parenClose.token])
  | .index _ b args =>
    b.wrap b.print ++ Symbol.bracketOpen.token :: (separated .comma (Expr.printEach args) ++ [Symbol.bracketClose.token])
  | .cast _ ty e =>
    Keyword.castWord.token :: Symbol.parenOpen.token :: (ty.print ++ Symbol.parenClose.token :: e.wrap e.print)
  | .missing _ | .castOnly .. | .unclosed _ => []

/-- The members of a list. -/
def Expr.printEach : List Expr → List (List Token)
  | [] => []
  | e :: es => e.wrap e.print :: Expr.printEach es

def TypeExpr.print : TypeExpr → List Token
  | .name t => [t.bare]
  | .pointer _ ty => Symbol.caret.token :: ty.print
  | .array _ n ty => Symbol.bracketOpen.token :: (n.print ++ Symbol.bracketClose.token :: ty.print)
  | .openArray _ ty => Symbol.bracketOpen.token :: Symbol.bracketClose.token :: ty.print
  | .function _ ps => Symbol.parenOpen.token :: (separated .comma (Param.printEach ps) ++ [Symbol.parenClose.token])
  | .functionTo _ ps _ rs =>
    Symbol.parenOpen.token :: (separated .comma (Param.printEach ps) ++
      Symbol.parenClose.token :: Symbol.arrow.token :: separated .comma (TypeExpr.printEach rs))
  | .missing _ => []

def TypeExpr.printEach : List TypeExpr → List (List Token)
  | [] => []
  | ty :: tys => ty.print :: TypeExpr.printEach tys

def Param.print : Param → List Token
  | .named t ty => t.bare :: Symbol.colon.token :: ty.print
  | .missing _ => []

def Param.printEach : List Param → List (List Token)
  | [] => []
  | p :: ps => p.print :: Param.printEach ps

end

def ExprList.print (l : ExprList) : List Token := separated .comma (Expr.printEach l.items)

def TypeList.print (l : TypeList) : List Token := separated .comma (TypeExpr.printEach l.items)

def Name.print : Name → List Token
  | .ident t => [t.bare]
  | .missing _ => []

/-- Names with commas between them. -/
def printNames (ts : List Token) : List Token := separated .comma (ts.map fun t => [t.bare])

mutual

@[simp] def Stmt.print : Stmt → List Token
  | .block _ body => Symbol.curlyOpen.token :: (Stmt.printAll body ++ [Symbol.curlyClose.token])
  | .ifThen _ c yes =>
    Keyword.ifWord.token :: Symbol.parenOpen.token :: (c.print ++ Symbol.parenClose.token :: yes.print)
  | .ifElse _ c yes no =>
    Keyword.ifWord.token :: Symbol.parenOpen.token ::
      (c.print ++ Symbol.parenClose.token :: (yes.print ++ Keyword.elseWord.token :: no.print))
  | .while _ c body =>
    Keyword.whileWord.token :: Symbol.parenOpen.token :: (c.print ++ Symbol.parenClose.token :: body.print)
  | .return _ => [Keyword.returnWord.token, Symbol.semicolon.token]
  | .returnWith _ es => Keyword.returnWord.token :: (es.print ++ [Symbol.semicolon.token])
  | .exit e _ => [e.keyword.token, Symbol.semicolon.token]
  | .expr _ e => e.print ++ [Symbol.semicolon.token]
  | .exprs _ es => es.print ++ [Symbol.semicolon.token]
  | .swap _ targets values => targets.print ++ Symbol.assign.token :: (values.print ++ [Symbol.semicolon.token])
  | .declare name ty => name.bare :: Symbol.colon.token :: (ty.print ++ [Symbol.semicolon.token])
  | .declareAs name ty e =>
    name.bare :: Symbol.colon.token :: (ty.print ++ Symbol.assign.token :: (e.print ++ [Symbol.semicolon.token]))
  | .define name ty _ body =>
    name.bare :: Symbol.colon.token ::
      (ty.print ++ Symbol.assign.token :: Symbol.curlyOpen.token :: (Stmt.printAll body ++ [Symbol.curlyClose.token]))
  | .external name ty =>
    name.bare :: Symbol.colon.token :: Keyword.externWord.token :: (ty.print ++ [Symbol.semicolon.token])
  | .declareMany _ names types =>
    printNames names ++ Symbol.colon.token :: (types.print ++ [Symbol.semicolon.token])
  | .declareManyAs _ names types values =>
    printNames names ++
      Symbol.colon.token :: (types.print ++ Symbol.assign.token :: (values.print ++ [Symbol.semicolon.token]))
  | .record kind name fields =>
    name.bare :: Symbol.colon.token :: kind.keyword.token :: Symbol.assign.token :: Symbol.curlyOpen.token ::
      (Stmt.printAll fields ++ [Symbol.curlyClose.token])
  | .enumeration name variants =>
    name.bare :: Symbol.colon.token :: Keyword.enumWord.token :: Symbol.assign.token :: Symbol.curlyOpen.token ::
      (separated .comma (variants.map Name.print) ++ [Symbol.curlyClose.token])
  | .use _ path alias? =>
    Keyword.useWord.token :: (separated .dot (path.map Name.print) ++
      ((alias?.map fun name => Keyword.asWord.token :: name.print).getD [] ++ [Symbol.semicolon.token]))
  | .missing _ | .ifOnly .. | .whileOnly .. | .misplaced .. => []

def Stmt.printAll : List Stmt → List Token
  | [] => []
  | s :: ss => s.print ++ Stmt.printAll ss

end

/-- The canonical text of the items of a program. -/
def Stmt.text (items : List Stmt) : String := String.intercalate " " ((Stmt.printAll items).map (·.text))

/-! ## Trees that can be printed -/

mutual

/-- Nothing is missing. -/
def Expr.printable : Expr → Bool
  | .atom t => t.isAtom
  | .unary _ _ e => e.printable
  | .binary _ _ l r => l.printable && r.printable
  | .call _ f args => f.printable && Expr.allPrintable args
  | .index _ b args => b.printable && !args.isEmpty && Expr.allPrintable args
  | .cast _ ty e => ty.printable && e.printable
  | .missing _ | .castOnly .. | .unclosed _ => false

def Expr.allPrintable : List Expr → Bool
  | [] => true
  | e :: es => e.printable && Expr.allPrintable es

/-- Nothing is missing, and no function type shows its results. -/
def TypeExpr.printable : TypeExpr → Bool
  | .name t => t.isTypeName
  | .pointer _ ty | .openArray _ ty => ty.printable
  | .array _ n ty => n.printable && ty.printable
  | .function _ ps => Param.allPrintable ps
  | .missing _ | .functionTo .. => false

def TypeExpr.allPrintable : List TypeExpr → Bool
  | [] => true
  | ty :: tys => ty.printable && TypeExpr.allPrintable tys

def Param.printable : Param → Bool
  | .named t ty => t.isName && ty.printable
  | .missing _ => false

def Param.allPrintable : List Param → Bool
  | [] => true
  | p :: ps => p.printable && Param.allPrintable ps

end

mutual

/-- Nothing is missing. -/
def TypeExpr.complete : TypeExpr → Bool
  | .name t => t.isTypeName
  | .pointer _ ty | .openArray _ ty => ty.complete
  | .array _ n ty => n.printable && ty.complete
  | .function _ ps => Param.allComplete ps
  | .functionTo _ ps _ rs => Param.allComplete ps && !rs.isEmpty && TypeExpr.allComplete rs
  | .missing _ => false

def TypeExpr.allComplete : List TypeExpr → Bool
  | [] => true
  | ty :: tys => ty.complete && TypeExpr.allComplete tys

def Param.complete : Param → Bool
  | .named t ty => t.isName && ty.complete
  | .missing _ => false

def Param.allComplete : List Param → Bool
  | [] => true
  | p :: ps => p.complete && Param.allComplete ps

end

/-- Whether the text of the type ends with the results of a function, so that a comma behind it goes on with them. -/
def TypeExpr.endsInResults : TypeExpr → Bool
  | .functionTo .. => true
  | .pointer _ ty | .openArray _ ty | .array _ _ ty => ty.endsInResults
  | .missing _ | .name _ | .function .. => false

def Param.endsInResults : Param → Bool
  | .named _ ty => ty.endsInResults
  | .missing _ => false

mutual

/-- Whether only the last member of any list of parameters or results ends in results. -/
def TypeExpr.delimited : TypeExpr → Bool
  | .pointer _ ty | .openArray _ ty | .array _ _ ty => ty.delimited
  | .function _ ps => Param.allDelimited ps
  | .functionTo _ ps _ rs => Param.allDelimited ps && TypeExpr.allDelimited rs
  | .missing _ | .name _ => true

def TypeExpr.allDelimited : List TypeExpr → Bool
  | [] => true
  | ty :: tys => ty.delimited && (tys.isEmpty || !ty.endsInResults) && TypeExpr.allDelimited tys

def Param.delimited : Param → Bool
  | .named _ ty => ty.delimited
  | .missing _ => true

def Param.allDelimited : List Param → Bool
  | [] => true
  | p :: ps => p.delimited && (ps.isEmpty || !p.endsInResults) && Param.allDelimited ps

end

/-- The type of a single name, which may be a function type with results. -/
def TypeExpr.printableAlone : TypeExpr → Bool
  | .functionTo _ ps _ rs => Param.allPrintable ps && !rs.isEmpty && TypeExpr.allPrintable rs
  | ty => ty.printable

def ExprList.printable (l : ExprList) : Bool := !l.items.isEmpty && Expr.allPrintable l.items

def TypeList.printable (l : TypeList) : Bool := !l.items.isEmpty && TypeExpr.allPrintable l.items

def Name.printable : Name → Bool
  | .ident t => t.isName
  | .missing _ => false

namespace Stmt

/-- Statements in braces. -/
def isBraced : Stmt → Bool
  | .block .. => true
  | _ => false

/-- What may follow `else`. -/
def isElseBranch : Stmt → Bool
  | .block .. | .ifThen .. | .ifElse .. => true
  | _ => false

/-- The declaration of a single name. -/
def isDeclaration : Stmt → Bool
  | .declare .. | .declareAs .. | .define .. | .external .. | .record .. | .enumeration .. => true
  | _ => false

/-- What may stand outside of functions. The first target of a swap has to be a name there. -/
def isItem : Stmt → Bool
  | .use .. | .declareMany .. | .declareManyAs .. => true
  | .swap _ ⟨_, .atom t :: _⟩ _ => t.isIdent
  | s => s.isDeclaration

end Stmt

mutual

/-- Nothing is missing, branches and loops have blocks, and a list has the members without which it would be read as
something else. -/
def Stmt.printable : Stmt → Bool
  | .block _ body => Stmt.allPrintable body
  | .ifThen _ c yes => c.printable && yes.isBraced && yes.printable
  | .ifElse _ c yes no => c.printable && yes.isBraced && yes.printable && no.isElseBranch && no.printable
  | .while _ c body => c.printable && body.isBraced && body.printable
  | .return _ | .exit .. => true
  | .returnWith _ es => es.printable
  | .expr _ e => e.printable
  | .exprs _ es => 2 ≤ es.items.length && es.printable
  | .swap _ targets values => 2 ≤ targets.items.length && targets.printable && values.printable
  | .declare name ty | .external name ty => name.isName && ty.printableAlone
  | .declareAs name ty e => name.isName && ty.printableAlone && e.printable
  | .define name ty _ body => name.isName && ty.printableAlone && Stmt.allPrintable body
  | .declareMany _ names types => 2 ≤ names.length && names.all Token.isName && types.printable
  | .declareManyAs _ names types values =>
    2 ≤ names.length && names.all Token.isName && types.printable && values.printable
  | .record _ name fields => name.isName && Stmt.allFields fields
  | .enumeration name variants => name.isName && variants.all Name.printable
  | .use _ path alias? => !path.isEmpty && path.all Name.printable && alias?.all Name.printable
  | .missing _ | .ifOnly .. | .whileOnly .. | .misplaced .. => false

def Stmt.allPrintable : List Stmt → Bool
  | [] => true
  | s :: ss => s.printable && Stmt.allPrintable ss

/-- The fields of a record are declarations. -/
def Stmt.allFields : List Stmt → Bool
  | [] => true
  | s :: ss => s.isDeclaration && s.printable && Stmt.allFields ss

end

/-! ## Tokens of trees -/

mutual

/-- The tree without the places of its tokens. -/
def Expr.bare : Expr → Expr
  | .missing t => .missing t.bare
  | .atom t => .atom t.bare
  | .unary op t e => .unary op t.bare e.bare
  | .binary op t l r => .binary op t.bare l.bare r.bare
  | .call t f args => .call t.bare f.bare (Expr.bareAll args)
  | .index t b args => .index t.bare b.bare (Expr.bareAll args)
  | .cast t ty e => .cast t.bare ty.bare e.bare
  | .castOnly t ty => .castOnly t.bare ty.bare
  | .unclosed e => .unclosed e.bare

def Expr.bareAll : List Expr → List Expr
  | [] => []
  | e :: es => e.bare :: Expr.bareAll es

def TypeExpr.bare : TypeExpr → TypeExpr
  | .missing t => .missing t.bare
  | .name t => .name t.bare
  | .pointer t ty => .pointer t.bare ty.bare
  | .array t n ty => .array t.bare n.bare ty.bare
  | .openArray t ty => .openArray t.bare ty.bare
  | .function t ps => .function t.bare (Param.bareAll ps)
  | .functionTo t ps start rs => .functionTo t.bare (Param.bareAll ps) start.bare (TypeExpr.bareAll rs)

def TypeExpr.bareAll : List TypeExpr → List TypeExpr
  | [] => []
  | ty :: tys => ty.bare :: TypeExpr.bareAll tys

def Param.bare : Param → Param
  | .missing t => .missing t.bare
  | .named t ty => .named t.bare ty.bare

def Param.bareAll : List Param → List Param
  | [] => []
  | p :: ps => p.bare :: Param.bareAll ps

end

def ExprList.bare (l : ExprList) : ExprList := ⟨l.start.bare, Expr.bareAll l.items⟩

def TypeList.bare (l : TypeList) : TypeList := ⟨l.start.bare, TypeExpr.bareAll l.items⟩

def Name.bare : Name → Name
  | .missing t => .missing t.bare
  | .ident t => .ident t.bare

mutual

@[simp] def Stmt.bare : Stmt → Stmt
  | .missing t => .missing t.bare
  | .block t body => .block t.bare (Stmt.bareAll body)
  | .ifOnly t c => .ifOnly t.bare c.bare
  | .ifThen t c yes => .ifThen t.bare c.bare yes.bare
  | .ifElse t c yes no => .ifElse t.bare c.bare yes.bare no.bare
  | .whileOnly t c => .whileOnly t.bare c.bare
  | .while t c body => .while t.bare c.bare body.bare
  | .return t => .return t.bare
  | .returnWith t es => .returnWith t.bare es.bare
  | .exit e t => .exit e t.bare
  | .expr t e => .expr t.bare e.bare
  | .exprs t es => .exprs t.bare es.bare
  | .swap t targets values => .swap t.bare targets.bare values.bare
  | .misplaced t s => .misplaced t.bare s.bare
  | .declare name ty => .declare name.bare ty.bare
  | .declareAs name ty e => .declareAs name.bare ty.bare e.bare
  | .define name ty brace body => .define name.bare ty.bare brace.bare (Stmt.bareAll body)
  | .external name ty => .external name.bare ty.bare
  | .declareMany start names types => .declareMany start.bare (names.map Token.bare) types.bare
  | .declareManyAs start names types values =>
    .declareManyAs start.bare (names.map Token.bare) types.bare values.bare
  | .record kind name fields => .record kind name.bare (Stmt.bareAll fields)
  | .enumeration name variants => .enumeration name.bare (variants.map Name.bare)
  | .use t path alias? => .use t.bare (path.map Name.bare) (alias?.map Name.bare)

def Stmt.bareAll : List Stmt → List Stmt
  | [] => []
  | s :: ss => s.bare :: Stmt.bareAll ss

end

mutual

/-- The same tree of names, literals and operators, with the tokens that its canonical text has. -/
def Expr.asPrinted : Expr → Expr
  | .atom t => .atom t.bare
  | .unary op _ e => .unary op op.symbol.token e.asPrinted
  | .binary op _ l r => .binary op op.symbol.token l.asPrinted r.asPrinted
  | .call _ f args => .call Symbol.parenOpen.token f.asPrinted (Expr.eachAsPrinted args)
  | .index _ b args => .index Symbol.bracketOpen.token b.asPrinted (Expr.eachAsPrinted args)
  | .cast _ ty e => .cast Keyword.castWord.token ty.asPrinted e.asPrinted
  | e => e

def Expr.eachAsPrinted : List Expr → List Expr
  | [] => []
  | e :: es => e.asPrinted :: Expr.eachAsPrinted es

def TypeExpr.asPrinted : TypeExpr → TypeExpr
  | .name t => .name t.bare
  | .pointer _ ty => .pointer Symbol.caret.token ty.asPrinted
  | .array _ n ty => .array Symbol.bracketOpen.token n.asPrinted ty.asPrinted
  | .openArray _ ty => .openArray Symbol.bracketOpen.token ty.asPrinted
  | .function _ ps => .function Symbol.parenOpen.token (Param.eachAsPrinted ps)
  | .functionTo _ ps _ rs =>
    .functionTo Symbol.parenOpen.token (Param.eachAsPrinted ps) (firstOf (separated .comma (TypeExpr.printEach rs)))
      (TypeExpr.eachAsPrinted rs)
  | ty => ty

def TypeExpr.eachAsPrinted : List TypeExpr → List TypeExpr
  | [] => []
  | ty :: tys => ty.asPrinted :: TypeExpr.eachAsPrinted tys

def Param.asPrinted : Param → Param
  | .named t ty => .named t.bare ty.asPrinted
  | p => p

def Param.eachAsPrinted : List Param → List Param
  | [] => []
  | p :: ps => p.asPrinted :: Param.eachAsPrinted ps

end

def ExprList.asPrinted (l : ExprList) : ExprList := ⟨firstOf l.print, Expr.eachAsPrinted l.items⟩

def TypeList.asPrinted (l : TypeList) : TypeList := ⟨firstOf l.print, TypeExpr.eachAsPrinted l.items⟩

mutual

/-- The same tree with the tokens that its canonical text has. -/
@[simp] def Stmt.asPrinted : Stmt → Stmt
  | .block _ body => .block Symbol.curlyOpen.token (Stmt.eachAsPrinted body)
  | .ifThen _ c yes => .ifThen Keyword.ifWord.token c.asPrinted yes.asPrinted
  | .ifElse _ c yes no => .ifElse Keyword.ifWord.token c.asPrinted yes.asPrinted no.asPrinted
  | .while _ c body => .while Keyword.whileWord.token c.asPrinted body.asPrinted
  | .return _ => .return Keyword.returnWord.token
  | .returnWith _ es => .returnWith Keyword.returnWord.token es.asPrinted
  | .exit e _ => .exit e e.keyword.token
  | .expr _ e => .expr (firstOf e.print) e.asPrinted
  | .exprs _ es => .exprs (firstOf es.print) es.asPrinted
  | .swap _ targets values => .swap Symbol.assign.token targets.asPrinted values.asPrinted
  | .declare name ty => .declare name.bare ty.asPrinted
  | .declareAs name ty e => .declareAs name.bare ty.asPrinted e.asPrinted
  | .define name ty _ body => .define name.bare ty.asPrinted Symbol.curlyOpen.token (Stmt.eachAsPrinted body)
  | .external name ty => .external name.bare ty.asPrinted
  | .declareMany _ names types => .declareMany (firstOf (printNames names)) (names.map Token.bare) types.asPrinted
  | .declareManyAs _ names types values =>
    .declareManyAs (firstOf (printNames names)) (names.map Token.bare) types.asPrinted values.asPrinted
  | .record kind name fields => .record kind name.bare (Stmt.eachAsPrinted fields)
  | .enumeration name variants => .enumeration name.bare (variants.map Name.bare)
  | .use _ path alias? => .use Keyword.useWord.token (path.map Name.bare) (alias?.map Name.bare)
  | s => s

def Stmt.eachAsPrinted : List Stmt → List Stmt
  | [] => []
  | s :: ss => s.asPrinted :: Stmt.eachAsPrinted ss

end

end Wordstack
