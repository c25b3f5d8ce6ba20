/-
The rules of the grammar.

The rules call each other, and the loops of the grammar are rules that call themselves. `Rules.next`
says what a rule does if it is known what the rules do that it calls. How deep the calls go is bounded by the
number of tokens: it is counted down, and `Rule.budget` is deep enough.

A broken statement is skipped to its end, so that the statements after it are read as if nothing had
happened.
-/
import Wordstack.Tree.Operator
import Wordstack.Tree.Outline
import Wordstack.Tree.Rule

namespace Wordstack

/-- A call of a rule that may come back to itself. -/
inductive Call : Type → Type
  /-- An expression whose operators have at least the given left power. -/
  | expr (power : Nat) : Call Expr
  /-- What follows an operand. -/
  | operators (power : Nat) (left : Expr) : Call Expr
  | operand : Call Expr
  /-- The arguments of a call, after its opening parenthesis. -/
  | arguments (start : Token) (close : TokenKind) : Call (List Expr)
  /-- The expressions between brackets, of which there must be one, after the opening bracket. -/
  | indices (start : Token) : Call (List Expr)
  /-- Expressions separated by commas, up to and with a closing token. -/
  | members (start : Token) (close : TokenKind) : Call (List Expr)
  | typeExpr : Call TypeExpr
  /-- The parameters of a function type, after its opening parenthesis. -/
  | parameters (start : Token) : Call (List Param)
  | parameterList : Call (List Param)
  | parameter : Call Param
  /-- Types separated by commas. -/
  | types : Call (List TypeExpr)
  /-- Expressions separated by commas; a broken one ends them. -/
  | exprs (power : Nat) : Call (List Expr)
  /-- The segments of a path, with dots between them. -/
  | path (start : Token) : Call (List Name)
  | names : Call (List Token)
  /-- The variants of an enumeration, up to and with the closing brace. -/
  | variants (name : Token) : Call (List Name)
  /-- The members of a list after its first one; the list goes on behind a broken member. -/
  | furtherMembers : Call (List Expr)
  /-- A statement; a broken one is skipped to its end. -/
  | statement : Call Stmt
  | statementForm : Call Stmt
  | ifStatement : Call Stmt
  | whileStatement : Call Stmt
  /-- Statements up to and with the brace that closes `start`. -/
  | blockBody (start : Token) : Call (List Stmt)
  /-- The declaration of a single name, which a colon follows. -/
  | declaration : Call Stmt
  | record (kind : RecordKind) (name : Token) : Call Stmt
  /-- The fields of a record, up to and with the closing brace. -/
  | fields (name : Token) : Call (List Stmt)
  /-- Items up to the end of the text. -/
  | items : Call (List Stmt)

/-- What rules do when they are called. -/
structure Rules where
  call : ∀ {α : Type}, Call α → Rule α

instance : CoeFun Rules fun _ => ∀ {α : Type}, Call α → Rule α := ⟨Rules.call⟩

/-! ## Rules that call no others -/

namespace Rule

/-- How deep rules may call each other on a text with so many tokens. -/
def budget (tokens : Nat) : Nat := 8 * (tokens + 2)

def missingExpr : Rule Expr := return .missing (← unexpected .expression)

def missingType : Rule TypeExpr := return .missing (← unexpected .type)

def missingDeclaration : Rule Stmt := return .missing (← unexpected .declaration)

/-- Whether names separated by commas come up, and a colon after them. -/
def declaresMany : List Token → Bool
  | name :: next :: rest =>
    name.isIdent && (next.isSymbol .colon || next.isSymbol .comma && declaresMany rest)
  | _ => false

/-- The start of a list in braces. -/
def openBrace : Rule Bool := do
  if ← expect (.symbol .assign) then expect (.symbol .curlyOpen)
  else return false

def loopExit (exit : LoopExit) : Rule Stmt := do
  let t ← bump
  let _ ← expect (.symbol .semicolon)
  return .exit exit t

end Rule

namespace Rules

open Rule

/-! ## Rules that do not come back to themselves -/

section

variable (r : Rules)

def typeList : Rule TypeList := do
  let start ← peek
  return ⟨start, ← r .types⟩

def exprList (power : Nat) : Rule ExprList := do
  let start ← peek
  return ⟨start, ← r (.exprs power)⟩

def useDeclaration : Rule Stmt := do
  let start ← bump
  let segments ← r (.path start)
  let alias? ← do
    if ← eat (.keyword .asWord) then
      match ← expect? .ident with
      | some t => pure (some (Name.ident t))
      | none => pure (some (Name.missing start))
    else pure none
  let _ ← expect (.symbol .semicolon)
  return .use start segments alias?

def manyDeclaration : Rule Stmt := do
  let start ← peek
  let ts ← r .names
  let _ ← bump
  let types ← r.typeList
  let broken ← isRecovering
  if !broken && (← eat (.symbol .assign)) then
    let values ← r.exprList memberPower
    let _ ← expect (.symbol .semicolon)
    return .declareManyAs start ts types values
  else
    let _ ← expect (.symbol .semicolon)
    return .declareMany start ts types

/-- What follows the name and the colon, if no word says what is declared. -/
def typedDeclaration (name : Token) : Rule Stmt := do
  let ty ← r .typeExpr
  if ← isRecovering then return .declare name ty
  else if ← eat (.symbol .assign) then
    let t ← peek
    if ← eat (.symbol .curlyOpen) then
      let body ← r (.blockBody t)
      let _ ← eat (.symbol .semicolon)
      return .define name ty t body
    else
      let value ← r (.expr 0)
      let _ ← expect (.symbol .semicolon)
      return .declareAs name ty value
  else
    let _ ← expect (.symbol .semicolon)
    return .declare name ty

/-- The fields of a record from the token `t` on, which does not close it. -/
def furtherFields (name t : Token) : Rule (List Stmt) := do
  if t.isIdent && (← peekSecond).isSymbol .colon then
    let field ← r .declaration
    if ← isRecovering then skipStatement
    let rest ← r (.fields name)
    return field :: rest
  else
    let found ← unexpected .field
    advancing skipStatement
    let rest ← r (.fields name)
    return .missing found :: rest

def enumeration (name : Token) : Rule Stmt := do
  let _ ← bump
  if ← openBrace then
    let vs ← r (.variants name)
    let _ ← eat (.symbol .semicolon)
    return .enumeration name vs
  else return .enumeration name [.missing name]

/-- An expression, a list of them, or a swap. -/
def expression : Rule Stmt := do
  let start ← peek
  let first ← r (.expr 0)
  let more ← check (.symbol .comma)
  let broken ← isRecovering
  let stmt ←
    if more && !broken then do
      let es ← r .furtherMembers
      let targets : ExprList := ⟨start, first :: es⟩
      let t ← peek
      if ← eat (.symbol .assign) then
        let values ← r.exprList memberPower
        pure (Stmt.swap t targets values)
      else pure (Stmt.exprs start targets)
    else pure (Stmt.expr start first)
  let _ ← expect (.symbol .semicolon)
  return stmt

def returnStatement : Rule Stmt := do
  let t ← bump
  if ← check (.symbol .semicolon) then
    let _ ← expect (.symbol .semicolon)
    return .return t
  else
    let values ← r.exprList 0
    let _ ← expect (.symbol .semicolon)
    return .returnWith t values

def item : Rule Stmt := do
  let t ← peek
  match t.kind with
  | .keyword .useWord => r.useDeclaration
  | .ident =>
    let next ← peekSecond
    if next.isSymbol .colon then r .declaration
    else if next.isSymbol .comma then
      if declaresMany (← get).rest then r.manyDeclaration
      else
        let s ← r.expression
        match s with
        | .swap .. => return s
        | _ =>
          report (.misplaced s.span)
          return .misplaced t s
    else missingDeclaration
  | _ => missingDeclaration

/-- An item; a broken one is skipped to its end. -/
def itemOrSkip : Rule Stmt := do
  let s ← r.item
  if ← isRecovering then skipStatement
  return s

end

/-! ## One step -/

/-- The rules, if the calls that they make do what `r` says. -/
def next (r : Rules) : Rules where
  call
    | .expr power => do
      let first ← r .operand
      r (.operators power first)
    | .operators power left => do
      if ← isRecovering then return left
      else
        let t ← peek
        match t.kind with
        | .symbol .parenOpen =>
          if callPower < power then return left
          else
            let _ ← bump
            let args ← r (.arguments t (.symbol .parenClose))
            r (.operators power (.call t left args))
        | .symbol .bracketOpen =>
          if callPower < power then return left
          else
            let _ ← bump
            let args ← r (.indices t)
            r (.operators power (.index t left args))
        | .symbol s =>
          match BinaryOp.ofSymbol? s with
          | none => return left
          | some op =>
            if op.powers.1 < power then return left
            else
              let _ ← bump
              let right ← r (.expr op.powers.2)
              r (.operators power (.binary op t left right))
        | _ => return left
    | .operand => do
      let t ← peek
      match t.kind with
      | .integer | .float | .string | .ident | .keyword .trueWord | .keyword .falseWord =>
        let _ ← bump
        return .atom t
      | .symbol .parenOpen =>
        let _ ← bump
        let inner ← r (.expr 0)
        if ← isRecovering then
          skipUntil (.symbol .parenClose)
          return inner
        else if ← expect (.symbol .parenClose) then return inner
        else
          skipUntil (.symbol .parenClose)
          return .unclosed inner
      | .keyword .castWord =>
        let _ ← bump
        if ← expect (.symbol .parenOpen) then
          let ty ← r .typeExpr
          if ← expect (.symbol .parenClose) then
            let e ← r (.expr castPower)
            return .cast t ty e
          else
            skipUntil (.symbol .parenClose)
            return .castOnly t ty
        else return .missing t
      | .error _ =>
        let _ ← bump
        report (.unexpected t .expression)
        return .missing t
      | .symbol s =>
        match UnaryOp.ofSymbol? s with
        | some op =>
          let _ ← bump
          let e ← r (.expr unaryPower)
          return .unary op t e
        | none => missingExpr
      | _ => missingExpr
    | .arguments start close => do
      if ← eat close then return []
      else r (.members start close)
    | .indices start => do
      if ← eat (.symbol .bracketClose) then
        report (.missingIndex start.span)
        return [.missing start]
      else r (.members start (.symbol .bracketClose))
    | .members start close => do
      let e ← r (.expr 0)
      if ← isRecovering then
        skipUntil close
        return [e]
      else if ← eat (.symbol .comma) then
        let es ← r (.members start close)
        return e :: es
      else if ← expect close then return [e]
      else
        skipUntil close
        return [e, .missing start]
    | .typeExpr => do
      let t ← peek
      match t.kind with
      | .symbol .caret =>
        let _ ← bump
        let target ← r .typeExpr
        return .pointer t target
      | .symbol .bracketOpen =>
        let _ ← bump
        if ← check (.symbol .bracketClose) then
          if ← expect (.symbol .bracketClose) then return .openArray t (← r .typeExpr)
          else return .openArray t (.missing t)
        else
          let length ← r (.expr 0)
          if ← expect (.symbol .bracketClose) then return .array t length (← r .typeExpr)
          else return .array t length (.missing t)
      | .primitive _ | .ident =>
        let _ ← bump
        return .name t
      | .symbol .parenOpen =>
        let _ ← bump
        let params ← r (.parameters t)
        if ← isRecovering then return .function t params
        else if ← eat (.symbol .arrow) then
          let start ← peek
          let returns ← r .types
          return .functionTo t params start returns
        else return .function t params
      | _ => missingType
    | .parameters start => do
      if ← check (.symbol .parenClose) then
        if ← expect (.symbol .parenClose) then return []
        else
          skipUntil (.symbol .parenClose)
          return []
      else
        let params ← r .parameterList
        if ← isRecovering then
          skipUntil (.symbol .parenClose)
          return params
        else if ← expect (.symbol .parenClose) then return params
        else
          skipUntil (.symbol .parenClose)
          return params ++ [.missing start]
    | .parameterList => do
      let p ← r .parameter
      if ← isRecovering then return [p]
      else if ← eat (.symbol .comma) then
        let ps ← r .parameterList
        return p :: ps
      else return [p]
    | .parameter => do
      match ← expect? .ident with
      | none => return .missing (← peek)
      | some name =>
        if ← expect (.symbol .colon) then return .named name (← r .typeExpr)
        else return .named name (.missing name)
    | .types => do
      let ty ← r .typeExpr
      if ← isRecovering then return [ty]
      else if ← eat (.symbol .comma) then
        let tys ← r .types
        return ty :: tys
      else return [ty]
    | .exprs power => do
      let e ← r (.expr power)
      if ← isRecovering then return [e]
      else if ← eat (.symbol .comma) then
        let es ← r (.exprs power)
        return e :: es
      else return [e]
    | .path start => do
      match ← expect? .ident with
      | none => return [.missing start]
      | some t =>
        if ← eat (.symbol .dot) then
          let rest ← r (.path start)
          return .ident t :: rest
        else return [.ident t]
    | .names => do
      let t ← bump
      if ← eat (.symbol .comma) then
        let ts ← r .names
        return t :: ts
      else return [t]
    | .variants name => do
      if ← eat (.symbol .curlyClose) then return []
      else
        match ← expect? .ident with
        | none =>
          skipUntil (.symbol .curlyClose)
          return [.missing name]
        | some t =>
          if ← eat (.symbol .comma) then
            let ts ← r (.variants name)
            return .ident t :: ts
          else if ← expect (.symbol .curlyClose) then return [.ident t]
          else
            skipUntil (.symbol .curlyClose)
            return [.ident t, .missing name]
    | .furtherMembers => do
      if ← eat (.symbol .comma) then
        let e ← r (.expr memberPower)
        let es ← r .furtherMembers
        return e :: es
      else return []
    | .statement => do
      let s ← r .statementForm
      if ← isRecovering then skipStatement
      return s
    | .statementForm => do
      let t ← peek
      match t.kind with
      | .symbol .curlyOpen =>
        let _ ← bump
        return .block t (← r (.blockBody t))
      | .symbol .semicolon =>
        let _ ← bump
        return .block t []
      | .keyword .useWord => r.useDeclaration
      | .keyword .ifWord => r .ifStatement
      | .keyword .whileWord => r .whileStatement
      | .keyword .returnWord => r.returnStatement
      | .keyword .breakWord => loopExit .leave
      | .keyword .continueWord => loopExit .again
      | .ident =>
        if (← peekSecond).isSymbol .colon then r .declaration
        else if declaresMany (← get).rest then r.manyDeclaration
        else r.expression
      | _ => r.expression
    | .ifStatement => do
      let t ← bump
      let condition ← r (.expr 0)
      if ← isRecovering then return .ifOnly t condition
      else
        let yes ← r .statement
        if ← eat (.keyword .elseWord) then
          let no ← r .statement
          return .ifElse t condition yes no
        else return .ifThen t condition yes
    | .whileStatement => do
      let t ← bump
      let condition ← r (.expr 0)
      if ← isRecovering then return .whileOnly t condition
      else
        let body ← r .statement
        return .while t condition body
    | .blockBody start => do
      let t ← peek
      match t.kind with
      | .symbol .curlyClose =>
        let _ ← bump
        return []
      | .eof =>
        report (.unclosedBrace start.span)
        return [.missing t]
      | _ =>
        let s ← advancing (r .statement)
        let rest ← r (.blockBody start)
        return s :: rest
    | .declaration => do
      let name ← bump
      let _ ← bump
      match (← peek).kind with
      | .keyword .structWord => r (.record .struct name)
      | .keyword .unionWord => r (.record .union name)
      | .keyword .enumWord => r.enumeration name
      | .keyword .externWord =>
        let _ ← bump
        let ty ← r .typeExpr
        let _ ← expect (.symbol .semicolon)
        return .external name ty
      | _ => r.typedDeclaration name
    | .record kind name => do
      let _ ← bump
      if ← openBrace then
        let fs ← r (.fields name)
        let _ ← eat (.symbol .semicolon)
        return .record kind name fs
      else return .record kind name [.missing name]
    | .fields name => do
      let t ← peek
      match t.kind with
      | .symbol .curlyClose =>
        let _ ← bump
        return []
      | .eof =>
        report (.unclosedBrace name.span)
        return [.missing t]
      | _ => r.furtherFields name t
    | .items => do
      if (← left) = 0 then return []
      else
        let s ← advancing r.itemOrSkip
        let rest ← r .items
        return s :: rest

/-! ## Depth -/

/-- What is left of the rules if they may not call each other any more. -/
def exhausted : Rules where
  call
    | .expr _ | .operators .. | .operand => missingExpr
    | .arguments .. | .indices _ | .members .. | .exprs _ => return [← missingExpr]
    | .typeExpr => missingType
    | .parameters _ | .parameterList => return [.missing (← unexpected .type)]
    | .parameter => return .missing (← unexpected .type)
    | .types => return [← missingType]
    | .path start => return [.missing start]
    | .variants name => return [.missing name]
    | .names => return []
    | .furtherMembers => return []
    | .statement | .statementForm | .ifStatement | .whileStatement | .declaration | .record .. => missingDeclaration
    | .blockBody _ | .fields _ => return [← missingDeclaration]
    | .items => return []

/-- The rules to a certain depth, with something in their place beyond it. -/
def ofDepth (cutoff : Rules) : Nat → Rules
  | 0 => cutoff
  | n + 1 => { call := fun c s => next (ofDepth cutoff n) c s }

/-- The rules to a certain depth. -/
def atDepth (n : Nat) : Rules := exhausted.ofDepth n

end Rules

namespace Rule

def expr (n power : Nat) : Rule Expr := Rules.atDepth n (.expr power)

def statement (n : Nat) : Rule Stmt := Rules.atDepth n .statement

def blockBody (n : Nat) (start : Token) : Rule (List Stmt) := Rules.atDepth n (.blockBody start)

def items (n : Nat) : Rule (List Stmt) := Rules.atDepth n .items

end Rule
end Wordstack
