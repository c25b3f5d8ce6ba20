/-
Syntax trees of a source text. Each node keeps the token it was read from. A tree may
be broken: where something is missing a `missing` node stands in its place, and
a construct that was broken off has a constructor of its own for what is left of it.
-/
import Wordstack.Token

namespace Wordstack

inductive UnaryOp
  | neg | not | bitNot | deref | addressOf
deriving DecidableEq

def UnaryOp.text : UnaryOp → String
  | .neg => "-" | .not => "!" | .bitNot => "~" | .deref => "^" | .addressOf => "@"

inductive BinaryOp
  | assign | or | and
  | equals | notEquals | less | greater | lessEq | greaterEq
  | add | sub | mul | div | mod
  | shiftLeft | shiftRight | bitXor | bitOr | bitAnd
  | member
deriving DecidableEq

def BinaryOp.text : BinaryOp → String
  | .assign => "=" | .or => "||" | .and => "&&"
  | .equals => "==" | .notEquals => "!="
  | .less => "<" | .greater => ">" | .lessEq => "<=" | .greaterEq => ">="
  | .add => "+" | .sub => "-" | .mul => "*" | .div => "/" | .mod => "%"
  | .shiftLeft => "<<" | .shiftRight => ">>"
  | .bitXor => "^" | .bitOr => "|" | .bitAnd => "&"
  | .member => "."

mutual

inductive Expr
  | missing (token : Token)
  /-- A literal or a name. -/
  | atom (token : Token)
  | unary (op : UnaryOp) (token : Token) (operand : Expr)
  | binary (op : BinaryOp) (token : Token) (left right : Expr)
  | call (token : Token) (callee : Expr) (args : List Expr)
  | index (token : Token) (base : Expr) (args : List Expr)
  | cast (token : Token) (type : TypeExpr) (operand : Expr)
  /-- A cast that ends after its type. -/
  | castOnly (token : Token) (type : TypeExpr)
  /-- An expression in parentheses of which the closing one is missing. -/
  | unclosed (inner : Expr)

inductive TypeExpr
  | missing (token : Token)
  | name (token : Token)
  | pointer (token : Token) (target : TypeExpr)
  | array (token : Token) (length : Expr) (element : TypeExpr)
  /-- An array type without a length. -/
  | openArray (token : Token) (element : TypeExpr)
  | function (token : Token) (params : List Param)
  | functionTo (token : Token) (params : List Param) (start : Token) (returns : List TypeExpr)

inductive Param
  | missing (token : Token)
  | named (token : Token) (type : TypeExpr)

end

/-- Expressions separated by commas, with the token that the first one starts with. -/
structure ExprList where
  start : Token
  items : List Expr

/-- Types separated by commas, with the token that the first one starts with. -/
structure TypeList where
  start : Token
  items : List TypeExpr

/-- A place where only a name may stand. -/
inductive Name
  | missing (token : Token)
  | ident (token : Token)

def Name.token : Name → Token
  | .missing t | .ident t => t

/-- The two statements that leave the body of a loop. -/
inductive LoopExit
  | leave | again
deriving DecidableEq

inductive RecordKind
  | struct | union
deriving DecidableEq

/-- Statements, and the items of a whole text, which are statements too. -/
inductive Stmt
  | missing (token : Token)
  | block (token : Token) (body : List Stmt)
  /-- An `if` that ends after its condition. -/
  | ifOnly (token : Token) (condition : Expr)
  | ifThen (token : Token) (condition : Expr) (yes : Stmt)
  | ifElse (token : Token) (condition : Expr) (yes no : Stmt)
  /-- A `while` that ends after its condition. -/
  | whileOnly (token : Token) (condition : Expr)
  | while (token : Token) (condition : Expr) (body : Stmt)
  | return (token : Token)
  | returnWith (token : Token) (values : ExprList)
  | exit (exit : LoopExit) (token : Token)
  | expr (token : Token) (value : Expr)
  | exprs (token : Token) (values : ExprList)
  | swap (token : Token) (targets values : ExprList)
  /-- A statement where only declarations may stand. -/
  | misplaced (token : Token) (inner : Stmt)
  | declare (name : Token) (type : TypeExpr)
  | declareAs (name : Token) (type : TypeExpr) (value : Expr)
  | define (name : Token) (type : TypeExpr) (brace : Token) (body : List Stmt)
  | external (name : Token) (type : TypeExpr)
  | declareMany (start : Token) (names : List Token) (types : TypeList)
  | declareManyAs (start : Token) (names : List Token) (types : TypeList) (values : ExprList)
  | record (kind : RecordKind) (name : Token) (fields : List Stmt)
  | enumeration (name : Token) (variants : List Name)
  | use (token : Token) (path : List Name) (alias? : Option Name)

/-- The token that the node of an expression carries. -/
def Expr.token : Expr → Token
  | .missing t | .atom t | .unary _ t _ | .binary _ t _ _ | .call t _ _ | .index t _ _
  | .cast t _ _ | .castOnly t _ => t
  | .unclosed e => e.token

end Wordstack
