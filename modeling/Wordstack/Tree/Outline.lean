/-
One shape for all trees: a node with a kind, a token, the place it takes under its
parent, and its children. Printing, comparing and measuring trees is done on outlines.

A node is flawed if something below it is missing; `Outline.make` sees to that.
-/
import Wordstack.Tree

namespace Wordstack

inductive NodeKind
  | primary
  | unary (op : UnaryOp)
  | binary (op : BinaryOp)
  | call | index | cast | exprList | swap
  | block | ifStmt | whileStmt | returnStmt | breakStmt | continueStmt | exprStmt
  | declaration | externDeclaration | multiDeclaration | structDecl | unionDecl | enumDecl
  | typeName | pointerType | arrayType | functionType | paramList | param | typeList
  | useDecl
  | error
deriving DecidableEq

/-- The place of a node under its parent. -/
inductive Slot
  | root | left | center | right | list
deriving DecidableEq

inductive Outline
  | node (slot : Slot) (kind : NodeKind) (token : Token) (flawed : Bool) (children : List Outline)

namespace Outline

def slot : Outline → Slot
  | .node s _ _ _ _ => s

def kind : Outline → NodeKind
  | .node _ k _ _ _ => k

def token : Outline → Token
  | .node _ _ t _ _ => t

def flawed : Outline → Bool
  | .node _ _ _ f _ => f

def children : Outline → List Outline
  | .node _ _ _ _ cs => cs

/-- Whether the node is missing or something below it is. -/
def isError (o : Outline) : Bool := o.kind == .error || o.flawed

/-- A node over its children: flawed if one of them is in error. -/
def make (slot : Slot) (kind : NodeKind) (token : Token) (children : List Outline := []) :
    Outline :=
  .node slot kind token (children.any isError) children

/-- The same node, flawed by itself. -/
def flaw : Outline → Outline
  | .node s k t _ cs => .node s k t true cs

/-! ## Regions -/

mutual

/-- The region that a node covers together with everything below it. -/
def span : Outline → Span
  | .node _ _ t _ cs => spanFrom t.span cs

def spanFrom (s : Span) : List Outline → Span
  | [] => s
  | c :: cs => spanFrom (s.cover c.span) cs

end

/-! ## Comparison -/

mutual

/-- Whether two trees spell out the same code, wherever it stands. -/
def same : Outline → Outline → Bool
  | .node s k t _ cs, .node s' k' t' _ cs' =>
    s == s' && k == k' && t.kind == t'.kind && t.text == t'.text && sameList cs cs'

def sameList : List Outline → List Outline → Bool
  | [], [] => true
  | c :: cs, c' :: cs' => same c c' && sameList cs cs'
  | _, _ => false

end

/-! ## Rows -/

mutual

/-- The nodes of a tree from the top down, each before its children, with their depths. -/
def rows (depth : Nat) : Outline → List (Nat × Outline)
  | .node s k t f cs => (depth, .node s k t f cs) :: rowsList (depth + 1) cs

def rowsList (depth : Nat) : List Outline → List (Nat × Outline)
  | [] => []
  | c :: cs => rows depth c ++ rowsList depth cs

end

/-! ## Printing -/

def label (o : Outline) : String :=
  let name := o.token.text
  let text := match o.kind with
    | .primary | .typeName => name
    | .unary op => op.text
    | .binary op => op.text
    | .call => "CALL"
    | .index => "INDEX"
    | .cast => "CAST"
    | .exprList => "LIST"
    | .swap => "SWAP"
    | .block => "BLOCK"
    | .ifStmt => "IF"
    | .whileStmt => "WHILE"
    | .returnStmt => "RETURN"
    | .breakStmt => "BREAK"
    | .continueStmt => "CONTINUE"
    | .exprStmt => "EXPR"
    | .declaration => "DECL " ++ name
    | .externDeclaration => "EXTERN " ++ name
    | .multiDeclaration => "DECL*"
    | .structDecl => "STRUCT " ++ name
    | .unionDecl => "UNION " ++ name
    | .enumDecl => "ENUM " ++ name
    | .pointerType => "^"
    | .arrayType => "[]"
    | .functionType => "FN"
    | .paramList => "PARAMS"
    | .param => "PARAM " ++ name
    | .typeList => "TYPES"
    | .useDecl => "USE"
    | .error => "<error>"
  if o.flawed then text ++ " (!)" else text

mutual

/-- A tree on lines of its own: the label of each node behind the branches that lead to it. -/
def renderFrom (lead below : String) : Outline → String
  | .node s k t f cs =>
    lead ++ label (.node s k t f cs) ++ "\n" ++ renderList below cs

def renderList (below : String) : List Outline → String
  | [] => ""
  | [c] => renderFrom (below ++ "└─ ") (below ++ "   ") c
  | c :: cs => renderFrom (below ++ "├─ ") (below ++ "│  ") c ++ renderList below cs

end

def render (o : Outline) : String := renderFrom "" "" o

end Outline

/-! ## Outlines of trees -/

mutual

def Expr.outline (slot : Slot) : Expr → Outline
  | .missing t => .make slot .error t
  | .atom t => .make slot .primary t
  | .unary op t e => .make slot (.unary op) t [e.outline .left]
  | .binary op t l r => .make slot (.binary op) t [l.outline .left, r.outline .right]
  | .call t f args => .make slot .call t (f.outline .left :: Expr.outlines args)
  | .index t b args => .make slot .index t (b.outline .left :: Expr.outlines args)
  | .cast t ty e => .make slot .cast t [ty.outline .left, e.outline .right]
  | .castOnly t ty => .make slot .cast t [ty.outline .left]
  | .unclosed e => (e.outline slot).flaw

def Expr.outlines : List Expr → List Outline
  | [] => []
  | e :: es => e.outline .list :: Expr.outlines es

def TypeExpr.outline (slot : Slot) : TypeExpr → Outline
  | .missing t => .make slot .error t
  | .name t => .make slot .typeName t
  | .pointer t ty => .make slot .pointerType t [ty.outline .left]
  | .array t n ty => .make slot .arrayType t [n.outline .left, ty.outline .right]
  | .openArray t ty => .make slot .arrayType t [ty.outline .right]
  | .function t ps => .make slot .functionType t [.make .left .paramList t (Param.outlines ps)]
  | .functionTo t ps start rs =>
    .make slot .functionType t
      [.make .left .paramList t (Param.outlines ps),
       .make .right .typeList start (TypeExpr.outlines rs)]

def TypeExpr.outlines : List TypeExpr → List Outline
  | [] => []
  | ty :: tys => ty.outline .list :: TypeExpr.outlines tys

def Param.outline : Param → Outline
  | .missing t => .make .list .error t
  | .named t ty => .make .list .param t [ty.outline .left]

def Param.outlines : List Param → List Outline
  | [] => []
  | p :: ps => p.outline :: Param.outlines ps

end

def ExprList.outline (slot : Slot) (l : ExprList) : Outline :=
  .make slot .exprList l.start (Expr.outlines l.items)

def TypeList.outline (slot : Slot) (l : TypeList) : Outline :=
  .make slot .typeList l.start (TypeExpr.outlines l.items)

def Name.outline (slot : Slot) : Name → Outline
  | .missing t => .make slot .error t
  | .ident t => .make slot .primary t

def LoopExit.kind : LoopExit → NodeKind
  | .leave => .breakStmt
  | .again => .continueStmt

def RecordKind.kind : RecordKind → NodeKind
  | .struct => .structDecl
  | .union => .unionDecl

mutual

def Stmt.outline (slot : Slot) : Stmt → Outline
  | .missing t => .make slot .error t
  | .block t body => .make slot .block t (Stmt.outlines body)
  | .ifOnly t c => .make slot .ifStmt t [c.outline .left]
  | .ifThen t c yes => .make slot .ifStmt t [c.outline .left, yes.outline .center]
  | .ifElse t c yes no =>
    .make slot .ifStmt t [c.outline .left, yes.outline .center, no.outline .right]
  | .whileOnly t c => .make slot .whileStmt t [c.outline .left]
  | .while t c body => .make slot .whileStmt t [c.outline .left, body.outline .right]
  | .return t => .make slot .returnStmt t
  | .returnWith t values => .make slot .returnStmt t [values.outline .left]
  | .exit e t => .make slot e.kind t
  | .expr t e => .make slot .exprStmt t [e.outline .left]
  | .exprs t es => .make slot .exprStmt t [es.outline .left]
  | .swap t targets values => .make slot .swap t [targets.outline .left, values.outline .right]
  | .misplaced t inner => .make slot .exprStmt t [inner.outline .left, .make .right .error t]
  | .declare t ty => .make slot .declaration t [ty.outline .center]
  | .declareAs t ty e => .make slot .declaration t [ty.outline .center, e.outline .right]
  | .define t ty brace body =>
    .make slot .declaration t
      [ty.outline .center, .make .right .block brace (Stmt.outlines body)]
  | .external t ty => .make slot .externDeclaration t [ty.outline .center]
  | .declareMany t names types =>
    .make slot .multiDeclaration t
      (types.outline .center :: names.map (.make .list .primary ·))
  | .declareManyAs t names types values =>
    .make slot .multiDeclaration t
      (types.outline .center :: values.outline .right :: names.map (.make .list .primary ·))
  | .record kind t fields => .make slot kind.kind t (Stmt.outlines fields)
  | .enumeration t variants => .make slot .enumDecl t (variants.map (Name.outline .list))
  | .use t path alias? =>
    .make slot .useDecl t (alias?.toList.map (Name.outline .right) ++ path.map (Name.outline .list))

def Stmt.outlines : List Stmt → List Outline
  | [] => []
  | s :: ss => s.outline .list :: Stmt.outlines ss

end

/-! ## What a tree says about itself -/

def Expr.span (e : Expr) : Span := (e.outline .root).span

def Expr.isError (e : Expr) : Bool := (e.outline .root).isError

def TypeExpr.span (ty : TypeExpr) : Span := (ty.outline .root).span

def TypeExpr.isError (ty : TypeExpr) : Bool := (ty.outline .root).isError

def Param.token : Param → Token
  | .missing t | .named t _ => t

def ExprList.span (l : ExprList) : Span := (l.outline .root).span

def ExprList.isError (l : ExprList) : Bool := (l.outline .root).isError

def TypeList.span (l : TypeList) : Span := (l.outline .root).span

def TypeList.isError (l : TypeList) : Bool := (l.outline .root).isError

def Stmt.span (s : Stmt) : Span := (s.outline .root).span

def Stmt.isError (s : Stmt) : Bool := (s.outline .root).isError

/-- Whether two statements spell out the same code, wherever they stand. -/
def Stmt.same (s s' : Stmt) : Bool := (s.outline .root).same (s'.outline .root)

end Wordstack
