/-
From the items of a text and the scope that they make to a program.
-/
import Wordstack.Code.Stmt
import Wordstack.Program
import Wordstack.Scope.Survey

namespace Wordstack

open Lower

/-! ## Globals -/

/-- The names that an item may declare as variables. -/
def Stmt.variables : Stmt → List Token
  | .declare name _ | .declareAs name _ _ | .define name _ _ _ => [name]
  | .declareMany _ names _ | .declareManyAs _ names _ _ => names
  | _ => []

/-- Where the globals are kept, one after the other in the order of their declarations. -/
structure Layout where
  offsets : NameTable Nat := []
  size : Nat := 0

namespace Layout

/-- Gives a variable room if it is the item at position `root` that its entry comes from. -/
def place (scope : Scope) (root : Nat) (l : Layout) (name : Token) : Layout :=
  match scope.get? name.text with
  | none => l
  | some e =>
    if e.kind = .var ∧ e.root = root then
      { offsets := l.offsets.set name.text l.size
        size := l.size + (e.type?.map Ty.size).getD Ty.slotSize }
    else l

def placeItems (scope : Scope) (root : Nat) (l : Layout) : List Stmt → Layout
  | [] => l
  | item :: items =>
    placeItems scope (root + 1) (item.variables.foldl (place scope root) l) items

def ofItems (scope : Scope) (items : List Stmt) : Layout := placeItems scope 0 {} items

/-- The number of slots. -/
def slots (l : Layout) : Nat := l.size / Ty.slotSize

/-- What the names of a scope stand for in code. -/
def symbols (scope : Scope) (l : Layout) : NameTable SymbolInfo :=
  scope.map fun (name, e) =>
    let storage := if e.kind = .var then (l.offsets.get? name).map .static else none
    (name, e.info storage)

/-- Where the variable `name` is kept, if its entry comes from the item at position `root`. -/
def offsetFor? (scope : Scope) (l : Layout) (root : Nat) (name : Token) : Option Nat :=
  match scope.get? name.text with
  | none => none
  | some e => if e.kind = .var ∧ e.root = root then l.offsets.get? name.text else none

end Layout

/-- Writes the value on top of the stack to a global. -/
def storeGlobal (offset : Nat) (span : Span) : List Command :=
  [{ op := .pushGea, operand := .unsigned offset.toUInt64, span }, { op := .store, span }]

/-- The value of a literal that needs no code. -/
def Expr.constant? (e : Expr) : Option UInt64 :=
  match e.atom? with
  | some { kind := .integer, literal := .unsigned v, .. }
  | some { kind := .keyword .trueWord, literal := .unsigned v, .. }
  | some { kind := .keyword .falseWord, literal := .unsigned v, .. } => some v
  | _ => none

/-- What the program knows about its globals while their first values are worked out. -/
structure GlobalContext where
  scope : Scope
  layout : Layout
  env : Env

/-- Gives the globals of an item their first values: a literal goes into its slot, all else takes
code. -/
def initItem (ctx : GlobalContext) (root : Nat) (item : Stmt) (slots : List UInt64) :
    Lower (List UInt64 × List Command) := do
  match item with
  | .declareAs name _ value =>
    match ctx.layout.offsetFor? ctx.scope root name with
    | none => return (slots, [])
    | some offset =>
      if (ctx.scope.get? name.text).any fun e => e.type?.any Ty.isArray then
        report (.arrayInitializer name.text value.span)
        return (slots, [])
      else
        match value.constant? with
        | some v => return (slots.set (offset / Ty.slotSize) v, [])
        | none =>
          let code ← single value (← value.lower { ctx.env with excluded := some name.text })
          return (slots, code ++ storeGlobal offset name.span)
  | .declareManyAs _ names _ values =>
    let p ← values.lower ctx.env
    checkCount names.length p.values values
    let stores := names.flatMap fun name =>
      match ctx.layout.offsetFor? ctx.scope root name with
      | some offset => storeGlobal offset name.span
      | none => popCommands 1 name.span
    return (slots, p.code ++ stores)
  | .swap _ targets values => return (slots, ← lowerSwap ctx.env targets values)
  | _ => return (slots, [])

def initItems (ctx : GlobalContext) (root : Nat) (slots : List UInt64) :
    List Stmt → Lower (List UInt64 × List Command)
  | [] => return (slots, [])
  | item :: items => do
    let (slots, code) ← initItem ctx root item slots
    let (slots, codes) ← initItems ctx (root + 1) slots items
    return (slots, code ++ codes)

/-! ## Functions -/

/-- The tokens of the parameters in a function type. -/
def TypeExpr.paramTokens : TypeExpr → List Token
  | .function _ ps | .functionTo _ ps _ _ => ps.map Param.token
  | _ => []

/-- Keeps the arguments, of which the first one is on top of the stack, in the frame. -/
def lowerParams (env : Env) : List (Parameter × Token) → Lower (Env × List Command)
  | [] => return (env, [])
  | (p, t) :: rest => do
    let env := env.alloc Ty.slotSize
    let code := allocCommand Ty.slotSize t.span :: storeLocal env.depth t.span
    let env ← env.declare p.name (localVar t.span env.depth p.type.asArgument)
    let (env, codes) ← lowerParams env rest
    return (env, code ++ codes)

/-- Behind the last statement a function returns if it has no value to return, and stops the machine
if it should have returned one before. -/
def functionEnd (returns : Nat) (span : Span) : List Command :=
  if returns = 0 then [{ op := .framePop, span }, { op := .ret, span }]
  else [{ op := .brk, span }]

def lowerFunction (globals : NameTable SymbolInfo) (name : Token) (signature : Signature)
    (params : List Token) (brace : Token) (body : List Stmt) : Lower Function := do
  let returns := signature.returns.length
  if returns > 1 then report (.multipleReturns name.text name.span)
  let env : Env := { globals, blocks := [[]], function := name.text, returns }
  let (env, spill) ← lowerParams env (signature.params.zip params)
  let span := (Stmt.block brace body).span
  let (inner, code) ← Stmt.lowerAll env.openBlock body
  let (env, code) := env.close inner code span
  let f : Function :=
    { name := name.text, params := signature.params.length, returns
      stackIndex := env.depth, frameSize := env.frameSize }
  return f.emitAll
    ({ op := .framePush, span := name.span } :: spill ++ code.commands ++ functionEnd returns span)

/-- The function that an item defines or declares as defined elsewhere. -/
def lowerItem (ctx : GlobalContext) (root : Nat) (item : Stmt) : Lower (Option Function) := do
  match item with
  | .define name ty brace body =>
    match signatureFor? name with
    | some s => return some (← lowerFunction ctx.env.globals name s ty.paramTokens brace body)
    | none => return none
  | .external name _ =>
    match signatureFor? name with
    | some s =>
      return some
        { name := name.text, params := s.params.length, returns := s.returns.length
          external := true }
    | none => return none
  | _ => return none
where
  signatureFor? (name : Token) : Option Signature :=
    match ctx.scope.get? name.text with
    | none => none
    | some e => if e.kind = .func ∧ e.root = root then e.signature? else none

def lowerItems (ctx : GlobalContext) (root : Nat) : List Stmt → Lower (List Function)
  | [] => return []
  | item :: items => do
    let f? ← lowerItem ctx root item
    let fs ← lowerItems ctx (root + 1) items
    return f?.toList ++ fs

/-! ## Programs -/

structure Lowered where
  program : Program
  errors : List CodeError

def Lowered.isValid (l : Lowered) : Bool := l.errors.isEmpty

/-- The program that a list of items stands for. There is one whatever is wrong with them; what is
wrong does not execute. -/
def Program.ofItems (items : List Stmt) (scope : Scope) : Lowered :=
  let layout := Layout.ofItems scope items
  let ctx : GlobalContext := { scope, layout, env := { globals := layout.symbols scope } }
  let make : Lower (List UInt64 × Function × List Function) := do
    let (globals, code) ← initItems ctx 0 (List.replicate layout.slots 0) items
    let init := Function.emitAll { name := Program.initName }
      ({ op := .setupGlobal, operand := .unsigned layout.slots.toUInt64, span := .nowhere } ::
        code ++ [{ op := .ret, span := .nowhere }])
    let functions ← lowerItems ctx 0 items
    return (globals, init, functions)
  let ((globals, init, functions), notes) := make {}
  let program := functions.foldl Program.insert { init, globals, strings := notes.strings }
  ⟨program, notes.errors⟩

end Wordstack
