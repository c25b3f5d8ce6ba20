/-
Code for statements. A block gives back the part of the frame that its declarations
have taken, whichever way it is left.
-/
import Wordstack.Code.Expr

namespace Wordstack

open Lower

/-- Asks the machine for `bytes` of the frame. -/
def allocCommand (bytes : Nat) (span : Span) : Command :=
  { op := .alloc, operand := .unsigned bytes.toUInt64, span }

/-- Gives `bytes` of the frame back, if there are any. -/
def freeCommands (bytes : Nat) (span : Span) : List Command :=
  if bytes = 0 then [] else [{ op := .free, operand := .unsigned bytes.toUInt64, span }]

/-- Writes the value on top of the stack to a variable of the frame. -/
def storeLocal (offset : Nat) (span : Span) : List Command :=
  [{ op := .pushSea, operand := .unsigned offset.toUInt64, span }, { op := .store, span }]

def popCommands (n : Nat) (span : Span) : List Command := List.replicate n { op := .pop, span }

/-- What remains of a block: its code, and the environment around it. -/
def Env.close (env inner : Env) (code : Code) (span : Span) : Env × Code :=
  (env.closeBlock inner, code ++ .ofCommands (freeCommands (inner.depth - env.depth) span))

/-! ## Lists of values -/

def checkCount (expected found : Nat) (values : ExprList) : Lower Unit := do
  if expected ≠ found && !values.isError then report (.valueCount expected found values.span)

/-- Writes the values on the stack to the targets, from the first to the last. -/
def storeAll (env : Env) : List Expr → Lower (List Command)
  | [] => return []
  | target :: targets => do
    let code ← single target (← target.lower env)
    let store ← asLvalue target .store code
    return store ++ (← storeAll env targets)

/-- All values are computed before the first one is written. -/
def lowerSwap (env : Env) (targets values : ExprList) : Lower (List Command) := do
  let p ← values.lower env
  checkCount targets.items.length p.values values
  return p.code ++ (← storeAll env targets.items)

/-! ## Declarations -/

/-- Checks the type names that a declaration in a block mentions. -/
def checkRefs (env : Env) : TypeRefs → Lower Bool
  | [] => return true
  | (name, span) :: refs => do
    let ok ← match env.lookup? name with
      | none => do
        report (.scope (.unknownType name span))
        pure false
      | some s =>
        if s.kind = .type || s.kind = .error then pure true
        else do
          report (.scope (.notAType name span s.span))
          pure false
    let rest ← checkRefs env refs
    return ok && rest

/-- The type of a declaration in a block. -/
def localType? (env : Env) (ty : TypeExpr) : Lower (Option Ty) := do
  match ty.describe.result with
  | (.error e, _) =>
    report (.scope e)
    return none
  | (.ok t, refs) => return if ← checkRefs env refs then some t else none

def localVar (span : Span) (offset : Nat) (t : Ty) : SymbolInfo where
  kind := .var
  span := span
  storage := some (.stack offset)
  type? := some t

/-- A variable of a block, which takes up room in the frame. -/
def declareLocal (env : Env) (name : Token) (t : Ty) : Lower (Env × List Command) := do
  let env := env.alloc t.size
  let env ← env.declare name.text (localVar name.span env.depth t)
  return (env, [allocCommand t.size name.span])

def declareBroken (env : Env) (name : Token) : Lower (Env × List Command) := do
  return (← env.declare name.text { kind := .error, span := name.span }, [])

/-- A declaration of one name, up to its value. `none` if nothing can be done with the value. -/
def declareTyped (env : Env) (name : Token) (ty : TypeExpr) :
    Lower (Env × List Command × Option Ty) := do
  if ty.isError then
    let (env, code) ← declareBroken env name
    return (env, code, none)
  else if ty.isFunction then
    report (.nestedFunction name.text name.span)
    let (env, code) ← declareBroken env name
    return (env, code, none)
  else
    match ← localType? env ty with
    | none =>
      let (env, code) ← declareBroken env name
      return (env, code, none)
    | some t =>
      let (env, code) ← declareLocal env name t
      return (env, code, some t)

/-- A declaration with a value. The name itself, where the value mentions it, is what it was before
the declaration. -/
def declareValue (env : Env) (name : Token) (ty : TypeExpr) (value : Expr) :
    Lower (Env × List Command) := do
  let (env, code, t?) ← declareTyped env name ty
  match t? with
  | none => return (env, code)
  | some t =>
    if t.isArray then
      report (.arrayInitializer name.text value.span)
      return (env, code)
    else
      let init ← single value (← value.lower { env with excluded := some name.text })
      return (env, code ++ init ++ storeLocal env.depth name.span)

/-- Variables with a type each, and where they are kept. -/
def declareLocals (env : Env) :
    List Token → List TypeExpr → Lower (Env × List Command × List Command)
  | name :: names, ty :: types => do
    let t := (← localType? env ty).getD (.ofBase (.named name.text))
    let (env, code) ← declareLocal env name t
    let store := storeLocal env.depth name.span
    let (env, codes, stores) ← declareLocals env names types
    return (env, code ++ codes, store ++ stores)
  | _, _ => return (env, [], [])

/-- The types of a declaration of several names: one for each, or one for all of them. -/
def typesFor? (names : List Token) (types : TypeList) : Option (List TypeExpr) :=
  if types.isError then none
  else
    match types.items with
    | [ty] => some (names.map fun _ => ty)
    | tys => if tys.length = names.length then some tys else none

def declareSeveral (env : Env) (names : List Token) (types : TypeList) (values? : Option ExprList) :
    Lower (Env × List Command) := do
  match typesFor? names types with
  | none =>
    if !types.isError then
      report (.scope (.typeCount names.length types.items.length types.span))
    return (env, [])
  | some tys =>
    let (env, code, stores) ← declareLocals env names tys
    match values? with
    | none => return (env, code)
    | some values =>
      let p ← values.lower env
      checkCount names.length p.values values
      return (env, code ++ p.code ++ stores)

/-! ## Leaving a block -/

def lowerExit (env : Env) (exit : LoopExit) (t : Token) : Lower Code := do
  match env.loopDepth with
  | none =>
    report (.outsideLoop t.text t.span)
    return []
  | some base =>
    return Code.ofCommands (freeCommands (env.depth - base) t.span) ++ [.pending exit t.span]

/-- Leaves the function. `ok` says whether the statement is as it should be; if it is not, that has
been reported. -/
def lowerReturn (env : Env) (t : Token) (p : Produced) (ok : Bool) : Lower (List Command) := do
  if p.values > 1 then report (.multipleReturns env.function t.span)
  else if p.values ≠ env.returns && ok then report (.returnCount env.returns p.values t.span)
  return p.code ++ freeCommands env.depth t.span ++
    [{ op := .framePop, span := t.span }, { op := .ret, span := t.span }]

/-! ## Statements -/

def Stmt.isBlock : Stmt → Bool
  | .block .. => true
  | _ => false

/-- The branch of an `if` or the body of a loop, which is a block even if it has no braces. -/
def branch (env : Env) (s : Stmt) (lower : Env → Lower (Env × Code)) : Lower (Env × Code) := do
  if s.isBlock then lower env
  else
    let (inner, code) ← lower env.openBlock
    return env.close inner code s.span

mutual

def Stmt.lower (env : Env) : Stmt → Lower (Env × Code)
  | .missing t => return (env, .ofCommands (invalidAt t.span))
  | .block t body => do
    let (inner, code) ← Stmt.lowerAll env.openBlock body
    return env.close inner code (Stmt.block t body).span
  | .ifOnly t _ | .whileOnly t _ => return (env, .ofCommands (invalidAt t.span))
  | .ifThen t c yes => do
    let condition ← single c (← c.lower env)
    let (env, code) ← branch env yes fun env => yes.lower env
    return (env, .ifThen t.span condition code)
  | .ifElse t c yes no => do
    let condition ← single c (← c.lower env)
    let (env, yesCode) ← branch env yes fun env => yes.lower env
    let (env, noCode) ← branch env no fun env => no.lower env
    return (env, .ifElse t.span condition yesCode noCode)
  | .while t c body => do
    let condition ← single c (← c.lower env)
    let inside := { env with loopDepth := some env.depth }
    let (inner, code) ← branch inside body fun env => body.lower env
    return (env.closeBlock inner, .loop t.span condition code)
  | .return t => return (env, .ofCommands (← lowerReturn env t ⟨[], 0⟩ true))
  | .returnWith t values => do
    let p ← values.lower env
    return (env, .ofCommands (← lowerReturn env t p !values.isError))
  | .exit e t => return (env, ← lowerExit env e t)
  | .expr t e => do
    let p ← e.lower env
    return (env, .ofCommands (p.code ++ popCommands p.values t.span))
  | .exprs t es => do
    let p ← es.lower env
    return (env, .ofCommands (p.code ++ popCommands p.values t.span))
  | .swap _ targets values => return (env, .ofCommands (← lowerSwap env targets values))
  | .misplaced t _ => return (env, .ofCommands (invalidAt t.span))
  | .declare name ty => do
    let (env, code, _) ← declareTyped env name ty
    return (env, .ofCommands code)
  | .declareAs name ty value => do
    let (env, code) ← declareValue env name ty value
    return (env, .ofCommands code)
  | .define name ty brace body => do
    let (env, code, t?) ← declareTyped env name ty
    if t?.isSome then
      report (.scope (.blockInitializer name.text (Stmt.block brace body).span))
    return (env, .ofCommands code)
  | .external name _ => do
    report (.nestedFunction name.text name.span)
    return (env, [])
  | .declareMany _ names types => do
    let (env, code) ← declareSeveral env names types none
    return (env, .ofCommands code)
  | .declareManyAs _ names types values => do
    let (env, code) ← declareSeveral env names types (some values)
    return (env, .ofCommands code)
  | .record _ name _ | .enumeration name _ =>
    return (← env.declare name.text { kind := .type, span := name.span }, [])
  | .use _ path alias? =>
    match alias?.or path.getLast? with
    | none => return (env, [])
    | some n =>
      return (← env.declare n.token.text { kind := .nameSpace, span := n.token.span }, [])

def Stmt.lowerAll (env : Env) : List Stmt → Lower (Env × Code)
  | [] => return (env, [])
  | s :: rest => do
    let (env, code) ← s.lower env
    let (env, codes) ← Stmt.lowerAll env rest
    return (env, code ++ codes)

end
end Wordstack
