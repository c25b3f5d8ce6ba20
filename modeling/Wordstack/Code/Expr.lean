/-
Code for expressions. Operands are computed from right to left, so that the left one
ends up on top of the stack.
-/
import Wordstack.Code
import Wordstack.Code.Env
import Wordstack.Program.Builtin

namespace Wordstack

open Lower

/-- Code, and how many values it leaves on the stack. -/
structure Produced where
  code : List Command
  values : Nat

/-- Code that must not be executed; what is wrong has been reported. -/
def invalidAt (span : Span) : List Command := [{ op := .invalid, span }]

/-- The operation for an infix operator that computes with two values. -/
def BinaryOp.opcode : BinaryOp → Opcode
  | .add => .add
  | .sub => .sub
  | .mul => .mul
  | .div => .div
  | .mod => .mod
  | .shiftLeft => .shiftLeft
  | .shiftRight => .shiftRight
  | .bitAnd => .bitAnd
  | .bitOr => .bitOr
  | .bitXor => .bitXor
  | .equals => .cmpEq
  | .notEquals => .cmpNeq
  | .less => .cmpLt
  | .greater => .cmpGt
  | .lessEq => .cmpLte
  | .greaterEq => .cmpGte
  | .assign | .and | .or | .member => .invalid

/-- Whether an expression names a place: a variable, an element, or what a pointer points to. -/
def Expr.isPlace : Expr → Bool
  | .atom t => t.isIdent
  | .unary .deref _ _ | .index .. => true
  | .cast _ _ e => e.isPlace
  | .unclosed e => e.isPlace
  | _ => false

/-! ## Names and literals -/

/-- Reads a variable. An array stands for the address of its first slot. -/
def readVariable (storage : Storage) (isArray : Bool) (span : Span) : List Command :=
  match storage, isArray with
  | .stack o, false => [{ op := .pushStack, operand := .unsigned o.toUInt64, span }]
  | .stack o, true => [{ op := .pushSea, operand := .unsigned o.toUInt64, span }]
  | .static o, false => [{ op := .pushGlobal, operand := .unsigned o.toUInt64, span }]
  | .static o, true => [{ op := .pushGea, operand := .unsigned o.toUInt64, span }]

def lowerName (env : Env) (t : Token) : Lower (List Command) := do
  match env.lookup? t.text with
  | none =>
    match Builtin.ofName? t.text with
    | some b => return [{ op := .pushGea, operand := .label b.name, span := t.span }]
    | none =>
      report (.unresolvedName t.text t.span)
      return invalidAt t.span
  | some s =>
    match s.kind with
    | .var =>
      match s.storage with
      | some storage => return readVariable storage s.isArray t.span
      | none =>
        report (.unresolvedName t.text t.span)
        return invalidAt t.span
    | .func | .prototype =>
      return [{ op := .pushGea, operand := .label t.text, span := t.span }]
    | .type | .nameSpace =>
      report (.notAValue t.text t.span s.span)
      return invalidAt t.span
    | .error => return invalidAt t.span

def lowerAtom (env : Env) (t : Token) : Lower (List Command) := do
  match t.kind, t.literal with
  | .ident, _ => lowerName env t
  | .string, .text s =>
    return [{ op := .pushGea, operand := .label (← intern s), span := t.span }]
  | _, .unsigned v => return [{ op := .pushUnsign, operand := .unsigned v, span := t.span }]
  | _, .float bits => return [{ op := .pushUnsign, operand := .unsigned bits, span := t.span }]
  | _, _ => return invalidAt t.span

/-! ## Values and places -/

/-- The code of an expression that must leave exactly one value. -/
def single (e : Expr) (p : Produced) : Lower (List Command) := do
  if p.values = 1 || e.isError then return p.code
  else
    report (.expectedValue e.span)
    return if p.values = 0 then p.code ++ invalidAt e.token.span else p.code

/-- The code of an expression that must name a place, from the code that reads it: the last command,
which does the reading, is replaced. -/
def asLvalue (e : Expr) (mode : LvalueMode) (code : List Command) : Lower (List Command) := do
  if e.isError then return code
  else
    match code.getLast? with
    | some last =>
      if last.op = .invalid then return code
      else
        match if e.isPlace then last.op.toLvalue? mode else none with
        | some (op, needsStore) =>
          let store : List Command := if needsStore then [{ op := .store, span := last.span }] else []
          return code.dropLast ++ { last with op } :: store
        | none => notAPlace
    | none => notAPlace
where
  notAPlace : Lower (List Command) := do
    report (.notAnLvalue e.span)
    return code ++ invalidAt e.span

/-! ## Calls -/

/-- The function that the code of a callee stands for. -/
def calleeName? (callee : Expr) (last : Command) : Option String :=
  match last.op, last.operand with
  | .pushGea, .label name => if callee.token.isIdent then some name else none
  | _, _ => none

/-- How many values a function takes and leaves. -/
def arity (env : Env) (name : String) (callee : Token) (found : Nat) (span : Span) :
    Lower (Nat × Nat) := do
  match env.lookup? callee.text with
  | some s =>
    if s.kind = .prototype then report (.prototypeWithoutBody name span s.span)
    return (s.params, s.returns)
  | none =>
    match Builtin.ofName? name with
    | some b => return (b.params, b.returns)
    | none => return (found, 1)

/-- A call, from the code of its arguments and its callee. -/
def lowerCall (env : Env) (e callee : Expr) (found : Nat) (args target : List Command) :
    Lower Produced := do
  let code := args ++ target
  if callee.isError then return ⟨code, 1⟩
  else
    match target.getLast? with
    | none => return ⟨code, 1⟩
    | some last =>
      if last.op = .invalid then return ⟨code, 1⟩
      else
        match calleeName? callee last with
        | none =>
          report (.notCallable callee.span)
          return ⟨code ++ invalidAt e.span, 1⟩
        | some name =>
          let (params, returns) ← arity env name callee.token found e.span
          if params ≠ found then report (.argumentCount name params found e.span)
          return ⟨code.dropLast ++ [{ last with op := .call, operand := .label name }], returns⟩

/-! ## Expressions -/

/-- The operation for an operator in front of a value. -/
def UnaryOp.opcode : UnaryOp → Opcode
  | .neg => .neg
  | .not => .logNot
  | .bitNot => .bitNot
  | .deref => .load
  | .addressOf => .nop

/-- The right value is computed only if the left one does not decide; the one that decides is what is
left. -/
def shortCircuit (skip : Opcode) (span : Span) (left right : List Command) : List Command :=
  left ++
    [{ op := .clone, span }, { op := skip, operand := .signed (right.length + 1), span },
     { op := .pop, span }] ++ right

mutual

def Expr.lower (env : Env) : Expr → Lower Produced
  | .missing t => return ⟨invalidAt t.span, 1⟩
  | .atom t => return ⟨← lowerAtom env t, 1⟩
  | .unclosed e => e.lower env
  | .unary .addressOf _ e => do
    let code ← single e (← e.lower env)
    return ⟨← asLvalue e .address code, 1⟩
  | .unary op t e => do
    let code ← single e (← e.lower env)
    return ⟨code ++ [{ op := op.opcode, span := t.span }], 1⟩
  | .binary .assign _ target value => do
    let value ← single value (← value.lower env)
    let code ← single target (← target.lower env)
    return ⟨value ++ (← asLvalue target .store code), 0⟩
  | .binary .and t l r => do
    let left ← single l (← l.lower env)
    let right ← single r (← r.lower env)
    return ⟨shortCircuit .jumpIfNot t.span left right, 1⟩
  | .binary .or t l r => do
    let left ← single l (← l.lower env)
    let right ← single r (← r.lower env)
    return ⟨shortCircuit .jumpIf t.span left right, 1⟩
  | .binary .member t _ _ => do
    report (.memberAccess t.span)
    return ⟨invalidAt t.span, 1⟩
  | .binary op t l r => do
    let right ← single r (← r.lower env)
    let left ← single l (← l.lower env)
    return ⟨right ++ left ++ [{ op := op.opcode, span := t.span }], 1⟩
  | .call t f args => do
    let argsCode ← Expr.lowerArgs env args
    let target ← single f (← f.lower env)
    lowerCall env (.call t f args) f args.length argsCode target
  | .index t _ [] => return ⟨invalidAt t.span, 1⟩
  | .index t base (i :: more) => do
    if !more.isEmpty then report (.indexCount (Expr.index t base (i :: more)).span)
    let index ← single i (← i.lower env)
    let array ← single base (← base.lower env)
    return ⟨index ++
      [{ op := .pushUnsign, operand := .unsigned Ty.slotSize.toUInt64, span := t.span },
       { op := .mul, span := t.span }] ++ array ++
      [{ op := .add, span := t.span }, { op := .load, span := t.span }], 1⟩
  | .cast _ _ e => e.lower env
  | .castOnly t _ => return ⟨invalidAt t.span, 1⟩

/-- The arguments of a call, from the last to the first. -/
def Expr.lowerArgs (env : Env) : List Expr → Lower (List Command)
  | [] => return []
  | e :: es => do
    let rest ← Expr.lowerArgs env es
    let code ← single e (← e.lower env)
    return rest ++ code

end

/-- The members of a list, from the last to the first. -/
def Expr.lowerAll (env : Env) : List Expr → Lower Produced
  | [] => return ⟨[], 0⟩
  | e :: es => do
    let rest ← Expr.lowerAll env es
    let p ← e.lower env
    return ⟨rest.code ++ p.code, rest.values + p.values⟩

def ExprList.lower (env : Env) (l : ExprList) : Lower Produced := Expr.lowerAll env l.items

end Wordstack
