/-
From type expressions to types. Names of types are not looked up here; they are
collected, in the order in which they are met, for whoever knows the scope.
-/
import Wordstack.Type
import Wordstack.Scope.Error

namespace Wordstack

/-- The type names that a type expression mentions, and where. -/
abbrev TypeRefs := List (String × Span)

/-- Describing a type collects names, also if it fails later on. -/
abbrev Describe := ExceptT ScopeError (StateM TypeRefs)

/-- The token of a literal or a name. -/
def Expr.atom? : Expr → Option Token
  | .atom t => some t
  | .unclosed e => e.atom?
  | _ => none

/-- The length that an array type may have: a positive integer literal. -/
def Expr.arrayLength? (e : Expr) : Option Nat :=
  match e.atom? with
  | some { kind := .integer, literal := .unsigned n, .. } => if n = 0 then none else some n.toNat
  | _ => none

def Ty.ofBase (base : BaseType) : Ty := ⟨base, 0, none⟩

/-- A pointer to what `t` is made of. -/
def Ty.pointerTo (t : Ty) : Ty := ⟨t.base, t.pointerDepth + 1, none⟩

mutual

def TypeExpr.describe : TypeExpr → Describe Ty
  | .missing t => throw (.invalidType t.span)
  | .name t =>
    match t.kind with
    | .primitive p => return .ofBase (.primitive p)
    | _ => do
      modify (· ++ [(t.text, t.span)])
      return .ofBase (.named t.text)
  | .pointer _ target => return (← target.describe).pointerTo
  | .openArray _ element => return (← element.describe).pointerTo
  | .array _ length element => do
    let element ← element.describe
    match length.arrayLength? with
    | none => throw (.arrayLength length.span)
    | some n =>
      let slots := n * element.arrayLen.getD 1
      if slots < UInt64.size then return { element with arrayLen := some slots }
      else throw (.arrayLength length.span)
  | .function _ params => do
    let params ← Param.describeAll params
    return .ofBase (.function ⟨params, [], false⟩)
  | .functionTo _ params _ returns => do
    let params ← Param.describeAll params
    let returns ← TypeExpr.describeAll returns
    return .ofBase (.function ⟨params, returns, false⟩)

def TypeExpr.describeAll : List TypeExpr → Describe (List Ty)
  | [] => return []
  | t :: ts => do
    let t ← t.describe
    let ts ← TypeExpr.describeAll ts
    return t :: ts

def Param.describe : Param → Describe Parameter
  | .missing t => throw (.invalidType t.span)
  | .named t ty => return ⟨t.text, ← ty.describe⟩

def Param.describeAll : List Param → Describe (List Parameter)
  | [] => return []
  | p :: ps => do
    let p ← p.describe
    let ps ← Param.describeAll ps
    return p :: ps

end

/-- Whether a type expression is written as a function type. -/
def TypeExpr.isFunction : TypeExpr → Bool
  | .function .. | .functionTo .. => true
  | _ => false

/-- The signature that a function type stands for. -/
def TypeExpr.describeSignature (t : TypeExpr) : Describe Signature := do
  if t.isFunction then
    match (← t.describe).base with
    | .function s => return s
    | _ => throw (.invalidType t.span)
  else throw (.invalidType t.span)

/-- Lists of types are not types. -/
def TypeList.describe {α : Type} (l : TypeList) : Describe α := throw (.invalidType l.span)

/-- What stands in a declaration as its type. -/
inductive WrittenType
  | one (ty : TypeExpr)
  | many (types : TypeList)

namespace WrittenType

def describe : WrittenType → Describe Ty
  | .one ty => ty.describe
  | .many types => types.describe

def describeSignature : WrittenType → Describe Signature
  | .one ty => ty.describeSignature
  | .many types => types.describe

end WrittenType

def Stmt.writtenType? : Stmt → Option WrittenType
  | .declare _ ty | .declareAs _ ty _ | .define _ ty _ _ | .external _ ty => some (.one ty)
  | .declareMany _ _ types | .declareManyAs _ _ types _ => some (.many types)
  | _ => none

/-- What a description comes to, and the names it has collected. -/
def Describe.result {α : Type} (d : Describe α) : Except ScopeError α × TypeRefs := d.run.run []

end Wordstack
