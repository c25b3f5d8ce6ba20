/-
The names that a program declares at top level.
-/
import Wordstack.Type.Describe
import Wordstack.NameTable

namespace Wordstack

inductive SymbolKind
  | error | var | type | prototype | func | nameSpace
deriving DecidableEq

/-- What is known about a name besides its kind. -/
inductive SymbolData
  | none
  | var (type : Ty)
  | func (signature : Signature)
  | nameSpace (path : List String)
deriving DecidableEq

/-- A declared name. -/
structure Entry where
  kind : SymbolKind
  /-- The position of the declaring item. -/
  root : Nat
  item : Stmt
  span : Span
  data : SymbolData := .none
  /-- Whether its type mentions a name that has not been declared so far. -/
  unresolved : Bool := false

namespace Entry

def signature? (e : Entry) : Option Signature :=
  match e.data with
  | .func s => some s
  | _ => none

def type? (e : Entry) : Option Ty :=
  match e.data with
  | .var t => some t
  | _ => none

/-- Same kind and same type; where they were declared does not matter. -/
def sameAs (e f : Entry) : Bool := e.kind == f.kind && e.data == f.data

end Entry

/-- Whether a declaration gives a value or a body. -/
def Stmt.hasValue : Stmt → Bool
  | .declareAs .. | .define .. | .declareManyAs .. => true
  | _ => false

/-- Whether an entry comes with all that belongs to its name, and not only with its type. -/
def Entry.isDefinition (e : Entry) : Bool :=
  match e.kind with
  | .type => true
  | .func => e.signature?.any (!·.external)
  | .var => e.item.hasValue
  | .prototype | .nameSpace | .error => false

abbrev Scope := NameTable Entry

/-! ## Declaring a name -/

/-- What becomes of a name that is declared. -/
inductive Declared
  /-- The new entry counts from now on. -/
  | stored
  /-- The entry that was there says the same or more. -/
  | kept
  | conflict (first : Span)

/-- A name may be declared again if nothing changes, and a declaration may be completed later: a
prototype by a function of its signature, a variable by its value. -/
def Entry.redeclare (first next : Entry) : Declared :=
  if first.sameAs next then
    match first.isDefinition, next.isDefinition with
    | _, false => .kept
    | false, true => if next.kind = .var then .stored else .conflict first.span
    | true, true => if first.item.same next.item then .kept else .conflict first.span
  else
    let agree :=
      match first.signature?, next.signature? with
      | some s, some t => s.agrees t
      | _, _ => false
    match first.kind, next.kind, agree with
    | .prototype, .func, true => .stored
    | .func, .prototype, true => .kept
    | _, _, _ => .conflict first.span

def Scope.declare (s : Scope) (name : String) (e : Entry) : Declared :=
  match s.get? name with
  | none => .stored
  | some first => first.redeclare e

/-! ## Type names -/

/-- How it stands with the type names that a declaration mentions; the worst of them counts. -/
inductive Resolution
  | resolved | deferred | failed
deriving DecidableEq

def Resolution.join : Resolution → Resolution → Resolution
  | .failed, _ | _, .failed => .failed
  | .deferred, _ | _, .deferred => .deferred
  | .resolved, .resolved => .resolved

/-- Whether `name` is a type. A name that is unknown may still be declared, unless all declarations
have been seen (`final`). -/
def Scope.resolveName (s : Scope) (final : Bool) (name : String) (span : Span) :
    Resolution × List ScopeError :=
  match s.get? name with
  | none => if final then (.failed, [.unknownType name span]) else (.deferred, [])
  | some e =>
    match e.kind with
    | .type => (.resolved, [])
    | .error => (.failed, [])
    | .prototype => (.failed, [.prototypeAsType name span e.span])
    | .func => (.failed, [.functionAsType name span e.span])
    | .var | .nameSpace => (.failed, [.notAType name span e.span])

def Scope.resolve (s : Scope) (final : Bool) : TypeRefs → Resolution × List ScopeError
  | [] => (.resolved, [])
  | (name, span) :: refs =>
    let (r, errors) := s.resolveName final name span
    let (r', errors') := s.resolve final refs
    (r.join r', errors ++ errors')

end Wordstack
