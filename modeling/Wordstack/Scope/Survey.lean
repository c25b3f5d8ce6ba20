/-
Collecting the names of a whole program. Types may be used before they are declared:
a declaration that mentions an unknown type name is entered all the same, and looked at
once more when all names are there.
-/
import Wordstack.Scope

namespace Wordstack

/-- The scope as far as it is known. -/
structure Survey where
  scope : Scope := []
  errors : List ScopeError := []
  /-- Names whose types are still to be resolved, in the order of their declarations. -/
  deferred : List (String × TypeRefs) := []

namespace Survey

def report (s : Survey) (errors : List ScopeError) : Survey :=
  { s with errors := s.errors ++ errors }

/-- Enters a name, if the rules for declaring names again allow it. -/
def declare (s : Survey) (name : String) (e : Entry) : Survey :=
  match s.scope.declare name e with
  | .stored => { s with scope := s.scope.set name e }
  | .kept => s
  | .conflict first => s.report [.redefinition name e.span first]

/-- Enters a name whose type mentions other names. -/
def declareWith (s : Survey) (name : String) (e : Entry) (refs : TypeRefs) : Survey :=
  let (resolution, errors) := s.scope.resolve false refs
  let s := s.report errors
  match resolution with
  | .resolved => s.declare name e
  | .failed => s.declare name { e with kind := .error }
  | .deferred =>
    let e := { e with unresolved := true }
    match s.scope.declare name e with
    | .stored =>
      let queued := s.deferred.any (·.1 == name)
      let s := s.declare name e
      if queued then s else { s with deferred := s.deferred ++ [(name, refs)] }
    | _ => s.declare name e

/-- Enters a name of which nothing is known but that it was declared. -/
def declareError (s : Survey) (root : Nat) (item : Stmt) (name : Token) : Survey :=
  s.declare name.text { kind := .error, root, item, span := name.span }

/-- What a declaration with a function type declares: a block is the body of a function, and nothing
else may stand in its place. -/
def functionKind (name : Token) : Stmt → SymbolKind × List ScopeError
  | .define .. => (.func, [])
  | .declareAs _ _ value => (.error, [.functionBody name.text value.span])
  | _ => (.prototype, [])

/-- What is wrong with the value of a variable. -/
def variableErrors (name : Token) : Stmt → List ScopeError
  | .define _ _ brace body => [.blockInitializer name.text (Stmt.block brace body).span]
  | _ => []

/-- Enters the name of a declaration of one name. -/
def declareSingle (s : Survey) (root : Nat) (item : Stmt) (name : Token) (ty : TypeExpr) :
    Survey :=
  if ty.isError then s.declareError root item name
  else if ty.isFunction then
    match ty.describeSignature.result with
    | (.error e, _) => (s.report [e]).declareError root item name
    | (.ok signature, refs) =>
      let (kind, errors) := functionKind name item
      (s.report errors).declareWith name.text
        { kind, root, item, span := name.span, data := .func signature } refs
  else
    let s := s.report (variableErrors name item)
    match ty.describe.result with
    | (.error e, _) => (s.report [e]).declareError root item name
    | (.ok type, refs) =>
      s.declareWith name.text
        { kind := .var, root, item, span := name.span, data := .var type } refs

def declareExternal (s : Survey) (root : Nat) (item : Stmt) (name : Token) (ty : TypeExpr) :
    Survey :=
  if ty.isError then s.declareError root item name
  else if ty.isFunction then
    match ty.describeSignature.result with
    | (.error e, _) => (s.report [e]).declareError root item name
    | (.ok signature, refs) =>
      s.declareWith name.text
        { kind := .func, root, item, span := name.span
          data := .func { signature with external := true } } refs
  else
    (s.report [.externalNotFunction name.text ty.span]).declareError root item name

/-- Enters the names of a declaration with one type for each of them. -/
def declareEach (s : Survey) (root : Nat) (item : Stmt) : List Token → List TypeExpr → Survey
  | name :: names, ty :: types =>
    let s := match ty.describe.result with
      | (.error e, _) => (s.report [e]).declareError root item name
      | (.ok type, refs) =>
        s.declareWith name.text
          { kind := .var, root, item, span := name.span, data := .var type } refs
    s.declareEach root item names types
  | _, _ => s

/-- Enters the names of a declaration with one type for all of them. If there is something wrong with
the type, that is reported once. -/
def declareShared (s : Survey) (root : Nat) (item : Stmt) (names : List Token) (ty : TypeExpr) :
    Survey :=
  match ty.describe.result with
  | (.error e, _) =>
    names.foldl (declareError · root item) (if names.isEmpty then s else s.report [e])
  | (.ok type, refs) =>
    names.foldl
      (fun s name =>
        s.declareWith name.text
          { kind := .var, root, item, span := name.span, data := .var type } refs)
      s

def declareMany (s : Survey) (root : Nat) (item : Stmt) (names : List Token) (types : TypeList) :
    Survey :=
  if types.isError then names.foldl (declareError · root item) s
  else
    match types.items with
    | [ty] => s.declareShared root item names ty
    | tys =>
      if tys.length = names.length then s.declareEach root item names tys
      else
        names.foldl (declareError · root item)
          (s.report [.typeCount names.length tys.length types.span])

/-- Enters the names that an item declares. Items that declare nothing change nothing. -/
def declareItem (s : Survey) (root : Nat) (item : Stmt) : Survey :=
  match item with
  | .record _ name _ | .enumeration name _ =>
    s.declare name.text { kind := .type, root, item, span := name.span }
  | .use _ path alias? =>
    if item.isError then s
    else
      match alias?.or path.getLast? with
      | none => s
      | some n =>
        s.declare n.token.text
          { kind := .nameSpace, root, item, span := n.token.span
            data := .nameSpace (path.map (·.token.text)) }
  | .declare name ty | .declareAs name ty _ | .define name ty _ _ =>
    s.declareSingle root item name ty
  | .external name ty => s.declareExternal root item name ty
  | .declareMany _ names types | .declareManyAs _ names types _ =>
    s.declareMany root item names types
  | _ => s

/-- Enters the names of all items, the first of which stands at position `root`. -/
def declareItems (s : Survey) (root : Nat) : List Stmt → Survey
  | [] => s
  | item :: items => (s.declareItem root item).declareItems (root + 1) items

/-- Looks at a name once more, now that all names are there. The name itself is not among them. -/
def resolveDeferred (s : Survey) (name : String) (refs : TypeRefs) : Survey :=
  match s.scope.get? name with
  | none => s
  | some e =>
    let (resolution, errors) := Scope.resolve (s.scope.erase name) true refs
    let kind := if resolution = .resolved then e.kind else .error
    { s.report errors with scope := s.scope.set name { e with kind, unresolved := false } }

def resolveAll (s : Survey) : Survey :=
  s.deferred.foldl (fun s (name, refs) => s.resolveDeferred name refs) s

/-- The prototypes that have no body, as they stand in the text. -/
def unusedPrototypes (scope : Scope) : List ScopeError :=
  let unused := scope.filterMap fun (name, e) =>
    if e.kind = .prototype then some (e.span, name) else none
  (unused.mergeSort fun a b => a.1.start.offset ≤ b.1.start.offset).map fun (span, name) =>
    .unusedPrototype name span

end Survey

/-- The names of a program and what is wrong with them. -/
structure Analysis where
  scope : Scope
  errors : List ScopeError

/-- The scope that a list of items makes. -/
def Scope.ofItems (items : List Stmt) : Analysis :=
  let s := (Survey.declareItems {} 0 items).resolveAll
  ⟨s.scope, s.errors ++ Survey.unusedPrototypes s.scope⟩

end Wordstack
