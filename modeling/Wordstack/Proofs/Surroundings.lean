/-
What a name stands for at a point of a body. It is told by the text alone: by the declarations in front of the point,
block by block outwards, then by the parameters, the globals and the builtins. A function is walked once from the front,
and each name in it is noted with what is declared around it.
-/
import Wordstack.Proofs.Labels
import Wordstack.Proofs.References

namespace Wordstack

/-! ## What is declared around a point -/

/-- A name that a body declares and, if it is that of a variable, where the variable lies in the frame. -/
structure LocalName where
  name : Token
  offset? : Option Nat

/-- What is declared around a point of a body: in the block of the point, and in the blocks around that one, the innermost first
and the parameters last. In each of them, what was declared last comes first. -/
structure Surroundings where
  inner : List LocalName
  outer : List (List LocalName)
  /-- The bytes of the frame that the variables take. -/
  depth : Nat

/-- A type takes so many bytes of a frame. -/
def TypeExpr.bytes (ty : TypeExpr) : Nat :=
  match ty.describe.result.1 with
  | .ok t => t.size
  | .error _ => 0

/-- Where the global `x` is kept, or its label. -/
def Entry.referent? (layout : Layout) (x : String) (e : Entry) : Option Referent :=
  match e.kind with
  | .var => (layout.offsets.get? x).map fun o => .static o.toUInt64
  | .func | .prototype => some (.label x)
  | _ => none

namespace Surroundings

/-- In front of the parameters of a function. -/
def start : Surroundings := ⟨[], [], 0⟩

/-- At the start of a block. -/
def inside (here : Surroundings) : Surroundings := { here with inner := [], outer := here.inner :: here.outer }

/-- Behind the declaration of a type or of a name space. -/
def withName (here : Surroundings) (name : Token) : Surroundings :=
  { here with inner := ⟨name, none⟩ :: here.inner }

/-- Behind the declaration of a variable, which lies below all others that are there. -/
def withVariable (here : Surroundings) (name : Token) (bytes : Nat) : Surroundings :=
  { here with inner := ⟨name, some (here.depth + bytes)⟩ :: here.inner, depth := here.depth + bytes }

def withVariables (here : Surroundings) : List (Token × Nat) → Surroundings
  | [] => here
  | (name, bytes) :: rest => (here.withVariable name bytes).withVariables rest

/-- The declaration that counts: the last one in the innermost block that has any. -/
def nearest? (here : Surroundings) (x : String) : Option LocalName :=
  (here.inner :: here.outer).findSome? fun block => block.find? fun d => d.name.text = x

/-- What a name stands for, if it stands for a value. -/
def referent? (ctx : GlobalContext) (here : Surroundings) (x : String) : Option Referent :=
  match here.nearest? x with
  | some d => d.offset?.map fun o => .frame o.toUInt64
  | none =>
    match ctx.scope.get? x with
    | some e => e.referent? ctx.layout x
    | none => (Builtin.ofName? x).map fun b => .label b.name

end Surroundings

/-! ## Names in a text -/

/-- A name, and what is declared around it. -/
structure Occurrence where
  name : Token
  here : Surroundings

namespace Surroundings

/-- The names among the atoms of an expression. -/
def occurrences (here : Surroundings) (atoms : List Token) : List Occurrence :=
  (atoms.filter Token.isIdent).map fun t => ⟨t, here⟩

/-- Variables that get a first value, each right behind its declaration. -/
def firstValues (here : Surroundings) : List (Token × Nat) → List Occurrence
  | [] => []
  | (name, bytes) :: rest =>
    ⟨name, here.withVariable name bytes⟩ :: (here.withVariable name bytes).firstValues rest

/-- Where the branch of an `if` or the body of a loop stands, which is a block with braces or without them. -/
def branch (here : Surroundings) (s : Stmt) : Surroundings := if s.isBlock then here else here.inside

end Surroundings

/-- The variables of a declaration of several names, with the bytes that they take. -/
def sizedNames (names : List Token) (types : TypeList) : List (Token × Nat) :=
  names.zip (((typesFor? names types).getD []).map TypeExpr.bytes)

/-- What is declared behind a statement, if `here` is in front of it: what stands in a block is gone where the block ends. -/
def Stmt.declared (here : Surroundings) : Stmt → Surroundings
  | .declare name ty | .declareAs name ty _ => here.withVariable name ty.bytes
  | .declareMany _ names types | .declareManyAs _ names types _ => here.withVariables (sizedNames names types)
  | .record _ name _ | .enumeration name _ => here.withName name
  | .use _ path alias? =>
    match alias?.or path.getLast? with
    | some n => here.withName n.token
    | none => here
  | _ => here

mutual

/-- The names in a statement that are values or get one. The value of a declaration of one name does not see the variable that
it is for; the values of several names see all of their variables. -/
def Stmt.occurrences (here : Surroundings) : Stmt → List Occurrence
  | .block _ body | .define _ _ _ body => Stmt.occurrencesAll here.inside body
  | .ifOnly _ c | .whileOnly _ c => here.occurrences c.atoms
  | .ifThen _ c s | .while _ c s => here.occurrences c.atoms ++ s.occurrences (here.branch s)
  | .ifElse _ c yes no =>
    here.occurrences c.atoms ++ yes.occurrences (here.branch yes) ++ no.occurrences (here.branch no)
  | .returnWith _ es | .exprs _ es => here.occurrences (Expr.atomsAll es.items)
  | .expr _ e => here.occurrences e.atoms
  | .swap _ targets values =>
    here.occurrences (Expr.atomsAll targets.items) ++ here.occurrences (Expr.atomsAll values.items)
  | .misplaced _ s => s.occurrences here
  | .declareAs name ty e => here.firstValues [(name, ty.bytes)] ++ here.occurrences e.atoms
  | .declareManyAs _ names types es =>
    here.firstValues (sizedNames names types) ++
      (here.withVariables (sizedNames names types)).occurrences (Expr.atomsAll es.items)
  | .missing _ | .return _ | .exit .. | .declare .. | .external .. | .declareMany .. | .record .. | .enumeration ..
  | .use .. => []

def Stmt.occurrencesAll (here : Surroundings) : List Stmt → List Occurrence
  | [] => []
  | s :: rest => s.occurrences here ++ Stmt.occurrencesAll (s.declared here) rest

end

/-- The parameters of a function, which take a slot each. -/
def TypeExpr.sizedParams (ty : TypeExpr) : List (Token × Nat) := ty.paramTokens.map fun t => (t, Ty.slotSize)

/-- The names in a function: the parameters, which get their arguments, and those in the body. -/
def functionOccurrences (ty : TypeExpr) (body : List Stmt) : List Occurrence :=
  Surroundings.start.firstValues ty.sizedParams ++
    Stmt.occurrencesAll (Surroundings.start.withVariables ty.sizedParams).inside body

theorem Surroundings.mem_occurrences {here : Surroundings} {atoms : List Token} {t : Token} (ht : t ∈ atoms)
    (hi : t.isIdent = true) : t ∈ (here.occurrences atoms).map Occurrence.name :=
  List.mem_map.mpr ⟨⟨t, here⟩, List.mem_map.mpr ⟨t, List.mem_filter.mpr ⟨ht, hi⟩, rfl⟩, rfl⟩

mutual

/-- No name is left out. -/
theorem Stmt.occurrences_complete {t : Token} (hi : t.isIdent = true) (s : Stmt) (here : Surroundings) (ht : t ∈ s.atoms) :
    t ∈ (s.occurrences here).map Occurrence.name := by
  cases s with
  | block _ body | define _ _ _ body => exact Stmt.occurrences_complete_all hi body _ ht
  | ifOnly _ _ | whileOnly _ _ | returnWith _ _ | exprs _ _ | expr _ _ => exact Surroundings.mem_occurrences ht hi
  | ifThen _ _ inner | «while» _ _ inner =>
    simp only [Stmt.occurrences, List.map_append, List.mem_append]
    exact (List.mem_append.mp ht).imp (Surroundings.mem_occurrences · hi) (inner.occurrences_complete hi _)
  | ifElse _ c yes no =>
    simp only [Stmt.occurrences, List.map_append, List.mem_append, or_assoc]
    refine (List.mem_append.mp ht).imp (Surroundings.mem_occurrences · hi) fun ht => ?_
    exact (List.mem_append.mp ht).imp (yes.occurrences_complete hi _) (no.occurrences_complete hi _)
  | swap _ _ _ =>
    simp only [Stmt.occurrences, List.map_append, List.mem_append]
    exact (List.mem_append.mp ht).imp (Surroundings.mem_occurrences · hi) (Surroundings.mem_occurrences · hi)
  | misplaced _ inner => exact inner.occurrences_complete hi _ ht
  | declareAs _ _ _ | declareManyAs _ _ _ _ =>
    simp only [Stmt.occurrences, List.map_append, List.mem_append]
    exact .inr (Surroundings.mem_occurrences ht hi)
  | missing _ | «return» _ | exit _ _ | declare _ _ | external _ _ | declareMany _ _ _ | record _ _ _ | enumeration _ _
  | use _ _ _ => cases ht

theorem Stmt.occurrences_complete_all {t : Token} (hi : t.isIdent = true) (body : List Stmt) (here : Surroundings)
    (ht : t ∈ Stmt.atomsAll body) : t ∈ (Stmt.occurrencesAll here body).map Occurrence.name := by
  cases body with
  | nil => cases ht
  | cons s rest =>
    simp only [Stmt.occurrencesAll, List.map_append, List.mem_append]
    exact (List.mem_append.mp ht).imp (s.occurrences_complete hi _) (Stmt.occurrences_complete_all hi rest _)

end

end Wordstack
